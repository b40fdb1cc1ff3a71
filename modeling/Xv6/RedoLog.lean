import Mathlib.Data.List.Nodup

/-! Redo logs: a header with the locations that a transaction writes, and for each of them a slot with
its new contents; `recovered` is what the locations hold once the log is installed. -/
namespace Xv6.RedoLog
open Function
variable {β δ : Type*} [DecidableEq β]

def recovered (home : β → δ) (slot : Nat → δ) (head : List β) (x : β) : δ :=
  if x∈head then slot (head.idxOf x) else home x

section Recovered
variable {home home' : β → δ} {slot slot' : Nat → δ} {head : List β} {x : β}

theorem recovered_nil : recovered home slot [] x=home x := rfl

theorem recovered_congr (hslot : ∀ i, i < head.length → slot' i=slot i)
    (hhome : x∉head → home' x=home x) :
    recovered home' slot' head x=recovered home slot head x := by
  unfold recovered
  split
  next hx => exact hslot _ (List.idxOf_lt_length_of_mem hx)
  next hx => exact hhome hx

theorem recovered_eq {v : β → δ} (hslot : ∀ i y, head[i]?=some y → slot i=v y)
    (hhome : x∉head → home x=v x) : recovered home slot head x=v x := by
  unfold recovered
  split
  next hx => exact hslot _ x (List.getElem?_idxOf hx)
  next hx => exact hhome hx

end Recovered

/-- The contents as the programs see them, and as a crash leaves them. -/
structure Store (β δ : Type*) where
  volatile : β → δ
  durable : β → δ

inductive Event (β δ : Type*) where
  | write (x : β) (d : δ)
  | commit
  | crash

namespace Store

def apply (s : Store β δ) : Event β δ → Store β δ
  | .write x d => { s with volatile := update s.volatile x d }
  | .commit => { s with durable := s.volatile }
  | .crash => { s with volatile := s.durable }

def replay (s : Store β δ) (es : List (Event β δ)) : Store β δ := es.foldl apply s

theorem replay_append (s : Store β δ) (es fs : List (Event β δ)) :
    s.replay (es++fs)=(s.replay es).replay fs := List.foldl_append

def Agree (H : β → Prop) (s t : Store β δ) : Prop :=
  ∀ x, H x → s.volatile x=t.volatile x ∧ s.durable x=t.durable x

theorem Agree.apply {H : β → Prop} {s t : Store β δ} (h : s.Agree H t) (e : Event β δ) :
    (s.apply e).Agree H (t.apply e) := by
  intro x hx
  cases e with
  | write y d =>
    refine ⟨?_,(h x hx).2⟩
    by_cases hxy : x=y
    · simp [Store.apply,hxy]
    · simpa [Store.apply,hxy] using (h x hx).1
  | commit => exact ⟨(h x hx).1,(h x hx).1⟩
  | crash => exact ⟨(h x hx).2,(h x hx).2⟩

theorem Agree.replay {H : β → Prop} {s t : Store β δ} (h : s.Agree H t) (es : List (Event β δ)) :
    (s.replay es).Agree H (t.replay es) := by
  induction es generalizing s t with
  | nil => exact h
  | cons e es ih => exact ih (h.apply e)

omit [DecidableEq β] in
theorem Agree.refl (H : β → Prop) (s : Store β δ) : s.Agree H s := fun _ _ => ⟨rfl,rfl⟩

omit [DecidableEq β] in
theorem Agree.trans {H : β → Prop} {s t u : Store β δ} (h : s.Agree H t) (h' : t.Agree H u) :
    s.Agree H u :=
  fun x hx => ⟨(h x hx).1.trans (h' x hx).1,(h x hx).2.trans (h' x hx).2⟩

end Store
end Xv6.RedoLog
