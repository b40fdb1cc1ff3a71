import Mathlib.Data.List.Nodup

/-! Lists doubly linked into a ring through a sentinel, `none`: what unlinking a
node and linking one in behind the sentinel do to the ring, and what a walk
along it finds. -/
namespace Xv6.Ring
variable {α : Type*}

structure Links (α : Type*) where
  next : Option α → Option α
  prev : Option α → Option α

namespace Links

def empty : Links α := ⟨fun _ => none, fun _ => none⟩

def swap (k : Links α) : Links α := ⟨k.prev,k.next⟩

/-- The links lead from `x` through `l` to `y`, and back. -/
def Segment (k : Links α) : Option α → List α → Option α → Prop
  | x, [], y => k.next x=y ∧ k.prev y=x
  | x, b :: l, y => k.next x=some b ∧ k.prev (some b)=x ∧ Segment k (some b) l y

/-- The ring holds the nodes of `l`, each once, in this order. -/
structure Forms (k : Links α) (l : List α) : Prop where
  nodup : l.Nodup
  segment : k.Segment none l none

theorem empty_forms : (empty : Links α).Forms [] := ⟨List.nodup_nil,rfl,rfl⟩

variable {k : Links α} {u v : List α} {x y : Option α} {b : α}

theorem segment_append :
    k.Segment x (u++b::v) y ↔ k.Segment x u (some b) ∧ k.Segment (some b) v y := by
  induction u generalizing x with
  | nil => simp [Segment,and_assoc]
  | cons a u ih => simp [Segment,ih,and_assoc]

variable {l : List α}

theorem Segment.congr {k' : Links α} (h : k.Segment x l y)
    (hnext : ∀ z, z=x ∨ z∈l.map some → k'.next z=k.next z)
    (hprev : ∀ z, z=y ∨ z∈l.map some → k'.prev z=k.prev z) : k'.Segment x l y := by
  induction l generalizing x with
  | nil => exact ⟨(hnext x (.inl rfl)).trans h.1,(hprev y (.inl rfl)).trans h.2⟩
  | cons b l ih =>
    refine ⟨(hnext x (.inl rfl)).trans h.1,(hprev _ (.inr (by simp))).trans h.2.1,?_⟩
    refine ih h.2.2 (fun z hz => hnext z (.inr ?_)) (fun z hz => hprev z ?_)
    · simpa using hz
    · exact hz.imp id (fun hz => by simp [hz])

theorem Segment.swap (h : k.Segment x l y) : k.swap.Segment y l.reverse x := by
  induction l generalizing x with
  | nil => exact ⟨h.2,h.1⟩
  | cons b l ih =>
    rw [List.reverse_cons,segment_append]
    exact ⟨ih h.2.2,h.2.1,h.1⟩

theorem Forms.swap (h : k.Forms l) : k.swap.Forms l.reverse :=
  ⟨List.nodup_reverse.mpr h.nodup,h.segment.swap⟩

theorem Segment.prev_mem (h : k.Segment x l y) : k.prev y=x ∨ k.prev y∈l.map some := by
  induction l generalizing x with
  | nil => exact .inl h.2
  | cons b l ih => exact .inr (by simpa [eq_comm] using ih h.2.2)

theorem Segment.next_mem (h : k.Segment x l y) : k.next x=y ∨ k.next x∈l.map some := by
  cases l with
  | nil => exact .inl h.1
  | cons b l => exact .inr (by simp [h.1])

variable [DecidableEq α]

def unlink (k : Links α) (b : α) : Links α :=
  let k₁ : Links α := { k with prev := Function.update k.prev (k.next (some b)) (k.prev (some b)) }
  { k₁ with next := Function.update k₁.next (k₁.prev (some b)) (k₁.next (some b)) }

def link (k : Links α) (b : α) : Links α :=
  let k₁ : Links α := { k with next := Function.update k.next (some b) (k.next none) }
  let k₂ : Links α := { k₁ with prev := Function.update k₁.prev (some b) none }
  let k₃ : Links α := { k₂ with prev := Function.update k₂.prev (k₂.next none) (some b) }
  { k₃ with next := Function.update k₃.next none (some b) }

theorem unlink_eq (h : k.next (some b)≠some b) :
    k.unlink b=⟨Function.update k.next (k.prev (some b)) (k.next (some b)),
      Function.update k.prev (k.next (some b)) (k.prev (some b))⟩ := by
  simp [unlink,Function.update_of_ne h.symm]

theorem Segment.unlink (hu : k.Segment x u (some b)) (hv : k.Segment (some b) v y)
    (hxu : x∉u.map some) (hxv : x∉v.map some) (hyu : y∉u.map some) (hyv : y∉v.map some)
    (hyb : y≠some b) (hnd : (u++b::v).Nodup) : (k.unlink b).Segment x (u++v) y := by
  have hbv : some b∉v.map some := by
    simpa using (List.nodup_cons.mp hnd.of_append_right).1
  have hloop : k.next (some b)≠some b := by
    rcases hv.next_mem with h | h
    · exact h ▸ hyb
    · exact fun hb => hbv (hb ▸ h)
  rw [unlink_eq hloop]
  induction u generalizing x with
  | nil =>
    cases v with
    | nil => exact ⟨by simp [hu.2,hv.1],by simp [hu.2,hv.1]⟩
    | cons c v =>
      refine ⟨by simp [hu.2,hv.1],by simp [hu.2,hv.1],?_⟩
      have hcv : c∉v := (List.nodup_cons.mp (List.nodup_cons.mp hnd).2).1
      refine hv.2.2.congr (fun z hz => ?_) (fun z hz => ?_)
      · have hzx : z≠x := by
          rintro rfl
          exact hxv (by simpa [eq_comm] using hz)
        simp [hu.2,hzx]
      · have hzc : z≠some c := by
          rintro rfl
          rcases hz with hz | hz
          · exact hyv (by simp [← hz])
          · exact hcv (by simpa using hz)
        simp [hv.1,hzc]
  | cons a u ih =>
    have hau : a∉u++b::v := (List.nodup_cons.mp hnd).1
    have hprev : k.prev (some b)≠x := by
      rcases hu.2.2.prev_mem with h | h
      · exact h ▸ fun hax => hxu (by simp [← hax])
      · exact fun hbx => hxu (by simpa using .inr (by simpa [hbx] using h))
    have hnext : k.next (some b)≠some a := by
      rcases hv.next_mem with h | h
      · exact h ▸ fun hya => hyu (by simp [hya])
      · exact fun hba => hau (by simpa [hba] using .inr (.inr (by simpa [hba] using h)))
    refine ⟨by simp [hprev.symm,hu.1],by simp [hnext.symm,hu.2.1],?_⟩
    refine ih hu.2.2 ?_ ?_ (fun h => hyu (by simp only [List.map_cons]; exact .tail _ h))
      (List.nodup_cons.mp hnd).2
    · simpa using fun h => hau (by simp [h])
    · simpa using fun h => hau (by simp [h])

theorem Forms.unlink (h : k.Forms (u++b::v)) : (k.unlink b).Forms (u++v) := by
  obtain ⟨hu,hv⟩ := segment_append.mp h.segment
  refine ⟨h.nodup.sublist (by simp),hu.unlink hv ?_ ?_ ?_ ?_ ?_ h.nodup⟩ <;> simp

theorem Forms.link (h : k.Forms l) (hb : b∉l) : (k.link b).Forms (b::l) := by
  refine ⟨List.nodup_cons.mpr ⟨hb,h.nodup⟩,?_⟩
  have hseg := h.segment
  cases l with
  | nil => simp [Segment,Links.link,hseg.1]
  | cons a l =>
    have hba : b≠a := fun hba => hb (by simp [hba])
    have hal : a∉l := (List.nodup_cons.mp h.nodup).1
    refine ⟨by simp [Links.link],by simp [Links.link,hseg.1,hba],?_,?_,?_⟩
    · simp [Links.link,hseg.1]
    · simp [Links.link,hseg.1]
    · refine hseg.2.2.congr (fun z hz => ?_) (fun z hz => ?_)
      · have hz0 : z≠none := by rintro rfl; simp at hz
        have hzb : z≠some b := by
          rintro rfl
          exact hb (by simpa using hz)
        simp [Links.link,hz0,hzb]
      · have hza : z≠some a := by
          rintro rfl
          exact hal (by simpa using hz)
        have hzb : z≠some b := by
          rintro rfl
          exact hb (by simpa using Or.inr (by simpa using hz))
        simp [Links.link,hseg.1,hza,hzb]

theorem Forms.foldl_link (hk : k.Forms l)
    (hnd : (u++l).Nodup) : (u.foldl Links.link k).Forms (u.reverse++l) := by
  induction u generalizing k l with
  | nil => simpa using hk
  | cons b u ih =>
    have hmid : (u++b::l).Nodup := List.nodup_middle.mpr hnd
    have hb : b∉l := (List.nodup_cons.mp hmid.of_append_right).1
    simpa using ih (hk.link hb) hmid

theorem Forms.move (h : k.Forms l) (hb : b∈l) :
    ∃ l', ((k.unlink b).link b).Forms l' ∧ ∀ c, c∈l' ↔ c∈l := by
  obtain ⟨u,v,rfl⟩ := List.append_of_mem hb
  have hout : b∉u++v := by
    have hnd := List.nodup_middle.mp h.nodup
    exact (List.nodup_cons.mp hnd).1
  refine ⟨b::(u++v),h.unlink.link hout,fun c => ?_⟩
  simp only [List.mem_cons,List.mem_append]
  tauto

end Links

def walk (step : Option α → Option α) (test : α → Bool) : Nat → Option α → Option α
  | 0, _ => none
  | _ + 1, none => none
  | n+1, some b => if test b then some b else walk step test n (step (some b))

variable {n : Nat}

theorem walk_test {step : Option α → Option α} {test : α → Bool} {x : Option α} {b : α}
    (h : walk step test n x=some b) : test b=true := by
  induction n generalizing x with
  | zero => simp [walk] at h
  | succ n ih =>
    cases x with
    | none => simp [walk] at h
    | some a =>
      by_cases ha : test a=true
      · simp only [walk,ha,if_true,Option.some.injEq] at h
        exact h ▸ ha
      · simp only [walk,ha] at h
        exact ih h

variable {k : Links α} {l : List α}

theorem Links.Segment.walk_eq {x : Option α} (h : k.Segment x l none) (test : α → Bool)
    (hn : l.length ≤ n) : walk k.next test n (k.next x)=l.find? test := by
  induction l generalizing x n with
  | nil => cases n <;> simp [h.1,walk]
  | cons b l ih =>
    cases n with
    | zero => simp at hn
    | succ n =>
      rw [h.1,List.find?_cons,walk]
      cases hb : test b with
      | true => simp
      | false => simpa using ih h.2.2 (by simpa using hn)

theorem Links.Forms.walk_next (h : k.Forms l) (test : α → Bool) (hn : l.length ≤ n) :
    walk k.next test n (k.next none)=l.find? test :=
  h.segment.walk_eq test hn

theorem Links.Forms.walk_prev (h : k.Forms l) (test : α → Bool) (hn : l.length ≤ n) :
    walk k.prev test n (k.prev none)=l.reverse.find? test :=
  h.swap.segment.walk_eq test (by simpa using hn)

end Xv6.Ring
