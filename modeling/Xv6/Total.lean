import Mathlib.Logic.Basic

/-! Computations that end with a value or stop with an error: rules for showing that
they end with a value that meets a postcondition. -/
namespace Xv6.Total
variable {ε α β : Type}

/-- The computation does not stop with an error, and its value meets `Q`. -/
def Yields (x : Except ε α) (Q : α → Prop) : Prop := ∃ a, x=.ok a ∧ Q a

variable {a : α} {Q : α → Prop}

theorem Yields.ok (h : Q a) : Yields (.ok a : Except ε α) Q := ⟨a,rfl,h⟩

variable {x : Except ε α} {P : α → Prop}

theorem Yields.weaken (h : Yields x P) (hPQ : ∀ a, P a → Q a) : Yields x Q := by
  obtain ⟨a,ha,hP⟩ := h
  exact ⟨a,ha,hPQ a hP⟩

variable {f : α → Except ε β}

theorem Yields.bind {Q : β → Prop}
    (h : Yields x P) (hf : ∀ a, P a → Yields (f a) Q) : Yields (x >>= f) Q := by
  obtain ⟨a,rfl,hP⟩ := h
  exact hf a hP

/-- What a sequence of computations that ended has done. -/
theorem bind_eq_ok {b : β} : x >>= f=.ok b ↔ ∃ a, x=.ok a ∧ f a=.ok b := by
  cases x with
  | error e =>
    constructor
    · intro h
      cases h
    · rintro ⟨a,ha,-⟩
      cases ha
  | ok a =>
    constructor
    · intro h
      exact ⟨a,rfl,h⟩
    · rintro ⟨a',ha,h⟩
      obtain rfl : a=a' := Except.ok.inj ha
      exact h

theorem Yields.apply (h : Yields x Q) (ha : x=.ok a) : Q a := by
  obtain ⟨b,hb,hQ⟩ := h
  obtain rfl : a=b := Except.ok.inj (ha.symm.trans hb)
  exact hQ

theorem Yields.and (h : Yields x P) (hQ : ∀ a, x=.ok a → Q a) : Yields x fun a => P a ∧ Q a := by
  obtain ⟨a,ha,hP⟩ := h
  exact ⟨a,ha,hP,hQ a ha⟩

theorem Yields.ok_bind {Q : β → Prop} (h : Yields (f a) Q) : Yields (.ok a >>= f) Q := h

/-- A loop over a list keeps an invariant that may depend on what is still to come. -/
theorem Yields.foldlM {f : β → α → Except ε β} {I : List α → β → Prop}
    (hf : ∀ a rest b, I (a::rest) b → Yields (f b a) (I rest)) {l : List α} {b : β}
    (h : I l b) : Yields (l.foldlM f b) (I []) := by
  induction l generalizing b with
  | nil => exact .ok h
  | cons a l ih =>
    exact (hf a l b h).bind fun c hc => ih hc

/-- The computation ends with a value that meets `Q`, or with an error that meets `E`. -/
def Ends (E : ε → Prop) (x : Except ε α) (Q : α → Prop) : Prop :=
  (∃ a, x=.ok a ∧ Q a) ∨ ∃ e, x=.error e ∧ E e

section Ends
variable {E : ε → Prop} {x : Except ε α} {P Q : α → Prop}

theorem Ends.ok (h : Q a) : Ends E (.ok a) Q := .inl ⟨a,rfl,h⟩

theorem Ends.error {e : ε} (h : E e) : Ends E (.error e : Except ε α) Q := .inr ⟨e,rfl,h⟩

theorem Yields.ends (h : Yields x Q) : Ends E x Q := .inl h

theorem Ends.bind {f : α → Except ε β} {R : β → Prop} (h : Ends E x P)
    (hf : ∀ a, P a → Ends E (f a) R) : Ends E (x >>= f) R := by
  obtain ⟨a,rfl,hP⟩ | ⟨e,rfl,he⟩ := h
  · exact hf a hP
  · exact .inr ⟨e,rfl,he⟩

theorem Ends.map {f : α → β} {R : β → Prop} (h : Ends E x fun a => R (f a)) :
    Ends E (x.map f) R := by
  obtain ⟨a,rfl,hR⟩ | ⟨e,rfl,he⟩ := h
  · exact .ok hR
  · exact .error he

theorem Ends.weaken (h : Ends E x P) (hPQ : ∀ a, P a → Q a) : Ends E x Q := by
  obtain ⟨a,ha,hP⟩ | herr := h
  · exact .inl ⟨a,ha,hPQ a hP⟩
  · exact .inr herr

theorem Ends.weaken_error {F : ε → Prop} (h : Ends E x Q) (hEF : ∀ e, E e → F e) : Ends F x Q := by
  obtain hok | ⟨e,he,hE⟩ := h
  · exact .inl hok
  · exact .inr ⟨e,he,hEF e hE⟩

theorem Ends.apply (h : Ends E x Q) (ha : x=.ok a) : Q a := by
  obtain ⟨b,hb,hQ⟩ | ⟨e,he,-⟩ := h
  · obtain rfl : a=b := Except.ok.inj (ha.symm.trans hb)
    exact hQ
  · cases ha.symm.trans he

end Ends

end Xv6.Total
