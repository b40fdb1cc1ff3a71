import Mathlib.Data.List.Basic

/-! A table of slots, some of them empty, as a finite map from keys to values. -/
namespace Xv6.SlotTable
open Function
variable {K V : Type} [DecidableEq K]

structure Table (K V : Type) where
  len : Nat
  slot : Nat → Option (K × V)

def Table.find (t : Table K V) (k : K) : Option Nat :=
  (List.range t.len).find? fun i => (t.slot i).any fun e => e.1=k

def Table.lookup (t : Table K V) (k : K) : Option V := (t.find k).bind fun i => (t.slot i).map (·.2)

def Table.Unique (t : Table K V) : Prop :=
  ∀ i < t.len, ∀ j < t.len, ∀ k v w, t.slot i=some (k, v) → t.slot j=some (k, w) → i=j

/-- An entry stored in slot `i`, which may be the next one. -/
def Table.put (t : Table K V) (i : Nat) (e : K × V) : Table K V :=
  ⟨max t.len (i+1),update t.slot i (some e)⟩

def Table.clear (t : Table K V) (i : Nat) : Table K V := { t with slot := update t.slot i none }

def Table.firstEmpty (t : Table K V) : Nat :=
  ((List.range t.len).find? fun i => (t.slot i).isNone).getD t.len

variable {t : Table K V} {k : K} {v : V} {i : Nat}

theorem any_key_iff {o : Option (K × V)} : (o.any fun e => e.1=k)=true ↔ ∃ v, o=some (k, v) := by
  cases o with
  | none => simp
  | some e =>
    obtain ⟨k',v⟩ := e
    simp only [Option.any_some,decide_eq_true_eq,Option.some.injEq,Prod.mk.injEq]
    exact ⟨fun h => ⟨v,h,rfl⟩,fun ⟨_,h,_⟩ => h⟩

theorem find_eq_some (h : t.find k=some i) : i < t.len ∧ ∃ v, t.slot i=some (k, v) := by
  have hslot := List.find?_some h
  exact ⟨List.mem_range.mp (List.mem_of_find?_eq_some h),any_key_iff.mp hslot⟩

theorem find_eq_none_iff : t.find k=none ↔ ∀ i < t.len, ∀ v, t.slot i≠some (k, v) := by
  simp only [Table.find,List.find?_eq_none,List.mem_range,any_key_iff,not_exists,ne_eq]

theorem lookup_eq_none_iff : t.lookup k=none ↔ ∀ i < t.len, ∀ v, t.slot i≠some (k, v) := by
  rw [← find_eq_none_iff]
  cases hf : t.find k with
  | none => simp [Table.lookup,hf]
  | some i =>
    obtain ⟨-,v,hv⟩ := find_eq_some hf
    simp [Table.lookup,hf,hv]

theorem Table.Unique.lookup_eq_some_iff (h : t.Unique) :
    t.lookup k=some v ↔ ∃ i < t.len, t.slot i=some (k, v) := by
  constructor
  · intro hl
    obtain ⟨i,hi,hs⟩ := Option.bind_eq_some_iff.mp hl
    obtain ⟨hlt,w,hw⟩ := find_eq_some hi
    rw [hw] at hs
    obtain rfl : w=v := by simpa using hs
    exact ⟨i,hlt,hw⟩
  · rintro ⟨i,hi,hs⟩
    cases hf : t.find k with
    | none => exact absurd hs (find_eq_none_iff.mp hf i hi v)
    | some j =>
      obtain ⟨hj,w,hw⟩ := find_eq_some hf
      obtain rfl : i=j := h i hi j hj k v w hs hw
      simp [Table.lookup,hf,hs]

theorem lookup_eq_some_of_find (hf : t.find k=some i) (hs : t.slot i=some (k, v)) :
    t.lookup k=some v := by simp [Table.lookup,hf,hs]

theorem Table.Unique.lookup_congr {u : Table K V} (ht : t.Unique) (hu : u.Unique)
    (h : ∀ v, (∃ i < u.len, u.slot i=some (k, v)) ↔ ∃ i < t.len, t.slot i=some (k, v)) :
    u.lookup k=t.lookup k := by
  refine Option.ext fun v => ?_
  rw [hu.lookup_eq_some_iff,ht.lookup_eq_some_iff]
  exact h v

section Put

omit [DecidableEq K] in
theorem firstEmpty_spec (t : Table K V) :
    t.firstEmpty ≤ t.len ∧ (t.firstEmpty < t.len → t.slot t.firstEmpty=none) := by
  unfold Table.firstEmpty
  cases hf : (List.range t.len).find? fun i => (t.slot i).isNone with
  | none => exact ⟨Nat.le_refl _,fun h => absurd h (Nat.lt_irrefl _)⟩
  | some i =>
    have hslot := List.find?_some hf
    have hlt := List.mem_range.mp (List.mem_of_find?_eq_some hf)
    exact ⟨Nat.le_of_lt hlt,fun _ => Option.isNone_iff_eq_none.mp hslot⟩

theorem Table.Unique.put (h : t.Unique) (hnew : t.lookup k=none) (hi : i ≤ t.len) :
    (t.put i (k, v)).Unique := by
  rw [lookup_eq_none_iff] at hnew
  intro a ha b hb k' x y hx hy
  simp only [Table.put] at ha hb hx hy
  by_cases hai : a=i <;> by_cases hbi : b=i
  · exact hai.trans hbi.symm
  · subst hai
    rw [update_of_ne hbi] at hy
    obtain ⟨rfl,-⟩ : k=k' ∧ v=x := by simpa using hx
    exact absurd hy (hnew b (by omega) y)
  · subst hbi
    rw [update_of_ne hai] at hx
    obtain ⟨rfl,-⟩ : k=k' ∧ v=y := by simpa using hy
    exact absurd hx (hnew a (by omega) x)
  · rw [update_of_ne hai] at hx
    rw [update_of_ne hbi] at hy
    exact h a (by omega) b (by omega) k' x y hx hy

theorem Table.Unique.lookup_put (h : t.Unique) (hnew : t.lookup k=none) (hi : i ≤ t.len)
    (hempty : i < t.len → t.slot i=none) :
    (t.put i (k, v)).lookup=update t.lookup k (some v) := by
  have hput := h.put (v := v) hnew hi
  funext k'
  by_cases hk : k'=k
  · subst hk
    rw [update_self,hput.lookup_eq_some_iff]
    exact ⟨i,by simp only [Table.put]; omega,by simp [Table.put]⟩
  · rw [update_of_ne hk]
    refine h.lookup_congr hput fun x => ⟨?_,?_⟩
    · rintro ⟨j,hj,hs⟩
      by_cases hji : j=i
      · subst hji
        simp only [Table.put,update_self,Option.some.injEq,Prod.mk.injEq] at hs
        exact absurd hs.1.symm hk
      · simp only [Table.put,update_of_ne hji] at hs hj
        exact ⟨j,by omega,hs⟩
    · rintro ⟨j,hj,hs⟩
      have hji : j≠i := by
        rintro rfl
        rw [hempty hj] at hs
        cases hs
      exact ⟨j,by simp only [Table.put]; omega,by simpa [Table.put,hji] using hs⟩

end Put

section Clear

omit [DecidableEq K] in
theorem Table.Unique.clear (h : t.Unique) : (t.clear i).Unique := by
  intro a ha b hb k' x y hx hy
  have hold {j : Nat} {z : V} (hz : (t.clear i).slot j=some (k', z)) : t.slot j=some (k', z) := by
    by_cases hji : j=i
    · simp [Table.clear,hji] at hz
    · simpa [Table.clear,hji] using hz
  exact h a ha b hb k' x y (hold hx) (hold hy)

theorem Table.Unique.lookup_clear (h : t.Unique) (hf : t.find k=some i) :
    (t.clear i).lookup=update t.lookup k none := by
  obtain ⟨hi,v,hv⟩ := find_eq_some hf
  funext k'
  by_cases hk : k'=k
  · subst hk
    rw [update_self,lookup_eq_none_iff]
    intro j hj w hw
    by_cases hji : j=i
    · simp [Table.clear,hji] at hw
    · simp only [Table.clear,update_of_ne hji] at hw hj
      exact hji (h j hj i hi k' w v hw hv)
  · rw [update_of_ne hk]
    refine h.lookup_congr h.clear fun x => ⟨?_,?_⟩
    · rintro ⟨j,hj,hs⟩
      by_cases hji : j=i
      · simp [Table.clear,hji] at hs
      · exact ⟨j,hj,by simpa [Table.clear,hji] using hs⟩
    · rintro ⟨j,hj,hs⟩
      have hji : j≠i := by
        rintro rfl
        rw [hv] at hs
        obtain ⟨he,-⟩ : k=k' ∧ v=x := by simpa using hs
        exact hk he.symm
      exact ⟨j,hj,by simpa [Table.clear,hji] using hs⟩

end Clear

end Xv6.SlotTable
