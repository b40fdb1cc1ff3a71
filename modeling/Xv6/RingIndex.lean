import Mathlib.Data.List.Basic

/-! Rings whose two ends are counted without end: position `k` is kept in slot `k % n`,
and the counters that the two sides compare are kept modulo `w`. -/
namespace Xv6.RingIndex
open Function
variable {α : Type} {ring : Nat → α} {n w lo d : Nat} {x : α} {xs : List α}

/-- The slots from position `lo` on hold the entries of the list. -/
def Holds (ring : Nat → α) (n lo : Nat) (xs : List α) : Prop :=
  ∀ i y, xs[i]?=some y → ring ((lo+i)%n)=y

theorem holds_nil : Holds ring n lo [] := by
  intro i y h
  simp at h

theorem Holds.head (h : Holds ring n lo (x::xs)) : ring (lo%n)=x := h 0 x rfl

theorem Holds.tail (h : Holds ring n lo (x::xs)) : Holds ring n (lo+1) xs := by
  intro i y hi
  have := h (i+1) y (by simpa using hi)
  rwa [Nat.add_right_comm]

theorem slot_ne {i j : Nat} (hij : i < j) (hj : j < i+n) : i%n≠j%n := by
  intro h
  have hdvd : n∣j-i := Nat.dvd_of_mod_eq_zero (Nat.sub_mod_eq_zero_of_mod_eq h.symm)
  have := Nat.le_of_dvd (by omega) hdvd
  omega

/-- Writing the slot after the last entry leaves the entries alone. -/
theorem Holds.write (h : Holds ring n lo xs) (hlen : xs.length < n) (x : α) :
    Holds (update ring ((lo+xs.length)%n) x) n lo xs := by
  intro i y hi
  have hlt : i < xs.length := (List.getElem?_eq_some_iff.mp hi).1
  rw [update_of_ne (slot_ne (by omega) (by omega)),h i y hi]

theorem Holds.push (h : Holds ring n lo xs) (hx : ring ((lo+xs.length)%n)=x) :
    Holds ring n lo (xs++[x]) := by
  intro i y hi
  rw [List.getElem?_append] at hi
  split at hi
  · exact h i y hi
  · rename_i hge
    obtain ⟨hlt,hy⟩ := List.getElem?_eq_some_iff.mp hi
    simp only [List.length_cons,List.length_nil] at hlt
    obtain rfl : i=xs.length := by omega
    simp only [Nat.sub_self,List.getElem_cons_zero] at hy
    rw [hx,hy]

/-- Counters that are less than `w` apart are equal modulo `w` only if they are equal. -/
theorem counter_eq_iff (hd : d < w) : lo%w=(lo+d)%w ↔ d=0 := by
  constructor
  · intro h
    have hdvd : w∣lo+d-lo := Nat.dvd_of_mod_eq_zero (Nat.sub_mod_eq_zero_of_mod_eq h.symm)
    exact Nat.eq_zero_of_dvd_of_lt (by simpa using hdvd) hd
  · rintro rfl
    rfl

/-- The distance between two counters, computed modulo `w`. -/
theorem counter_sub (hd : d < w) : ((lo+d)%w+w-lo%w)%w=d := by
  have hlo : lo%w < w := Nat.mod_lt _ (by omega)
  rw [Nat.add_mod lo d,Nat.mod_eq_of_lt hd]
  generalize lo%w=a at hlo
  rcases Nat.lt_or_ge (a+d) w with hlt | hge
  · rw [Nat.mod_eq_of_lt hlt,show a+d+w-a=d+w by omega,Nat.add_mod_right,Nat.mod_eq_of_lt hd]
  · have hround : (a+d)%w=a+d-w := by
      rw [Nat.mod_eq_sub_mod hge]
      exact Nat.mod_eq_of_lt (by omega)
    rw [hround,show a+d-w+w-a=d by omega,Nat.mod_eq_of_lt hd]

theorem Holds.read (h : Holds ring n lo xs) :
    (List.range xs.length).map (fun k => ring ((lo+k)%n))=xs := by
  refine List.ext_getElem (by simp) fun i hi hi' => ?_
  simp only [List.getElem_map,List.getElem_range]
  exact h i _ (List.getElem?_eq_getElem hi')

end Xv6.RingIndex
