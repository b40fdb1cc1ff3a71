import Mathlib.Algebra.Order.BigOperators.Group.Finset
import Mathlib.Tactic.Abel

/-! Sums over a finite index set in which one summand is replaced, and tables of names in
which 0 stands for no name: the multiset of the names that a table holds. -/
namespace Xv6.Holdings
open Function
variable {ι M : Type} [AddCommMonoid M] {s : Finset ι} {f : ι → Nat} {i : ι} {b : Nat}

theorem sum_update_add [DecidableEq ι] (f : ι → M) (hi : i∈s) (x : M) :
    ∑ j∈s, update f i x j+f i = ∑ j∈s, f j+x := by
  have hother : ∑ j∈s.erase i, update f i x j = ∑ j∈s.erase i, f j :=
    Finset.sum_congr rfl fun j hj => update_of_ne (Finset.ne_of_mem_erase hj) x f
  rw [← Finset.add_sum_erase s _ hi,update_self,hother,← Finset.add_sum_erase s f hi]
  abel

theorem sum_comp_update [DecidableEq ι] {α : Type} (g : α → M) (f : ι → α) (hi : i∈s) (x : α) :
    ∑ j∈s, g (update f i x j)+g (f i) = ∑ j∈s, g (f j)+g x := by
  have hcomp : (fun j => g (update f i x j))=update (fun j => g (f j)) i (g x) := by
    funext j
    by_cases hj : j=i
    · simp [hj]
    · simp [hj]
  rw [hcomp,sum_update_add _ hi]

def name (a : Nat) : Multiset Nat := if a=0 then 0 else {a}

theorem name_zero : name 0=0 := rfl

theorem name_of_ne (h : b≠0) : name b={b} := if_neg h

def held (s : Finset ι) (f : ι → Nat) : Multiset Nat := ∑ i∈s, name (f i)

theorem held_congr {g : ι → Nat} (h : ∀ i∈s, g i=f i) : held s g=held s f :=
  Finset.sum_congr rfl fun i hi => by rw [h i hi]

theorem held_empty (h : ∀ i∈s, f i=0) : held s f=0 :=
  Finset.sum_eq_zero fun i hi => by rw [h i hi,name_zero]

theorem mem_held (hi : i∈s) (h : f i≠0) : f i∈held s f :=
  Multiset.mem_sum.mpr ⟨i,hi,by simp [name,h]⟩

theorem held_update [DecidableEq ι] (hi : i∈s) (f : ι → Nat) (b : Nat) :
    held s (update f i b)+name (f i)=held s f+name b :=
  sum_comp_update name f hi b

end Xv6.Holdings
