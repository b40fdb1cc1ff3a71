import Xv6.Holdings
import Mathlib.Algebra.BigOperators.Fin

/-! Trees of tables, three levels deep. Each table lies on a page of its own, so that
the pages of a tree form a multiset; the lemmas say what the edits of a tree do to its
entries and to its pages. -/
namespace Xv6.PageTree
variable {π ι α : Type}

/-- A table on the page `page`, each of whose entries is empty or holds a value. -/
structure Table (π ι α : Type) where
  page : π
  entry : ι → Option α

namespace Table

def empty (p : π) : Table π ι α := ⟨p,fun _ => none⟩

def set [DecidableEq ι] (t : Table π ι α) (i : ι) (x : Option α) : Table π ι α :=
  { t with entry := Function.update t.entry i x }

theorem set_self [DecidableEq ι] (t : Table π ι α) (i : ι) (x : Option α) :
    (t.set i x).entry i=x := by
  simp [set]

theorem set_eq_self [DecidableEq ι] {t : Table π ι α} {i : ι} {x : Option α}
    (h : t.entry i=x) : t.set i x=t := by
  rw [set,← h,Function.update_eq_self]

/-- The pages of a table and of what hangs from it, when a value takes the pages `f`. -/
def pages [Fintype ι] (f : α → Multiset π) (t : Table π ι α) : Multiset π :=
  {t.page} + ∑ i, (t.entry i).elim 0 f

theorem pages_empty [Fintype ι] (f : α → Multiset π) (p : π) :
    (empty p : Table π ι α).pages f={p} := by
  simp [pages,empty]

theorem pages_set [Fintype ι] [DecidableEq ι] (f : α → Multiset π) (t : Table π ι α) (i : ι)
    (x : Option α) : (t.set i x).pages f+(t.entry i).elim 0 f=t.pages f+x.elim 0 f := by
  have hset : (fun j => ((t.set i x).entry j).elim 0 f) =
      Function.update (fun j => (t.entry j).elim 0 f) i (x.elim 0 f) := by
    funext j
    by_cases hj : j=i
    · simp [set,hj]
    · simp [set,hj]
  rw [pages,pages,hset,add_assoc,Holdings.sum_update_add _ (Finset.mem_univ i),add_assoc]
  rfl

end Table

/-- A tree of tables: two levels of tables above the tables that hold the values. -/
abbrev Tree (π ι α : Type) := Table π ι (Table π ι (Table π ι α))

abbrev Path (ι : Type) := ι × ι × ι

def lookup (t : Tree π ι α) (x : Path ι) : Option α :=
  (t.entry x.1).bind fun a => (a.entry x.2.1).bind fun b => b.entry x.2.2

def reaches (t : Tree π ι α) (x : Path ι) : Prop :=
  ∃ a b, t.entry x.1=some a ∧ a.entry x.2.1=some b

def put [DecidableEq ι] (t : Tree π ι α) (x : Path ι) (v : Option α) : Tree π ι α :=
  match t.entry x.1 with
  | none => t
  | some a =>
    match a.entry x.2.1 with
    | none => t
    | some b => t.set x.1 (some (a.set x.2.1 (some (b.set x.2.2 v))))

def tables [Fintype ι] (t : Tree π ι α) : Multiset π :=
  t.pages (Table.pages (Table.pages fun _ => 0))

theorem reaches_of_lookup {t : Tree π ι α} {x : Path ι} {v : α} (h : lookup t x=some v) :
    reaches t x := by
  simp only [lookup,Option.bind_eq_some_iff] at h
  obtain ⟨a,ha,b,hb,-⟩ := h
  exact ⟨a,b,ha,hb⟩

section
variable [DecidableEq ι] {t : Tree π ι α} {x y : Path ι}

theorem lookup_put (h : reaches t x) (v : Option α) :
    lookup (put t x v) y = if y=x then v else lookup t y := by
  obtain ⟨a,b,ha,hb⟩ := h
  obtain ⟨i,j,k⟩ := x
  obtain ⟨i',j',k'⟩ := y
  simp only [put,ha,hb,lookup,Table.set,Prod.mk.injEq]
  by_cases hi : i'=i
  · subst hi
    by_cases hj : j'=j
    · subst hj
      by_cases hk : k'=k
      · subst hk
        simp
      · simp [hk,ha,hb]
    · simp [hj,ha]
  · simp [hi]

theorem tables_put [Fintype ι] (v : Option α) : tables (put t x v)=tables t := by
  unfold put
  split
  · rfl
  rename_i a ha
  split
  · rfl
  rename_i b hb
  -- a new entry of the lowest table changes no page, and so up to the root
  have hlow := Table.pages_set (fun _ : α => (0 : Multiset π)) b x.2.2 v
  have hlow : (b.set x.2.2 v).pages (fun _ => (0 : Multiset π))=b.pages fun _ => 0 := by
    cases v <;> cases h : b.entry x.2.2 <;> simpa [h] using hlow
  have hmid := Table.pages_set (Table.pages fun _ : α => (0 : Multiset π)) a x.2.1
    (some (b.set x.2.2 v))
  simp only [hb,Option.elim_some,hlow,add_left_inj] at hmid
  have htop := Table.pages_set (Table.pages (Table.pages fun _ : α => (0 : Multiset π))) t x.1
    (some (a.set x.2.1 (some (b.set x.2.2 v))))
  simp only [ha,Option.elim_some,hmid,add_left_inj] at htop
  exact htop

theorem lookup_set_root {i : ι} {p : π} (h : t.entry i=none) :
    lookup (t.set i (some (.empty p))) y=lookup t y := by
  by_cases hi : y.1=i
  · simp [lookup,Table.set,Table.empty,hi,h]
  · simp [lookup,Table.set,hi]

theorem tables_set_root [Fintype ι] {i : ι} {p : π} (h : t.entry i=none) :
    tables (t.set i (some (.empty p)))=tables t+{p} := by
  have htop := Table.pages_set (Table.pages (Table.pages fun _ : α => (0 : Multiset π))) t i
    (some (.empty p))
  simp only [h,Option.elim_none,add_zero,Option.elim_some,Table.pages_empty] at htop
  exact htop

theorem lookup_set_middle {a : Table π ι (Table π ι α)} {p : π} (ha : t.entry x.1=some a)
    (h : a.entry x.2.1=none) :
    lookup (t.set x.1 (some (a.set x.2.1 (some (.empty p))))) y=lookup t y := by
  by_cases hi : y.1=x.1
  · by_cases hj : y.2.1=x.2.1
    · simp [lookup,Table.set,Table.empty,hi,hj,ha,h]
    · simp [lookup,Table.set,hi,hj,ha]
  · simp [lookup,Table.set,hi]

theorem tables_set_middle [Fintype ι] {a : Table π ι (Table π ι α)} {p : π}
    (ha : t.entry x.1=some a) (h : a.entry x.2.1=none) :
    tables (t.set x.1 (some (a.set x.2.1 (some (.empty p)))))=tables t+{p} := by
  have hmid := Table.pages_set (Table.pages fun _ : α => (0 : Multiset π)) a x.2.1
    (some (.empty p))
  simp only [h,Option.elim_none,add_zero,Option.elim_some,Table.pages_empty] at hmid
  have htop := Table.pages_set (Table.pages (Table.pages fun _ : α => (0 : Multiset π))) t x.1
    (some (a.set x.2.1 (some (.empty p))))
  simp only [ha,Option.elim_some,hmid,← add_assoc] at htop
  exact add_right_cancel (htop.trans (add_right_comm _ _ _))

end

theorem lookup_empty (p : π) (x : Path ι) : lookup (.empty p : Tree π ι α) x=none := rfl

theorem tables_empty [Fintype ι] (p : π) : tables (.empty p : Tree π ι α) = {p} :=
  Table.pages_empty _ p

end Xv6.PageTree
