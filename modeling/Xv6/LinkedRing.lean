import Mathlib.Tactic.Tauto

/-! Circular linked lists, by a function that gives the successor of each node. -/
namespace Xv6.LinkedRing
variable {α : Type} {ptr ptr' : α → α} {stop : α → Bool} {a b e x p : α} {l A B : List α} {k : Nat}

/-- From `a` the pointers lead through the nodes of the list, and then to `e`. -/
def Seg (ptr : α → α) : α → List α → α → Prop
  | a, [], e => a=e
  | a, x :: l, e => a=x ∧ Seg ptr (ptr x) l e

theorem Seg.congr (h : Seg ptr a l e) (hsame : ∀ y∈l, ptr' y=ptr y) : Seg ptr' a l e := by
  induction l generalizing a with
  | nil => exact h
  | cons x l ih =>
    refine ⟨h.1,?_⟩
    rw [hsame x (by simp)]
    exact ih h.2 fun y hy => hsame y (List.mem_cons_of_mem x hy)

theorem Seg.split (h : Seg ptr a (A++p::B) e) : Seg ptr a A p ∧ Seg ptr (ptr p) B e := by
  induction A generalizing a with
  | nil => exact h
  | cons x A ih =>
    obtain ⟨hA,hB⟩ := ih h.2
    exact ⟨⟨h.1,hA⟩,hB⟩

theorem Seg.join (h : Seg ptr a A p) (h' : Seg ptr (ptr p) B e) : Seg ptr a (A++p::B) e := by
  induction A generalizing a with
  | nil => exact ⟨h,h'⟩
  | cons x A ih => exact ⟨h.1,ih h.2⟩

theorem Seg.append (h : Seg ptr a A p) (h' : Seg ptr p B e) : Seg ptr a (A++B) e := by
  induction A generalizing a with
  | nil =>
    obtain rfl : a=p := h
    exact h'
  | cons x A ih => exact ⟨h.1,ih h.2⟩

theorem Seg.unique {l' : List α} (h : Seg ptr a l e) (h' : Seg ptr a l' e) (he : e∉l) (he' : e∉l') :
    l=l' := by
  induction l generalizing a l' with
  | nil =>
    obtain rfl : a=e := h
    cases l' with
    | nil => rfl
    | cons y l' => exact absurd h'.1 fun heq => he' (by simp [heq])
  | cons x l ih =>
    obtain ⟨rfl,hl⟩ := h
    cases l' with
    | nil => exact absurd h' fun heq => he (by rw [heq]; simp)
    | cons y l' =>
      obtain ⟨rfl,hl'⟩ := h'
      rw [ih hl hl' (fun hmem => he (List.mem_cons_of_mem a hmem))
        fun hmem => he' (List.mem_cons_of_mem a hmem)]

theorem Seg.ptr_eq (h : Seg ptr x (A++p::B) x) : ptr p=B.headD x := by
  have hB := h.split.2
  cases B with
  | nil => exact hB
  | cons y B => exact hB.1

theorem Seg.rotate (h : Seg ptr x (A++p::B) x) : Seg ptr p (p::(B++A)) p :=
  ⟨rfl,h.split.2.append h.split.1⟩

def walk (ptr : α → α) (stop : α → Bool) : α → Nat → Option α
  | _, 0 => none
  | p, k+1 => if stop p then some p else walk ptr stop (ptr p) k

theorem walk_eq_find (h : Seg ptr a l e) (hex : ∃ q∈l, stop q=true) (hk : l.length ≤ k) :
    walk ptr stop a k=l.find? stop := by
  induction l generalizing a k with
  | nil =>
    obtain ⟨q,hq,-⟩ := hex
    cases hq
  | cons y l ih =>
    obtain ⟨rfl,hrest⟩ := h
    cases k with
    | zero => cases hk
    | succ k =>
      rw [walk,List.find?_cons]
      cases hstop : stop a with
      | true => rfl
      | false =>
        obtain ⟨q,hq,hs⟩ := hex
        have hmem : q∈l := by
          rcases List.mem_cons.mp hq with rfl | hq
          · rw [hstop] at hs
            cases hs
          · exact hq
        exact ih hrest ⟨q,hmem,hs⟩ (Nat.le_of_succ_le_succ hk)

theorem Seg.walk (h : Seg ptr x (A++p::B) x) (hex : ∃ q∈A++p::B, stop q=true)
    (hk : (A++p::B).length ≤ k) : ∃ q∈A++p::B, stop q=true ∧ walk ptr stop p k=some q := by
  have hmem (q : α) : q∈p::(B++A) ↔ q∈A++p::B := by
    simp only [List.mem_cons,List.mem_append]
    tauto
  obtain ⟨q,hq,hs⟩ := hex
  have hfind : (p::(B++A)).find? stop≠none := by
    rw [ne_eq,List.find?_eq_none]
    exact fun hnone => hnone q ((hmem q).mpr hq) hs
  obtain ⟨r,hr⟩ := Option.ne_none_iff_exists'.mp hfind
  refine ⟨r,(hmem r).mp (List.mem_of_find?_eq_some hr),List.find?_some hr,?_⟩
  rw [walk_eq_find h.rotate ⟨q,(hmem q).mpr hq,hs⟩ ?_,hr]
  simp only [List.length_cons,List.length_append] at hk ⊢
  omega

end Xv6.LinkedRing
