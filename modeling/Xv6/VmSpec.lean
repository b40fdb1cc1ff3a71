import Xv6.Vm
import Mathlib.Algebra.BigOperators.Intervals

/-! What the functions of `kernel/kalloc.c` and `kernel/vm.c` do to the account of the physical
pages, for any further pages `rest` that their caller holds. -/
namespace Xv6.Vm
open Xv6.PageTree Xv6.Total

/-- The pages of `[PGROUNDUP(end), PHYSTOP)`. -/
def allPages (kend : Nat) : Multiset Page :=
  (Multiset.range ((phystop-pgroundup kend)/pgsize)).map fun i => pgroundup kend+i*pgsize

/-- The pages of the free list and the pages `held` are the pages of the allocator. -/
structure Accounts (kend : Nat) (m : Mem) (held : Multiset Page) : Prop where
  kernelEnd : m.kernelEnd=kend
  inMemory : 0 < kend ∧ kend ≤ phystop
  sum : (m.freelist : Multiset Page)+held=allPages kend

theorem pgsize_eq : pgsize=4096 := rfl

theorem phystop_eq : phystop=2281701376 := rfl

theorem maxva_eq : maxva=274877906944 := rfl

theorem pgroundup_eq {sz : Nat} (h : sz ≤ phystop) : pgroundup sz=(sz+4095)/4096*4096 := by
  have hmod : (sz+4095)%2^64=sz+4095 := by
    rw [phystop_eq] at h
    omega
  rw [pgroundup,add64,pgsize_eq,hmod]

theorem mem_allPages_iff {kend pa : Nat} (hk : kend ≤ phystop) :
    pa∈allPages kend ↔ pa%pgsize=0 ∧ pgroundup kend ≤ pa ∧ pa < phystop := by
  rw [allPages,Multiset.mem_map,pgroundup_eq hk,phystop_eq,pgsize_eq]
  constructor
  · rintro ⟨i,hi,rfl⟩
    rw [Multiset.mem_range] at hi
    omega
  · rintro ⟨halign,hlow,hhigh⟩
    refine ⟨(pa-(kend+4095)/4096*4096)/4096,Multiset.mem_range.mpr (by omega),?_⟩
    omega

theorem mem_allPages {kend pa : Nat} (hk : kend ≤ phystop) (h : pa∈allPages kend) :
    pa%pgsize=0 ∧ kend ≤ pa ∧ pa < phystop := by
  obtain ⟨halign,hlow,hhigh⟩ := (mem_allPages_iff hk).mp h
  rw [pgroundup_eq hk] at hlow
  exact ⟨halign,by omega,hhigh⟩

theorem nodup_allPages (kend : Nat) : (allPages kend).Nodup := by
  refine (Multiset.nodup_range _).map fun i j hij => ?_
  exact Nat.eq_of_mul_eq_mul_right (by decide) (Nat.add_left_cancel hij)

theorem card_allPages (kend : Nat) : (allPages kend).card ≤ phystop/pgsize := by
  rw [allPages,Multiset.card_map,Multiset.card_range]
  exact Nat.div_le_div_right (Nat.sub_le _ _)

theorem kfree_eq {m : Mem} {pa : Page} (halign : pa%pgsize=0) (hlow : m.kernelEnd ≤ pa)
    (hhigh : pa < phystop) : kfree m pa=.ok { m with freelist := pa::m.freelist } := by
  rw [kfree,if_neg]
  rintro (hbad | hbad | hbad)
  · exact hbad halign
  · exact absurd hbad (Nat.not_lt.mpr hlow)
  · exact absurd hhigh (Nat.not_lt.mpr hbad)

namespace Accounts
variable {kend : Nat} {m : Mem} {held rest : Multiset Page}

theorem congr (h : Accounts kend m held) (hh : held=rest) : Accounts kend m rest := hh ▸ h

theorem mem_held (h : Accounts kend m held) {pa : Page} (hpa : pa∈held) :
    pa%pgsize=0 ∧ kend ≤ pa ∧ pa < phystop :=
  mem_allPages h.inMemory.2 (by rw [← h.sum]; exact Multiset.mem_add.mpr (.inr hpa))

theorem nodup (h : Accounts kend m held) : held.Nodup := by
  have hall := nodup_allPages kend
  rw [← h.sum,Multiset.nodup_add] at hall
  exact hall.2.1

theorem card (h : Accounts kend m held) : held.card ≤ phystop/pgsize := by
  have hall := card_allPages kend
  rw [← h.sum,Multiset.card_add] at hall
  omega

theorem kalloc (h : Accounts kend m held) :
    (∃ m', Vm.kalloc m=(m', none) ∧ Accounts kend m' held) ∨
      ∃ m' pa, Vm.kalloc m=(m', some pa) ∧ Accounts kend m' (held+{pa}) := by
  unfold Vm.kalloc
  by_cases hf : m.fails m.calls
  · exact .inl ⟨{ m with calls := m.calls+1 },by simp [hf],h.kernelEnd,h.inMemory,h.sum⟩
  · cases hl : m.freelist with
    | nil =>
      exact .inl ⟨{ m with calls := m.calls+1 },by simp [hf,hl],h.kernelEnd,h.inMemory,h.sum⟩
    | cons r next =>
      refine .inr ⟨{ m with calls := m.calls+1, freelist := next },r,by simp [hf],
        h.kernelEnd,h.inMemory,?_⟩
      rw [← h.sum,hl,← Multiset.cons_coe,← Multiset.singleton_add]
      abel

theorem kfree {pa : Page} (h : Accounts kend m (rest+{pa})) :
    Yields (Vm.kfree m pa) fun m => Accounts kend m rest := by
  have hmem : pa∈rest+{pa} := Multiset.mem_add.mpr (.inr (Multiset.mem_singleton_self pa))
  obtain ⟨halign,hlow,hhigh⟩ := h.mem_held hmem
  rw [← h.kernelEnd] at hlow
  rw [kfree_eq halign hlow hhigh]
  refine .ok ⟨h.kernelEnd,h.inMemory,?_⟩
  rw [← h.sum,← Multiset.cons_coe,← Multiset.singleton_add]
  abel

end Accounts

def leaf (pt : Pagetable) (v : Nat) : Option Pte := lookup pt (path (v*pgsize))

def Pte.held (e : Option Pte) : Multiset Page := e.elim 0 fun e => {e.pa}

theorem path_injective {v w : Nat} (hv : v<2^27) (hw : w<2^27)
    (h : path (v*pgsize)=path (w*pgsize)) : v=w := by
  simp only [path,px,pgsize,Prod.mk.injEq,Fin.ext_iff,Fin.ofNat] at h
  omega

theorem path_surjective (x : Path Index) : ∃ v<2^27, path (v*pgsize)=x := by
  obtain ⟨i,j,k⟩ := x
  refine ⟨i.val*2^18+j.val*2^9+k.val,by omega,?_⟩
  simp only [path,px,pgsize,Prod.mk.injEq,Fin.ext_iff,Fin.ofNat]
  omega

theorem leaf_put {pt : Pagetable} {v w : Nat} (hpt : reaches pt (path (v*pgsize)))
    (hv : v<2^27) (hw : w<2^27) (e : Option Pte) :
    leaf (put pt (path (v*pgsize)) e) w = if w=v then e else leaf pt w := by
  rw [leaf,lookup_put hpt,leaf]
  by_cases hwv : w=v
  · rw [if_pos hwv,if_pos (by rw [hwv])]
  · rw [if_neg hwv,if_neg fun h => hwv (path_injective hw hv h)]

theorem walk_leaf {pt : Pagetable} {v : Nat} {e : Pte} (hv : v<2^26)
    (h : leaf pt v=some e) : walk pt (v*pgsize)=.ok (some (some e)) := by
  have hva : ¬ v*pgsize ≥ maxva := by simp only [pgsize,maxva]; omega
  obtain ⟨a,ha,b,hb,he⟩ : ∃ a, pt.entry (px 2 (v*pgsize))=some a ∧
      ∃ b, a.entry (px 1 (v*pgsize))=some b ∧ b.entry (px 0 (v*pgsize))=some e := by
    simpa [leaf,lookup,path,Option.bind_eq_some_iff] using h
  rw [walk,if_neg hva,ha,Option.bind_some,hb,Option.map_some,he]

section
variable {kend : Nat} {m : Mem} {rest : Multiset Page} {pt : Pagetable} {v : Nat}

theorem walkLevel_cases {α : Type} (h : Accounts kend m rest)
    (t : Table Page Index (Table Page Index α)) (i : Index) :
    (∃ m', walkLevel m t i=(m', t, none) ∧ Accounts kend m' rest) ∨
      (∃ next, t.entry i=some next ∧ walkLevel m t i=(m, t, some next)) ∨
        ∃ m' pa, t.entry i=none ∧
          walkLevel m t i=(m', t.set i (some (.empty pa)), some (.empty pa)) ∧
            Accounts kend m' (rest+{pa}) := by
  cases ht : t.entry i with
  | some next => exact .inr (.inl ⟨next,rfl,by simp [walkLevel,ht]⟩)
  | none =>
    obtain ⟨m',hm,hacc⟩ | ⟨m',pa,hm,hacc⟩ := h.kalloc
    · exact .inl ⟨m',by simp [walkLevel,ht,hm],hacc⟩
    · exact .inr (.inr ⟨m',pa,rfl,by simp [walkLevel,ht,hm],hacc⟩)

theorem walkMiddle (h : Accounts kend m (rest+tables pt)) {x : Path Index}
    {t : Table Page Index (Table Page Index Pte)} (ht : pt.entry x.1=some t) :
    ∃ m' t' next, walkLevel m t x.2.1=(m', t', next) ∧
      Accounts kend m' (rest+tables (pt.set x.1 (some t'))) ∧
        (∀ y, lookup (pt.set x.1 (some t')) y=lookup pt y) ∧
          (next.isSome → reaches (pt.set x.1 (some t')) x) := by
  have hsame : pt.set x.1 (some t)=pt := Table.set_eq_self ht
  obtain ⟨m',hm,hacc⟩ | ⟨next,hnext,hm⟩ | ⟨m',pa,hnone,hm,hacc⟩ := walkLevel_cases h t x.2.1
  · refine ⟨m',t,none,hm,?_,?_,nofun⟩
    · rwa [hsame]
    · intro y
      rw [hsame]
  · refine ⟨m,t,some next,hm,?_,?_,fun _ => ⟨t,next,?_,hnext⟩⟩
    · rwa [hsame]
    · intro y
      rw [hsame]
    · rw [hsame,ht]
  · refine ⟨m',_,_,hm,hacc.congr ?_,fun y => lookup_set_middle ht hnone,fun _ => ?_⟩
    · rw [tables_set_middle ht hnone]
      abel
    · exact ⟨_,.empty pa,Table.set_self ..,Table.set_self ..⟩

theorem walkAlloc_spec (h : Accounts kend m (rest+tables pt)) (hv : v<2^26) :
    Yields (walkAlloc m pt (v*pgsize)) fun r =>
      Accounts kend r.1 (rest+tables r.2.1) ∧ (∀ y, lookup r.2.1 y=lookup pt y) ∧
        (r.2.2=true → reaches r.2.1 (path (v*pgsize))) := by
  have hva : ¬ v*pgsize ≥ maxva := by rw [pgsize_eq,maxva_eq]; omega
  rw [walkAlloc,if_neg hva]
  obtain ⟨m',hm,hacc⟩ | ⟨t,ht,hm⟩ | ⟨m',pa,hnone,hm,hacc⟩ := walkLevel_cases h pt (px 2 (v*pgsize))
  · rw [hm]
    exact .ok ⟨hacc,fun _ => rfl,by simp⟩
  · obtain ⟨m₂,t',next,hlow,hacc,hlook,hreach⟩ := walkMiddle h (x := path (v*pgsize)) ht
    rw [hm]
    simp only
    rw [show walkLevel m t (px 1 (v*pgsize))=(m₂,t',next) from hlow]
    exact .ok ⟨hacc,hlook,hreach⟩
  · have hacc : Accounts kend m' (rest+tables (pt.set (px 2 (v*pgsize)) (some (.empty pa)))) :=
      hacc.congr (by rw [tables_set_root hnone]; abel)
    obtain ⟨m₂,t',next,hlow,hacc,hlook,hreach⟩ :=
      walkMiddle hacc (x := path (v*pgsize)) (t := .empty pa) (Table.set_self ..)
    rw [hm]
    simp only
    rw [show walkLevel m' (.empty pa) (px 1 (v*pgsize))=(m₂,t',next) from hlow]
    exact .ok ⟨hacc,fun y => (hlook y).trans (lookup_set_root hnone),hreach⟩

theorem mappages_spec (h : Accounts kend m (rest+tables pt)) (hv : v<2^26)
    (hnone : leaf pt v=none) (pa : Page) (perm : Perm) :
    Yields (mappages m pt (v*pgsize) pgsize pa perm) fun r =>
      Accounts kend r.1 (rest+tables r.2.1) ∧
        ∀ w<2^27, leaf r.2.1 w = if r.2.2 ∧ w=v then some ⟨pa,perm⟩ else leaf pt w := by
  have hdown : pgrounddown (v*pgsize)=v*pgsize := by
    rw [pgrounddown,Nat.mul_div_cancel _ (by decide)]
  have hlast : pgrounddown (v*pgsize+pgsize-1)=v*pgsize := by
    simp only [pgrounddown,pgsize_eq]
    omega
  rw [mappages,if_neg (by decide)]
  simp only [hdown,hlast,Nat.sub_self,Nat.zero_div]
  refine (walkAlloc_spec h hv).bind ?_
  rintro ⟨m',pt',found⟩ ⟨hacc,hlook,hreach⟩
  simp only
  have hleaf : ∀ w, leaf pt' w=leaf pt w := fun w => hlook _
  cases found with
  | false => exact .ok ⟨hacc,fun w _ => by simp [hleaf]⟩
  | true =>
    have hempty : lookup pt' (path (v*pgsize))=none := (hlook _).trans hnone
    rw [if_pos rfl,if_neg (by simp [hempty])]
    refine .ok ⟨?_,fun w hw => ?_⟩
    · rwa [tables_put]
    · rw [leaf_put (hreach rfl) (by omega) hw]
      by_cases hwv : w=v <;> simp [hwv,hleaf]

def pagesFrom (pt : Pagetable) (v n : Nat) : Multiset Page :=
  ∑ w∈Finset.Ico v (v+n), Pte.held (leaf pt w)

theorem pagesFrom_zero : pagesFrom pt v 0=0 := by simp [pagesFrom]

theorem pagesFrom_succ (n : Nat) :
    pagesFrom pt v (n+1)=Pte.held (leaf pt v)+pagesFrom pt (v+1) n := by
  rw [pagesFrom,Finset.sum_eq_sum_Ico_succ_bot (by omega),pagesFrom,Nat.add_right_comm,
    Nat.add_assoc]

theorem pagesFrom_add (a b : Nat) :
    pagesFrom pt v (a+b)=pagesFrom pt v a+pagesFrom pt (v+a) b := by
  induction a generalizing v with
  | zero => simp [pagesFrom_zero]
  | succ a ih =>
    have hindex : v+1+a=v+(a+1) := by omega
    rw [Nat.succ_add,pagesFrom_succ,ih,hindex,pagesFrom_succ,add_assoc]

theorem pagesFrom_congr {pt' : Pagetable} {n : Nat}
    (h : ∀ w, v ≤ w → w < v+n → leaf pt' w=leaf pt w) : pagesFrom pt' v n=pagesFrom pt v n := by
  refine Finset.sum_congr rfl fun w hw => ?_
  rw [h w (Finset.mem_Ico.mp hw).1 (Finset.mem_Ico.mp hw).2]

/-- Every page from `v` to `v + n` is mapped by a PTE that is no pointer to a table. -/
def Mapped (pt : Pagetable) (v n : Nat) : Prop :=
  ∀ w, v ≤ w → w < v+n → ∃ e, leaf pt w=some e ∧ e.perm.r=true

theorem card_pagesFrom {n : Nat} (h : Mapped pt v n) : (pagesFrom pt v n).card=n := by
  induction n generalizing v with
  | zero => simp [pagesFrom_zero]
  | succ n ih =>
    obtain ⟨e,he,-⟩ := h v le_rfl (by omega)
    rw [pagesFrom_succ,Multiset.card_add,ih fun w hvw hwn => h w (by omega) (by omega),he]
    simp [Pte.held,Nat.add_comm]

theorem uvmunmapFrom_spec (doFree : Bool) {n : Nat}
    (h : Accounts kend m (rest+tables pt + if doFree then pagesFrom pt v n else 0))
    (hv : v+n≤2^26) (hm : Mapped pt v n) :
    Yields (uvmunmapFrom m pt (v*pgsize) doFree n) fun r =>
      Accounts kend r.1 (rest+tables r.2) ∧
        ∀ w<2^27, leaf r.2 w = if v ≤ w ∧ w < v+n then none else leaf pt w := by
  induction n generalizing m pt v with
  | zero =>
    refine .ok ⟨h.congr ?_,fun w _ => ?_⟩
    · cases doFree <;> simp [pagesFrom_zero]
    · rw [if_neg (by omega)]
  | succ n ih =>
    obtain ⟨e,he,hr⟩ := hm v le_rfl (by omega)
    have hwalk := walk_leaf (by omega) he
    have hput : ∀ w<2^27, leaf (put pt (path (v*pgsize)) none) w =
        if w=v then none else leaf pt w :=
      fun w hw => leaf_put (reaches_of_lookup he) (by omega) hw none
    have hnext : Mapped (put pt (path (v*pgsize)) none) (v+1) n := by
      intro w hvw hwn
      rw [hput w (by omega),if_neg (by omega)]
      exact hm w (by omega) (by omega)
    have hpages : pagesFrom (put pt (path (v*pgsize)) none) (v+1) n=pagesFrom pt (v+1) n :=
      pagesFrom_congr fun w hvw hwn => by rw [hput w (by omega),if_neg (by omega)]
    have hfree : Yields (kfreeIf doFree m e.pa) fun m =>
        Accounts kend m (rest+tables (put pt (path (v*pgsize)) none) +
          if doFree then pagesFrom (put pt (path (v*pgsize)) none) (v+1) n else 0) := by
      rw [tables_put,hpages]
      cases doFree with
      | false => exact .ok (h.congr (by simp))
      | true =>
        refine Accounts.kfree (h.congr ?_)
        simp only [if_true,pagesFrom_succ,he,Pte.held,Option.elim_some]
        abel
    unfold uvmunmapFrom
    rw [hwalk]
    change Yields (if e.perm=_ then _ else _) _
    rw [if_neg (by rintro heq; rw [heq] at hr; cases hr)]
    refine hfree.bind fun m' hacc => ?_
    have hstep : v*pgsize+pgsize=(v+1)*pgsize := (Nat.succ_mul v pgsize).symm
    rw [hstep]
    refine (ih hacc (by omega) hnext).weaken fun r hr => ⟨hr.1,fun w hw => ?_⟩
    rw [hr.2 w hw,hput w hw]
    by_cases hwv : w=v
    · rw [if_pos hwv,if_pos (show v ≤ w ∧ w < v+(n+1) by omega),ite_self]
    · rw [if_neg hwv]
      exact if_congr (by omega) rfl rfl

theorem uvmunmap_spec (doFree : Bool) {n : Nat}
    (h : Accounts kend m (rest+tables pt + if doFree then pagesFrom pt v n else 0))
    (hv : v+n≤2^26) (hm : Mapped pt v n) :
    Yields (uvmunmap m pt (v*pgsize) n doFree) fun r =>
      Accounts kend r.1 (rest+tables r.2) ∧
        ∀ w<2^27, leaf r.2 w = if v ≤ w ∧ w < v+n then none else leaf pt w := by
  rw [uvmunmap,if_neg (by simp)]
  exact uvmunmapFrom_spec doFree h hv hm

theorem ifSome_spec {α : Type} {f : Mem → α → Except Panic Mem} {g : α → Multiset Page}
    {x : Option α} (h : Accounts kend m (rest+x.elim 0 g))
    (hf : ∀ a, x=some a → Accounts kend m (rest+g a) →
      Yields (f m a) fun m => Accounts kend m rest) :
    Yields (ifSome f m x) fun m => Accounts kend m rest := by
  cases x with
  | none => exact .ok (h.congr (add_zero rest))
  | some a => exact hf a rfl h

theorem freeTable_spec {α : Type} {freeEntry : Mem → α → Except Panic Mem}
    {f : α → Multiset Page} {t : Table Page Index α} (h : Accounts kend m (rest+t.pages f))
    (hentry : ∀ i a, t.entry i=some a → ∀ m rest, Accounts kend m (rest+f a) →
      Yields (freeEntry m a) fun m => Accounts kend m rest) :
    Yields (freeTable freeEntry m t) fun m => Accounts kend m rest := by
  -- the entries still to be freed, in the order of the loop
  let left (l : List Index) : Multiset Page := (l.map fun i => (t.entry i).elim 0 f).sum
  have hloop : Yields ((List.finRange 512).foldlM (fun m i => ifSome freeEntry m (t.entry i)) m)
      fun m => Accounts kend m (rest+{t.page}+left []) := by
    refine Yields.foldlM (I := fun l m => Accounts kend m (rest+{t.page}+left l)) ?_ ?_
    · intro i l m hm
      refine ifSome_spec (hm.congr ?_) fun a ha hacc => hentry i a ha _ _ hacc
      simp only [left,List.map_cons,List.sum_cons]
      abel
    · refine h.congr ?_
      rw [Table.pages,Fin.sum_univ_def,add_assoc]
  refine hloop.bind fun m' hm' => Accounts.kfree (hm'.congr ?_)
  simp [left]

theorem freewalk_spec (h : Accounts kend m (rest+tables pt))
    (hnone : ∀ w<2^27, leaf pt w=none) :
    Yields (freewalk m pt) fun m => Accounts kend m rest := by
  refine freeTable_spec h fun i a ha m rest h => freeTable_spec h fun j b hb m rest h =>
    freeTable_spec h fun k e he => ?_
  obtain ⟨w,hw,hpath⟩ := path_surjective (i,j,k)
  have hleaf := hnone w hw
  simp [leaf,hpath,lookup,ha,hb,he] at hleaf

end
end Xv6.Vm
