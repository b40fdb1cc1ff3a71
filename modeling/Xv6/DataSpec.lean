import Xv6.UserData
import Xv6.UserSpace

/-! The functions of `kernel/vm.c` with contents: they do to the allocator and to the
tables what the functions without contents do, and they leave the contents of all pages
that are held throughout alone. -/
namespace Xv6.UserData
open Function Xv6.PageTree Xv6.Total Xv6.Vm
variable {kend : Nat} {r r' : Ram} {rest held : Multiset Page} {pt : Pagetable} {n v : Nat}

section Erase
variable {α : Type}

def erase (x : Except Panic (Ram × α)) : Except Panic (Mem × α) :=
  x.map fun y => (y.1.mem, y.2)

variable {x : Except Panic (Ram × α)}

theorem erase_ok {m : Mem} {a : α} (h : erase x=.ok (m, a)) : ∃ r, x=.ok (r, a) ∧ r.mem=m := by
  cases x with
  | error e => cases h
  | ok y =>
    obtain ⟨rfl,rfl⟩ := Prod.mk.inj (Except.ok.inj h)
    exact ⟨y.1,rfl,rfl⟩

theorem Yields.of_erase {y : Except Panic (Mem × α)} {Q : Mem × α → Prop} (h : erase x=y)
    (hy : Yields y Q) : Yields x fun z => Q (z.1.mem, z.2) := by
  obtain ⟨⟨m,a⟩,rfl,hq⟩ := hy
  obtain ⟨r,hx,rfl⟩ := erase_ok h
  exact ⟨_,hx,hq⟩

theorem erase_bind {β : Type} {y : Except Panic (Mem × α)} {f : Ram × α → Except Panic (Ram × β)}
    {g : Mem × α → Except Panic (Mem × β)} (hx : erase x=y)
    (hf : ∀ r a, erase (f (r, a))=g (r.mem, a)) : erase (x >>= f)=y >>= g := by
  subst hx
  cases x with
  | error e => rfl
  | ok z => exact hf z.1 z.2

theorem erase_onTables (r : Ram) (x : Except Panic (Mem × α)) : erase (r.onTables x)=x := by
  cases x with
  | error e => rfl
  | ok y => rfl

theorem onTables_data {x : Except Panic (Mem × α)} {y : Ram × α} (h : r.onTables x=.ok y) :
    y.1.data=r.data := by
  cases x with
  | error e => cases h
  | ok z =>
    cases h
    rfl

theorem kfree_mem (r : Ram) (pa : Page) : (kfree r pa).map Ram.mem=Vm.kfree r.mem pa := by
  unfold kfree
  cases Vm.kfree r.mem pa <;> rfl

theorem erase_kfree_bind {pa : Page} {f : Ram → Except Panic (Ram × α)}
    {g : Mem → Except Panic (Mem × α)} (hf : ∀ r, erase (f r)=g r.mem) (r : Ram) :
    erase (kfree r pa >>= f)=Vm.kfree r.mem pa >>= g := by
  rw [← kfree_mem]
  cases kfree r pa with
  | error e => rfl
  | ok r => exact hf r

theorem erase_kfreeIf_bind {doFree : Bool} {pa : Page} {f : Ram → Except Panic (Ram × α)}
    {g : Mem → Except Panic (Mem × α)} (hf : ∀ r, erase (f r)=g r.mem) (r : Ram) :
    erase (kfreeIf doFree r pa >>= f)=Vm.kfreeIf doFree r.mem pa >>= g := by
  cases doFree with
  | false => exact hf r
  | true => exact erase_kfree_bind hf r

theorem uvmunmapFrom_erase (r : Ram) (pt : Pagetable) (a : Nat) (doFree : Bool) (n : Nat) :
    erase (uvmunmapFrom r pt a doFree n)=Vm.uvmunmapFrom r.mem pt a doFree n := by
  induction n generalizing r pt a with
  | zero => rfl
  | succ n ih =>
    unfold uvmunmapFrom Vm.uvmunmapFrom
    cases walk pt a with
    | error e => rfl
    | ok found =>
      cases found with
      | none => rfl
      | some found =>
        cases found with
        | none => rfl
        | some pte =>
          simp only [bind,Except.bind]
          split
          · rfl
          · exact erase_kfreeIf_bind (fun r => ih r _ _) r

theorem uvmunmap_erase (r : Ram) (pt : Pagetable) (va n : Nat) (doFree : Bool) :
    erase (uvmunmap r pt va n doFree)=Vm.uvmunmap r.mem pt va n doFree := by
  unfold uvmunmap Vm.uvmunmap
  split
  · rfl
  · exact uvmunmapFrom_erase r pt va doFree n

theorem uvmdealloc_erase (r : Ram) (pt : Pagetable) (oldsz newsz : Nat) :
    erase (uvmdealloc r pt oldsz newsz)=Vm.uvmdealloc r.mem pt oldsz newsz := by
  unfold uvmdealloc Vm.uvmdealloc
  split
  · rfl
  split
  · exact erase_bind (uvmunmap_erase r pt _ _ true) fun r pt => rfl
  · rfl

theorem kalloc_erase (r : Ram) :
    (∃ m, Vm.kalloc r.mem=(m, none) ∧ kalloc r=({ r with mem := m }, none)) ∨
      ∃ m pa, Vm.kalloc r.mem=(m, some pa) ∧
        kalloc r=(Ram.memset { r with mem := m } pa 5, some pa) := by
  unfold kalloc
  rcases Vm.kalloc r.mem with ⟨m,_ | pa⟩
  · exact .inl ⟨m,rfl,rfl⟩
  · exact .inr ⟨m,pa,rfl,rfl⟩

theorem uvmallocFrom_erase (r : Ram) (pt : Pagetable) (oldsz newsz : Nat) (perm : Perm)
    (a n : Nat) : erase (uvmallocFrom r pt oldsz newsz perm a n) =
      Vm.uvmallocFrom r.mem pt oldsz newsz perm a n := by
  induction n generalizing r pt a with
  | zero => rfl
  | succ n ih =>
    unfold uvmallocFrom Vm.uvmallocFrom
    obtain ⟨m,hm,hr⟩ | ⟨m,pa,hm,hr⟩ := kalloc_erase r
    · rw [hm,hr]
      exact erase_bind (uvmdealloc_erase _ pt a oldsz) fun r x => rfl
    · rw [hm,hr]
      refine erase_bind (erase_onTables _ _) fun r x => ?_
      obtain ⟨pt,mapped⟩ := x
      cases mapped with
      | true => exact ih r pt _
      | false =>
        refine erase_kfree_bind (fun r => ?_) r
        exact erase_bind (uvmdealloc_erase r pt a oldsz) fun r x => rfl

theorem uvmalloc_erase (r : Ram) (pt : Pagetable) (oldsz newsz : Nat) (w x : Bool) :
    erase (uvmalloc r pt oldsz newsz w x)=Vm.uvmalloc r.mem pt oldsz newsz w x := by
  unfold uvmalloc Vm.uvmalloc
  split
  · rfl
  · exact uvmallocFrom_erase r pt _ newsz _ _ _

theorem growproc_erase (r : Ram) (p : UserMemory.Task) (n : Int) :
    (growproc r p n).map (fun x => (x.1.mem, x.2.1))=UserMemory.growproc r.mem p n := by
  unfold growproc UserMemory.growproc
  cases p.pagetable with
  | none => rfl
  | some pt =>
    dsimp only
    split
    · rw [← uvmalloc_erase]
      cases uvmalloc r pt p.sz _ true false with
      | error e => rfl
      | ok x =>
        obtain ⟨r',pt',sz⟩ := x
        by_cases hz : sz=0
        · simp [erase,bind,Except.bind,Except.map,hz]
        · simp [erase,bind,Except.bind,Except.map,hz]
    · split
      · rw [← uvmdealloc_erase]
        cases uvmdealloc r pt p.sz _ <;> rfl
      · rfl

end Erase

def Same (held : Multiset Page) (r r' : Ram) : Prop := ∀ pa∈held, r'.data pa=r.data pa

theorem Same.refl (held : Multiset Page) (r : Ram) : Same held r r := fun _ _ => rfl

theorem Same.trans {r'' : Ram} (h : Same held r r') (h' : Same held r' r'') : Same held r r'' :=
  fun pa hpa => (h' pa hpa).trans (h pa hpa)

theorem Same.mono (h : Same held r r') (hle : rest ≤ held) : Same rest r r' :=
  fun pa hpa => h pa (Multiset.mem_of_le hle hpa)

structure Frees (r r' : Ram) : Prop where
  more : r.mem.freelist ⊆ r'.mem.freelist
  data : ∀ pa, pa∉r'.mem.freelist → r'.data pa=r.data pa

theorem Frees.refl (r : Ram) : Frees r r := ⟨List.Subset.refl _,fun _ _ => rfl⟩

theorem Frees.trans {r'' : Ram} (h : Frees r r') (h' : Frees r' r'') : Frees r r'' :=
  ⟨List.Subset.trans h.more h'.more,
    fun pa hpa => (h'.data pa hpa).trans (h.data pa fun hmem => hpa (h'.more hmem))⟩

variable {pa : Page}

theorem not_free_of_held (h : Accounts kend r.mem held) (hpa : pa∈held) : pa∉r.mem.freelist := by
  have hall := nodup_allPages kend
  rw [← h.sum,Multiset.nodup_add] at hall
  exact fun hmem => Multiset.disjoint_left.mp hall.2.2 (Multiset.mem_coe.mpr hmem) hpa

theorem Frees.same (h : Frees r r') (hacc : Accounts kend r'.mem held) : Same held r r' :=
  fun pa hpa => h.data pa (not_free_of_held hacc hpa)

theorem kfree_frees (h : kfree r pa=.ok r') : Frees r r' := by
  unfold kfree Vm.kfree at h
  split at h
  · cases h
  · cases h
    refine ⟨List.subset_cons_self _ _,fun p hp => ?_⟩
    have hne : p≠pa := fun heq => hp (List.mem_cons.mpr (.inl heq))
    simp [Ram.memmove,Ram.memset,hne]

theorem uvmunmapFrom_frees {a : Nat} {doFree : Bool} {pt' : Pagetable}
    (h : uvmunmapFrom r pt a doFree n=.ok (r', pt')) : Frees r r' := by
  induction n generalizing r pt a with
  | zero =>
    cases h
    exact .refl _
  | succ n ih =>
    unfold uvmunmapFrom at h
    cases hw : walk pt a with
    | error e =>
      rw [hw] at h
      cases h
    | ok found =>
      rw [hw] at h
      cases found with
      | none => cases h
      | some found =>
        cases found with
        | none => cases h
        | some pte =>
          simp only [bind,Except.bind] at h
          split at h
          · cases h
          split at h
          · cases h
          rename_i r₁ hfree
          refine Frees.trans ?_ (ih h)
          unfold kfreeIf at hfree
          split at hfree
          · exact kfree_frees hfree
          · cases hfree
            exact .refl _

theorem uvmunmap_frees {va : Nat} {doFree : Bool} {pt' : Pagetable}
    (h : uvmunmap r pt va n doFree=.ok (r', pt')) : Frees r r' := by
  unfold uvmunmap at h
  split at h
  · cases h
  · exact uvmunmapFrom_frees h

variable {newsz oldsz : Nat}

theorem uvmdealloc_frees {x : Pagetable × Nat}
    (h : uvmdealloc r pt oldsz newsz=.ok (r', x)) : Frees r r' := by
  unfold uvmdealloc at h
  split at h
  · cases h
    exact .refl _
  split at h
  · cases hu : uvmunmap r pt (pgroundup newsz) ((pgroundup oldsz-pgroundup newsz)/pgsize) true with
    | error e =>
      simp only [hu,bind,Except.bind] at h
      cases h
    | ok y =>
      simp only [hu,bind,Except.bind] at h
      cases h
      exact uvmunmap_frees hu
  · cases h
    exact .refl _

def ZeroFrom (r : Ram) (pt : Pagetable) (n : Nat) : Prop :=
  ∀ w, n ≤ w → w < trapframeVpn → ∀ e, leaf pt w=some e → r.data e.pa = fun _ => 0

theorem Held.zeroFrom (h : Held kend r.mem rest pt n) : ZeroFrom r pt n := by
  intro w hnw hw e he
  rw [h.unmapped w hw hnw] at he
  cases he

theorem mem_pagesFrom {w : Nat} {e : Pte} (hw : w < n) (he : leaf pt w=some e) :
    e.pa∈pagesFrom pt 0 n := by
  refine Multiset.mem_sum.mpr ⟨w,by simp [hw],?_⟩
  rw [he]
  exact Multiset.mem_singleton_self e.pa

theorem Same.memset (h : Same held r r') (hpa : pa∉held) (c : UInt8) :
    Same held r (r'.memset pa c) := by
  intro p hp
  have hne : p≠pa := fun heq => hpa (heq ▸ hp)
  simpa [Ram.memset,hne] using h p hp

theorem Same.memmove (h : Same held r r') (hpa : pa∉held) (off n : Nat)
    (src : Nat → UInt8) : Same held r (r'.memmove pa off n src) := by
  intro p hp
  have hne : p≠pa := fun heq => hpa (heq ▸ hp)
  simpa [Ram.memmove,hne] using h p hp

theorem kalloc_fresh (h : Held kend r.mem rest pt v) :
    (∃ m, kalloc r=({ r with mem := m }, none) ∧ Held kend m rest pt v) ∨
      ∃ r' pa, kalloc r=(r', some pa) ∧ Held kend r'.mem (rest+{pa}) pt v ∧
        Same (rest+tables pt+pagesFrom pt 0 v) r r' ∧ pa∉rest+tables pt+pagesFrom pt 0 v := by
  obtain ⟨m,hm,hk⟩ | ⟨m,pa,hm,hk⟩ := kalloc_erase r
  · obtain ⟨m',hm',h'⟩ | ⟨m',pa,hm',-⟩ := h.kalloc
    · obtain rfl : m'=m := (Prod.mk.inj (hm'.symm.trans hm)).1
      exact .inl ⟨m',hk,h'⟩
    · rw [hm] at hm'
      cases hm'
  · obtain ⟨m',hm',-⟩ | ⟨m',pa',hm',h'⟩ := h.kalloc
    · rw [hm] at hm'
      cases hm'
    · rw [hm] at hm'
      cases hm'
      have hfresh : pa∉rest+tables pt+pagesFrom pt 0 v := by
        intro hmem
        have hnodup := h'.accounts.nodup
        rw [add_right_comm rest,add_right_comm (rest+tables pt),Multiset.nodup_add] at hnodup
        exact Multiset.disjoint_left.mp hnodup.2.2 hmem (Multiset.mem_singleton_self pa)
      have hsame : Same (rest+tables pt+pagesFrom pt 0 v) r { r with mem := m } := fun _ _ => rfl
      exact .inr ⟨_,pa,hk,h',hsame.memset hfresh 5,hfresh⟩

theorem kfree_data (h : Held kend r.mem (rest+{pa}) pt v) :
    Yields (kfree r pa) fun r' => Held kend r'.mem rest pt v ∧
      Same (rest+tables pt+pagesFrom pt 0 v) r r' := by
  obtain ⟨m,hm,hheld⟩ := h.kfree
  have hmem := kfree_mem r pa
  rw [hm] at hmem
  cases hk : kfree r pa with
  | error e =>
    rw [hk] at hmem
    cases hmem
  | ok r' =>
    rw [hk] at hmem
    cases hmem
    exact .ok ⟨hheld,(kfree_frees hk).same hheld.accounts⟩

theorem held_le (hn : n ≤ v) : rest+pagesFrom pt 0 n ≤ rest+tables pt+pagesFrom pt 0 v := by
  obtain ⟨k,rfl⟩ := Nat.exists_eq_add_of_le hn
  rw [pagesFrom_add,add_right_comm rest,← add_assoc,add_right_comm (rest+pagesFrom pt 0 n)]
  exact (Multiset.le_add_right _ _).trans (Multiset.le_add_right _ _)

theorem uvmdealloc_undo (h : Held kend r.mem rest pt v) (hn : n ≤ v) :
    Yields (uvmdealloc r pt (v*pgsize) (n*pgsize)) fun x =>
      Held kend x.1.mem rest x.2.1 n ∧ Same (rest+pagesFrom pt 0 n) r x.1 := by
  refine ((Yields.of_erase (uvmdealloc_erase ..) (h.undo hn)).and fun x hx =>
    uvmdealloc_frees hx).weaken ?_
  rintro x ⟨⟨hheld,hkeep⟩,hfrees⟩
  have hfew : n≤557056 := hheld.few
  have hpages : pagesFrom x.2.1 0 n=pagesFrom pt 0 n :=
    pagesFrom_congr fun w _ hw => hkeep w (by omega) (.inl (by omega))
  refine ⟨hheld,(hfrees.same hheld.accounts).mono ?_⟩
  rw [← hpages]
  exact held_le le_rfl

theorem uvmallocFrom_data {perm : Perm} (hr : perm.r=true) (k : Nat)
    (h : Held kend r.mem rest pt v) (hn : n ≤ v) (hz : ZeroFrom r pt n) :
    Yields (uvmallocFrom r pt (n*pgsize) newsz perm (v*pgsize) k) fun x =>
      Same (rest+pagesFrom pt 0 n) r x.1 ∧ ZeroFrom x.1 x.2.1 n := by
  induction k generalizing r pt v with
  | zero => exact .ok ⟨.refl _ _,hz⟩
  | succ k ih =>
    unfold uvmallocFrom
    obtain ⟨m,hk,h'⟩ | ⟨r₁,pa,hk,h₁,hfresh,hpa⟩ := kalloc_fresh h
    · rw [hk]
      refine (uvmdealloc_undo (r := { r with mem := m }) h' hn).bind fun x hx => .ok ?_
      exact ⟨hx.2,Held.zeroFrom hx.1⟩
    rw [hk]
    have hfew : v≤557056 := h.few
    refine ((Yields.of_erase (erase_onTables (r₁.memset pa 0) _) (h₁.map_next hr)).and
      fun x hx => onTables_data hx).bind ?_
    rintro ⟨r₂,pt₂,mapped⟩ ⟨⟨hkeep,hheld⟩,hdata⟩
    have hpages : pagesFrom pt₂ 0 n=pagesFrom pt 0 n :=
      pagesFrom_congr fun w _ hw => hkeep w (by omega) (.inl (by omega))
    have hold : Same (rest+tables pt+pagesFrom pt 0 v) r r₂ := by
      intro p hp
      rw [hdata]
      exact hfresh.memset hpa 0 p hp
    have hkept : Same (rest+pagesFrom pt 0 n) r r₂ := hold.mono (held_le hn)
    cases mapped with
    | false =>
      refine (kfree_data (show Held kend r₂.mem (rest+{pa}) pt₂ v from hheld)).bind fun r₃ hr₃ => ?_
      refine (uvmdealloc_undo hr₃.1 hn).bind fun x hx => .ok ⟨?_,Held.zeroFrom hx.1⟩
      rw [hpages] at hx
      exact (hkept.trans ((hpages ▸ hr₃.2.mono (held_le hn)))).trans hx.2
    | true =>
      obtain ⟨hheld,hnew⟩ : Held kend r₂.mem rest pt₂ (v+1) ∧ leaf pt₂ v=some ⟨pa,perm⟩ := hheld
      have hstep : v*pgsize+pgsize=(v+1)*pgsize := (Nat.succ_mul v pgsize).symm
      have hz₂ : ZeroFrom r₂ pt₂ n := by
        intro w hnw hw e he
        by_cases hwv : w=v
        · rw [hwv,hnew] at he
          cases he
          rw [hdata]
          exact update_self ..
        by_cases hlt : w < v
        · rw [hkeep w (by omega) (.inl hlt)] at he
          rw [hold e.pa (Multiset.mem_add.mpr (.inr (mem_pagesFrom hlt he)))]
          exact hz w hnw hw e he
        · rw [hheld.unmapped w hw (by omega)] at he
          cases he
      rw [hstep]
      refine (ih hheld (by omega) hz₂).weaken fun x hx => ⟨?_,hx.2⟩
      rw [hpages] at hx
      exact hkept.trans hx.1

theorem uvmalloc_data (w x : Bool) (h : Held kend r.mem rest pt (npages oldsz)) :
    Yields (uvmalloc r pt oldsz newsz w x) fun y =>
      Same (rest+pagesFrom pt 0 (npages oldsz)) r y.1 ∧ ZeroFrom y.1 y.2.1 (npages oldsz) := by
  unfold uvmalloc
  split
  · exact .ok ⟨.refl _ _,Held.zeroFrom h⟩
  · simp only [pgroundup_npages]
    exact uvmallocFrom_data rfl _ h le_rfl (Held.zeroFrom h)

theorem uvmalloc_full (hsz : oldsz ≤ phystop) (w x : Bool)
    (h : Held kend r.mem rest pt (npages oldsz)) :
    Yields (uvmalloc r pt oldsz newsz w x) fun y =>
      Same (rest+pagesFrom pt 0 (npages oldsz)) r y.1 ∧ Keeps pt y.2.1 (npages oldsz) ∧
      ((y.2.2=0 ∧ Held kend y.1.mem rest y.2.1 (npages oldsz)) ∨
        (y.2.2=max oldsz newsz ∧ y.2.2 ≤ phystop ∧ Held kend y.1.mem rest y.2.1 (npages y.2.2) ∧
          MappedAs y.2.1 ⟨true,w,x,true⟩ (npages oldsz) (npages y.2.2-npages oldsz) ∧
          ZeroFrom y.1 y.2.1 (npages oldsz))) := by
  refine ((Yields.of_erase (uvmalloc_erase ..) (uvmalloc_spec hsz w x h)).and
    fun y hy => (uvmalloc_data w x h).apply hy).weaken ?_
  rintro y ⟨⟨hz,hheld,hkeep⟩ | ⟨hz,hle,hheld,hkeep,has⟩,hsame,hzero⟩
  · exact ⟨hsame,hkeep,.inl ⟨hz,hheld⟩⟩
  · exact ⟨hsame,hkeep,.inr ⟨hz,hle,hheld,has,hzero⟩⟩

theorem leaf_inj {a b : Nat} {e e' : Pte} (h : Held kend r.mem rest pt n) (ha : a < n) (hb : b < n)
    (he : leaf pt a=some e) (he' : leaf pt b=some e') (hpa : e.pa=e'.pa) : a=b := by
  have hlt : ∀ {a b : Nat} {e e' : Pte}, a < b → b < n → leaf pt a=some e →
      leaf pt b=some e' → e.pa≠e'.pa := by
    intro a b e e' hab hb he he' heq
    have hnodup : (pagesFrom pt 0 n).Nodup := by
      have := h.accounts.nodup
      rw [Multiset.nodup_add] at this
      exact this.2.1
    have hsplit : pagesFrom pt 0 n=pagesFrom pt 0 b+pagesFrom pt b (n-b) := by
      have hadd : pagesFrom pt 0 (b+(n-b))=_ := pagesFrom_add b (n-b)
      rwa [Nat.add_sub_cancel' hb.le,Nat.zero_add] at hadd
    rw [hsplit,Multiset.nodup_add] at hnodup
    refine Multiset.disjoint_left.mp hnodup.2.2 (mem_pagesFrom hab he) ?_
    rw [heq]
    refine Multiset.mem_sum.mpr ⟨b,Finset.mem_Ico.mpr ⟨le_rfl,by omega⟩,?_⟩
    rw [he']
    exact Multiset.mem_singleton_self e'.pa
  rcases Nat.lt_trichotomy a b with hab | hab | hab
  · exact absurd hpa (hlt hab hb he he')
  · exact hab
  · exact absurd hpa.symm (hlt hab ha he' he)

section Bytes
variable {pt' : Pagetable} {sz : Nat}

/-- The byte that user mode finds at address `a`. -/
def userByte (r : Ram) (pt : Pagetable) (a : Nat) : Option UInt8 :=
  (leaf pt (a/pgsize)).map fun e => r.data e.pa (a%pgsize)

theorem lt_npages_iff {a : Nat} : a/pgsize < npages sz ↔ a < pgroundup sz := by
  rw [pgroundup_npages,Nat.div_lt_iff_lt_mul (by decide)]

theorem userByte_kept {k a : Nat} (hk : k≤2^27) (hkeep : Keeps pt pt' k)
    (hsame : Same (pagesFrom pt 0 k) r r') (ha : a/pgsize < k) :
    userByte r' pt' a=userByte r pt a := by
  rw [userByte,userByte,hkeep _ (by omega) (.inl ha)]
  cases he : leaf pt (a/pgsize) with
  | none => rfl
  | some e => simp [hsame e.pa (mem_pagesFrom ha he)]

end Bytes

end Xv6.UserData
