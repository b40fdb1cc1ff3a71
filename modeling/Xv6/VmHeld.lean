import Xv6.VmSpec

/-! User page tables: the user pages from 0 on with no hole. The functions of `kernel/vm.c` keep that
layout and the account of the pages, also where an allocation fails in the middle. -/
namespace Xv6.Vm
open Xv6.PageTree Xv6.Total
variable {kend : Nat} {m : Mem} {rest : Multiset Page} {pt pt' : Pagetable} {n v : Nat}

/-- The number of the page of `TRAPFRAME`; that of `TRAMPOLINE` is the next. -/
def trapframeVpn : Nat := 2 ^ 26-2

/-- The table `pt` maps `n` user pages, from page 0 on and with no hole, and they and
the pages of the tables are held besides `rest`. -/
structure Held (kend : Nat) (m : Mem) (rest : Multiset Page) (pt : Pagetable) (n : Nat) : Prop where
  accounts : Accounts kend m (rest+tables pt+pagesFrom pt 0 n)
  mapped : Mapped pt 0 n
  unmapped : ∀ w < trapframeVpn, n ≤ w → leaf pt w=none

def Keeps (pt pt' : Pagetable) (n : Nat) : Prop :=
  ∀ w < 2 ^ 27, w < n ∨ trapframeVpn ≤ w → leaf pt' w=leaf pt w

theorem Keeps.mono {k : Nat} (h : Keeps pt pt' n) (hk : k ≤ n) : Keeps pt pt' k :=
  fun w hw hwk => h w hw (hwk.imp_left fun hwk => hwk.trans_le hk)

theorem Keeps.trans {pt'' : Pagetable} (h : Keeps pt pt' n) (h' : Keeps pt' pt'' n) :
    Keeps pt pt'' n := fun w hw hwn => (h' w hw hwn).trans (h w hw hwn)

theorem Keeps.refl (pt : Pagetable) (n : Nat) : Keeps pt pt n := fun _ _ _ => rfl

theorem Held.few (h : Held kend m rest pt n) : n ≤ phystop/pgsize := by
  have hcard := h.accounts.card
  rw [Multiset.card_add,card_pagesFrom h.mapped] at hcard
  omega

theorem Held.shrink (h : Held kend m rest pt v) (hn : n ≤ v) :
    Yields (uvmunmap m pt (n*pgsize) (v-n) true) fun r => Held kend r.1 rest r.2 n ∧ Keeps pt r.2 n := by
  have hfew : v≤557056 := h.few
  have hsplit : pagesFrom pt 0 v=pagesFrom pt 0 n+pagesFrom pt n (v-n) := by
    have hadd : pagesFrom pt 0 (n+(v-n))=_ := pagesFrom_add n (v-n)
    rwa [Nat.add_sub_cancel' hn,Nat.zero_add] at hadd
  have hacc : Accounts kend m (rest+pagesFrom pt 0 n+tables pt +
      if true then pagesFrom pt n (v-n) else 0) := by
    refine h.accounts.congr ?_
    rw [hsplit,if_pos rfl]
    abel
  have hmap : Mapped pt n (v-n) := fun w hnw hwv => h.mapped w (Nat.zero_le w) (by omega)
  refine (uvmunmap_spec true hacc (by omega) hmap).weaken ?_
  rintro ⟨m',pt'⟩ ⟨hacc',hleaf⟩
  have hkeep : ∀ w < n, leaf pt' w=leaf pt w := fun w hw => by
    rw [hleaf w (by omega),if_neg (by omega)]
  refine ⟨⟨hacc'.congr ?_,fun w _ hwn => ?_,fun w hw hnw => ?_⟩,fun w hw hwn => ?_⟩
  · rw [pagesFrom_congr fun w _ hw => hkeep w (by omega)]
    abel
  · rw [hkeep w (by omega)]
    exact h.mapped w (Nat.zero_le w) (by omega)
  · rw [hleaf w (by simp only [trapframeVpn] at hw; omega)]
    split
    · rfl
    · exact h.unmapped w hw (by omega)
  · rw [hleaf w hw,if_neg]
    simp only [trapframeVpn] at hwn
    omega

theorem Held.clear (h : Held kend m rest pt v) :
    Yields (uvmunmap m pt 0 v true) fun r => Held kend r.1 rest r.2 0 ∧ Keeps pt r.2 0 := by
  have hall := h.shrink (Nat.zero_le v)
  rwa [Nat.zero_mul,Nat.sub_zero] at hall

theorem Held.map_next {pa : Page} (h : Held kend m (rest+{pa}) pt v) {perm : Perm}
    (hr : perm.r=true) : Yields (mappages m pt (v*pgsize) pgsize pa perm) fun r =>
      Keeps pt r.2.1 v ∧ if r.2.2 then Held kend r.1 rest r.2.1 (v+1) ∧
          leaf r.2.1 v=some ⟨pa,perm⟩
        else Held kend r.1 (rest+{pa}) r.2.1 v := by
  have hfew : v≤557056 := h.few
  have hnone := h.unmapped v (by simp only [trapframeVpn]; omega) le_rfl
  have hacc : Accounts kend m (rest+{pa}+pagesFrom pt 0 v+tables pt) :=
    h.accounts.congr (by abel)
  refine (mappages_spec hacc (by omega) hnone pa perm).weaken ?_
  rintro ⟨m',pt',mapped⟩ ⟨hacc',hleaf⟩
  have hother : ∀ w<2^27, w≠v → leaf pt' w=leaf pt w := fun w hw hwv => by
    rw [hleaf w hw,if_neg fun hc => hwv hc.2]
  have hkeep : Keeps pt pt' v := fun w hw hwv =>
    hother w hw (by simp only [trapframeVpn] at hwv; omega)
  have hpages : pagesFrom pt' 0 v=pagesFrom pt 0 v :=
    pagesFrom_congr fun w _ hw => hother w (by omega) (by omega)
  have hmap : Mapped pt' 0 v := fun w h0 hw => by
    rw [hother w (by omega) (by omega)]
    exact h.mapped w h0 hw
  have hfree : ∀ w < trapframeVpn, v < w → leaf pt' w=none := fun w hw hvw => by
    rw [hother w (by simp only [trapframeVpn] at hw; omega) (by omega)]
    exact h.unmapped w hw (by omega)
  refine ⟨hkeep,?_⟩
  cases mapped with
  | false =>
    refine ⟨hacc'.congr ?_,hmap,fun w hw hvw => ?_⟩
    · rw [hpages]
      abel
    · by_cases hwv : w=v
      · rw [hwv,hleaf v (by omega)]
        simpa using hnone
      · exact hfree w hw (by omega)
  | true =>
    have hnew : leaf pt' v=some ⟨pa,perm⟩ := by
      rw [hleaf v (by omega)]
      simp
    refine ⟨⟨hacc'.congr ?_,fun w h0 hw => ?_,fun w hw hvw => hfree w hw (by omega)⟩,hnew⟩
    · have hone : pagesFrom pt' v 1={pa} := by
        rw [pagesFrom_succ,pagesFrom_zero,hnew]
        simp [Pte.held]
      rw [pagesFrom_add,Nat.zero_add,hone,hpages]
      abel
    · by_cases hwv : w=v
      · rw [hwv,hnew]
        exact ⟨_,rfl,hr⟩
      · exact hmap w h0 (by omega)

def npages (sz : Nat) : Nat := pgroundup sz/pgsize

theorem npages_eq {sz : Nat} (h : sz ≤ phystop) : npages sz=(sz+4095)/4096 := by
  rw [npages,pgroundup_eq h,pgsize_eq,Nat.mul_div_cancel _ (by decide)]

theorem pgroundup_npages {sz : Nat} : pgroundup sz=npages sz*pgsize := by
  rw [npages,pgroundup,Nat.mul_div_cancel _ (by decide)]

theorem uvmdealloc_spec {oldsz newsz : Nat} (hsz : oldsz ≤ phystop)
    (h : Held kend m rest pt (npages oldsz)) :
    Yields (uvmdealloc m pt oldsz newsz) fun r => r.2.2=min oldsz newsz ∧
      Held kend r.1 rest r.2.1 (npages r.2.2) ∧ Keeps pt r.2.1 (npages r.2.2) := by
  unfold uvmdealloc
  by_cases hge : newsz ≥ oldsz
  · rw [if_pos hge]
    exact .ok ⟨(min_eq_left hge).symm,h,.refl _ _⟩
  · have hnew : newsz ≤ phystop := by omega
    have hmin : newsz=min oldsz newsz := (min_eq_right (by omega)).symm
    have hle : npages newsz ≤ npages oldsz := by
      rw [npages_eq hsz,npages_eq hnew]
      omega
    rw [if_neg hge]
    by_cases hlt : pgroundup newsz < pgroundup oldsz
    · rw [if_pos hlt]
      have hcount : (pgroundup oldsz-pgroundup newsz)/pgsize=npages oldsz-npages newsz := by
        rw [pgroundup_npages,pgroundup_npages,← Nat.sub_mul,Nat.mul_div_cancel _ (by decide)]
      simp only [hcount]
      rw [pgroundup_npages]
      exact (h.shrink hle).bind fun r hr => .ok ⟨hmin,hr⟩
    · rw [if_neg hlt]
      have heq : npages newsz=npages oldsz := by
        rw [pgroundup_npages,pgroundup_npages,pgsize_eq] at hlt
        omega
      refine .ok ⟨hmin,?_⟩
      rw [heq]
      exact ⟨h,.refl _ _⟩

def MappedAs (pt : Pagetable) (perm : Perm) (v n : Nat) : Prop :=
  ∀ w, v ≤ w → w < v+n → ∃ pa, leaf pt w=some ⟨pa,perm⟩

theorem Held.undo (h : Held kend m rest pt v) (hn : n ≤ v) :
    Yields (uvmdealloc m pt (v*pgsize) (n*pgsize)) fun r =>
      Held kend r.1 rest r.2.1 n ∧ Keeps pt r.2.1 n := by
  have hfew : v≤557056 := h.few
  have hpages : ∀ i≤557056, i*pgsize ≤ phystop ∧ npages (i*pgsize)=i := fun i hi => by
    have hle : i*pgsize ≤ phystop := by
      rw [pgsize_eq,phystop_eq]
      omega
    refine ⟨hle,?_⟩
    rw [npages_eq hle,pgsize_eq]
    omega
  have hv := hpages v hfew
  refine (uvmdealloc_spec hv.1 (by rwa [hv.2])).weaken ?_
  rintro r ⟨hr,hheld⟩
  rw [min_eq_right (Nat.mul_le_mul_right _ hn)] at hr
  rwa [hr,(hpages n (hn.trans hfew)).2] at hheld

theorem Held.kalloc (h : Held kend m rest pt v) :
    (∃ m', Vm.kalloc m=(m', none) ∧ Held kend m' rest pt v) ∨
      ∃ m' pa, Vm.kalloc m=(m', some pa) ∧ Held kend m' (rest+{pa}) pt v := by
  obtain ⟨m',hm,hacc⟩ | ⟨m',pa,hm,hacc⟩ := h.accounts.kalloc
  · exact .inl ⟨m',hm,hacc,h.mapped,h.unmapped⟩
  · exact .inr ⟨m',pa,hm,hacc.congr (by abel),h.mapped,h.unmapped⟩

theorem Held.kfree {pa : Page} (h : Held kend m (rest+{pa}) pt v) :
    Yields (Vm.kfree m pa) fun m' => Held kend m' rest pt v := by
  have hacc : Accounts kend m (rest+tables pt+pagesFrom pt 0 v+{pa}) := h.accounts.congr (by abel)
  exact hacc.kfree.weaken fun m' hacc' => ⟨hacc',h.mapped,h.unmapped⟩

theorem uvmallocFrom_spec {n newsz : Nat} {perm : Perm} (hr : perm.r=true) (k : Nat)
    (h : Held kend m rest pt v) (hn : n ≤ v) :
    Yields (uvmallocFrom m pt (n*pgsize) newsz perm (v*pgsize) k) fun r =>
      (r.2.2=0 ∧ Held kend r.1 rest r.2.1 n ∧ Keeps pt r.2.1 n) ∨
        (r.2.2=newsz ∧ Held kend r.1 rest r.2.1 (v+k) ∧ Keeps pt r.2.1 v ∧ MappedAs r.2.1 perm v k) := by
  induction k generalizing m pt v with
  | zero => exact .ok (.inr ⟨rfl,h,.refl _ _,fun w hvw hwv => absurd hwv (by omega)⟩)
  | succ k ih =>
    unfold uvmallocFrom
    obtain ⟨m',hm,h'⟩ | ⟨m',pa,hm,h'⟩ := h.kalloc
    · rw [hm]
      exact (h'.undo hn).bind fun r hr => .ok (.inl ⟨rfl,hr⟩)
    · rw [hm]
      refine (h'.map_next hr).bind ?_
      rintro ⟨m₂,pt₂,mapped⟩ ⟨hkeep,hheld⟩
      cases mapped with
      | false =>
        have hheld : Held kend m₂ (rest+{pa}) pt₂ v := hheld
        refine hheld.kfree.bind fun m₃ h₃ => ?_
        exact (h₃.undo hn).bind fun r hr => .ok (.inl ⟨rfl,hr.1,(hkeep.mono hn).trans hr.2⟩)
      | true =>
        obtain ⟨hheld,hnew⟩ : Held kend m₂ rest pt₂ (v+1) ∧ leaf pt₂ v=some ⟨pa,perm⟩ := hheld
        have hstep : v*pgsize+pgsize=(v+1)*pgsize := (Nat.succ_mul v pgsize).symm
        have hfew : v+1≤557056 := hheld.few
        rw [hstep]
        refine (ih hheld (by omega)).weaken fun r hr => ?_
        obtain ⟨hz,hheld',hkeep'⟩ | ⟨hz,hheld',hkeep',has⟩ := hr
        · exact .inl ⟨hz,hheld',(hkeep.mono hn).trans hkeep'⟩
        · refine .inr ⟨hz,?_,hkeep.trans (hkeep'.mono (by omega)),fun w hvw hwv => ?_⟩
          · rwa [Nat.add_right_comm,Nat.add_assoc] at hheld'
          · by_cases hwv' : w=v
            · rw [hwv',hkeep' v (by omega) (by omega),hnew]
              exact ⟨pa,rfl⟩
            · exact has w (by omega) (by omega)

theorem uvmalloc_spec {oldsz newsz : Nat} (hsz : oldsz ≤ phystop) (w x : Bool)
    (h : Held kend m rest pt (npages oldsz)) : Yields (uvmalloc m pt oldsz newsz w x) fun r =>
      (r.2.2=0 ∧ Held kend r.1 rest r.2.1 (npages oldsz) ∧ Keeps pt r.2.1 (npages oldsz)) ∨
        (r.2.2=max oldsz newsz ∧ r.2.2 ≤ phystop ∧ Held kend r.1 rest r.2.1 (npages r.2.2) ∧
          Keeps pt r.2.1 (npages oldsz) ∧ MappedAs r.2.1 ⟨true,w,x,true⟩ (npages oldsz)
            (npages r.2.2-npages oldsz)) := by
  unfold uvmalloc
  by_cases hlt : newsz < oldsz
  · rw [if_pos hlt]
    refine .ok (.inr ⟨(max_eq_left hlt.le).symm,hsz,h,.refl _ _,fun w h1 h2 => absurd h2 ?_⟩)
    rw [Nat.sub_self]
    omega
  · rw [if_neg hlt]
    simp only [pgroundup_npages]
    refine (uvmallocFrom_spec rfl _ h le_rfl).weaken fun r hr => ?_
    obtain hz | ⟨hz,hheld,hkeep,has⟩ := hr
    · exact .inl hz
    · have hfew : _ ≤ 557056 := hheld.few
      have hold := npages_eq hsz
      rw [pgsize_eq] at hheld has hfew
      have hle : newsz ≤ phystop := by
        rw [phystop_eq]
        omega
      have hcount : npages newsz=npages oldsz+(newsz-npages oldsz*4096+(4096-1))/4096 := by
        rw [npages_eq hle]
        omega
      rw [← hcount] at hheld
      refine .inr ⟨?_,?_,?_,hkeep,?_⟩
      · rw [hz,max_eq_right (by omega)]
      · rwa [hz]
      · rwa [hz]
      · rwa [hz,hcount,Nat.add_sub_cancel_left]

theorem Held.of_low {m' : Mem} (h : Held kend m rest pt n)
    (hacc : Accounts kend m' (rest+pagesFrom pt 0 n+tables pt'))
    (hsame : ∀ w < trapframeVpn, leaf pt' w=leaf pt w) : Held kend m' rest pt' n := by
  have hfew : n≤557056 := h.few
  have hlow : ∀ w < n, leaf pt' w=leaf pt w := fun w hw =>
    hsame w (by simp only [trapframeVpn]; omega)
  refine ⟨hacc.congr ?_,fun w h0 hw => ?_,fun w hw hwn => ?_⟩
  · rw [pagesFrom_congr fun w _ hw => hlow w (by omega)]
    abel
  · rw [hlow w (by omega)]
    exact h.mapped w h0 hw
  · rw [hsame w hw]
    exact h.unmapped w hw hwn

theorem Held.map_high (h : Held kend m rest pt n) (hv : trapframeVpn ≤ v) (hv' : v<2^26)
    (hnone : leaf pt v=none) (pa : Page) (perm : Perm) :
    Yields (mappages m pt (v*pgsize) pgsize pa perm) fun r =>
      Held kend r.1 rest r.2.1 n ∧
        ∀ w<2^27, leaf r.2.1 w = if r.2.2 ∧ w=v then some ⟨pa,perm⟩ else leaf pt w := by
  have hacc : Accounts kend m (rest+pagesFrom pt 0 n+tables pt) := h.accounts.congr (by abel)
  refine (mappages_spec hacc hv' hnone pa perm).weaken fun r hr =>
    ⟨h.of_low hr.1 fun w hw => ?_,hr.2⟩
  rw [hr.2 w (by omega),if_neg (by omega)]

theorem Held.unmap_high (h : Held kend m rest pt n) (hv : trapframeVpn ≤ v) (hv' : v<2^26)
    (hmap : ∃ e, leaf pt v=some e ∧ e.perm.r=true) :
    Yields (uvmunmap m pt (v*pgsize) 1 false) fun r =>
      Held kend r.1 rest r.2 n ∧ ∀ w<2^27, leaf r.2 w = if w=v then none else leaf pt w := by
  have hacc : Accounts kend m (rest+pagesFrom pt 0 n+tables pt +
      if false then pagesFrom pt v 1 else 0) :=
    h.accounts.congr (by simp only [Bool.false_eq_true,if_false]; abel)
  have hmapped : Mapped pt v 1 := fun w hvw hwv => by rwa [show w=v by omega]
  refine (uvmunmap_spec false hacc (by omega) hmapped).weaken fun r hr => ?_
  have hleaf : ∀ w<2^27, leaf r.2 w = if w=v then none else leaf pt w := fun w hw => by
    rw [hr.2 w hw]
    exact if_congr (by omega) rfl rfl
  refine ⟨h.of_low hr.1 fun w hw => ?_,hleaf⟩
  rw [hleaf w (by omega),if_neg (by omega)]

theorem uvmfree_spec {sz : Nat} (hsz : sz ≤ phystop) (h : Held kend m rest pt (npages sz))
    (hhigh : ∀ w<2^27, trapframeVpn ≤ w → leaf pt w=none) :
    Yields (uvmfree m pt sz) fun m => Accounts kend m rest := by
  have hempty : ∀ {m pt}, Held kend m rest pt 0 → (∀ w<2^27, trapframeVpn ≤ w →
      leaf pt w=none) → Yields (freewalk m pt) fun m => Accounts kend m rest := by
    intro m pt h hhigh
    refine freewalk_spec (h.accounts.congr (by rw [pagesFrom_zero,add_zero])) fun w hw => ?_
    by_cases hwt : w < trapframeVpn
    · exact h.unmapped w hwt (Nat.zero_le w)
    · exact hhigh w hw (by omega)
  unfold uvmfree
  by_cases hpos : sz > 0
  · rw [if_pos hpos]
    refine h.clear.bind fun r hr => hempty hr.1 fun w hw hwt => ?_
    rw [hr.2 w hw (.inr hwt)]
    exact hhigh w hw hwt
  · rw [if_neg hpos]
    have hzero : npages sz=0 := by
      rw [npages_eq hsz]
      omega
    rw [hzero] at h
    exact hempty h hhigh

theorem uvmcopyFrom_spec {old : Pagetable} (k : Nat) (h : Held kend m rest pt v)
    (hold : Mapped old 0 (v+k)) (hfew : v+k≤557056) :
    Yields (uvmcopyFrom m old pt (v*pgsize) k) fun r =>
      Held kend r.1 rest r.2.1 (if r.2.2 then v+k else 0) ∧ Keeps pt r.2.1 0 := by
  induction k generalizing m pt v with
  | zero => exact .ok ⟨h,.refl _ _⟩
  | succ k ih =>
    obtain ⟨e,he,hr⟩ := hold v (Nat.zero_le v) (by omega)
    have hcount : v*pgsize/pgsize=v := Nat.mul_div_cancel _ (by decide)
    unfold uvmcopyFrom
    rw [walk_leaf (by omega) he,hcount]
    refine Yields.ok_bind ?_
    obtain ⟨m',hm,h'⟩ | ⟨m',pa,hm,h'⟩ := h.kalloc
    · rw [hm]
      exact h'.clear.bind fun r hr => .ok hr
    · rw [hm]
      refine (h'.map_next hr).bind ?_
      rintro ⟨m₂,pt₂,mapped⟩ ⟨hkeep,hheld⟩
      have hzero : Keeps pt pt₂ 0 := hkeep.mono (Nat.zero_le v)
      cases mapped with
      | false =>
        have hheld : Held kend m₂ (rest+{pa}) pt₂ v := hheld
        refine hheld.kfree.bind fun m₃ h₃ => ?_
        exact h₃.clear.bind fun r hr => .ok ⟨hr.1,hzero.trans hr.2⟩
      | true =>
        have hheld : Held kend m₂ rest pt₂ (v+1) := hheld.1
        have hstep : v*pgsize+pgsize=(v+1)*pgsize := (Nat.succ_mul v pgsize).symm
        have hindex : v+1+k=v+(k+1) := by omega
        rw [hstep]
        refine (ih hheld (hindex ▸ hold) (by omega)).weaken fun r hr => ?_
        exact ⟨hindex ▸ hr.1,hzero.trans hr.2⟩

theorem uvmcopy_spec {old : Pagetable} {sz : Nat} (hsz : sz ≤ phystop) (h : Held kend m rest pt 0)
    (hold : Mapped old 0 (npages sz)) : Yields (uvmcopy m old pt sz) fun r =>
      Held kend r.1 rest r.2.1 (if r.2.2 then npages sz else 0) ∧ Keeps pt r.2.1 0 := by
  have hcopy := uvmcopyFrom_spec (npages sz) h (by rwa [Nat.zero_add])
    (by rw [npages_eq hsz]; rw [phystop_eq] at hsz; omega)
  rw [Nat.zero_add,Nat.zero_mul,npages_eq hsz] at hcopy
  rwa [npages_eq hsz]

theorem uvmclear_spec (h : Held kend m rest pt n) (hv : v < n) :
    Yields (uvmclear pt (v*pgsize)) fun pt' => Held kend m rest pt' n ∧ Keeps pt pt' 0 := by
  have hfew : n≤557056 := h.few
  obtain ⟨e,he,hr⟩ := h.mapped v (Nat.zero_le v) (by omega)
  unfold uvmclear
  rw [walk_leaf (by omega) he]
  have hleaf : ∀ w<2^27, leaf (put pt (path (v*pgsize)) (some { e with perm.u := false })) w =
      if w=v then some { e with perm.u := false } else leaf pt w :=
    fun w hw => leaf_put (reaches_of_lookup he) (by omega) hw _
  have hheld : ∀ w<2^27, Pte.held (leaf (put pt (path (v*pgsize))
      (some { e with perm.u := false })) w)=Pte.held (leaf pt w) := fun w hw => by
    rw [hleaf w hw]
    by_cases hwv : w=v
    · rw [if_pos hwv,hwv,he]
      rfl
    · rw [if_neg hwv]
  refine .ok ⟨⟨h.accounts.congr ?_,fun w h0 hw => ?_,fun w hw hnw => ?_⟩,fun w hw hwt => ?_⟩
  · rw [tables_put,pagesFrom,pagesFrom,Finset.sum_congr rfl fun w hw => hheld w ?_]
    have := (Finset.mem_Ico.mp hw).2
    omega
  · rw [hleaf w (by omega)]
    by_cases hwv : w=v
    · rw [if_pos hwv]
      exact ⟨_,rfl,hr⟩
    · rw [if_neg hwv]
      exact h.mapped w h0 hw
  · rw [hleaf w (by simp only [trapframeVpn] at hw; omega),if_neg (by omega)]
    exact h.unmapped w hw hnw
  · rw [hleaf w hw,if_neg]
    simp only [trapframeVpn] at hwt
    omega

theorem walkaddr_leaf {e : Pte} (hv : v<2^26) (h : leaf pt v=some e)
    (hu : e.perm.u=true) : walkaddr pt (v*pgsize)=.ok e.pa := by
  have hva : ¬ v*pgsize ≥ maxva := by rw [pgsize_eq,maxva_eq]; omega
  rw [walkaddr,if_neg hva,walk_leaf hv h]
  change Except.ok (if e.perm.u then e.pa else 0)=_
  rw [if_pos hu]

theorem Held.page_pos {e : Pte} {w : Nat} (h : Held kend m rest pt n) (hw : w < n)
    (he : leaf pt w=some e) : e.pa≠0 := by
  have hmem : e.pa∈pagesFrom pt 0 n := by
    refine Multiset.mem_sum.mpr ⟨w,by simp [hw],?_⟩
    rw [he]
    exact Multiset.mem_singleton_self e.pa
  have hlow := (h.accounts.mem_held (Multiset.mem_add.mpr (.inr hmem))).2.1
  have hpos := h.accounts.inMemory.1
  intro hzero
  rw [hzero] at hlow
  omega

end Xv6.Vm
