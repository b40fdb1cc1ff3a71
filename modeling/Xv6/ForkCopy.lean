import Xv6.DataSpec
import Xv6.PageAccount

/-! `uvmcopy` of `kernel/vm.c` with the contents of the pages: the child gets the flags and
the bytes of its parent in pages of its own, or no user page at all, and the parent is
left alone. -/
namespace Xv6.UserData
open Function Xv6.Machine Xv6.PageTree Xv6.Total Xv6.Vm Xv6.UserMemory
open Xv6.Proc (Slot initproc)
variable {kend : Nat} {r r' : Ram} {rest : Multiset Page} {old new pt : Pagetable} {sz n v : Nat}

def uvmcopyFrom (r : Ram) (old new : Pagetable) (i : Nat) :
    Nat → Except Panic (Ram × Pagetable × Bool)
  | 0 => .ok (r, new, true)
  | n+1 => do
    match ← walk old i with
    | none => .error .uvmcopyPteShouldExist
    | some none => .error .uvmcopyPageNotPresent
    | some (some pte) =>
      match kalloc r with
      | (r, none) =>
        let (r, new) ← uvmunmap r new 0 (i/pgsize) true
        .ok (r, new, false)
      | (r, some mem) =>
        let r := r.memmove mem 0 pgsize (r.data pte.pa)
        let (r, new, mapped) ← r.onTables (mappages r.mem new i pgsize mem pte.perm)
        if mapped then uvmcopyFrom r old new (i+pgsize) n
        else
          let r ← kfree r mem
          let (r, new) ← uvmunmap r new 0 (i/pgsize) true
          .ok (r, new, false)

/-- `uvmcopy`; the flag says that it returns 0. -/
def uvmcopy (r : Ram) (old new : Pagetable) (sz : Nat) : Except Panic (Ram × Pagetable × Bool) :=
  uvmcopyFrom r old new 0 ((sz+(pgsize-1))/pgsize)

theorem uvmcopyFrom_erase (r : Ram) (old new : Pagetable) (i n : Nat) :
    erase (uvmcopyFrom r old new i n)=Vm.uvmcopyFrom r.mem old new i n := by
  induction n generalizing r new i with
  | zero => rfl
  | succ n ih =>
    unfold uvmcopyFrom Vm.uvmcopyFrom
    cases walk old i with
    | error e => rfl
    | ok found =>
      cases found with
      | none => rfl
      | some found =>
        cases found with
        | none => rfl
        | some pte =>
          obtain ⟨m,hm,hr⟩ | ⟨m,pa,hm,hr⟩ := kalloc_erase r
          · rw [hm,hr]
            exact erase_bind (uvmunmap_erase _ new _ _ true) fun r x => rfl
          · rw [hm,hr]
            refine erase_bind (erase_onTables _ _) fun r x => ?_
            obtain ⟨new,mapped⟩ := x
            cases mapped with
            | true => exact ih r new _
            | false =>
              refine erase_kfree_bind (fun r => ?_) r
              exact erase_bind (uvmunmap_erase r new _ _ true) fun r x => rfl

theorem uvmcopy_erase (r : Ram) (old new : Pagetable) (sz : Nat) :
    erase (uvmcopy r old new sz)=Vm.uvmcopy r.mem old new sz :=
  uvmcopyFrom_erase r old new 0 _

/-- The first `n` pages of `pt` have the flags and the bytes of those of `old`. -/
def CopyOf (r : Ram) (old pt : Pagetable) (n : Nat) : Prop :=
  ∀ w < n, ∃ e pa, leaf old w=some e ∧ leaf pt w=some ⟨pa,e.perm⟩ ∧
    ∀ o < pgsize, r.data pa o=r.data e.pa o

theorem uvmunmap_clear (h : Held kend r.mem rest pt v) :
    Yields (uvmunmap r pt 0 v true) fun x => Same rest r x.1 := by
  refine ((Yields.of_erase (uvmunmap_erase ..) h.clear).and fun x hx => uvmunmap_frees hx).weaken ?_
  rintro x ⟨⟨hheld,-⟩,hfrees⟩
  refine (hfrees.same hheld.accounts).mono ?_
  rw [add_assoc]
  exact Multiset.le_add_right _ _

theorem CopyOf.extend {pt₂ : Pagetable} {e : Pte} {pa : Page} (h : CopyOf r old pt v)
    (hv : v<2^27) (hkeep : Keeps pt pt₂ v) (he : leaf old v=some e)
    (hnew : leaf pt₂ v=some ⟨pa,e.perm⟩) (hrest : pagesFrom old 0 (v+1) ≤ rest)
    (hsame : Same (rest+pagesFrom pt 0 v) r r') (hbytes : ∀ o < pgsize, r'.data pa o=r.data e.pa o) :
    CopyOf r' old pt₂ (v+1) := by
  have hparent : ∀ {w e}, w < v+1 → leaf old w=some e → r'.data e.pa=r.data e.pa :=
    fun hw he => hsame _ (Multiset.mem_add.mpr
      (.inl (Multiset.mem_of_le hrest (mem_pagesFrom hw he))))
  intro w hw
  rcases Nat.lt_succ_iff_lt_or_eq.mp hw with hlt | rfl
  · obtain ⟨e',pa',he',hleaf,hdata⟩ := h w hlt
    refine ⟨e',pa',he',(hkeep w (by omega) (.inl hlt)).trans hleaf,fun o ho => ?_⟩
    have hpage : r'.data pa'=r.data pa' :=
      hsame pa' (Multiset.mem_add.mpr (.inr (mem_pagesFrom hlt hleaf)))
    rw [hpage,hparent hw he',hdata o ho]
  · refine ⟨e,pa,he,hnew,fun o ho => ?_⟩
    rw [hparent hw he,hbytes o ho]

theorem uvmcopyFrom_data (k : Nat) (h : Held kend r.mem rest pt v) (hold : Mapped old 0 (v+k))
    (hfew : v+k≤557056) (hrest : pagesFrom old 0 (v+k) ≤ rest) (hcopy : CopyOf r old pt v) :
    Yields (uvmcopyFrom r old pt (v*pgsize) k) fun x =>
      Same rest r x.1 ∧ (x.2.2=true → CopyOf x.1 old x.2.1 (v+k)) := by
  induction k generalizing r pt v with
  | zero => exact .ok ⟨.refl _ _,fun _ => hcopy⟩
  | succ k ih =>
    obtain ⟨e,he,hr⟩ := hold v (Nat.zero_le v) (by omega)
    have hcount : v*pgsize/pgsize=v := Nat.mul_div_cancel _ (by decide)
    unfold uvmcopyFrom
    rw [walk_leaf (by omega) he,hcount]
    refine Yields.ok_bind ?_
    obtain ⟨m,hk,h'⟩ | ⟨r₁,pa,hk,h₁,hfresh,hpa⟩ := kalloc_fresh h
    · rw [hk]
      exact (uvmunmap_clear (r := { r with mem := m }) h').bind fun x hx => .ok ⟨hx,nofun⟩
    rw [hk]
    have hle : rest+pagesFrom pt 0 v ≤ rest+tables pt+pagesFrom pt 0 v := held_le le_rfl
    have hone : pagesFrom old 0 (v+1) ≤ rest := by
      refine le_trans ?_ hrest
      have hsplit : v+(k+1)=(v+1)+k := by omega
      have hadd : pagesFrom old 0 (v+1+k)=pagesFrom old 0 (v+1)+pagesFrom old (0+(v+1)) k :=
        pagesFrom_add (v+1) k
      rw [hsplit,hadd]
      exact Multiset.le_add_right _ _
    have hparent : r₁.data e.pa=r.data e.pa := by
      refine hfresh e.pa (Multiset.mem_of_le hle (Multiset.mem_add.mpr (.inl ?_)))
      exact Multiset.mem_of_le hone (mem_pagesFrom (Nat.lt_succ_self v) he)
    refine ((Yields.of_erase (erase_onTables (r₁.memmove pa 0 pgsize (r₁.data e.pa)) _)
      (h₁.map_next hr)).and fun x hx => onTables_data hx).bind ?_
    rintro ⟨r₂,pt₂,mapped⟩ ⟨⟨hkeep,hheld⟩,hdata⟩
    have hsame : Same (rest+pagesFrom pt 0 v) r r₂ := by
      intro p hp
      rw [hdata]
      exact hfresh.memmove hpa 0 pgsize (r₁.data e.pa) p (Multiset.mem_of_le hle hp)
    have hkept : Same rest r r₂ := hsame.mono (Multiset.le_add_right _ _)
    cases mapped with
    | false =>
      have hheld : Held kend r₂.mem (rest+{pa}) pt₂ v := hheld
      refine (kfree_data hheld).bind fun r₃ hr₃ => ?_
      have hfreed : Same rest r r₃ := hkept.trans <| hr₃.2.mono <|
        (Multiset.le_add_right _ _).trans (Multiset.le_add_right _ _)
      exact (uvmunmap_clear hr₃.1).bind fun x hx => .ok ⟨hfreed.trans hx,nofun⟩
    | true =>
      obtain ⟨hheld,hnew⟩ : Held kend r₂.mem rest pt₂ (v+1) ∧ leaf pt₂ v=some ⟨pa,e.perm⟩ := hheld
      have hbytes : ∀ o < pgsize, r₂.data pa o=r.data e.pa o := by
        intro o ho
        rw [hdata,← hparent]
        simp [Ram.memmove,ho]
      have hcopy₂ : CopyOf r₂ old pt₂ (v+1) :=
        hcopy.extend (by omega) hkeep he hnew hone hsame hbytes
      have hstep : v*pgsize+pgsize=(v+1)*pgsize := (Nat.succ_mul v pgsize).symm
      have hindex : v+1+k=v+(k+1) := by omega
      rw [hstep]
      refine (ih hheld (hindex ▸ hold) (by omega) (hindex ▸ hrest) hcopy₂).weaken fun x hx => ?_
      exact ⟨hkept.trans hx.1,hindex ▸ hx.2⟩

theorem uvmcopy_data (hsz : sz ≤ phystop) (h : Held kend r.mem rest new 0)
    (hold : Mapped old 0 (npages sz)) (hrest : pagesFrom old 0 (npages sz) ≤ rest) :
    Yields (uvmcopy r old new sz) fun x =>
      Same rest r x.1 ∧ (x.2.2=true → CopyOf x.1 old x.2.1 (npages sz)) := by
  have hcopy := uvmcopyFrom_data (npages sz) h (by rwa [Nat.zero_add])
    (by rw [npages_eq hsz]; rw [phystop_eq] at hsz; omega) (by rwa [Nat.zero_add])
    (fun w hw => absurd hw (Nat.not_lt_zero w))
  rw [Nat.zero_add,Nat.zero_mul,npages_eq hsz] at hcopy
  rwa [npages_eq hsz]

/-- A store of the byte `b` at the address `a` by way of the table `pt`; without a page
there, nothing is written. -/
def store (r : Ram) (pt : Pagetable) (a : Nat) (b : UInt8) : Ram :=
  match leaf pt (a/pgsize) with
  | none => r
  | some e => r.memmove e.pa (a%pgsize) 1 fun _ => b

def PagesApart (pt pt' : Pagetable) (n : Nat) : Prop :=
  ∀ w w', w < n → w' < n → ∀ e e', leaf pt w=some e → leaf pt' w'=some e' → e.pa≠e'.pa

theorem PagesApart.symm {pt' : Pagetable} (h : PagesApart pt pt' n) : PagesApart pt' pt n :=
  fun w w' hw hw' e e' he he' heq => h w' w hw' hw e' e he' he heq.symm

theorem PagesApart.userByte_store {pt' : Pagetable} (h : PagesApart pt pt' (npages sz)) {a c : Nat}
    (ha : a < pgroundup sz) (hc : c < pgroundup sz) (r : Ram) (b : UInt8) :
    userByte (store r pt a b) pt' c=userByte r pt' c := by
  unfold store userByte
  cases he : leaf pt (a/pgsize) with
  | none => rfl
  | some e =>
    cases he' : leaf pt' (c/pgsize) with
    | none => rfl
    | some e' =>
      have hne : e'.pa≠e.pa :=
        (h _ _ (lt_npages_iff.mpr ha) (lt_npages_iff.mpr hc) e e' he he').symm
      simp [Ram.memmove,hne]

structure Forked (r' : Ram) (rest : Multiset Page) (old new new' : Pagetable) (sz : Nat) : Prop where
  /-- each page below `PGROUNDUP(sz)` has the flags and the bytes of the parent's, in a
  page that nobody held -/
  copied : ∀ w < npages sz, ∃ e pa, leaf old w=some e ∧ leaf new' w=some ⟨pa,e.perm⟩ ∧
    pa∉rest ∧ ∀ o < pgsize, r'.data pa o=r'.data e.pa o
  /-- the other pages are mapped as they were -/
  other : ∀ w < 2 ^ 27, npages sz ≤ w → leaf new' w=leaf new w
  /-- no later store by way of one table is seen by way of the other -/
  isolated : ∀ (later : Ram) (a c : Nat) (b : UInt8), a < pgroundup sz → c < pgroundup sz →
    userByte (store later new' a b) old c=userByte later old c ∧
      userByte (store later old a b) new' c=userByte later new' c

/-- What `uvmcopy` leaves when it returns -1: the table has no user page, and the pages
missing on the free list are pages of the table itself. -/
structure Undone (r r' : Ram) (new new' : Pagetable) : Prop where
  unmapped : ∀ w < trapframeVpn, leaf new' w=none
  high : ∀ w < 2 ^ 27, trapframeVpn ≤ w → leaf new' w=leaf new w
  freed : (r'.mem.freelist : Multiset Page)+tables new'=r.mem.freelist+tables new

theorem Held.other {new' : Pagetable} (h : Held kend r.mem rest new 0)
    (h' : Held kend r'.mem rest new' n) (hkeep : Keeps new new' 0) {w : Nat} (hw : w<2^27)
    (hn : n ≤ w) : leaf new' w=leaf new w := by
  by_cases hhigh : trapframeVpn ≤ w
  · exact hkeep w hw (.inr hhigh)
  · rw [h'.unmapped w (by omega) hn,h.unmapped w (by omega) (Nat.zero_le w)]

theorem Held.page_fresh {e : Pte} {w : Nat} (h : Held kend r.mem rest pt n) (hw : w < n)
    (he : leaf pt w=some e) : e.pa∉rest := by
  intro hmem
  have hnodup := h.accounts.nodup
  rw [Multiset.nodup_add] at hnodup
  exact Multiset.disjoint_left.mp hnodup.2.2 (Multiset.mem_add.mpr (.inl hmem))
    (mem_pagesFrom hw he)

/-- In every state of the system, a process and a new table next to it are such a parent
and such a child. -/
theorem Sys.Sound.parent_child {s : Sys} (h : s.Sound kend) {q : Slot} {m : Mem} {trapframe : Page}
    (hpt : (s.proc q).pagetable=some old) (hused : (s.proc q).state≠.unused)
    (hnew : procPagetable s.mem trapframe=.ok (m, some new)) :
    Laid old (s.proc q).sz ∧ ∃ rest, Held kend m
      (rest+(tables old+pagesFrom old 0 (npages (s.proc q).sz))) new 0 := by
  obtain ⟨pt,hpt',hlaid⟩ := (h.slots q).ready hused
  obtain rfl : pt=old := Option.some.inj (hpt'.symm.trans hpt)
  have hacc := h.account q
  rw [Task.held,hpt,Option.elim_some,← add_assoc] at hacc
  have hspace := (procPagetable_spec hacc trapframe).apply hnew
  exact ⟨hlaid,_,hspace.toHeld⟩

/-- `uvmcopy` copies all of the parent's memory to pages that are the child's alone, or leaves no
user page behind. In both cases everybody else's pages keep their contents. -/
theorem uvmcopy_copies (hparent : Laid old sz)
    (hchild : Held kend r.mem (rest+(tables old+pagesFrom old 0 (npages sz))) new 0) :
    ∃ r' new' ok, uvmcopy r old new sz=.ok (r', new', ok) ∧
      (ok=true →
        Forked r' (rest+(tables old+pagesFrom old 0 (npages sz))) old new new' sz) ∧
      (ok=false → Undone r r' new new') ∧
      Same (rest+(tables old+pagesFrom old 0 (npages sz))) r r' ∧
      ∀ a < pgroundup sz, userByte r' old a=userByte r old a := by
  have huser : pagesFrom old 0 (npages sz) ≤ rest+(tables old+pagesFrom old 0 (npages sz)) :=
    (Multiset.le_add_left _ _).trans (Multiset.le_add_left _ _)
  generalize rest+(tables old+pagesFrom old 0 (npages sz))=held at hchild huser ⊢
  obtain ⟨⟨r',new',ok⟩,hcall,hsame,hcopy⟩ := uvmcopy_data hparent.small hchild hparent.mapped huser
  obtain ⟨hheld,hkeep⟩ := (Yields.of_erase (uvmcopy_erase ..)
    (uvmcopy_spec hparent.small hchild hparent.mapped)).apply hcall
  dsimp only at hsame hcopy hheld hkeep
  refine ⟨r',new',ok,hcall,?_,?_,hsame,fun a ha => ?_⟩
  · rintro rfl
    have hapart : PagesApart new' old (npages sz) := by
      intro w w' hw hw' e e' he he' heq
      have hmem : e'.pa∈held := Multiset.mem_of_le huser (mem_pagesFrom hw' he')
      exact Held.page_fresh hheld hw he (heq ▸ hmem)
    refine ⟨fun w hw => ?_,fun w hw hn => Held.other hchild hheld hkeep hw hn,
      fun later a c b ha hc => ⟨hapart.userByte_store ha hc later b,
        hapart.symm.userByte_store ha hc later b⟩⟩
    obtain ⟨e,pa,he,hleaf,hdata⟩ := hcopy rfl w hw
    exact ⟨e,pa,he,hleaf,Held.page_fresh hheld hw hleaf,hdata⟩
  · rintro rfl
    have hheld : Held kend r'.mem held new' 0 := hheld
    refine ⟨fun w hw => hheld.unmapped w hw (Nat.zero_le w),
      fun w hw hhigh => hkeep w hw (.inr hhigh),?_⟩
    have hsum := hheld.accounts.sum.trans hchild.accounts.sum.symm
    rw [pagesFrom_zero,pagesFrom_zero,add_zero,add_zero,add_left_comm,add_left_comm _ held]
      at hsum
    exact add_left_cancel hsum
  · have hpage := lt_npages_iff.mpr ha
    unfold userByte
    cases he : leaf old (a/pgsize) with
    | none => rfl
    | some e => simp [hsame e.pa (Multiset.mem_of_le huser (mem_pagesFrom hpage he))]

def tinyParent : Pagetable := ((tinyBoot.proc initproc).pagetable).get (by decide +kernel)

def tinyChild : Mem × Pagetable :=
  ((procPagetable tinyBoot.mem 0).toOption.bind fun x => x.2.map (x.1, ·)).get (by decide +kernel)

def tinyCopy : Except Panic (Ram × Pagetable × Bool) :=
  uvmcopy ⟨tinyChild.1,fun _ o => UInt8.ofNat o⟩ tinyParent tinyChild.2 pgsize

theorem tinyCopy_forked : ∃ r' new', tinyCopy=.ok (r', new', true) ∧
    userByte r' new' 7=some 7 := by
  have hboot : boot tiny 1=some tinyBoot := (Option.some_get _).symm
  have hsound : tinyBoot.Sound tiny.kernelEnd := boot_sound (by decide) hboot
  have hpt : (tinyBoot.proc initproc).pagetable=some tinyParent := (Option.some_get _).symm
  have hsz : (tinyBoot.proc initproc).sz=pgsize := by decide +kernel
  have hused : (tinyBoot.proc initproc).state≠.unused := by decide +kernel
  have hok : tinyCopy.toOption.map (fun x => x.2.2)=some true := by decide +kernel
  have hnew : ((procPagetable tinyBoot.mem 0).toOption.bind fun x => x.2.map (x.1, ·)) =
      some tinyChild := (Option.some_get _).symm
  have hcopy : tinyCopy =
      uvmcopy ⟨tinyChild.1,fun _ o => UInt8.ofNat o⟩ tinyParent tinyChild.2 pgsize := rfl
  generalize tinyCopy=copy at *
  generalize tinyChild=child at *
  generalize tinyParent=old at *
  generalize tinyBoot=s at *
  obtain ⟨⟨m,found⟩,htable,hfound⟩ := Option.bind_eq_some_iff.mp hnew
  obtain ⟨new,rfl,rfl⟩ := Option.map_eq_some_iff.mp hfound
  have htable : procPagetable s.mem 0=.ok (m, some new) := by
    cases hp : procPagetable s.mem 0 with
    | error e => simp [hp,Except.toOption] at htable
    | ok x => simpa [hp,Except.toOption] using htable
  obtain ⟨hlaid,rest,hheld⟩ := Sys.Sound.parent_child hsound hpt hused htable
  rw [hsz] at hlaid hheld
  obtain ⟨r',new',ok,hcall,hforked,-,-,hkept⟩ :=
    uvmcopy_copies (r := ⟨m,fun _ o => UInt8.ofNat o⟩) hlaid hheld
  obtain rfl := hcopy.trans hcall
  obtain rfl : ok=true := Option.some.inj hok
  obtain ⟨e,pa,he,hleaf,-,hbytes⟩ := (hforked rfl).copied 0 (by decide)
  have hbyte : ∀ (r : Ram) {pt e}, leaf pt 0=some e → userByte r pt 7=some (r.data e.pa 7) := by
    intro r pt e he
    have hzero : 7/pgsize=0 := by decide
    rw [userByte,hzero,he]
    rfl
  refine ⟨r',new',rfl,?_⟩
  have hsame := hkept 7 (by decide)
  rw [hbyte _ he,hbyte _ he] at hsame
  rw [hbyte _ hleaf,hbytes 7 (by decide),hsame]
  rfl

end Xv6.UserData
