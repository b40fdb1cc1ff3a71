import Xv6.VmHeld
import Xv6.UserMemory

/-! The page tables of processes between two calls. The functions that build one either succeed or
give back every page they took. -/
namespace Xv6.UserMemory
open Xv6.PageTree Xv6.Total Xv6.Vm
variable {kend : Nat} {m : Mem} {rest : Multiset Page} {pt pt' : Pagetable} {n v : Nat}

structure High (pt : Pagetable) : Prop where
  mapped : Mapped pt trapframeVpn 2
  unmapped : ∀ w < 2 ^ 27, 2 ^ 26 ≤ w → leaf pt w=none
  kernel : ∀ w < 2 ^ 27, trapframeVpn ≤ w → ∀ e, leaf pt w=some e → e.perm.u=false

theorem High.keeps (h : High pt) (hk : Keeps pt pt' n) : High pt' := by
  refine ⟨fun w hw hw' => ?_,fun w hw hw' => ?_,fun w hw hw' e he => ?_⟩
  · rw [hk w (by simp only [trapframeVpn] at *; omega) (.inr hw)]
    exact h.mapped w hw hw'
  · rw [hk w hw (.inr (by simp only [trapframeVpn]; omega))]
    exact h.unmapped w hw hw'
  · rw [hk w hw (.inr hw')] at he
    exact h.kernel w hw hw' e he

/-- A page table of a process with `n` user pages; it holds its pages besides `rest`. -/
structure Space (kend : Nat) (m : Mem) (rest : Multiset Page) (pt : Pagetable) (n : Nat) : Prop
    extends Held kend m rest pt n where
  high : High pt

theorem trampolineVa_eq : trampolineVa=(2^26-1)*pgsize := rfl

theorem trapframeVa_eq : trapframeVa=(2^26-2)*pgsize := rfl

theorem procFreepagetable_spec {sz : Nat} (hsz : sz ≤ phystop)
    (h : Space kend m rest pt (npages sz)) :
    Yields (procFreepagetable m pt sz) fun m => Accounts kend m rest := by
  unfold procFreepagetable
  rw [trampolineVa_eq,trapframeVa_eq]
  have hmap := h.high.mapped
  have hunmap := h.high.unmapped
  simp only [Mapped,trapframeVpn] at hmap
  refine (Held.unmap_high h.toHeld (by decide) (by decide) (hmap _ (by omega) (by omega))).bind ?_
  rintro ⟨m₁,pt₁⟩ ⟨h₁,hleaf₁⟩
  have htf : ∃ e, leaf pt₁ (2^26-2)=some e ∧ e.perm.r=true := by
    rw [hleaf₁ _ (by omega),if_neg (by omega)]
    exact hmap _ (by omega) (by omega)
  refine (Held.unmap_high h₁ (by decide) (by decide) htf).bind ?_
  rintro ⟨m₂,pt₂⟩ ⟨h₂,hleaf₂⟩
  refine uvmfree_spec hsz h₂ fun w hw hwt => ?_
  simp only [trapframeVpn] at hwt
  rw [hleaf₂ w hw,hleaf₁ w hw]
  by_cases hw2 : w=2^26-2
  · rw [if_pos hw2]
  by_cases hw1 : w=2^26-1
  · rw [if_neg hw2,if_pos hw1]
  · rw [if_neg hw2,if_neg hw1]
    exact hunmap w hw (by omega)

theorem procPagetable_spec (h : Accounts kend m rest) (trapframe : Page) :
    Yields (procPagetable m trapframe) fun r => match r.2 with
      | none => Accounts kend r.1 rest
      | some pt => Space kend r.1 rest pt 0 := by
  have hzero : npages 0=0 := rfl
  unfold procPagetable uvmcreate
  rw [trampolineVa_eq,trapframeVa_eq]
  obtain ⟨m₁,hm,hacc⟩ | ⟨m₁,pa,hm,hacc⟩ := h.kalloc
  · rw [hm]
    exact .ok hacc
  rw [hm]
  have hheld : Held kend m₁ rest (.empty pa) 0 := by
    refine ⟨hacc.congr ?_,fun w _ hw => absurd hw (by omega),fun w _ _ => lookup_empty pa _⟩
    rw [pagesFrom_zero,add_zero,tables_empty]
  refine (Held.map_high hheld (by decide) (by decide) (lookup_empty pa _) _ _).bind ?_
  rintro ⟨m₂,pt₂,mapped⟩ ⟨h₂,hleaf₂⟩
  have hpt₂ : ∀ w<2^27, ¬ (mapped=true ∧ w=2^26-1) → leaf pt₂ w=none := by
    intro w hw hne
    rw [hleaf₂ w hw,if_neg hne]
    exact lookup_empty pa _
  cases mapped with
  | false =>
    have hfree := uvmfree_spec (Nat.zero_le _) (hzero ▸ h₂) fun w hw _ => hpt₂ w hw (by simp)
    exact hfree.bind fun m₃ hm₃ => .ok hm₃
  | true =>
    have htramp : ∃ e, leaf pt₂ (2^26-1)=some e ∧ e.perm.r=true :=
      ⟨_,(hleaf₂ _ (by omega)).trans (if_pos ⟨rfl,rfl⟩),rfl⟩
    refine (Held.map_high h₂ (by decide) (by decide) (hpt₂ _ (by omega) (by omega)) _ _).bind ?_
    rintro ⟨m₃,pt₃,mapped⟩ ⟨h₃,hleaf₃⟩
    have hpt₃ : ∀ w<2^27, ¬ (mapped=true ∧ w=2^26-2) → leaf pt₃ w=leaf pt₂ w :=
      fun w hw hne => (hleaf₃ w hw).trans (if_neg hne)
    cases mapped with
    | false =>
      have htramp₃ : ∃ e, leaf pt₃ (2^26-1)=some e ∧ e.perm.r=true := by
        rwa [hpt₃ _ (by omega) (by simp)]
      refine (Held.unmap_high h₃ (by decide) (by decide) htramp₃).bind ?_
      rintro ⟨m₄,pt₄⟩ ⟨h₄,hleaf₄⟩
      have hfree := uvmfree_spec (Nat.zero_le _) (hzero ▸ h₄) fun w hw _ => by
        rw [hleaf₄ w hw]
        by_cases hwt : w=2^26-1
        · rw [if_pos hwt]
        · rw [if_neg hwt,hpt₃ w hw (by simp),hpt₂ w hw fun hc => hwt hc.2]
      exact hfree.bind fun m₅ hm₅ => .ok hm₅
    | true =>
      refine .ok ⟨h₃,⟨fun w hw hw' => ?_,fun w hw hw' => ?_,fun w hw hw' e he => ?_⟩⟩
      · simp only [trapframeVpn] at hw hw'
        by_cases hwt : w=2^26-2
        · exact ⟨_,(hleaf₃ w (by omega)).trans (if_pos ⟨rfl,hwt⟩),rfl⟩
        · rw [hpt₃ w (by omega) fun hc => hwt hc.2,show w=2^26-1 by omega]
          exact htramp
      · rw [hpt₃ w hw (by omega),hpt₂ w hw (by omega)]
      · rw [hleaf₃ w hw,hleaf₂ w hw] at he
        split_ifs at he
        · exact Option.some.inj he ▸ rfl
        · exact Option.some.inj he ▸ rfl
        · cases (lookup_empty pa _).symm.trans he

section Tasks
variable {p : Task} {sz : Nat}

structure Laid (pt : Pagetable) (sz : Nat) : Prop where
  small : sz ≤ phystop
  mapped : Mapped pt 0 (npages sz)
  unmapped : ∀ w < trapframeVpn, npages sz ≤ w → leaf pt w=none
  high : High pt

theorem Laid.space (h : Laid pt sz)
    (hacc : Accounts kend m (rest+(tables pt+pagesFrom pt 0 (npages sz)))) :
    Space kend m rest pt (npages sz) :=
  ⟨⟨hacc.congr (add_assoc _ _ _).symm,h.mapped,h.unmapped⟩,h.high⟩

theorem Space.laid (h : Space kend m rest pt (npages sz)) (hsz : sz ≤ phystop) : Laid pt sz :=
  ⟨hsz,h.mapped,h.unmapped,h.high⟩

def Task.held (p : Task) : Multiset Page :=
  p.trapframe.elim 0 (fun pa => {pa}) +
    p.pagetable.elim 0 fun pt => tables pt+pagesFrom pt 0 (npages p.sz)

theorem freeproc_spec (hp : ∀ pt, p.pagetable=some pt → Laid pt p.sz)
    (h : Accounts kend m (rest+p.held)) :
    Yields (freeproc m p) fun r =>
      Accounts kend r.1 rest ∧ r.2 = { Task.unused with ofile := p.ofile } := by
  have htf : Accounts kend m (rest+(p.pagetable.elim 0 fun pt =>
      tables pt+pagesFrom pt 0 (npages p.sz))+p.trapframe.elim 0 fun pa => {pa}) :=
    h.congr (by rw [Task.held]; abel)
  refine (ifSome_spec htf fun pa _ hpa => hpa.kfree).bind fun m₁ h₁ => ?_
  refine (ifSome_spec h₁ fun pt hpt hacc => ?_).bind fun m₂ h₂ => .ok ⟨h₂,rfl⟩
  exact procFreepagetable_spec (hp pt hpt).small ((hp pt hpt).space hacc)

theorem allocprocFound_spec (h : Accounts kend m rest) :
    Yields (allocprocFound m Task.unused) fun r =>
      (r.2.2=false ∧ r.2.1=Task.unused ∧ Accounts kend r.1 rest) ∨
        (r.2.2=true ∧ ∃ pa pt, r.2.1 = { Task.unused with
          state := .used, trapframe := some pa, pagetable := some pt } ∧
            Space kend r.1 (rest+{pa}) pt 0) := by
  unfold allocprocFound
  obtain ⟨m₁,hm,hacc⟩ | ⟨m₁,pa,hm,hacc⟩ := h.kalloc
  · rw [hm]
    refine (freeproc_spec (fun pt hpt => by cases hpt) (hacc.congr ?_)).bind fun r hr =>
      .ok (.inl ⟨rfl,hr.2,hr.1⟩)
    simp [Task.held,Task.unused]
  · rw [hm]
    refine (procPagetable_spec hacc pa).bind ?_
    rintro ⟨m₂,pt⟩ hpt
    cases pt with
    | some pt => exact .ok (.inr ⟨rfl,pa,pt,rfl,hpt⟩)
    | none =>
      refine (freeproc_spec (fun pt hpt => by cases hpt) (hpt.congr ?_)).bind fun r hr =>
        .ok (.inl ⟨rfl,hr.2,hr.1⟩)
      simp [Task.held]

def Task.Ready (p : Task) : Prop := ∃ pt, p.pagetable=some pt ∧ Laid pt p.sz

structure Reshaped (p q : Task) : Prop where
  ready : q.Ready
  state : q.state=p.state
  trapframe : q.trapframe=p.trapframe
  parent : q.parent=p.parent
  ofile : q.ofile=p.ofile

theorem Task.Ready.refl (h : p.Ready) : Reshaped p p := ⟨h,rfl,rfl,rfl,rfl⟩

theorem Space.reshaped (h : Space kend m (rest+p.trapframe.elim 0 fun pa => {pa}) pt (npages sz))
    (hsz : sz ≤ phystop) :
    Accounts kend m (rest + { p with pagetable := some pt, sz := sz }.held) ∧
      Reshaped p { p with pagetable := some pt, sz := sz } := by
  refine ⟨h.accounts.congr ?_,⟨pt,rfl,h.laid hsz⟩,rfl,rfl,rfl,rfl⟩
  simp only [Task.held,Option.elim_some]
  abel

theorem growproc_spec (hp : p.Ready) (h : Accounts kend m (rest+p.held)) (n : Int) :
    Yields (growproc m p n) fun r => Accounts kend r.1 (rest+r.2.held) ∧ Reshaped p r.2 := by
  obtain ⟨pt,hpt,hlaid⟩ := hp
  have hspace : Space kend m (rest+p.trapframe.elim 0 fun pa => {pa}) pt (npages p.sz) := by
    refine hlaid.space (h.congr ?_)
    rw [Task.held,hpt,Option.elim_some,add_assoc]
  unfold growproc
  rw [hpt]
  by_cases hpos : n > 0
  · simp only [if_pos hpos]
    refine (uvmalloc_spec hlaid.small true false hspace.toHeld).bind ?_
    rintro ⟨m₁,pt₁,sz₁⟩ (⟨rfl,hheld,hkeep⟩ | ⟨hmax,hsz,hheld,hkeep,-⟩)
    · exact .ok (Space.reshaped ⟨hheld,hspace.high.keeps hkeep⟩ hlaid.small)
    · -- `uvmalloc` returns 0 without a failure only for a process of size 0
      have hif : (if sz₁=0 then p.sz else sz₁)=sz₁ := by
        change sz₁=_ at hmax
        split <;> omega
      simp only [hif]
      exact .ok (Space.reshaped ⟨hheld,hspace.high.keeps hkeep⟩ hsz)
  · simp only [if_neg hpos]
    by_cases hneg : n<0
    · simp only [if_pos hneg]
      refine (uvmdealloc_spec hlaid.small hspace.toHeld).bind ?_
      rintro ⟨m₁,pt₁,sz₁⟩ ⟨hmin,hheld,hkeep⟩
      have hsz : sz₁ ≤ phystop := by
        have := hlaid.small
        change sz₁=_ at hmin
        omega
      exact .ok (Space.reshaped ⟨hheld,hspace.high.keeps hkeep⟩ hsz)
    · simp only [if_neg hneg]
      exact .ok ⟨h,Task.Ready.refl ⟨pt,hpt,hlaid⟩⟩

end Tasks

section Exec
variable {p : Task} {sz : Nat}

def Open (pt : Pagetable) (n : Nat) : Prop := ∀ w < n, ∀ e, leaf pt w=some e → e.perm.u=true

theorem loadsegFrom_spec {a j : Nat} (h : Held kend m rest pt n) (ho : Open pt n)
    (reads : Nat → Bool) (k : Nat) (hk : a+j+k ≤ n) :
    Yields (loadsegFrom pt (a*pgsize) reads (j*pgsize) k) fun _ => True := by
  have hfew : n≤557056 := h.few
  induction k generalizing j with
  | zero => exact .ok trivial
  | succ k ih =>
    obtain ⟨e,he,-⟩ := h.mapped (a+j) (Nat.zero_le _) (by omega)
    have hva : add64 (a*pgsize) (j*pgsize)=(a+j)*pgsize := by
      rw [add64,pgsize_eq]
      omega
    unfold loadsegFrom
    rw [hva,walkaddr_leaf (by omega) he (ho _ (by omega) e he)]
    change Yields (if e.pa=0 then _ else _) _
    rw [if_neg (h.page_pos (by omega) he)]
    split
    · rw [← Nat.succ_mul]
      exact ih (by omega)
    · exact .ok trivial

theorem loadseg_spec {va : Nat} (h : Held kend m rest pt n) (ho : Open pt n)
    (hva : va%pgsize=0) (hn : va+sz ≤ n*pgsize) (reads : Nat → Bool) :
    Yields (loadseg pt va sz reads) fun _ => True := by
  have hload := loadsegFrom_spec (a := va/pgsize) (j := 0) h ho reads
    ((sz%2^32+(pgsize-1))/pgsize) (by rw [pgsize_eq] at *; omega)
  have hdiv : va/pgsize*pgsize=va := Nat.div_mul_cancel (Nat.dvd_of_mod_eq_zero hva)
  rwa [hdiv,Nat.zero_mul] at hload

theorem loadProgram_spec (phs : List (Option Proghdr)) (hsz : sz ≤ phystop)
    (h : Space kend m rest pt (npages sz)) (ho : Open pt (npages sz)) :
    Yields (loadProgram m pt sz phs) fun r =>
      Space kend r.1 rest r.2.1 (npages r.2.2.1) ∧ r.2.2.1 ≤ phystop := by
  induction phs generalizing m pt sz with
  | nil => exact .ok ⟨h,hsz⟩
  | cons ph phs ih =>
    cases ph with
    | none => exact .ok ⟨h,hsz⟩
    | some ph =>
      unfold loadProgram
      split
      · exact ih hsz h ho
      split
      · exact .ok ⟨h,hsz⟩
      rename_i hbad
      refine (uvmalloc_spec hsz _ _ h.toHeld).bind ?_
      rintro ⟨m₁,pt₁,sz₁⟩ (⟨rfl,hheld,hkeep⟩ | ⟨hmax,hsz₁,hheld,hkeep,has⟩)
      · exact .ok ⟨⟨hheld,h.high.keeps hkeep⟩,hsz⟩
      dsimp only at hmax hsz₁ hheld hkeep has ⊢
      have hspace : Space kend m₁ rest pt₁ (npages sz₁) := ⟨hheld,h.high.keeps hkeep⟩
      have hopen : Open pt₁ (npages sz₁) := by
        have hfew : npages sz₁ ≤ 557056 := hheld.few
        intro w hw e he
        by_cases hold : w < npages sz
        · rw [hkeep w (by omega) (.inl hold)] at he
          exact ho w hold e he
        · obtain ⟨pa,hpa⟩ := has w (by omega) (by omega)
          rw [he] at hpa
          cases hpa
          rfl
      split
      · rename_i hzero
        obtain rfl : sz=sz₁ := by omega
        exact .ok ⟨hspace,hsz⟩
      · have hend : ph.vaddr+ph.filesz ≤ npages sz₁*pgsize := by
          have hsum : ph.vaddr+ph.memsz ≤ sz₁ := by
            have huint := ph.uint64
            rw [add64] at hmax hbad
            omega
          have hpages := npages_eq hsz₁
          rw [pgsize_eq]
          omega
        refine (loadseg_spec hheld hopen (by omega) hend ph.reads).bind fun loaded _ => ?_
        cases loaded with
        | true => exact ih hsz₁ hspace hopen
        | false => exact .ok ⟨hspace,hsz₁⟩

theorem execStack_spec (hsz : sz ≤ phystop) (h : Space kend m rest pt (npages sz)) :
    Yields (execStack m pt sz) fun r =>
      Space kend r.1 rest r.2.1 (npages r.2.2.1) ∧ r.2.2.1 ≤ phystop := by
  have hround := pgroundup_eq hsz
  have hpages := npages_eq hsz
  have hsz' : pgroundup sz ≤ phystop := by
    rw [phystop_eq] at *
    omega
  have hsame : npages (pgroundup sz)=npages sz := by
    rw [npages_eq hsz',hround,hpages]
    omega
  rw [← hsame] at h
  refine (uvmalloc_spec hsz' _ _ h.toHeld).bind ?_
  rintro ⟨m₁,pt₁,sz₁⟩ (⟨rfl,hheld,hkeep⟩ | ⟨hmax,hsz₁,hheld,hkeep,-⟩)
  · exact .ok ⟨⟨hheld,h.high.keeps hkeep⟩,hsz'⟩
  dsimp only at hmax hsz₁ hheld hkeep ⊢
  have hadd : sz₁=pgroundup sz+2*pgsize := by
    rw [hmax,add64,pgsize_eq]
    rw [phystop_eq] at hsz'
    omega
  have hva : sz₁-2*pgsize=npages sz*pgsize := by
    rw [hadd,Nat.add_sub_cancel,pgroundup_npages]
  have hlast : npages sz < npages sz₁ := by
    rw [npages_eq hsz₁,hadd,hround,hpages,pgsize_eq]
    omega
  rw [if_neg (by rw [hadd,pgsize_eq]; omega),hva]
  refine (uvmclear_spec hheld hlast).bind fun pt₂ h₂ => .ok ⟨⟨h₂.1,?_⟩,hsz₁⟩
  exact (h.high.keeps hkeep).keeps h₂.2

theorem execBad_spec (hsz : sz ≤ phystop) (hp : p.Ready)
    (h : Space kend m (rest+p.held) pt (npages sz)) :
    Yields (execBad m p pt sz) fun r => Accounts kend r.1 (rest+r.2.held) ∧ Reshaped p r.2 :=
  (procFreepagetable_spec hsz h).bind fun _ hacc => .ok ⟨hacc,hp.refl⟩

theorem exec_spec (hp : p.Ready) (h : Accounts kend m (rest+p.held)) (img : Image) :
    Yields (exec m p img) fun r => Accounts kend r.1 (rest+r.2.held) ∧ Reshaped p r.2 := by
  unfold exec
  split
  · exact .ok ⟨h,hp.refl⟩
  refine (procPagetable_spec h _).bind ?_
  rintro ⟨m₁,pt⟩ hpt
  cases pt with
  | none => exact .ok ⟨hpt,hp.refl⟩
  | some pt =>
    have hopen : Open pt (npages 0) := fun w hw => absurd hw (by rw [npages_eq (Nat.zero_le _)]; omega)
    refine (loadProgram_spec img.proghdrs (Nat.zero_le _) hpt hopen).bind ?_
    rintro ⟨m₂,pt₂,sz₂,loaded⟩ ⟨h₂,hsz₂⟩
    cases loaded with
    | false => exact execBad_spec hsz₂ hp h₂
    | true =>
      refine (execStack_spec hsz₂ h₂).bind ?_
      rintro ⟨m₃,pt₃,sz₃,stacked⟩ ⟨h₃,hsz₃⟩
      dsimp only at h₃ hsz₃ ⊢
      split
      · -- commit: the pages of the old table are freed, those of the new one are held
        obtain ⟨old,hold,hlaid⟩ := hp
        have hacc : Accounts kend m₃ (rest+(p.trapframe.elim 0 fun pa => {pa}) +
            (tables pt₃+pagesFrom pt₃ 0 (npages sz₃)) +
              (tables old+pagesFrom old 0 (npages p.sz))) := by
          refine h₃.accounts.congr ?_
          rw [Task.held,hold,Option.elim_some]
          abel
        rw [hold]
        refine (procFreepagetable_spec hlaid.small (hlaid.space hacc)).bind fun m₄ h₄ => ?_
        exact .ok (((h₃.laid hsz₃).space h₄).reshaped hsz₃)
      · exact execBad_spec hsz₃ hp h₃

theorem fetchArgs_spec (args : List (Bool × Bool)) (argv : List Page) (last : Bool)
    (h : Accounts kend m (rest+(argv : Multiset Page))) :
    Accounts kend (fetchArgs m argv last args).1
      (rest+((fetchArgs m argv last args).2.1 : Multiset Page)) := by
  induction args generalizing m argv with
  | nil => exact h
  | cons arg args ih =>
    unfold fetchArgs
    split
    · exact h
    obtain ⟨m₁,hm,hacc⟩ | ⟨m₁,pa,hm,hacc⟩ := h.kalloc
    · rw [hm]
      exact hacc
    · rw [hm]
      have hmore : Accounts kend m₁ (rest+((argv++[pa] : List Page) : Multiset Page)) := by
        refine hacc.congr ?_
        rw [← Multiset.coe_add,Multiset.coe_singleton,add_assoc]
      dsimp only
      split
      · exact ih _ hmore
      · exact hmore

theorem kfree_all_spec {argv : List Page} (h : Accounts kend m (rest+(argv : Multiset Page))) :
    Yields (argv.foldlM kfree m) fun m => Accounts kend m rest := by
  refine (Yields.foldlM (I := fun l m => Accounts kend m (rest+(l : Multiset Page)))
    (fun pa l m hm => Accounts.kfree (hm.congr ?_)) h).weaken fun m hm => hm.congr ?_
  · rw [← Multiset.cons_coe,← Multiset.singleton_add]
    abel
  · rw [Multiset.coe_nil,add_zero]

theorem sysExec_spec (hp : p.Ready) (h : Accounts kend m (rest+p.held))
    (args : List (Bool × Bool)) (last : Bool) (img : Image) :
    Yields (sysExec m p args last img) fun r => Accounts kend r.1 (rest+r.2.held) ∧ Reshaped p r.2 := by
  have hargs := fetchArgs_spec args [] last (h.congr (add_zero _).symm)
  unfold sysExec
  generalize fetchArgs m [] last args=fetched at hargs ⊢
  obtain ⟨m₁,argv,called⟩ := fetched
  cases called with
  | false => exact (kfree_all_spec hargs).bind fun m₂ h₂ => .ok ⟨h₂,hp.refl⟩
  | true =>
    have hargs : Accounts kend m₁ (rest+(argv : Multiset Page)+p.held) :=
      hargs.congr (add_right_comm _ _ _)
    refine (exec_spec hp hargs img).bind ?_
    rintro ⟨m₂,q⟩ ⟨h₂,hq⟩
    exact (kfree_all_spec (h₂.congr (add_right_comm _ _ _))).bind fun m₃ h₃ => .ok ⟨h₃,hq⟩

end Exec

end Xv6.UserMemory
