import Xv6.ExecArgs
import Xv6.PageAccount

/-! `exec` is total and atomic: it ends for every file and without a panic, and if it
returns -1 then nothing has changed; if it succeeds then the segments are in memory and the
arguments are on the stack. -/
namespace Xv6.ExecFile
open Function Xv6.PageTree Xv6.Total Xv6.Vm Xv6.UserData Xv6.Machine
open Xv6.UserMemory (Task Space Open Laid Sys Call boot step maxarg)
open Xv6.Proc (Slot initproc)
variable {kend : Nat} {f : File} {r r' : Ram} {rest : Multiset Page} {pt : Pagetable} {n sz : Nat}

def Grows {α : Type} (g : Mem → α → Except Panic Mem) : Prop :=
  ∀ m a m', g m a=.ok m' → m.freelist ⊆ m'.freelist

theorem kfree_grows : Grows Vm.kfree := by
  intro m pa m' h
  unfold Vm.kfree at h
  split at h
  · cases h
  · cases h
    exact List.subset_cons_self _ _

theorem Grows.foldlM {α : Type} {g : Mem → α → Except Panic Mem} (hg : Grows g) {l : List α}
    {m m' : Mem} (h : l.foldlM g m=.ok m') : m.freelist⊆m'.freelist := by
  induction l generalizing m with
  | nil =>
    cases h
    exact List.Subset.refl _
  | cons a l ih =>
    rw [List.foldlM_cons] at h
    cases hm : g m a with
    | error e =>
      rw [hm] at h
      cases h
    | ok m₁ =>
      rw [hm] at h
      exact List.Subset.trans (hg m a m₁ hm) (ih h)

theorem Grows.freeTable {α : Type} {g : Mem → α → Except Panic Mem} (hg : Grows g) :
    Grows (Vm.freeTable g) := by
  intro m t m' h
  unfold Vm.freeTable at h
  have hentry : Grows fun m i => ifSome g m (t.entry i) := by
    intro m i m' h
    dsimp only at h
    cases he : t.entry i with
    | none =>
      rw [he] at h
      cases h
      exact List.Subset.refl _
    | some a =>
      rw [he] at h
      exact hg m a m' h
  cases hm : (List.finRange 512).foldlM (fun m i => ifSome g m (t.entry i)) m with
  | error e =>
    rw [hm] at h
    cases h
  | ok m₁ =>
    rw [hm] at h
    exact List.Subset.trans (hentry.foldlM hm) (kfree_grows _ _ _ h)

theorem freewalk_grows : Grows freewalk := by
  have hleaf : Grows freeLeaf := by
    intro m e m' h
    cases h
  exact hleaf.freeTable.freeTable.freeTable

theorem freewalk_frees {u : Unit}
    (h : r.onTables ((freewalk r.mem pt).map fun m => (m, ()))=.ok (r', u)) : Frees r r' := by
  refine ⟨?_,fun pa _ => congrFun (onTables_data h) pa⟩
  cases hm : freewalk r.mem pt with
  | error e =>
    rw [hm] at h
    cases h
  | ok m =>
    rw [hm] at h
    cases h
    exact freewalk_grows _ _ _ hm

theorem uvmfree_frees {u : Unit} (h : uvmfree r pt sz=.ok (r', u)) : Frees r r' := by
  unfold uvmfree at h
  split at h
  · cases hu : uvmunmap r pt 0 (pgroundup sz/pgsize) true with
    | error e =>
      rw [hu] at h
      cases h
    | ok x =>
      simp only [hu,bind,Except.bind] at h
      exact (uvmunmap_frees hu).trans (freewalk_frees h)
  · exact freewalk_frees h

theorem uvmfree_erase (r : Ram) (pt : Pagetable) (sz : Nat) :
    erase (uvmfree r pt sz)=(Vm.uvmfree r.mem pt sz).map fun m => (m, ()) := by
  unfold uvmfree Vm.uvmfree
  split
  · rw [← uvmunmap_erase]
    cases uvmunmap r pt 0 (pgroundup sz/pgsize) true with
    | error e => rfl
    | ok x =>
      simp only [bind,Except.bind]
      exact erase_onTables _ _
  · exact erase_onTables _ _

theorem procFreepagetable_erase (r : Ram) (pt : Pagetable) (sz : Nat) :
    erase (procFreepagetable r pt sz) =
      (UserMemory.procFreepagetable r.mem pt sz).map fun m => (m, ()) := by
  unfold procFreepagetable UserMemory.procFreepagetable
  rw [← uvmunmap_erase]
  cases uvmunmap r pt trampolineVa 1 false with
  | error e => rfl
  | ok x =>
    change erase (uvmunmap x.1 x.2 trapframeVa 1 false >>= fun y => uvmfree y.1 y.2 sz) =
      (Vm.uvmunmap x.1.mem x.2 trapframeVa 1 false >>= fun y => Vm.uvmfree y.1 y.2 sz).map _
    rw [← uvmunmap_erase]
    cases uvmunmap x.1 x.2 trapframeVa 1 false with
    | error e => rfl
    | ok y => exact uvmfree_erase y.1 y.2 sz

theorem procFreepagetable_frees {u : Unit} (h : procFreepagetable r pt sz=.ok (r', u)) :
    Frees r r' := by
  unfold procFreepagetable at h
  cases hu : uvmunmap r pt trampolineVa 1 false with
  | error e =>
    rw [hu] at h
    cases h
  | ok x =>
    rw [hu] at h
    refine (uvmunmap_frees hu).trans ?_
    change (uvmunmap x.1 x.2 trapframeVa 1 false >>= fun y => uvmfree y.1 y.2 sz)=_ at h
    cases hu : uvmunmap x.1 x.2 trapframeVa 1 false with
    | error e =>
      rw [hu] at h
      cases h
    | ok y =>
      rw [hu] at h
      exact (uvmunmap_frees hu).trans (uvmfree_frees h)

theorem procFreepagetable_data (hsz : sz ≤ phystop) (h : Space kend r.mem rest pt (npages sz)) :
    Yields (procFreepagetable r pt sz) fun x => Accounts kend x.1.mem rest ∧ Same rest r x.1 := by
  obtain ⟨m,hm,hacc⟩ := UserMemory.procFreepagetable_spec hsz h
  have herase := procFreepagetable_erase r pt sz
  rw [hm] at herase
  obtain ⟨r₁,hr₁,rfl⟩ := erase_ok herase
  exact ⟨_,hr₁,hacc,(procFreepagetable_frees hr₁).same hacc⟩

section Stack
variable {v : Nat} {e : Pte}

theorem uvmclear_leaf (hv : v<2^26) (he : leaf pt v=some e) {pt' : Pagetable}
    (h : uvmclear pt (v*pgsize)=.ok pt') {w : Nat} (hw : w<2^27) :
    leaf pt' w = if w=v then some { e with perm.u := false } else leaf pt w := by
  unfold uvmclear at h
  rw [walk_leaf hv he] at h
  cases h
  exact leaf_put (reaches_of_lookup he) (by omega) hw _

theorem userByte_clear (hv : v<2^26) (he : leaf pt v=some e) {pt' : Pagetable}
    (h : uvmclear pt (v*pgsize)=.ok pt') {a : Nat} (ha : a/pgsize<2^27) :
    userByte r pt' a=userByte r pt a := by
  rw [userByte,userByte,uvmclear_leaf hv he h ha]
  by_cases hav : a/pgsize=v
  · rw [if_pos hav,hav,he]
    rfl
  · rw [if_neg hav]

theorem execStack_data (hsz : sz ≤ phystop) (h : Space kend r.mem rest pt (npages sz)) :
    Yields (execStack r pt sz) fun x =>
      Space kend x.1.mem rest x.2.1 (npages x.2.2.1) ∧ x.2.2.1 ≤ phystop ∧ Same rest r x.1 ∧
        (x.2.2.2=true → x.2.2.1=(npages sz+2)*pgsize ∧
          (∀ a, a/pgsize < npages sz → userByte x.1 x.2.1 a=userByte r pt a) ∧
          (∀ a, a/pgsize=npages sz → userByte x.1 x.2.1 a=some 0) ∧
          ∃ e, leaf x.2.1 (npages sz+1)=some e ∧ e.perm.u=true) := by
  have hround := pgroundup_eq hsz
  have hpages := npages_eq hsz
  have hsz' : pgroundup sz ≤ phystop := by
    rw [phystop_eq] at *
    omega
  have hsame : npages (pgroundup sz)=npages sz := by
    rw [npages_eq hsz',hround,hpages]
    omega
  have hfew : npages sz ≤ 557056 := h.few
  rw [← hsame] at h
  refine (uvmalloc_full hsz' _ _ h.toHeld).bind ?_
  rintro ⟨r₁,pt₁,sz₁⟩ ⟨hold,hkeep,⟨hz,hheld⟩ | ⟨hmax,hsz₁,hheld,has,hzero⟩⟩
  · dsimp only at hz hheld
    rw [hz]
    exact .ok ⟨⟨hheld,h.high.keeps hkeep⟩,hsz',hold.mono (Multiset.le_add_right _ _),by simp⟩
  dsimp only at hmax hsz₁ hheld hkeep has hold hzero ⊢
  rw [hsame] at hkeep hold has hzero
  have hadd : sz₁=pgroundup sz+2*pgsize := by
    rw [hmax,add64,pgsize_eq]
    omega
  have htop : sz₁=(npages sz+2)*pgsize := by
    rw [hadd,pgroundup_npages,Nat.add_mul]
  have hva : sz₁-2*pgsize=npages sz*pgsize := by
    rw [hadd,Nat.add_sub_cancel,pgroundup_npages]
  have hlast : npages sz₁=npages sz+2 := by
    rw [npages_eq hsz₁,hadd,hround,hpages,pgsize_eq]
    omega
  rw [if_neg (by rw [hadd,pgsize_eq]; omega),hva]
  obtain ⟨e,he,-⟩ := hheld.mapped (npages sz) (Nat.zero_le _) (by omega)
  refine ((uvmclear_spec hheld (by omega)).and fun pt₂ hpt₂ => hpt₂).bind fun pt₂ h₂ => ?_
  refine .ok ⟨⟨h₂.1.1,(h.high.keeps hkeep).keeps h₂.1.2⟩,hsz₁,
    hold.mono (Multiset.le_add_right _ _),fun _ => ⟨htop,fun a ha => ?_,fun a ha => ?_,?_⟩⟩
  · rw [userByte_clear (by omega) he h₂.2 (by omega)]
    exact userByte_kept (by omega) hkeep (hold.mono (Multiset.le_add_left _ _)) ha
  · have hpage := hzero (npages sz) le_rfl (by simp only [trapframeVpn]; omega) e he
    rw [userByte_clear (by omega) he h₂.2 (by omega),userByte,ha,he]
    simp [hpage]
  · obtain ⟨pa,hpa⟩ := has (npages sz+1) (Nat.le_succ _) (by omega)
    refine ⟨⟨pa,true,true,false,true⟩,?_,rfl⟩
    rw [uvmclear_leaf (by omega) he h₂.2 (by omega),if_neg (by omega)]
    exact hpa

end Stack

section Exec
variable {p : Process} {argv : List (List UInt8)} {pt' : Pagetable} {sz' sp : Nat}

/-- `exec` has returned -1 and left no trace. -/
structure Unchanged (kend : Nat) (rest : Multiset Page) (r : Ram) (p : Process) (r' : Ram)
    (p' : Process) : Prop where
  process : p'=p
  accounts : Accounts kend r'.mem (rest+p.task.held)
  same : Same (rest+p.task.held) r r'

theorem execBad_data (hsz : sz ≤ phystop) (h : Space kend r.mem (rest+p.task.held) pt (npages sz)) :
    Yields (execBad r p pt sz) fun x => x.2.2=none ∧ Unchanged kend rest r p x.1 x.2.1 :=
  (procFreepagetable_data hsz h).bind fun _ hx => .ok ⟨rfl,rfl,hx.1,hx.2⟩

theorem Unchanged.after {r₁ r₂ : Ram} {p' : Process} (h : Unchanged kend rest r₁ p r₂ p')
    (hsame : Same (rest+p.task.held) r r₁) : Unchanged kend rest r p r₂ p' :=
  ⟨h.process,h.accounts,hsame.trans h.same⟩

def Outcome (kend : Nat) (rest : Multiset Page) (argv : List (List UInt8)) (f : File) (r : Ram)
    (p : Process) (x : Ram × Process × Option Nat) : Prop :=
  (x.2.2=none → Unchanged kend rest r p x.1 x.2.1) ∧
    ∀ argc, x.2.2=some argc → argc=argv.length ∧ ∃ pt, x.2.1.task.pagetable=some pt ∧
      Laid pt x.2.1.task.sz ∧ Loaded f (segments f) x.1 pt (npages x.2.1.task.sz)

/-- The new memory of a process: that of the program with the guard page, which stays as it
was allocated, and the stack on top. -/
structure Stacked (r : Ram) (pt : Pagetable) (sz : Nat) (argv : List (List UInt8)) (r' : Ram)
    (pt' : Pagetable) (sz' sp : Nat) : Prop where
  laid : Laid pt' sz'
  size : sz'=(npages sz+2)*pgsize
  program : ∀ a, a/pgsize < npages sz → userByte r' pt' a=userByte r pt a
  guard : ∀ a, a/pgsize=npages sz → userByte r' pt' a=some 0
  fits : Fits argv
  passed : ∃ ustack, Passed r' pt' sz' sp argv ustack

theorem Stacked.npages (h : Stacked r pt sz argv r' pt' sz' sp) : npages sz'=npages sz+2 := by
  rw [npages_eq h.laid.small,h.size,pgsize_eq]
  omega

theorem execCommit_cases {Q : Ram × Process × Option Nat → Prop} {old : Pagetable}
    (path : List UInt8) (entry : Nat) (hold : p.task.pagetable=some old)
    (hlaid : Laid old p.task.sz) (hsz : sz ≤ phystop)
    (h : Space kend r.mem (rest+p.task.held) pt (npages sz)) (hlen : argv.length < maxarg)
    (hargs : ∀ arg∈argv, arg.length+1<2^31)
    (hbad : ∀ r', Unchanged kend rest r p r' p → Q (r', p, none))
    (hdone : ∀ r' pt' sz' sp, Stacked r pt sz argv r' pt' sz' sp →
      Q (r', ⟨{ p.task with pagetable := some pt', sz := sz' },⟨entry,sp,sp⟩,nameOf path⟩,
        some argv.length)) :
    Yields (execCommit r p path argv entry pt sz) Q := by
  have hundo : ∀ {r₁ : Ram} {pt₁ : Pagetable} {sz₁ : Nat}, sz₁ ≤ phystop →
      Space kend r₁.mem (rest+p.task.held) pt₁ (npages sz₁) → Same (rest+p.task.held) r r₁ →
      Yields (execBad r₁ p pt₁ sz₁) Q := by
    intro r₁ pt₁ sz₁ hsz₁ h₁ hsame
    refine (execBad_data hsz₁ h₁).weaken ?_
    rintro ⟨r₂,p₂,ret⟩ ⟨rfl,hun⟩
    obtain rfl : p₂=p := hun.process
    exact hbad r₂ (hun.after hsame)
  refine (execStack_data hsz h).bind ?_
  rintro ⟨r₁,pt₁,sz₁,stacked⟩ ⟨h₁,hsz₁,hsame₁,hstack⟩
  dsimp only at h₁ hsz₁ hsame₁ hstack ⊢
  cases stacked with
  | false => exact hundo hsz₁ h₁ hsame₁
  | true =>
    obtain ⟨htop,hkept,hguard,e,he,hu⟩ := hstack rfl
    have hpages : npages sz₁=npages sz+2 := by
      rw [npages_eq hsz₁,htop,pgsize_eq]
      omega
    have hpage : StackPage kend r₁ (rest+p.task.held) pt₁ (npages sz₁) (npages sz+1) e :=
      ⟨h₁.toHeld,by omega,he,hu⟩
    rw [if_pos rfl]
    have hpush := pushStack_spec hpage (Nat.succ_pos _) hlen hargs
    rw [← htop] at hpush
    refine hpush.bind ?_
    rintro ⟨r₂,top⟩ ⟨hpage₂,hcases⟩
    have hwithin : Within pt₁ (npages sz₁) r₁ r₂ := hpage₂.within (by omega)
    have h₂ : Space kend r₂.mem (rest+p.task.held) pt₁ (npages sz₁) :=
      ⟨hwithin.held h₁.toHeld,h₁.high⟩
    have hsame₂ := hsame₁.trans (hwithin.same h₁.toHeld)
    rcases hcases with ⟨hfits,sp,ustack,rfl,hpassed⟩ | ⟨-,rfl⟩
    · dsimp only
      rw [hold]
      -- commit: the pages of the old table are freed, those of the new one are held
      have hacc : Accounts kend r₂.mem (rest+(p.task.trapframe.elim 0 fun pa => {pa}) +
          (tables pt₁+pagesFrom pt₁ 0 (npages sz₁)) +
            (tables old+pagesFrom old 0 (npages p.task.sz))) := by
        refine h₂.accounts.congr ?_
        rw [Task.held,hold,Option.elim_some]
        abel
      refine (procFreepagetable_data hlaid.small (hlaid.space hacc)).bind ?_
      rintro ⟨r₃,u⟩ ⟨hacc₃,hsame₃⟩
      have hfew : npages sz₁ ≤ 557056 := h₁.few
      have hbytes : ∀ a, a/pgsize < npages sz₁ → userByte r₃ pt₁ a=userByte r₂ pt₁ a :=
        fun a ha => userByte_kept (by omega) (.refl _ _)
          (hsame₃.mono ((Multiset.le_add_left _ _).trans (Multiset.le_add_left _ _))) ha
      refine .ok (hdone r₃ pt₁ sz₁ sp ⟨h₂.laid hsz₁,htop,fun a ha => ?_,fun a ha => ?_,hfits,
        ustack,hpassed.congr ?_⟩)
      · rw [hbytes a (by omega),hpage₂.userByte h₁.toHeld (by omega) (by omega),hkept a ha]
      · rw [hbytes a (by omega),hpage₂.userByte h₁.toHeld (by omega) (by omega),hguard a ha]
      · intro a ha
        refine hbytes a ?_
        rw [hpages,Nat.div_lt_iff_lt_mul (by decide),← htop]
        exact ha
    · exact hundo hsz₁ h₂ hsame₂

theorem exec_cases {Q : Ram × Process × Option Nat → Prop} {old : Pagetable}
    (path : List UInt8) (file : Option File) (disk : Disk)
    (hold : p.task.pagetable=some old) (hlaid : Laid old p.task.sz)
    (h : Accounts kend r.mem (rest+p.task.held)) (hlen : argv.length < maxarg)
    (hargs : ∀ arg∈argv, arg.length+1<2^31)
    (hbad : ∀ r', Unchanged kend rest r p r' p → Q (r', p, none))
    (hdone : ∀ f r₁ pt₁ sz₁ r' pt' sz' sp, file=some f →
      Loaded f (segments f) r₁ pt₁ (npages sz₁) → Stacked r₁ pt₁ sz₁ argv r' pt' sz' sp →
      Q (r', ⟨{ p.task with pagetable := some pt', sz := sz' },⟨(elfhdr f).entry,sp,sp⟩,
        nameOf path⟩, some argv.length)) :
    Yields (exec r p path argv file disk) Q := by
  have hnothing : Yields (.ok (r, p, none) : Except Panic (Ram × Process × Option Nat)) Q :=
    .ok (hbad r ⟨rfl,h,.refl _ _⟩)
  unfold exec
  cases file with
  | none => exact hnothing
  | some f =>
    dsimp only
    split
    · exact hnothing
    split
    · exact hnothing
    refine ((Yields.of_erase (erase_onTables r _) (UserMemory.procPagetable_spec h _)).and
      fun x hx => onTables_data hx).bind ?_
    rintro ⟨r₁,pt⟩ ⟨hpt,hdata⟩
    have hsame₁ : Same (rest+p.task.held) r r₁ := fun pa _ => congrFun hdata pa
    cases pt with
    | none => exact .ok (hbad r₁ ⟨rfl,hpt,hsame₁⟩)
    | some pt =>
      have hopen : Open pt (npages 0) := fun w hw =>
        absurd hw (by rw [npages_eq (Nat.zero_le _)]; omega)
      refine (loadProgram_data (f := f) disk _ (Nat.zero_le _) hpt hopen .nil).bind ?_
      rintro ⟨r₂,pt₂,sz₂,loaded⟩ ⟨h₂,hsz₂,hsame₂,hl⟩
      have hsame := hsame₁.trans hsame₂
      cases loaded with
      | false =>
        refine (execBad_data hsz₂ h₂).weaken ?_
        rintro ⟨r₃,p₃,ret⟩ ⟨rfl,hun⟩
        obtain rfl : p₃=p := hun.process
        exact hbad r₃ (hun.after hsame)
      | true =>
        refine execCommit_cases path _ hold hlaid hsz₂ h₂ hlen hargs (fun r₃ hun => ?_)
          fun r₃ pt₃ sz₃ sp hstacked => hdone f r₂ pt₂ sz₂ r₃ pt₃ sz₃ sp rfl (hl rfl) hstacked
        exact hbad r₃ (hun.after hsame)

theorem Stacked.loaded {hs : List Proghdr} (h : Stacked r pt sz argv r' pt' sz' sp)
    (hl : Loaded f hs r pt (Vm.npages sz)) : Loaded f hs r' pt' (Vm.npages sz') := by
  intro a ph hlast
  obtain ⟨ha,hbyte⟩ := hl a ph hlast
  have hpages := h.npages
  exact ⟨by omega,(h.program a ha).trans hbyte⟩

theorem exec_data {old : Pagetable} (path : List UInt8) (file : Option File) (disk : Disk)
    (hold : p.task.pagetable=some old) (hlaid : Laid old p.task.sz)
    (h : Accounts kend r.mem (rest+p.task.held)) (hlen : argv.length < maxarg)
    (hargs : ∀ arg∈argv, arg.length+1<2^31) :
    Yields (exec r p path argv file disk) fun x =>
      (x.2.2=none → Unchanged kend rest r p x.1 x.2.1) ∧
        ∀ argc, x.2.2=some argc → ∃ f, file=some f ∧ Outcome kend rest argv f r p x := by
  refine exec_cases path file disk hold hlaid h hlen hargs (fun r' hun => ⟨fun _ => hun,by simp⟩) ?_
  intro f r₁ pt₁ sz₁ r' pt' sz' sp hfile hl hstacked
  refine ⟨by simp,fun argc _ => ⟨f,hfile,by simp,fun argc' hargc => ?_⟩⟩
  exact ⟨(Option.some.inj hargc).symm,pt',rfl,hstacked.laid,hstacked.loaded hl⟩

end Exec

theorem mem_held_of_leaf {s : Sys} {q : Slot} {v : Nat} {e : Pte}
    (hpt : (s.proc q).pagetable=some pt) (hv : v < npages (s.proc q).sz)
    (he : leaf pt v=some e) : e.pa∈s.held := by
  rw [Sys.held,Multiset.mem_add,Multiset.mem_add]
  refine .inl (.inr (Multiset.mem_sum.mpr ⟨q,Finset.mem_univ q,?_⟩))
  rw [Task.held,hpt,Option.elim_some,Multiset.mem_add,Multiset.mem_add]
  exact .inr (.inr (mem_pagesFrom hv he))

/-- In every reachable state and for every file and `argv`, whatever calls of `kalloc` and `readi`
fail: `exec` ends without a panic. If it returns -1, everything is as before; if it succeeds, an
address that a segment covers holds the byte of the last such segment. -/
theorem exec_total_atomic {m : Mem} {k : Nat} {s₀ s : Sys} {calls : List (Slot × Call)}
    (hend : 0 < m.kernelEnd ∧ m.kernelEnd ≤ phystop) (hboot : boot m k=some s₀)
    (hrun : run step calls s₀=some s) {q : Slot} (hq : (s.proc q).state≠.unused)
    (data : Page → Nat → UInt8) (regs : Regs) (name path : List UInt8)
    (argv : List (List UInt8)) (hlen : argv.length ≤ maxarg-1)
    (hargs : ∀ arg∈argv, arg.length < pgsize) (file : Option File) (disk : Disk) :
    ∃ r' p' ret, exec ⟨s.mem,data⟩ ⟨s.proc q,regs,name⟩ path argv file disk=.ok (r', p', ret) ∧
      (ret=none → p'=⟨s.proc q,regs,name⟩ ∧ r'.mem.freelist.Perm s.mem.freelist ∧
        ∀ q' pt, (s.proc q').pagetable=some pt → ∀ a < pgroundup (s.proc q').sz,
          userByte r' pt a=userByte ⟨s.mem,data⟩ pt a) ∧
      ∀ argc, ret=some argc → ∃ f pt, file=some f ∧ p'.task.pagetable=some pt ∧
        ∀ a < p'.task.sz, ∀ ph, lastCovering (segments f) a=some ph →
          userByte r' pt a=some (ph.fileByte f a) := by
  have hgood := (UserMemory.run_good hend hboot hrun).1
  obtain ⟨old,hold,hlaid⟩ := (hgood.slots q).ready hq
  have hacc : Accounts m.kernelEnd s.mem (s.rest q+s.files.pages.val+(s.proc q).held) :=
    hgood.account q
  have hfew : argv.length < maxarg := by
    rw [maxarg] at *
    omega
  have hshort : ∀ arg∈argv, arg.length+1<2^31 := by
    intro arg harg
    have := hargs arg harg
    rw [pgsize_eq] at this
    omega
  obtain ⟨⟨r',p',ret⟩,hexec,hnone,hsome⟩ := exec_data (r := ⟨s.mem,data⟩)
    (p := ⟨s.proc q,regs,name⟩) path file disk hold hlaid hacc hfew hshort
  refine ⟨r',p',ret,hexec,fun hret => ?_,fun argc hret => ?_⟩
  · obtain ⟨hp,hacc',hsame⟩ := hnone hret
    refine ⟨hp,?_,fun q' pt hpt a ha => ?_⟩
    · have hsum : (r'.mem.freelist : Multiset Page)+(s.rest q+s.files.pages.val +
          (s.proc q).held)=s.mem.freelist+(s.rest q+s.files.pages.val+(s.proc q).held) :=
        hacc'.sum.trans hacc.sum.symm
      exact Multiset.coe_eq_coe.mp (add_right_cancel hsum)
    · rw [userByte,userByte]
      cases he : leaf pt (a/pgsize) with
      | none => rfl
      | some e =>
        have hmem := mem_held_of_leaf hpt (lt_npages_iff.mpr ha) he
        have hheld : s.held=s.rest q+s.files.pages.val+(s.proc q).held := by
          rw [Sys.held,UserMemory.sum_held s.proc q,Sys.rest]
          abel
        rw [hheld] at hmem
        have hpage : r'.data e.pa=data e.pa := hsame e.pa hmem
        simp [hpage]
  · obtain ⟨f,hf,-,hout⟩ := hsome argc hret
    obtain ⟨-,pt,hpt,-,hl⟩ := hout argc hret
    exact ⟨f,pt,hf,hpt,fun a _ ph hlast => (hl a ph hlast).2⟩

def tinyElfBytes : List UInt8 :=
  [0x7f, 0x45, 0x4c, 0x46]++List.replicate 28 0++[64]++List.replicate 23 0++[1] ++
    List.replicate 7 0++[1, 0, 0, 0, 5, 0, 0, 0, 120]++List.replicate 23 0++[4] ++
    List.replicate 7 0++[4]++List.replicate 15 0++[0x13, 0x00, 0x00, 0x6f]

def tinyElf : File := ⟨124,fun i => tinyElfBytes.getD i 0,by decide⟩

def elfMachine : Mem := ⟨phystop-24*pgsize,kernbase,[],0,fun _ => false⟩

def elfBoot : Sys := (boot elfMachine 1).get (by decide +kernel)

/-- `echo` and `hi` -/
def elfArgv : List (List UInt8) := [[101, 99, 104, 111], [104, 105]]

def elfExec : Except Panic (Ram × Process × Option Nat) :=
  exec ⟨elfBoot.mem,fun _ _ => 0⟩ ⟨elfBoot.proc initproc,⟨0,0,0⟩,[]⟩ [47, 97] elfArgv (some tinyElf)
    ⟨none,fun _ => none,fun _ _ => none⟩

theorem tinyElf_loaded : ∃ r' p' pt, elfExec=.ok (r', p', some 2) ∧
    p'.task.pagetable=some pt ∧ userByte r' pt 3=some 0x6f := by
  have hboot : boot elfMachine 1=some elfBoot := (Option.some_get _).symm
  obtain ⟨r',p',ret,hexec,-,hsome⟩ := exec_total_atomic (s := elfBoot) (by decide) hboot
    (show run step [] elfBoot=some elfBoot from rfl) (q := initproc) (by decide +kernel)
    (fun _ _ => 0) ⟨0,0,0⟩ [] [47, 97] elfArgv (by decide) (by decide) (some tinyElf)
    ⟨none,fun _ => none,fun _ _ => none⟩
  have hret : elfExec.toOption.map (fun x => (x.2.2, x.2.1.task.sz)) =
      some (some 2, 3*pgsize) := by decide +kernel
  have hexec' : elfExec=.ok (r', p', ret) := hexec
  rw [hexec'] at hret
  obtain ⟨rfl,hsz⟩ : ret=some 2 ∧ p'.task.sz=3*pgsize := by
    simpa [Except.toOption] using hret
  obtain ⟨f,pt,hf,hpt,hbyte⟩ := hsome 2 rfl
  cases hf
  refine ⟨r',p',pt,hexec,hpt,?_⟩
  exact (hbyte 3 (by rw [hsz]; decide) ⟨1,5,120,0,4,4⟩ (by decide +kernel)).trans (by decide +kernel)

/-- If `exec` succeeds then it returns the number of strings, `sp` and `a1` are the address of the
array, the strings are where its words point, and the guard page holds zeros. It fails if the
strings and the array do not fit in the stack page, the only page that is written for them. -/
theorem exec_passes_arguments {m : Mem} {k : Nat} {s₀ s : Sys} {calls : List (Slot × Call)}
    (hend : 0 < m.kernelEnd ∧ m.kernelEnd ≤ phystop) (hboot : boot m k=some s₀)
    (hrun : run step calls s₀=some s) {q : Slot} (hq : (s.proc q).state≠.unused)
    (data : Page → Nat → UInt8) (regs : Regs) (name path : List UInt8)
    (argv : List (List UInt8)) (hlen : argv.length ≤ maxarg-1)
    (hargs : ∀ arg∈argv, arg.length+1 < 2 ^ 31) (file : Option File) (disk : Disk) :
    (∃ r' p' ret, exec ⟨s.mem,data⟩ ⟨s.proc q,regs,name⟩ path argv file disk=.ok (r', p', ret) ∧
      (∀ argc, ret=some argc → argc=argv.length ∧ p'.regs.sp=p'.regs.a1 ∧
        ∃ pt ustack, p'.task.pagetable=some pt ∧
          Passed r' pt p'.task.sz p'.regs.a1 argv ustack ∧
          ∀ a, p'.task.sz-2*pgsize ≤ a → a < p'.task.sz-pgsize → userByte r' pt a=some 0) ∧
      (¬ Fits argv → ret=none)) ∧
    ∀ kend r rest pt n v e, StackPage kend r rest pt n v e → 0 < v →
      Yields (pushStack r pt ((v+1)*pgsize) argv) fun x => OnPage pt v r x.1 := by
  have hgood := (UserMemory.run_good hend hboot hrun).1
  obtain ⟨old,hold,hlaid⟩ := (hgood.slots q).ready hq
  have hacc : Accounts m.kernelEnd s.mem (s.rest q+s.files.pages.val+(s.proc q).held) :=
    hgood.account q
  have hfew : argv.length < maxarg := by
    rw [maxarg] at *
    omega
  refine ⟨?_,fun kend r rest pt n v e hpage hv =>
    (pushStack_spec hpage hv hfew hargs).weaken fun x hx => hx.1⟩
  have hexec : Yields (exec ⟨s.mem,data⟩ ⟨s.proc q,regs,name⟩ path argv file disk) fun x =>
      (∀ argc, x.2.2=some argc → argc=argv.length ∧ x.2.1.regs.sp=x.2.1.regs.a1 ∧
        ∃ pt ustack, x.2.1.task.pagetable=some pt ∧
          Passed x.1 pt x.2.1.task.sz x.2.1.regs.a1 argv ustack ∧
          ∀ a, x.2.1.task.sz-2*pgsize ≤ a → a < x.2.1.task.sz-pgsize →
            userByte x.1 pt a=some 0) ∧ (¬ Fits argv → x.2.2=none) := by
    refine exec_cases (r := ⟨s.mem,data⟩) (p := ⟨s.proc q,regs,name⟩) path file disk hold hlaid hacc
      hfew hargs (fun r' _ => ⟨by simp,fun _ => rfl⟩) ?_
    intro f r₁ pt₁ sz₁ r' pt' sz' sp hfile hl hstacked
    refine ⟨fun argc hargc => ?_,fun hnot => absurd hstacked.fits hnot⟩
    obtain ⟨ustack,hpassed⟩ := hstacked.passed
    refine ⟨(Option.some.inj hargc).symm,rfl,pt',ustack,rfl,hpassed,fun a hlow hhigh => ?_⟩
    dsimp only at hlow hhigh
    refine hstacked.guard a ?_
    rw [hstacked.size,pgsize_eq] at *
    omega
  obtain ⟨⟨r',p',ret⟩,hcall,hpost⟩ := hexec
  exact ⟨r',p',ret,hcall,hpost⟩

theorem tinyElf_arguments : ∃ r' p' pt a b, elfExec=.ok (r', p', some 2) ∧
    p'.task.pagetable=some pt ∧ p'.regs.a1%16=0 ∧ userWord r' pt p'.regs.a1 8=some a ∧
    userWord r' pt (p'.regs.a1+8) 8=some b ∧ userWord r' pt (p'.regs.a1+16) 8=some 0 ∧
    (∀ j < 5, userByte r' pt (a+j)=some (cstring [101, 99, 104, 111] j)) ∧
    (∀ j < 3, userByte r' pt (b+j)=some (cstring [104, 105] j)) ∧ b+3 ≤ a := by
  have hboot : boot elfMachine 1=some elfBoot := (Option.some_get _).symm
  obtain ⟨⟨r',p',ret,hexec,hsome,-⟩,-⟩ := exec_passes_arguments (s := elfBoot) (by decide) hboot
    (show run step [] elfBoot=some elfBoot from rfl) (q := initproc) (by decide +kernel)
    (fun _ _ => 0) ⟨0,0,0⟩ [] [47, 97] elfArgv (by decide) (by decide) (some tinyElf)
    ⟨none,fun _ => none,fun _ _ => none⟩
  have hret : elfExec.toOption.map (fun x => x.2.2)=some (some 2) := by decide +kernel
  have hexec' : elfExec=.ok (r', p', ret) := hexec
  rw [hexec'] at hret
  obtain rfl : ret=some 2 := Option.some.inj hret
  obtain ⟨-,-,pt,ustack,hpt,hpassed,-⟩ := hsome 2 rfl
  obtain ⟨a,b,rfl⟩ := List.length_eq_two.mp hpassed.count
  have hfirst := (hpassed.strings 0 [101, 99, 104, 111] a rfl rfl).2.2
  have hsecond := (hpassed.strings 1 [104, 105] b rfl rfl).2.2
  exact ⟨r',p',pt,a,b,hexec,hpt,hpassed.aligned,hpassed.pointers 0 a rfl,hpassed.pointers 1 b rfl,
    hpassed.pointers 2 0 rfl,hfirst,hsecond,hpassed.under 0 1 [104, 105] a b (by decide) rfl rfl rfl⟩

end Xv6.ExecFile
