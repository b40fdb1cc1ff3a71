import Xv6.ProcControl

/-! Slots of the process table are clean when they are reused, as long as nobody
calls `kill(0)`: the `pid` of a free slot is 0, so `kill(0)` marks a free slot as
killed, and `allocproc` does not clear the mark. -/
namespace Xv6.Proc
open Function Xv6.Machine
variable {s t : Sys} {p q : Slot} {l : Label} {ls : List Label}

structure Sys.Clean (s : Sys) (p : Slot) : Prop where
  killed : s.killed p=false
  chan : s.chan p=none
  parent : s.parent p=none
  pid : s.pid p=0
  trapframe : s.trapframe p=false
  pagetable : s.pagetable p=false

structure Row where
  state : ProcState
  chan : Option Slot
  killed : Bool
  xstate : Int
  pid : Int
  parent : Option Slot
  trapframe : Bool
  pagetable : Bool
deriving DecidableEq

def Sys.row (s : Sys) (p : Slot) : Row :=
  ⟨s.state p,s.chan p,s.killed p,s.xstate p,s.pid p,s.parent p,s.trapframe p,s.pagetable p⟩

/-- A call of `kill` names a process, not the number of the free slots. -/
def NamesProcess : Label → Prop
  | .syscall _ (.kill pid) => pid≠0
  | _ => True

instance : ∀ l, Decidable (NamesProcess l)
  | .syscall _ (.kill pid) => inferInstanceAs (Decidable (pid≠0))
  | .syscall _ .fork | .syscall _ (.exit _) | .syscall _ (.wait _) | .run .. | .schedule _ |
    .switched _ | .yield _ => inferInstanceAs (Decidable True)

structure Tidy (s : Sys) : Prop where
  control : Control s
  forking : Forking s
  named : ∀ q pid i, s.pc q=.kill pid i → pid≠0
  clean : ∀ p, s.state p=.unused → s.Clean p

theorem boot_tidy : Tidy boot where
  control := boot_control
  forking := boot_forking
  named := by simp [boot]
  clean := by
    intro p hp
    have hne : p≠initproc := fun he => by simp [boot,he] at hp
    constructor <;> simp [boot,hne]

theorem kill_of_update {pc : Slot → Pc} {k : Pc} {pid : Int} {i : Nat}
    (hk : ∀ pid i, k≠.kill pid i) (h : update pc p k q=.kill pid i) : pc q=.kill pid i := by
  by_cases hq : q=p
  · rw [hq,update_self] at h
    exact absurd h (hk pid i)
  · rwa [update_of_ne hq] at h

theorem Change.kill_pid (hc : Change s l t) {pid : Int} {i : Nat} (h : t.pc q=.kill pid i) :
    (∃ j, s.pc q=.kill pid j) ∨ l=.syscall q (.kill pid) := by
  cases hc with
  | call p c hrun hpc hinit =>
    cases c with
    | kill pid' =>
      by_cases hq : q=p
      · simp only [Sys.goto,hq,update_self,Call.entry,Pc.kill.injEq] at h
        exact .inr (by rw [hq,h.1])
      · exact .inl ⟨i,by simpa [Sys.goto,hq] using h⟩
    | fork | exit | wait => exact .inl ⟨i,kill_of_update (by simp [Call.entry]) h⟩
  | panic | schedule | switched | yield => exact .inl ⟨i,h⟩
  | move p ok k' hrun hmove =>
    by_cases hq : q=p
    · simp only [Sys.goto,hq,update_self] at h
      rw [h,← hq] at hmove
      generalize s.pc q=k at hmove ⊢
      cases hmove with
      | kill _ j => exact .inl ⟨j,rfl⟩
    · exact .inl ⟨i,by simpa [Sys.goto,hq] using h⟩
  | alloc p np | allocFail p np =>
    exact .inl ⟨i,kill_of_update (by simp) (kill_of_update (by simp) h)⟩
  | lock p ok k' hrun hlk hpc =>
    refine .inl ⟨i,kill_of_update ?_ h⟩
    generalize s.pc p=k at hpc
    cases hpc <;> simp
  | wake p ok q k' hrun hwake =>
    refine .inl ⟨i,kill_of_update ?_ h⟩
    generalize s.pc p=k at hwake
    cases hwake <;> simp
  | fail | setParent | start | hand | zombie | waitFail | reap | sleep | kill | wakened =>
    exact .inl ⟨i,kill_of_update (by simp) h⟩

theorem Sys.Clean.frame (h : s.Clean p) (hrow : t.row p=s.row p) : t.Clean p := by
  simp only [Sys.row,Row.mk.injEq] at hrow
  obtain ⟨-,h2,h3,-,h5,h6,h7,h8⟩ := hrow
  obtain ⟨c1,c2,c3,c4,c5,c6⟩ := h
  exact ⟨h3 ▸ c1,h2 ▸ c2,h6 ▸ c3,h5 ▸ c4,h7 ▸ c5,h8 ▸ c6⟩

theorem freeproc_clean (s : Sys) (p : Slot) : (s.freeproc p).Clean p := by
  constructor <;> simp [Sys.freeproc]

theorem Tidy.clean_of_one (h : Tidy s) (q : Slot) (hq : t.state q≠.unused)
    (hrow : ∀ r, r≠q → t.row r=s.row r) (p : Slot) (hp : t.state p=.unused) : t.Clean p := by
  have hne : p≠q := fun he => hq (he ▸ hp)
  have hst : t.state p=s.state p := congrArg Row.state (hrow p hne)
  exact (h.clean p (hst ▸ hp)).frame (hrow p hne)

theorem Tidy.clean_of_freed (h : Tidy s) (q : Slot) (hq : t.Clean q)
    (hrow : ∀ r, r≠q → t.row r=s.row r) (p : Slot) (hp : t.state p=.unused) : t.Clean p := by
  by_cases hpq : p=q
  · exact hpq ▸ hq
  · have hst : t.state p=s.state p := congrArg Row.state (hrow p hpq)
    exact (h.clean p (hst ▸ hp)).frame (hrow p hpq)

theorem Tidy.clean_step (h : Tidy s) (hc : Change s l t) (p : Slot) (hp : t.state p=.unused) :
    t.Clean p := by
  cases hc with
  | call | panic | move | fail | lock | waitFail | switched => exact (h.clean p hp).frame rfl
  | alloc q np hrun hpc hst =>
    exact h.clean_of_one np (by simp [Sys.goto,Sys.found])
      (fun r hr => by simp [Sys.row,Sys.goto,Sys.found,hr]) p hp
  | allocFail q np hrun hpc hst =>
    refine h.clean_of_freed np ?_ (fun r hr => ?_) p hp
    · exact (freeproc_clean (s.found np) np).frame rfl
    · simp [Sys.row,Sys.leave,Sys.found,Sys.freeproc,hr]
  | setParent q ok np pid hrun hpc hlk =>
    have hused : s.state np=.used := h.forking.fresh q np (by simp [hpc,Pc.child])
    exact h.clean_of_one np (by simp [Sys.goto,hused])
      (fun r hr => by simp [Sys.row,Sys.goto,hr]) p hp
  | start q ok np pid hrun hpc =>
    exact h.clean_of_one np (by simp [Sys.leave]) (fun r hr => by simp [Sys.row,Sys.leave,hr]) p hp
  | hand q ok status c hrun hpc hpar =>
    have huse : s.state c≠.unused := fun hc => by simp [(h.clean c hc).parent] at hpar
    refine h.clean_of_one c ?_ (fun r hr => by simp [Sys.row,Sys.goto,hr]) p hp
    exact huse
  | wake q ok r k' hrun hwake =>
    exact h.clean_of_one r (by simp [Sys.goto]) (fun r hr => by simp [Sys.row,Sys.goto,hr]) p hp
  | zombie q ok status hrun hpc =>
    exact h.clean_of_one q (by simp [Sys.goto]) (fun r hr => by simp [Sys.row,Sys.goto,hr]) p hp
  | reap q ok addr c havekids hrun hpc hpar hst =>
    refine h.clean_of_freed c ?_ (fun r hr => ?_) p hp
    · exact (freeproc_clean _ c).frame rfl
    · simp [Sys.row,Sys.leave,Sys.freeproc,hr]
  | sleep q ok addr hrun hpc =>
    exact h.clean_of_one q (by simp [Sys.goto]) (fun r hr => by simp [Sys.row,Sys.goto,hr]) p hp
  | kill q ok pid r hrun hpc hpid =>
    -- the number is not that of a free slot
    have huse : s.state r≠.unused := fun hr =>
      h.named q pid r hpc (hpid.symm.trans (h.clean r hr).pid)
    refine h.clean_of_one r ?_ (fun x hx => ?_) p hp
    · simp only [Sys.leave]
      split_ifs <;> simp [huse]
    · simp only [Sys.row,Sys.leave]
      split_ifs <;> simp [hx]
  | wakened q addr hst hpc =>
    exact h.clean_of_one q (by simp [Sys.goto]) (fun r hr => by simp [Sys.row,Sys.goto,hr]) p hp
  | schedule q hst hpc => exact h.clean_of_one q (by simp) (fun r hr => by simp [Sys.row,hr]) p hp
  | yield q hrun hlk => exact h.clean_of_one q (by simp) (fun r hr => by simp [Sys.row,hr]) p hp

theorem Tidy.step (h : Tidy s) (hl : NamesProcess l) (hs : step s l=some t) : Tidy t := by
  have hc := step_change hs
  refine ⟨h.control.step h.forking hc,h.forking.step h.control hc,fun q pid i hq => ?_,
    h.clean_step hc⟩
  obtain ⟨j,hj⟩ | rfl := hc.kill_pid hq
  · exact h.named q pid j hj
  · exact hl

/-- The process in slot `p` has been hit by a call of `kill` with its own number,
and the slot has been in use ever since. -/
def Hit (past : List Label) (t : Sys) (p : Slot) : Prop :=
  ∃ u q ok v s, past=u++.run q ok :: v ∧ run Proc.step u boot=some s ∧
    s.pc q=.kill (t.pid p) p ∧ s.pid p=t.pid p ∧ s.state p≠.unused ∧
    ∀ w x, w <+: v → run Proc.step (u++.run q ok :: w) boot=some x → x.state p≠.unused

theorem Change.pid (hc : Change s l t) (hs : s.state p≠.unused) (ht : t.state p≠.unused) :
    t.pid p=s.pid p := by
  cases hc with
  | alloc q np hrun hpc hst | allocFail q np hrun hpc hst =>
    have hne : p≠np := fun he => hs (he ▸ hst)
    simp [Sys.goto,Sys.leave,Sys.found,Sys.freeproc,hne]
  | reap q ok addr c havekids hrun hpc hpar hst =>
    have hne : p≠c := fun he => ht (by simp [Sys.leave,Sys.freeproc,he])
    simp [Sys.leave,Sys.freeproc,hne]
  | _ => rfl

theorem Change.killed (hc : Change s l t) (hs : s.killed p=false) (ht : t.killed p=true) :
    ∃ q ok, l=.run q ok ∧ s.pc q=.kill (s.pid p) p := by
  cases hc with
  | kill q ok pid r hrun hpc hpid =>
    by_cases hr : p=r
    · exact ⟨q,ok,rfl,by rw [hpc,hr,hpid]⟩
    · simp [Sys.leave,hr,hs] at ht
  | allocFail q np | reap q ok addr np =>
    by_cases hr : p=np <;> simp [Sys.leave,Sys.found,Sys.freeproc,hr,hs] at ht
  | _ => cases hs.symm.trans ht

structure Marked (past : List Label) (t : Sys) : Prop where
  run : run Proc.step past boot=some t
  tidy : Tidy t
  hit : ∀ p, t.killed p=true → Hit past t p

theorem Marked.step {past : List Label} (h : Marked past s) (hl : NamesProcess l)
    (hs : step s l=some t) : Marked (past++[l]) t := by
  have hrun : Machine.run Proc.step (past++[l]) boot=some t :=
    run_append_some.mpr ⟨s,h.run,by simp [Machine.run,hs]⟩
  have htidy := h.tidy.step hl hs
  have hc := step_change hs
  refine ⟨hrun,htidy,fun p hp => ?_⟩
  have ht : t.state p≠.unused := fun he => by simp [(htidy.clean p he).killed] at hp
  cases hold : s.killed p with
  | true =>
    have hst : s.state p≠.unused := fun he => by simp [(h.tidy.clean p he).killed] at hold
    obtain ⟨u,q,ok,v,x,rfl,hu,hpc,hpid,hx,hlater⟩ := h.hit p hold
    have hsame := hc.pid hst ht
    refine ⟨u,q,ok,v++[l],x,by simp,hu,hsame ▸ hpc,hpid.trans hsame.symm,hx,fun w y hw hy => ?_⟩
    obtain rfl | hw := List.prefix_concat_iff.mp hw
    · obtain rfl : t=y := Option.some.inj (hrun.symm.trans (by simpa using hy))
      exact ht
    · exact hlater w y hw hy
  | false =>
    obtain ⟨q,ok,rfl,hpc⟩ := hc.killed hold hp
    have hst : s.state p≠.unused := fun he => h.tidy.named q _ _ hpc (h.tidy.clean p he).pid
    have hsame := hc.pid hst ht
    refine ⟨past,q,ok,[],s,rfl,h.run,hsame ▸ hpc,hsame.symm,hst,fun w y hw hy => ?_⟩
    obtain rfl := List.prefix_nil.mp hw
    obtain rfl : t=y := by simpa [hrun] using hy
    exact ht

theorem boot_marked : Marked [] boot := ⟨rfl,boot_tidy,by simp [boot]⟩

theorem marked_of_run (hls : ∀ l∈ls, NamesProcess l) (hrun : run Proc.step ls boot=some t) :
    Marked ls t := by
  have hstep : ∀ past u l v, Marked past u → NamesProcess l → Proc.step u l=some v →
      Marked (past++[l]) v := fun _ _ _ _ h hl hs => h.step hl hs
  simpa using run_induction hstep boot_marked (Along.of_mem hls [] boot) hrun

/-- The round `i` of `kill` hits no process that `fork` is still making, and none that has
exited. -/
def Spares (s : Sys) (pid : Int) (i : Nat) : Prop :=
  ∀ p : Slot, p.val=i → s.pid p=pid → s.state p≠.used ∧ s.state p≠.zombie

instance (s : Sys) (pid : Int) (i : Nat) : Decidable (Spares s pid i) :=
  inferInstanceAs (Decidable (∀ p : Slot, p.val=i → s.pid p=pid → _))

theorem Tidy.kill_round (h : Tidy t) {pid : Int} {i : Nat} {ok : Bool}
    (hpc : t.pc q=.kill pid i) (hspare : Spares t pid i)
    (hs : Proc.step t (.run q ok)=some s) :
    (s.pc q=.user ∧ s.ret q=.ok 0 none ∧
      ∃ p, t.pid p=pid ∧ (t.state p).live=true ∧ ∀ r, r≠p → s.row r=t.row r) ∨
    ((s.pc q=.kill pid (i+1) ∨ s.pc q=.user ∧ s.ret q=.error) ∧ ∀ r, s.row r=t.row r) := by
  simp only [Proc.step,Sys.advance,hpc] at hs
  split_ifs at hs
  unfold Sys.kill at hs
  by_cases hi : i < nproc
  · simp only [dif_pos hi] at hs
    split at hs
    next => cases hs
    next =>
      by_cases hpid : t.pid ⟨i,hi⟩=pid
      · rw [if_pos hpid] at hs
        cases hs
        have huse : t.state ⟨i,hi⟩≠.unused := fun he =>
          h.named q pid i hpc (hpid.symm.trans (h.clean _ he).pid)
        obtain ⟨hused,hzombie⟩ := hspare ⟨i,hi⟩ rfl hpid
        refine .inl ⟨by simp [Sys.leave],by simp [Sys.leave],⟨i,hi⟩,hpid,?_,fun r hr => ?_⟩
        · cases hst : t.state ⟨i,hi⟩ <;> simp_all [ProcState.live]
        · simp only [Sys.row,Sys.leave]
          split_ifs <;> simp [hr]
      · rw [if_neg hpid] at hs
        cases hs
        exact .inr ⟨.inl (by simp [Sys.goto]),fun _ => rfl⟩
  · simp only [dif_neg hi] at hs
    cases hs
    exact .inr ⟨.inr ⟨by simp [Sys.leave],by simp [Sys.leave]⟩,fun _ => rfl⟩

/-- If every call of `kill` names a process, then free slots are clean, a process is
marked as killed only by a call that names it, and a round of `kill` that hits no process
in the making and no zombie ends the call with 0 only for a live process, and touches no
other slot. -/
theorem slots_clean (ls : List Label) (t : Sys) (hls : ∀ l∈ls, NamesProcess l)
    (hrun : run Proc.step ls boot=some t) :
    (∀ p, t.state p=.unused → t.Clean p) ∧
    (∀ p, t.killed p=true → Hit ls t p) ∧
    ∀ q ok pid i s, t.pc q=.kill pid i → Spares t pid i → Proc.step t (.run q ok)=some s →
      (s.pc q=.user ∧ s.ret q=.ok 0 none ∧
        ∃ p, t.pid p=pid ∧ (t.state p).live=true ∧ ∀ r, r≠p → s.row r=t.row r) ∨
      ((s.pc q=.kill pid (i+1) ∨ s.pc q=.user ∧ s.ret q=.error) ∧
        ∀ r, s.row r=t.row r) := by
  have h := marked_of_run hls hrun
  exact ⟨h.tidy.clean,h.hit,fun _ _ _ _ _ hpc hspare hs => h.tidy.kill_round hpc hspare hs⟩

def secondSlot : Slot := ⟨1,one_lt_nproc⟩

def forks : List Label :=
  .syscall initproc .fork :: List.replicate 4 (.run initproc true)

/-- The first process forks, and is about to hit the child with `kill(2)`. -/
def findsChild : List Label :=
  .schedule initproc :: forks++[.syscall initproc (.kill 2), .run initproc true]

def findsChildEnd : Sys := (run Proc.step findsChild boot).get (by decide +kernel)

def killsChild : List Label := findsChild++[.run initproc true]

def killsChildEnd : Sys := (run Proc.step killsChild boot).get (by decide +kernel)

theorem killsChild_hit : Hit killsChild killsChildEnd secondSlot ∧
    ∃ p, findsChildEnd.pid p=2 ∧ (findsChildEnd.state p).live=true ∧
      ∀ r, r≠p → killsChildEnd.row r=findsChildEnd.row r := by
  have hfinds : run Proc.step findsChild boot=some findsChildEnd := (Option.some_get _).symm
  have hkills : run Proc.step killsChild boot=some killsChildEnd := (Option.some_get _).symm
  have hlast : Proc.step findsChildEnd (.run initproc true)=some killsChildEnd := by
    obtain ⟨u,hu,hlast⟩ := run_append_some.mp hkills
    cases hfinds.symm.trans hu
    simpa [run] using hlast
  have hret : killsChildEnd.pc initproc=.user ∧ killsChildEnd.ret initproc=.ok 0 none := by
    decide +kernel
  refine ⟨(slots_clean killsChild _ (by decide +kernel) hkills).2.1 _ (by decide +kernel),?_⟩
  obtain ⟨-,-,hp⟩ | ⟨hpc | hpc,-⟩ := (slots_clean findsChild _ (by decide +kernel) hfinds).2.2
    initproc true 2 1 killsChildEnd (by decide +kernel) (by decide +kernel) hlast
  · exact hp
  · simp [hret] at hpc
  · simp [hret] at hpc

/-- The first process calls `kill(0)`. -/
def killsZero : List Label :=
  .schedule initproc :: .syscall initproc (.kill 0) :: List.replicate 2 (.run initproc true)

def killsZeroEnd : Sys := (run Proc.step killsZero boot).get (by decide +kernel)

def forksAfterEnd : Sys := (run Proc.step (killsZero++forks) boot).get (by decide +kernel)

/-- `kill(0)` returns 0 and marks a free slot, and the process that the next `fork`
puts there is killed before anybody has named it. -/
theorem kill_zero_marks :
    (killsZeroEnd.ret initproc=.ok 0 none ∧ killsZeroEnd.state secondSlot=.unused ∧
      killsZeroEnd.killed secondSlot=true) ∧
    forksAfterEnd.state secondSlot=.runnable ∧ forksAfterEnd.pid secondSlot=2 ∧
      forksAfterEnd.killed secondSlot=true := by
  decide +kernel

end Xv6.Proc
