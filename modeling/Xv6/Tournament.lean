import Xv6.PetersonLock

/-! The tournament lock of `user/libtournament.c` and the program
`user/tournament.c` that runs it: one process creates the locks of the tree and
forks the others, then every process climbs from its leaf to the root. The
kernel below is the machine of `petersonlock.c`, used by nobody else. -/
namespace Xv6.Tournament
open Function Xv6.Machine Xv6.PetersonLock

def maxProcesses : Int := 16

/-- The argument test of `tournament_create`; the bits are those of a positive int. -/
def admitted (processes : Int) : Bool :=
  0 < processes && processes ≤ maxProcesses &&
    (processes.toNat &&& (processes.toNat-1)) == 0

/-- `while (temp > 1) { temp >>= 1; num_levels++; }` -/
def levelsLoop : Nat → Nat → Nat
  | 0, _ => 0
  | fuel+1, temp => if temp > 1 then levelsLoop fuel (temp >>> 1)+1 else 0

def numLevels (processes : Int) : Nat := levelsLoop processes.toNat processes.toNat

def roleAt (levels procId i : Nat) : Nat :=
  let shift := levels-i-1
  (procId &&& (1 <<< shift)) >>> shift

/-- The lock a process takes at level `i`: an index into the tree, which the code
hands to the kernel as a lock id. -/
def nodeAt (levels procId i : Nat) : Nat :=
  let lockLevelIdx := procId >>> (levels-i)
  lockLevelIdx+(1 <<< i)-1

/-- Where a process is in the program. The loop variables of the calls it is in
are the arguments. -/
inductive UserPc where
  | unborn
  | mallocing
  | creating
  | rollback (j : Nat)
  | forking (i : Nat)
  | ready
  | acquiring (i : Nat)
  | unwinding (j : Nat)
  | critical
  | releasing (i : Nat)
  | failed
  | exited
  deriving DecidableEq

structure Tour where
  kern : Sys Nat
  user : Nat → UserPc
  lockIds : Option (List Int)

def Tour.goto (s : Tour) (p : Nat) (u : UserPc) : Tour :=
  { s with user := update s.user p u }

/-- A process makes a system call and is at `u` until it returns. -/
def Tour.call (s : Tour) (p : Nat) (u : UserPc) (c : Syscall) : Option Tour :=
  (PetersonLock.step s.kern (.call p c)).map fun k => { s with kern := k, user := update s.user p u }

def start (processes : Int) : UserPc :=
  if processes < 2 ∨ maxProcesses < processes then .exited
  else if admitted processes then .mallocing else .exited

def init (processes : Int) (table : Mem) : Tour where
  kern := ⟨table,fun _ => .user⟩
  user p := if p=0 then start processes else .unborn
  lockIds := none

/-- The head of the loop that creates the locks, then the head of the fork loop. -/
def createNext (processes : Int) (s : Tour) (ids : List Int) : Option Tour :=
  if (ids.length : Int) < processes-1 then
    { s with lockIds := some ids }.call 0 .creating .create
  else some ({ s with lockIds := some ids }.goto 0 (if 1 < processes then .forking 1 else .ready))

/-- The head of the loop that destroys the locks created so far; at its end
`tournament_create` frees the array and fails, and `main` exits. -/
def rollbackNext (s : Tour) (ids : List Int) (j : Nat) : Option Tour :=
  match ids[j]? with
  | some lockId => s.call 0 (.rollback j) (.destroy lockId)
  | none => some ({ s with lockIds := none }.goto 0 .exited)

def acquireAt (levels : Nat) (s : Tour) (p i : Nat) : Option Tour :=
  s.call p (.acquiring i) (.acquire (nodeAt levels p i) (roleAt levels p i))

/-- The head of the release loop, which ends at `done`. -/
def releaseFrom (levels : Nat) (s : Tour) (p i : Nat) (u done : UserPc) : Option Tour :=
  if i < levels then s.call p u (.release (nodeAt levels p i) (roleAt levels p i))
  else some (s.goto p done)

/-- The user code from the return of a system call with value `v` to the next
system call, or to the end of the library call. -/
def resume (processes : Int) (s : Tour) (p : Nat) (v : Int) : Option Tour :=
  let levels := numLevels processes
  match s.user p with
  | .creating =>
      let ids := s.lockIds.getD []
      if v < 0 then rollbackNext s ids 0 else createNext processes s (ids++[v])
  | .rollback j => rollbackNext s (s.lockIds.getD []) (j+1)
  | .acquiring i =>
      if v < 0 then releaseFrom levels s p i (.unwinding i) .failed
      else if i=0 then some (s.goto p .critical) else acquireAt levels s p (i-1)
  | .unwinding j =>
      if v < 0 then some (s.goto p .failed)
      else releaseFrom levels s p (j+1) (.unwinding (j+1)) .failed
  | .releasing i =>
      if v < 0 then some (s.goto p .failed)
      else releaseFrom levels s p (i+1) (.releasing (i+1)) .ready
  | _ => none

inductive Event where
  | malloc (ok : Bool)
  | fork (ok : Bool)
  | acquire (p : Nat)
  | release (p : Nat)
  | exit (p : Nat)
  | access (p : Nat)
  | sysret (p : Nat)
  deriving DecidableEq

/-- Process 0 creates and forks; a process outside the lock may acquire it or
exit, a process inside may release it, and a process in a system call makes an
access or returns. -/
def step (processes : Int) (s : Tour) : Event → Option Tour
  | .malloc ok =>
      if s.user 0=.mallocing then
        if ok then createNext processes s [] else some (s.goto 0 .exited)
      else none
  | .fork ok =>
      match s.user 0 with
      | .forking i =>
          if ok then
            some ((s.goto i .ready).goto 0 (if i+1 < processes then .forking (i+1) else .ready))
          else some (s.goto 0 .exited)
      | _ => none
  | .acquire p =>
      if s.user p=.ready then
        if processes=0 ∨ numLevels processes=0 ∨ s.lockIds=none then some (s.goto p .failed)
        else acquireAt (numLevels processes) s p (numLevels processes-1)
      else none
  | .release p =>
      if s.user p=.critical then
        releaseFrom (numLevels processes) s p 0 (.releasing 0) .ready
      else none
  | .exit p => if s.user p=.ready ∨ s.user p=.failed then some (s.goto p .exited) else none
  | .access p => (PetersonLock.step s.kern (.access p)).map fun k => { s with kern := k }
  | .sysret p =>
      match s.kern.pc p with
      | .ret c v => (PetersonLock.step s.kern (.ret p c v)).bind fun k =>
          resume processes { s with kern := k } p v
      | _ => none

@[simp] theorem Tour.goto_kern (s : Tour) (p : Nat) (u : UserPc) : (s.goto p u).kern=s.kern := rfl
@[simp] theorem Tour.goto_lockIds (s : Tour) (p : Nat) (u : UserPc) :
    (s.goto p u).lockIds=s.lockIds := rfl
@[simp] theorem Tour.goto_user (s : Tour) (p : Nat) (u : UserPc) (q : Nat) :
    (s.goto p u).user q = if q=p then u else s.user q := by
  simp [Tour.goto,update_apply]

def Tour.at (s : Tour) (p : Nat) (u : UserPc) (pc : Pc) : Tour :=
  { s with kern := s.kern.setPc p pc, user := update s.user p u }

@[simp] theorem Tour.at_mem (s : Tour) (p : Nat) (u : UserPc) (pc : Pc) :
    (s.at p u pc).kern.mem=s.kern.mem := rfl
@[simp] theorem Tour.at_pc (s : Tour) (p : Nat) (u : UserPc) (pc : Pc) (q : Nat) :
    (s.at p u pc).kern.pc q = if q=p then pc else s.kern.pc q := by
  simp [Tour.at]
@[simp] theorem Tour.at_user (s : Tour) (p : Nat) (u : UserPc) (pc : Pc) (q : Nat) :
    (s.at p u pc).user q = if q=p then u else s.user q := by
  simp [Tour.at,update_apply]
@[simp] theorem Tour.at_lockIds (s : Tour) (p : Nat) (u : UserPc) (pc : Pc) :
    (s.at p u pc).lockIds=s.lockIds := rfl

variable {p : Nat} {s t : Tour}

theorem call_eq_some {u : UserPc} {c : Syscall} :
    s.call p u c=some t ↔ s.kern.pc p=.user ∧ t=s.at p u c.entry := by
  simp only [Tour.call,Option.map_eq_some_iff,step_call]
  constructor
  · rintro ⟨k,⟨hk,rfl⟩,rfl⟩
    exact ⟨hk,rfl⟩
  · rintro ⟨hk,rfl⟩
    exact ⟨_,⟨hk,rfl⟩,rfl⟩

theorem call_after_return (s : Tour) (p : Nat) (u : UserPc) (c : Syscall) :
    Tour.call { s with kern := s.kern.setPc p .user } p u c=some (s.at p u c.entry) := by
  rw [call_eq_some]
  simp [Tour.at]

def Tour.access (s : Tour) (p : Nat) (a : Access) : Tour :=
  let pc := (s.kern.pc p).next (a.value s.kern.mem)
  { s with kern := (s.kern.setMem (a.perform s.kern.mem)).setPc p pc }

@[simp] theorem Tour.access_mem (s : Tour) (p : Nat) (a : Access) :
    (s.access p a).kern.mem=a.perform s.kern.mem := rfl
@[simp] theorem Tour.access_pc (s : Tour) (p : Nat) (a : Access) (q : Nat) :
    (s.access p a).kern.pc q = if q=p then (s.kern.pc p).next (a.value s.kern.mem) else s.kern.pc q := by
  simp [Tour.access]
@[simp] theorem Tour.access_user (s : Tour) (p : Nat) (a : Access) (q : Nat) :
    (s.access p a).user q=s.user q := rfl
@[simp] theorem Tour.access_lockIds (s : Tour) (p : Nat) (a : Access) :
    (s.access p a).lockIds=s.lockIds := rfl

variable {processes : Int}

theorem step_access :
    step processes s (.access p)=some t ↔ ∃ a, (s.kern.pc p).access=some a ∧ t=s.access p a := by
  simp only [step,PetersonLock.step,Option.map_map,Option.map_eq_some_iff]
  exact exists_congr fun k => and_congr_right fun _ => eq_comm

theorem step_sysret :
    step processes s (.sysret p)=some t ↔ ∃ c v, s.kern.pc p=.ret c v ∧
      resume processes { s with kern := s.kern.setPc p .user } p v=some t := by
  cases hp : s.kern.pc p with
  | ret c v => simp [step,hp,PetersonLock.step,and_assoc]
  | _ => simp [step,hp]

/-- A move of process `p` in the tree that makes no access: from `u` and `pc` to
`u'` and `pc'`. -/
inductive Climb (levels p : Nat) : UserPc → Pc → UserPc → Pc → Prop
  | start (hl : 0 < levels) : Climb levels p .ready .user (.acquiring (levels-1))
      (Syscall.acquire (nodeAt levels p (levels-1)) (roleAt levels p (levels-1))).entry
  | up (i : Nat) (c : Syscall) (v : Int) (hv : 0 ≤ v) :
      Climb levels p (.acquiring (i+1)) (.ret c v) (.acquiring i)
        (Syscall.acquire (nodeAt levels p i) (roleAt levels p i)).entry
  | top (c : Syscall) (v : Int) (hv : 0 ≤ v) :
      Climb levels p (.acquiring 0) (.ret c v) .critical .user
  | refused (i : Nat) (c : Syscall) (v : Int) (hv : v < 0) (hi : i < levels) :
      Climb levels p (.acquiring i) (.ret c v) (.unwinding i)
        (Syscall.release (nodeAt levels p i) (roleAt levels p i)).entry
  | unwind (j : Nat) (c : Syscall) (v : Int) (hv : 0 ≤ v) (hj : j+1 < levels) :
      Climb levels p (.unwinding j) (.ret c v) (.unwinding (j+1))
        (Syscall.release (nodeAt levels p (j+1)) (roleAt levels p (j+1))).entry
  | leave (hl : 0 < levels) : Climb levels p .critical .user (.releasing 0)
      (Syscall.release (nodeAt levels p 0) (roleAt levels p 0)).entry
  | down (i : Nat) (c : Syscall) (v : Int) (hv : 0 ≤ v) (hi : i+1 < levels) :
      Climb levels p (.releasing i) (.ret c v) (.releasing (i+1))
        (Syscall.release (nodeAt levels p (i+1)) (roleAt levels p (i+1))).entry
  | bottom (i : Nat) (c : Syscall) (v : Int) (hv : 0 ≤ v) (hi : levels ≤ i+1) :
      Climb levels p (.releasing i) (.ret c v) .ready .user
  | fail (u : UserPc) (c : Syscall) (v : Int)
      (hu : (∃ i, u=.acquiring i ∧ levels ≤ i) ∨ (∃ j, u=.unwinding j) ∨
        (∃ i, u=.releasing i ∧ v < 0)) :
      Climb levels p u (.ret c v) .failed .user
  | exit (u : UserPc) (pc : Pc) (hu : u=.ready ∨ u=.failed) : Climb levels p u pc .exited pc

inductive Move (processes : Int) (s : Tour) : Tour → Prop
  | fork (i : Nat) (h : s.user 0=.forking i) :
      Move processes s
        ((s.goto i .ready).goto 0 (if i+1 < processes then .forking (i+1) else .ready))
  | forkFailed (i : Nat) (h : s.user 0=.forking i) : Move processes s (s.goto 0 .exited)
  | access (p : Nat) (a : Access) (h : (s.kern.pc p).access=some a) :
      Move processes s (s.access p a)
  | climb (p : Nat) (u : UserPc) (pc : Pc)
      (h : Climb (numLevels processes) p (s.user p) (s.kern.pc p) u pc) :
      Move processes s (s.at p u pc)

def Playing : UserPc → Prop
  | .mallocing | .creating | .rollback _ => False
  | _ => True

theorem releaseFrom_after_return {levels : Nat} {i : Nat} {u done : UserPc}
    (h : releaseFrom levels { s with kern := s.kern.setPc p .user } p i u done=some t) :
    (i < levels ∧ t=s.at p u (Syscall.release (nodeAt levels p i) (roleAt levels p i)).entry) ∨
      (levels ≤ i ∧ t=s.at p done .user) := by
  rw [releaseFrom] at h
  split_ifs at h with hi
  · rw [call_after_return] at h
    exact .inl ⟨hi,(Option.some.inj h).symm⟩
  · exact .inr ⟨by omega,(Option.some.inj h).symm⟩

theorem resume_climb {c : Syscall} {v : Int}
    (hplay : Playing (s.user p)) (hpc : s.kern.pc p=.ret c v)
    (h : resume processes { s with kern := s.kern.setPc p .user } p v=some t) :
    Move processes s t := by
  have climb {u pc} (hc : Climb (numLevels processes) p (s.user p) (.ret c v) u pc) :
      Move processes s (s.at p u pc) := .climb p u pc (hpc ▸ hc)
  cases hu : s.user p with
  | acquiring i =>
    simp only [resume,hu] at h
    rw [hu] at climb
    split_ifs at h with hv hi
    · obtain ⟨hi,rfl⟩ | ⟨hi,rfl⟩ := releaseFrom_after_return h
      · exact climb (.refused i c v hv hi)
      · exact climb (.fail _ c v (.inl ⟨i,rfl,hi⟩))
    · cases h
      subst hi
      exact climb (.top c v (by omega))
    · obtain ⟨i,rfl⟩ : ∃ k, i=k+1 := ⟨i-1,by omega⟩
      rw [acquireAt,call_after_return] at h
      cases h
      exact climb (.up i c v (by omega))
  | unwinding j =>
    simp only [resume,hu] at h
    rw [hu] at climb
    split_ifs at h with hv
    · cases h
      exact climb (.fail _ c v (.inr (.inl ⟨j,rfl⟩)))
    · obtain ⟨hj,rfl⟩ | ⟨hj,rfl⟩ := releaseFrom_after_return h
      · exact climb (.unwind j c v (by omega) hj)
      · exact climb (.fail _ c v (.inr (.inl ⟨j,rfl⟩)))
  | releasing i =>
    simp only [resume,hu] at h
    rw [hu] at climb
    split_ifs at h with hv
    · cases h
      exact climb (.fail _ c v (.inr (.inr ⟨i,rfl,hv⟩)))
    · obtain ⟨hi,rfl⟩ | ⟨hi,rfl⟩ := releaseFrom_after_return h
      · exact climb (.down i c v (by omega) hi)
      · exact climb (.bottom i c v (by omega) hi)
  | mallocing | creating | rollback j => simp [hu,Playing] at hplay
  | _ => simp [resume,hu] at h

/-- Every step from a state in which all processes play is one of the moves. -/
theorem step_moves {e : Event} (hplay : ∀ p, Playing (s.user p))
    (hl : 0 < numLevels processes) (hids : s.lockIds≠none) (h : step processes s e=some t) :
    Move processes s t ∧ ∀ ok, e≠.malloc ok := by
  cases e with
  | malloc ok =>
    have h0 := hplay 0
    simp only [step] at h
    split_ifs at h with hu <;> simp [hu,Playing] at h0
  | fork ok =>
    refine ⟨?_,by simp⟩
    cases hu : s.user 0 with
    | forking i =>
      cases ok with
      | true =>
        simp only [step,hu,if_true] at h
        exact Option.some.inj h ▸ .fork i hu
      | false =>
        simp only [step,hu,Bool.false_eq_true,if_false] at h
        exact Option.some.inj h ▸ .forkFailed i hu
    | _ => simp [step,hu] at h
  | acquire p =>
    refine ⟨?_,by simp⟩
    simp only [step] at h
    split_ifs at h with hu hun
    · rcases hun with h0 | h0 | h0
      · simp [h0,numLevels,levelsLoop] at hl
      · omega
      · exact absurd h0 hids
    · obtain ⟨hpc,rfl⟩ := call_eq_some.mp h
      exact .climb p _ _ (hu ▸ hpc ▸ .start hl)
  | release p =>
    refine ⟨?_,by simp⟩
    simp only [step,releaseFrom] at h
    split_ifs at h with hu
    obtain ⟨hpc,rfl⟩ := call_eq_some.mp h
    exact .climb p _ _ (hu ▸ hpc ▸ .leave hl)
  | exit p =>
    refine ⟨?_,by simp⟩
    simp only [step] at h
    split_ifs at h with hu
    cases h
    have hat : s.goto p .exited=s.at p .exited (s.kern.pc p) := by
      simp [Tour.goto,Tour.at,Sys.setPc]
    exact hat ▸ .climb p _ _ (.exit _ _ hu)
  | access p =>
    obtain ⟨a,ha,rfl⟩ := step_access.mp h
    exact ⟨.access p a ha,by simp⟩
  | sysret p =>
    obtain ⟨c,v,hpc,hres⟩ := step_sysret.mp h
    exact ⟨resume_climb (hplay p) hpc hres,by simp⟩

end Xv6.Tournament
