import Xv6.Proc

/-! `sleep` and `wakeup` of `kernel/proc.c` with the scheduler, for one channel, the
spinlock `lk` passed to `sleep` and the condition it protects. Some processes loop
`acquire(lk); while(!cond) sleep(chan, lk); release(lk)`, others run `acquire(lk)`, make
the condition true, `wakeup(chan); release(lk)`. A step is an acquire or a release of
`lk` or of a `p->lock`, or a `swtch` into or out of the scheduler. -/
namespace Xv6.SleepWakeup
open Function Xv6.Machine Xv6.Proc

/-- The places of a process that holds no lock: outside both loops, or about to
acquire `lk` in one of them. -/
inductive Free where
  | outside
  | wait
  | wake
deriving DecidableEq, Repr

inductive Pc where
  | free (f : Free)
  /-- In `yield`, with `p->lock`, about to `swtch`. -/
  | yieldSwtch (f : Free)
  /-- Switched out in `yield`, and then back again with `p->lock`. -/
  | yielded (f : Free)
  | test
  | sleepAcquire
  | sleepRelease
  | sleepSwtch
  /-- Switched out in `sleep`, and then back again with `p->lock`. -/
  | asleep
  | waitRelease
  | setCond
  | wakeup (i : Nat)
  | wakeupHolds (q : Slot)
  | wakeRelease
deriving DecidableEq, Repr

/-- The holder of a `p->lock`: the thread of a process, or a scheduler that has just
acquired it, or one to which the process has switched. -/
inductive Holder where
  | proc (p : Slot)
  | picked
  | returned
deriving DecidableEq, Repr

structure Sys where
  state : Slot → ProcState
  /-- Whether `p->chan` is the channel. -/
  chan : Slot → Bool
  lock : Slot → Option Holder
  lk : Option Slot
  cond : Bool
  pc : Slot → Pc

/-- Some processes, none of which runs yet. -/
def start (present : Slot → Bool) (cond : Bool) : Sys where
  state := fun p => if present p then .runnable else .unused
  chan := fun _ => false
  lock := fun _ => none
  lk := none
  cond := cond
  pc := fun _ => .yielded .outside

def Sys.goto (s : Sys) (p : Slot) (k : Pc) : Sys := { s with pc := update s.pc p k }

def Sys.swtch (s : Sys) (p : Slot) (x : ProcState) (k : Pc) : Sys :=
  { s with
    state := update s.state p x
    lock := update s.lock p (some .returned) }.goto p k

def Sys.advance (s : Sys) (p : Slot) : Option Sys :=
  match s.pc p with
  | .free .outside => none
  | .free .wait => if s.lk=none then some ({ s with lk := some p }.goto p .test) else none
  | .free .wake => if s.lk=none then some ({ s with lk := some p }.goto p .setCond) else none
  | .yieldSwtch f => some (s.swtch p .runnable (.yielded f))
  | .yielded f => some ({ s with lock := update s.lock p none }.goto p (.free f))
  | .test => some (s.goto p (if s.cond then .waitRelease else .sleepAcquire))
  | .sleepAcquire =>
      if s.lock p=none then
        some ({ s with lock := update s.lock p (some (.proc p)) }.goto p .sleepRelease)
      else none
  | .sleepRelease => some ({ s with lk := none }.goto p .sleepSwtch)
  | .sleepSwtch => some ({ s with chan := update s.chan p true }.swtch p .sleeping .asleep)
  | .asleep =>
      some ({ s with
        chan := update s.chan p false
        lock := update s.lock p none }.goto p (.free .wait))
  | .waitRelease | .wakeRelease => some ({ s with lk := none }.goto p (.free .outside))
  | .setCond => some ({ s with cond := true }.goto p (.wakeup 0))
  | .wakeup i =>
      if h : i < nproc then
        if ⟨i,h⟩=p then some (s.goto p (.wakeup (i+1)))
        else if s.lock ⟨i,h⟩=none then
          some ({ s with lock := update s.lock ⟨i,h⟩ (some (.proc p)) }.goto p (.wakeupHolds ⟨i,h⟩))
        else none
      else some (s.goto p .wakeRelease)
  | .wakeupHolds q =>
      some ({ s with
        state := if s.state q=ProcState.sleeping ∧ s.chan q then update s.state q .runnable
          else s.state
        lock := update s.lock q none }.goto p (.wakeup (q+1)))

inductive Label where
  /-- A process outside the loops enters one of them. -/
  | enter (p : Slot) (f : Free)
  | run (p : Slot)
  /-- A process that holds `lk` and is done with its loop makes the condition false. -/
  | clear (p : Slot)
  /-- The clock interrupts a process that holds no lock, and it acquires `p->lock`. -/
  | yield (p : Slot)
  /-- A scheduler acquires `p->lock`. -/
  | pick (p : Slot)
  /-- It switches to the process if that is RUNNABLE, or else releases the lock. -/
  | dispatch (p : Slot)
  /-- It releases the lock when the process has switched back. -/
  | release (p : Slot)
deriving DecidableEq, Repr

def step (s : Sys) : Label → Option Sys
  | .enter p f =>
      if s.state p=.running ∧ s.pc p=.free .outside then some (s.goto p (.free f)) else none
  | .run p => if s.state p=.running then s.advance p else none
  | .clear p =>
      if s.pc p=.waitRelease ∨ s.pc p=.wakeRelease then some { s with cond := false } else none
  | .yield p =>
      match s.pc p with
      | .free f =>
          if s.state p=.running ∧ s.lock p=none then
            some ({ s with lock := update s.lock p (some (.proc p)) }.goto p (.yieldSwtch f))
          else none
      | _ => none
  | .pick p =>
      if s.lock p=none then some { s with lock := update s.lock p (some .picked) } else none
  | .dispatch p =>
      if s.lock p=some .picked then
        if s.state p=.runnable then
          some { s with
            state := update s.state p .running
            lock := update s.lock p (some (.proc p)) }
        else some { s with lock := update s.lock p none }
      else none
  | .release p =>
      if s.lock p=some .returned then some { s with lock := update s.lock p none } else none

variable {s t : Sys} {p q : Slot} {l : Label}

inductive Change (s : Sys) : Sys → Prop
  | enter (p : Slot) (f : Free) (hrun : s.state p=.running) (hpc : s.pc p=.free .outside) :
      Change s (s.goto p (.free f))
  | acquireWait (p : Slot) (hrun : s.state p=.running) (hpc : s.pc p=.free .wait)
      (hlk : s.lk=none) : Change s ({ s with lk := some p }.goto p .test)
  | acquireWake (p : Slot) (hrun : s.state p=.running) (hpc : s.pc p=.free .wake)
      (hlk : s.lk=none) : Change s ({ s with lk := some p }.goto p .setCond)
  | testTrue (p : Slot) (hrun : s.state p=.running) (hpc : s.pc p=.test) (hcond : s.cond=true) :
      Change s (s.goto p .waitRelease)
  | testFalse (p : Slot) (hrun : s.state p=.running) (hpc : s.pc p=.test) (hcond : s.cond=false) :
      Change s (s.goto p .sleepAcquire)
  | sleepAcquire (p : Slot) (hrun : s.state p=.running) (hpc : s.pc p=.sleepAcquire)
      (hlock : s.lock p=none) :
      Change s ({ s with lock := update s.lock p (some (.proc p)) }.goto p .sleepRelease)
  | sleepRelease (p : Slot) (hrun : s.state p=.running) (hpc : s.pc p=.sleepRelease) :
      Change s ({ s with lk := none }.goto p .sleepSwtch)
  | sleepSwtch (p : Slot) (hrun : s.state p=.running) (hpc : s.pc p=.sleepSwtch) :
      Change s ({ s with chan := update s.chan p true }.swtch p .sleeping .asleep)
  | awake (p : Slot) (hrun : s.state p=.running) (hpc : s.pc p=.asleep) :
      Change s ({ s with
        chan := update s.chan p false
        lock := update s.lock p none }.goto p (.free .wait))
  | unlock (p : Slot) (hrun : s.state p=.running)
      (hpc : s.pc p=.waitRelease ∨ s.pc p=.wakeRelease) :
      Change s ({ s with lk := none }.goto p (.free .outside))
  | setCond (p : Slot) (hrun : s.state p=.running) (hpc : s.pc p=.setCond) :
      Change s ({ s with cond := true }.goto p (.wakeup 0))
  | pass (p : Slot) (hrun : s.state p=.running) (hpc : s.pc p=.wakeup p) :
      Change s (s.goto p (.wakeup (p+1)))
  | wakeupAcquire (p q : Slot) (hrun : s.state p=.running) (hpc : s.pc p=.wakeup q)
      (hne : q≠p) (hlock : s.lock q=none) :
      Change s ({ s with lock := update s.lock q (some (.proc p)) }.goto p (.wakeupHolds q))
  | wakeupRelease (p q : Slot) (hrun : s.state p=.running) (hpc : s.pc p=.wakeupHolds q) :
      Change s ({ s with
        state := if s.state q=ProcState.sleeping ∧ s.chan q then update s.state q .runnable
          else s.state
        lock := update s.lock q none }.goto p (.wakeup (q+1)))
  | wakeupDone (p : Slot) (i : Nat) (hrun : s.state p=.running) (hpc : s.pc p=.wakeup i)
      (hi : ¬ i < nproc) : Change s (s.goto p .wakeRelease)
  | clear (p : Slot) (hpc : s.pc p=.waitRelease ∨ s.pc p=.wakeRelease) :
      Change s { s with cond := false }
  | yieldAcquire (p : Slot) (f : Free) (hrun : s.state p=.running) (hpc : s.pc p=.free f)
      (hlock : s.lock p=none) :
      Change s ({ s with lock := update s.lock p (some (.proc p)) }.goto p (.yieldSwtch f))
  | yieldSwtch (p : Slot) (f : Free) (hrun : s.state p=.running) (hpc : s.pc p=.yieldSwtch f) :
      Change s (s.swtch p .runnable (.yielded f))
  | yieldRelease (p : Slot) (f : Free) (hrun : s.state p=.running) (hpc : s.pc p=.yielded f) :
      Change s ({ s with lock := update s.lock p none }.goto p (.free f))
  | pick (p : Slot) (hlock : s.lock p=none) :
      Change s { s with lock := update s.lock p (some .picked) }
  | dispatch (p : Slot) (hst : s.state p=.runnable) (hlock : s.lock p=some .picked) :
      Change s { s with
        state := update s.state p .running
        lock := update s.lock p (some (.proc p)) }
  | release (p : Slot) (hlock : s.lock p=some .picked ∨ s.lock p=some .returned) :
      Change s { s with lock := update s.lock p none }

theorem advance_change (hrun : s.state p=.running) (h : s.advance p=some t) : Change s t := by
  unfold Sys.advance at h
  cases hpc : s.pc p with
  | free f =>
    cases f with
    | outside => simp [hpc] at h
    | wait =>
      simp only [hpc] at h
      split_ifs at h with hlk
      cases h
      exact .acquireWait p hrun hpc hlk
    | wake =>
      simp only [hpc] at h
      split_ifs at h with hlk
      cases h
      exact .acquireWake p hrun hpc hlk
  | yieldSwtch f =>
    simp only [hpc,Option.some.injEq] at h
    exact h ▸ .yieldSwtch p f hrun hpc
  | yielded f =>
    simp only [hpc,Option.some.injEq] at h
    exact h ▸ .yieldRelease p f hrun hpc
  | test =>
    simp only [hpc,Option.some.injEq] at h
    subst h
    cases hcond : s.cond with
    | true => exact .testTrue p hrun hpc hcond
    | false => exact .testFalse p hrun hpc hcond
  | sleepAcquire =>
    simp only [hpc] at h
    split_ifs at h with hlock
    cases h
    exact .sleepAcquire p hrun hpc hlock
  | sleepRelease =>
    simp only [hpc,Option.some.injEq] at h
    exact h ▸ .sleepRelease p hrun hpc
  | sleepSwtch =>
    simp only [hpc,Option.some.injEq] at h
    exact h ▸ .sleepSwtch p hrun hpc
  | asleep =>
    simp only [hpc,Option.some.injEq] at h
    exact h ▸ .awake p hrun hpc
  | waitRelease =>
    simp only [hpc,Option.some.injEq] at h
    exact h ▸ .unlock p hrun (.inl hpc)
  | wakeRelease =>
    simp only [hpc,Option.some.injEq] at h
    exact h ▸ .unlock p hrun (.inr hpc)
  | setCond =>
    simp only [hpc,Option.some.injEq] at h
    exact h ▸ .setCond p hrun hpc
  | wakeup i =>
    simp only [hpc] at h
    split_ifs at h with hi hip hlock
    · cases h
      subst hip
      exact .pass _ hrun hpc
    · cases h
      exact .wakeupAcquire p ⟨i,hi⟩ hrun hpc hip hlock
    · cases h
      exact .wakeupDone p i hrun hpc hi
  | wakeupHolds q =>
    simp only [hpc,Option.some.injEq] at h
    exact h ▸ .wakeupRelease p q hrun hpc

theorem step_change (h : step s l=some t) : Change s t := by
  cases l with
  | enter p f =>
    simp only [step] at h
    split_ifs at h with hp
    cases h
    exact .enter p f hp.1 hp.2
  | run p =>
    simp only [step] at h
    split_ifs at h with hrun
    exact advance_change hrun h
  | clear p =>
    simp only [step] at h
    split_ifs at h with hpc
    cases h
    exact .clear p hpc
  | yield p =>
    simp only [step] at h
    split at h
    next f hpc =>
      split_ifs at h with hp
      cases h
      exact .yieldAcquire p f hp.1 hpc hp.2
    next => cases h
  | pick p =>
    simp only [step] at h
    split_ifs at h with hlock
    cases h
    exact .pick p hlock
  | dispatch p =>
    simp only [step] at h
    split_ifs at h with hlock hst
    · cases h
      exact .dispatch p hst hlock
    · cases h
      exact .release p (.inl hlock)
  | release p =>
    simp only [step] at h
    split_ifs at h with hlock
    cases h
    exact .release p (.inr hlock)

end Xv6.SleepWakeup
