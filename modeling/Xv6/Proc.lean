import Xv6.Param
import Xv6.Machine
import Mathlib.Algebra.Group.Nat.Defs
import Mathlib.Data.Fintype.Basic

/-! The process table of `kernel/proc.c`: `fork`, `exit`, `wait`, `kill` and the
scheduler. A step runs from the acquisition of `wait_lock` or of a `p->lock` to just
before the next one, so a `p->lock` is held between two steps only from a `swtch` to
the scheduler until the scheduler releases it. Any number of processes may be
RUNNING at once. -/
namespace Xv6.Proc
open Function Xv6.Machine

abbrev Slot : Type := Fin nproc

inductive ProcState where
  | unused
  | used
  | sleeping
  | runnable
  | running
  | zombie
deriving DecidableEq, Repr

def ProcState.live : ProcState → Bool
  | .sleeping | .runnable | .running => true
  | .unused | .used | .zombie => false

theorem state_of_update {f : Slot → ProcState} {p q : Slot} {x y : ProcState} (hxy : x≠y)
    (h : update f p x q=y) : f q=y := by
  by_cases hqp : q=p
  · rw [hqp,update_self] at h
    exact absurd h hxy
  · rwa [update_of_ne hqp] at h

inductive Call where
  | fork
  | exit (status : Int)
  | wait (addr : Nat)
  | kill (pid : Int)
deriving DecidableEq, Repr

/-- What a call returns: -1, or a number and, for `wait` with an address, the exit
status that `copyout` has stored there. -/
inductive Ret where
  | error
  | ok (n : Int) (status : Option Int)
deriving DecidableEq, Repr

/-- Where a process is in the kernel, with the locals it still needs. Loops over the
table are at index `i` or, in `wakeup`, at index `j`. -/
inductive Pc where
  | user
  | allocproc (i : Nat)
  | forkParent (np : Slot) (pid : Int)
  | forkStart (np : Slot) (pid : Int)
  | exit (status : Int)
  | reparent (status : Int) (i : Nat)
  | reparentWakeup (status : Int) (i j : Nat)
  | exitWakeup (status : Int) (chan : Option Slot) (j : Nat)
  | exitZombie (status : Int)
  | exited
  | wait (addr : Nat)
  | waitScan (addr : Nat) (i : Nat) (havekids : Bool)
  | waitKilled (addr : Nat)
  | waitSleep (addr : Nat)
  | asleep (addr : Nat)
  | kill (pid : Int) (i : Nat)
deriving DecidableEq, Repr

structure Sys where
  state : Slot → ProcState
  chan : Slot → Option Slot
  killed : Slot → Bool
  xstate : Slot → Int
  pid : Slot → Int
  parent : Slot → Option Slot
  trapframe : Slot → Bool
  pagetable : Slot → Bool
  lock : Slot → Bool
  waitLock : Option Slot
  nextpid : Int
  panicked : Bool
  pc : Slot → Pc
  ret : Slot → Ret

def initproc : Slot := ⟨0,nproc_pos⟩

/-- The table when `userinit` has set up the first process. -/
def boot : Sys where
  state := fun p => if p=initproc then .runnable else .unused
  chan := fun _ => none
  killed := fun _ => false
  xstate := fun _ => 0
  pid := fun p => if p=initproc then 1 else 0
  parent := fun _ => none
  trapframe := fun p => p=initproc
  pagetable := fun p => p=initproc
  lock := fun _ => false
  waitLock := none
  nextpid := 2
  panicked := false
  pc := fun _ => .user
  ret := fun _ => .ok 0 none

def Sys.goto (s : Sys) (p : Slot) (k : Pc) : Sys := { s with pc := update s.pc p k }

def Sys.leave (s : Sys) (p : Slot) (r : Ret) : Sys :=
  { s with
    pc := update s.pc p .user
    ret := update s.ret p r }

def Sys.freeproc (s : Sys) (p : Slot) : Sys :=
  { s with
    trapframe := update s.trapframe p false
    pagetable := update s.pagetable p false
    pid := update s.pid p 0
    parent := update s.parent p none
    chan := update s.chan p none
    killed := update s.killed p false
    xstate := update s.xstate p 0
    state := update s.state p .unused }

/-- `allocproc` has found slot `np`: the number comes from `allocpid`, the two
allocations succeed and the saved context is that of `forkret`. -/
def Sys.found (s : Sys) (np : Slot) : Sys :=
  { s with
    pid := update s.pid np s.nextpid
    nextpid := (s.nextpid+1).bmod (2 ^ 32)
    state := update s.state np .used
    trapframe := update s.trapframe np true
    pagetable := update s.pagetable np true
    pc := update s.pc np .user
    ret := update s.ret np (.ok 0 none) }

/-- The loop of `allocproc` in `fork`. When `ok` is false one of the allocations of
`allocproc` or `uvmcopy` fails, and the slot is freed again. -/
def Sys.allocproc (s : Sys) (p : Slot) (i : Nat) (ok : Bool) : Option Sys :=
  if h : i < nproc then
    let np : Slot := ⟨i,h⟩
    if s.lock np then none
    else if s.state np=.unused then
      some (if ok then (s.found np).goto p (.forkParent np s.nextpid)
        else ((s.found np).freeproc np).leave p .error)
    else some (s.goto p (.allocproc (i+1)))
  else some (s.leave p .error)

def Sys.wakeup (s : Sys) (p : Slot) (chan : Option Slot) (q : Slot) : Option Sys :=
  if q=p then some s
  else if s.lock q then none
  else if s.state q=.sleeping ∧ s.chan q=chan then
    some { s with state := update s.state q .runnable }
  else some s

def Sys.reparent (s : Sys) (p : Slot) (status : Int) (i : Nat) : Sys :=
  if h : i < nproc then
    if s.parent ⟨i,h⟩=some p then
      { s with parent := update s.parent ⟨i,h⟩ (some initproc) }.goto p (.reparentWakeup status i 0)
    else s.goto p (.reparent status (i+1))
  else s.goto p (.exitWakeup status (s.parent p) 0)

def Sys.waitScan (s : Sys) (p : Slot) (addr i : Nat) (havekids ok : Bool) : Option Sys :=
  if h : i < nproc then
    let pp : Slot := ⟨i,h⟩
    if s.parent pp=some p then
      if s.lock pp then none
      else if s.state pp=.zombie then
        -- `copyout` is called for an address other than 0, and may fail
        if addr≠0 ∧ ok=false then some ({ s with waitLock := none }.leave p .error)
        else some (({ s with waitLock := none }.freeproc pp).leave p
          (.ok (s.pid pp) (if addr≠0 then some (s.xstate pp) else none)))
      else some (s.goto p (.waitScan addr (i+1) true))
    else some (s.goto p (.waitScan addr (i+1) havekids))
  else some (if havekids then s.goto p (.waitKilled addr)
    else { s with waitLock := none }.leave p .error)

def Sys.kill (s : Sys) (p : Slot) (pid : Int) (i : Nat) : Option Sys :=
  if h : i < nproc then
    let q : Slot := ⟨i,h⟩
    if s.lock q then none
    else if s.pid q=pid then
      some ({ s with
        killed := update s.killed q true
        state := if s.state q=ProcState.sleeping then update s.state q .runnable else s.state }.leave
          p (.ok 0 none))
    else some (s.goto p (.kill pid (i+1)))
  else some (s.leave p .error)

/-- The next step of a process in the kernel. A step that starts with an
acquisition waits until the lock is free. -/
def Sys.advance (s : Sys) (p : Slot) (ok : Bool) : Option Sys :=
  match s.pc p with
  | .user | .exited | .asleep _ => none
  | .allocproc i => s.allocproc p i ok
  | .forkParent np pid =>
      if s.waitLock=none then
        some ({ s with parent := update s.parent np (some p) }.goto p (.forkStart np pid))
      else none
  | .forkStart np pid =>
      if s.lock np then none
      else some ({ s with state := update s.state np .runnable }.leave p (.ok pid none))
  | .exit status =>
      if s.waitLock=none then
        some ({ s with waitLock := some p }.goto p (.reparent status 0))
      else none
  | .reparent status i => some (s.reparent p status i)
  | .reparentWakeup status i j =>
      if h : j < nproc then
        (s.wakeup p (some initproc) ⟨j,h⟩).map (·.goto p (.reparentWakeup status i (j+1)))
      else some (s.goto p (.reparent status (i+1)))
  | .exitWakeup status chan j =>
      if h : j < nproc then
        (s.wakeup p chan ⟨j,h⟩).map (·.goto p (.exitWakeup status chan (j+1)))
      else some (s.goto p (.exitZombie status))
  | .exitZombie status =>
      if s.lock p then none
      else some ({ s with
        xstate := update s.xstate p status
        state := update s.state p .zombie
        waitLock := none
        lock := update s.lock p true }.goto p .exited)
  | .wait addr =>
      if s.waitLock=none then
        some ({ s with waitLock := some p }.goto p (.waitScan addr 0 false))
      else none
  | .waitScan addr i havekids => s.waitScan p addr i havekids ok
  | .waitKilled addr =>
      if s.lock p then none
      else some (if s.killed p then { s with waitLock := none }.leave p .error
        else s.goto p (.waitSleep addr))
  | .waitSleep addr =>
      if s.lock p then none
      else some ({ s with
        waitLock := none
        chan := update s.chan p (some p)
        state := update s.state p .sleeping
        lock := update s.lock p true }.goto p (.asleep addr))
  | .kill pid i => s.kill p pid i

def Call.entry : Call → Pc
  | .fork => .allocproc 0
  | .exit status => .exit status
  | .wait addr => .wait addr
  | .kill pid => .kill pid 0

def Call.exits : Call → Bool
  | .exit _ => true
  | .fork | .wait _ | .kill _ => false

/-- A process that the scheduler switches to releases its own lock; in `sleep` it
first clears `chan`, and goes on to acquire `wait_lock` again. -/
def Sys.resume (s : Sys) (p : Slot) : Sys :=
  match s.pc p with
  | .asleep addr => { s with chan := update s.chan p none }.goto p (.wait addr)
  | _ => s

inductive Label where
  | syscall (p : Slot) (c : Call)
  | run (p : Slot) (ok : Bool)
  | schedule (p : Slot)
  | switched (p : Slot)
  | yield (p : Slot)
deriving DecidableEq, Repr

def step (s : Sys) (l : Label) : Option Sys :=
  if s.panicked then none
  else
    match l with
    | .syscall p c =>
        if s.state p=.running ∧ s.pc p=.user then
          -- panic("init exiting")
          if p=initproc ∧ c.exits then some { s with panicked := true }
          else some (s.goto p c.entry)
        else none
    | .run p ok => if s.state p=.running then s.advance p ok else none
    | .schedule p =>
        if s.lock p=false ∧ s.state p=.runnable then
          some ({ s with state := update s.state p .running }.resume p)
        else none
    | .switched p =>
        if s.lock p then some { s with lock := update s.lock p false } else none
    | .yield p =>
        if s.state p=.running ∧ s.lock p=false ∧ s.waitLock≠some p then
          some { s with
            state := update s.state p .runnable
            lock := update s.lock p true }
        else none

end Xv6.Proc
