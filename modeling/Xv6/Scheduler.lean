import Xv6.Proc

/-! The scheduler of `kernel/proc.c` with any number of CPUs. A CPU has registers of its
own, which are a stack and a place in the code with the locals kept in registers;
`swtch` stores them in one `struct context` and loads them from another, so which
process a CPU executes is what the loaded context says. A step is one statement of the
scheduler, of `yield`, `sleep`, `wakeup`, `kill`, `exit`, `fork` or `wait` that other
CPUs can notice. The locks other than `p->lock` are left out. -/
namespace Xv6.Scheduler
open Function Xv6.Machine Xv6.Proc

/-- The places of a process that holds no `p->lock`: outside the modelled functions, or
about to acquire one, in a loop over the table that of slot `i`. -/
inductive Free where
  | outside
  | sleep (chan : Nat)
  | wakeup (chan i : Nat)
  | kill (pid i : Nat)
  | exit
  | allocproc (i : Nat)
  | forkStart
  | wait (i : Nat)
deriving DecidableEq, Repr

def Free.entry : Free → Bool
  | .sleep _ | .exit | .wakeup _ 0 | .kill _ 0 | .allocproc 0 | .wait 0 => true
  | _ => false

/-- What a process does with the `p->lock` it has acquired. -/
inductive Work where
  | yield (f : Free)
  | sleep (chan : Nat)
  | exit
  | wakeup (chan : Nat)
  | kill (pid : Nat)
  | allocproc
  /-- `allocproc` has found a slot, and `fork` fills it. -/
  | filled
  | forkStart
  | wait
deriving DecidableEq, Repr

inductive Return where
  | yield (f : Free)
  | sleep
  | exit
deriving DecidableEq, Repr

inductive Pc where
  /-- `acquire(&p->lock)` in `scheduler`, and what follows it there. -/
  | scan (i : Nat)
  | check (p : Slot)
  | setProc (p : Slot)
  | swtch (p : Slot)
  | clearProc (p : Slot)
  | release (p : Slot)
  | free (f : Free)
  | hold (q : Slot) (w : Work)
  /-- `sched`, called by `p` with `p->lock`. -/
  | sched (p : Slot) (k : Return)
  /-- `swtch` has returned in `sched`. -/
  | resumed (p : Slot) (k : Return)
  | unlock (q : Slot) (f : Free)
  | forkret
  | panicked
deriving DecidableEq, Repr

section Machine
variable {κ : Type}

/-- The stack of a CPU that it boots with, or the kernel stack of a process. -/
inductive Stack (κ : Type) where
  | boot (c : κ)
  | kstack (p : Slot)
deriving DecidableEq, Repr

/-- The registers that `swtch` saves. -/
structure Context (κ : Type) where
  sp : Stack κ
  ra : Pc
deriving DecidableEq, Repr

structure Cpu (κ : Type) where
  proc : Option Slot
  context : Context κ
  regs : Context κ

/-- `np` is the local of `fork` on each kernel stack. `saved` records the registers of a
process at its last `swtch`, or those that `allocproc` makes up. -/
structure Sys (κ : Type) where
  state : Slot → ProcState
  chan : Slot → Nat
  pid : Slot → Nat
  killed : Slot → Bool
  lock : Slot → Option κ
  context : Slot → Context κ
  np : Slot → Option Slot
  nextpid : Nat
  cpu : κ → Cpu κ
  saved : Slot → Context κ

/-- Some processes, none of which has run, when each CPU enters `scheduler`. -/
def start (present : Slot → Bool) : Sys κ where
  state := fun p => if present p then .runnable else .unused
  chan := fun _ => 0
  pid := fun p => if present p then p+1 else 0
  killed := fun _ => false
  lock := fun _ => none
  context := fun p => ⟨.kstack p,.forkret⟩
  np := fun _ => none
  nextpid := nproc+1
  cpu := fun c => ⟨none,⟨.boot c,.scan 0⟩,⟨.boot c,.scan 0⟩⟩
  saved := fun p => ⟨.kstack p,.forkret⟩

variable [DecidableEq κ]

def Sys.setCpu (s : Sys κ) (c : κ) (k : Cpu κ) : Sys κ := { s with cpu := update s.cpu c k }

def Sys.goto (s : Sys κ) (c : κ) (pc : Pc) : Sys κ :=
  s.setCpu c { s.cpu c with regs := ⟨(s.cpu c).regs.sp,pc⟩ }

def Sys.setState (s : Sys κ) (p : Slot) (x : ProcState) : Sys κ :=
  { s with state := update s.state p x }

def Sys.acquire (s : Sys κ) (c : κ) (p : Slot) : Sys κ := { s with lock := update s.lock p (some c) }

def Sys.drop (s : Sys κ) (p : Slot) : Sys κ := { s with lock := update s.lock p none }

/-- `acquire(&q->lock)` for a process, which spins while the lock is held. -/
def Sys.lockFor (s : Sys κ) (c : κ) (q : Slot) (w : Work) : Option (Sys κ) :=
  if s.lock q=none then some ((s.acquire c q).goto c (.hold q w)) else none

/-- `c->proc = p`. -/
def Sys.setProc (s : Sys κ) (c : κ) (p : Option Slot) : Sys κ :=
  s.setCpu c { s.cpu c with proc := p }

/-- `swtch(&c->context, &p->context)` in `scheduler`. -/
def Sys.swtchTo (s : Sys κ) (c : κ) (p : Slot) : Sys κ :=
  s.setCpu c { s.cpu c with
    context := ⟨(s.cpu c).regs.sp,.clearProc p⟩
    regs := s.context p }

/-- `swtch(&p->context, &mycpu()->context)` in `sched`. -/
def Sys.swtchFrom (s : Sys κ) (c : κ) (p : Slot) (k : Return) : Sys κ :=
  let regs : Context κ := ⟨(s.cpu c).regs.sp,.resumed p k⟩
  { s with
    context := update s.context p regs
    saved := match regs.sp with
      | .boot _ => s.saved
      | .kstack q => update s.saved q regs }.setCpu c { s.cpu c with regs := (s.cpu c).context }

/-- The next statement at a place without a lock; `me` is `myproc()`. For `wait`, `ok`
says that slot `i` is a child. -/
def Sys.execFree (s : Sys κ) (c : κ) (me : Slot) (ok : Bool) : Free → Option (Sys κ)
  | .outside => none
  | .sleep chan => s.lockFor c me (.sleep chan)
  | .exit => s.lockFor c me .exit
  | .wakeup chan i =>
    if h : i < nproc then
      if ⟨i,h⟩=me then some (s.goto c (.free (.wakeup chan (i+1))))
      else s.lockFor c ⟨i,h⟩ (.wakeup chan)
    else some (s.goto c (.free .outside))
  | .kill pid i =>
    if h : i < nproc then s.lockFor c ⟨i,h⟩ (.kill pid) else some (s.goto c (.free .outside))
  | .allocproc i =>
    if h : i < nproc then s.lockFor c ⟨i,h⟩ .allocproc else some (s.goto c (.free .outside))
  | .forkStart =>
    match s.np me with
    | none => none
    | some np => s.lockFor c np .forkStart
  | .wait i =>
    if h : i < nproc then
      if ok then s.lockFor c ⟨i,h⟩ .wait else some (s.goto c (.free (.wait (i+1))))
    else some (s.goto c (.free .outside))

/-- What is done with `q->lock`; `me` is `myproc()`. `ok` says that the memory for a new
process is there, and in `wait` that `copyout` succeeds. -/
def Sys.execHold (s : Sys κ) (c : κ) (me q : Slot) (ok : Bool) : Work → Sys κ
  | .yield f => (s.setState q .runnable).goto c (.sched q (.yield f))
  | .sleep chan =>
    ({ s with chan := update s.chan q chan }.setState q .sleeping).goto c (.sched q .sleep)
  | .exit => (s.setState q .zombie).goto c (.sched q .exit)
  | .wakeup chan =>
    if s.state q=.sleeping ∧ s.chan q=chan then
      (s.setState q .runnable).goto c (.unlock q (.wakeup chan (q+1)))
    else s.goto c (.unlock q (.wakeup chan (q+1)))
  | .kill pid =>
    if s.pid q=pid then
      let s := { s with killed := update s.killed q true }
      if s.state q=.sleeping then (s.setState q .runnable).goto c (.unlock q .outside)
      else s.goto c (.unlock q .outside)
    else s.goto c (.unlock q (.kill pid (q+1)))
  | .allocproc =>
    if s.state q=.unused then
      ({ s with
        pid := update s.pid q s.nextpid
        nextpid := s.nextpid+1
        context := update s.context q ⟨.kstack q,.forkret⟩
        saved := update s.saved q ⟨.kstack q,.forkret⟩
        np := update s.np me (some q) }.setState q .used).goto c (.hold q .filled)
    else s.goto c (.unlock q (.allocproc (q+1)))
  | .filled =>
    if ok then s.goto c (.unlock q .forkStart)
    else
      ({ s with
        pid := update s.pid q 0
        chan := update s.chan q 0
        killed := update s.killed q false
        np := update s.np me none }.setState q .unused).goto c (.unlock q .outside)
  | .forkStart =>
    ({ s with np := update s.np me none }.setState q .runnable).goto c (.unlock q .outside)
  | .wait =>
    if s.state q=.zombie then
      if ok then
        ({ s with
          pid := update s.pid q 0
          chan := update s.chan q 0
          killed := update s.killed q false }.setState q .unused).goto c (.unlock q .outside)
      else s.goto c (.unlock q .outside)
    else s.goto c (.unlock q (.wait (q+1)))

def Sys.exec (s : Sys κ) (c : κ) (ok : Bool) : Option (Sys κ) :=
  match (s.cpu c).regs.ra with
  | .scan i =>
    if h : i < nproc then
      if s.lock ⟨i,h⟩=none then some ((s.acquire c ⟨i,h⟩).goto c (.check ⟨i,h⟩)) else none
    else some (s.goto c (.scan 0))
  | .check p =>
    if s.state p=.runnable then some ((s.setState p .running).goto c (.setProc p))
    else some (s.goto c (.release p))
  | .setProc p => some ((s.setProc c (some p)).goto c (.swtch p))
  | .swtch p => some (s.swtchTo c p)
  | .clearProc p => some ((s.setProc c none).goto c (.release p))
  | .release p => some ((s.drop p).goto c (.scan (p+1)))
  | .free f => (s.cpu c).proc.bind fun me => s.execFree c me ok f
  | .hold q w => (s.cpu c).proc.bind fun me => some (s.execHold c me q ok w)
  | .sched p k =>
    if s.lock p≠some c ∨ s.state p=.running then some (s.goto c .panicked)
    else some (s.swtchFrom c p k)
  | .resumed p (.yield f) => some ((s.drop p).goto c (.free f))
  | .resumed p .sleep =>
    some (({ s with chan := update s.chan p 0 }.drop p).goto c (.free .outside))
  | .resumed _ .exit => some (s.goto c .panicked)
  | .unlock q f => some ((s.drop q).goto c (.free f))
  | .forkret => (s.cpu c).proc.bind fun p => some ((s.drop p).goto c (.free .outside))
  | .panicked => none

inductive Label (κ : Type) where
  /-- The CPU executes its next statement. -/
  | exec (c : κ) (ok : Bool)
  /-- The process on the CPU enters a function. -/
  | call (c : κ) (f : Free)
  /-- The clock interrupts the process on the CPU, which acquires `p->lock` in `yield`. -/
  | yield (c : κ)
deriving DecidableEq, Repr

def step (s : Sys κ) : Label κ → Option (Sys κ)
  | .exec c ok => s.exec c ok
  | .call c f =>
    if (s.cpu c).regs.ra=.free .outside ∧ f.entry then some (s.goto c (.free f)) else none
  | .yield c =>
    match (s.cpu c).regs.ra with
    | .free f => (s.cpu c).proc.bind fun p => s.lockFor c p (.yield f)
    | _ => none

end Machine

end Xv6.Scheduler
