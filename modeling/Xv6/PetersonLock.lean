import Xv6.Machine
import Mathlib.Algebra.Group.Nat.Defs
import Mathlib.Tactic.SplitIfs

/-! The kernel's Peterson locks, `kernel/petersonlock.c`. Every read or write of
the lock table is one atomic step, so a system call is a program counter that
moves from access to access, and any number of processes take turns. -/
namespace Xv6.PetersonLock
open Function Xv6.Machine
variable {P : Type*} [DecidableEq P]

def maxPetersonLocks : Int := 15

/-- Kernel memory in ints, counted from the start of `peterson_locks`: entry `i`
is the ints `active`, `flag[0]`, `flag[1]`, `turn` from address `4*i` on. Every
address is an int of some kernel object, inside the table or not. -/
abbrev Mem := Int → Int

def activeAddr (lockId : Int) : Int := 4*lockId
def flagAddr (lockId role : Int) : Int := 4*lockId+1+role
def turnAddr (lockId : Int) : Int := 4*lockId+3

/-- `int other = 1 - role` in 32 bits. -/
def other (role : Int) : Int := Int.bmod (1-role) (2 ^ 32)

/-- `argint`: the low 32 bits of an argument register, read as a signed int. -/
def argint (raw : BitVec 64) : Int := (raw.setWidth 32).toInt

inductive Access where
  | load (addr : Int)
  | store (addr val : Int)
  | testAndSet (addr val : Int)
  deriving DecidableEq

def Access.addr : Access → Int
  | .load a | .store a _ | .testAndSet a _ => a

def Access.value (m : Mem) : Access → Int
  | .load a | .testAndSet a _ => m a
  | .store _ _ => 0

def Access.perform (m : Mem) : Access → Mem
  | .load _ => m
  | .store a v | .testAndSet a v => update m a v

inductive Syscall where
  | create
  | acquire (lockId role : Int)
  | release (lockId role : Int)
  | destroy (lockId : Int)
  deriving DecidableEq

/-- What a process does next: nothing in the kernel, one of the accesses of
the four calls, or the return of a call with its value. -/
inductive Pc where
  | user
  | createTas (i : Int) | createFlag0 (i : Int) | createFlag1 (i : Int) | createTurn (i : Int)
  | acquireCheck (lockId role : Int) | acquireFlag (lockId role : Int)
  | acquireTurn (lockId role : Int)
  | waitFlag (lockId role : Int) | waitTurn (lockId role : Int)
  | releaseCheck (lockId role : Int) | releaseFlag (lockId role : Int)
  | destroyCheck (lockId : Int) | destroyClear (lockId : Int)
  | ret (call : Syscall) (value : Int)
  deriving DecidableEq

def outOfRange (lockId : Int) : Bool := lockId < 0 || maxPetersonLocks ≤ lockId

/-- The first access of a call. The range test on `lock_id` comes before any. -/
def Syscall.entry : Syscall → Pc
  | .create => .createTas 0
  | .acquire lockId role =>
      if outOfRange lockId then .ret (.acquire lockId role) (-1) else .acquireCheck lockId role
  | .release lockId role =>
      if outOfRange lockId then .ret (.release lockId role) (-1) else .releaseCheck lockId role
  | .destroy lockId =>
      if outOfRange lockId then .ret (.destroy lockId) (-1) else .destroyCheck lockId

def sysPetersonAcquire (a0 a1 : BitVec 64) : Syscall := .acquire (argint a0) (argint a1)
def sysPetersonRelease (a0 a1 : BitVec 64) : Syscall := .release (argint a0) (argint a1)
def sysPetersonDestroy (a0 : BitVec 64) : Syscall := .destroy (argint a0)

def Pc.access : Pc → Option Access
  | .user | .ret _ _ => none
  | .createTas i => some (.testAndSet (activeAddr i) 1)
  | .createFlag0 i => some (.store (flagAddr i 0) 0)
  | .createFlag1 i => some (.store (flagAddr i 1) 0)
  | .createTurn i => some (.store (turnAddr i) 0)
  | .acquireCheck lockId _ => some (.load (activeAddr lockId))
  | .acquireFlag lockId role => some (.store (flagAddr lockId role) 1)
  | .acquireTurn lockId role => some (.store (turnAddr lockId) (other role))
  | .waitFlag lockId role => some (.load (flagAddr lockId (other role)))
  | .waitTurn lockId _ => some (.load (turnAddr lockId))
  | .releaseCheck lockId _ => some (.load (activeAddr lockId))
  | .releaseFlag lockId role => some (.store (flagAddr lockId role) 0)
  | .destroyCheck lockId => some (.load (activeAddr lockId))
  | .destroyClear lockId => some (.store (activeAddr lockId) 0)

/-- Where the code goes after its access, given the value it got back. The
fences need no step of their own: the accesses are sequentially consistent. -/
def Pc.next : Pc → Int → Pc
  | .createTas i, v =>
      if v=0 then .createFlag0 i
      else if i+1 < maxPetersonLocks then .createTas (i+1) else .ret .create (-1)
  | .createFlag0 i, _ => .createFlag1 i
  | .createFlag1 i, _ => .createTurn i
  | .createTurn i, _ => .ret .create i
  | .acquireCheck lockId role, v =>
      if v=0 then .ret (.acquire lockId role) (-1) else .acquireFlag lockId role
  | .acquireFlag lockId role, _ => .acquireTurn lockId role
  | .acquireTurn lockId role, _ => .waitFlag lockId role
  | .waitFlag lockId role, v =>
      if v=0 then .ret (.acquire lockId role) 0 else .waitTurn lockId role
  | .waitTurn lockId role, v =>
      -- the loop body only yields, then the guard is read again from its start
      if v=other role then .waitFlag lockId role else .ret (.acquire lockId role) 0
  | .releaseCheck lockId role, v =>
      if v=0 then .ret (.release lockId role) (-1) else .releaseFlag lockId role
  | .releaseFlag lockId role, _ => .ret (.release lockId role) 0
  | .destroyCheck lockId, v =>
      if v=0 then .ret (.destroy lockId) (-1) else .destroyClear lockId
  | .destroyClear lockId, _ => .ret (.destroy lockId) 0
  | .user, _ => .user
  | .ret c v, _ => .ret c v

structure Sys (P : Type*) where
  mem : Mem
  pc : P → Pc

def Sys.setPc (s : Sys P) (p : P) (pc : Pc) : Sys P :=
  { s with pc := update s.pc p pc }

def Sys.setMem (s : Sys P) (m : Mem) : Sys P := { s with mem := m }

@[simp] theorem Sys.setPc_mem (s : Sys P) (p : P) (pc : Pc) : (s.setPc p pc).mem=s.mem := rfl
@[simp] theorem Sys.setPc_pc (s : Sys P) (p : P) (pc : Pc) (q : P) :
    (s.setPc p pc).pc q = if q=p then pc else s.pc q := by
  simp [Sys.setPc,update_apply]
omit [DecidableEq P] in
@[simp] theorem Sys.setMem_mem (s : Sys P) (m : Mem) : (s.setMem m).mem=m := rfl
omit [DecidableEq P] in
@[simp] theorem Sys.setMem_pc (s : Sys P) (m : Mem) (q : P) : (s.setMem m).pc q=s.pc q := rfl

@[simp] theorem Sys.setPc_setPc (s : Sys P) (p : P) (pc pc' : Pc) :
    (s.setPc p pc).setPc p pc'=s.setPc p pc' := by
  simp [Sys.setPc]
@[simp] theorem Sys.setMem_setPc (s : Sys P) (p : P) (pc : Pc) (m : Mem) :
    (s.setPc p pc).setMem m=(s.setMem m).setPc p pc := rfl

omit [DecidableEq P] in
@[simp] theorem Sys.setMem_setMem (s : Sys P) (m m' : Mem) :
    (s.setMem m).setMem m'=s.setMem m' := rfl

inductive Label (P : Type*) where
  | call (p : P) (c : Syscall)
  | access (p : P)
  | ret (p : P) (c : Syscall) (value : Int)
  deriving DecidableEq

/-- A process in user mode may make any call; a process in a call makes its next
access or, at the end, returns. -/
def step (s : Sys P) : Label P → Option (Sys P)
  | .call p c => if s.pc p=.user then some (s.setPc p c.entry) else none
  | .access p =>
      (s.pc p).access.map fun a =>
        (s.setMem (a.perform s.mem)).setPc p ((s.pc p).next (a.value s.mem))
  | .ret p c v => if s.pc p=.ret c v then some (s.setPc p .user) else none

/-- A process is in the wait loop of acquire and its guard
`flag[other] && turn == other` holds. -/
def GuardHolds (s : Sys P) (p : P) (lockId role : Int) : Prop :=
  (s.pc p=.waitFlag lockId role ∨ s.pc p=.waitTurn lockId role) ∧
    s.mem (flagAddr lockId (other role))≠0 ∧ s.mem (turnAddr lockId)=other role

theorem step_call {s t : Sys P} {p : P} {c : Syscall} :
    step s (.call p c)=some t ↔ s.pc p=.user ∧ t=s.setPc p c.entry := by
  simp [step,eq_comm]

theorem step_access {s t : Sys P} {p : P} :
    step s (.access p)=some t ↔ ∃ a, (s.pc p).access=some a ∧
      t=(s.setMem (a.perform s.mem)).setPc p ((s.pc p).next (a.value s.mem)) := by
  simp only [step,Option.map_eq_some_iff]
  exact exists_congr fun a => and_congr_right fun _ => eq_comm

theorem step_ret {s t : Sys P} {p : P} {c : Syscall} {v : Int} :
    step s (.ret p c v)=some t ↔ s.pc p=.ret c v ∧ t=s.setPc p .user := by
  simp [step,eq_comm]

theorem step_access_setPc (s : Sys P) (p : P) (pc : Pc) {a : Access} (h : pc.access=some a) :
    step (s.setPc p pc) (.access p) =
      some ((s.setMem (a.perform s.mem)).setPc p (pc.next (a.value s.mem))) := by
  simp [step,h]

def Label.proc : Label P → P
  | .call p _ | .access p | .ret p _ _ => p

theorem step_pc_other {s t : Sys P} {l : Label P} (h : step s l=some t) {q : P}
    (hq : q≠l.proc) : t.pc q=s.pc q := by
  cases l with
  | call p c =>
    obtain ⟨-,rfl⟩ := step_call.mp h
    simp_all [Label.proc]
  | access p =>
    obtain ⟨a,-,rfl⟩ := step_access.mp h
    simp_all [Label.proc]
  | ret p c v =>
    obtain ⟨-,rfl⟩ := step_ret.mp h
    simp_all [Label.proc]

@[simp] theorem other_zero : other 0=1 := by decide
@[simp] theorem other_one : other 1=0 := by decide

end Xv6.PetersonLock
