import Xv6.Param
import Xv6.Machine
import Mathlib.Data.Finset.Basic
import Mathlib.Data.List.FinRange

/-! The inode table of `kernel/fs.c`: `iget`, `idup`, `ilock`, `iunlock`, `iput`, `ialloc` and
`iupdate`, with `itable.lock`, the sleep-locks and the dinodes on disk, for any number of
processes. A step is one access to memory that another process can notice; the block of a
dinode is read and written under the lock of its buffer, so that is one step. A process
uses, locks, unlocks and puts only references that it has. A reference can be shared by
several processes, as that of an open file is, and is put by the last of them. -/
namespace Xv6.InodeTable
open Function Xv6.Machine

abbrev Entry : Type := Fin ninode

structure Dinode where
  type : Int
  major : Int
  minor : Int
  nlink : Int
  size : Nat
  addrs : List Nat
deriving DecidableEq, Repr

abbrev Key : Type := Nat × Nat

def noAddrs : List Nat := List.replicate 13 0

inductive Pc where
  | idle
  | igetAcquire (k : Key)
  | iget (k : Key)
  | idupAcquire (e : Entry)
  | idup (e : Entry)
  /-- `release(&itable.lock)` and return. -/
  | tableRelease
  | ilock (e : Entry)
  | ilockSleep (e : Entry)
  | ilockTest (e : Entry)
  | ilockRead (e : Entry)
  | ilockValid (e : Entry)
  | ilockCheck (e : Entry)
  | iputAcquire (e : Entry)
  | iput (e : Entry)
  /-- The freeing branch: `acquiresleep`, and what follows it up to `releasesleep`. -/
  | iputSleep (e : Entry)
  | iputRelease (e : Entry)
  | itrunc (e : Entry)
  | itruncUpdate (e : Entry)
  | iputType (e : Entry)
  | iputUpdate (e : Entry)
  | iputInvalid (e : Entry)
  | iputWake (e : Entry)
  | iputReacquire (e : Entry)
  | iputDrop (e : Entry)
  | ialloc (dev : Nat) (type : Int) (inum : Nat)
deriving DecidableEq, Repr

/-- References to entries, each with the processes that share it. -/
abbrev Refs (P : Type) : Type := List (Entry × Finset P)

section Machine
variable {P : Type} [DecidableEq P]

def shares (refs : Refs P) (p : P) (e : Entry) : Nat :=
  refs.countP fun r => r.1=e ∧ p∈r.2

structure Sys (P : Type) where
  tableLock : Option P
  ref : Entry → Nat
  key : Entry → Key
  valid : Entry → Bool
  /-- The fields of the entry that are copied from the disk. -/
  copy : Entry → Dinode
  sleepLock : Entry → Option P
  disk : Key → Dinode
  /-- `sb.ninodes`. -/
  ninodes : Nat
  pc : P → Pc
  refs : Refs P
  /-- The entry was changed after the last `iupdate`. -/
  changed : Entry → Bool
  panicked : Bool

def start (disk : Key → Dinode) (ninodes : Nat) : Sys P where
  tableLock := none
  ref := fun _ => 0
  key := fun _ => (0, 0)
  valid := fun _ => false
  copy := fun _ => ⟨0,0,0,0,0,noAddrs⟩
  sleepLock := fun _ => none
  disk := disk
  ninodes := ninodes
  pc := fun _ => .idle
  refs := []
  changed := fun _ => false
  panicked := false

def Sys.goto (s : Sys P) (p : P) (k : Pc) : Sys P := { s with pc := update s.pc p k }

def Sys.acquire (s : Sys P) (p : P) (k : Pc) : Option (Sys P) :=
  if s.tableLock=none then some ({ s with tableLock := some p }.goto p k) else none

def Sys.acquiresleep (s : Sys P) (p : P) (e : Entry) (k : Pc) : Option (Sys P) :=
  if s.sleepLock e=none then
    some ({ s with sleepLock := update s.sleepLock e (some p) }.goto p k)
  else none

def Sys.iupdate (s : Sys P) (e : Entry) : Sys P :=
  { s with disk := update s.disk (s.key e) (s.copy e), changed := update s.changed e false }

/-- The loop of `iget`: the entry of the inode, or else the first that is empty. -/
def Sys.lookup (s : Sys P) (k : Key) : Option Entry :=
  (List.finRange ninode).find? fun e => 0 < s.ref e ∧ s.key e=k

def Sys.empty (s : Sys P) : Option Entry := (List.finRange ninode).find? fun e => s.ref e=0

def Sys.advance (s : Sys P) (p : P) : Option (Sys P) :=
  match s.pc p with
  | .idle => none
  | .igetAcquire k => s.acquire p (.iget k)
  | .iget k =>
      match s.lookup k with
      | some e =>
          some ({ s with
            ref := update s.ref e (s.ref e+1)
            refs := (e, {p}) :: s.refs }.goto p .tableRelease)
      | none =>
          match s.empty with
          | none => some { s with panicked := true }
          | some e =>
              some ({ s with
                key := update s.key e k
                ref := update s.ref e 1
                valid := update s.valid e false
                refs := (e, {p}) :: s.refs }.goto p .tableRelease)
  | .idupAcquire e => s.acquire p (.idup e)
  | .idup e =>
      some ({ s with
        ref := update s.ref e (s.ref e+1)
        refs := (e, {p}) :: s.refs }.goto p .tableRelease)
  | .tableRelease => some ({ s with tableLock := none }.goto p .idle)
  | .ilock e =>
      if s.ref e < 1 then some { s with panicked := true } else some (s.goto p (.ilockSleep e))
  | .ilockSleep e => s.acquiresleep p e (.ilockTest e)
  | .ilockTest e => some (s.goto p (if s.valid e then .idle else .ilockRead e))
  | .ilockRead e =>
      some ({ s with copy := update s.copy e (s.disk (s.key e)) }.goto p (.ilockValid e))
  | .ilockValid e => some ({ s with valid := update s.valid e true }.goto p (.ilockCheck e))
  | .ilockCheck e =>
      if (s.copy e).type=0 then some { s with panicked := true } else some (s.goto p .idle)
  | .iputAcquire e => s.acquire p (.iput e)
  | .iput e =>
      some (s.goto p (if s.ref e=1 ∧ s.valid e ∧ (s.copy e).nlink=0 then .iputSleep e
        else .iputDrop e))
  | .iputSleep e => s.acquiresleep p e (.iputRelease e)
  | .iputRelease e => some ({ s with tableLock := none }.goto p (.itrunc e))
  | .itrunc e =>
      some ({ s with
        copy := update s.copy e { s.copy e with size := 0, addrs := noAddrs }
        changed := update s.changed e true }.goto p (.itruncUpdate e))
  | .itruncUpdate e => some ((s.iupdate e).goto p (.iputType e))
  | .iputType e =>
      some ({ s with
        copy := update s.copy e { s.copy e with type := 0 }
        changed := update s.changed e true }.goto p (.iputUpdate e))
  | .iputUpdate e => some ((s.iupdate e).goto p (.iputInvalid e))
  | .iputInvalid e => some ({ s with valid := update s.valid e false }.goto p (.iputWake e))
  | .iputWake e =>
      some ({ s with sleepLock := update s.sleepLock e none }.goto p (.iputReacquire e))
  | .iputReacquire e => s.acquire p (.iputDrop e)
  | .iputDrop e =>
      some ({ s with
        ref := update s.ref e (s.ref e-1)
        refs := s.refs.erase (e, {p}) }.goto p .tableRelease)
  | .ialloc dev type inum =>
      if inum < s.ninodes then
        if (s.disk (dev, inum)).type=0 then
          some ({ s with
            disk := update s.disk (dev, inum) ⟨type,0,0,0,0,noAddrs⟩ }.goto p
              (.igetAcquire (dev, inum)))
        else some (s.goto p (.ialloc dev type (inum+1)))
      else some (s.goto p .idle)

inductive Call where
  | iget (k : Key)
  | idup (e : Entry)
  | ilock (e : Entry)
  | iput (e : Entry)
  | ialloc (dev : Nat) (type : Int)
deriving DecidableEq, Repr

def Call.entry : Call → Pc
  | .iget k => .igetAcquire k
  | .idup e => .idupAcquire e
  | .ilock e => .ilock e
  | .iput e => .iputAcquire e
  | .ialloc dev type => .ialloc dev type 1

/-- The process has what it calls the function with. The reference that `iput` drops is
shared with no other process, and it is not the one with which the process holds the lock. -/
def Sys.Allows (s : Sys P) (p : P) : Call → Prop
  | .iget _ | .ialloc _ _ => True
  | .idup e | .ilock e => 0 < shares s.refs p e
  | .iput e => (e, {p})∈s.refs ∧ (s.sleepLock e=some p → 2 ≤ shares s.refs p e)

instance Sys.Allows.decidable (s : Sys P) (p : P) : ∀ c, Decidable (s.Allows p c)
  | .iget _ => inferInstanceAs (Decidable True)
  | .ialloc _ _ => inferInstanceAs (Decidable True)
  | .idup e => inferInstanceAs (Decidable (0 < shares s.refs p e))
  | .ilock e => inferInstanceAs (Decidable (0 < shares s.refs p e))
  | .iput e => inferInstanceAs
      (Decidable ((e, {p})∈s.refs ∧ (s.sleepLock e=some p → 2 ≤ shares s.refs p e)))

inductive Label (P : Type) where
  | call (p : P) (c : Call)
  | run (p : P)
  | iunlock (p : P) (e : Entry)
  /-- The holder of the sleep-lock changes the entry, but not its type: only `iput` does. -/
  | change (p : P) (e : Entry) (d : Dinode)
  | iupdate (p : P) (e : Entry)
  /-- A reference gets one more process, or loses one that is not the last. -/
  | share (p q : P) (r : Entry × Finset P)
  | unshare (p : P) (r : Entry × Finset P)

def step (s : Sys P) (l : Label P) : Option (Sys P) :=
  if s.panicked then none
  else
    match l with
    | .call p c => if s.pc p=.idle ∧ s.Allows p c then some (s.goto p c.entry) else none
    | .run p => s.advance p
    | .iunlock p e =>
        if s.pc p=.idle ∧ s.sleepLock e=some p ∧ s.changed e=false then
          if s.ref e < 1 then some { s with panicked := true }
          else some { s with sleepLock := update s.sleepLock e none }
        else none
    | .change p e d =>
        if s.pc p=.idle ∧ s.sleepLock e=some p then
          some { s with
            copy := update s.copy e { d with type := (s.copy e).type }
            changed := update s.changed e true }
        else none
    | .iupdate p e =>
        if s.pc p=.idle ∧ s.sleepLock e=some p then some (s.iupdate e) else none
    | .share p q r =>
        if s.pc p=.idle ∧ r∈s.refs ∧ p∈r.2 then
          some { s with refs := (r.1, insert q r.2) :: s.refs.erase r }
        else none
    | .unshare p r =>
        if s.pc p=.idle ∧ r∈s.refs ∧ p∈r.2 ∧ r.2 ≠ {p} ∧
            (s.sleepLock r.1=some p → 2 ≤ shares s.refs p r.1) then
          some { s with refs := (r.1, r.2.erase p) :: s.refs.erase r }
        else none

end Machine

end Xv6.InodeTable
