import Xv6.Ring
import Mathlib.Data.Fintype.Basic

/-! The buffer cache, `kernel/bio.c`, over the one disk of the machine. A
critical section under `bcache.lock`, taking or dropping a buffer's sleep-lock
and the transfer of one block are one atomic step each. `bread` and `brelse` are
sequences of such steps, and other processes run in between. -/
namespace Xv6.BufferCache
open Function Xv6.Ring
variable {P : Type*} [DecidableEq P]

/-- `NBUF` -/
def nbuf : Nat := 30

/-- The ints a block holds, `BSIZE / sizeof(int)`. -/
def blockInts : Nat := 256

abbrev Data := Fin blockInts → Nat

abbrev Buf := Fin nbuf

inductive Panic where
  | bgetNoBuffers
  | bwrite
  | brelse
  | tooBigATransaction
  | logWriteOutsideOfTrans
  | logCommitting
  deriving DecidableEq

inductive Call where
  | idle
  | bget (dev blockno : Nat)
  | acquiresleep (b : Buf)
  | fill (b : Buf)
  | releasesleep (b : Buf)
  | unref (b : Buf)
  deriving DecidableEq

/-- The disk, the fields of the buffers, and for each process where it is in the
code of the cache and which buffers `bread` has given it, the latest first. The
sleep-lock of a buffer names the process that holds it. -/
structure Bio (P : Type*) where
  disk : Nat → Data
  valid : Buf → Bool
  dev : Buf → Nat
  blockno : Buf → Nat
  lock : Buf → Option P
  refcnt : Buf → Nat
  data : Buf → Data
  links : Links Buf
  call : P → Call
  held : P → List Buf

namespace Bio

/-- The cache in zeroed memory after `binit`. -/
def binit (disk : Nat → Data) : Bio P where
  disk := disk
  valid _ := false
  dev _ := 0
  blockno _ := 0
  lock _ := none
  refcnt _ := 0
  data _ _ := 0
  links := (List.finRange nbuf).foldl Links.link Links.empty
  call _ := .idle
  held _ := []

/-- The first loop of `bget`, from the most recently used buffer. -/
def lookup (s : Bio P) (dev blockno : Nat) : Option Buf :=
  walk s.links.next (fun b => s.dev b == dev && s.blockno b == blockno) nbuf (s.links.next none)

/-- The second loop of `bget`, from the least recently used buffer. -/
def victim (s : Bio P) : Option Buf :=
  walk s.links.prev (fun b => s.refcnt b == 0) nbuf (s.links.prev none)

def setCall (s : Bio P) (p : P) (c : Call) : Bio P := { s with call := update s.call p c }

/-- `bget` up to its call of `acquiresleep`. -/
def bget (s : Bio P) (p : P) (dev blockno : Nat) : Except Panic (Bio P) :=
  match s.lookup dev blockno with
  | some b =>
      .ok ({ s with refcnt := update s.refcnt b (s.refcnt b+1) }.setCall p (.acquiresleep b))
  | none =>
      match s.victim with
      | some b =>
          .ok ({ s with
            dev := update s.dev b dev
            blockno := update s.blockno b blockno
            valid := update s.valid b false
            refcnt := update s.refcnt b 1 }.setCall p (.acquiresleep b))
      | none => .error .bgetNoBuffers

/-- `acquiresleep`; a process asleep on the lock has no step. -/
def acquiresleep (s : Bio P) (p : P) (b : Buf) : Option (Bio P) :=
  if s.lock b=none then
    some ({ s with lock := update s.lock b (some p) }.setCall p (.fill b))
  else none

/-- `bread` once it has the lock: it reads the block if need be and returns. -/
def fill (s : Bio P) (p : P) (b : Buf) : Bio P :=
  let s := if s.valid b then s else
    { s with data := update s.data b (s.disk (s.blockno b)), valid := update s.valid b true }
  { s with call := update s.call p .idle, held := update s.held p (b :: s.held p) }

def holdingsleep (s : Bio P) (p : P) (b : Buf) : Bool := s.lock b == some p

/-- `brelse` up to and with `releasesleep`. -/
def releasesleep (s : Bio P) (p : P) (b : Buf) : Except Panic (Bio P) :=
  if s.holdingsleep p b then
    .ok ({ s with lock := update s.lock b none }.setCall p (.unref b))
  else .error .brelse

/-- The critical section of `brelse`. -/
def unref (s : Bio P) (p : P) (b : Buf) : Bio P :=
  { s with
    refcnt := update s.refcnt b (s.refcnt b-1)
    links := if s.refcnt b-1=0 then (s.links.unlink b).link b else s.links }.setCall p .idle

def advance (s : Bio P) (p : P) : Option (Except Panic (Bio P)) :=
  match s.call p with
  | .idle => none
  | .bget dev blockno => some (s.bget p dev blockno)
  | .acquiresleep b => (s.acquiresleep p b).map .ok
  | .fill b => some (.ok (s.fill p b))
  | .releasesleep b => some (s.releasesleep p b)
  | .unref b => some (.ok (s.unref p b))

def bread (s : Bio P) (p : P) (dev blockno : Nat) : Bio P := s.setCall p (.bget dev blockno)

def brelse (s : Bio P) (p : P) (b : Buf) : Bio P :=
  { s with held := update s.held p ((s.held p).erase b) }.setCall p (.releasesleep b)

/-- `bwrite`: `virtio_disk_rw` looks at the block number only. -/
def bwrite (s : Bio P) (p : P) (b : Buf) : Except Panic (Bio P) :=
  if s.holdingsleep p b then .ok { s with disk := update s.disk (s.blockno b) (s.data b) }
  else .error .bwrite

def setData (s : Bio P) (b : Buf) (d : Data) : Bio P := { s with data := update s.data b d }

def bpin (s : Bio P) (b : Buf) : Bio P := { s with refcnt := update s.refcnt b (s.refcnt b+1) }

def bunpin (s : Bio P) (b : Buf) : Bio P := { s with refcnt := update s.refcnt b (s.refcnt b-1) }

/-- The contents of a block as a process that reads it through the cache finds
them: those of its buffer, or those on the disk. -/
def contents (s : Bio P) (dev x : Nat) : Data :=
  match (List.finRange nbuf).find? (fun b => s.valid b && s.dev b == dev && s.blockno b == x) with
  | some b => s.data b
  | none => s.disk x

end Bio
end Xv6.BufferCache
