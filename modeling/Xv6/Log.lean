import Xv6.Machine
import Xv6.BufferCache
import Xv6.RedoLog

/-! The log of `kernel/log.c` on top of the buffer cache, and the machine that
runs it: any number of processes in file system code that takes and gives back
buffers, changes them, and brackets its changes by `begin_op` and `end_op`, a
commit by whoever ends the last operation, and a crash at any time, after which
the first process recovers from the log before any other runs. A critical
section under `log.lock` is one step. -/
namespace Xv6.Log
open Function Xv6.Machine Xv6.BufferCache
variable {P : Type*} [DecidableEq P]

/-- `MAXOPBLOCKS` -/
def maxOpBlocks : Int := 10

/-- `LOGSIZE` -/
def logSize : Nat := 30

/-- What `initlog` is called with, and the process that calls it: the device, the
first block of the log and the number of its blocks, header included. -/
structure Mount (P : Type*) where
  dev : Nat
  start : Nat
  size : Nat
  initproc : P
  dev_ne : dev≠0
  size_pos : 0 < size

def Mount.Home (M : Mount P) (x : Nat) : Prop := x < M.start ∨ M.start+M.size ≤ x

instance (M : Mount P) (x : Nat) : Decidable (M.Home x) :=
  inferInstanceAs (Decidable (x < M.start ∨ M.start+M.size ≤ x))

def Mount.slot (M : Mount P) (tail : Nat) : Nat := M.start+tail+1

def int (d : Data) (i : Nat) : Nat := if h : i < blockInts then d ⟨i,h⟩ else 0

/-- The block as a `struct logheader`: `n` and then `block[0]` to `block[n-1]`,
which `read_head` copies. -/
def headerOf (d : Data) : List Nat := (List.range (int d 0)).map fun i => int d (i+1)

/-- The assignments of `write_head` to the header block; its other ints stay. -/
def putHeader (d : Data) (lh : List Nat) : Data := fun w =>
  if w.val=0 then lh.length else lh.getD (w.val-1) (d w)

theorem headerOf_putHeader (d : Data) {lh : List Nat} (h : lh.length < blockInts) :
    headerOf (putHeader d lh)=lh := by
  have hn : int (putHeader d lh) 0=lh.length := by simp [int,putHeader,blockInts]
  refine List.ext_getElem (by simp [headerOf,hn]) fun i hi hi' => ?_
  have hlt : i+1 < blockInts := by omega
  simp [headerOf,int,hlt,putHeader,hi']

/-- The two loops that copy blocks between the log and their home: from the
cache to the log, and from the log to home at a commit or a recovery. -/
inductive Copy where
  | writeLog
  | installTrans (recovering : Bool)
  deriving DecidableEq

/-- Of the log block `l` and the home block `d` in the body of the loop, the one
that `memmove` reads, -/
def Copy.src : Copy → Buf → Buf → Buf
  | .writeLog, _, d => d
  | .installTrans _, l, _ => l

/-- and the one it writes. -/
def Copy.dst : Copy → Buf → Buf → Buf
  | .writeLog, l, _ => l
  | .installTrans _, _, d => d

/-- Where a process is in the body of such a loop: at the test, in `bread` of
the log block, in `bread` of the home block, before `bwrite`, after it, and past
the first `brelse`. -/
inductive Stage where
  | test
  | first
  | second (l : Buf)
  | write (l d : Buf)
  | written (l d : Buf)
  | release (b : Buf)
  deriving DecidableEq

/-- The calls of `write_head`: the commit of a transaction, and its erasure. -/
inductive HeadUse where
  | commit
  | erase (recovering : Bool)
  deriving DecidableEq

inductive HeadStage where
  | start
  | reading
  | write (b : Buf)
  | written (b : Buf)
  deriving DecidableEq

/-- Where a process is in `commit` or `recover_from_log`; `finish` is the end of
`end_op` or of `initlog`. -/
inductive Point where
  | readHead
  | readHeadBuf
  | commit
  | copy (c : Copy) (tail : Nat) (st : Stage)
  | clear (recovering : Bool)
  | writeHead (u : HeadUse) (st : HeadStage)
  | finish (recovering : Bool)
  deriving DecidableEq

def writeLog : Point := .copy .writeLog 0 .test
def installTrans (recovering : Bool) : Point := .copy (.installTrans recovering) 0 .test
def writeHead (u : HeadUse) : Point := .writeHead u .start

/-- What follows a loop in `commit` and `recover_from_log`, -/
def Copy.next : Copy → Point
  | .writeLog => writeHead .commit
  | .installTrans recovering => .clear recovering

/-- and what follows a call of `write_head`. -/
def HeadUse.next : HeadUse → Point
  | .commit => installTrans false
  | .erase recovering => .finish recovering

/-- Where a process is: in file system code or the code of the cache it calls,
asleep in `begin_op`, at a critical section of the log, or in the log's code. -/
inductive Pc where
  | fs
  | beginOp
  | asleep
  | logWrite (b : Buf)
  | endOp
  | log (k : Point)
  deriving DecidableEq

/-- The machine. `op` tells which processes are inside an operation, `modified`
and `logged` which of its buffers a process has changed and passed to
`log_write` since it got them, and `up` that `initlog` has returned. -/
structure Sys (P : Type*) where
  bio : Bio P
  outstanding : Int
  committing : Bool
  lh : List Nat
  pc : P → Pc
  op : P → Bool
  modified : P → List Buf
  logged : P → List Buf
  up : Bool
  panicked : Option Panic

def boot (M : Mount P) (disk : Nat → Data) : Sys P where
  bio := .binit disk
  outstanding := 0
  committing := false
  lh := []
  pc p := if p=M.initproc then .log .readHead else .fs
  op _ := false
  modified _ := []
  logged _ := []
  up := false
  panicked := none

namespace Sys

def goto (s : Sys P) (p : P) (k : Pc) : Sys P := { s with pc := update s.pc p k }

def panic (s : Sys P) (m : Panic) : Sys P := { s with panicked := some m }

/-- `wakeup(&log)` -/
def wakeup (s : Sys P) : Sys P :=
  { s with pc := fun q => if s.pc q=.asleep then .beginOp else s.pc q }

def beginOp (s : Sys P) (p : P) : Sys P :=
  if s.committing then s.goto p .asleep
  else if (s.lh.length : Int)+(s.outstanding+1)*maxOpBlocks > logSize then s.goto p .asleep
  else { s with outstanding := s.outstanding+1, op := update s.op p true }.goto p .fs

def endOp (s : Sys P) (p : P) : Sys P :=
  let s := { s with outstanding := s.outstanding-1, op := update s.op p false }
  if s.committing then s.panic .logCommitting
  else if s.outstanding=0 then { s with committing := true }.goto p (.log .commit)
  else s.wakeup.goto p .fs

def logWrite (M : Mount P) (s : Sys P) (p : P) (b : Buf) : Sys P :=
  if logSize ≤ s.lh.length ∨ (M.size : Int)-1 ≤ s.lh.length then s.panic .tooBigATransaction
  else if s.outstanding < 1 then s.panic .logWriteOutsideOfTrans
  else
    let s := { s with logged := update s.logged p (b :: s.logged p) }
    if s.bio.blockno b∈s.lh then s.goto p .fs
    else { s with bio := s.bio.bpin b, lh := s.lh++[s.bio.blockno b] }.goto p .fs

def bwrite (s : Sys P) (p : P) (b : Buf) (k : Point) : Sys P :=
  match s.bio.bwrite p b with
  | .ok bio => { s with bio := bio }.goto p (.log k)
  | .error m => s.panic m

def copyStep (M : Mount P) (s : Sys P) (p : P) (c : Copy) (tail : Nat) : Stage → Option (Sys P)
  | .test =>
      if tail < s.lh.length then
        some ({ s with bio := s.bio.bread p M.dev (M.slot tail) }.goto p (.log (.copy c tail .first)))
      else some (s.goto p (.log c.next))
  | .first =>
      (s.bio.held p).head?.map fun l =>
        { s with bio := s.bio.bread p M.dev (s.lh.getD tail 0) }.goto p
          (.log (.copy c tail (.second l)))
  | .second l =>
      (s.bio.held p).head?.map fun d =>
        { s with bio := s.bio.setData (c.dst l d) (s.bio.data (c.src l d)) }.goto p
          (.log (.copy c tail (.write l d)))
  | .write l d => some (s.bwrite p (c.dst l d) (.copy c tail (.written l d)))
  | .written l d =>
      let bio := if c=.installTrans false then s.bio.bunpin d else s.bio
      some ({ s with bio := bio.brelse p (c.src l d) }.goto p
        (.log (.copy c tail (.release (c.dst l d)))))
  | .release b =>
      some ({ s with bio := s.bio.brelse p b }.goto p (.log (.copy c (tail+1) .test)))

def writeHeadStep (M : Mount P) (s : Sys P) (p : P) (u : HeadUse) : HeadStage → Option (Sys P)
  | .start =>
      some ({ s with bio := s.bio.bread p M.dev M.start }.goto p (.log (.writeHead u .reading)))
  | .reading =>
      (s.bio.held p).head?.map fun b =>
        { s with bio := s.bio.setData b (putHeader (s.bio.data b) s.lh) }.goto p
          (.log (.writeHead u (.write b)))
  | .write b => some (s.bwrite p b (.writeHead u (.written b)))
  | .written b => some ({ s with bio := s.bio.brelse p b }.goto p (.log u.next))

/-- `commit`, `recover_from_log` and what comes after them in their callers. -/
def logStep (M : Mount P) (s : Sys P) (p : P) : Point → Option (Sys P)
  | .readHead =>
      some ({ s with bio := s.bio.bread p M.dev M.start }.goto p (.log .readHeadBuf))
  | .readHeadBuf =>
      (s.bio.held p).head?.map fun b =>
        { s with lh := headerOf (s.bio.data b), bio := s.bio.brelse p b }.goto p
          (.log (installTrans true))
  | .commit => some (s.goto p (.log (if 0 < s.lh.length then Log.writeLog else .finish false)))
  | .copy c tail st => s.copyStep M p c tail st
  | .clear recovering => some ({ s with lh := [] }.goto p (.log (writeHead (.erase recovering))))
  | .writeHead u st => s.writeHeadStep M p u st
  | .finish true => some ({ s with up := true }.goto p .fs)
  | .finish false => some ({ s with committing := false }.wakeup.goto p .fs)

def run (M : Mount P) (s : Sys P) (p : P) : Option (Sys P) :=
  if s.bio.call p=.idle then
    match s.pc p with
    | .fs | .asleep => none
    | .beginOp => some (s.beginOp p)
    | .logWrite b => some (s.logWrite M p b)
    | .endOp => some (s.endOp p)
    | .log k => s.logStep M p k
  else
    (s.bio.advance p).map fun
      | .ok bio => { s with bio := bio }
      | .error m => s.panic m

end Sys

inductive Request where
  | bread (dev blockno : Nat)
  | modify (b : Buf) (d : Data)
  | logWrite (b : Buf)
  | brelse (b : Buf)
  | beginOp
  | endOp

def Sys.request (s : Sys P) (p : P) : Request → Sys P
  | .bread dev blockno => { s with bio := s.bio.bread p dev blockno }
  | .modify b d =>
      { s with bio := s.bio.setData b d, modified := update s.modified p (b :: s.modified p) }
  | .logWrite b => s.goto p (.logWrite b)
  | .brelse b =>
      { s with
        bio := s.bio.brelse p b
        modified := update s.modified p ((s.modified p).filter (· ≠ b))
        logged := update s.logged p ((s.logged p).filter (· ≠ b)) }
  | .beginOp => s.goto p .beginOp
  | .endOp => s.goto p .endOp

inductive Label (P : Type*) where
  | request (p : P) (r : Request)
  | run (p : P)
  | crash

/-- A machine that has panicked can only be restarted. -/
def step (M : Mount P) (s : Sys P) : Label P → Option (Sys P)
  | .request p r =>
      if s.panicked=none ∧ s.up=true ∧ s.pc p=.fs ∧ s.bio.call p=.idle then
        some (s.request p r)
      else none
  | .run p => if s.panicked=none then s.run M p else none
  | .crash => some (boot M s.bio.disk)

/-- The step with which the first `write_head` of a commit reaches the disk. -/
def Sys.commits (s : Sys P) : Label P → Bool
  | .run p =>
      match s.pc p with
      | .log (.writeHead .commit (.write b)) => s.bio.call p == .idle && s.bio.holdingsleep p b
      | _ => false
  | .request _ _ | .crash => false

/-- How operations use the log: they change a buffer only while they hold it and inside a bracket of
`begin_op` and `end_op`, pass every buffer they changed to `log_write` before they release it, and
release all of them before `end_op`. -/
def Bracketed (M : Mount P) (s : Sys P) : Label P → Prop
  | .request _ (.bread dev blockno) => dev=M.dev ∧ M.Home blockno
  | .request p (.modify b _) => b∈s.bio.held p ∧ s.op p=true
  | .request p (.logWrite b) => b∈s.bio.held p ∧ s.op p=true
  | .request p (.brelse b) => b∈s.bio.held p ∧ (b∈s.modified p → b∈s.logged p)
  | .request p .beginOp => s.op p=false
  | .request p .endOp => s.op p=true ∧ s.bio.held p=[]
  | .run _ | .crash => True

instance (M : Mount P) (s : Sys P) : ∀ l, Decidable (Bracketed M s l)
  | .request _ (.bread dev blockno) =>
      inferInstanceAs (Decidable (dev=M.dev ∧ M.Home blockno))
  | .request p (.modify b _) => inferInstanceAs (Decidable (b∈s.bio.held p ∧ s.op p=true))
  | .request p (.logWrite b) => inferInstanceAs (Decidable (b∈s.bio.held p ∧ s.op p=true))
  | .request p (.brelse b) =>
      inferInstanceAs (Decidable (b∈s.bio.held p ∧ (b∈s.modified p → b∈s.logged p)))
  | .request p .beginOp => inferInstanceAs (Decidable (s.op p=false))
  | .request p .endOp => inferInstanceAs (Decidable (s.op p=true ∧ s.bio.held p=[]))
  | .run _ | .crash => inferInstanceAs (Decidable True)

end Xv6.Log
