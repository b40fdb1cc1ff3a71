import Xv6.Param
import Xv6.Machine
import Xv6.Total
import Mathlib.Algebra.Group.Nat.Defs

/-! Inodes and their blocks, as `kernel/fs.c` and `kernel/sysfile.c` handle them: the
bitmap, the inodes on disk, the inode table with its copies, and the contents of blocks
as 256 words, since an indirect block is read so. A step is one operation. Which entry
of a directory matches a name is left open (it is part of the label), and so is what
user data a write stores; every read and write of a directory is made. -/
namespace Xv6.Inode
open Function

inductive FileType where
  | free
  | dir
  | file
  | device
deriving DecidableEq, Repr

/-- A `struct dinode`; `major` and `minor` are left out. -/
structure Dinode where
  type : FileType
  nlink : Int
  size : Nat
  addrs : Nat → Nat

inductive Panic where
  | freeingFreeBlock
  | igetNoInodes
  | ilockNoType
  | bmapOutOfRange
  | dirlookupNotDir
  | dirlookupRead
  | dirlinkRead
  | isdiremptyReadi
  | unlinkNlink
  | unlinkWritei
deriving DecidableEq, Repr

/-- `ninodes` and `size` are those of the superblock. `fails n` says that call number `n`
of `balloc` returns 0 even if a block is free. -/
structure Fs where
  size : Nat
  ninodes : Nat
  used : Nat → Bool
  words : Nat → Nat → Nat
  dinode : Nat → Dinode
  ref : Nat → Nat
  valid : Nat → Bool
  inode : Nat → Dinode
  calls : Nat
  fails : Nat → Bool

def balloc (s : Fs) : Fs × Nat :=
  let s := { s with calls := s.calls+1 }
  if s.fails (s.calls-1) then (s, 0)
  else match (List.range s.size).find? fun b => !s.used b with
    | none => (s, 0)
    | some b => ({ s with used := update s.used b true, words := update s.words b fun _ => 0 }, b)

def bfree (s : Fs) (b : Nat) : Except Panic Fs :=
  if s.used b then .ok { s with used := update s.used b false } else .error .freeingFreeBlock

def Fs.setInode (s : Fs) (i : Nat) (d : Dinode) : Fs := { s with inode := update s.inode i d }

def Fs.setAddr (s : Fs) (i k addr : Nat) : Fs :=
  s.setInode i { s.inode i with addrs := update (s.inode i).addrs k addr }

def mapAddr (s : Fs) (i k : Nat) : Fs × Nat :=
  if (s.inode i).addrs k=0 then
    match balloc s with
    | (s, addr) => if addr=0 then (s, 0) else (s.setAddr i k addr, addr)
  else (s, (s.inode i).addrs k)

def mapWord (s : Fs) (ind j : Nat) : Fs × Nat :=
  if s.words ind j=0 then
    match balloc s with
    | (s, addr) =>
      if addr=0 then (s, 0)
      else ({ s with words := update s.words ind (update (s.words ind) j addr) }, addr)
  else (s, s.words ind j)

def bmap (s : Fs) (i bn : Nat) : Except Panic (Fs × Nat) :=
  if bn < ndirect then .ok (mapAddr s i bn)
  else if bn-ndirect < nindirect then
    match mapAddr s i ndirect with
    | (s, ind) => if ind=0 then .ok (s, 0) else .ok (mapWord s ind (bn-ndirect))
  else .error .bmapOutOfRange

def Fs.active (s : Fs) : Nat := (List.range s.ninodes).countP fun i => 0 < s.ref i

def iget (s : Fs) (i : Nat) : Except Panic Fs :=
  if s.ref i > 0 then .ok { s with ref := update s.ref i (s.ref i+1) }
  else if s.active ≥ ninode then .error .igetNoInodes
  else .ok { s with ref := update s.ref i 1, valid := update s.valid i false }

def ilock (s : Fs) (i : Nat) : Except Panic Fs :=
  if s.valid i then .ok s
  else if (s.dinode i).type=.free then .error .ilockNoType
  else .ok { s.setInode i (s.dinode i) with valid := update s.valid i true }

def iupdate (s : Fs) (i : Nat) : Fs := { s with dinode := update s.dinode i (s.inode i) }

def truncDirect (s : Fs) (i k : Nat) : Nat → Except Panic Fs
  | 0 => .ok s
  | n+1 =>
    if (s.inode i).addrs k=0 then truncDirect s i (k+1) n
    else do
      let s ← bfree s ((s.inode i).addrs k)
      truncDirect (s.setAddr i k 0) i (k+1) n

def truncWords (s : Fs) (ind j : Nat) : Nat → Except Panic Fs
  | 0 => .ok s
  | n+1 =>
    if s.words ind j=0 then truncWords s ind (j+1) n
    else do
      let s ← bfree s (s.words ind j)
      truncWords s ind (j+1) n

def truncIndirect (s : Fs) (i : Nat) : Except Panic Fs :=
  if (s.inode i).addrs ndirect=0 then .ok s
  else do
    let s ← truncWords s ((s.inode i).addrs ndirect) 0 nindirect
    let s ← bfree s ((s.inode i).addrs ndirect)
    .ok (s.setAddr i ndirect 0)

def itrunc (s : Fs) (i : Nat) : Except Panic Fs := do
  let s ← truncDirect s i 0 ndirect
  let s ← truncIndirect s i
  .ok (iupdate (s.setInode i { s.inode i with size := 0 }) i)

def iput (s : Fs) (i : Nat) : Except Panic Fs :=
  if s.ref i=1 ∧ s.valid i ∧ (s.inode i).nlink=0 then do
    let s ← itrunc s i
    let s := iupdate (s.setInode i { s.inode i with type := .free }) i
    .ok { s with valid := update s.valid i false, ref := update s.ref i (s.ref i-1) }
  else .ok { s with ref := update s.ref i (s.ref i-1) }

/-- `ialloc`: the number of the new inode, which is referenced, or 0. -/
def ialloc (s : Fs) (type : FileType) : Except Panic (Fs × Nat) :=
  match ((List.range s.ninodes).drop 1).find? fun i => (s.dinode i).type=.free with
  | none => .ok (s, 0)
  | some i => do
    let s ← iget { s with dinode := update s.dinode i ⟨type,0,0,fun _ => 0⟩ } i
    .ok (s, i)

/-- The loop of `readi`: `tot` bytes are read so far, `n` are wanted. The result is the
number of bytes, or nothing for -1; `copies off` says that `either_copyout` succeeds. -/
def readiFrom (s : Fs) (i off tot n : Nat) (copies : Nat → Bool) :
    Nat → Except Panic (Fs × Option Nat)
  | 0 => .ok (s, some tot)
  | k+1 =>
    if tot < n then do
      let (s, addr) ← bmap s i (off/bsize)
      if addr=0 then .ok (s, some tot)
      else
        let m := min (n-tot) (bsize-off%bsize)
        if copies off then readiFrom s i (off+m) (tot+m) n copies k else .ok (s, none)
    else .ok (s, some tot)

def rounds (off n : Nat) : Nat := (off%bsize+n+(bsize-1))/bsize

def readi (s : Fs) (i off n : Nat) (copies : Nat → Bool) : Except Panic (Fs × Option Nat) :=
  if off > (s.inode i).size ∨ (off+n)%2 ^ 32 < off then .ok (s, some 0)
  else
    let n := if off+n > (s.inode i).size then (s.inode i).size-off else n
    readiFrom s i off 0 n copies (rounds off n)

/-- What `either_copyin` at `off` does: whether it succeeds, and the words of the block
after it, since a copy that fails may have stored a part. -/
abbrev Source : Type := Nat → Bool × (Nat → Nat)

/-- The loop of `writei`; the result is `off` and `tot` when it ends. -/
def writeiFrom (s : Fs) (i off tot n : Nat) (src : Source) : Nat → Except Panic (Fs × Nat × Nat)
  | 0 => .ok (s, off, tot)
  | k+1 =>
    if tot < n then do
      let (s, addr) ← bmap s i (off/bsize)
      if addr=0 then .ok (s, off, tot)
      else
        let m := min (n-tot) (bsize-off%bsize)
        let s := { s with words := update s.words addr (src off).2 }
        if (src off).1 then writeiFrom s i (off+m) (tot+m) n src k else .ok (s, off, tot)
    else .ok (s, off, tot)

/-- `writei`: the number of bytes written, or nothing for -1. -/
def writei (s : Fs) (i off n : Nat) (src : Source) : Except Panic (Fs × Option Nat) :=
  if off > (s.inode i).size ∨ (off+n)%2 ^ 32 < off then .ok (s, none)
  else if off+n > maxfile*bsize then .ok (s, none)
  else do
    let (s, off, tot) ← writeiFrom s i off 0 n src (rounds off n)
    let s := if off > (s.inode i).size then s.setInode i { s.inode i with size := off } else s
    .ok (iupdate s i, some tot)

/-- Reads of the entries from number `k` on, `n` of them, each of which must be whole. -/
def readEntries (s : Fs) (i k : Nat) (e : Panic) : Nat → Except Panic Fs
  | 0 => .ok s
  | n+1 => do
    let (s, tot) ← readi s i (k*direntSize) direntSize fun _ => true
    if tot=some direntSize then readEntries s i (k+1) e n else .error e

def Fs.entries (s : Fs) (i : Nat) : Nat := ((s.inode i).size+(direntSize-1))/direntSize

/-- The entry that matches: its number and the inode it names. -/
abbrev Hit : Type := Option (Nat × Nat)

/-- `dirlookup`: the inode found, which is referenced, with the number of its entry. -/
def dirlookup (s : Fs) (dp : Nat) (hit : Hit) : Except Panic (Fs × Hit) :=
  if (s.inode dp).type≠.dir then .error .dirlookupNotDir
  else match hit with
    | none => do
      let s ← readEntries s dp 0 .dirlookupRead (s.entries dp)
      .ok (s, none)
    | some (k, i) =>
      if k*direntSize < (s.inode dp).size then do
        let s ← readEntries s dp 0 .dirlookupRead (k+1)
        let s ← iget s i
        .ok (s, some (k, i))
      else do
        let s ← readEntries s dp 0 .dirlookupRead (s.entries dp)
        .ok (s, none)

/-- `dirlink`: whether it returns 0. `free` is the number of the first empty entry. -/
def dirlink (s : Fs) (dp : Nat) (hit : Hit) (free : Nat) (de : Nat → Nat) :
    Except Panic (Fs × Bool) := do
  let (s, found) ← dirlookup s dp hit
  match found with
  | some (_, i) =>
    let s ← iput s i
    .ok (s, false)
  | none =>
    let slot := min free (s.entries dp)
    let s ← readEntries s dp 0 .dirlinkRead (min (free+1) (s.entries dp))
    let (s, tot) ← writei s dp (slot*direntSize) direntSize fun _ => (true, de)
    .ok (s, tot=some direntSize)

def lockDir (s : Fs) (dp : Nat) : Except Panic Fs := do
  let s ← iget s dp
  ilock s dp

/-- What the directory operations find: for each look-up the matching entry, for each
new entry the first free one and the words of its block. -/
structure Find where
  hit : Hit
  free : Nat
  de : Nat → Nat

def setNlink (s : Fs) (i : Nat) (n : Int) : Fs :=
  iupdate (s.setInode i { s.inode i with nlink := short n }) i

/-- The entries `.` and `..` of a new directory, if `type` is `T_DIR`. -/
def createDots (s : Fs) (i : Nat) (type : FileType) (dot dotdot : Find) : Except Panic (Fs × Bool) :=
  if type=.dir then do
    let (s, made) ← dirlink s i dot.hit dot.free dot.de
    if made then dirlink s i dotdot.hit dotdot.free dotdot.de else .ok (s, false)
  else .ok (s, true)

def dirlinkIf (go : Bool) (s : Fs) (dp : Nat) (entry : Find) : Except Panic (Fs × Bool) :=
  if go then dirlink s dp entry.hit entry.free entry.de else .ok (s, false)

def createLink (s : Fs) (dp i : Nat) (type : FileType) (dot dotdot entry : Find) :
    Except Panic (Fs × Nat) := do
  let (s, dots) ← createDots s i type dot dotdot
  let (s, linked) ← dirlinkIf dots s dp entry
  if linked then
    let s := if type=.dir then setNlink s dp ((s.inode dp).nlink+1) else s
    let s ← iput s dp
    .ok (s, i)
  else
    let s ← iput (setNlink s i 0) i
    let s ← iput s dp
    .ok (s, 0)

/-- `create` in the directory `dp`: the inode, which is referenced and locked, or 0. -/
def create (s : Fs) (dp : Nat) (type : FileType) (hit : Hit) (dot dotdot entry : Find) :
    Except Panic (Fs × Nat) := do
  let s ← lockDir s dp
  let (s, found) ← dirlookup s dp hit
  match found with
  | some (_, i) =>
    let s ← iput s dp
    let s ← ilock s i
    if type=.file ∧ ((s.inode i).type=.file ∨ (s.inode i).type=.device) then .ok (s, i)
    else
      let s ← iput s i
      .ok (s, 0)
  | none =>
    let (s, i) ← ialloc s type
    if i=0 then
      let s ← iput s dp
      .ok (s, 0)
    else
      let s ← ilock s i
      createLink (setNlink s i 1) dp i type dot dotdot entry

def linkEntry (s : Fs) (dp : Option Nat) (entry : Find) : Except Panic (Fs × Bool) :=
  match dp with
  | none => .ok (s, false)
  | some dp => do
    let s ← lockDir s dp
    let (s, linked) ← dirlink s dp entry.hit entry.free entry.de
    let s ← iput s dp
    .ok (s, linked)

def link (s : Fs) (i : Nat) (dp : Option Nat) (entry : Find) : Except Panic Fs := do
  let s ← lockDir s i
  if (s.inode i).type=.dir then iput s i
  else
    let (s, linked) ← linkEntry (setNlink s i ((s.inode i).nlink+1)) dp entry
    iput (if linked then s else setNlink s i ((s.inode i).nlink-1)) i

/-- `ip->type == T_DIR && !isdirempty(ip)`; `busy` is the first entry from number 2 on
that is in use. -/
def busyDir (s : Fs) (i : Nat) (busy : Option Nat) : Except Panic (Fs × Bool) :=
  if (s.inode i).type=.dir then do
    let n := (busy.elim (s.entries i) fun k => min (k+1) (s.entries i))-2
    let s ← readEntries s i 2 .isdiremptyReadi n
    .ok (s, busy.any (· < s.entries i))
  else .ok (s, false)

/-- `sys_unlink` in the directory `dp`, of a name other than `.` and `..`. -/
def unlink (s : Fs) (dp : Nat) (hit : Hit) (busy : Option Nat) (de : Nat → Nat) :
    Except Panic Fs := do
  let s ← lockDir s dp
  let (s, found) ← dirlookup s dp hit
  match found with
  | none => iput s dp
  | some (k, i) =>
    let s ← ilock s i
    if (s.inode i).nlink < 1 then .error .unlinkNlink
    else
      let (s, nonempty) ← busyDir s i busy
      if nonempty then
        let s ← iput s i
        iput s dp
      else
        let (s, tot) ← writei s dp (k*direntSize) direntSize fun _ => (true, de)
        if tot=some direntSize then
          let s := if (s.inode i).type=.dir then setNlink s dp ((s.inode dp).nlink-1) else s
          let s ← iput s dp
          iput (setNlink s i ((s.inode i).nlink-1)) i
        else .error .unlinkWritei

/-- An operation of a process that has the inodes it works on referenced. `namei` is a
look-up: the inode is referenced and locked for the first time. -/
inductive Op where
  | namei (i : Nat)
  | ialloc (type : FileType)
  | readi (i off n : Nat) (copies : Nat → Bool)
  | writei (i off n : Nat) (src : Source)
  | itrunc (i : Nat)
  | dirlink (dp : Nat) (entry : Find)
  | create (dp : Nat) (type : FileType) (hit : Hit) (dot dotdot entry : Find)
  | link (i : Nat) (dp : Option Nat) (entry : Find)
  | unlink (dp : Nat) (hit : Hit) (busy : Option Nat) (de : Nat → Nat)
  | iput (i : Nat)

/-- `f` on inode `i`, which the caller locks first. -/
def locked {α : Type} (s : Fs) (i : Nat) (f : Fs → Except Panic (Fs × α)) : Except Panic Fs := do
  let s ← ilock s i
  let (s, _) ← f s
  .ok s

def operate (s : Fs) : Op → Except Panic Fs
  | .namei i => lockDir s i
  | .ialloc type => return (← ialloc s type).1
  | .readi i off n copies => locked s i fun s => readi s i off n copies
  | .writei i off n src => locked s i fun s => writei s i off n src
  | .itrunc i => do itrunc (← ilock s i) i
  | .dirlink dp entry => locked s dp fun s => dirlink s dp entry.hit entry.free entry.de
  | .create dp type hit dot dotdot entry => return (← create s dp type hit dot dotdot entry).1
  | .link i dp entry => link s i dp entry
  | .unlink dp hit busy de => unlink s dp hit busy de
  | .iput i => iput s i

def Op.needs : Op → Option Nat
  | .readi i _ _ _ | .writei i _ _ _ | .itrunc i | .dirlink i _ | .iput i => some i
  | .namei _ | .ialloc _ | .create _ _ _ _ _ _ | .link _ _ _ | .unlink _ _ _ _ => none

/-- The file system, or the panic that has stopped it. -/
structure Sys where
  fs : Fs
  panicked : Option Panic

def step (s : Sys) (op : Op) : Option Sys :=
  if s.panicked=none ∧ ∀ i∈op.needs, 0 < s.fs.ref i then
    match operate s.fs op with
    | .ok fs => some { s with fs := fs }
    | .error e => some { s with panicked := some e }
  else none

end Xv6.Inode
