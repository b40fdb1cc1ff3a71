import Xv6.Param
import Mathlib.Data.List.Basic

/-! Inodes, directories and path names, as `kernel/fs.c` and `kernel/sysfile.c` work on
them. Calls run one after the other, so that every lock is free when one starts. A
`struct inode` is named by its number: an inode has at most one entry of the inode table in
use, whose copy agrees with the disk. What a file holds is left out, but for directories. -/
namespace Xv6.FileSystem
open Function

def rootino : Nat := 1
/-- The number of entries in a directory of `MAXFILE` blocks. -/
def maxents : Nat := (12+256)*1024/16

abbrev Inum : Type := Nat
abbrev Name : Type := List UInt8

def slash : UInt8 := 47
def dot : Name := [46]
def dotdot : Name := [46,46]

inductive Panic where
  | igetNoInodes
  | ilock
  | ilockNoType
  | dirlookupNotDir
  | unlinkNlink
  | filedup
  | fileclose
  | initExiting
deriving DecidableEq, Repr

/-- The types of inodes; `free` is type 0. -/
inductive InodeType where
  | free
  | dir
  | file
  | device
deriving DecidableEq, Repr

/-- A `struct dirent`. The source has no `gen`: it says how often the inode had been
allocated when the entry was written. -/
structure Dirent where
  inum : Inum
  name : Name
  gen : Nat
deriving DecidableEq, Repr

def Dirent.none : Dirent := ⟨0,[],0⟩

structure Inode where
  type : InodeType
  major : Int
  minor : Int
  nlink : Int
  ents : List Dirent
deriving DecidableEq, Repr

structure Fs where
  ninodes : Nat
  inode : Inum → Inode
  /-- `ip->ref` and `ip->valid`, for the inodes in the table. -/
  ref : Inum → Int
  valid : Inum → Bool
  table : List Inum
  /-- How often each inode has been allocated. -/
  born : Inum → Nat
  /-- Which of the steps that need a block, memory or a user address fail, and how many
  there have been. -/
  fails : Nat → Bool
  attempts : Nat

namespace Fs

def setInode (s : Fs) (i : Inum) (x : Inode) : Fs := { s with inode := update s.inode i x }

def setNlink (s : Fs) (i : Inum) (n : Int) : Fs := s.setInode i { s.inode i with nlink := short n }

def setEnts (s : Fs) (i : Inum) (ents : List Dirent) : Fs := s.setInode i { s.inode i with ents := ents }

def setRef (s : Fs) (i : Inum) (n : Int) : Fs := { s with ref := update s.ref i n }

def setValid (s : Fs) (i : Inum) (b : Bool) : Fs := { s with valid := update s.valid i b }

def succeeds (s : Fs) : Bool := !s.fails s.attempts

def attempt (s : Fs) : Fs := { s with attempts := s.attempts+1 }

end Fs

/-- The link of a directory's `..` to `dp` comes or goes. -/
def Fs.countDotdot (s : Fs) (dp : Inum) (type : InodeType) (d : Int) : Fs :=
  if type=.dir then s.setNlink dp ((s.inode dp).nlink+d) else s

def iget (s : Fs) (i : Inum) : Except Panic Fs :=
  if 0 < s.ref i then .ok (s.setRef i (s.ref i+1))
  else if ninode ≤ s.table.length then .error .igetNoInodes
  else .ok { (s.setRef i 1).setValid i false with table := i :: s.table }

def idup (s : Fs) (i : Inum) : Fs := s.setRef i (s.ref i+1)

def ilock (s : Fs) (i : Inum) : Except Panic Fs :=
  if s.ref i < 1 then .error .ilock
  else if s.valid i then .ok s
  else if (s.inode i).type=.free then .error .ilockNoType
  else .ok (s.setValid i true)

def Fs.deref (s : Fs) (i : Inum) : Fs :=
  { s.setRef i (s.ref i-1) with table := if s.ref i=1 then s.table.erase i else s.table }

def Fs.freeInode (s : Fs) (i : Inum) : Fs :=
  (s.setInode i { s.inode i with type := .free, ents := [] }).setValid i false

def iput (s : Fs) (i : Inum) : Fs :=
  if s.ref i=1 ∧ s.valid i ∧ (s.inode i).nlink=0 then (s.freeInode i).deref i
  else s.deref i

def ialloc (s : Fs) (type : InodeType) : Except Panic (Fs × Option Inum) :=
  match (List.range' 1 (s.ninodes-1)).find? fun i => (s.inode i).type=.free with
  | none => .ok (s, none)
  | some i => do
      let s := { s.setInode i ⟨type,0,0,0,[]⟩ with born := update s.born i (s.born i+1) }
      let s ← iget s i
      .ok (s, some i)

def Inode.find (x : Inode) (name : Name) : Option Nat :=
  x.ents.findIdx? fun e => e.inum≠0 ∧ e.name=name

def Inode.inumAt (x : Inode) (off : Nat) : Inum := (x.ents.getD off .none).inum

def dirlookup (s : Fs) (dp : Inum) (name : Name) : Except Panic (Fs × Option (Nat × Inum)) :=
  if (s.inode dp).type≠.dir then .error .dirlookupNotDir
  else
    match (s.inode dp).find name with
    | none => .ok (s, none)
    | some off => do
        let inum := (s.inode dp).inumAt off
        let s ← iget s inum
        .ok (s, some (off, inum))

/-- The `writei` of `dirlink`, to the first free place or the end. -/
def writeDirent (s : Fs) (dp : Inum) (e : Dirent) : Fs × Bool :=
  match (s.inode dp).ents.findIdx? fun e => e.inum=0 with
  | some off => (s.setEnts dp ((s.inode dp).ents.set off e), true)
  | none =>
      if maxents ≤ (s.inode dp).ents.length then (s, false)
      else if s.succeeds then (s.attempt.setEnts dp ((s.inode dp).ents++[e]), true)
      else (s.attempt, false)

def dirlink (s : Fs) (dp : Inum) (name : Name) (inum : Inum) : Except Panic (Fs × Bool) := do
  let (s, found) ← dirlookup s dp name
  match found with
  | some (_, ip) => .ok (iput s ip, false)
  | none => .ok (writeDirent s dp ⟨inum%65536,name,s.born inum⟩)

/-- The next element of a path, and what follows it. -/
def skipelem (path : List UInt8) : Option (Name × List UInt8) :=
  match path.dropWhile (· = slash) with
  | [] => none
  | c :: rest =>
      some (((c :: rest).takeWhile (· ≠ slash)).take dirsiz,
        ((c :: rest).dropWhile (· ≠ slash)).dropWhile (· = slash))

def elemsFrom : Nat → List UInt8 → List Name
  | 0, _ => []
  | n+1, path =>
      match skipelem path with
      | none => []
      | some (name, rest) => name :: elemsFrom n rest

def elems (path : List UInt8) : List Name := elemsFrom path.length path

def namexFrom (parent : Bool) : Fs → Inum → List Name → Except Panic (Fs × Option (Inum × Name))
  | s, ip, [] => .ok (if parent then (iput s ip, none) else (s, some (ip, [])))
  | s, ip, name :: rest => do
      let s ← ilock s ip
      if (s.inode ip).type≠.dir then .ok (iput s ip, none)
      else if parent ∧ rest=[] then .ok (s, some (ip, name))
      else do
        let (s, found) ← dirlookup s ip name
        match found with
        | none => .ok (iput s ip, none)
        | some (_, next) => namexFrom parent (iput s ip) next rest

def namex (parent : Bool) (s : Fs) (cwd : Inum) (path : List UInt8) :
    Except Panic (Fs × Option (Inum × Name)) :=
  if path.head?=some slash then do
    let s ← iget s rootino
    namexFrom parent s rootino (elems path)
  else namexFrom parent (idup s cwd) cwd (elems path)

def namei (s : Fs) (cwd : Inum) (path : List UInt8) : Except Panic (Fs × Option Inum) := do
  let (s, r) ← namex false s cwd path
  .ok (s, r.map Prod.fst)

def nameiparent (s : Fs) (cwd : Inum) (path : List UInt8) :
    Except Panic (Fs × Option (Inum × Name)) := namex true s cwd path

/-- The entries that `create` writes, until one cannot be written. -/
def createLinks (s : Fs) (dp ip : Inum) (name : Name) (type : InodeType) :
    Except Panic (Fs × Bool) :=
  if type=.dir then do
    let (s, ok) ← dirlink s ip dot ip
    if !ok then .ok (s, false)
    else do
      let (s, ok) ← dirlink s ip dotdot dp
      if !ok then .ok (s, false) else dirlink s dp name ip
  else dirlink s dp name ip

def createNew (s : Fs) (dp : Inum) (name : Name) (type : InodeType) (major minor : Int) :
    Except Panic (Fs × Option Inum) := do
  let (s, r) ← ialloc s type
  match r with
  | none => .ok (iput s dp, none)
  | some ip => do
      let s ← ilock s ip
      let s := s.setInode ip
        { s.inode ip with major := short major, minor := short minor, nlink := 1 }
      let (s, ok) ← createLinks s dp ip name type
      if ok then .ok (iput (s.countDotdot dp type 1) dp, some ip)
      else .ok (iput (iput (s.setNlink ip 0) ip) dp, none)

def create (s : Fs) (cwd : Inum) (path : List UInt8) (type : InodeType) (major minor : Int) :
    Except Panic (Fs × Option Inum) := do
  let (s, r) ← nameiparent s cwd path
  match r with
  | none => .ok (s, none)
  | some (dp, name) => do
      let s ← ilock s dp
      let (s, found) ← dirlookup s dp name
      match found with
      | some (_, ip) => do
          let s ← ilock (iput s dp) ip
          if type=.file ∧ ((s.inode ip).type=.file ∨ (s.inode ip).type=.device) then
            .ok (s, some ip)
          else .ok (iput s ip, none)
      | none => createNew s dp name type major minor

def linkNew (s : Fs) (cwd : Inum) (new : List UInt8) (ip : Inum) : Except Panic (Fs × Bool) := do
  let (s, r) ← nameiparent s cwd new
  match r with
  | none => .ok (s, false)
  | some (dp, name) => do
      let s ← ilock s dp
      let (s, ok) ← dirlink s dp name ip
      .ok (iput s dp, ok)

def sysLink (s : Fs) (cwd : Inum) (old new : List UInt8) : Except Panic (Fs × Int) := do
  let (s, r) ← namei s cwd old
  match r with
  | none => .ok (s, -1)
  | some ip => do
      let s ← ilock s ip
      if (s.inode ip).type=.dir then .ok (iput s ip, -1)
      else do
        let (s, ok) ← linkNew (s.setNlink ip ((s.inode ip).nlink+1)) cwd new ip
        if ok then .ok (iput s ip, 0)
        else do
          let s ← ilock s ip
          .ok (iput (s.setNlink ip ((s.inode ip).nlink-1)) ip, -1)

def isdirempty (x : Inode) : Bool := (x.ents.drop 2).all fun e => e.inum=0

def unlinkFound (s : Fs) (dp : Inum) (off : Nat) (ip : Inum) : Except Panic (Fs × Int) := do
  let s ← ilock s ip
  if (s.inode ip).nlink < 1 then .error .unlinkNlink
  else if (s.inode ip).type=.dir ∧ !isdirempty (s.inode ip) then
    .ok (iput (iput s ip) dp, -1)
  else
    let s := s.setEnts dp ((s.inode dp).ents.set off .none)
    let s := iput (s.countDotdot dp (s.inode ip).type (-1)) dp
    .ok (iput (s.setNlink ip ((s.inode ip).nlink-1)) ip, 0)

def sysUnlink (s : Fs) (cwd : Inum) (path : List UInt8) : Except Panic (Fs × Int) := do
  let (s, r) ← nameiparent s cwd path
  match r with
  | none => .ok (s, -1)
  | some (dp, name) => do
      let s ← ilock s dp
      if name=dot ∨ name=dotdot then .ok (iput s dp, -1)
      else do
        let (s, found) ← dirlookup s dp name
        match found with
        | none => .ok (iput s dp, -1)
        | some (off, ip) => unlinkFound s dp off ip

/-- `sys_mkdir` and `sys_mknod`: what `create` made is unlocked and put. -/
def createOnly (s : Fs) (cwd : Inum) (path : List UInt8) (type : InodeType) (major minor : Int) :
    Except Panic (Fs × Int) := do
  let (s, r) ← create s cwd path type major minor
  match r with
  | none => .ok (s, -1)
  | some ip => .ok (iput s ip, 0)

def sysMkdir (s : Fs) (cwd : Inum) (path : List UInt8) : Except Panic (Fs × Int) :=
  createOnly s cwd path .dir 0 0

def sysMknod (s : Fs) (cwd : Inum) (path : List UInt8) (major minor : Int) :
    Except Panic (Fs × Int) := createOnly s cwd path .device major minor

end Xv6.FileSystem
