import Xv6.FileSystem
import Mathlib.Data.List.FinRange

/-! The system calls that open and close files and change current directories, of
`kernel/sysfile.c`, `kernel/file.c`, `kernel/pipe.c` and `kernel/proc.c`. -/
namespace Xv6.FileSystem
open Function

def ndev : Int := 10
def maxpath : Nat := 128

def oWronly : BitVec 32 := 0x001
def oRdwr : BitVec 32 := 0x002
def oCreate : BitVec 32 := 0x200

abbrev Slot : Type := Fin nproc
abbrev Fd : Type := Fin nofile
abbrev FileId : Type := Fin nfile
/-- Pipes are numbered as they are allocated. -/
abbrev PipeId : Type := Nat

inductive FileType where
  | none
  | pipe
  | inode
  | device
deriving DecidableEq, Repr

structure File where
  ref : Nat
  type : FileType
  readable : Bool
  writable : Bool
  pipe : PipeId
  ip : Inum
  major : Int
deriving DecidableEq, Repr

structure Pipe where
  readopen : Bool
  writeopen : Bool
  /-- How often the pipe has been given to `kfree`. -/
  freed : Nat
deriving DecidableEq, Repr

structure Sys where
  fs : Fs
  file : FileId → File
  pipe : PipeId → Pipe
  npipes : Nat
  ofile : Slot × Fd → Option FileId
  /-- A process has a current directory as long as it runs. -/
  cwd : Slot → Option Inum
  zombie : Slot → Bool

namespace Sys

def setFs (s : Sys) (fs : Fs) : Sys := { s with fs := fs }

def setFile (s : Sys) (f : FileId) (x : File) : Sys := { s with file := update s.file f x }

def setPipe (s : Sys) (n : PipeId) (x : Pipe) : Sys := { s with pipe := update s.pipe n x }

def setOfile (s : Sys) (p : Slot) (fd : Fd) (f : Option FileId) : Sys :=
  { s with ofile := update s.ofile (p, fd) f }

def setCwd (s : Sys) (p : Slot) (i : Option Inum) : Sys := { s with cwd := update s.cwd p i }

def attempt (s : Sys) : Sys := s.setFs s.fs.attempt

end Sys

def argstr (path : List UInt8) : Option (List UInt8) :=
  if path.length < maxpath ∧ 0∉path then some path else none

def argfd (s : Sys) (p : Slot) (n : Int) : Option (Fd × FileId) :=
  if h : n < 0 ∨ (nofile : Int) ≤ n then none
  else
    let fd : Fd := ⟨n.toNat,by omega⟩
    (s.ofile (p, fd)).map fun f => (fd, f)

def fdalloc (s : Sys) (p : Slot) (f : FileId) : Option (Sys × Fd) :=
  ((List.finRange nofile).find? fun fd => s.ofile (p, fd)=none).map fun fd =>
    (s.setOfile p fd (some f), fd)

def filealloc (s : Sys) : Sys × Option FileId :=
  match (List.finRange nfile).find? fun f => (s.file f).ref=0 with
  | none => (s, none)
  | some f => (s.setFile f { s.file f with ref := 1 }, some f)

def filedup (s : Sys) (f : FileId) : Except Panic Sys :=
  if (s.file f).ref < 1 then .error .filedup
  else .ok (s.setFile f { s.file f with ref := (s.file f).ref+1 })

/-- `pi` with one end closed, which frees it when the other end is closed too. -/
def Pipe.close (pi : Pipe) (writable : Bool) : Pipe :=
  let pi := if writable then { pi with writeopen := false } else { pi with readopen := false }
  if !pi.readopen ∧ !pi.writeopen then { pi with freed := pi.freed+1 } else pi

def pipeclose (s : Sys) (n : PipeId) (writable : Bool) : Sys :=
  s.setPipe n ((s.pipe n).close writable)

def fileclose (s : Sys) (f : FileId) : Except Panic Sys :=
  let ff := s.file f
  if ff.ref < 1 then .error .fileclose
  else if 0 < ff.ref-1 then .ok (s.setFile f { ff with ref := ff.ref-1 })
  else
    let s := s.setFile f { ff with ref := 0, type := .none }
    match ff.type with
    | .pipe => .ok (pipeclose s ff.pipe ff.writable)
    | .inode | .device => .ok (s.setFs (iput s.fs ff.ip))
    | .none => .ok s

def sysDup (s : Sys) (p : Slot) (n : Int) : Except Panic (Sys × Int) :=
  match argfd s p n with
  | none => .ok (s, -1)
  | some (_, f) =>
      match fdalloc s p f with
      | none => .ok (s, -1)
      | some (s, fd) => do
          let s ← filedup s f
          .ok (s, fd)

def sysClose (s : Sys) (p : Slot) (n : Int) : Except Panic (Sys × Int) :=
  match argfd s p n with
  | none => .ok (s, -1)
  | some (fd, f) => do
      let s ← fileclose (s.setOfile p fd none) f
      .ok (s, 0)

/-- The inode that `sys_open` opens: made by `create`, or found by its name. -/
def openInode (s : Fs) (cwd : Inum) (path : List UInt8) (omode : BitVec 32) :
    Except Panic (Fs × Option Inum) :=
  if omode &&& oCreate≠0 then create s cwd path .file 0 0
  else do
    let (s, r) ← namei s cwd path
    match r with
    | none => .ok (s, none)
    | some ip => do
        let s ← ilock s ip
        if (s.inode ip).type=.dir ∧ omode≠0 then .ok (iput s ip, none)
        else .ok (s, some ip)

def File.opened (f : File) (ip : Inum) (x : Inode) (omode : BitVec 32) : File :=
  { f with
    type := if x.type=.device then .device else .inode
    major := if x.type=.device then x.major else f.major
    ip := ip
    readable := omode &&& oWronly=0
    writable := omode &&& oWronly≠0 ∨ omode &&& oRdwr≠0 }

def openFile (s : Sys) (p : Slot) (ip : Inum) (omode : BitVec 32) : Except Panic (Sys × Int) :=
  let x := s.fs.inode ip
  if x.type=.device ∧ (x.major < 0 ∨ ndev ≤ x.major) then .ok (s.setFs (iput s.fs ip), -1)
  else
    match filealloc s with
    | (s, none) => .ok (s.setFs (iput s.fs ip), -1)
    | (s, some f) =>
        match fdalloc s p f with
        | none => do
            let s ← fileclose s f
            .ok (s.setFs (iput s.fs ip), -1)
        | some (s, fd) => .ok (s.setFile f ((s.file f).opened ip x omode), fd)

def sysOpen (s : Sys) (p : Slot) (cwd : Inum) (path : List UInt8) (omode : BitVec 32) :
    Except Panic (Sys × Int) := do
  let (fs, r) ← openInode s.fs cwd path omode
  match r with
  | none => .ok (s.setFs fs, -1)
  | some ip => openFile (s.setFs fs) p ip omode

def sysChdir (s : Sys) (p : Slot) (cwd : Inum) (path : List UInt8) : Except Panic (Sys × Int) := do
  let (fs, r) ← namei s.fs cwd path
  match r with
  | none => .ok (s.setFs fs, -1)
  | some ip => do
      let fs ← ilock fs ip
      if (fs.inode ip).type≠.dir then .ok (s.setFs (iput fs ip), -1)
      else .ok ((s.setFs (iput fs cwd)).setCwd p (some ip), 0)

/-- `pipealloc` when both files have been allocated and memory for the pipe has been found. -/
def pipeinit (s : Sys) (f0 f1 : FileId) : Sys :=
  let pi := s.npipes
  let s := { s.setPipe pi ⟨true,true,0⟩ with npipes := pi+1 }
  let s := s.setFile f0 { s.file f0 with
    type := .pipe, readable := true, writable := false, pipe := pi }
  s.setFile f1 { s.file f1 with
    type := .pipe, readable := false, writable := true, pipe := pi }

def closeBoth (s : Sys) (rf wf : FileId) : Except Panic Sys := do
  let s ← fileclose s rf
  fileclose s wf

def pipealloc (s : Sys) : Except Panic (Sys × Option (FileId × FileId)) :=
  match filealloc s with
  | (s, none) => .ok (s, none)
  | (s, some f0) =>
      match filealloc s with
      | (s, none) => do
          let s ← fileclose s f0
          .ok (s, none)
      | (s, some f1) =>
          if s.fs.succeeds then .ok (pipeinit s.attempt f0 f1, some (f0, f1))
          else do
            let s ← closeBoth s.attempt f0 f1
            .ok (s, none)

/-- The two calls of `copyout` in `sys_pipe`, the second only if the first goes well. -/
def copyoutFds (s : Sys) : Sys × Bool :=
  if s.fs.succeeds then (s.attempt.attempt, s.attempt.fs.succeeds) else (s.attempt, false)

/-- `sys_pipe` when there is a pipe: its ends get descriptors, which go to the user. -/
def pipeFds (s : Sys) (p : Slot) (rf wf : FileId) : Except Panic (Sys × Int) :=
  match fdalloc s p rf with
  | none => (closeBoth s rf wf).map fun s => (s, -1)
  | some (s, fd0) =>
      match fdalloc s p wf with
      | none => (closeBoth (s.setOfile p fd0 none) rf wf).map fun s => (s, -1)
      | some (s, fd1) =>
          if (copyoutFds s).2 then .ok ((copyoutFds s).1, 0)
          else
            let s := ((copyoutFds s).1.setOfile p fd0 none).setOfile p fd1 none
            (closeBoth s rf wf).map fun s => (s, -1)

def sysPipe (s : Sys) (p : Slot) : Except Panic (Sys × Int) := do
  let (s, r) ← pipealloc s
  match r with
  | none => .ok (s, -1)
  | some (rf, wf) => pipeFds s p rf wf

def Sys.unused (s : Sys) (p : Slot) : Bool := s.cwd p=none ∧ !s.zombie p

def forkFd (p np : Slot) (s : Sys) (fd : Fd) : Except Panic Sys :=
  match s.ofile (p, fd) with
  | none => .ok s
  | some f => do
      let s ← filedup s f
      .ok (s.setOfile np fd (some f))

/-- `fork`; `allocproc` and `uvmcopy` need memory. The new process is given by its place. -/
def sysFork (s : Sys) (p : Slot) (cwd : Inum) : Except Panic (Sys × Int) :=
  match (List.finRange nproc).find? s.unused with
  | none => .ok (s, -1)
  | some np =>
      if !s.fs.succeeds then .ok (s.attempt, -1)
      else if !s.attempt.fs.succeeds then .ok (s.attempt.attempt, -1)
      else do
        let s ← (List.finRange nofile).foldlM (forkFd p np) s.attempt.attempt
        .ok ((s.setFs (idup s.fs cwd)).setCwd np (some cwd), np)

def exitFd (p : Slot) (s : Sys) (fd : Fd) : Except Panic Sys :=
  match s.ofile (p, fd) with
  | none => .ok s
  | some f => do
      let s ← fileclose s f
      .ok (s.setOfile p fd none)

def initproc : Slot := ⟨0,nproc_pos⟩

def sysExit (s : Sys) (p : Slot) (cwd : Inum) : Except Panic Sys :=
  if p=initproc then .error .initExiting
  else do
    let s ← (List.finRange nofile).foldlM (exitFd p) s
    .ok { (s.setFs (iput s.fs cwd)).setCwd p none with zombie := update s.zombie p true }

inductive Call where
  | open_ (path : List UInt8) (omode : BitVec 32)
  | close (fd : Int)
  | dup (fd : Int)
  | pipe
  | fork
  | chdir (path : List UInt8)
  | exit
  | mkdir (path : List UInt8)
  | mknod (path : List UInt8) (major minor : Int)
  | link (old new : List UInt8)
  | unlink (path : List UInt8)
deriving DecidableEq, Repr

def Sys.onFs (s : Sys) (x : Except Panic (Fs × Int)) : Except Panic (Sys × Int) := do
  let (fs, r) ← x
  .ok (s.setFs fs, r)

def Sys.withPath (s : Sys) (path : List UInt8) (f : List UInt8 → Except Panic (Sys × Int)) :
    Except Panic (Sys × Int) :=
  match argstr path with
  | none => .ok (s, -1)
  | some path => f path

def Call.exec (s : Sys) (p : Slot) (cwd : Inum) : Call → Except Panic (Sys × Int)
  | .open_ path omode => s.withPath path fun path => sysOpen s p cwd path omode
  | .close fd => sysClose s p fd
  | .dup fd => sysDup s p fd
  | .pipe => sysPipe s p
  | .fork => sysFork s p cwd
  | .chdir path => s.withPath path fun path => sysChdir s p cwd path
  | .exit => (sysExit s p cwd).map fun s => (s, 0)
  | .mkdir path => s.withPath path fun path => s.onFs (sysMkdir s.fs cwd path)
  | .mknod path major minor => s.withPath path fun path => s.onFs (sysMknod s.fs cwd path major minor)
  | .link old new => s.withPath old fun old => s.withPath new fun new => s.onFs (sysLink s.fs cwd old new)
  | .unlink path => s.withPath path fun path => s.onFs (sysUnlink s.fs cwd path)

inductive Event where
  | call (p : Slot) (c : Call)
  | wait (p : Slot)
deriving DecidableEq, Repr

def Sys.exec (s : Sys) (p : Slot) (c : Call) : Option (Except Panic (Sys × Int)) :=
  (s.cwd p).map fun cwd => c.exec s p cwd

def step (s : Sys) : Event → Option Sys
  | .call p c => (s.exec p c).bind fun x => x.toOption.map Prod.fst
  | .wait p => if s.zombie p then some { s with zombie := update s.zombie p false } else none

/-- What `mkfs` or an earlier run left on the disk. -/
structure Image where
  ninodes : Nat
  inode : Inum → Inode

/-- The system when `userinit` has given the first process its current directory. -/
def boot (image : Image) (fails : Nat → Bool) : Sys where
  fs :=
    { ninodes := image.ninodes
      inode := image.inode
      ref := update (fun _ => 0) rootino 1
      valid := fun _ => false
      table := [rootino]
      born := fun _ => 0
      fails := fails
      attempts := 0 }
  file _ := ⟨0,.none,false,false,0,0,0⟩
  pipe _ := ⟨false,false,0⟩
  npipes := 0
  ofile _ := none
  cwd := update (fun _ => none) initproc (some rootino)
  zombie _ := false

end Xv6.FileSystem
