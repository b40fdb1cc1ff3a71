import Xv6.Vm
import Xv6.Proc

/-! The system calls that allocate and free pages: `fork`, `exit`, `wait` and `sbrk` of
`kernel/proc.c`, `exec` of `kernel/exec.c`, `pipe` and `close` of `kernel/pipe.c`,
`kernel/file.c` and `kernel/sysfile.c`. A step is one completed call. What a call finds
outside the modelled state (the file that `exec` reads, whether a `copyout` succeeds)
is part of the label, and so left open. -/
namespace Xv6.UserMemory
open Function Xv6.PageTree Xv6.Vm
open Xv6.Proc (Slot ProcState initproc)

def maxarg : Nat := 32

abbrev Fd : Type := Fin nofile

abbrev FileId : Type := Fin nfile

/-- `FD_NONE`, or `FD_PIPE` with the address of the pipe and `writable`. -/
inductive FileType where
  | none
  | pipe (pi : Page) (writable : Bool)
deriving DecidableEq, Repr

structure File where
  ref : Nat
  type : FileType
deriving DecidableEq, Repr

/-- The flags of the `struct pipe` that lies on a page. -/
structure Pipe where
  readopen : Bool
  writeopen : Bool
deriving DecidableEq, Repr

/-- `ftable`, and the pipes by their address. -/
structure Files where
  file : FileId → File
  pipe : Page → Pipe

structure Task where
  state : ProcState
  trapframe : Option Page
  pagetable : Option Pagetable
  sz : Nat
  parent : Option Slot
  ofile : Fd → Option FileId

def Task.unused : Task := ⟨.unused,none,none,0,none,fun _ => none⟩

/-- `kernel` has the pages that the kernel takes while it boots and keeps. -/
structure Sys where
  mem : Mem
  kernel : List Page
  proc : Slot → Task
  files : Files
  panicked : Option Panic

def filealloc (fs : Files) : Files × Option FileId :=
  match (List.finRange nfile).find? fun f => (fs.file f).ref=0 with
  | none => (fs, none)
  | some f => ({ fs with file := update fs.file f { fs.file f with ref := 1 } }, some f)

def filedup (fs : Files) (f : FileId) : Except Panic Files :=
  if (fs.file f).ref < 1 then .error .filedup
  else .ok { fs with file := update fs.file f { fs.file f with ref := (fs.file f).ref+1 } }

def pipeclose (m : Mem) (fs : Files) (pi : Page) (writable : Bool) : Except Panic (Mem × Files) :=
  let pipe := if writable then { fs.pipe pi with writeopen := false }
    else { fs.pipe pi with readopen := false }
  let fs := { fs with pipe := update fs.pipe pi pipe }
  if !pipe.readopen && !pipe.writeopen then do
    let m ← kfree m pi
    .ok (m, fs)
  else .ok (m, fs)

def fileclose (m : Mem) (fs : Files) (f : FileId) : Except Panic (Mem × Files) :=
  if (fs.file f).ref < 1 then .error .fileclose
  else if (fs.file f).ref-1 > 0 then
    .ok (m, { fs with file := update fs.file f { fs.file f with ref := (fs.file f).ref-1 } })
  else
    let ff := fs.file f
    let fs := { fs with file := update fs.file f ⟨0,.none⟩ }
    match ff.type with
    | .none => .ok (m, fs)
    | .pipe pi writable => pipeclose m fs pi writable

/-- `pipealloc`: the read end and the write end, or nothing when it returns -1. -/
def pipealloc (m : Mem) (fs : Files) : Except Panic (Mem × Files × Option (FileId × FileId)) :=
  match filealloc fs with
  | (fs, none) => .ok (m, fs, none)
  | (fs, some f0) =>
    match filealloc fs with
    | (fs, none) => do
      let (m, fs) ← fileclose m fs f0
      .ok (m, fs, none)
    | (fs, some f1) =>
      match kalloc m with
      | (m, none) => do
        let (m, fs) ← fileclose m fs f0
        let (m, fs) ← fileclose m fs f1
        .ok (m, fs, none)
      | (m, some pi) =>
        let file := update fs.file f0 { fs.file f0 with type := .pipe pi false }
        let file := update file f1 { file f1 with type := .pipe pi true }
        .ok (m, ⟨file,update fs.pipe pi ⟨true,true⟩⟩, some (f0, f1))

def fdalloc (p : Task) (f : FileId) : Task × Option Fd :=
  match (List.finRange nofile).find? fun fd => p.ofile fd=none with
  | none => (p, none)
  | some fd => ({ p with ofile := update p.ofile fd (some f) }, some fd)

def procPagetable (m : Mem) (trapframe : Page) : Except Panic (Mem × Option Pagetable) :=
  match uvmcreate m with
  | (m, none) => .ok (m, none)
  | (m, some pt) => do
    let (m, pt, mapped) ← mappages m pt trampolineVa pgsize m.trampoline ⟨true,false,true,false⟩
    if mapped then
      let (m, pt, mapped) ← mappages m pt trapframeVa pgsize trapframe ⟨true,true,false,false⟩
      if mapped then .ok (m, some pt)
      else
        let (m, pt) ← uvmunmap m pt trampolineVa 1 false
        let m ← uvmfree m pt 0
        .ok (m, none)
    else
      let m ← uvmfree m pt 0
      .ok (m, none)

def procFreepagetable (m : Mem) (pt : Pagetable) (sz : Nat) : Except Panic Mem := do
  let (m, pt) ← uvmunmap m pt trampolineVa 1 false
  let (m, pt) ← uvmunmap m pt trapframeVa 1 false
  uvmfree m pt sz

def freeproc (m : Mem) (p : Task) : Except Panic (Mem × Task) := do
  let m ← ifSome kfree m p.trapframe
  let m ← ifSome (fun m pt => procFreepagetable m pt p.sz) m p.pagetable
  .ok (m, { Task.unused with ofile := p.ofile })

/-- `allocproc` from the label `found` on; the flag says that it returns the process. -/
def allocprocFound (m : Mem) (p : Task) : Except Panic (Mem × Task × Bool) :=
  let p := { p with state := .used }
  match kalloc m with
  | (m, none) => do
    let (m, p) ← freeproc m { p with trapframe := none }
    .ok (m, p, false)
  | (m, some pa) => do
    let (m, pt) ← procPagetable m pa
    let p := { p with trapframe := some pa, pagetable := pt }
    if pt.isSome then .ok (m, p, true)
    else
      let (m, p) ← freeproc m p
      .ok (m, p, false)

def growproc (m : Mem) (p : Task) (n : Int) : Except Panic (Mem × Task) :=
  match p.pagetable with
  | none => .error .kerneltrap
  | some pt => do
    -- 64-bit addition of the sign-extended `n`
    let newsz := ((p.sz+n)%2 ^ 64).toNat
    if n > 0 then
      let (m, pt, sz) ← uvmalloc m pt p.sz newsz true false
      .ok (m, { p with pagetable := some pt, sz := if sz=0 then p.sz else sz })
    else if n < 0 then
      let (m, pt, sz) ← uvmdealloc m pt p.sz newsz
      .ok (m, { p with pagetable := some pt, sz := sz })
    else .ok (m, p)

/-- A program header, and which of the reads of its segment succeed. -/
structure Proghdr where
  load : Bool
  flags : Nat
  vaddr : Nat
  filesz : Nat
  memsz : Nat
  uint64 : vaddr < 2 ^ 64 ∧ filesz < 2 ^ 64 ∧ memsz < 2 ^ 64
  reads : Nat → Bool

/-- What `exec` finds: the file and its ELF header are there, the program headers it
reads (`none` where `readi` fails), and that the arguments fit on the stack. -/
structure Image where
  elf : Bool
  proghdrs : List (Option Proghdr)
  pushed : Bool

def loadsegFrom (pt : Pagetable) (va : Nat) (reads : Nat → Bool) (i : Nat) :
    Nat → Except Panic Bool
  | 0 => .ok true
  | n+1 => do
    let pa ← walkaddr pt (add64 va i)
    if pa=0 then .error .loadseg
    else if reads i then loadsegFrom pt va reads (i+pgsize) n
    else .ok false

def loadseg (pt : Pagetable) (va sz : Nat) (reads : Nat → Bool) : Except Panic Bool :=
  loadsegFrom pt va reads 0 ((sz%2 ^ 32+(pgsize-1))/pgsize)

def loadProgram (m : Mem) (pt : Pagetable) (sz : Nat) :
    List (Option Proghdr) → Except Panic (Mem × Pagetable × Nat × Bool)
  | [] => .ok (m, pt, sz, true)
  | none :: _ => .ok (m, pt, sz, false)
  | some ph :: rest =>
    if !ph.load then loadProgram m pt sz rest
    else if ph.memsz < ph.filesz ∨ add64 ph.vaddr ph.memsz < ph.vaddr ∨ ph.vaddr%pgsize≠0 then
      .ok (m, pt, sz, false)
    else do
      let (m, pt, sz1) ← uvmalloc m pt sz (add64 ph.vaddr ph.memsz) (ph.flags.testBit 1)
        (ph.flags.testBit 0)
      if sz1=0 then .ok (m, pt, sz, false)
      else
        let loaded ← loadseg pt ph.vaddr ph.filesz ph.reads
        if loaded then loadProgram m pt sz1 rest else .ok (m, pt, sz1, false)

def execStack (m : Mem) (pt : Pagetable) (sz : Nat) : Except Panic (Mem × Pagetable × Nat × Bool) := do
  let sz := pgroundup sz
  let (m, pt, sz1) ← uvmalloc m pt sz (add64 sz (2*pgsize)) true false
  if sz1=0 then .ok (m, pt, sz, false)
  else
    let pt ← uvmclear pt (sz1-2*pgsize)
    .ok (m, pt, sz1, true)

def execBad (m : Mem) (p : Task) (pt : Pagetable) (sz : Nat) : Except Panic (Mem × Task) := do
  let m ← procFreepagetable m pt sz
  .ok (m, p)

def exec (m : Mem) (p : Task) (img : Image) : Except Panic (Mem × Task) :=
  if !img.elf then .ok (m, p)
  else do
    let (m, pt) ← procPagetable m (p.trapframe.getD 0)
    match pt with
    | none => .ok (m, p)
    | some pt =>
      let (m, pt, sz, loaded) ← loadProgram m pt 0 img.proghdrs
      if loaded then
        let (m, pt, sz, stacked) ← execStack m pt sz
        if stacked && img.pushed then
          let m ← ifSome (fun m old => procFreepagetable m old p.sz) m p.pagetable
          .ok (m, { p with pagetable := some pt, sz := sz })
        else execBad m p pt sz
      else execBad m p pt sz

/-- The loop of `sys_exec` over `argv`: for each argument whether `fetchaddr` and
`fetchstr` succeed, `last` for the `fetchaddr` of the null pointer. The pages taken, and
whether `exec` is called. -/
def fetchArgs (m : Mem) (argv : List Page) (last : Bool) :
    List (Bool × Bool) → Mem × List Page × Bool
  | [] => (m, argv, argv.length < maxarg && last)
  | (addr, str) :: rest =>
    if argv.length ≥ maxarg ∨ addr=false then (m, argv, false)
    else match kalloc m with
      | (m, none) => (m, argv, false)
      | (m, some pa) =>
        if str then fetchArgs m (argv++[pa]) last rest else (m, argv++[pa], false)

def sysExec (m : Mem) (p : Task) (args : List (Bool × Bool)) (last : Bool) (img : Image) :
    Except Panic (Mem × Task) :=
  match fetchArgs m [] last args with
  | (m, argv, true) => do
    let (m, p) ← exec m p img
    let m ← argv.foldlM kfree m
    .ok (m, p)
  | (m, argv, false) => do
    let m ← argv.foldlM kfree m
    .ok (m, p)

/-- `allocproc`: the new state and the slot it returns. -/
def allocproc (s : Sys) : Except Panic (Sys × Option Slot) :=
  match (List.finRange nproc).find? fun p => (s.proc p).state=.unused with
  | none => .ok (s, none)
  | some np => do
    let (m, task, found) ← allocprocFound s.mem (s.proc np)
    .ok ({ s with mem := m, proc := update s.proc np task }, if found then some np else none)

def dupFd (p : Task) (fs : Files) (fd : Fd) : Except Panic Files :=
  match p.ofile fd with
  | none => .ok fs
  | some f => filedup fs f

def dupFiles (fs : Files) (p : Task) : Except Panic Files :=
  (List.finRange nofile).foldlM (dupFd p) fs

def fork (s : Sys) (p : Slot) : Except Panic Sys := do
  let (s, np) ← allocproc s
  match np with
  | none => .ok s
  | some np =>
    let task := s.proc np
    match (s.proc p).pagetable, task.pagetable with
    | some old, some new =>
      let (m, new, copied) ← uvmcopy s.mem old new (s.proc p).sz
      let task := { task with pagetable := some new }
      if copied then
        let files ← dupFiles s.files (s.proc p)
        let task := { task with
          sz := (s.proc p).sz
          ofile := fun fd => (s.proc p).ofile fd <|> task.ofile fd
          parent := some p
          state := .runnable }
        .ok { s with mem := m, files := files, proc := update s.proc np task }
      else
        let (m, task) ← freeproc m task
        .ok { s with mem := m, proc := update s.proc np task }
    | _, _ => .error .kerneltrap

def closeFd (x : Mem × Files × Task) (fd : Fd) : Except Panic (Mem × Files × Task) :=
  match x.2.2.ofile fd with
  | none => .ok x
  | some f => do
    let (m, fs) ← fileclose x.1 x.2.1 f
    .ok (m, fs, { x.2.2 with ofile := update x.2.2.ofile fd none })

def closeFiles (m : Mem) (fs : Files) (p : Task) : Except Panic (Mem × Files × Task) :=
  (List.finRange nofile).foldlM closeFd (m, fs, p)

def reparent (proc : Slot → Task) (p : Slot) : Slot → Task := fun pp =>
  if (proc pp).parent=some p then { proc pp with parent := some initproc } else proc pp

def exit (s : Sys) (p : Slot) : Except Panic Sys :=
  if p=initproc then .error .initExiting
  else do
    let (m, files, task) ← closeFiles s.mem s.files (s.proc p)
    let proc := reparent (update s.proc p task) p
    let proc := update proc p { proc p with state := .zombie }
    .ok { s with mem := m, files := files, proc := proc }

/-- A scan of `wait`; `copied` says that `addr` is 0 or `copyout` succeeds. -/
def wait (s : Sys) (p : Slot) (copied : Bool) : Except Panic Sys :=
  match (List.finRange nproc).find? fun pp =>
      (s.proc pp).parent=some p ∧ (s.proc pp).state=.zombie with
  | none => .ok s
  | some pp =>
    if copied then do
      let (m, task) ← freeproc s.mem (s.proc pp)
      .ok { s with mem := m, proc := update s.proc pp task }
    else .ok s

/-- `sys_pipe`; `copied` says that both calls of `copyout` succeed. -/
def sysPipe (s : Sys) (p : Slot) (copied : Bool) : Except Panic Sys := do
  let (m, files, ends) ← pipealloc s.mem s.files
  match ends with
  | none => .ok { s with mem := m, files := files }
  | some (rf, wf) =>
    let bad (ofile : Fd → Option FileId) : Except Panic Sys := do
      let (m, files) ← fileclose m files rf
      let (m, files) ← fileclose m files wf
      .ok { s with mem := m, files := files, proc := update s.proc p { s.proc p with ofile := ofile } }
    match fdalloc (s.proc p) rf with
    | (task, none) => bad task.ofile
    | (task, some fd0) =>
      match fdalloc task wf with
      | (task, none) => bad (update task.ofile fd0 none)
      | (task, some fd1) =>
        if copied then .ok { s with mem := m, files := files, proc := update s.proc p task }
        else bad (update (update task.ofile fd0 none) fd1 none)

def sysClose (s : Sys) (p : Slot) (fd : Fd) : Except Panic Sys :=
  match (s.proc p).ofile fd with
  | none => .ok s
  | some f => do
    let task := { s.proc p with ofile := update (s.proc p).ofile fd none }
    let (m, files) ← fileclose s.mem s.files f
    .ok { s with mem := m, files := files, proc := update s.proc p task }

def onTask (s : Sys) (p : Slot) (f : Mem → Task → Except Panic (Mem × Task)) : Except Panic Sys := do
  let (m, task) ← f s.mem (s.proc p)
  .ok { s with mem := m, proc := update s.proc p task }

inductive Call where
  | fork
  | exec (args : List (Bool × Bool)) (last : Bool) (img : Image)
  | exit
  | wait (copied : Bool)
  | sbrk (n : Int)
  | pipe (copied : Bool)
  | close (fd : Fd)

def syscall (s : Sys) (p : Slot) : Call → Except Panic Sys
  | .fork => fork s p
  | .exec args last img => onTask s p fun m task => sysExec m task args last img
  | .exit => exit s p
  | .wait copied => wait s p copied
  | .sbrk n => onTask s p fun m task => growproc m task n
  | .pipe copied => sysPipe s p copied
  | .close fd => sysClose s p fd

def step (s : Sys) (l : Slot × Call) : Option Sys :=
  if s.panicked=none ∧ (s.proc l.1).state.live then
    match syscall s l.1 l.2 with
    | .ok s' => some s'
    | .error e => some { s with panicked := some e }
  else none

/-- `n` calls of `kalloc` by the boot code, each of which has to succeed. -/
def bootPages (m : Mem) : Nat → Option (Mem × List Page)
  | 0 => some (m, [])
  | n+1 =>
    match kalloc m with
    | (_, none) => none
    | (m, some pa) => (bootPages m n).map fun (m, pages) => (m, pa :: pages)

def uvmfirst (m : Mem) (pt : Pagetable) : Option (Mem × Pagetable) :=
  match kalloc m with
  | (_, none) => none
  | (m, some pa) =>
    match mappages m pt 0 pgsize pa ⟨true,true,true,true⟩ with
    | .ok (m, pt, true) => some (m, pt)
    | _ => none

def userinit (s : Sys) : Option Sys :=
  match allocproc s with
  | .ok (s, some p) =>
    match (s.proc p).pagetable with
    | none => none
    | some pt => (uvmfirst s.mem pt).map fun (m, pt) =>
      let task := { s.proc p with pagetable := some pt, sz := pgsize, state := .runnable }
      { s with mem := m, proc := update s.proc p task }
  | _ => none

/-- The state when the first process runs: `kinit`, the `n` pages of the kernel's own
tables, stacks and devices, `userinit`. -/
def boot (m : Mem) (n : Nat) : Option Sys :=
  match kinit { m with freelist := [] } with
  | .error _ => none
  | .ok m =>
    (bootPages m n).bind fun (m, kernel) =>
      userinit ⟨m,kernel,fun _ => Task.unused,⟨fun _ => ⟨0,.none⟩,fun _ => ⟨false,false⟩⟩,none⟩
end Xv6.UserMemory
