import Xv6.UserData

/-! `exec` of `kernel/exec.c` on a file with its bytes: the ELF header, the program
headers, the segments and the arguments on the stack. -/
namespace Xv6.ExecFile
open Function Xv6.PageTree Xv6.Vm Xv6.UserData
open Xv6.UserMemory (Task maxarg procPagetable)

/-- The contents of an inode; `size` is a `uint`. -/
structure File where
  size : Nat
  byte : Nat → UInt8
  uint : size < 2 ^ 32

/-- How many bytes `readi` of `n` bytes at `off` returns. A `cut` stands for a `bmap` that
fails after so many bytes. -/
def readi (f : File) (cut : Option Nat) (off n : Nat) : Nat :=
  if off > f.size ∨ (off+n)%2 ^ 32 < off then 0
  else
    let n := if (off+n)%2 ^ 32 > f.size then f.size-off else n
    match cut with
    | none => n
    | some c => min n c

/-- The cuts of the calls of `readi` that `exec` makes: for the ELF header, for each program
header and for each page of its segment. -/
structure Disk where
  elf : Option Nat
  ph : Nat → Option Nat
  seg : Nat → Nat → Option Nat

def word (f : File) (off : Nat) : Nat → Nat
  | 0 => 0
  | k+1 => (f.byte off).toNat+256*word f (off+1) k

/-- The fields of `struct elfhdr` that `exec` uses. -/
structure Elfhdr where
  magic : Nat
  entry : Nat
  phoff : Nat
  phnum : Nat
deriving DecidableEq, Repr

def elfMagic : Nat := 0x464C457F

def sizeofElfhdr : Nat := 64

def elfhdr (f : File) : Elfhdr := ⟨word f 0 4,word f 24 8,word f 32 8,word f 56 2⟩

/-- The fields of `struct proghdr` that `exec` uses. -/
structure Proghdr where
  type : Nat
  flags : Nat
  off : Nat
  vaddr : Nat
  filesz : Nat
  memsz : Nat
deriving DecidableEq, Repr

def elfProgLoad : Nat := 1

def sizeofProghdr : Nat := 56

def proghdr (f : File) (off : Nat) : Proghdr :=
  ⟨word f off 4,word f (off+4) 4,word f (off+8) 8,word f (off+16) 8,word f (off+32) 8,
    word f (off+40) 8⟩

def loadsegFrom (f : File) (cut : Nat → Option Nat) (pt : Pagetable) (va offset sz : Nat) (r : Ram)
    (i : Nat) : Nat → Except Panic (Ram × Bool)
  | 0 => .ok (r, true)
  | k+1 => do
    let pa ← walkaddr pt (add64 va i)
    if pa=0 then .error .loadseg
    else
      let n := if sz-i < pgsize then sz-i else pgsize
      let off := (offset+i)%2 ^ 32
      let got := readi f (cut i) off n
      let r := r.memmove pa 0 got fun o => f.byte (off+o)
      if got≠n then .ok (r, false) else loadsegFrom f cut pt va offset sz r (i+pgsize) k

/-- `loadseg`, whose arguments `offset` and `sz` are `uint`s. -/
def loadseg (r : Ram) (pt : Pagetable) (va : Nat) (f : File) (cut : Nat → Option Nat)
    (offset sz : Nat) : Except Panic (Ram × Bool) :=
  loadsegFrom f cut pt va (offset%2 ^ 32) (sz%2 ^ 32) r 0
    ((sz%2 ^ 32+(pgsize-1))/pgsize)

/-- The loop of `exec` over the program headers, with `n` headers left, number `i` of them
at the offset `off` in the file: the table and its size, and whether the program is loaded. -/
def loadProgram (f : File) (disk : Disk) (r : Ram) (pt : Pagetable) (sz i off : Nat) :
    Nat → Except Panic (Ram × Pagetable × Nat × Bool)
  | 0 => .ok (r, pt, sz, true)
  | n+1 =>
    if readi f (disk.ph i) off sizeofProghdr≠sizeofProghdr then .ok (r, pt, sz, false)
    else
      let ph := proghdr f off
      let next := (off+sizeofProghdr)%2 ^ 32
      if ph.type≠elfProgLoad then loadProgram f disk r pt sz (i+1) next n
      else if ph.memsz < ph.filesz ∨ add64 ph.vaddr ph.memsz < ph.vaddr ∨ ph.vaddr%pgsize≠0 then
        .ok (r, pt, sz, false)
      else do
        let (r, pt, sz1) ← uvmalloc r pt sz (add64 ph.vaddr ph.memsz) (ph.flags.testBit 1)
          (ph.flags.testBit 0)
        if sz1=0 then .ok (r, pt, sz, false)
        else
          let (r, loaded) ← loadseg r pt ph.vaddr f (disk.seg i) ph.off ph.filesz
          if loaded then loadProgram f disk r pt sz1 (i+1) next n
          else .ok (r, pt, sz1, false)

def execStack (r : Ram) (pt : Pagetable) (sz : Nat) :
    Except Panic (Ram × Pagetable × Nat × Bool) := do
  let sz := pgroundup sz
  let (r, pt, sz1) ← uvmalloc r pt sz (add64 sz (2*pgsize)) true false
  if sz1=0 then .ok (r, pt, sz, false)
  else
    let pt ← uvmclear pt (sz1-2*pgsize)
    .ok (r, pt, sz1, true)

def sub64 (a b : Nat) : Nat := (a+2 ^ 64-b)%2 ^ 64

/-- `sp` after a push of `n` bytes, aligned to 16 bytes. -/
def pushed (sp n : Nat) : Nat :=
  let sp := sub64 sp n
  sp-sp%16

def cstring (s : List UInt8) (i : Nat) : UInt8 := s.getD i 0

def words (l : List Nat) (i : Nat) : UInt8 := UInt8.ofNat (l.getD (i/8) 0/256 ^ (i%8))

/-- The loop of `exec` over `argv`: `sp` and `ustack`, or nothing if it goes to `bad`. -/
def pushArgs (pt : Pagetable) (stackbase : Nat) (r : Ram) (sp : Nat) (ustack : List Nat) :
    List (List UInt8) → Except Panic (Ram × Option (Nat × List Nat))
  | [] => .ok (r, some (sp, ustack))
  | arg :: argv =>
    if ustack.length ≥ maxarg then .ok (r, none)
    else
      let sp := pushed sp (arg.length+1)
      if sp < stackbase then .ok (r, none)
      else do
        let (r, copied) ← copyout r pt sp (cstring arg) (arg.length+1)
        if copied then pushArgs pt stackbase r sp (ustack++[sp]) argv else .ok (r, none)

def pushStack (r : Ram) (pt : Pagetable) (sz : Nat) (argv : List (List UInt8)) :
    Except Panic (Ram × Option (Nat × Nat)) := do
  let stackbase := sub64 sz pgsize
  let (r, top) ← pushArgs pt stackbase r sz [] argv
  match top with
  | none => .ok (r, none)
  | some (sp, ustack) =>
    let argc := ustack.length
    let sp := pushed sp ((argc+1)*8)
    if sp < stackbase then .ok (r, none)
    else
      let (r, copied) ← copyout r pt sp (words (ustack++[0])) ((argc+1)*8)
      if copied then .ok (r, some (sp, argc)) else .ok (r, none)

def uvmfree (r : Ram) (pt : Pagetable) (sz : Nat) : Except Panic (Ram × Unit) :=
  if sz > 0 then do
    let (r, pt) ← uvmunmap r pt 0 (pgroundup sz/pgsize) true
    r.onTables ((freewalk r.mem pt).map fun m => (m, ()))
  else r.onTables ((freewalk r.mem pt).map fun m => (m, ()))

def procFreepagetable (r : Ram) (pt : Pagetable) (sz : Nat) : Except Panic (Ram × Unit) := do
  let (r, pt) ← uvmunmap r pt trampolineVa 1 false
  let (r, pt) ← uvmunmap r pt trapframeVa 1 false
  uvmfree r pt sz

structure Regs where
  epc : Nat
  sp : Nat
  a1 : Nat
deriving DecidableEq, Repr

structure Process where
  task : Task
  regs : Regs
  name : List UInt8

def lastPart (last : List UInt8) : List UInt8 → List UInt8
  | [] => last
  | c :: s => lastPart (if c=47 then s else last) s

/-- `safestrcpy(p->name, last, sizeof(p->name))`. -/
def nameOf (path : List UInt8) : List UInt8 := (lastPart path path).take 15

def execBad (r : Ram) (p : Process) (pt : Pagetable) (sz : Nat) :
    Except Panic (Ram × Process × Option Nat) := do
  let (r, _) ← procFreepagetable r pt sz
  .ok (r, p, none)

/-- `exec` from the stack on, for a program of size `sz` in the table `pt`. -/
def execCommit (r : Ram) (p : Process) (path : List UInt8) (argv : List (List UInt8)) (entry : Nat)
    (pt : Pagetable) (sz : Nat) : Except Panic (Ram × Process × Option Nat) := do
  let (r, pt, sz, stacked) ← execStack r pt sz
  if stacked then
    let (r, top) ← pushStack r pt sz argv
    match top with
    | none => execBad r p pt sz
    | some (sp, argc) =>
      let new : Process := ⟨{ p.task with pagetable := some pt, sz := sz },⟨entry,sp,sp⟩,nameOf path⟩
      match p.task.pagetable with
      | none => .error .kerneltrap
      | some old =>
        let (r, _) ← procFreepagetable r old p.task.sz
        .ok (r, new, some argc)
  else execBad r p pt sz

/-- `exec`: the number of arguments that it returns, or nothing when it returns -1. `file`
is what `namei` finds. -/
def exec (r : Ram) (p : Process) (path : List UInt8) (argv : List (List UInt8))
    (file : Option File) (disk : Disk) : Except Panic (Ram × Process × Option Nat) :=
  match file with
  | none => .ok (r, p, none)
  | some f =>
    if readi f disk.elf 0 sizeofElfhdr≠sizeofElfhdr then .ok (r, p, none)
    else if (elfhdr f).magic≠elfMagic then .ok (r, p, none)
    else do
      let (r, pt) ← r.onTables (procPagetable r.mem (p.task.trapframe.getD 0))
      match pt with
      | none => .ok (r, p, none)
      | some pt =>
        let (r, pt, sz, loaded) ←
          loadProgram f disk r pt 0 0 ((elfhdr f).phoff%2 ^ 32) (elfhdr f).phnum
        if loaded then execCommit r p path argv (elfhdr f).entry pt sz
        else execBad r p pt sz

end Xv6.ExecFile
