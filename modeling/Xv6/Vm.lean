import Xv6.Param
import Xv6.PageTree
import Xv6.Total

/-! The page allocator of `kernel/kalloc.c` and the user page tables of `kernel/vm.c`.
A physical page is named by its address. A page table is the tree of its tables: no
two entries of the source's page tables point to one table, and the leaves of a tree
are the PTEs of level 0. The contents of user pages are left out. -/
namespace Xv6.Vm
open Xv6.PageTree

def kernbase : Nat := 0x80000000

def phystop : Nat := kernbase+128*1024*1024

def maxva : Nat := 2 ^ 38

def trampolineVa : Nat := maxva-pgsize

def trapframeVa : Nat := trampolineVa-pgsize

def add64 (a b : Nat) : Nat := (a+b)%2 ^ 64

def pgroundup (sz : Nat) : Nat := add64 sz (pgsize-1)/pgsize*pgsize

def pgrounddown (a : Nat) : Nat := a/pgsize*pgsize

/-- The calls of `panic` that the modelled functions make. `freewalkUser` is no call of
the source: it stands for `freewalk` taking a user page for a table; `kerneltrap` for an
access through a null page table. -/
inductive Panic where
  | kfree
  | walk
  | mappagesSize
  | mappagesRemap
  | uvmunmapNotAligned
  | uvmunmapWalk
  | uvmunmapNotMapped
  | uvmunmapNotALeaf
  | freewalkLeaf
  | freewalkUser
  | uvmcopyPteShouldExist
  | uvmcopyPageNotPresent
  | uvmclear
  | loadseg
  | filedup
  | fileclose
  | initExiting
  | kerneltrap
deriving DecidableEq, Repr

abbrev Page : Type := Nat

/-- `kmem` and what the linker fixes: `end` and the page of `trampoline`. `fails n` says
that call number `n` of `kalloc` returns 0 even if a page is free. -/
structure Mem where
  kernelEnd : Nat
  trampoline : Page
  freelist : List Page
  calls : Nat
  fails : Nat → Bool

def kfree (m : Mem) (pa : Page) : Except Panic Mem :=
  if pa%pgsize≠0 ∨ pa < m.kernelEnd ∨ pa ≥ phystop then .error .kfree
  else .ok { m with freelist := pa :: m.freelist }

def kalloc (m : Mem) : Mem × Option Page :=
  let m := { m with calls := m.calls+1 }
  if m.fails (m.calls-1) then (m, none)
  else match m.freelist with
    | [] => (m, none)
    | r :: next => ({ m with freelist := next }, some r)

/-- `n` rounds of the loop of `freerange`, from address `p`. -/
def freerangeFrom (m : Mem) (p : Page) : Nat → Except Panic Mem
  | 0 => .ok m
  | n+1 => do
    let m ← kfree m p
    freerangeFrom m (p+pgsize) n

def freerange (m : Mem) (paStart paEnd : Nat) : Except Panic Mem :=
  freerangeFrom m (pgroundup paStart) ((paEnd-pgroundup paStart)/pgsize)

def kinit (m : Mem) : Except Panic Mem := freerange m m.kernelEnd phystop

structure Perm where
  r : Bool
  w : Bool
  x : Bool
  u : Bool
deriving DecidableEq, Repr

structure Pte where
  pa : Page
  perm : Perm
deriving DecidableEq, Repr

abbrev Index : Type := Fin 512

abbrev Pagetable : Type := Tree Page Index Pte

/-- `PX(level, va)`. -/
def px (level va : Nat) : Index := Fin.ofNat 512 (va/2 ^ (12+9*level))

def path (va : Nat) : Path Index := (px 2 va, px 1 va, px 0 va)

/-- `walk` with `alloc == 0`: the entry of level 0, if its table is there. -/
def walk (pt : Pagetable) (va : Nat) : Except Panic (Option (Option Pte)) :=
  if va ≥ maxva then .error .walk
  else .ok <| (pt.entry (px 2 va)).bind fun t => (t.entry (px 1 va)).map fun t => t.entry (px 0 va)

/-- One round of the loop of `walk` with `alloc != 0`: the table below entry `i`, made
if it is not there. -/
def walkLevel {α : Type} (m : Mem) (t : Table Page Index (Table Page Index α)) (i : Index) :
    Mem × Table Page Index (Table Page Index α) × Option (Table Page Index α) :=
  match t.entry i with
  | some next => (m, t, some next)
  | none =>
    match kalloc m with
    | (m, none) => (m, t, none)
    | (m, some pa) => (m, t.set i (some (.empty pa)), some (.empty pa))

/-- `walk` with `alloc != 0`: whether the table of level 0 is there. Tables made before
an allocation fails stay in the tree. -/
def walkAlloc (m : Mem) (pt : Pagetable) (va : Nat) : Except Panic (Mem × Pagetable × Bool) :=
  if va ≥ maxva then .error .walk
  else match walkLevel m pt (px 2 va) with
    | (m, pt, none) => .ok (m, pt, false)
    | (m, pt, some t) =>
      match walkLevel m t (px 1 va) with
      | (m, t, next) => .ok (m, pt.set (px 2 va) (some t), next.isSome)

/-- The physical address of a user page, or 0. -/
def walkaddr (pt : Pagetable) (va : Nat) : Except Panic Page :=
  if va ≥ maxva then .ok 0
  else do
    match ← walk pt va with
    | some (some pte) => .ok (if pte.perm.u then pte.pa else 0)
    | _ => .ok 0

def mappagesFrom (m : Mem) (pt : Pagetable) (a pa : Nat) (perm : Perm) (n : Nat) :
    Except Panic (Mem × Pagetable × Bool) := do
  let (m, pt, found) ← walkAlloc m pt a
  if found then
    if (lookup pt (path a)).isSome then .error .mappagesRemap
    else
      let pt := put pt (path a) (some ⟨pa,perm⟩)
      match n with
      | 0 => .ok (m, pt, true)
      | n+1 => mappagesFrom m pt (a+pgsize) (pa+pgsize) perm n
  else .ok (m, pt, false)

def mappages (m : Mem) (pt : Pagetable) (va size pa : Nat) (perm : Perm) :
    Except Panic (Mem × Pagetable × Bool) :=
  if size=0 then .error .mappagesSize
  else
    let a := pgrounddown va
    let last := pgrounddown (va+size-1)
    mappagesFrom m pt a pa perm ((last-a)/pgsize)

def kfreeIf (doFree : Bool) (m : Mem) (pa : Page) : Except Panic Mem :=
  if doFree then kfree m pa else .ok m

def uvmunmapFrom (m : Mem) (pt : Pagetable) (a : Nat) (doFree : Bool) :
    Nat → Except Panic (Mem × Pagetable)
  | 0 => .ok (m, pt)
  | n+1 => do
    match ← walk pt a with
    | none => .error .uvmunmapWalk
    | some none => .error .uvmunmapNotMapped
    | some (some pte) =>
      if pte.perm=⟨false,false,false,false⟩ then .error .uvmunmapNotALeaf
      else
        let m ← kfreeIf doFree m pte.pa
        uvmunmapFrom m (put pt (path a) none) (a+pgsize) doFree n

def uvmunmap (m : Mem) (pt : Pagetable) (va npages : Nat) (doFree : Bool) :
    Except Panic (Mem × Pagetable) :=
  if va%pgsize≠0 then .error .uvmunmapNotAligned
  else uvmunmapFrom m pt va doFree npages

def uvmcreate (m : Mem) : Mem × Option Pagetable :=
  match kalloc m with
  | (m, none) => (m, none)
  | (m, some pa) => (m, some (.empty pa))

def uvmdealloc (m : Mem) (pt : Pagetable) (oldsz newsz : Nat) :
    Except Panic (Mem × Pagetable × Nat) :=
  if newsz ≥ oldsz then .ok (m, pt, oldsz)
  else if pgroundup newsz < pgroundup oldsz then do
    let npages := (pgroundup oldsz-pgroundup newsz)/pgsize
    let (m, pt) ← uvmunmap m pt (pgroundup newsz) npages true
    .ok (m, pt, newsz)
  else .ok (m, pt, newsz)

def uvmallocFrom (m : Mem) (pt : Pagetable) (oldsz newsz : Nat) (perm : Perm) (a : Nat) :
    Nat → Except Panic (Mem × Pagetable × Nat)
  | 0 => .ok (m, pt, newsz)
  | n+1 => do
    match kalloc m with
    | (m, none) =>
      let (m, pt, _) ← uvmdealloc m pt a oldsz
      .ok (m, pt, 0)
    | (m, some mem) =>
      let (m, pt, mapped) ← mappages m pt a pgsize mem perm
      if mapped then uvmallocFrom m pt oldsz newsz perm (a+pgsize) n
      else
        let m ← kfree m mem
        let (m, pt, _) ← uvmdealloc m pt a oldsz
        .ok (m, pt, 0)

def uvmalloc (m : Mem) (pt : Pagetable) (oldsz newsz : Nat) (w x : Bool) :
    Except Panic (Mem × Pagetable × Nat) :=
  if newsz < oldsz then .ok (m, pt, oldsz)
  else
    let oldsz := pgroundup oldsz
    uvmallocFrom m pt oldsz newsz ⟨true,w,x,true⟩ oldsz ((newsz-oldsz+(pgsize-1))/pgsize)

def ifSome {α : Type} (f : Mem → α → Except Panic Mem) (m : Mem) : Option α → Except Panic Mem
  | none => .ok m
  | some a => f m a

def freeTable {α : Type} (freeEntry : Mem → α → Except Panic Mem) (m : Mem)
    (t : Table Page Index α) : Except Panic Mem := do
  let m ← (List.finRange 512).foldlM (fun m i => ifSome freeEntry m (t.entry i)) m
  kfree m t.page

def freeLeaf (_ : Mem) (pte : Pte) : Except Panic Mem :=
  .error (if pte.perm.r || pte.perm.w || pte.perm.x then .freewalkLeaf else .freewalkUser)

def freewalk (m : Mem) (pt : Pagetable) : Except Panic Mem :=
  freeTable (freeTable (freeTable freeLeaf)) m pt

def uvmfree (m : Mem) (pt : Pagetable) (sz : Nat) : Except Panic Mem :=
  if sz > 0 then do
    let (m, pt) ← uvmunmap m pt 0 (pgroundup sz/pgsize) true
    freewalk m pt
  else freewalk m pt

def uvmcopyFrom (m : Mem) (old new : Pagetable) (i : Nat) :
    Nat → Except Panic (Mem × Pagetable × Bool)
  | 0 => .ok (m, new, true)
  | n+1 => do
    match ← walk old i with
    | none => .error .uvmcopyPteShouldExist
    | some none => .error .uvmcopyPageNotPresent
    | some (some pte) =>
      match kalloc m with
      | (m, none) =>
        let (m, new) ← uvmunmap m new 0 (i/pgsize) true
        .ok (m, new, false)
      | (m, some mem) =>
        let (m, new, mapped) ← mappages m new i pgsize mem pte.perm
        if mapped then uvmcopyFrom m old new (i+pgsize) n
        else
          let m ← kfree m mem
          let (m, new) ← uvmunmap m new 0 (i/pgsize) true
          .ok (m, new, false)

def uvmcopy (m : Mem) (old new : Pagetable) (sz : Nat) : Except Panic (Mem × Pagetable × Bool) :=
  uvmcopyFrom m old new 0 ((sz+(pgsize-1))/pgsize)

def uvmclear (pt : Pagetable) (va : Nat) : Except Panic Pagetable := do
  match ← walk pt va with
  | none => .error .uvmclear
  | some none => .ok pt
  | some (some pte) => .ok (put pt (path va) (some { pte with perm.u := false }))

end Xv6.Vm
