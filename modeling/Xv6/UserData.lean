import Xv6.UserMemory

/-! User memory with its contents: the functions of `kernel/kalloc.c`, `kernel/vm.c` and
`kernel/proc.c` that write pages other than page-table pages. The bytes of a page-table
page are the entries of the tree, so the functions that touch tables only are taken over
from the model without contents. -/
namespace Xv6.UserData
open Function Xv6.PageTree Xv6.Vm Xv6.UserMemory

/-- The allocator and the bytes of each page. -/
structure Ram where
  mem : Mem
  data : Page → Nat → UInt8

namespace Ram

/-- `memset(pa, c, PGSIZE)`. -/
def memset (r : Ram) (pa : Page) (c : UInt8) : Ram :=
  { r with data := update r.data pa fun _ => c }

def memmove (r : Ram) (pa : Page) (off n : Nat) (src : Nat → UInt8) : Ram :=
  { r with data := update r.data pa fun o =>
    if off ≤ o ∧ o < off+n then src (o-off) else r.data pa o }

def onTables {α : Type} (r : Ram) (x : Except Panic (Mem × α)) : Except Panic (Ram × α) :=
  match x with
  | .ok (m, a) => .ok ({ r with mem := m }, a)
  | .error e => .error e

end Ram

/-- `kfree`: the page is filled with 1, and its first eight bytes link it to the list. -/
def kfree (r : Ram) (pa : Page) : Except Panic Ram := do
  let m ← Vm.kfree r.mem pa
  let next := r.mem.freelist.headD 0
  .ok (Ram.memmove { r.memset pa 1 with mem := m } pa 0 8 fun o => UInt8.ofNat (next/256 ^ o))

def kalloc (r : Ram) : Ram × Option Page :=
  match Vm.kalloc r.mem with
  | (m, none) => ({ r with mem := m }, none)
  | (m, some pa) => (Ram.memset { r with mem := m } pa 5, some pa)

def kfreeIf (doFree : Bool) (r : Ram) (pa : Page) : Except Panic Ram :=
  if doFree then kfree r pa else .ok r

def uvmunmapFrom (r : Ram) (pt : Pagetable) (a : Nat) (doFree : Bool) :
    Nat → Except Panic (Ram × Pagetable)
  | 0 => .ok (r, pt)
  | n+1 => do
    match ← walk pt a with
    | none => .error .uvmunmapWalk
    | some none => .error .uvmunmapNotMapped
    | some (some pte) =>
      if pte.perm=⟨false,false,false,false⟩ then .error .uvmunmapNotALeaf
      else
        let r ← kfreeIf doFree r pte.pa
        uvmunmapFrom r (put pt (path a) none) (a+pgsize) doFree n

def uvmunmap (r : Ram) (pt : Pagetable) (va npages : Nat) (doFree : Bool) :
    Except Panic (Ram × Pagetable) :=
  if va%pgsize≠0 then .error .uvmunmapNotAligned
  else uvmunmapFrom r pt va doFree npages

def uvmdealloc (r : Ram) (pt : Pagetable) (oldsz newsz : Nat) :
    Except Panic (Ram × Pagetable × Nat) :=
  if newsz ≥ oldsz then .ok (r, pt, oldsz)
  else if pgroundup newsz < pgroundup oldsz then do
    let npages := (pgroundup oldsz-pgroundup newsz)/pgsize
    let (r, pt) ← uvmunmap r pt (pgroundup newsz) npages true
    .ok (r, pt, newsz)
  else .ok (r, pt, newsz)

/-- `n` rounds of the loop of `uvmalloc`, from address `a`; `oldsz` is rounded up. -/
def uvmallocFrom (r : Ram) (pt : Pagetable) (oldsz newsz : Nat) (perm : Perm) (a : Nat) :
    Nat → Except Panic (Ram × Pagetable × Nat)
  | 0 => .ok (r, pt, newsz)
  | n+1 => do
    match kalloc r with
    | (r, none) =>
      let (r, pt, _) ← uvmdealloc r pt a oldsz
      .ok (r, pt, 0)
    | (r, some mem) =>
      let r := r.memset mem 0
      let (r, pt, mapped) ← r.onTables (mappages r.mem pt a pgsize mem perm)
      if mapped then uvmallocFrom r pt oldsz newsz perm (a+pgsize) n
      else
        let r ← kfree r mem
        let (r, pt, _) ← uvmdealloc r pt a oldsz
        .ok (r, pt, 0)

def uvmalloc (r : Ram) (pt : Pagetable) (oldsz newsz : Nat) (w x : Bool) :
    Except Panic (Ram × Pagetable × Nat) :=
  if newsz < oldsz then .ok (r, pt, oldsz)
  else
    let oldsz := pgroundup oldsz
    uvmallocFrom r pt oldsz newsz ⟨true,w,x,true⟩ oldsz ((newsz-oldsz+(pgsize-1))/pgsize)

def growproc (r : Ram) (p : Task) (n : Int) : Except Panic (Ram × Task × Bool) :=
  match p.pagetable with
  | none => .error .kerneltrap
  | some pt => do
    -- 64-bit addition of the sign-extended `n`
    let newsz := ((p.sz+n)%2 ^ 64).toNat
    if n > 0 then
      let (r, pt, sz) ← uvmalloc r pt p.sz newsz true false
      if sz=0 then .ok (r, { p with pagetable := some pt }, false)
      else .ok (r, { p with pagetable := some pt, sz := sz }, true)
    else if n < 0 then
      let (r, pt, sz) ← uvmdealloc r pt p.sz newsz
      .ok (r, { p with pagetable := some pt, sz := sz }, true)
    else .ok (r, p, true)

def copyoutFrom (pt : Pagetable) :
    Nat → Ram → Nat → (Nat → UInt8) → Nat → Except Panic (Ram × Bool)
  | 0, r, _, _, len => .ok (r, len=0)
  | k+1, r, dstva, src, len =>
    if len=0 then .ok (r, true)
    else do
      let va0 := pgrounddown dstva
      let pa0 ← walkaddr pt va0
      if pa0=0 then .ok (r, false)
      else
        let n := min (pgsize-(dstva-va0)) len
        copyoutFrom pt k (r.memmove pa0 (dstva-va0) n src) (add64 va0 pgsize)
          (fun i => src (n+i)) (len-n)

def copyout (r : Ram) (pt : Pagetable) (dstva : Nat) (src : Nat → UInt8) (len : Nat) :
    Except Panic (Ram × Bool) :=
  copyoutFrom pt len r dstva src len

end Xv6.UserData
