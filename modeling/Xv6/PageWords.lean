import Xv6.Vm
import Xv6.Machine

/-! The page tables of `kernel/vm.c` as they lie in memory: 64-bit words, three tables
deep, linked by the physical page numbers in their entries. -/
namespace Xv6.PageWords
open Xv6.Vm (maxva phystop add64 pgrounddown px Index Panic)

def pteV : Nat := 1

/-- `PA2PTE`. -/
def pa2pte (pa : Nat) : Nat := pa >>> 12 <<< 10

/-- `PTE2PA`. -/
def pte2pa (pte : Nat) : Nat := pte >>> 10 <<< 12%2 ^ 64

/-- `PTE_FLAGS`. -/
def pteFlags (pte : Nat) : Nat := pte &&& 0x3FF

/-- `*pte & PTE_V`. -/
def valid (pte : Nat) : Bool := pte &&& pteV≠0

/-- Memory: the word at each address, the answers of the coming calls of `kalloc`, and the
pages that the page table has taken so far. -/
structure Ram where
  kernelEnd : Nat
  word : Nat → Nat
  supply : List (Option Nat)
  tables : List Nat

namespace Ram

def store (s : Ram) (a v : Nat) : Ram := { s with word := Function.update s.word a v }

def fill (s : Ram) (p : Nat) (v : Nat → Nat) : Ram :=
  { s with word := fun a => if p ≤ a ∧ a < p+pgsize then v a else s.word a }

def kalloc (s : Ram) : Ram × Option Nat :=
  match s.supply with
  | [] => (s, none)
  | p :: supply => ({ s with supply := supply }, p)

/-- `kfree`; `junk` is what its fill and the link of the free list leave in the page. -/
def kfree (s : Ram) (junk : Nat → Nat) (pa : Nat) : Except Panic Ram :=
  if pa%pgsize≠0 ∨ pa < s.kernelEnd ∨ pa ≥ phystop then .error .kfree
  else .ok (s.fill pa junk)

/-- `kfree` when `do_free` is set. -/
def kfreeIf (s : Ram) (doFree : Bool) (junk : Nat → Nat) (pa : Nat) : Except Panic Ram :=
  if doFree then s.kfree junk pa else .ok s

/-- `kalloc` for a page of the page table, and the `memset` of it. -/
def newTable (s : Ram) : Ram × Option Nat :=
  match s.kalloc with
  | (s, none) => (s, none)
  | (s, some p) => ({ s.fill p fun _ => 0 with tables := p :: s.tables }, some p)

end Ram

def slot (pagetable : Nat) (i : Index) : Nat := pagetable+8*i

/-- One round of the loop of `walk`: the table below entry `i`. -/
def walkLevel (s : Ram) (pagetable : Nat) (i : Index) (alloc : Bool) : Ram × Option Nat :=
  if valid (s.word (slot pagetable i)) then (s, some (pte2pa (s.word (slot pagetable i))))
  else if alloc then
    match s.newTable with
    | (s, none) => (s, none)
    | (s, some p) => (s.store (slot pagetable i) (pa2pte p ||| pteV), some p)
  else (s, none)

/-- `walk`: the address of the PTE of `va`. -/
def walk (s : Ram) (pagetable va : Nat) (alloc : Bool) : Except Panic (Ram × Option Nat) :=
  if va ≥ maxva then .error .walk
  else
    match walkLevel s pagetable (px 2 va) alloc with
    | (s, none) => .ok (s, none)
    | (s, some pagetable) =>
      match walkLevel s pagetable (px 1 va) alloc with
      | (s, none) => .ok (s, none)
      | (s, some pagetable) => .ok (s, some (slot pagetable (px 0 va)))

/-- The PTE that `mappages` writes. -/
def leafPte (pa perm : Nat) : Nat := pa2pte pa ||| perm ||| pteV

/-- The loop of `mappages`. The last argument bounds the rounds: when it is used up, `a`
has passed `MAXVA` (see `mappagesFrom_bound`). -/
def mappagesFrom (pagetable perm last : Nat) (s : Ram) (a pa : Nat) :
    Nat → Except Panic (Ram × Bool)
  | 0 => .error .walk
  | n+1 =>
    match walk s pagetable a true with
    | .error e => .error e
    | .ok (s, none) => .ok (s, false)
    | .ok (s, some pte) =>
      if valid (s.word pte) then .error .mappagesRemap
      else
        let s := s.store pte (leafPte pa perm)
        if a=last then .ok (s, true)
        else mappagesFrom pagetable perm last s (add64 a pgsize) (add64 pa pgsize) n

def mappages (s : Ram) (pagetable va size pa perm : Nat) : Except Panic (Ram × Bool) :=
  if size=0 then .error .mappagesSize
  else
    mappagesFrom pagetable perm (pgrounddown (add64 va (size-1))) s (pgrounddown va) pa
      (maxva/pgsize+1)

def uvmunmapFrom (pagetable : Nat) (doFree : Bool) (junk : Nat → Nat) (s : Ram) (a : Nat) :
    Nat → Except Panic Ram
  | 0 => .ok s
  | n+1 =>
    match walk s pagetable a false with
    | .error e => .error e
    | .ok (_, none) => .error .uvmunmapWalk
    | .ok (s, some pte) =>
      if ¬ valid (s.word pte) then .error .uvmunmapNotMapped
      else if pteFlags (s.word pte)=pteV then .error .uvmunmapNotALeaf
      else
        match s.kfreeIf doFree junk (pte2pa (s.word pte)) with
        | .error e => .error e
        | .ok s => uvmunmapFrom pagetable doFree junk (s.store pte 0) (a+pgsize) n

/-- `uvmunmap`. The loop runs while `a < va + npages*PGSIZE`, in 64-bit arithmetic. -/
def uvmunmap (s : Ram) (pagetable va npages : Nat) (doFree : Bool) (junk : Nat → Nat) :
    Except Panic Ram :=
  if va%pgsize≠0 then .error .uvmunmapNotAligned
  else uvmunmapFrom pagetable doFree junk s va ((add64 va (npages*pgsize)-va)/pgsize)

def uvmcreate (s : Ram) : Ram × Option Nat := s.newTable

inductive Call where
  | mappages (va size pa perm : Nat)
  | uvmunmap (va npages : Nat) (doFree : Bool) (junk : Nat → Nat)

def step (pagetable : Nat) (s : Ram) : Call → Option Ram
  | .mappages va size pa perm =>
    match mappages s pagetable va size pa perm with
    | .ok (s, _) => some s
    | .error _ => none
  | .uvmunmap va npages doFree junk =>
    match uvmunmap s pagetable va npages doFree junk with
    | .ok s => some s
    | .error _ => none

def translate (s : Ram) (pagetable va : Nat) : Option Nat :=
  match walk s pagetable va false with
  | .ok (_, some pte) => if valid (s.word pte) then some (s.word pte) else none
  | _ => none

/-- The pages `kalloc` is going to return are pages, and no two are the same. -/
structure Fresh (s : Ram) : Prop where
  page : ∀ p, some p∈s.supply → p%pgsize=0 ∧ p < 2 ^ 64
  distinct : (s.supply.filterMap id).Nodup
  unused : ∀ p, some p∈s.supply → p∉s.tables

/-- No page that the call gives to `kfree` is one of the page table itself. -/
def SparesTables (pagetable : Nat) (s : Ram) : Call → Prop
  | .mappages .. => True
  | .uvmunmap va npages doFree _ => doFree=true →
    ∀ i < npages, ∀ pte∈translate s pagetable (va+i*pgsize), pte2pa pte∉s.tables

instance (pagetable : Nat) (s : Ram) : ∀ c, Decidable (SparesTables pagetable s c)
  | .mappages .. => inferInstanceAs (Decidable True)
  | .uvmunmap va npages doFree _ => inferInstanceAs (Decidable (doFree=true →
    ∀ i < npages, ∀ pte∈translate s pagetable (va+i*pgsize), pte2pa pte∉s.tables))

end Xv6.PageWords
