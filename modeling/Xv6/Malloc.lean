import Xv6.LinkedRing
import Mathlib.Logic.Function.Basic

/-! The user heap, `user/umalloc.c`. Addresses are bytes, a header has 16 of them, and sizes
count headers. The `sbrk` below it is a parameter. -/
namespace Xv6.Malloc
open Function Xv6.LinkedRing

/-- One more than the largest `uint`. -/
def uint : Nat := 4294967296

structure Header where
  ptr : Nat
  size : Nat

/-- The headers in memory and the static variables; `base` is where the static header is. For
`sbrk`: where memory ends, the bytes asked for in each call, and the bytes obtained. -/
structure Heap where
  base : Nat
  mem : Nat → Header
  freep : Nat
  top : Nat
  asked : List Nat
  granted : Nat

/-- `sbrk` returns the start of new memory, or -1. -/
abbrev Sbrk : Type := Heap → Nat → Heap × Option Nat

/-- The loops need more steps than they have been given. -/
inductive Fault where
  | fuel
deriving DecidableEq, Repr

def Heap.set (h : Heap) (p : Nat) (v : Header) : Heap := { h with mem := update h.mem p v }

/-- `p->s.ptr` -/
def Heap.ptr (h : Heap) (p : Nat) : Nat := (h.mem p).ptr

/-- `p->s.size` -/
def Heap.size (h : Heap) (p : Nat) : Nat := (h.mem p).size

def Heap.between (h : Heap) (bp p : Nat) : Bool :=
  (p < bp && bp < h.ptr p) || (h.ptr p ≤ p && (p < bp || bp < h.ptr p))

def Heap.joinNext (h : Heap) (bp p : Nat) : Heap :=
  if bp+16*h.size bp=h.ptr p then
    h.set bp ⟨h.ptr (h.ptr p),(h.size bp+h.size (h.ptr p))%uint⟩
  else h.set bp ⟨h.ptr p,h.size bp⟩

def Heap.joinPrev (h : Heap) (bp p : Nat) : Heap :=
  if p+16*h.size p=bp then h.set p ⟨h.ptr bp,(h.size p+h.size bp)%uint⟩
  else h.set p ⟨bp,h.size p⟩

def free (h : Heap) (ap fuel : Nat) : Except Fault Heap :=
  let bp := ap-16
  match walk h.ptr (h.between bp) h.freep fuel with
  | none => .error .fuel
  | some p => .ok { (h.joinNext bp p).joinPrev bp p with freep := p }

def morecore (sbrk : Sbrk) (h : Heap) (nu fuel : Nat) : Except Fault (Heap × Nat) :=
  let nu := if nu < 4096 then 4096 else nu
  match sbrk h (nu*16) with
  | (h, none) => .ok (h, 0)
  | (h, some hp) => do
    let h ← free (h.set hp ⟨h.ptr hp,nu⟩) (hp+16) fuel
    .ok (h, h.freep)

/-- `nunits` -/
def unitsFor (nbytes : Nat) : Nat := ((nbytes+15)/16+1)%uint

def Heap.take (h : Heap) (nunits prevp p : Nat) : Heap × Nat :=
  if h.size p=nunits then
    ({ h.set prevp ⟨h.ptr p,h.size prevp⟩ with freep := prevp }, p+16)
  else
    let rest := h.size p-nunits
    let q := p+16*rest
    let h := h.set p ⟨h.ptr p,rest⟩
    ({ h.set q ⟨h.ptr q,nunits⟩ with freep := prevp }, q+16)

def search (sbrk : Sbrk) (nunits steps : Nat) : Heap → Nat → Nat → Nat → Except Fault (Heap × Nat)
  | _, _, _, 0 => .error .fuel
  | h, prevp, p, k+1 =>
    if nunits ≤ h.size p then .ok (h.take nunits prevp p)
    else if p=h.freep then do
      let (h, p) ← morecore sbrk h nunits steps
      if p=0 then .ok (h, 0) else search sbrk nunits steps h p (h.ptr p) k
    else search sbrk nunits steps h p (h.ptr p) k

def malloc (sbrk : Sbrk) (h : Heap) (nbytes fuel : Nat) : Except Fault (Heap × Nat) :=
  let h := if h.freep=0 then { h.set h.base ⟨h.base,0⟩ with freep := h.base } else h
  search sbrk (unitsFor nbytes) fuel h h.freep (h.ptr h.freep) fuel

structure Live where
  addr : Nat
  size : Nat
  nbytes : Nat
deriving DecidableEq, Repr

structure State where
  heap : Heap
  live : List Live
  ops : Nat

/-- What a program does with the heap. It may store what it likes inside of its blocks. -/
inductive Op where
  | malloc (nbytes : Nat)
  | free (p : Nat)
  | store (x : Nat) (v : Header)

/-- Requests fit in an `int`, only blocks in use are freed, and the headers are left alone. -/
def Allowed (s : State) : Op → Prop
  | .malloc nbytes => nbytes < uint ∧ 16*max (unitsFor nbytes) 4096 < 2147483648
  | .free p => ∃ b∈s.live, p=b.addr+16
  | .store x _ => ∃ b∈s.live, b.addr < x ∧ x < b.addr+16*b.size

instance (s : State) : (op : Op) → Decidable (Allowed s op)
  | .malloc nbytes =>
    inferInstanceAs (Decidable (nbytes < uint ∧ 16*max (unitsFor nbytes) 4096 < 2147483648))
  | .free p => inferInstanceAs (Decidable (∃ b∈s.live, p=b.addr+16))
  | .store x _ => inferInstanceAs (Decidable (∃ b∈s.live, b.addr < x ∧ x < b.addr+16*b.size))

/-- The steps that a loop may take: a ring has at most one node for each call, and `base`. -/
def State.fuel (s : State) : Nat := 2*s.ops+4

def exec (sbrk : Sbrk) (s : State) : Op → Option State
  | .malloc nbytes =>
    match malloc sbrk s.heap nbytes s.fuel with
    | .error _ => none
    | .ok (h, 0) => some ⟨h,s.live,s.ops+1⟩
    | .ok (h, p+1) => some ⟨h,⟨p+1-16,unitsFor nbytes,nbytes⟩ :: s.live,s.ops+1⟩
  | .free p =>
    match free s.heap p s.fuel with
    | .error _ => none
    | .ok h => some ⟨h,s.live.eraseP fun b => b.addr+16=p,s.ops+1⟩
  | .store x v => some { s with heap := s.heap.set x v }

section
variable {sbrk : Sbrk} {s : State} {h : Heap} {nbytes p : Nat}

theorem exec_malloc_zero (hrun : malloc sbrk s.heap nbytes s.fuel=.ok (h, 0)) :
    exec sbrk s (.malloc nbytes)=some ⟨h,s.live,s.ops+1⟩ := by
  unfold exec
  simp only
  rw [hrun]

theorem exec_malloc_header (hrun : malloc sbrk s.heap nbytes s.fuel=.ok (h, p+16)) :
    exec sbrk s (.malloc nbytes)=some ⟨h,⟨p,unitsFor nbytes,nbytes⟩::s.live,s.ops+1⟩ := by
  unfold exec
  simp only
  rw [hrun]
  rfl

theorem exec_free (hrun : free s.heap p s.fuel=.ok h) :
    exec sbrk s (.free p)=some ⟨h,s.live.eraseP fun b => b.addr+16=p,s.ops+1⟩ := by
  unfold exec
  simp only
  rw [hrun]

end

def step (sbrk : Sbrk) (s : State) (op : Op) : Option State :=
  if Allowed s op then exec sbrk s op else none

def start (base top : Nat) : State := ⟨⟨base,fun _ => ⟨0,0⟩,0,top,[],0⟩,[],0⟩

/-- Whether `sbrk` succeeds, and the gap before the new memory: this may depend on the earlier
requests, on the bytes obtained so far and on the request. -/
abbrev Env : Type := List Nat → Nat → Nat → Option Nat

/-- An `sbrk` that either fails or returns memory behind all that it returned before. -/
def fresh (env : Env) : Sbrk := fun h n =>
  match env h.asked h.granted n with
  | none => ({ h with asked := n :: h.asked }, none)
  | some gap =>
    ({ h with asked := n :: h.asked, granted := h.granted+n, top := h.top+gap+n },
      some (h.top+gap))

end Xv6.Malloc
