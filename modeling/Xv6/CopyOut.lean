import Xv6.ExecAtomic
import Xv6.UserCopy

/-! Which pages `copyout` writes, and with it the system calls that store results in user memory.
`walkaddr` asks for `PTE_V` and `PTE_U` but not for `PTE_W`. -/
namespace Xv6.CopyOut
open Function Xv6.PageTree Xv6.Total Xv6.Vm Xv6.UserData Xv6.UserCopy Xv6.Machine
open Xv6.UserMemory (Sys Laid boot step)
open Xv6.Proc (Slot)
variable {kend : Nat} {r : Ram} {rest : Multiset Page} {pt : Pagetable} {a i k len n sz : Nat}
  {src : Nat → UInt8}

/-- User mode may write at the address: the PTE of its page has `PTE_V`, `PTE_U` and `PTE_W`. -/
def Writable (pt : Pagetable) (a : Nat) : Prop :=
  ∃ e, leaf pt (a/pgsize)=some e ∧ e.perm.u=true ∧ e.perm.w=true

/-- Every address that a copy of `len` bytes to `a` gets to may be written. -/
def Clear (pt : Pagetable) (a len : Nat) : Prop :=
  ∀ i < len, (∀ j ≤ i, Gets pt (a+j)) → Writable pt (a+i)

theorem reached_lt {ok : Bool} (h : Reached pt a len k ok) (hi : i < len)
    (hgets : ∀ j ≤ i, Gets pt (a+j)) : i < k := by
  have hends := h.ends
  cases ok with
  | true =>
    obtain rfl : k=len := hends
    exact hi
  | false =>
    obtain ⟨-,hnot⟩ : k < len ∧ ¬Gets pt (a+k) := hends
    by_contra hle
    exact hnot (hgets k (by omega))

theorem fillOut_zeros (hsrc : ∀ j < k, src j=0) (y : Page × Nat) :
    (fillOut zeroRam pt a src k).data y.1 y.2=0 := by
  induction k with
  | zero => rfl
  | succ k ih =>
    rw [fillOut_succ,write_data]
    split
    · exact hsrc k (Nat.lt_succ_self k)
    · exact ih fun j hj => hsrc j (by omega)

theorem fillOut_ones (src : Nat → UInt8) (hsrc : ∀ j, i ≤ j → src j=1) (hi : i < k) :
    (fillOut r pt a src k).data (target pt (a+i)).1 (target pt (a+i)).2=1 := by
  induction k with
  | zero => cases hi
  | succ k ih =>
    rw [fillOut_succ,write_data]
    split
    · exact hsrc k (by omega)
    · next hne =>
      refine ih (Nat.lt_of_le_of_ne (Nat.le_of_lt_succ hi) ?_)
      rintro rfl
      exact hne rfl

theorem copyout_clear (hclear : Clear pt a len) (r : Ram) (src : Nat → UInt8) :
    Yields (copyout r pt a src len) fun x => (x.2=true → ∀ i < len, Gets pt (a+i)) ∧
      ∃ k, x.1=fillOut r pt a src k ∧ ∀ i < k, Gets pt (a+i) ∧ Writable pt (a+i) := by
  refine (copyout_spec pt r a src len).weaken ?_
  rintro x ⟨k,hreach,hfill⟩
  refine ⟨fun hok => hreach.all hok ▸ hreach.gets,k,hfill,fun i hi => ⟨hreach.gets i hi,?_⟩⟩
  have hle := hreach.le
  exact hclear i (by omega) fun j hj => hreach.gets j (by omega)

theorem clear_of_copyout (h : ∀ r src, Yields (copyout r pt a src len) fun x =>
    ∃ k, x.1=fillOut r pt a src k ∧ ∀ i < k, Writable pt (a+i)) : Clear pt a len := by
  intro i hi hgets
  -- over zeros, the copied bytes are ones from byte `i` on
  obtain ⟨x,hx,k,hfill,hwritable⟩ := h zeroRam fun j => if i ≤ j then 1 else 0
  obtain ⟨k',hreach,hfill'⟩ := (copyout_spec pt zeroRam a _ len).apply hx
  refine hwritable i ?_
  by_contra hle
  have hone := @fillOut_ones zeroRam pt a i k' (fun j => if i ≤ j then 1 else 0)
    (fun j hj => if_pos hj) (reached_lt hreach hi hgets)
  rw [← hfill',hfill,fillOut_zeros fun j hj => if_neg (by omega)] at hone
  cases hone

/-- A call of `copyout`. -/
structure Store where
  addr : Nat
  len : Nat
  src : Nat → UInt8

/-- What `read`, `fstat`, `wait` and `pipe` store. The pieces of `read` are the single bytes
of `piperead` and `consoleread`, or the parts of blocks of `readi`. -/
inductive Result where
  | read (addr : Nat) (pieces : List (Nat × (Nat → UInt8)))
  | fstat (addr : Nat) (st : Nat → UInt8)
  | wait (addr : Nat) (xstate : Nat → UInt8)
  | pipe (fdarray : Nat) (fd0 fd1 : Nat → UInt8)

def pieceStores : Nat → List (Nat × (Nat → UInt8)) → List Store
  | _, [] => []
  | dst, (n, src) :: pieces => ⟨dst,n,src⟩ :: pieceStores (add64 dst n) pieces

def Result.stores : Result → List Store
  | .read addr pieces => pieceStores addr pieces
  | .fstat addr st => [⟨addr,24,st⟩]
  | .wait addr xstate => if addr=0 then [] else [⟨addr,4,xstate⟩]
  | .pipe fdarray fd0 fd1 => [⟨fdarray,4,fd0⟩, ⟨add64 fdarray 4,4,fd1⟩]

/-- The stores of a call, the next only if the one before succeeds. -/
def storeAll (pt : Pagetable) : Ram → List Store → Except Panic (Ram × Bool)
  | r, [] => .ok (r, true)
  | r, x :: stores => do
    let (r, ok) ← copyout r pt x.addr x.src x.len
    if ok then storeAll pt r stores else .ok (r, false)

/-- Every address that the stores get to may be written. -/
def ClearAll (pt : Pagetable) : List Store → Prop
  | [] => True
  | x :: stores => Clear pt x.addr x.len ∧ ((∀ i < x.len, Gets pt (x.addr+i)) → ClearAll pt stores)

/-- None of the first `n` pages that is mapped without `PTE_W` is mapped writable elsewhere. -/
def Apart (pt : Pagetable) (n : Nat) : Prop :=
  ∀ v < n, ∀ e, leaf pt v=some e → e.perm.w=false → ∀ w < 2 ^ 26, ∀ e', leaf pt w=some e' →
    e'.perm.u=true → e'.perm.w=true → e.pa≠e'.pa

theorem apart_of_laid (h : Laid pt sz) (hheld : Held kend r.mem rest pt (npages sz)) :
    Apart pt (npages sz) := by
  intro v hv e he hw w hlt e' he' hu hw' hpa
  have huser : w < npages sz := by
    by_contra hge
    by_cases hlow : w < trapframeVpn
    · cases (h.unmapped w hlow (by omega)).symm.trans he'
    · rw [h.high.kernel w (by omega) (by omega) e' he'] at hu
      cases hu
  obtain rfl := leaf_inj hheld hv huser he he' hpa
  obtain rfl := Option.some.inj (he.symm.trans he')
  rw [hw] at hw'
  cases hw'

/-- No address of the first `n` pages that is mapped without `PTE_W` has another byte. -/
def Keeps (pt : Pagetable) (n : Nat) (r r' : Ram) : Prop :=
  ∀ a e, a/pgsize < n → leaf pt (a/pgsize)=some e → e.perm.w=false →
    userByte r' pt a=userByte r pt a

theorem copyout_keeps (hapart : Apart pt n) (hclear : Clear pt a len) (r : Ram)
    (src : Nat → UInt8) : Yields (copyout r pt a src len) fun x =>
      (x.2=true → ∀ i < len, Gets pt (a+i)) ∧ Keeps pt n r x.1 := by
  refine (copyout_clear hclear r src).weaken ?_
  rintro x ⟨hall,k,hfill,hwritten⟩
  refine ⟨hall,fun b e hb he hw => ?_⟩
  rw [userByte,userByte,he,hfill]
  refine congrArg some (@fillOut_other r pt a k src (e.pa, b%pgsize) fun i hi htarget => ?_)
  obtain ⟨hgets,e',he',hu,hw'⟩ := hwritten i hi
  have hlt := hgets.accessible.lt
  have hentry : entry pt (a+i)=some e' := by
    rw [entry,if_pos hlt,he',Option.filter_some,if_pos hu]
  rw [target,hentry] at htarget
  refine hapart _ hb e he hw _ ?_ e' he' hu hw' (Prod.mk.inj htarget).1.symm
  rw [maxva_eq] at hlt
  rw [pgsize_eq]
  omega

theorem storeAll_keeps (hapart : Apart pt n) (stores : List Store) (hclear : ClearAll pt stores)
    (r : Ram) : Yields (storeAll pt r stores) fun x => Keeps pt n r x.1 := by
  induction stores generalizing r with
  | nil => exact .ok fun _ _ _ _ _ => rfl
  | cons x stores ih =>
    refine (copyout_keeps hapart hclear.1 r x.src).bind ?_
    rintro ⟨r₁,ok⟩ ⟨hall,hkeeps⟩
    cases ok with
    | false => exact .ok hkeeps
    | true =>
      refine (ih (hclear.2 (hall rfl)) r₁).weaken fun y hy b e hb he hw => ?_
      exact (hy b e hb he hw).trans (hkeeps b e hb he hw)

/-- `copyout` writes only through PTEs with `PTE_V`, `PTE_U` and `PTE_W`, for all contents of memory
and of the source, exactly if every address that it gets to has such a PTE. And a call that stores
its results at such addresses leaves every page that is mapped without `PTE_W` as it is. -/
theorem copyout_writes_writable_iff {m : Mem} {n : Nat} {s₀ s : Sys}
    {calls : List (Slot × UserMemory.Call)} (hend : 0 < m.kernelEnd ∧ m.kernelEnd ≤ phystop)
    (hboot : boot m n=some s₀) (hrun : run step calls s₀=some s) :
    (∀ pt a len, (∀ r src, Yields (copyout r pt a src len) fun x =>
        ∃ k, x.1=fillOut r pt a src k ∧ ∀ i < k, Writable pt (a+i)) ↔ Clear pt a len) ∧
    ∀ q pt, (s.proc q).state≠.unused → (s.proc q).pagetable=some pt →
      ∀ (data : Page → Nat → UInt8) (c : Result), ClearAll pt c.stores →
        Yields (storeAll pt ⟨s.mem,data⟩ c.stores) fun x =>
          Keeps pt (npages (s.proc q).sz) ⟨s.mem,data⟩ x.1 := by
  refine ⟨fun pt a len => ⟨clear_of_copyout,fun hclear r src => ?_⟩,
    fun q pt hq hpt data c hclear => storeAll_keeps ?_ _ hclear _⟩
  · refine (copyout_clear hclear r src).weaken ?_
    rintro x ⟨-,k,hfill,hwritten⟩
    exact ⟨k,hfill,fun i hi => (hwritten i hi).2⟩
  · have hgood := (UserMemory.run_good hend hboot hrun).1
    obtain ⟨old,hold,hlaid⟩ := (hgood.slots q).ready hq
    obtain rfl := Option.some.inj (hold.symm.trans hpt)
    have hacc := hgood.account q
    rw [UserMemory.Task.held,hpt,Option.elim_some,← add_assoc] at hacc
    exact apart_of_laid (r := ⟨s.mem,data⟩) hlaid (hlaid.space hacc).toHeld

/-- What a `read` of one byte to address 0 finds and leaves there, after `exec` of a program
whose only segment has the flags for reading and executing, with the bit `PTE_W` of the page. -/
def readsIntoText : Option (Bool × Option UInt8 × Option UInt8) :=
  ExecFile.elfExec.toOption.bind fun x => x.2.1.task.pagetable.bind fun pt => (leaf pt 0).bind fun e =>
    (storeAll pt x.1 (Result.read 0 [(1, fun _ => 1)]).stores).toOption.map fun y =>
      (e.perm.w, userByte x.1 pt 0, userByte y.1 pt 0)

/-- The page of text is mapped without `PTE_W` and changes. -/
theorem read_writes_text : readsIntoText=some (false, some 0x13, some 1) := by
  decide +kernel

/-- `exec` of a program with a page of text at address 0, as the page account has it. -/
def textProgram : UserMemory.Call :=
  .exec [(true, true)] true ⟨true,[some ⟨true,5,0,4,4,by decide,fun _ => true⟩],true⟩

def textEnd : Sys := (run step [(Proc.initproc, textProgram)] ExecFile.elfBoot).get (by decide +kernel)

def textTable : Pagetable := (textEnd.proc Proc.initproc).pagetable.get (by decide +kernel)

/-- Eight bytes read into the stack, above the page of text and the guard page. -/
theorem read_keeps_text : (leaf textTable 0).any (fun e => !e.perm.w) ∧
    Yields (storeAll textTable ⟨textEnd.mem,fun _ _ => 3⟩ (Result.read 8192 [(8, fun _ => 7)]).stores)
      fun x => Keeps textTable 3 ⟨textEnd.mem,fun _ _ => 3⟩ x.1 := by
  have hpages : npages (textEnd.proc Proc.initproc).sz=3 := by decide +kernel
  have hstack : ∃ e, leaf textTable 2=some e ∧ e.perm.u=true ∧ e.perm.w=true :=
    ⟨(leaf textTable 2).get (by decide +kernel),(Option.some_get _).symm,by decide +kernel,by decide +kernel⟩
  have hclear : ClearAll textTable (Result.read 8192 [(8, fun _ => 7)]).stores := by
    refine ⟨fun i hi _ => ?_,fun _ => trivial⟩
    have hi : i<8 := hi
    show Writable textTable (8192+i)
    rwa [Writable,show (8192+i)/pgsize=2 by rw [pgsize_eq]; omega]
  have hboot : boot ExecFile.elfMachine 1=some ExecFile.elfBoot := (Option.some_get _).symm
  have hrun : run step [(Proc.initproc, textProgram)] ExecFile.elfBoot=some textEnd :=
    (Option.some_get _).symm
  have htable : (textEnd.proc Proc.initproc).pagetable=some textTable := (Option.some_get _).symm
  have hkeeps := (copyout_writes_writable_iff (by decide) hboot hrun).2 Proc.initproc textTable
    (by decide +kernel) htable (fun _ _ => 3) _ hclear
  rw [hpages] at hkeeps
  exact ⟨by decide +kernel,hkeeps⟩

end Xv6.CopyOut
