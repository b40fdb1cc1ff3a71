import Xv6.PipeRing
import Xv6.UserCopy

/-! What `piperead` of `kernel/pipe.c` removes from the pipe and what it delivers. The second loop
runs with `pi->lock` held; each round takes a byte off the ring and then copies it to the
address space of the reader. -/
namespace Xv6.PipeRead
open Function Xv6.Machine Xv6.Total Xv6.Vm Xv6.UserCopy Xv6.PipeRing
open Xv6.UserData (Ram copyout)
variable {P : Type} {s s' : Sys P} {r r' : Ram} {pt : Pagetable} {addr m i j k len va : Nat} {ok : Bool}

def pipereadFrom (pt : Pagetable) (addr : Nat) : Nat → Sys P → Ram → Nat → Except Panic (Sys P × Ram × Nat)
  | 0, s, r, i => .ok (s, r, i)
  | m+1, s, r, i =>
    if s.empty then .ok (s, r, i)
    else do
      let ch := s.data (s.nread%pipesize)
      let s := s.remove
      let (r, ok) ← copyout r pt (add64 addr i) (fun _ => ch) 1
      if ok then pipereadFrom pt addr m s r (i+1) else .ok (s, r, i)

/-- `piperead` once the first loop is left: the pipe, the memory and the value returned. -/
def piperead (pt : Pagetable) (s : Sys P) (r : Ram) (addr : Nat) (n : Int) :
    Except Panic (Sys P × Ram × Nat) :=
  pipereadFrom pt addr n.toNat s r 0

section Machine
variable [DecidableEq P] {p : P} {n : Int}

theorem goto_goto (s : Sys P) (p : P) (a b : Pc) : (s.goto p a).goto p b=s.goto p b := by
  simp only [Sys.goto,update_idem]

theorem goto_remove_goto (s : Sys P) (p : P) (a b : Pc) : (s.goto p a).remove.goto p b=s.remove.goto p b := by
  simp only [Sys.goto,Sys.remove,update_idem]

theorem reaches_readRound (s : Sys P) (p : P) (i n : Int) (ok : Bool) :
    Reaches step (s.goto p (.rCopy i n)) (s.readRound p i n ok) := by
  have hpc : (s.goto p (.rCopy i n)).pc p=.rCopy i n := update_self ..
  have hempty : (s.goto p (.rCopy i n)).empty=s.empty := rfl
  refine .single (l := .advance p (if ok then some 0 else none)) ?_
  show (s.goto p (.rCopy i n)).advance p _ = _
  cases ok with
  | true => simp [Sys.advance,hpc,Sys.readRound,hempty,goto_remove_goto,goto_goto]
  | false => simp [Sys.advance,hpc,Sys.readRound,hempty,goto_remove_goto,goto_goto]

theorem pipereadFrom_steps (hn : n=i+m) (hrun : pipereadFrom pt addr m s r i=.ok (s', r', k)) :
    Reaches step (s.goto p (.rCopy i n)) (s'.goto p (.rDone k)) := by
  induction m generalizing s r i with
  | zero =>
    have hround : s.readRound p i n true=s.goto p (.rDone i) := if_neg (by omega)
    have hlast := reaches_readRound s p i n true
    rw [hround] at hlast
    cases hrun
    exact hlast
  | succ m ih =>
    have hi : (i : Int) < n := by omega
    rw [pipereadFrom] at hrun
    split at hrun
    · rename_i hempty
      have hround : s.readRound p i n true=s.goto p (.rDone i) := by
        rw [Sys.readRound,if_pos hi,if_pos hempty]
      have hlast := reaches_readRound s p i n true
      rw [hround] at hlast
      cases hrun
      exact hlast
    rename_i hempty
    obtain ⟨⟨r₁,ok⟩,-,hrun⟩ := bind_eq_ok.mp hrun
    have hround : s.readRound p i n ok=s.remove.goto p (if ok then .rCopy (i+1) n else .rDone i) := by
      rw [Sys.readRound,if_pos hi,if_neg hempty]
    have hfirst := reaches_readRound s p i n ok
    rw [hround] at hfirst
    cases ok with
    | true =>
      refine hfirst.trans ?_
      have hrest := ih (i := i+1) (by push_cast; omega) hrun
      exact hrest
    | false =>
      cases hrun
      exact hfirst

end Machine

theorem reached_cons (h : Gets pt va) (hrest : Reached pt (va+1) len j ok) :
    Reached pt va (len+1) (j+1) ok := by
  have hva (i : Nat) : va+1+i=va+(i+1) := by omega
  refine ⟨Nat.succ_le_succ hrest.le,fun i hi => ?_,?_⟩
  · cases i with
    | zero => exact h
    | succ i =>
      have hgets := hrest.gets i (Nat.lt_of_succ_lt_succ hi)
      rwa [hva] at hgets
  · have hends := hrest.ends
    cases ok with
    | true => exact congrArg (· + 1) hends
    | false =>
      obtain ⟨hlt,hnot⟩ : j < len ∧ ¬Gets pt (va+1+j) := hends
      rw [hva] at hnot
      exact ⟨Nat.succ_lt_succ hlt,hnot⟩

theorem contents_remove (hs : s.Fifo) (hempty : s.empty=false) :
    s.contents=s.data (s.nread%pipesize) :: s.remove.contents := by
  have h := hs.contents.1
  have h' := (hs.remove hempty).contents.1
  have hstored : s.remove.stored=s.stored := rfl
  have hremoved : s.remove.removed=s.removed++[s.data (s.nread%pipesize)] := rfl
  rw [hstored,hremoved,h,List.append_assoc] at h'
  exact List.append_cancel_left h'

theorem contents_length (hs : s.Fifo) : s.contents.length ≤ pipesize := by
  have hle := hs.contents.2
  simpa [Sys.contents] using hle

theorem contents_empty (hs : s.Fifo) : s.empty=true ↔ s.contents=[] :=
  hs.empty_iff hs.contents.1 (contents_length hs)

/-- What the loop does: it delivers `j` bytes, and takes one more off the ring if the copy of that
one fails. -/
structure Took (s : Sys P) (r : Ram) (pt : Pagetable) (va j : Nat) (ok : Bool) (s' : Sys P) (r' : Ram) :
    Prop where
  fifo : s'.Fifo
  stored : s'.stored=s.stored
  removed : s'.removed=s.removed++s.contents.take (if ok then j else j+1)
  delivered : r'=fillOut r pt va (fun i => s.contents.getD i 0) j

theorem pipereadFrom_spec (hs : s.Fifo) (haddr : addr+i<2^64) :
    Yields (pipereadFrom pt addr m s r i) fun x => ∃ j ok, x.2.2=i+j ∧
      Reached pt (addr+i) (min m s.contents.length) j ok ∧ Took s r pt (addr+i) j ok x.1 x.2.1 := by
  have hnone {s : Sys P} {r : Ram} {i m : Nat} (hs : s.Fifo) (hzero : min m s.contents.length=0) :
      ∃ j ok, i=i+j ∧ Reached pt (addr+i) (min m s.contents.length) j ok ∧
        Took s r pt (addr+i) j ok s r := by
    rw [hzero]
    exact ⟨0,true,rfl,.nothing,hs,rfl,by simp,rfl⟩
  induction m generalizing s r i with
  | zero => exact .ok (hnone hs (Nat.zero_min _))
  | succ m ih =>
    rw [pipereadFrom]
    split
    · rename_i hempty
      rw [contents_empty hs] at hempty
      exact .ok (hnone hs (by simp [hempty]))
    rename_i hempty
    have hempty : s.empty=false := by simpa using hempty
    have hcons := contents_remove hs hempty
    have hva : add64 addr i=addr+i := by
      rw [add64,Nat.mod_eq_of_lt haddr]
    dsimp only
    rw [hva]
    refine (copyout_spec pt r (addr+i) _ 1).bind ?_
    rintro ⟨r₁,ok⟩ ⟨j₁,hreach,hfill⟩
    generalize hch : s.data (s.nread%pipesize)=ch at hcons hfill
    have hremoved : s.remove.removed=s.removed++[ch] := by
      rw [← hch]
      rfl
    have hlen : min (m+1) s.contents.length=min m s.remove.contents.length+1 := by
      rw [hcons,List.length_cons]
      omega
    rw [hlen]
    cases ok with
    | true =>
      obtain rfl : j₁=1 := hreach.all rfl
      have hgets : Gets pt (addr+i) := hreach.gets 0 Nat.one_pos
      have hlow := hgets.accessible.lt
      have hnext : addr+(i+1)<2^64 := by
        rw [maxva_eq] at hlow
        omega
      show Yields (pipereadFrom pt addr m s.remove r₁ (i+1)) _
      refine (ih (hs.remove hempty) hnext).weaken ?_
      rintro ⟨s',r',k⟩ ⟨j,ok,hk,hreach',htook⟩
      rw [← Nat.add_assoc] at hreach' htook
      refine ⟨j+1,ok,?_,reached_cons hgets hreach',htook.fifo,htook.stored,?_,?_⟩
      · have hk : k=i+1+j := hk
        show k=i+(j+1)
        omega
      · have hif : (if ok then j+1 else j+1+1)=(if ok then j else j+1)+1 := by
          cases ok <;> rfl
        rw [htook.removed,hremoved,hcons,hif,List.take_succ_cons,List.append_assoc]
        rfl
      · have hone : r₁=fillOut r pt (addr+i) (fun i => s.contents.getD i 0) 1 := by
          have hfill : r₁=fillOut r pt (addr+i) (fun _ => ch) 1 := hfill
          rw [hfill,fillOut_succ,fillOut_succ,hcons]
          rfl
        rw [htook.delivered,hone,Nat.add_comm j 1,← fillOut_add]
        have hsrc (j : Nat) : s.contents.getD (1+j) 0=s.remove.contents.getD j 0 := by
          rw [hcons,Nat.add_comm 1 j,List.getD_cons_succ]
        simp only [hsrc]
    | false =>
      obtain ⟨hlt,hnot⟩ : j₁<1 ∧ ¬Gets pt (addr+i+j₁) := hreach.ends
      obtain rfl : j₁=0 := by omega
      rw [Nat.add_zero] at hnot
      refine .ok ⟨0,false,rfl,.stuck (by omega) hnot,hs.remove hempty,rfl,?_,?_⟩
      · rw [hremoved,hcons]
        rfl
      · rw [fillOut_zero] at hfill ⊢
        exact hfill

/-- What the call is to do: as many bytes as it returns are gone from the pipe, the others are
still there, and those bytes are in memory from `addr` on. -/
structure Delivered (s : Sys P) (r : Ram) (pt : Pagetable) (addr : Nat) (s' : Sys P) (r' : Ram) (k : Nat) :
    Prop where
  removed : s'.removed.length=s.removed.length+k
  rest : s'.contents=s.contents.drop k
  stored : r'=fillOut r pt addr (fun i => s.contents.getD i 0) k

/-- **A read consumes what it delivers**, for every state of the pipe, every page table and every
`n`, just if no copy fails: the address of every byte it takes can be accessed. -/
theorem piperead_delivers_iff (hpt : NonZero pt) (hs : s.Fifo) (r : Ram) (haddr : addr < 2 ^ 64) (n : Int) :
    Yields (piperead pt s r addr n) fun x => Delivered s r pt addr x.1 x.2.1 x.2.2 ↔
      ∀ i < min n.toNat s.contents.length, Accessible pt (addr+i) := by
  refine (pipereadFrom_spec (i := 0) hs haddr).weaken ?_
  rintro ⟨s',r',k⟩ ⟨j,ok,hk,hreach,htook⟩
  obtain rfl : k=j := hk.trans (Nat.zero_add j)
  rw [Nat.add_zero] at hreach htook
  have hremoved := htook.removed
  simp only [← gets_iff hpt]
  rw [← pages_iff hpt,← hreach.ok_iff hpt]
  have hle := hreach.le
  cases ok with
  | true =>
    refine ⟨fun _ => rfl,fun _ => ⟨?_,?_,htook.delivered⟩⟩
    · rw [hremoved,List.length_append,if_pos rfl,List.length_take]
      omega
    · have hall := htook.fifo.contents.1
      rw [htook.stored,hs.contents.1,hremoved,if_pos rfl,List.append_assoc] at hall
      have hsplit := List.append_cancel_left hall
      refine (List.append_right_inj (s.contents.take k)).mp ?_
      rw [List.take_append_drop]
      exact hsplit.symm
  | false =>
    refine ⟨fun hd => ?_,fun hf => absurd hf Bool.false_ne_true⟩
    have hlen := hd.removed
    have hlt : k < min n.toNat s.contents.length := hreach.ends.1
    rw [hremoved,List.length_append,if_neg Bool.false_ne_true,List.length_take] at hlen
    omega

theorem fifo_of_run [DecidableEq P] {data : Nat → UInt8} {es : List (Event P)}
    (hrun : run step es (init data)=some s) : s.Fifo :=
  run_invariant (fun _ _ _ => step_fifo) ⟨rfl,rfl,[],rfl,Nat.zero_le _,RingIndex.holds_nil⟩ hrun

def oneByteEvents : List (Event Nat) :=
  [.pipewrite 0 1,.advance 0 none,.advance 0 (some 7),.advance 0 none,.advance 0 none,
    .piperead 1 1,.advance 1 none,.advance 1 none]

def oneByte : Sys Nat := (run step oneByteEvents (init fun _ => 0)).get (by decide +kernel)

/-- A read to a page that is not there returns 0, and the byte is gone. -/
theorem failed_copy_drops_byte : oneByte.contents=[7] ∧ oneByte.pc 1=.rCopy 0 1 ∧
    (piperead (onePage dataPte) oneByte zeroRam 4096 1).toOption.map
      (fun x => (x.1.contents, x.1.removed, x.2.2))=some ([], [7], 0) := by
  decide +kernel

theorem oneByte_delivered : ∃ x, piperead (onePage dataPte) oneByte zeroRam 100 1=.ok x ∧
    Delivered oneByte zeroRam (onePage dataPte) 100 x.1 x.2.1 x.2.2 := by
  have hpt : NonZero (onePage dataPte) := fun v e he => by
    rw [← leaf_onePage he]
    decide
  have hrun : run step oneByteEvents (init fun _ => 0)=some oneByte := (Option.some_get _).symm
  have haddr : 100<2^64 := by decide
  obtain ⟨x,hx,hiff⟩ := piperead_delivers_iff hpt (fifo_of_run hrun) zeroRam haddr 1
  refine ⟨x,hx,hiff.mpr fun i hi => ?_⟩
  obtain rfl : i=0 := by
    omega
  exact (accessible_iff _).mpr ⟨by decide,dataPte,by decide,rfl⟩

end Xv6.PipeRead
