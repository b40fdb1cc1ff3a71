import Xv6.MallocRun
import Xv6.UserData

/-! `malloc` on the `sbrk` of the kernel. The bytes that `morecore` asks for are a 64-bit number,
`sbrk` takes an `int`, and `growproc` shrinks the process if that is negative. -/
namespace Xv6.Malloc
open Function Xv6.Total Xv6.Machine
variable {h h' : Heap} {N used : List Block} {s s' : State} {sbrk : Sbrk}
variable {n k prevp p steps fuel low nbytes : Nat}

/-- `argint`: the low 32 bits of the register, as an `int`. -/
def argint (a : Nat) : Int := (BitVec.ofNat 32 a).toInt

/-- `uvmalloc` gives the new size, or 0 if there is no room. -/
def uvmalloc (room : Nat → Bool) (oldsz newsz : Nat) : Nat :=
  if newsz < oldsz then oldsz else if room newsz then newsz else 0

def uvmdealloc (oldsz newsz : Nat) : Nat := if newsz ≥ oldsz then oldsz else newsz

def growproc (room : Nat → Bool) (sz : Nat) (n : Int) : Option Nat :=
  let newsz := ((sz+n)%2 ^ 64).toNat
  if n > 0 then
    let sz := uvmalloc room sz newsz
    if sz=0 then none else some sz
  else if n < 0 then some (uvmdealloc sz newsz)
  else some sz

/-- Whether there is room for a process of a given size; memory ends at `PHYSTOP`. -/
structure Room where
  has : List Nat → Nat → Bool
  fits : ∀ asked sz, has asked sz=true → sz ≤ Vm.phystop

/-- `sys_sbrk`: the size of the process before the call, or -1. -/
def sysSbrk (room : Room) : Sbrk := fun h a =>
  match growproc (room.has h.asked) h.top (argint a) with
  | none => ({ h with asked := a :: h.asked }, none)
  | some sz => ({ h with asked := a :: h.asked, top := sz, granted := h.granted+sz-h.top }, some h.top)

section Refine
open Xv6.UserData (Ram)

variable {newsz oldsz sz : Nat} {r r' : Ram} {pt pt' : Vm.Pagetable}

theorem uvmallocFrom_size {a : Nat} {perm : Vm.Perm}
    (hrun : UserData.uvmallocFrom r pt oldsz newsz perm a n=.ok (r', pt', sz)) : sz=newsz ∨ sz=0 := by
  induction n generalizing r pt a with
  | zero =>
    cases hrun
    exact .inl rfl
  | succ n ih =>
    rw [UserData.uvmallocFrom] at hrun
    split at hrun
    · obtain ⟨⟨r₁,pt₁,z⟩,-,hret⟩ := bind_eq_ok.mp hrun
      cases hret
      exact .inr rfl
    · obtain ⟨⟨r₁,pt₁,mapped⟩,-,hrun⟩ := bind_eq_ok.mp hrun
      cases mapped with
      | true => exact ih hrun
      | false =>
        obtain ⟨r₂,-,hrun⟩ := bind_eq_ok.mp hrun
        obtain ⟨⟨r₃,pt₃,z⟩,-,hret⟩ := bind_eq_ok.mp hrun
        cases hret
        exact .inr rfl

theorem uvmalloc_size {w x : Bool}
    (hrun : UserData.uvmalloc r pt oldsz newsz w x=.ok (r', pt', sz)) :
    ∃ room, uvmalloc room oldsz newsz=sz := by
  rw [UserData.uvmalloc] at hrun
  split_ifs at hrun with hlt
  · cases hrun
    exact ⟨fun _ => false,if_pos hlt⟩
  · rcases uvmallocFrom_size hrun with rfl | rfl
    · exact ⟨fun _ => true,by rw [uvmalloc,if_neg hlt,if_pos rfl]⟩
    · exact ⟨fun _ => false,by rw [uvmalloc,if_neg hlt,if_neg Bool.false_ne_true]⟩

theorem uvmdealloc_size
    (hrun : UserData.uvmdealloc r pt oldsz newsz=.ok (r', pt', sz)) : sz=uvmdealloc oldsz newsz := by
  rw [UserData.uvmdealloc] at hrun
  split_ifs at hrun with hge hpages
  · cases hrun
    exact (if_pos hge).symm
  · obtain ⟨⟨r₁,pt₁⟩,-,hret⟩ := bind_eq_ok.mp hrun
    cases hret
    exact (if_neg hge).symm
  · cases hrun
    exact (if_neg hge).symm

theorem growproc_break {t t' : UserMemory.Task} {n : Int} {ok : Bool}
    (hrun : UserData.growproc r t n=.ok (r', t', ok)) :
    ∃ room, growproc room t.sz n = if ok then some t'.sz else none := by
  rw [UserData.growproc] at hrun
  split at hrun
  · cases hrun
  · simp only [growproc]
    split_ifs at hrun with hpos hneg
    · obtain ⟨⟨r₁,pt₁,sz⟩,hgrow,hrun⟩ := bind_eq_ok.mp hrun
      obtain ⟨room,hroom⟩ := uvmalloc_size hgrow
      refine ⟨room,?_⟩
      rw [if_pos hpos,hroom]
      dsimp only at hrun
      split_ifs at hrun with hzero
      · cases hrun
        rw [if_pos hzero,if_neg Bool.false_ne_true]
      · cases hrun
        rw [if_neg hzero,if_pos rfl]
    · obtain ⟨⟨r₁,pt₁,sz⟩,hshrink,hret⟩ := bind_eq_ok.mp hrun
      cases hret
      refine ⟨fun _ => false,?_⟩
      rw [if_neg hpos,if_pos hneg,← uvmdealloc_size hshrink,if_pos rfl]
    · cases hrun
      refine ⟨fun _ => false,?_⟩
      rw [if_neg hpos,if_neg hneg,if_pos rfl]

end Refine

theorem argint_eq (hn : n<2^31) : argint n=n := by
  rw [argint,BitVec.toInt_eq_toNat_cond,BitVec.toNat_ofNat,Nat.mod_eq_of_lt (by omega)]
  omega

theorem argint_lt (n : Nat) : argint n < 2^31 := (BitVec.ofNat 32 n).toInt_lt

theorem sysSbrk_eq (room : Room) (hpos : 0 < n) (hn : n<2^31) (htop : h.top ≤ Vm.phystop) :
    sysSbrk room h n=({ h with asked := n::h.asked }, none) ∨ h.top+n ≤ Vm.phystop ∧
      sysSbrk room h n =
        ({ h with asked := n::h.asked, granted := h.granted+n, top := h.top+0+n }, some (h.top+0)) := by
  have hphys : Vm.phystop=2281701376 := by decide
  have hnew : ((h.top+(n : Int))%2^64).toNat=h.top+n := by omega
  have hint : (n : Int) > 0 := by omega
  have hge : ¬h.top+n < h.top := by omega
  have hne : h.top+n≠0 := by omega
  have hgrow : growproc (room.has h.asked) h.top n =
      if room.has h.asked (h.top+n) then some (h.top+n) else none := by
    simp only [growproc,hnew,if_pos hint,uvmalloc,if_neg hge]
    cases room.has h.asked (h.top+n) with
    | false => rfl
    | true => rw [if_pos rfl,if_neg hne,if_pos rfl]
  simp only [sysSbrk,argint_eq hn,hgrow]
  cases hroom : room.has h.asked (h.top+n) with
  | false => exact .inl rfl
  | true =>
    have hgranted : h.granted+(h.top+n)-h.top=h.granted+n := by omega
    refine .inr ⟨room.fits _ _ hroom,?_⟩
    simp only [if_true,hgranted,Nat.add_zero]

theorem sysSbrk_asked (room : Room) (h : Heap) (n : Nat) : (sysSbrk room h n).1.asked=n::h.asked := by
  rw [sysSbrk]
  split <;> rfl

theorem search_asked {r : Heap × Nat} (hsbrk : ∀ h m, (sbrk h m).1.asked=m::h.asked)
    (hrun : search sbrk n steps h prevp p k=.ok r) : h.asked <:+ r.1.asked := by
  induction k generalizing h prevp p with
  | zero => cases hrun
  | succ k ih =>
    rw [search] at hrun
    split_ifs at hrun with hfit hround
    · cases hrun
      have hbrk : (h.take n prevp p).1.asked=h.asked := congrArg (·.2.1) take_brk
      rw [hbrk]
    · obtain ⟨⟨h₁,q⟩,hmore,hrun⟩ := bind_eq_ok.mp hrun
      have hbrk : h₁.asked=request n :: h.asked :=
        (congrArg (·.2.1) (morecore_brk hmore)).trans (hsbrk h (request n))
      have hsuffix : h.asked <:+ h₁.asked := by
        rw [hbrk]
        exact List.suffix_cons _ _
      dsimp only at hrun
      split_ifs at hrun
      · cases hrun
        exact hsuffix
      · exact hsuffix.trans (ih hrun)
    · exact ih hrun

section Safe
variable {room : Room} {op : Op} {ops : List Op} {base top : Nat}

/-- What `malloc` is to do: the break does not move down, the result is 0 or the start of
`nbytes` bytes of the memory between the first break `low` and the break, and what `sbrk`
receives is what it was passed. -/
structure Safe (low : Nat) (h h' : Heap) (nbytes r : Nat) : Prop where
  grows : h.top ≤ h'.top
  inside : r=0 ∨ low ≤ r ∧ r+nbytes ≤ h'.top
  received : ∃ new, h'.asked=new++h.asked ∧ ∀ m∈new, argint m=m

/-- Programs may ask for any number of bytes that is a `uint`. -/
def Valid (s : State) : Op → Prop
  | .malloc nbytes => nbytes < uint
  | .free p => Allowed s (.free p)
  | .store x v => Allowed s (.store x v)

instance (s : State) : (op : Op) → Decidable (Valid s op)
  | .malloc nbytes => inferInstanceAs (Decidable (nbytes < uint))
  | .free p => inferInstanceAs (Decidable (Allowed s (.free p)))
  | .store x v => inferInstanceAs (Decidable (Allowed s (.store x v)))

def userStep (room : Room) (s : State) (op : Op) : Option State :=
  if Valid s op then exec (sysSbrk room) s op else none

/-- A request fits in an `int`, or a block of the free list is large enough. -/
def Modest (s : State) : Op → Prop
  | .malloc nbytes => request (unitsFor nbytes) < 2 ^ 31 ∨
    ∃ N, Nodes s.heap.init N ∧ ∃ Q∈N, unitsFor nbytes ≤ Q.size
  | .free _ => True
  | .store _ _ => True

structure Kept (low : Nat) (s : State) : Prop where
  fine : Fine low s
  granted : s.heap.granted+low ≤ s.heap.top
  top : s.heap.top ≤ Vm.phystop

theorem request_pos (n : Nat) : 0 < request n := by
  rw [request]
  split_ifs <;> omega

theorem init_top : h.init.top=h.top := congrArg (·.1) init_brk

theorem init_granted : h.init.granted=h.granted := congrArg (·.2.2) init_brk

theorem Kept.serves (room : Room) (hs : Kept low s) (hn : request n < 2^31) :
    Serves (sysSbrk room) s.heap.init (request n) ∧
      ((sysSbrk room s.heap.init (request n)).1.top=s.heap.top ∧
        (sysSbrk room s.heap.init (request n)).1.granted=s.heap.granted ∨
      s.heap.top+request n ≤ Vm.phystop ∧
        (sysSbrk room s.heap.init (request n)).1.top=s.heap.top+request n ∧
        (sysSbrk room s.heap.init (request n)).1.granted=s.heap.granted+request n) := by
  have hphys : Vm.phystop=2281701376 := by decide
  have htop := hs.top
  have hgranted := hs.granted
  have hsmall : s.heap.init.granted+request n < 16*uint := by
    rw [init_granted]
    simp only [uint]
    omega
  rcases sysSbrk_eq room (request_pos n) hn (init_top.trans_le htop) with heq | ⟨hle,heq⟩
  · rw [Serves,heq]
    exact ⟨.inl rfl,.inl ⟨init_top,init_granted⟩⟩
  · rw [init_top] at hle
    rw [Serves,heq]
    refine ⟨.inr ⟨0,hsmall,rfl⟩,.inr ⟨hle,?_,?_⟩⟩
    · rw [init_top,Nat.add_zero]
    · rw [init_granted]

theorem Kept.malloc (room : Room) (hs : Kept low s) (hbytes : nbytes < uint)
    (hmodest : Modest s (.malloc nbytes)) :
    ∃ h' r s', Allocated (sysSbrk room) low s nbytes h' r s' ∧ Kept low s' ∧ Safe low s.heap h' nbytes r := by
  -- `sbrk` is called only if no block is large enough, so only with a request that fits
  have hfits (N : List Block) (hN : Nodes s.heap.init N) (hnone : ∀ Q∈N, Q.size < unitsFor nbytes) :
      request (unitsFor nbytes) < 2^31 := by
    rcases hmodest with hlt | ⟨N',hN',Q,hQ,hle⟩
    · exact hlt
    · rw [hN'.unique hN] at hQ
      exact absurd hle (Nat.not_le.mpr (hnone Q hQ))
  obtain ⟨h',r,s',ha⟩ := hs.fine.malloc hbytes fun N hN hnone => (hs.serves room (hfits N hN hnone)).1
  have hkept (htop : h'.top ≤ Vm.phystop) (hgranted : h'.granted+low ≤ h'.top) : Kept low s' :=
    ⟨ha.fine,by rw [ha.heap]; exact hgranted,by rw [ha.heap]; exact htop⟩
  refine ⟨h',r,s',ha,?_⟩
  rcases ha.brk with hbrk | ⟨⟨N,hN,hnone⟩,hbrk⟩
  · have htop : h'.top=s.heap.top := congrArg (·.1) hbrk
    have hasked : h'.asked=s.heap.asked := congrArg (·.2.1) hbrk
    have hgranted : h'.granted=s.heap.granted := congrArg (·.2.2) hbrk
    refine ⟨hkept (by rw [htop]; exact hs.top) (by rw [htop,hgranted]; exact hs.granted),?_⟩
    exact ⟨Nat.le_of_eq htop.symm,ha.inside,[],hasked,by simp⟩
  · have hlt := hfits N hN hnone
    have htop : h'.top=(sysSbrk room s.heap.init (request (unitsFor nbytes))).1.top :=
      congrArg (·.1) hbrk
    have hasked : h'.asked=request (unitsFor nbytes) :: s.heap.asked := by
      have hinit : s.heap.init.asked=s.heap.asked := congrArg (·.2.1) init_brk
      rw [← hinit,← sysSbrk_asked room]
      exact congrArg (·.2.1) hbrk
    have hgranted : h'.granted=(sysSbrk room s.heap.init (request (unitsFor nbytes))).1.granted :=
      congrArg (·.2.2) hbrk
    have hmoved : s.heap.top ≤ h'.top ∧ h'.top ≤ Vm.phystop ∧ h'.granted+low ≤ h'.top := by
      have hgr := hs.granted
      have htp := hs.top
      have hcases := (hs.serves room hlt).2
      omega
    refine ⟨hkept hmoved.2.1 hmoved.2.2,hmoved.1,ha.inside,[request (unitsFor nbytes)],hasked,?_⟩
    intro m hm
    obtain rfl := List.mem_singleton.mp hm
    exact argint_eq hlt

theorem Kept.not_safe {r : Nat} (hs : Kept low s) (hbad : ¬Modest s (.malloc nbytes))
    (hrun : Malloc.malloc (sysSbrk room) s.heap nbytes s.fuel=.ok (h', r)) :
    ¬Safe low s.heap h' nbytes r := by
  obtain ⟨N,hsound,hlen⟩ := hs.fine.init
  have hnone : ∀ Q∈N, Q.size < unitsFor nbytes := fun Q hQ =>
    Nat.lt_of_not_le fun hle => hbad (.inr ⟨N,hsound.nodes,Q,hQ,hle⟩)
  obtain ⟨k,hfuel⟩ : ∃ k, s.fuel=k+N.length := ⟨s.fuel-N.length,by rw [State.fuel]; omega⟩
  have hfreep : ¬s.heap.init.freep=0 := Nat.ne_of_gt hsound.freep_pos
  have hsuffix : request (unitsFor nbytes) :: s.heap.asked <:+ h'.asked := by
    rw [malloc_init fun h0 => (hs.fine.fresh h0).2.2.1] at hrun
    simp only [Malloc.malloc,if_neg hfreep] at hrun
    rw [hfuel,hsound.search_round hnone] at hrun
    obtain ⟨⟨h₁,p⟩,hmore,hrun⟩ := bind_eq_ok.mp hrun
    have hasked : h₁.asked=request (unitsFor nbytes) :: s.heap.asked := by
      have hinit : s.heap.init.asked=s.heap.asked := congrArg (·.2.1) init_brk
      rw [← hinit,← sysSbrk_asked room]
      exact congrArg (·.2.1) (morecore_brk hmore)
    rw [← hasked]
    dsimp only at hrun
    split_ifs at hrun
    · cases hrun
      exact List.suffix_refl _
    · exact search_asked (sysSbrk_asked room) hrun
  rintro ⟨-,-,new,hasked,hreceived⟩
  rw [hasked] at hsuffix
  have hmem : request (unitsFor nbytes)∈new := by
    obtain ⟨past,hpast⟩ := hsuffix
    have heq : past++[request (unitsFor nbytes)]=new :=
      List.append_cancel_right (by rw [← hpast]; simp)
    rw [← heq]
    simp
  have hint := hreceived _ hmem
  have hlt := argint_lt (request (unitsFor nbytes))
  refine hbad (.inl ?_)
  omega

theorem Kept.step (hs : Kept low s) (hmodest : Modest s op) (hstep : userStep room s op=some s') :
    Kept low s' := by
  have hvalid : Valid s op := by
    by_contra hnot
    rw [userStep,if_neg hnot] at hstep
    cases hstep
  rw [userStep,if_pos hvalid] at hstep
  cases op with
  | malloc nbytes =>
    obtain ⟨h',r,t,ha,hkept,-⟩ := hs.malloc room hvalid hmodest
    rw [ha.exec] at hstep
    cases hstep
    exact hkept
  | free p =>
    obtain ⟨h',t,hfree,ht,hheap,hfine⟩ := hs.fine.free hvalid
    rw [ht] at hstep
    cases hstep
    have hbrk := free_brk hfree
    rw [← hheap] at hbrk
    have htop : s'.heap.top=s.heap.top := congrArg (·.1) hbrk
    have hgranted : s'.heap.granted=s.heap.granted := congrArg (·.2.2) hbrk
    exact ⟨hfine,by rw [htop,hgranted]; exact hs.granted,by rw [htop]; exact hs.top⟩
  | store x v =>
    cases hstep
    exact ⟨hs.fine.store hvalid,hs.granted,hs.top⟩

theorem run_kept (hbase : 0 < base) (htop : base+16 ≤ top) (hphys : top ≤ Vm.phystop)
    (hmodest : Along (userStep room) (fun _ s op => Modest s op) [] (start base top) ops)
    (hrun : run (userStep room) ops (start base top)=some s) : Kept top s := by
  have hstart : Kept top (start base top) :=
    ⟨⟨fun _ => ⟨rfl,rfl,hbase,htop,Nat.le_refl _⟩,fun hne => absurd rfl hne,by simp [start]⟩,
      Nat.le_of_eq (Nat.zero_add top),hphys⟩
  refine run_induction (I := fun _ s => Kept top s) ?_ hstart hmodest hrun
  intro past u op t hs hok hstep
  exact hs.step hok hstep

/-- **Requests of any size**: as long as every request fit in an `int` or was served from the
free list, the next call of `malloc` is safe just if its request does too. -/
theorem malloc_safe_iff (hbase : 0 < base) (htop : base+16 ≤ top) (hphys : top ≤ Vm.phystop)
    (hmodest : Along (userStep room) (fun _ s op => Modest s op) [] (start base top) ops)
    (hrun : run (userStep room) ops (start base top)=some s) (hbytes : nbytes < uint) :
    (∃ h' r, malloc (sysSbrk room) s.heap nbytes s.fuel=.ok (h', r) ∧ Safe top s.heap h' nbytes r) ↔
      Modest s (.malloc nbytes) := by
  have hs := run_kept hbase htop hphys hmodest hrun
  constructor
  · rintro ⟨h',r,hmalloc,hsafe⟩
    by_contra hbad
    exact hs.not_safe hbad hmalloc hsafe
  · intro hok
    obtain ⟨h',r,s',ha,-,hsafe⟩ := hs.malloc room hbytes hok
    exact ⟨h',r,ha.ran,hsafe⟩

def roomy : Room := ⟨fun _ sz => sz ≤ Vm.phystop,fun _ _ h => of_decide_eq_true h⟩

def oneCall : State := (run (userStep roomy) [.malloc 100] (start 16 32768)).get (by decide +kernel)

theorem oneCall_next_safe : ∃ h' r, malloc (sysSbrk roomy) oneCall.heap 5000000 oneCall.fuel=.ok (h', r) ∧
    Safe 32768 oneCall.heap h' 5000000 r := by
  have hrun : run (userStep roomy) [.malloc 100] (start 16 32768)=some oneCall :=
    (Option.some_get _).symm
  refine (malloc_safe_iff (by decide) (by decide) (by decide) ?_ hrun (by decide)).mpr (.inl (by decide))
  exact ⟨.inl (by decide),fun _ _ => trivial⟩

/-- A request of `2^32 - 4096` bytes reaches `sbrk` as -4096: the break moves down by a page, and
`morecore` goes on with a header behind it. -/
theorem malloc_moves_break_down : argint (request (unitsFor 4294963184)) = -4096 ∧
    (malloc (sysSbrk roomy) (start 16 32768).heap 4294963184 4).toOption.map (fun x => (x.1.top, x.2)) =
      some (28672, 32784) := by
  decide +kernel

/-! Nothing is lost to small blocks: `free` joins what it can. -/

/-- Blocks with gaps between them need a byte more for each gap. -/
theorem span_le {fs : List Block} {lo hi : Nat} (hle : lo ≤ hi)
    (hsorted : fs.Pairwise fun a b => a.stop < b.addr)
    (hin : ∀ b∈fs, lo ≤ b.addr ∧ b.stop ≤ hi) : 16*total fs+(fs.length-1) ≤ hi-lo := by
  induction fs generalizing lo with
  | nil => exact Nat.zero_le _
  | cons a fs ih =>
    obtain ⟨ha,hsorted⟩ := List.pairwise_cons.mp hsorted
    obtain ⟨⟨hlo,hhi⟩,hin⟩ := List.forall_mem_cons.mp hin
    have hstop : a.stop=a.addr+16*a.size := rfl
    rw [total_cons,List.length_cons]
    cases fs with
    | nil =>
      simp only [total_nil,List.length_nil]
      omega
    | cons b fs =>
      have hb := ha b List.mem_cons_self
      have hbhi := (hin b List.mem_cons_self).2
      have hbstop : b.stop=b.addr+16*b.size := rfl
      have := @ih (a.stop+1) (by omega) hsorted fun c hc => ⟨ha c hc,(hin c hc).2⟩
      rw [List.length_cons] at this ⊢
      omega

theorem sysSbrk_granted (room : Room) (h : Heap) (n : Nat) (hle : h.top ≤ (sysSbrk room h n).1.top) :
    (sysSbrk room h n).1.top+h.granted=h.top+(sysSbrk room h n).1.granted := by
  revert hle
  unfold sysSbrk
  split
  · exact fun _ => rfl
  · intro hle
    change h.top ≤ _ at hle
    dsimp only at hle ⊢
    omega

theorem Kept.contiguous (hs : Kept low s) (hmodest : Modest s op)
    (hstep : userStep room s op=some s') :
    s'.heap.top+s.heap.granted=s.heap.top+s'.heap.granted := by
  have hvalid : Valid s op := by
    by_contra hnot
    rw [userStep,if_neg hnot] at hstep
    cases hstep
  rw [userStep,if_pos hvalid] at hstep
  cases op with
  | malloc nbytes =>
    obtain ⟨h',r,t,ha,-,hsafe⟩ := hs.malloc room hvalid hmodest
    rw [ha.exec] at hstep
    cases hstep
    rw [ha.heap]
    obtain hbrk | ⟨-,hbrk⟩ := ha.brk
    · simp only [Heap.brk,Prod.mk.injEq] at hbrk
      rw [hbrk.1,hbrk.2.2]
    · have hgrows := hsafe.grows
      simp only [Heap.brk,Prod.mk.injEq] at hbrk
      rw [hbrk.1] at hgrows ⊢
      rw [hbrk.2.2,← init_top (h := s.heap),← init_granted (h := s.heap)]
      exact sysSbrk_granted room _ _ (by rw [init_top]; exact hgrows)
  | free p =>
    obtain ⟨h',t,hfree,ht,hheap,-⟩ := hs.fine.free hvalid
    rw [ht] at hstep
    cases hstep
    have hbrk := free_brk hfree
    simp only [Heap.brk,Prod.mk.injEq] at hbrk
    rw [hheap,hbrk.1,hbrk.2.2]
  | store x v =>
    cases hstep
    rfl

theorem run_contiguous (hbase : 0 < base) (htop : base+16 ≤ top) (hphys : top ≤ Vm.phystop)
    (hmodest : Along (userStep room) (fun _ s op => Modest s op) [] (start base top) ops)
    (hrun : run (userStep room) ops (start base top)=some s) : s.heap.top=top+s.heap.granted := by
  have hstart : Kept top (start base top) :=
    @run_kept _ room [] base top hbase htop hphys trivial rfl
  refine (run_induction (I := fun _ s => Kept top s ∧ s.heap.top=top+s.heap.granted) ?_
    ⟨hstart,rfl⟩ hmodest hrun).2
  rintro past u op t ⟨hs,hbrk⟩ hok hstep
  have := hs.contiguous hok hstep
  exact ⟨hs.step hok hstep,by omega⟩

/-- **Freed memory is one block**: over the kernel's `sbrk`, as long as every request fit in an
`int` or was served from the free list, a program that has freed all its blocks has a free list of
one block, from the first break to the break. -/
theorem freed_heap_is_one_block (hbase : 0 < base) (htop : base+16 ≤ top)
    (hphys : top ≤ Vm.phystop)
    (hmodest : Along (userStep room) (fun _ s op => Modest s op) [] (start base top) ops)
    (hrun : run (userStep room) ops (start base top)=some s) (hlive : s.live=[])
    (hgranted : s.heap.granted≠0) :
    ∃ b : Block, Nodes s.heap [⟨s.heap.base,0⟩, b] ∧ b.addr=top ∧ b.stop=s.heap.top := by
  have hs := run_kept hbase htop hphys hmodest hrun
  have hbrk := run_contiguous hbase htop hphys hmodest hrun
  obtain ⟨N,hN,-⟩ := hs.fine.sound fun h0 => hgranted (hs.fine.fresh h0).2.1
  rw [hlive] at hN
  obtain ⟨fs,rfl,hpos⟩ := hN.nodes.head
  have hunits : 16*total fs=s.heap.granted := by simpa using hN.units
  have hin : ∀ b∈fs, top ≤ b.addr ∧ b.stop ≤ s.heap.top :=
    fun b hb => hN.inside b (by simp [hb]) (hpos b hb)
  have hspan := span_le (by omega) (List.pairwise_cons.mp hN.nodes.sorted).2 hin
  match fs with
  | [] => exact absurd hunits.symm hgranted
  | [b] =>
    obtain ⟨hlo,hhi⟩ := hin b List.mem_cons_self
    have hstop : b.stop=b.addr+16*b.size := rfl
    have hunits : 16*b.size=s.heap.granted := by simpa using hunits
    exact ⟨b,hN.nodes,by omega,by omega⟩
  | _ :: _ :: _ =>
    simp only [List.length_cons] at hspan
    omega

def allFreed : State :=
  (run (userStep roomy) [.malloc 100, .malloc 50, .free 98192, .free 98112] (start 16 32768)).get
    (by decide +kernel)

theorem allFreed_is_one_block : ∃ b : Block, Nodes allFreed.heap [⟨allFreed.heap.base,0⟩, b] ∧
    b.addr=32768 ∧ b.stop=allFreed.heap.top := by
  have hrun : run (userStep roomy) [.malloc 100, .malloc 50, .free 98192, .free 98112]
      (start 16 32768)=some allFreed := (Option.some_get _).symm
  refine freed_heap_is_one_block (by decide) (by decide) (by decide) ?_ hrun (by decide +kernel)
    (by decide +kernel)
  exact ⟨.inl (by decide),fun _ _ => ⟨.inl (by decide),fun _ _ => ⟨trivial,fun _ _ => ⟨trivial,
    fun _ _ => trivial⟩⟩⟩⟩

end Safe

end Xv6.Malloc
