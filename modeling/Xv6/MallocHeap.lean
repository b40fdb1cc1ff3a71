import Xv6.Malloc
import Xv6.Total
import Mathlib.Algebra.Ring.Nat
import Mathlib.Data.List.Infix

/-! The invariant of the user heap. The free blocks are a ring through `base` in the order of
their addresses, and between two of them there is memory that is not free. -/
namespace Xv6.Malloc
open Function Xv6.LinkedRing Xv6.Total

structure Block where
  addr : Nat
  size : Nat
deriving DecidableEq, Repr

variable {h h' : Heap} {N A B fs used : List Block} {P W X Y : Block} {b : Block}
variable {bp p n x fuel low : Nat} {v : Header}

def Block.stop (b : Block) : Nat := b.addr+16*b.size

def Apart (a b : Block) : Prop := a.stop ≤ b.addr ∨ b.stop ≤ a.addr

theorem Apart.symm (h : Apart X Y) : Apart Y X := h.elim .inr .inl

instance : Std.Symm Apart := ⟨fun _ _ => Apart.symm⟩

def total (N : List Block) : Nat := (N.map Block.size).sum

@[simp] theorem total_nil : total []=0 := rfl

@[simp] theorem total_cons (b : Block) (N : List Block) : total (b::N)=b.size+total N := rfl

@[simp] theorem total_append (A B : List Block) : total (A++B)=total A+total B := by
  simp [total]

@[simp] theorem ptr_set_same : (h.set p v).ptr p=v.ptr := by simp [Heap.ptr,Heap.set]

@[simp] theorem size_set_same : (h.set p v).size p=v.size := by simp [Heap.size,Heap.set]

theorem size_set_of_ne (hne : x≠p) : (h.set p v).size x=h.size x := by
  simp [Heap.size,Heap.set,hne]

/-- **The free list**: a ring of headers that starts at `base`, in the order of addresses and
with gaps. -/
structure Nodes (h : Heap) (N : List Block) : Prop where
  head : ∃ fs, N=⟨h.base,0⟩ :: fs ∧ ∀ b∈fs, 0 < b.size
  ring : Seg h.ptr h.base (N.map Block.addr) h.base
  sizes : ∀ b∈N, h.size b.addr=b.size
  sorted : N.Pairwise fun a b => a.stop < b.addr

theorem Nodes.base_le (hN : Nodes h N) (hP : P∈N) : h.base ≤ P.addr := by
  obtain ⟨fs,rfl,-⟩ := hN.head
  rcases List.mem_cons.mp hP with rfl | hP
  · exact Nat.le_refl _
  · have hlt := (List.pairwise_cons.mp hN.sorted).1 P hP
    simp only [Block.stop] at hlt
    omega

theorem Nodes.split (hN : Nodes h (A++P::B)) :
    (∀ Q∈A, Q.stop < P.addr) ∧ (∀ Q∈B, P.stop < Q.addr) ∧ ∀ Q∈A, ∀ R∈B, Q.stop < R.addr := by
  obtain ⟨-,hPB,hall⟩ := List.pairwise_append.mp hN.sorted
  exact ⟨fun Q hQ => hall Q hQ P List.mem_cons_self,(List.pairwise_cons.mp hPB).1,
    fun Q hQ R hR => hall Q hQ R (List.mem_cons_of_mem P hR)⟩

theorem Nodes.seg (hN : Nodes h (A++P::B)) :
    Seg h.ptr h.base (A.map Block.addr++P.addr :: B.map Block.addr) h.base := by
  have hring := hN.ring
  rwa [List.map_append,List.map_cons] at hring

theorem Nodes.ptr_eq (hN : Nodes h (A++P::B)) : h.ptr P.addr=(B.map Block.addr).headD h.base :=
  hN.seg.ptr_eq

theorem Nodes.addr_inj (hN : Nodes h N) (hP : P∈N) (hX : X∈N) (haddr : P.addr=X.addr) : P=X := by
  obtain ⟨A,B,rfl⟩ := List.append_of_mem hP
  have hsplit := hN.split
  rcases List.mem_append.mp hX with hX | hX
  · have hlt := hsplit.1 X hX
    simp only [Block.stop] at hlt
    omega
  rcases List.mem_cons.mp hX with hX | hX
  · exact hX.symm
  · have hlt := hsplit.2.1 X hX
    simp only [Block.stop] at hlt
    omega

theorem Nodes.unique {N' : List Block} (hN : Nodes h N) (hN' : Nodes h N') : N=N' := by
  have hlist {M : List Block} (hM : Nodes h M) : M=(M.map Block.addr).map fun a => ⟨a,h.size a⟩ := by
    rw [List.map_map]
    refine (List.map_id M).symm.trans (List.map_congr_left fun b hb => ?_)
    rw [Function.comp_apply,hM.sizes b hb]
    rfl
  have htail {M : List Block} (hM : Nodes h M) : ∃ l, M.map Block.addr=h.base::l ∧
      Seg h.ptr (h.ptr h.base) l h.base ∧ h.base∉l := by
    obtain ⟨fs,rfl,-⟩ := hM.head
    refine ⟨fs.map Block.addr,rfl,hM.ring.2,fun hmem => ?_⟩
    obtain ⟨Q,hQ,heq⟩ := List.mem_map.mp hmem
    have hlt := (List.pairwise_cons.mp hM.sorted).1 Q hQ
    simp only [Block.stop] at hlt
    omega
  obtain ⟨l,hl,hseg,hnot⟩ := htail hN
  obtain ⟨l',hl',hseg',hnot'⟩ := htail hN'
  rw [hlist hN,hlist hN',hl,hl',hseg.unique hseg' hnot hnot']

theorem Nodes.between_iff (hN : Nodes h (A++P::B)) (hbase : h.base < bp) :
    h.between bp P.addr=true ↔ P.addr < bp ∧ ∀ Q∈B, bp < Q.addr := by
  have hle : h.base ≤ P.addr := hN.base_le (by simp)
  have hnext := hN.ptr_eq
  simp only [Heap.between,Bool.or_eq_true,Bool.and_eq_true,decide_eq_true_eq]
  cases B with
  | nil =>
    have hlast : h.ptr P.addr=h.base := hnext
    simp only [List.not_mem_nil,false_implies,implies_true,and_true]
    omega
  | cons M B =>
    have hM : h.ptr P.addr=M.addr := hnext
    have hPM := hN.split.2.1 M (by simp)
    have hMB : ∀ Q∈B, M.addr < Q.addr := by
      intro Q hQ
      have hsplit : A++P::M::B=(A++[P])++M::B := by simp
      rw [hsplit] at hN
      have hlt := hN.split.2.1 Q hQ
      simp only [Block.stop] at hlt
      omega
    simp only [Block.stop] at hPM
    rw [hM,List.forall_mem_cons]
    constructor
    · intro hb
      exact ⟨by omega,by omega,fun Q hQ => by have hlt := hMB Q hQ; omega⟩
    · rintro ⟨hlt,hlt',-⟩
      exact .inl ⟨hlt,hlt'⟩

theorem Nodes.exists_between (hN : Nodes h N) (hbase : h.base < bp)
    (hne : ∀ Q∈N, Q.addr≠bp) : ∃ A P B, N=A++P::B ∧ P.addr < bp ∧ ∀ Q∈B, bp < Q.addr := by
  obtain ⟨fs,rfl,-⟩ := hN.head
  have hlast (l : List Block) (Z : Block) (hZ : Z.addr < bp)
      (hsorted : (Z::l).Pairwise fun a b => a.stop < b.addr) (hne : ∀ Q∈l, Q.addr≠bp) :
      ∃ A P B, Z::l=A++P::B ∧ P.addr < bp ∧ ∀ Q∈B, bp < Q.addr := by
    induction l generalizing Z with
    | nil => exact ⟨[],Z,[],rfl,hZ,by simp⟩
    | cons M l ih =>
      obtain ⟨hM,hsorted'⟩ := List.pairwise_cons.mp hsorted
      by_cases hlt : M.addr < bp
      · obtain ⟨A,P,B,heq,hP,hB⟩ := ih M hlt hsorted' fun Q hQ => hne Q (List.mem_cons_of_mem M hQ)
        exact ⟨Z::A,P,B,by rw [heq]; rfl,hP,hB⟩
      · have hMbp := hne M (by simp)
        refine ⟨[],Z,M::l,rfl,hZ,List.forall_mem_cons.mpr ⟨by omega,fun Q hQ => ?_⟩⟩
        have hMQ := (List.pairwise_cons.mp hsorted').1 Q hQ
        simp only [Block.stop] at hMQ
        omega
  exact hlast fs ⟨h.base,0⟩ hbase hN.sorted fun Q hQ => hne Q (List.mem_cons_of_mem _ hQ)

/-- **The heap is sound**: the blocks of the free list and the `used` ones lie in `[low, top)`,
have no byte in common, have their sizes in their headers, and make up all that `sbrk` returned. -/
structure Sound (low : Nat) (h : Heap) (N used : List Block) : Prop where
  nodes : Nodes h N
  freep : ∃ Q∈N, Q.addr=h.freep
  bounds : 0 < h.base ∧ h.base+16 ≤ low ∧ low ≤ h.top
  headers : ∀ b∈used, h.size b.addr=b.size ∧ 0 < b.size
  inside : ∀ b∈N++used, 0 < b.size → low ≤ b.addr ∧ b.stop ≤ h.top
  apart : ∀ b∈used, ∀ Q∈N, Apart Q b
  separate : used.Pairwise Apart
  units : 16*(total N+total used)=h.granted
  small : h.granted < 16*uint

theorem Sound.perm {used' : List Block} (hs : Sound low h N used) (hperm : used.Perm used') :
    Sound low h N used' where
  nodes := hs.nodes
  freep := hs.freep
  bounds := hs.bounds
  headers := fun b hb => hs.headers b (hperm.mem_iff.mpr hb)
  inside := by
    intro b hb
    refine hs.inside b ?_
    simpa only [List.mem_append,hperm.mem_iff] using hb
  apart := fun b hb => hs.apart b (hperm.mem_iff.mpr hb)
  separate := hs.separate.perm hperm fun hab => hab.symm
  units := by
    have hsum : total used=total used' := (hperm.map Block.size).sum_nat
    rw [← hsum]
    exact hs.units
  small := hs.small

theorem Nodes.base_or_pos (hN : Nodes h N) (hP : P∈N) : P=⟨h.base,0⟩ ∨ 0 < P.size := by
  obtain ⟨fs,rfl,hpos⟩ := hN.head
  exact (List.mem_cons.mp hP).imp id (hpos P)

theorem Sound.base_lt (hs : Sound low h N used) (hb : b∈used) : h.base+16 ≤ b.addr := by
  have hin := (hs.inside b (List.mem_append_right N hb) (hs.headers b hb).2).1
  have hlow := hs.bounds.2.1
  omega

theorem Sound.addr_ne (hs : Sound low h N used) (hb : b∈used) (hP : P∈N) : P.addr≠b.addr := by
  have hlt := hs.base_lt hb
  have hbpos := (hs.headers b hb).2
  have hapart := hs.apart b hb P hP
  intro heq
  rcases hs.nodes.base_or_pos hP with rfl | hpos
  · have heq : h.base=b.addr := heq
    omega
  · simp only [Apart,Block.stop] at hapart
    omega

theorem Sound.stop_le (hs : Sound low h N used) (hb : b∈used) (hP : P∈N)
    (hlt : P.addr < b.addr) : P.stop ≤ b.addr := by
  have hapart := hs.apart b hb P hP
  simp only [Apart,Block.stop] at hapart ⊢
  omega

theorem Sound.le_addr (hs : Sound low h N used) (hb : b∈used) (hP : P∈N)
    (hlt : b.addr < P.addr) : b.stop ≤ P.addr := by
  have hapart := hs.apart b hb P hP
  simp only [Apart,Block.stop] at hapart ⊢
  omega

theorem joinNext_spec (hN : Nodes h (A++P::B)) (hb : h.size b.addr=b.size)
    (hfit : b.size+total B < uint) (hbase : h.base < b.stop) (hbefore : ∀ Q∈B, b.stop ≤ Q.addr) :
    ∃ (Y : Block) (B' : List Block) (next : Nat), Y.addr=b.addr ∧
      h.joinNext b.addr P.addr=h.set b.addr ⟨next,Y.size⟩ ∧
      Seg h.ptr next (B'.map Block.addr) h.base ∧ B' <:+ B ∧
      Y.size+total B'=b.size+total B ∧ b.size ≤ Y.size ∧ (∀ Q∈B', Y.stop < Q.addr) ∧
      ∀ U : Block, 0 < U.size → Apart b U → (∀ Q∈B, Apart Q U) → Apart Y U := by
  have hnext := hN.ptr_eq
  have hrest := hN.seg.split.2
  by_cases hjoin : b.addr+16*h.size b.addr=h.ptr P.addr
  · cases B with
    | nil =>
      have hlast : h.ptr P.addr=h.base := hnext
      simp only [Block.stop] at hbase
      omega
    | cons M B =>
      have hM : h.ptr P.addr=M.addr := hnext
      have hMsize : h.size M.addr=M.size := hN.sizes M (by simp)
      have hsum : b.size+M.size < uint := by
        rw [total_cons] at hfit
        omega
      refine ⟨⟨b.addr,b.size+M.size⟩,B,h.ptr M.addr,rfl,?_,hrest.2,List.suffix_cons M B,?_,?_,?_,?_⟩
      · rw [Heap.joinNext,if_pos hjoin,hM,hMsize,hb,Nat.mod_eq_of_lt hsum]
      · simp only [total_cons]
        omega
      · exact Nat.le_add_right _ _
      · intro Q hQ
        have hsplit : A++P::M::B=(A++[P])++M::B := by simp
        rw [hsplit] at hN
        have hMQ := hN.split.2.1 Q hQ
        simp only [Block.stop] at hMQ ⊢
        omega
      · intro U hU hbU hBU
        have hMU := hBU M (by simp)
        simp only [Apart,Block.stop] at hbU hMU ⊢
        omega
  · refine ⟨b,B,h.ptr P.addr,rfl,?_,hrest,List.suffix_refl B,rfl,Nat.le_refl _,?_,fun U _ hbU _ => hbU⟩
    · rw [Heap.joinNext,if_neg hjoin,hb]
    · cases B with
      | nil => simp
      | cons M B =>
        have hM : h.ptr P.addr=M.addr := hnext
        have hbM := hbefore M (by simp)
        have hlt : b.stop < M.addr := by
          simp only [Block.stop] at hbM ⊢
          omega
        refine List.forall_mem_cons.mpr ⟨hlt,fun Q hQ => ?_⟩
        have hsplit : A++P::M::B=(A++[P])++M::B := by simp
        rw [hsplit] at hN
        have hMQ := hN.split.2.1 Q hQ
        simp only [Block.stop] at hMQ hlt ⊢
        omega

theorem joinPrev_spec {next : Nat} (hP : h.size P.addr=P.size) (hY : h.size Y.addr=Y.size)
    (hnext : h.ptr Y.addr=next) (hfit : P.size+Y.size < uint) (hle : P.stop ≤ Y.addr) :
    ∃ v : Header, h.joinPrev Y.addr P.addr=h.set P.addr v ∧
      ((P.stop=Y.addr ∧ v=⟨next,P.size+Y.size⟩) ∨ P.stop < Y.addr ∧ v=⟨Y.addr,P.size⟩) := by
  by_cases hjoin : P.addr+16*h.size P.addr=Y.addr
  · refine ⟨_,?_,.inl ⟨?_,rfl⟩⟩
    · rw [Heap.joinPrev,if_pos hjoin,hnext,hP,hY,Nat.mod_eq_of_lt hfit]
    · rw [hP] at hjoin
      exact hjoin
  · refine ⟨_,?_,.inr ⟨?_,rfl⟩⟩
    · rw [Heap.joinPrev,if_neg hjoin,hP]
    · simp only [Block.stop] at hle ⊢
      omega

theorem Nodes.replace {Z : Block} {C D : List Block} (hN : Nodes h (A++P::B)) (hD : D <:+ B)
    (hbase : h'.base=h.base) (hother : ∀ Q∈A++D, h'.mem Q.addr=h.mem Q.addr)
    (hring : Seg h'.ptr P.addr ((Z::C++D).map Block.addr) h.base)
    (hsizes : ∀ Q∈Z::C, h'.size Q.addr=Q.size) (hZ : Z=P ∨ 0 < P.size ∧ 0 < Z.size)
    (hC : ∀ Q∈C, 0 < Q.size) (hsorted : (Z::C).Pairwise fun a b => a.stop < b.addr)
    (hfirst : ∀ Q∈Z::C, P.addr ≤ Q.addr) (hlast : ∀ Q∈Z::C, ∀ R∈D, Q.stop < R.addr) :
    Nodes h' (A++(Z::C++D)) := by
  obtain ⟨hAP,hPB,hAB⟩ := hN.split
  have hDB : ∀ Q∈D, Q∈B := fun Q hQ => hD.subset hQ
  refine ⟨?_,?_,?_,?_⟩
  · obtain ⟨fs,heq,hpos⟩ := hN.head
    rw [hbase]
    cases A with
    | nil =>
      obtain ⟨rfl,rfl⟩ := List.cons.inj heq
      obtain rfl : Z=⟨h.base,0⟩ := hZ.resolve_right fun hlt => absurd hlt.1 (Nat.lt_irrefl 0)
      refine ⟨C++D,rfl,fun Q hQ => ?_⟩
      exact (List.mem_append.mp hQ).elim (hC Q) fun hQ => hpos Q (hDB Q hQ)
    | cons Q₀ A =>
      obtain ⟨rfl,rfl⟩ := List.cons.inj heq
      refine ⟨A++(Z::C++D),rfl,fun Q hQ => ?_⟩
      simp only [List.mem_append,List.mem_cons] at hQ
      rcases hQ with hQ | (rfl | hQ) | hQ
      · exact hpos Q (List.mem_append_left _ hQ)
      · rcases hZ with rfl | ⟨-,hZ⟩
        · exact hpos Q (List.mem_append_right _ (by simp))
        · exact hZ
      · exact hC Q hQ
      · exact hpos Q (List.mem_append_right _ (List.mem_cons_of_mem P (hDB Q hQ)))
  · have hsame : ∀ y∈A.map Block.addr, h'.ptr y=h.ptr y := by
      intro y hy
      obtain ⟨Q,hQ,rfl⟩ := List.mem_map.mp hy
      rw [Heap.ptr,Heap.ptr,hother Q (List.mem_append_left D hQ)]
    rw [hbase,List.map_append]
    exact (hN.seg.split.1.congr hsame).append hring
  · intro Q hQ
    rcases List.mem_append.mp hQ with hQA | hQ
    · rw [Heap.size,hother Q (List.mem_append_left D hQA)]
      exact hN.sizes Q (List.mem_append_left _ hQA)
    rcases List.mem_append.mp hQ with hQC | hQD
    · exact hsizes Q hQC
    · rw [Heap.size,hother Q (List.mem_append_right A hQD)]
      exact hN.sizes Q (List.mem_append_right A (List.mem_cons_of_mem P (hDB Q hQD)))
  · obtain ⟨hA,hPB',-⟩ := List.pairwise_append.mp hN.sorted
    have hDsorted := (List.pairwise_cons.mp hPB').2.sublist hD.sublist
    refine List.pairwise_append.mpr ⟨hA,List.pairwise_append.mpr ⟨hsorted,hDsorted,hlast⟩,?_⟩
    intro Q hQ R hR
    rcases List.mem_append.mp hR with hRC | hRD
    · exact Nat.lt_of_lt_of_le (hAP Q hQ) (hfirst R hRC)
    · exact hAB Q hQ R (hDB R hRD)

theorem Sound.untouched (hs : Sound low h (A++P::B) (b::used))
    (hmem : ∀ x, x≠b.addr → x≠P.addr → h'.mem x=h.mem x) :
    (∀ Q∈A++B, h'.mem Q.addr=h.mem Q.addr) ∧ ∀ u∈used, h'.size u.addr=u.size ∧ 0 < u.size := by
  obtain ⟨hAP,hPB,-⟩ := hs.nodes.split
  constructor
  · intro Q hQ
    have hQmem : Q∈A++P::B := by
      simp only [List.mem_append,List.mem_cons] at hQ ⊢
      tauto
    refine hmem Q.addr (hs.addr_ne (by simp) hQmem) ?_
    rcases List.mem_append.mp hQ with hQ | hQ
    · have hlt := hAP Q hQ
      simp only [Block.stop] at hlt
      omega
    · have hlt := hPB Q hQ
      simp only [Block.stop] at hlt
      omega
  · intro u hu
    have hbu := (List.pairwise_cons.mp hs.separate).1 u hu
    obtain ⟨hsize,hpos⟩ := hs.headers u (List.mem_cons_of_mem b hu)
    have hne : u.addr≠b.addr := by
      have hbpos := (hs.headers b (by simp)).2
      simp only [Apart,Block.stop] at hbu
      omega
    have hne' := hs.addr_ne (List.mem_cons_of_mem b hu) (P := P) (by simp)
    rw [Heap.size,hmem u.addr hne (Ne.symm hne')]
    exact ⟨hsize,hpos⟩

theorem Sound.joined (hs : Sound low h (A++P::B) (b::used)) (haddr : Y.addr=b.addr)
    (hY : ∀ U : Block, 0 < U.size → Apart b U → (∀ Q∈B, Apart Q U) → Apart Y U) :
    low ≤ Y.addr ∧ Y.stop ≤ h.top ∧ ∀ u∈used, Apart Y u := by
  have hb := hs.inside b (by simp) (hs.headers b (by simp)).2
  refine ⟨haddr ▸ hb.1,?_,fun u hu => ?_⟩
  · -- the first byte behind memory is apart from all of them
    have hbehind : Apart Y ⟨h.top,1⟩ := by
      refine hY _ Nat.one_pos (.inl hb.2) fun Q hQ => .inl ?_
      have hQmem : Q∈A++P::B := by simp [hQ]
      rcases hs.nodes.base_or_pos hQmem with rfl | hpos
      · have hbase := hs.bounds
        simp only [Block.stop]
        omega
      · exact (hs.inside Q (List.mem_append_left _ hQmem) hpos).2
    simp only [Apart,Block.stop] at hbehind hb ⊢
    omega
  · have hu' := List.mem_cons_of_mem b hu
    refine hY u (hs.headers u hu').2 ((List.pairwise_cons.mp hs.separate).1 u hu) fun Q hQ => ?_
    exact hs.apart u hu' Q (by simp [hQ])

theorem Sound.relink {Z : Block} {C D : List Block} (hs : Sound low h (A++P::B) (b::used))
    (hN : Nodes h' (A++(Z::C++D))) (hD : D <:+ B) (hfreep : Z.addr=h'.freep)
    (hsame : h'.base=h.base ∧ h'.top=h.top ∧ h'.granted=h.granted)
    (hused : ∀ u∈used, h'.size u.addr=u.size ∧ 0 < u.size)
    (hin : ∀ Q∈Z::C, (0 < Q.size → low ≤ Q.addr ∧ Q.stop ≤ h.top) ∧ ∀ u∈used, Apart Q u)
    (htotal : total (Z::C)+total D=P.size+(b.size+total B)) :
    Sound low h' (A++(Z::C++D)) used := by
  have hmem {Q : Block} (hQ : Q∈A++D) : Q∈A++P::B := by
    rcases List.mem_append.mp hQ with hQ | hQ
    · exact List.mem_append_left _ hQ
    · exact List.mem_append_right A (List.mem_cons_of_mem P (hD.subset hQ))
  have hcases {Q : Block} (hQ : Q∈A++(Z::C++D)) : Q∈Z::C ∨ Q∈A++D := by
    simp only [List.mem_append] at hQ ⊢
    tauto
  refine ⟨hN,⟨Z,by simp,hfreep⟩,?_,hused,?_,?_,(List.pairwise_cons.mp hs.separate).2,?_,?_⟩
  · rw [hsame.1,hsame.2.1]
    exact hs.bounds
  · intro Q hQ hpos
    rw [hsame.2.1]
    rcases List.mem_append.mp hQ with hQ | hQ
    · rcases hcases hQ with hQ | hQ
      · exact (hin Q hQ).1 hpos
      · exact hs.inside Q (List.mem_append_left _ (hmem hQ)) hpos
    · exact hs.inside Q (List.mem_append_right _ (List.mem_cons_of_mem b hQ)) hpos
  · intro u hu Q hQ
    rcases hcases hQ with hQ | hQ
    · exact (hin Q hQ).2 u hu
    · exact hs.apart u (List.mem_cons_of_mem b hu) Q (hmem hQ)
  · have hunits := hs.units
    simp only [total_append,total_cons] at hunits htotal ⊢
    omega
  · rw [hsame.2.2]
    exact hs.small

theorem Sound.join (hs : Sound low h (A++P::B) (b::used)) (hlt : P.addr < b.addr)
    (hB : ∀ Q∈B, b.addr < Q.addr) :
    ∃ N', Sound low { (h.joinNext b.addr P.addr).joinPrev b.addr P.addr with freep := P.addr } N' used ∧
      N'.length≤(A++P::B).length+1 ∧ ∃ Q∈N', b.size ≤ Q.size := by
  have hb : b∈b::used := by simp
  have hPmem : P∈A++P::B := by simp
  obtain ⟨hsize,hbpos⟩ := hs.headers b hb
  have hsmall := hs.small
  have hunits := hs.units
  simp only [total_append,total_cons] at hunits
  have hPstop := hs.stop_le hb hPmem hlt
  have hbase : h.base < b.stop := by
    have hle := hs.base_lt hb
    simp only [Block.stop]
    omega
  obtain ⟨Y,D,next,hYaddr,hnext,hseg,hD,hYtotal,hYsize,hYD,hYapart⟩ :=
    joinNext_spec hs.nodes hsize (by omega) hbase fun Q hQ => hs.le_addr hb (by simp [hQ]) (hB Q hQ)
  obtain ⟨hYlow,hYtop,hYused⟩ := hs.joined hYaddr hYapart
  have hDlen : D.length ≤ B.length := hD.length_le
  rw [hnext,← hYaddr]
  rw [← hYaddr] at hlt hPstop
  have hPne : P.addr≠Y.addr := Nat.ne_of_lt hlt
  have hsizeP : (h.set Y.addr ⟨next,Y.size⟩).size P.addr=P.size := by
    rw [size_set_of_ne hPne]
    exact hs.nodes.sizes P hPmem
  have hfit : P.size+Y.size < uint := by omega
  obtain ⟨v,hprev,hcases⟩ :=
    joinPrev_spec hsizeP (size_set_same (v := ⟨next,Y.size⟩)) ptr_set_same hfit hPstop
  rw [hprev]
  generalize hh' : ({ (h.set Y.addr ⟨next,Y.size⟩).set P.addr v with freep := P.addr } : Heap)=h'
  have hmem (x : Nat) (hx : x≠b.addr) (hx' : x≠P.addr) : h'.mem x=h.mem x := by
    subst hh'
    rw [← hYaddr] at hx
    simp [Heap.set,hx,hx']
  have hptrP : h'.ptr P.addr=v.ptr ∧ h'.size P.addr=v.size := by
    subst hh'
    exact ⟨ptr_set_same,size_set_same⟩
  have hptrY : h'.ptr Y.addr=next ∧ h'.size Y.addr=Y.size := by
    subst hh'
    simp [Heap.ptr,Heap.size,Heap.set,Ne.symm hPne]
  have hsame : h'.base=h.base ∧ h'.top=h.top ∧ h'.granted=h.granted ∧ h'.freep=P.addr := by
    subst hh'
    exact ⟨rfl,rfl,rfl,rfl⟩
  obtain ⟨hother,hused⟩ := hs.untouched hmem
  have hotherD : ∀ Q∈A++D, h'.mem Q.addr=h.mem Q.addr := by
    intro Q hQ
    refine hother Q (List.mem_append.mpr ((List.mem_append.mp hQ).imp id fun hQ => hD.subset hQ))
  have hsegD : Seg h'.ptr next (D.map Block.addr) h.base := by
    refine hseg.congr fun y hy => ?_
    obtain ⟨Q,hQ,rfl⟩ := List.mem_map.mp hy
    rw [Heap.ptr,Heap.ptr,hotherD Q (List.mem_append_right A hQ)]
  have hPin : (0 < P.size → low ≤ P.addr ∧ P.stop ≤ h.top) ∧ ∀ u∈used, Apart P u :=
    ⟨hs.inside P (by simp),fun u hu => hs.apart u (List.mem_cons_of_mem b hu) P hPmem⟩
  rcases hcases with ⟨htouch,rfl⟩ | ⟨hgap,rfl⟩
  · have hPpos : 0 < P.size := by
      rcases hs.nodes.base_or_pos hPmem with rfl | hpos
      · have hle := hs.base_lt hb
        simp only [Block.stop] at htouch
        omega
      · exact hpos
    have hstop : (⟨P.addr,P.size+Y.size⟩ : Block).stop=Y.stop := by
      simp only [Block.stop] at htouch ⊢
      omega
    have hring : Seg h'.ptr P.addr (P.addr :: D.map Block.addr) h.base :=
      ⟨rfl,by rw [hptrP.1]; exact hsegD⟩
    have hN : Nodes h' (A++(⟨P.addr,P.size+Y.size⟩::[]++D)) := by
      refine hs.nodes.replace hD hsame.1 hotherD hring ?_ (.inr ⟨hPpos,Nat.add_pos_left hPpos _⟩) (by simp)
        (List.pairwise_singleton _ _) (by simp) ?_
      · simpa using hptrP.2
      · simpa [hstop] using hYD
    refine ⟨_,hs.relink hN hD hsame.2.2.2.symm ⟨hsame.1,hsame.2.1,hsame.2.2.1⟩ hused ?_ ?_,?_,
      ⟨P.addr,P.size+Y.size⟩,by simp,Nat.le_trans hYsize (Nat.le_add_left _ _)⟩
    · intro Q hQ
      obtain rfl := List.mem_singleton.mp hQ
      refine ⟨fun _ => ⟨(hPin.1 hPpos).1,by rw [hstop]; exact hYtop⟩,fun u hu => ?_⟩
      have hPu := hPin.2 u hu
      have hYu := hYused u hu
      have hupos := (hused u hu).2
      simp only [Apart,Block.stop] at hPu hYu htouch ⊢
      omega
    · simp only [total_cons,total_nil]
      omega
    · simp only [List.length_append,List.length_cons,List.length_nil]
      omega
  · have hYP : P.addr ≤ Y.addr := Nat.le_of_lt hlt
    have hYpos : 0 < Y.size := Nat.lt_of_lt_of_le hbpos hYsize
    have hring : Seg h'.ptr P.addr (P.addr::Y.addr :: D.map Block.addr) h.base :=
      ⟨rfl,hptrP.1,by rw [hptrY.1]; exact hsegD⟩
    have hN : Nodes h' (A++(P::[Y]++D)) := by
      refine hs.nodes.replace hD hsame.1 hotherD hring ?_ (.inl rfl) (by simpa using hYpos) ?_ ?_ ?_
      · simpa using ⟨hptrP.2,hptrY.2⟩
      · simpa using hgap
      · simpa using hYP
      · intro Q hQ R hR
        rcases List.mem_cons.mp hQ with rfl | hQ
        · exact hs.nodes.split.2.1 R (hD.subset hR)
        · obtain rfl := List.mem_singleton.mp hQ
          exact hYD R hR
    refine ⟨_,hs.relink hN hD hsame.2.2.2.symm ⟨hsame.1,hsame.2.1,hsame.2.2.1⟩ hused ?_ ?_,?_,
      Y,by simp,hYsize⟩
    · intro Q hQ
      rcases List.mem_cons.mp hQ with rfl | hQ
      · exact hPin
      · obtain rfl := List.mem_singleton.mp hQ
        exact ⟨fun _ => ⟨hYlow,hYtop⟩,hYused⟩
    · simp only [total_cons,total_nil]
      omega
    · simp only [List.length_append,List.length_cons,List.length_nil]
      omega

theorem Sound.free (hs : Sound low h N (b::used)) (hfuel : N.length ≤ fuel) :
    Yields (free h (b.addr+16) fuel) fun h' => ∃ N', Sound low h' N' used ∧
      N'.length ≤ N.length+1 ∧ ∃ Q∈N', b.size ≤ Q.size := by
  have hb : b∈b::used := by simp
  have hbase : h.base < b.addr := by
    have hle := hs.base_lt hb
    omega
  obtain ⟨F,hF,hfreep⟩ := hs.freep
  obtain ⟨A,P,B,heq,hlt,hB⟩ := hs.nodes.exists_between hbase fun Q hQ => hs.addr_ne hb hQ
  obtain ⟨S,T,hsplit⟩ := List.append_of_mem hF
  have hstop : h.between b.addr P.addr=true := by
    have hN := hs.nodes
    rw [heq] at hN
    exact (hN.between_iff hbase).mpr ⟨hlt,hB⟩
  have hring : Seg h.ptr h.base (S.map Block.addr++F.addr :: T.map Block.addr) h.base := by
    have hN := hs.nodes
    rw [hsplit] at hN
    exact hN.seg
  have hmap : S.map Block.addr++F.addr :: T.map Block.addr=N.map Block.addr := by
    rw [hsplit,List.map_append,List.map_cons]
  have hPmem : P.addr∈N.map Block.addr := by
    rw [heq]
    simp
  have hlen : (S.map Block.addr++F.addr :: T.map Block.addr).length ≤ fuel := by
    rw [hmap,List.length_map]
    exact hfuel
  rw [← hmap] at hPmem
  obtain ⟨q,hq,hqstop,hwalk⟩ := hring.walk ⟨P.addr,hPmem,hstop⟩ hlen
  rw [hmap] at hq
  obtain ⟨P',hP',rfl⟩ := List.mem_map.mp hq
  obtain ⟨A',B',rfl⟩ := List.append_of_mem hP'
  obtain ⟨hlt',hB'⟩ := (hs.nodes.between_iff hbase).mp hqstop
  obtain ⟨N',hs',hlen,hbig⟩ := hs.join hlt' hB'
  rw [hfreep] at hwalk
  have hrun : Malloc.free h (b.addr+16) fuel =
      .ok { (h.joinNext b.addr P'.addr).joinPrev b.addr P'.addr with freep := P'.addr } := by
    simp only [Malloc.free,Nat.add_sub_cancel,hwalk]
  rw [hrun]
  exact .ok ⟨N',hs',hlen,hbig⟩

end Xv6.Malloc
