import Xv6.MallocHeap
import Xv6.Machine
import Mathlib.Data.List.Pairwise

/-! `malloc` and `free` over whole runs: the heap stays sound, and every loop ends. -/
namespace Xv6.Malloc
open Function Xv6.LinkedRing Xv6.Total Xv6.Machine
variable {h h' : Heap} {N A B D fs used : List Block} {P W X Y Z : Block} {b : Block}
variable {p q n x e k prevp steps fuel low nbytes : Nat} {v : Header} {sbrk : Sbrk} {l : List Nat}

def Heap.brk (h : Heap) : Nat × List Nat × Nat := (h.top, h.asked, h.granted)

theorem free_brk {ap : Nat} (hrun : free h ap fuel=.ok h') : h'.brk=h.brk := by
  simp only [free] at hrun
  cases hwalk : walk h.ptr (h.between (ap-16)) h.freep fuel with
  | none =>
    rw [hwalk] at hrun
    cases hrun
  | some p =>
    rw [hwalk] at hrun
    cases hrun
    simp only [Heap.joinPrev,Heap.joinNext]
    split_ifs <;> rfl

theorem take_brk : (h.take n p x).1.brk=h.brk := by
  rw [Heap.take]
  split_ifs <;> rfl

def request (nu : Nat) : Nat := (if nu < 4096 then 4096 else nu)*16

theorem morecore_brk {r : Heap × Nat} (hrun : morecore sbrk h n fuel=.ok r) :
    r.1.brk=(sbrk h (request n)).1.brk := by
  rcases hsbrk : sbrk h (request n) with ⟨h₁,ans⟩
  rw [request] at hsbrk
  simp only [morecore,hsbrk] at hrun
  cases ans with
  | none =>
    cases hrun
    rfl
  | some hp =>
    dsimp only at hrun
    generalize hh₂ : h₁.set hp ⟨h₁.ptr hp,if n<4096 then 4096 else n⟩=h₂ at hrun
    have hbrk : h₂.brk=h₁.brk := by
      rw [← hh₂]
      rfl
    obtain ⟨h₃,hfree,hret⟩ := bind_eq_ok.mp hrun
    cases hret
    exact (free_brk hfree).trans hbrk

theorem Nodes.next_eq (hN : Nodes h N) (hW : W∈N) (hX : X∈N) (hpos : 0 < X.size)
    (hptr : h.ptr W.addr=X.addr) : ∃ A B, N=A++W::X::B := by
  obtain ⟨A,B,rfl⟩ := List.append_of_mem hW
  have hnext := hN.ptr_eq
  cases B with
  | nil =>
    have hbase : h.ptr W.addr=h.base := hnext
    obtain ⟨fs,heq,-⟩ := hN.head
    have hzero : X=⟨h.base,0⟩ := hN.addr_inj hX (by rw [heq]; simp) (hptr.symm.trans hbase)
    rw [hzero] at hpos
    exact absurd hpos (Nat.lt_irrefl 0)
  | cons M B =>
    have hM : h.ptr W.addr=M.addr := hnext
    obtain rfl : X=M := hN.addr_inj hX (by simp) (hptr.symm.trans hM)
    exact ⟨A,B,rfl⟩

theorem Sound.carve (hs : Sound low h (A++P::B) used) (hN : Nodes h' (A++Z::D)) (hD : D <:+ B)
    (hZ : Z.addr=P.addr ∧ Z.size ≤ P.size) (hX : X∈A++P::B)
    (hb : X.addr ≤ b.addr ∧ b.stop ≤ X.stop ∧ h'.size b.addr=b.size ∧ 0 < b.size)
    (hapart : ∀ Q∈A++Z::D, Apart Q b) (hfreep : ∃ Q∈A++Z::D, Q.addr=h'.freep)
    (hsame : h'.base=h.base ∧ h'.top=h.top ∧ h'.granted=h.granted)
    (hused : ∀ u∈used, h'.size u.addr=h.size u.addr)
    (htotal : Z.size+total D+b.size=P.size+total B) : Sound low h' (A++Z::D) (b::used) := by
  have hold {Q : Block} (hQ : Q∈A++Z::D) : Q=Z ∨ Q∈A++P::B := by
    rcases List.mem_append.mp hQ with hQ | hQ
    · exact .inr (List.mem_append_left _ hQ)
    · exact (List.mem_cons.mp hQ).imp id fun hQ =>
        List.mem_append_right A (List.mem_cons_of_mem P (hD.subset hQ))
  have hXpos : 0 < X.size := by
    simp only [Block.stop] at hb
    omega
  have hXin := hs.inside X (List.mem_append_left used hX) hXpos
  refine ⟨hN,hfreep,?_,?_,?_,?_,?_,?_,?_⟩
  · rw [hsame.1,hsame.2.1]
    exact hs.bounds
  · intro u hu
    rcases List.mem_cons.mp hu with rfl | hu
    · exact hb.2.2
    · rw [hused u hu]
      exact hs.headers u hu
  · intro Q hQ hpos
    rw [hsame.2.1]
    rcases List.mem_append.mp hQ with hQ | hQ
    · rcases hold hQ with rfl | hQ
      · have hP := hs.inside P (by simp) (by omega)
        simp only [Block.stop] at hP ⊢
        omega
      · exact hs.inside Q (List.mem_append_left used hQ) hpos
    · rcases List.mem_cons.mp hQ with rfl | hQ
      · omega
      · exact hs.inside Q (List.mem_append_right _ hQ) hpos
  · intro u hu Q hQ
    rcases List.mem_cons.mp hu with rfl | hu
    · exact hapart Q hQ
    rcases hold hQ with rfl | hQ
    · have hPu := hs.apart u hu P (by simp)
      simp only [Apart,Block.stop] at hPu ⊢
      omega
    · exact hs.apart u hu Q hQ
  · refine List.pairwise_cons.mpr ⟨fun u hu => ?_,hs.separate⟩
    have hXu := hs.apart u hu X hX
    simp only [Apart,Block.stop] at hXu hb ⊢
    omega
  · have hunits := hs.units
    simp only [total_append,total_cons] at hunits ⊢
    omega
  · rw [hsame.2.2]
    exact hs.small

theorem Sound.unlink (hs : Sound low h (A++W::X::B) used) (hpos : 0 < X.size) :
    Sound low { h.set W.addr ⟨h.ptr X.addr,h.size W.addr⟩ with freep := W.addr } (A++W::B)
      (X::used) := by
  generalize hh' : ({ h.set W.addr ⟨h.ptr X.addr,h.size W.addr⟩ with freep := W.addr } : Heap)=h'
  have hWsize : h.size W.addr=W.size := hs.nodes.sizes W (by simp)
  have hmem (x : Nat) (hx : x≠W.addr) : h'.mem x=h.mem x := by
    subst hh'
    simp [Heap.set,hx]
  have hW : h'.ptr W.addr=h.ptr X.addr ∧ h'.size W.addr=W.size := by
    subst hh'
    exact ⟨ptr_set_same,size_set_same.trans hWsize⟩
  have hsame : h'.base=h.base ∧ h'.top=h.top ∧ h'.granted=h.granted ∧ h'.freep=W.addr := by
    subst hh'
    exact ⟨rfl,rfl,rfl,rfl⟩
  obtain ⟨hAW,hWB,hAB⟩ := hs.nodes.split
  have hXB : ∀ Q∈B, X.stop < Q.addr := by
    have hN := hs.nodes
    have heq : A++W::X::B=(A++[W])++X::B := by simp
    rw [heq] at hN
    exact hN.split.2.1
  have hWX := hWB X (by simp)
  have hother : ∀ Q∈A++B, h'.mem Q.addr=h.mem Q.addr := by
    intro Q hQ
    refine hmem Q.addr ?_
    rcases List.mem_append.mp hQ with hQ | hQ
    · have hlt := hAW Q hQ
      simp only [Block.stop] at hlt
      omega
    · have hlt := hWB Q (List.mem_cons_of_mem X hQ)
      simp only [Block.stop] at hlt
      omega
  have hring : Seg h'.ptr W.addr (W.addr :: B.map Block.addr) h.base := by
    refine ⟨rfl,?_⟩
    rw [hW.1]
    refine hs.nodes.seg.split.2.2.congr fun y hy => ?_
    obtain ⟨Q,hQ,rfl⟩ := List.mem_map.mp hy
    rw [Heap.ptr,Heap.ptr,hother Q (List.mem_append_right A hQ)]
  have hN : Nodes h' (A++(W::[]++B)) := by
    refine hs.nodes.replace (List.suffix_cons X B) hsame.1 hother hring ?_ (.inl rfl) (by simp)
      (List.pairwise_singleton _ _) (by simp) ?_
    · simpa using hW.2
    · simpa using fun Q hQ => hWB Q (List.mem_cons_of_mem X hQ)
  have hXsize : h'.size X.addr=X.size := by
    rw [Heap.size,hmem X.addr (by simp only [Block.stop] at hWX; omega)]
    exact hs.nodes.sizes X (by simp)
  refine hs.carve hN (List.suffix_cons X B) ⟨rfl,Nat.le_refl _⟩ (X := X) (by simp)
    ⟨Nat.le_refl _,Nat.le_refl _,hXsize,hpos⟩ ?_ ⟨W,by simp,hsame.2.2.2.symm⟩
    ⟨hsame.1,hsame.2.1,hsame.2.2.1⟩ ?_ ?_
  · intro Q hQ
    rcases List.mem_append.mp hQ with hQ | hQ
    · exact .inl (Nat.le_of_lt (hAB Q hQ X (by simp)))
    rcases List.mem_cons.mp hQ with rfl | hQ
    · exact .inl (Nat.le_of_lt hWX)
    · exact .inr (Nat.le_of_lt (hXB Q hQ))
  · intro u hu
    rw [Heap.size,hmem u.addr (Ne.symm (hs.addr_ne hu (by simp)))]
    rfl
  · simp only [total_cons]
    omega

theorem Sound.cut (hs : Sound low h (A++X::B) used) (hn : 0 < n) (hlt : n < X.size)
    (hW : W∈A++[X]) (hq : q=X.addr+16*(X.size-n)) (hv : v.size=n) :
    Sound low { (h.set X.addr ⟨h.ptr X.addr,X.size-n⟩).set q v with freep := W.addr }
      (A++⟨X.addr,X.size-n⟩::B) (⟨q,n⟩::used) := by
  generalize hh' : ({ (h.set X.addr ⟨h.ptr X.addr,X.size-n⟩).set q v with freep := W.addr } : Heap)=h'
  have hqX : X.addr≠q := by omega
  have hmem (x : Nat) (hx : x≠X.addr) (hx' : x≠q) : h'.mem x=h.mem x := by
    subst hh'
    simp [Heap.set,hx,hx']
  have hX : h'.ptr X.addr=h.ptr X.addr ∧ h'.size X.addr=X.size-n := by
    subst hh'
    simp [Heap.ptr,Heap.size,Heap.set,hqX]
  have hqsize : h'.size q=n := by
    subst hh'
    exact size_set_same.trans hv
  have hsame : h'.base=h.base ∧ h'.top=h.top ∧ h'.granted=h.granted ∧ h'.freep=W.addr := by
    subst hh'
    exact ⟨rfl,rfl,rfl,rfl⟩
  obtain ⟨hAX,hXB,hAB⟩ := hs.nodes.split
  have hother : ∀ Q∈A++B, h'.mem Q.addr=h.mem Q.addr := by
    intro Q hQ
    rcases List.mem_append.mp hQ with hQ | hQ
    · have hlt := hAX Q hQ
      simp only [Block.stop] at hlt
      exact hmem Q.addr (by omega) (by omega)
    · have hlt := hXB Q hQ
      simp only [Block.stop] at hlt
      exact hmem Q.addr (by omega) (by omega)
  have hring : Seg h'.ptr X.addr (X.addr :: B.map Block.addr) h.base := by
    refine ⟨rfl,?_⟩
    rw [hX.1]
    refine hs.nodes.seg.split.2.congr fun y hy => ?_
    obtain ⟨Q,hQ,rfl⟩ := List.mem_map.mp hy
    rw [Heap.ptr,Heap.ptr,hother Q (List.mem_append_right A hQ)]
  have hrest : (⟨X.addr,X.size-n⟩ : Block).stop=q := hq.symm
  have hstop : (⟨q,n⟩ : Block).stop=X.stop := by
    simp only [Block.stop]
    omega
  have hqlt : q < X.stop := by
    simp only [Block.stop]
    omega
  have hN : Nodes h' (A++(⟨X.addr,X.size-n⟩::[]++B)) := by
    refine hs.nodes.replace (List.suffix_refl B) hsame.1 hother hring ?_
      (.inr ⟨Nat.lt_trans hn hlt,Nat.sub_pos_of_lt hlt⟩) (by simp) (List.pairwise_singleton _ _) (by simp) ?_
    · simpa using hX.2
    · intro Q hQ R hR
      obtain rfl := List.mem_singleton.mp hQ
      rw [hrest]
      exact Nat.lt_trans hqlt (hXB R hR)
  have hfreep : ∃ Q∈A++⟨X.addr,X.size-n⟩::B, Q.addr=h'.freep := by
    rw [hsame.2.2.2]
    rcases List.mem_append.mp hW with hW | hW
    · exact ⟨W,List.mem_append_left _ hW,rfl⟩
    · obtain rfl := List.mem_singleton.mp hW
      exact ⟨⟨W.addr,W.size-n⟩,by simp,rfl⟩
  refine hs.carve hN (List.suffix_refl B) ⟨rfl,Nat.sub_le _ _⟩ (X := X) (by simp)
    ⟨by rw [hq]; exact Nat.le_add_right _ _,Nat.le_of_eq hstop,hqsize,hn⟩ ?_ hfreep
    ⟨hsame.1,hsame.2.1,hsame.2.2.1⟩ ?_ ?_
  · intro Q hQ
    rcases List.mem_append.mp hQ with hQ | hQ
    · have hlt := hAX Q hQ
      refine .inl (Nat.le_of_lt (Nat.lt_of_lt_of_le hlt ?_))
      rw [hq]
      exact Nat.le_add_right _ _
    rcases List.mem_cons.mp hQ with rfl | hQ
    · exact .inl (Nat.le_of_eq hrest)
    · refine .inr ?_
      rw [hstop]
      exact Nat.le_of_lt (hXB Q hQ)
  · intro u hu
    have hapart := hs.apart u hu X (by simp)
    have hne := hs.addr_ne hu (P := X) (by simp)
    have hne' : u.addr≠q := by
      simp only [Apart,Block.stop] at hapart hqlt
      omega
    rw [Heap.size,hmem u.addr (Ne.symm hne) hne']
    rfl
  · show X.size-n+total B+n=X.size+total B
    omega

theorem search_hit (hseg : Seg h.ptr p (l++[x]) e) (hprev : h.ptr prevp=p)
    (hmiss : ∀ y∈l, h.size y < n ∧ y≠h.freep) (hx : n ≤ h.size x) (hk : l.length < k) :
    ∃ w∈prevp::l, h.ptr w=x ∧ search sbrk n steps h prevp p k=.ok (h.take n w x) := by
  induction l generalizing p prevp k with
  | nil =>
    obtain ⟨rfl,-⟩ := hseg
    cases k with
    | zero => cases hk
    | succ k =>
      refine ⟨prevp,by simp,hprev,?_⟩
      rw [search,if_pos hx]
  | cons y l ih =>
    obtain ⟨rfl,hseg⟩ := hseg
    obtain ⟨hsmall,hne⟩ := hmiss p (by simp)
    cases k with
    | zero => cases hk
    | succ k =>
      obtain ⟨w,hw,hptr,hrun⟩ := ih hseg rfl (fun y hy => hmiss y (List.mem_cons_of_mem p hy))
        (Nat.lt_of_succ_lt_succ hk)
      refine ⟨w,List.mem_cons_of_mem prevp hw,hptr,?_⟩
      rw [search,if_neg (Nat.not_le.mpr hsmall),if_neg hne,hrun]

theorem search_miss (hseg : Seg h.ptr p (l++[h.freep]) e)
    (hmiss : ∀ y∈l, h.size y < n ∧ y≠h.freep) (hlast : h.size h.freep < n) :
    search sbrk n steps h prevp p (k+(l.length+1))=(do
      let (h, p) ← morecore sbrk h n steps
      if p=0 then .ok (h, 0) else search sbrk n steps h p (h.ptr p) k) := by
  induction l generalizing p prevp with
  | nil =>
    obtain ⟨rfl,-⟩ := hseg
    show search sbrk n steps h prevp h.freep (k+1)=_
    rw [search,if_neg (Nat.not_le.mpr hlast),if_pos rfl]
  | cons y l ih =>
    obtain ⟨rfl,hseg⟩ := hseg
    obtain ⟨hsmall,hne⟩ := hmiss p (by simp)
    show search sbrk n steps h prevp p (k+(l.length+1)+1)=_
    rw [search,if_neg (Nat.not_le.mpr hsmall),if_neg hne]
    exact ih hseg fun y hy => hmiss y (List.mem_cons_of_mem p hy)

def Obtains (low n : Nat) (N used : List Block) (r : Heap × Nat) : Prop :=
  ∃ b N', r.2=b.addr+16 ∧ b.size=n ∧ Sound low r.1 N' (b :: used) ∧ N'.length ≤ N.length

def Serves (sbrk : Sbrk) (h : Heap) (m : Nat) : Prop :=
  sbrk h m=({ h with asked := m :: h.asked }, none) ∨
    ∃ gap, h.granted+m < 16*uint ∧ sbrk h m =
      ({ h with asked := m :: h.asked, granted := h.granted+m, top := h.top+gap+m },
        some (h.top+gap))

theorem unitsFor_eq (hn : nbytes < uint) : unitsFor nbytes=(nbytes+15)/16+1 := by
  have hle : (nbytes+15)/16+1 < uint := by
    simp only [uint] at hn ⊢
    omega
  exact Nat.mod_eq_of_lt hle

section Found
variable (hs : Sound low h N used)
include hs

theorem Sound.take (hW : W∈N) (hX : X∈N)
    (hptr : h.ptr W.addr=X.addr) (hn : 0 < n) (hle : n ≤ X.size) :
    ∃ b N', (h.take n W.addr X.addr).2=b.addr+16 ∧ b.size=n ∧
      Sound low (h.take n W.addr X.addr).1 N' (b::used) ∧ N'.length ≤ N.length := by
  have hsize : h.size X.addr=X.size := hs.nodes.sizes X hX
  obtain ⟨A,B,rfl⟩ := hs.nodes.next_eq hW hX (by omega) hptr
  by_cases heq : X.size=n
  · refine ⟨X,A++W::B,?_,heq,?_,?_⟩
    · rw [Heap.take,if_pos (hsize.trans heq)]
    · rw [Heap.take,if_pos (hsize.trans heq)]
      exact hs.unlink (by omega)
    · simp
  · have hne : ¬h.size X.addr=n := by rwa [hsize]
    have hsplit : A++W::X::B=(A++[W])++X::B := by simp
    refine ⟨⟨X.addr+16*(X.size-n),n⟩,(A++[W])++⟨X.addr,X.size-n⟩::B,?_,rfl,?_,?_⟩
    · rw [Heap.take,if_neg hne,hsize]
    · rw [Heap.take,if_neg hne,hsize]
      rw [hsplit] at hs
      exact hs.cut hn (by omega) (by simp) rfl rfl
    · simp

theorem Sound.round : ∃ L F, (L++[F]).Perm N ∧ F.addr=h.freep ∧
    Seg h.ptr (h.ptr h.freep) ((L++[F]).map Block.addr) (h.ptr h.freep) ∧
    ∀ Q∈L, Q.addr≠h.freep := by
  obtain ⟨F,hF,hfreep⟩ := hs.freep
  obtain ⟨S,T,rfl⟩ := List.append_of_mem hF
  obtain ⟨hSF,hFT,-⟩ := hs.nodes.split
  refine ⟨T++S,F,?_,hfreep,?_,?_⟩
  · have hperm : (T++S++[F]).Perm (S++T++[F]) := List.perm_append_comm.append_right [F]
    refine hperm.trans ?_
    rw [List.append_assoc]
    exact List.perm_append_comm.append_left S
  · have hrot := hs.nodes.seg.rotate
    have hlast : Seg h.ptr F.addr [F.addr] (h.ptr F.addr) := ⟨rfl,rfl⟩
    have happ := hrot.2.append hlast
    simpa [hfreep] using happ
  · intro Q hQ
    rcases List.mem_append.mp hQ with hQ | hQ
    · have hlt := hFT Q hQ
      simp only [Block.stop] at hlt
      omega
    · have hlt := hSF Q hQ
      simp only [Block.stop] at hlt
      omega

theorem Sound.search_found (hn : 0 < n) (hbig : ∃ Q∈N, n ≤ Q.size) (hk : N.length ≤ k) :
    Yields (search sbrk n steps h h.freep (h.ptr h.freep) k) fun r =>
      Obtains low n N used r ∧ r.1.brk=h.brk := by
  obtain ⟨L,F,hperm,hfreep,hseg,hne⟩ := hs.round
  obtain ⟨Q,hQ,hle⟩ := hbig
  have hfind : ((L++[F]).find? fun Q => n ≤ Q.size)≠none := by
    rw [ne_eq,List.find?_eq_none]
    exact fun hnone => hnone Q (hperm.mem_iff.mpr hQ) (decide_eq_true hle)
  obtain ⟨X,hX⟩ := Option.ne_none_iff_exists'.mp hfind
  obtain ⟨hXle,S,T,hsplit,hmiss⟩ := List.find?_eq_some_iff_append.mp hX
  have hXle : n ≤ X.size := of_decide_eq_true hXle
  have hXmem : X∈N := hperm.mem_iff.mp (by rw [hsplit]; simp)
  have hSmem : ∀ Q∈S, Q∈N := fun Q hQ => hperm.mem_iff.mp (by rw [hsplit]; simp [hQ])
  have hSL : ∀ Q∈S, Q∈L := by
    intro Q hQ
    have hpre : S <+: L := by
      have hpre : S++[X] <+: L++[F] := ⟨T,by rw [hsplit]; simp⟩
      rcases List.prefix_concat_iff.mp hpre with heq | hpre
      · exact ⟨[],by rw [List.append_nil]; exact (List.append_inj' heq rfl).1⟩
      · exact (List.prefix_append S [X]).trans hpre
    exact hpre.subset hQ
  have hsizes : ∀ y∈S.map Block.addr, h.size y < n ∧ y≠h.freep := by
    intro y hy
    obtain ⟨Q,hQ,rfl⟩ := List.mem_map.mp hy
    have hnot := hmiss Q hQ
    rw [hs.nodes.sizes Q (hSmem Q hQ)]
    exact ⟨by simpa using hnot,hne Q (hSL Q hQ)⟩
  have hsegS : ∃ e, Seg h.ptr (h.ptr h.freep) (S.map Block.addr++[X.addr]) e := by
    rw [hsplit,List.map_append,List.map_cons] at hseg
    exact ⟨_,hseg.split.1.join rfl⟩
  obtain ⟨e,hsegS⟩ := hsegS
  have hXsize : n ≤ h.size X.addr := by rwa [hs.nodes.sizes X hXmem]
  have hlen : (S.map Block.addr).length < k := by
    have hlen := hperm.length_eq
    rw [hsplit] at hlen
    simp only [List.length_append,List.length_cons,List.length_map] at hlen ⊢
    omega
  obtain ⟨w,hw,hptr,hrun⟩ : ∃ w∈h.freep :: S.map Block.addr, h.ptr w=X.addr ∧
      search sbrk n steps h h.freep (h.ptr h.freep) k=.ok (h.take n w X.addr) :=
    search_hit hsegS rfl hsizes hXsize hlen
  obtain ⟨W,hW,rfl⟩ : ∃ W∈N, W.addr=w := by
    rcases List.mem_cons.mp hw with rfl | hw
    · exact ⟨F,hperm.mem_iff.mp (by simp),hfreep⟩
    · obtain ⟨Q,hQ,rfl⟩ := List.mem_map.mp hw
      exact ⟨Q,hSmem Q hQ,rfl⟩
  rw [hrun]
  exact .ok ⟨hs.take hW hXmem hptr hn hXle,take_brk⟩

theorem Sound.search_round (hnone : ∀ Q∈N, Q.size < n) :
    search sbrk n steps h h.freep (h.ptr h.freep) (k+N.length)=(do
      let (h, p) ← morecore sbrk h n steps
      if p=0 then .ok (h, 0) else search sbrk n steps h p (h.ptr p) k) := by
  obtain ⟨L,F,hperm,hF,hseg,hne⟩ := hs.round
  have hsize : ∀ Q∈L++[F], h.size Q.addr < n := by
    intro Q hQ
    rw [hs.nodes.sizes Q (hperm.mem_iff.mp hQ)]
    exact hnone Q (hperm.mem_iff.mp hQ)
  have hmiss : ∀ y∈L.map Block.addr, h.size y < n ∧ y≠h.freep := by
    intro y hy
    obtain ⟨Q,hQ,rfl⟩ := List.mem_map.mp hy
    exact ⟨hsize Q (by simp [hQ]),hne Q hQ⟩
  have hlast : h.size h.freep < n := by
    rw [← hF]
    exact hsize F (by simp)
  have hlen : N.length=(L.map Block.addr).length+1 := by
    rw [← hperm.length_eq,List.length_append,List.length_map,List.length_singleton]
  rw [List.map_append,List.map_singleton,hF] at hseg
  rw [hlen]
  exact search_miss hseg hmiss hlast

theorem Sound.extend (asked : List Nat) (gap : Nat) {nu : Nat}
    (hnu : 0 < nu) (hsmall : h.granted+nu*16<16*uint) (hv : v.size=nu) :
    Sound low (Heap.set { h with asked := asked, granted := h.granted+nu*16, top := h.top+gap+nu*16 }
      (h.top+gap) v) N (⟨h.top+gap,nu⟩::used) := by
  generalize hh' : Heap.set { h with asked := asked, granted := h.granted+nu*16, top := h.top+gap+nu*16 }
      (h.top+gap) v=h'
  have hmem (x : Nat) (hx : x≠h.top+gap) : h'.mem x=h.mem x := by
    subst hh'
    simp [Heap.set,hx]
  have hnew : h'.size (h.top+gap)=nu := by
    subst hh'
    exact size_set_same.trans hv
  have hsame : h'.base=h.base ∧ h'.top=h.top+gap+nu*16 ∧
      h'.granted=h.granted+nu*16 ∧ h'.freep=h.freep := by
    subst hh'
    exact ⟨rfl,rfl,rfl,rfl⟩
  obtain ⟨hbase,hlow,htop⟩ := hs.bounds
  have hbelow : ∀ Q∈N++used, Q.stop ≤ h.top ∧ Q.addr < h.top := by
    intro Q hQ
    rcases List.mem_append.mp hQ with hQN | hQu
    · rcases hs.nodes.base_or_pos hQN with rfl | hpos
      · simp only [Block.stop]
        omega
      · have hin := (hs.inside Q hQ hpos).2
        simp only [Block.stop] at hin ⊢
        omega
    · have hpos := (hs.headers Q hQu).2
      have hin := (hs.inside Q hQ hpos).2
      simp only [Block.stop] at hin ⊢
      omega
  have hold : ∀ Q∈N++used, h'.mem Q.addr=h.mem Q.addr := by
    intro Q hQ
    have hlt := (hbelow Q hQ).2
    exact hmem Q.addr (by omega)
  have hfar : ∀ Q∈N++used, Apart Q ⟨h.top+gap,nu⟩ := fun Q hQ =>
    .inl (Nat.le_trans (hbelow Q hQ).1 (Nat.le_add_right _ _))
  refine ⟨⟨?_,?_,?_,hs.nodes.sorted⟩,?_,?_,?_,?_,?_,?_,?_,?_⟩
  · rw [hsame.1]
    exact hs.nodes.head
  · rw [hsame.1]
    refine hs.nodes.ring.congr fun y hy => ?_
    obtain ⟨Q,hQ,rfl⟩ := List.mem_map.mp hy
    rw [Heap.ptr,Heap.ptr,hold Q (List.mem_append_left used hQ)]
  · intro Q hQ
    rw [Heap.size,hold Q (List.mem_append_left used hQ)]
    exact hs.nodes.sizes Q hQ
  · rw [hsame.2.2.2]
    exact hs.freep
  · omega
  · intro u hu
    rcases List.mem_cons.mp hu with rfl | hu
    · exact ⟨hnew,hnu⟩
    · rw [Heap.size,hold u (List.mem_append_right N hu)]
      exact hs.headers u hu
  · intro Q hQ hpos
    rw [hsame.2.1]
    simp only [List.mem_append,List.mem_cons] at hQ
    have hcases : Q=⟨h.top+gap,nu⟩ ∨ Q∈N++used := by
      simp only [List.mem_append]
      tauto
    rcases hcases with rfl | hQ
    · simp only [Block.stop]
      omega
    · have hin := hs.inside Q hQ hpos
      omega
  · intro u hu Q hQ
    rcases List.mem_cons.mp hu with rfl | hu
    · exact hfar Q (List.mem_append_left used hQ)
    · exact hs.apart u hu Q hQ
  · exact List.pairwise_cons.mpr ⟨fun u hu => (hfar u (List.mem_append_right N hu)).symm,hs.separate⟩
  · have hunits := hs.units
    rw [hsame.2.2.1]
    simp only [total_cons]
    omega
  · rw [hsame.2.2.1]
    exact hsmall

theorem Sound.frame (hmem : ∀ Q∈N++used, h'.mem Q.addr=h.mem Q.addr)
    (hsame : h'.base=h.base ∧ h'.top=h.top ∧ h'.granted=h.granted ∧ h'.freep=h.freep) :
    Sound low h' N used := by
  obtain ⟨hbase,htop,hgranted,hfreep⟩ := hsame
  refine ⟨⟨?_,?_,?_,hs.nodes.sorted⟩,?_,?_,?_,?_,hs.apart,hs.separate,?_,?_⟩
  · rw [hbase]
    exact hs.nodes.head
  · rw [hbase]
    refine hs.nodes.ring.congr fun y hy => ?_
    obtain ⟨Q,hQ,rfl⟩ := List.mem_map.mp hy
    rw [Heap.ptr,Heap.ptr,hmem Q (List.mem_append_left used hQ)]
  · intro Q hQ
    rw [Heap.size,hmem Q (List.mem_append_left used hQ)]
    exact hs.nodes.sizes Q hQ
  · rw [hfreep]
    exact hs.freep
  · rw [hbase,htop]
    exact hs.bounds
  · intro u hu
    rw [Heap.size,hmem u (List.mem_append_right N hu)]
    exact hs.headers u hu
  · rw [htop]
    exact hs.inside
  · rw [hgranted]
    exact hs.units
  · rw [hgranted]
    exact hs.small

theorem Sound.freep_pos : 0 < h.freep := by
  obtain ⟨F,hF,hfreep⟩ := hs.freep
  have hle := hs.nodes.base_le hF
  have hbase := hs.bounds.1
  omega

theorem Sound.morecore (hserves : Serves sbrk h (request n)) (hfuel : N.length ≤ fuel) :
    Yields (morecore sbrk h n fuel) fun r => (r.2=0 ∧ Sound low r.1 N used) ∨
      (r.2=r.1.freep ∧ 0 < r.2 ∧
        ∃ N', Sound low r.1 N' used ∧ N'.length ≤ N.length+1 ∧ ∃ Q∈N', n ≤ Q.size) := by
  rcases hserves with hfail | ⟨gap,hsmall,hok⟩
  · have hrun : Malloc.morecore sbrk h n fuel=.ok ({ h with asked := request n :: h.asked }, 0) := by
      simp only [Malloc.morecore]
      rw [request] at hfail
      rw [hfail]
      rfl
    rw [hrun]
    exact .ok (.inl ⟨rfl,hs.frame (fun _ _ => rfl) ⟨rfl,rfl,rfl,rfl⟩⟩)
  · generalize hnu : (if n<4096 then 4096 else n)=nu
    have hrequest : request n=nu*16 := by rw [request,hnu]
    rw [hrequest] at hsmall hok
    have hnupos : 0 < nu ∧ n ≤ nu := by
      split_ifs at hnu <;> omega
    have hext := hs.extend (v := ⟨h.ptr (h.top+gap),nu⟩) (nu*16::h.asked) gap hnupos.1 hsmall rfl
    simp only [Malloc.morecore,hnu,hok]
    refine Yields.bind (hext.free hfuel) ?_
    rintro h' ⟨N',hs',hlen,Q,hQ,hle⟩
    exact .ok (.inr ⟨rfl,hs'.freep_pos,N',hs',hlen,Q,hQ,Nat.le_trans hnupos.2 hle⟩)

/-- `malloc` in a sound heap. It calls `sbrk` only if no free block is large enough. -/
theorem Sound.malloc (hbytes : nbytes < uint)
    (hserves : (∀ Q∈N, Q.size < unitsFor nbytes) → Serves sbrk h (request (unitsFor nbytes)))
    (hfuel : 2*N.length+1 ≤ fuel) : Yields (malloc sbrk h nbytes fuel) fun r =>
      (r.1.brk=h.brk ∧ Obtains low (unitsFor nbytes) N used r) ∨
        ((∀ Q∈N, Q.size < unitsFor nbytes) ∧ r.1.brk=(sbrk h (request (unitsFor nbytes))).1.brk ∧
          ∃ N', N'.length ≤ N.length+1 ∧
            (r.2=0 ∧ Sound low r.1 N' used ∨ Obtains low (unitsFor nbytes) N' used r)) := by
  have hpos : 0 < unitsFor nbytes := by
    rw [unitsFor_eq hbytes]
    omega
  have hfreep : ¬h.freep=0 := Nat.ne_of_gt hs.freep_pos
  simp only [Malloc.malloc,if_neg hfreep]
  by_cases hbig : ∃ Q∈N, unitsFor nbytes ≤ Q.size
  · refine (hs.search_found hpos hbig (by omega)).weaken ?_
    rintro r ⟨hob,hbrk⟩
    exact .inl ⟨hbrk,hob⟩
  · have hnone : ∀ Q∈N, Q.size < unitsFor nbytes := fun Q hQ =>
      Nat.lt_of_not_le fun hle => hbig ⟨Q,hQ,hle⟩
    obtain ⟨k,rfl⟩ : ∃ k, fuel=k+N.length := ⟨fuel-N.length,by omega⟩
    rw [hs.search_round hnone]
    refine Yields.bind ((hs.morecore (hserves hnone) (by omega)).and fun r hr => morecore_brk hr) ?_
    rintro ⟨h',p⟩ ⟨⟨hp,hs'⟩ | ⟨hp,hppos,N',hs',hlen',hbig'⟩,hbrk⟩
    · show Yields (if p=0 then _ else _) _
      rw [if_pos hp]
      exact .ok (.inr ⟨hnone,hbrk,N,Nat.le_succ _,.inl ⟨rfl,hs'⟩⟩)
    · have hp : p=h'.freep := hp
      show Yields (if p=0 then _ else _) _
      rw [if_neg (Nat.ne_of_gt hppos),hp]
      refine (hs'.search_found hpos hbig' (by omega)).weaken ?_
      rintro r ⟨hob,hbrk'⟩
      exact .inr ⟨hnone,hbrk'.trans hbrk,N',hlen',.inr hob⟩

end Found

theorem Sound.init (hlow : 0 < h.base ∧ h.base+16 ≤ low ∧ low ≤ h.top) (hgranted : h.granted=0) :
    Sound low { h.set h.base ⟨h.base,0⟩ with freep := h.base } [⟨h.base,0⟩] [] where
  nodes := {
    head := ⟨[],rfl,by simp⟩
    ring := ⟨rfl,ptr_set_same⟩
    sizes := List.forall_mem_singleton.mpr size_set_same
    sorted := List.pairwise_singleton _ _ }
  freep := ⟨⟨h.base,0⟩,by simp,rfl⟩
  bounds := hlow
  headers := by simp
  inside := by simp
  apart := by simp
  separate := List.Pairwise.nil
  units := hgranted.symm
  small := by
    show h.granted<16*uint
    rw [hgranted]
    decide

section Runs
variable {s s' : State} {op : Op} {env : Env}

def Live.block (b : Live) : Block := ⟨b.addr,b.size⟩

/-- The heap before the first call, or a sound heap with the blocks in use. -/
structure Fine (low : Nat) (s : State) : Prop where
  fresh : s.heap.freep=0 → s.live=[] ∧ s.heap.granted=0 ∧
    0 < s.heap.base ∧ s.heap.base+16 ≤ low ∧ low ≤ s.heap.top
  sound : s.heap.freep≠0 → ∃ N, Sound low s.heap N (s.live.map Live.block) ∧ N.length ≤ s.ops+1
  served : ∀ b∈s.live, b.nbytes+16 ≤ 16*b.size

def Heap.init (h : Heap) : Heap :=
  if h.freep=0 then { h.set h.base ⟨h.base,0⟩ with freep := h.base } else h

theorem malloc_init (hbase : h.freep=0 → 0 < h.base) :
    malloc sbrk h nbytes fuel=malloc sbrk h.init nbytes fuel := by
  by_cases hfreep : h.freep=0
  · have hne : ¬h.base=0 := Nat.ne_of_gt (hbase hfreep)
    simp only [malloc,Heap.init,if_pos hfreep,if_neg hne]
  · simp only [Heap.init,if_neg hfreep]

theorem init_brk : h.init.brk=h.brk := by
  rw [Heap.init]
  split_ifs <;> rfl

theorem Fine.init (hs : Fine low s) : ∃ N, Sound low s.heap.init N (s.live.map Live.block) ∧
    N.length ≤ s.ops+1 := by
  by_cases hfreep : s.heap.freep=0
  · obtain ⟨hlive,hgranted,hlow⟩ := hs.fresh hfreep
    rw [Heap.init,if_pos hfreep,hlive]
    exact ⟨_,.init hlow hgranted,Nat.le_add_left 1 s.ops⟩
  · rw [Heap.init,if_neg hfreep]
    exact hs.sound hfreep

theorem Sound.fine {ops : Nat} {live : List Live} (hs : Sound low h N (live.map Live.block))
    (hlen : N.length ≤ ops+1) (hserved : ∀ b∈live, b.nbytes+16≤16*b.size) : Fine low ⟨h,live,ops⟩ :=
  ⟨fun h0 => absurd h0 (Nat.ne_of_gt hs.freep_pos),fun _ => ⟨N,hs,hlen⟩,hserved⟩

/-- What a call of `malloc` did: the new heap is sound, the result is 0 or the address of memory
behind `low`, and the break was left alone or moved by one `sbrk`. -/
structure Allocated (sbrk : Sbrk) (low : Nat) (s : State) (nbytes : Nat) (h' : Heap) (r : Nat)
    (s' : State) : Prop where
  ran : malloc sbrk s.heap nbytes s.fuel=.ok (h', r)
  exec : exec sbrk s (.malloc nbytes)=some s'
  heap : s'.heap=h'
  fine : Fine low s'
  inside : r=0 ∨ low ≤ r ∧ r+nbytes ≤ h'.top
  brk : h'.brk=s.heap.brk ∨ (∃ N, Nodes s.heap.init N ∧ ∀ Q∈N, Q.size < unitsFor nbytes) ∧
    h'.brk=(sbrk s.heap.init (request (unitsFor nbytes))).1.brk

theorem Fine.malloc (hs : Fine low s) (hbytes : nbytes < uint)
    (hserves : ∀ N, Nodes s.heap.init N → (∀ Q∈N, Q.size < unitsFor nbytes) →
      Serves sbrk s.heap.init (request (unitsFor nbytes))) :
    ∃ h' r s', Allocated sbrk low s nbytes h' r s' := by
  obtain ⟨N,hsound,hlen⟩ := hs.init
  have hfuel : 2*N.length+1 ≤ s.fuel := by
    rw [State.fuel]
    omega
  have hunits : nbytes+16≤16*unitsFor nbytes := by
    rw [unitsFor_eq hbytes]
    omega
  obtain ⟨⟨h',r⟩,hrun,hcases⟩ := hsound.malloc hbytes (hserves N hsound.nodes) hfuel
  rw [← malloc_init fun h0 => (hs.fresh h0).2.2.1] at hrun
  have hfound {N' : List Block} (hN' : N'.length ≤ N.length+1)
      (hob : Obtains low (unitsFor nbytes) N' (s.live.map Live.block) (h', r))
      (hbrk : h'.brk=s.heap.brk ∨ (∃ N, Nodes s.heap.init N ∧ ∀ Q∈N, Q.size < unitsFor nbytes) ∧
        h'.brk=(sbrk s.heap.init (request (unitsFor nbytes))).1.brk) :
      ∃ h' r s', Allocated sbrk low s nbytes h' r s' := by
    obtain ⟨b,N'',hr,hsize,hs',hlen'⟩ := hob
    subst hr
    have hin := hs'.inside b (by simp) (hs'.headers b (by simp)).2
    have hb : b=(⟨b.addr,unitsFor nbytes,nbytes⟩ : Live).block := by
      rw [Live.block,← hsize]
    refine ⟨h',b.addr+16,_,hrun,exec_malloc_header hrun,rfl,?_,.inr ?_,hbrk⟩
    · rw [hb] at hs'
      exact hs'.fine (by omega) (List.forall_mem_cons.mpr ⟨hunits,hs.served⟩)
    · have hin : low ≤ b.addr ∧ b.addr+16*b.size ≤ h'.top := hin
      omega
  rcases hcases with ⟨hbrk,hob⟩ | ⟨hnone,hbrk,N',hlen',⟨hr,hs'⟩ | hob⟩
  · exact hfound (Nat.le_succ _) hob (.inl (hbrk.trans init_brk))
  · subst hr
    exact ⟨h',0,_,hrun,exec_malloc_zero hrun,rfl,Sound.fine hs' (by omega) hs.served,.inl rfl,
      .inr ⟨⟨N,hsound.nodes,hnone⟩,hbrk⟩⟩
  · exact hfound hlen' hob (.inr ⟨⟨N,hsound.nodes,hnone⟩,hbrk⟩)

theorem Fine.free (hs : Fine low s) (hp : ∃ b∈s.live, p=b.addr+16) :
    ∃ h' s', free s.heap p s.fuel=.ok h' ∧ exec sbrk s (.free p)=some s' ∧ s'.heap=h' ∧
      Fine low s' := by
  obtain ⟨b,hb,hpb⟩ := hp
  have hfreep : s.heap.freep≠0 := by
    intro h0
    rw [(hs.fresh h0).1] at hb
    cases hb
  obtain ⟨N,hsound,hlen⟩ := hs.sound hfreep
  obtain ⟨c,S,T,-,hc,hlive,herase⟩ :=
    List.exists_of_eraseP (p := fun b : Live => b.addr+16=p) hb (decide_eq_true hpb.symm)
  have hc : c.addr+16=p := of_decide_eq_true hc
  have hperm : (s.live.map Live.block).Perm (c.block :: (S++T).map Live.block) := by
    rw [hlive]
    exact List.perm_middle.map Live.block
  have hfuel : N.length ≤ s.fuel := by
    rw [State.fuel]
    omega
  obtain ⟨h',hrun,N',hs',hlen',-⟩ := (hsound.perm hperm).free hfuel
  have hrun : Malloc.free s.heap p s.fuel=.ok h' := by
    rw [← hc]
    exact hrun
  refine ⟨h',_,hrun,exec_free hrun,rfl,?_⟩
  rw [herase]
  refine hs'.fine (by omega) fun b hb => hs.served b ?_
  rw [hlive]
  simp only [List.mem_append,List.mem_cons] at hb ⊢
  tauto

theorem Fine.store (hs : Fine low s) (hx : ∃ b∈s.live, b.addr < x ∧ x < b.addr+16*b.size) :
    Fine low { s with heap := s.heap.set x v } := by
  obtain ⟨b,hb,hlt,hlt'⟩ := hx
  have hfreep : s.heap.freep≠0 := by
    intro h0
    rw [(hs.fresh h0).1] at hb
    cases hb
  obtain ⟨N,hsound,hlen⟩ := hs.sound hfreep
  have hb' : b.block∈s.live.map Live.block := List.mem_map_of_mem hb
  have hne : ∀ Q∈N++s.live.map Live.block, Q.addr≠x := by
    intro Q hQ heq
    rcases List.mem_append.mp hQ with hQ | hQ
    · have hapart := hsound.apart _ hb' Q hQ
      rcases hsound.nodes.base_or_pos hQ with rfl | hpos
      · have hle := hsound.base_lt hb'
        simp only [Live.block] at hle heq
        omega
      · simp only [Apart,Block.stop,Live.block] at hapart
        omega
    · have hneq : Q≠b.block := by
        rintro rfl
        simp only [Live.block] at heq
        omega
      have hapart : Apart Q b.block := hsound.separate.forall hQ hb' hneq
      simp only [Apart,Block.stop,Live.block] at hapart
      omega
  have hs' : Sound low (s.heap.set x v) N (s.live.map Live.block) := by
    refine hsound.frame (fun Q hQ => ?_) ⟨rfl,rfl,rfl,rfl⟩
    simp [Heap.set,hne Q hQ]
  exact hs'.fine hlen hs.served

theorem Fine.step (hs : Fine low s) (hop : Allowed s op) (hserves : ∀ h m, Serves sbrk h m) :
    ∃ s', step sbrk s op=some s' ∧ Fine low s' := by
  rw [Malloc.step,if_pos hop]
  cases op with
  | malloc nbytes =>
    obtain ⟨h',r,s',hs'⟩ := hs.malloc hop.1 fun _ _ _ => hserves _ _
    exact ⟨s',hs'.exec,hs'.fine⟩
  | free p =>
    obtain ⟨h',s',-,hexec,-,hfine⟩ := hs.free hop
    exact ⟨s',hexec,hfine⟩
  | store x v => exact ⟨_,rfl,hs.store hop⟩

/-- Fewer than `2^32` units are obtained in all. -/
def Bounded (env : Env) : Prop := ∀ asked got n gap, env asked got n=some gap → got+n < 16*uint

theorem fresh_serves (henv : Bounded env) (h : Heap) (m : Nat) : Serves (fresh env) h m := by
  cases hans : env h.asked h.granted m with
  | none =>
    refine .inl ?_
    simp only [fresh,hans]
  | some gap =>
    refine .inr ⟨gap,henv _ _ _ _ hans,?_⟩
    simp only [fresh,hans]

theorem reaches_fine {base top : Nat} (henv : Bounded env) (hbase : 0 < base) (htop : base+16 ≤ top)
    (hreach : Reaches (step (fresh env)) (start base top) s) : Fine top s := by
  obtain ⟨ls,hrun⟩ := hreach
  refine run_invariant (I := Fine top) ?_ ?_ hrun
  · intro s op s' hs hstep
    have hop : Allowed s op := by
      by_contra hnot
      rw [Malloc.step,if_neg hnot] at hstep
      cases hstep
    obtain ⟨t,ht,hfine⟩ := hs.step hop (fresh_serves henv)
    rw [ht] at hstep
    cases hstep
    exact hfine
  · exact ⟨fun _ => ⟨rfl,rfl,hbase,htop,Nat.le_refl _⟩,fun hne => absurd rfl hne,by simp [start]⟩

/-- **The user heap**: after every sequence of calls the free list is a ring through `base` in the
order of addresses, the blocks in use are as large as asked for and apart from all others, all of
them add up to what `sbrk` returned, and the next call ends. -/
theorem heap_sound {base top : Nat} (henv : Bounded env) (hbase : 0 < base) (htop : base+16 ≤ top)
    (hreach : Reaches (step (fresh env)) (start base top) s) :
    (s.heap.freep=0 → s.live=[] ∧ s.heap.granted=0) ∧
      (s.heap.freep≠0 → ∃ N, Sound top s.heap N (s.live.map Live.block)) ∧
      (∀ b∈s.live, b.nbytes+16 ≤ 16*b.size) ∧
      ∀ op, Allowed s op → ∃ s', step (fresh env) s op=some s' := by
  have hs := reaches_fine henv hbase htop hreach
  refine ⟨fun h0 => ⟨(hs.fresh h0).1,(hs.fresh h0).2.1⟩,fun hne => ?_,hs.served,fun op hop => ?_⟩
  · obtain ⟨N,hN,-⟩ := hs.sound hne
    exact ⟨N,hN⟩
  · obtain ⟨s',hs',-⟩ := hs.step hop (fresh_serves henv)
    exact ⟨s',hs'⟩

def plainEnv : Env := fun _ got n => if got+n < 16*uint then some 0 else none

def threeOps : List Op := [.malloc 100, .malloc 50, .free 65456]

def threeCalls : State := (run (step (fresh plainEnv)) threeOps (start 16 32)).get (by decide +kernel)

theorem threeCalls_sound : (∃ N, Sound 32 threeCalls.heap N (threeCalls.live.map Live.block)) ∧
    ∃ s', step (fresh plainEnv) threeCalls (.malloc 24)=some s' := by
  have henv : Bounded plainEnv := by
    intro asked got n gap hgap
    rw [plainEnv] at hgap
    split_ifs at hgap with hlt
    exact hlt
  have hreach : Reaches (step (fresh plainEnv)) (start 16 32) threeCalls :=
    ⟨threeOps,(Option.some_get _).symm⟩
  obtain ⟨-,hsound,-,hstep⟩ := heap_sound henv (by decide) (by decide) hreach
  exact ⟨hsound (by decide +kernel),hstep _ (by decide +kernel)⟩

/-- 33 blocks of `2^27 - 1` units, and all of them freed. -/
def hugeOps : List Op :=
  List.replicate 33 (.malloc 2147483616)++(List.range 33).map fun i => .free (48+i*2147483632)

def hugeCalls : State :=
  (run (step (fresh fun _ _ _ => some 0)) hugeOps (start 16 32)).get (by decide +kernel)

/-- The size of a free block is a `uint`: joining more than `2^32` units loses some of them. -/
theorem joined_size_wraps : Reaches (step (fresh fun _ _ _ => some 0)) (start 16 32) hugeCalls ∧
    hugeCalls.live=[] ∧ ¬∃ N, Nodes hugeCalls.heap N ∧ 16*total N=hugeCalls.heap.granted := by
  have hreach : Reaches (step (fresh fun _ _ _ => some 0)) (start 16 32) hugeCalls :=
    ⟨hugeOps,(Option.some_get _).symm⟩
  have hlive : hugeCalls.live=[] := by decide +kernel
  refine ⟨hreach,hlive,?_⟩
  rintro ⟨N,hN,htotal⟩
  have hbase : hugeCalls.heap.base=16 := by decide +kernel
  have hptr : hugeCalls.heap.ptr 16=32 ∧ hugeCalls.heap.ptr 32=16 := by decide +kernel
  have hsize : 16*hugeCalls.heap.size 32 < hugeCalls.heap.granted := by decide +kernel
  obtain ⟨fs,rfl,-⟩ := hN.head
  have hring := hN.ring
  have hsorted := (List.pairwise_cons.mp hN.sorted).1
  rw [hbase] at hring hsorted
  cases fs with
  | nil =>
    have hself : hugeCalls.heap.ptr 16=16 := hring.2
    omega
  | cons X fs =>
    have hX : hugeCalls.heap.ptr 16=X.addr := hring.2.1
    have hXsize := hN.sizes X (by simp)
    have hrest := hring.2.2
    rw [← hX,hptr.1] at hXsize hrest
    cases fs with
    | nil =>
      simp only [total_cons,total_nil] at htotal
      omega
    | cons Y fs =>
      have hY : hugeCalls.heap.ptr 32=Y.addr := hrest.1
      have hlt := hsorted Y (by simp)
      simp only [Block.stop] at hlt
      omega

end Runs

end Xv6.Malloc
