import Xv6.InodeBlocks
import Xv6.Holdings
import Mathlib.Algebra.BigOperators.Intervals

/-! What the functions of `kernel/fs.c` on blocks do to the account of the bitmap: the set bits are
the blocks `held`, each of them once, among them the blocks `rest` of others. -/
namespace Xv6.Inode
open Function Xv6.Total Xv6.Holdings
variable {s t : Fs} {M rest : Multiset Nat} {i bn : Nat}

def Accounts (s : Fs) (held : Multiset Nat) : Prop :=
  ((Finset.range s.size).filter fun b => s.used b=true).val=held

def Dinode.direct (d : Dinode) : Multiset Nat := held (Finset.range ndirect) d.addrs

/-- The indirect block, and the blocks that it names. -/
def Dinode.indirect (words : Nat → Nat → Nat) (d : Dinode) : Multiset Nat :=
  name (d.addrs ndirect) + if d.addrs ndirect=0 then 0
    else held (Finset.range nindirect) (words (d.addrs ndirect))

def Dinode.blocks (words : Nat → Nat → Nat) (d : Dinode) : Multiset Nat :=
  d.direct+d.indirect words

/-- The block with number `bn` of an inode, or 0. -/
def Dinode.slot (words : Nat → Nat → Nat) (d : Dinode) (bn : Nat) : Nat :=
  if bn < ndirect then d.addrs bn
  else if bn < maxfile ∧ d.addrs ndirect≠0 then words (d.addrs ndirect) (bn-ndirect)
  else 0

theorem Accounts.nodup (h : Accounts s M) : M.Nodup := by
  rw [← h]
  exact Finset.nodup _

theorem Accounts.congr {M' : Multiset Nat} (h : Accounts s M) (hM : M=M') : Accounts s M' := hM ▸ h

theorem Accounts.mem_iff (h : Accounts s M) {b : Nat} : b∈M ↔ b < s.size ∧ s.used b=true := by
  rw [← h,Finset.mem_val,Finset.mem_filter,Finset.mem_range]

theorem balloc_cases (h : Accounts s M) (h0 : 0∈M) :
    balloc s=({ s with calls := s.calls+1 }, 0) ∨
      ∃ b, b≠0 ∧ b∉M ∧ balloc s=({ s with
        calls := s.calls+1
        used := update s.used b true
        words := update s.words b fun _ => 0 }, b) ∧
          Accounts { s with used := update s.used b true } (M+{b}) := by
  unfold balloc
  by_cases hf : s.fails s.calls
  · exact .inl (by simp [hf])
  cases hfind : (List.range s.size).find? fun b => !s.used b with
  | none => exact .inl (by simp [hf,hfind])
  | some b =>
    have hlt : b < s.size := List.mem_range.mp (List.mem_of_find?_eq_some hfind)
    have hfree : s.used b=false := by simpa using List.find?_some hfind
    have hnot : b∉M := fun hb => by
      rw [h.mem_iff,hfree] at hb
      exact absurd hb.2 (by simp)
    refine .inr ⟨b,fun hb => hnot (hb ▸ h0),hnot,by simp [hf,hfind],?_⟩
    have hset : ((Finset.range s.size).filter fun b' => update s.used b true b'=true) =
        insert b ((Finset.range s.size).filter fun b => s.used b=true) := by
      ext b'
      by_cases hb : b'=b
      · simp [hb,hlt]
      · simp [hb]
    change ((Finset.range s.size).filter fun b' => update s.used b true b'=true).val=_
    rw [hset,Finset.insert_val_of_notMem (by simp [hfree]),h,← Multiset.singleton_add,add_comm]

theorem bfree_spec {b : Nat} (h : Accounts s (M+{b})) :
    bfree s b=.ok { s with used := update s.used b false } ∧
      Accounts { s with used := update s.used b false } M := by
  have hb := h.mem_iff.mp (Multiset.mem_add.mpr (.inr (Multiset.mem_singleton_self b)))
  refine ⟨if_pos hb.2,?_⟩
  have hset : ((Finset.range s.size).filter fun b' => update s.used b false b'=true) =
      ((Finset.range s.size).filter fun b => s.used b=true).erase b := by
    ext b'
    by_cases hb' : b'=b
    · simp [hb']
    · simp [hb']
  change ((Finset.range s.size).filter fun b' => update s.used b false b'=true).val=_
  rw [hset,Finset.erase_val,h,Multiset.erase_add_right_pos _ (Multiset.mem_singleton_self b),
    Multiset.erase_singleton,add_zero]

section Slots
variable {d : Dinode} {words : Nat → Nat → Nat}

theorem Dinode.slot_mem (hne : d.slot words bn≠0) : d.slot words bn∈d.blocks words := by
  unfold slot at hne ⊢
  split at hne
  · rename_i hbn
    rw [if_pos hbn]
    exact Multiset.mem_add.mpr (.inl (mem_held (Finset.mem_range.mpr hbn) hne))
  · rename_i hbn
    split at hne
    · rename_i hind
      rw [if_neg hbn,if_pos hind]
      refine Multiset.mem_add.mpr (.inr ?_)
      rw [indirect,if_neg hind.2]
      refine Multiset.mem_add.mpr (.inr (mem_held (Finset.mem_range.mpr ?_) hne))
      simp only [maxfile,ndirect,nindirect] at *
      omega
    · exact absurd rfl hne

theorem Dinode.slot_ne_indirect (h : (d.blocks words).Nodup) (hne : d.slot words bn≠0) :
    d.slot words bn≠d.addrs ndirect := by
  intro heq
  have hzero : d.addrs ndirect≠0 := heq ▸ hne
  obtain ⟨-,hind,hdisj⟩ := Multiset.nodup_add.mp h
  have hmem : d.addrs ndirect∈d.indirect words := by
    rw [indirect,name_of_ne hzero]
    exact Multiset.mem_add.mpr (.inl (Multiset.mem_singleton_self _))
  unfold slot at heq hne
  split at heq
  · rename_i hbn
    rw [if_pos hbn] at hne
    refine Multiset.disjoint_left.mp hdisj (mem_held (Finset.mem_range.mpr hbn) hne) ?_
    rw [heq]
    exact hmem
  · rename_i hbn
    split at heq
    · rename_i hbn'
      rw [if_neg hbn,if_pos hbn'] at hne
      rw [indirect,if_neg hzero,name_of_ne hzero] at hind
      have hword : words (d.addrs ndirect) (bn-ndirect) ∈
          held (Finset.range nindirect) (words (d.addrs ndirect)) := by
        refine mem_held (Finset.mem_range.mpr ?_) hne
        simp only [maxfile,ndirect,nindirect] at *
        omega
      rw [heq] at hword
      exact Multiset.disjoint_left.mp (Multiset.nodup_add.mp hind).2.2
        (Multiset.mem_singleton_self _) hword
    · exact hzero heq.symm

theorem Dinode.blocks_congr {words' : Nat → Nat → Nat}
    (h : d.addrs ndirect≠0 → words' (d.addrs ndirect)=words (d.addrs ndirect)) :
    d.blocks words'=d.blocks words := by
  by_cases hzero : d.addrs ndirect=0
  · simp only [blocks,indirect,hzero,if_true]
  · rw [blocks,blocks,indirect,indirect,h hzero]

theorem Dinode.slot_congr {words' : Nat → Nat → Nat}
    (h : d.addrs ndirect≠0 → words' (d.addrs ndirect)=words (d.addrs ndirect)) :
    d.slot words' bn=d.slot words bn := by
  by_cases hzero : d.addrs ndirect=0
  · simp [slot,hzero]
  · rw [slot,slot,h hzero]

def Dinode.setAddr (d : Dinode) (k b : Nat) : Dinode := { d with addrs := update d.addrs k b }

theorem Dinode.setAddr_self (d : Dinode) (k b : Nat) : (d.setAddr k b).addrs k=b := by
  simp [setAddr]

theorem Dinode.setAddr_of_ne {k j b : Nat} (h : j≠k) : (d.setAddr k b).addrs j=d.addrs j := by
  simp [setAddr,h]

theorem Dinode.blocks_setAddr {k b : Nat} (hk : k ≤ ndirect) (hzero : d.addrs k=0) (hb : b≠0)
    (hne : d.addrs ndirect≠b) :
    (d.setAddr k b).blocks (update words b fun _ => 0)=d.blocks words+{b} := by
  by_cases hkn : k=ndirect
  · subst hkn
    have hdirect : (d.setAddr ndirect b).direct=d.direct :=
      held_congr fun j hj => setAddr_of_ne (Finset.mem_range.mp hj).ne
    have hnew : (d.setAddr ndirect b).indirect (update words b fun _ => 0) = {b} := by
      have hempty : held (Finset.range nindirect) (fun _ => 0)=0 := held_empty fun _ _ => rfl
      simp only [indirect,setAddr_self,update_self,if_neg hb,name_of_ne hb,hempty,add_zero]
    have hold : d.indirect words=0 := by simp [indirect,hzero,name_zero]
    rw [blocks,blocks,hdirect,hnew,hold,add_zero]
  · have hdirect : (d.setAddr k b).direct=d.direct+{b} := by
      have hset := held_update (Finset.mem_range.mpr (show k < ndirect by omega)) d.addrs b
      rwa [hzero,name_zero,add_zero,name_of_ne hb] at hset
    have haddr : (d.setAddr k b).addrs ndirect=d.addrs ndirect := setAddr_of_ne (Ne.symm hkn)
    have hindirect : (d.setAddr k b).indirect (update words b fun _ => 0)=d.indirect words := by
      rw [indirect,indirect,haddr,update_of_ne hne]
    rw [blocks,blocks,hdirect,hindirect]
    abel

theorem Dinode.slot_setAddr {k b : Nat} (hzero : d.addrs k=0) (hb : b≠0)
    (hne : d.addrs ndirect≠b) (h : d.slot words bn≠0) :
    (d.setAddr k b).slot (update words b fun _ => 0) bn≠0 := by
  unfold slot at h ⊢
  by_cases hbn : bn < ndirect
  · rw [if_pos hbn] at h ⊢
    by_cases hk : bn=k
    · simpa [setAddr,hk] using hb
    · simpa [setAddr,hk] using h
  · rw [if_neg hbn] at h ⊢
    by_cases hind : bn < maxfile ∧ d.addrs ndirect≠0
    · rw [if_pos hind] at h
      have hk : ndirect≠k := fun hk => hind.2 (hk ▸ hzero)
      have haddr : (d.setAddr k b).addrs ndirect=d.addrs ndirect := setAddr_of_ne hk
      rwa [haddr,if_pos hind,update_of_ne hne]
    · rw [if_neg hind] at h
      exact absurd rfl h

theorem Dinode.blocks_setWord {j b : Nat} (hj : j < nindirect) (hind : d.addrs ndirect≠0)
    (hzero : words (d.addrs ndirect) j=0) (hb : b≠0) :
    d.blocks (update words (d.addrs ndirect) (update (words (d.addrs ndirect)) j b)) =
      d.blocks words+{b} := by
  have hset := held_update (Finset.mem_range.mpr hj) (words (d.addrs ndirect)) b
  rw [hzero,name_zero,add_zero,name_of_ne hb] at hset
  rw [blocks,blocks,indirect,indirect,if_neg hind,if_neg hind,update_self,hset]
  abel

theorem Dinode.slot_setWord {j b : Nat} (hb : b≠0) (h : d.slot words bn≠0) :
    d.slot (update words (d.addrs ndirect) (update (words (d.addrs ndirect)) j b)) bn≠0 := by
  unfold slot at h ⊢
  split
  · rename_i hbn
    rwa [if_pos hbn] at h
  · rename_i hbn
    rw [if_neg hbn] at h
    split
    · rename_i hind
      rw [if_pos hind] at h
      rw [update_self]
      by_cases hj : bn-ndirect=j
      · rwa [hj,update_self]
      · rwa [update_of_ne hj]
    · rename_i hind
      rw [if_neg hind] at h
      exact absurd rfl h

end Slots

/-- The change that mapping blocks makes: inode `i` may have more blocks in its copy. -/
structure Grows (i : Nat) (rest : Multiset Nat) (s t : Fs) : Prop where
  blocks : t.size=s.size
  ninodes : t.ninodes=s.ninodes
  dinode : t.dinode=s.dinode
  ref : t.ref=s.ref
  valid : t.valid=s.valid
  other : ∀ j≠i, t.inode j=s.inode j
  type : (t.inode i).type=(s.inode i).type
  size : (t.inode i).size=(s.inode i).size
  words : ∀ b∈rest, t.words b=s.words b
  slots : ∀ bn, (s.inode i).slot s.words bn≠0 → (t.inode i).slot t.words bn≠0

theorem Grows.refl (i : Nat) (rest : Multiset Nat) (s : Fs) : Grows i rest s s :=
  ⟨rfl,rfl,rfl,rfl,rfl,fun _ _ => rfl,rfl,rfl,fun _ _ => rfl,fun _ h => h⟩

theorem Grows.trans {u : Fs} (h : Grows i rest s t) (h' : Grows i rest t u) : Grows i rest s u :=
  ⟨h'.blocks.trans h.blocks,h'.ninodes.trans h.ninodes,h'.dinode.trans h.dinode,h'.ref.trans h.ref,
    h'.valid.trans h.valid,fun j hj => (h'.other j hj).trans (h.other j hj),h'.type.trans h.type,
    h'.size.trans h.size,fun b hb => (h'.words b hb).trans (h.words b hb),
    fun bn hbn => h'.slots bn (h.slots bn hbn)⟩

def Owns (s : Fs) (rest : Multiset Nat) (i : Nat) : Prop :=
  Accounts s (rest+(s.inode i).blocks s.words)

theorem addr_mem_blocks {d : Dinode} {words : Nat → Nat → Nat} {k : Nat} (hk : k ≤ ndirect)
    (hne : d.addrs k≠0) : d.addrs k∈d.blocks words := by
  by_cases hkn : k=ndirect
  · subst hkn
    refine Multiset.mem_add.mpr (.inr (Multiset.mem_add.mpr (.inl ?_)))
    rw [name_of_ne hne]
    exact Multiset.mem_singleton_self _
  · exact Multiset.mem_add.mpr (.inl (mem_held (Finset.mem_range.mpr (by omega)) hne))

theorem Fs.setAddr_inode (s : Fs) (i k b : Nat) :
    (s.setAddr i k b).inode i=(s.inode i).setAddr k b :=
  update_self i _ s.inode

theorem Grows.tick (i : Nat) (rest : Multiset Nat) (s : Fs) (c : Nat) :
    Grows i rest s { s with calls := c } :=
  ⟨rfl,rfl,rfl,rfl,rfl,fun _ _ => rfl,rfl,rfl,fun _ _ => rfl,fun _ h => h⟩

theorem mapAddr_spec (h : Owns s rest i) (h0 : 0∈rest) {k : Nat} (hk : k ≤ ndirect) :
    Owns (mapAddr s i k).1 rest i ∧ Grows i rest s (mapAddr s i k).1 ∧
      ((mapAddr s i k).2≠0 → ((mapAddr s i k).1.inode i).addrs k=(mapAddr s i k).2) := by
  unfold mapAddr
  by_cases hzero : (s.inode i).addrs k=0
  · rw [if_pos hzero]
    obtain hb | ⟨b,hb,hnot,hballoc,hacc⟩ := balloc_cases h (Multiset.mem_add.mpr (.inl h0))
    · rw [hb]
      exact ⟨h,.tick i rest s _,fun hne => absurd rfl hne⟩
    · rw [hballoc]
      dsimp only
      rw [if_neg hb]
      have hne : (s.inode i).addrs ndirect≠b := by
        rintro rfl
        exact hnot (Multiset.mem_add.mpr (.inr (addr_mem_blocks le_rfl hb)))
      have hrest : ∀ b'∈rest, update s.words b (fun _ => 0) b'=s.words b' := by
        intro b' hb'
        have hbb : b'≠b := by
          rintro rfl
          exact hnot (Multiset.mem_add.mpr (.inl hb'))
        exact update_of_ne hbb _ _
      refine ⟨hacc.congr ?_,⟨rfl,rfl,rfl,rfl,rfl,fun j hj => update_of_ne hj _ _,?_,?_,hrest,?_⟩,?_⟩
      · rw [Fs.setAddr_inode,add_assoc,← Dinode.blocks_setAddr hk hzero hb hne]
        rfl
      · rw [Fs.setAddr_inode]
        rfl
      · rw [Fs.setAddr_inode]
        rfl
      · intro bn hbn
        rw [Fs.setAddr_inode]
        exact Dinode.slot_setAddr hzero hb hne hbn
      · intro _
        rw [Fs.setAddr_inode,Dinode.setAddr_self]
  · rw [if_neg hzero]
    exact ⟨h,.refl i rest s,fun _ => rfl⟩

theorem mapWord_spec (h : Owns s rest i) (h0 : 0∈rest) {j : Nat} (hj : j < nindirect)
    (hind : (s.inode i).addrs ndirect≠0) :
    Owns (mapWord s ((s.inode i).addrs ndirect) j).1 rest i ∧
      Grows i rest s (mapWord s ((s.inode i).addrs ndirect) j).1 ∧
        ((mapWord s ((s.inode i).addrs ndirect) j).2≠0 →
          ((mapWord s ((s.inode i).addrs ndirect) j).1.inode i).addrs ndirect≠0 ∧
            (mapWord s ((s.inode i).addrs ndirect) j).1.words
              (((mapWord s ((s.inode i).addrs ndirect) j).1.inode i).addrs ndirect) j =
                (mapWord s ((s.inode i).addrs ndirect) j).2) := by
  unfold mapWord
  have hmem : (s.inode i).addrs ndirect∈(s.inode i).blocks s.words := addr_mem_blocks le_rfl hind
  by_cases hzero : s.words ((s.inode i).addrs ndirect) j=0
  · rw [if_pos hzero]
    obtain hb | ⟨b,hb,hnot,hballoc,hacc⟩ := balloc_cases h (Multiset.mem_add.mpr (.inl h0))
    · rw [hb]
      exact ⟨h,.tick i rest s _,fun hne => absurd rfl hne⟩
    · rw [hballoc]
      dsimp only
      rw [if_neg hb]
      have hne : (s.inode i).addrs ndirect≠b := fun heq =>
        hnot (Multiset.mem_add.mpr (.inr (heq ▸ hmem)))
      -- the new block is not the indirect one, so that the latter has its words still
      have hsame : update s.words b (fun _ => 0) ((s.inode i).addrs ndirect) =
          s.words ((s.inode i).addrs ndirect) := update_of_ne hne _ _
      have hzero' : update s.words b (fun _ => 0) ((s.inode i).addrs ndirect) j=0 := by rwa [hsame]
      have hblocks := Dinode.blocks_setWord hj hind hzero' hb
      rw [Dinode.blocks_congr fun _ => hsame] at hblocks
      have hrest : ∀ b'∈rest, update (update s.words b fun _ => 0) ((s.inode i).addrs ndirect)
          (update (update s.words b (fun _ => 0) ((s.inode i).addrs ndirect)) j b) b'=s.words b' := by
        intro b' hb'
        have hind' : b'≠(s.inode i).addrs ndirect := by
          rintro rfl
          exact Multiset.disjoint_left.mp (Multiset.nodup_add.mp h.nodup).2.2 hb' hmem
        have hbb : b'≠b := by
          rintro rfl
          exact hnot (Multiset.mem_add.mpr (.inl hb'))
        rw [update_of_ne hind',update_of_ne hbb]
      refine ⟨hacc.congr ?_,⟨rfl,rfl,rfl,rfl,rfl,fun _ _ => rfl,rfl,rfl,hrest,fun bn hbn => ?_⟩,?_⟩
      · rw [add_assoc,← hblocks]
      · refine Dinode.slot_setWord hb ?_
        rwa [Dinode.slot_congr fun _ => hsame]
      · intro _
        refine ⟨hind,?_⟩
        simp
  · rw [if_neg hzero]
    exact ⟨h,.refl i rest s,fun _ => ⟨hind,rfl⟩⟩

theorem bmap_spec (h : Owns s rest i) (h0 : 0∈rest) (hbn : bn < maxfile) :
    Yields (bmap s i bn) fun r => Owns r.1 rest i ∧ Grows i rest s r.1 ∧
      (r.2≠0 → (r.1.inode i).slot r.1.words bn=r.2) := by
  unfold bmap
  by_cases hd : bn < ndirect
  · rw [if_pos hd]
    obtain ⟨hown,hgrow,haddr⟩ := mapAddr_spec h h0 hd.le
    refine .ok ⟨hown,hgrow,fun hne => ?_⟩
    rw [Dinode.slot,if_pos hd,haddr hne]
  · have hj : bn-ndirect < nindirect := by simp only [maxfile] at hbn; omega
    rw [if_neg hd,if_pos hj]
    obtain ⟨hown,hgrow,haddr⟩ := mapAddr_spec h h0 (le_refl ndirect)
    generalize mapAddr s i ndirect=r at hown hgrow haddr ⊢
    obtain ⟨t,ind⟩ := r
    dsimp only at hown hgrow haddr ⊢
    by_cases hind : ind=0
    · rw [if_pos hind]
      exact .ok ⟨hown,hgrow,fun hne => absurd rfl hne⟩
    · rw [if_neg hind,← haddr hind]
      rw [← haddr hind] at hind
      obtain ⟨hown',hgrow',hword⟩ := mapWord_spec hown h0 hj hind
      refine .ok ⟨hown',hgrow.trans hgrow',fun hne => ?_⟩
      rw [Dinode.slot,if_neg hd,if_pos ⟨hbn,(hword hne).1⟩]
      exact (hword hne).2

theorem Owns.write (h : Owns s rest i) (hne : (s.inode i).slot s.words bn≠0) (data : Nat → Nat) :
    Owns { s with words := update s.words ((s.inode i).slot s.words bn) data } rest i ∧
      Grows i rest s { s with words := update s.words ((s.inode i).slot s.words bn) data } := by
  have hmem := Dinode.slot_mem hne
  obtain ⟨-,hnodup,hdisj⟩ := Multiset.nodup_add.mp h.nodup
  have hind := Dinode.slot_ne_indirect hnodup hne
  have hsame : update s.words ((s.inode i).slot s.words bn) data ((s.inode i).addrs ndirect) =
      s.words ((s.inode i).addrs ndirect) := update_of_ne hind.symm _ _
  refine ⟨h.congr ?_,rfl,rfl,rfl,rfl,rfl,fun _ _ => rfl,rfl,rfl,fun b hb => ?_,fun bn hbn => ?_⟩
  · rw [Dinode.blocks_congr fun _ => hsame]
  · refine update_of_ne ?_ _ _
    rintro rfl
    exact Multiset.disjoint_left.mp hdisj hb hmem
  · rwa [Dinode.slot_congr fun _ => hsame]

/-- Every block below byte `n` of the inode is there. -/
def Covers (s : Fs) (i n : Nat) : Prop := ∀ bn, bn*bsize < n → (s.inode i).slot s.words bn≠0

theorem Covers.grows {n : Nat} (h : Covers s i n) (hg : Grows i rest s t) : Covers t i n :=
  fun bn hbn => hg.slots bn (h bn hbn)

theorem bmap_of_slot (h : (s.inode i).slot s.words bn≠0) :
    bmap s i bn=.ok (s, (s.inode i).slot s.words bn) := by
  unfold bmap Dinode.slot at *
  by_cases hd : bn < ndirect
  · rw [if_pos hd] at h
    simp only [if_pos hd,mapAddr,if_neg h]
  · rw [if_neg hd] at h
    by_cases hind : bn < maxfile ∧ (s.inode i).addrs ndirect≠0
    · rw [if_pos hind] at h
      have hj : bn-ndirect < nindirect := by have := hind.1; simp only [maxfile] at this; omega
      simp only [if_neg hd,if_pos hj,mapAddr,if_neg hind.2,mapWord,if_neg h,if_pos hind]
    · rw [if_neg hind] at h
      exact absurd rfl h

theorem readiFrom_spec {n : Nat} (copies : Nat → Bool) (hc : Covers s i (s.inode i).size) (k : Nat)
    {off tot : Nat} (hoff : off+(n-tot)≤(s.inode i).size) :
    Yields (readiFrom s i off tot n copies k) fun r => r.1=s := by
  induction k generalizing off tot with
  | zero => exact .ok rfl
  | succ k ih =>
    unfold readiFrom
    split
    · rename_i hlt
      have hslot := hc (off/bsize) (by
        have := Nat.div_mul_le_self off bsize
        omega)
      rw [bmap_of_slot hslot]
      refine Yields.ok_bind ?_
      dsimp only
      rw [if_neg hslot]
      split
      · exact ih (by omega)
      · exact .ok rfl
    · exact .ok rfl

theorem readi_spec (off n : Nat) (copies : Nat → Bool) (hc : Covers s i (s.inode i).size) :
    Yields (readi s i off n copies) fun r => r.1=s := by
  unfold readi
  split
  · exact .ok rfl
  · refine readiFrom_spec copies hc _ ?_
    split <;> omega

theorem writeiFrom_spec {n : Nat} (src : Source) (h0 : 0∈rest) (k : Nat) {off tot : Nat}
    (h : Owns s rest i) (hc : Covers s i (max (s.inode i).size off))
    (hoff : off+(n-tot) ≤ maxfile*bsize) :
    Yields (writeiFrom s i off tot n src k) fun r => Owns r.1 rest i ∧ Grows i rest s r.1 ∧
      Covers r.1 i (max (s.inode i).size r.2.1) := by
  induction k generalizing s off tot with
  | zero => exact .ok ⟨h,.refl i rest s,hc⟩
  | succ k ih =>
    unfold writeiFrom
    split
    · rename_i hlt
      have hbn : off/bsize < maxfile := by
        rw [Nat.div_lt_iff_lt_mul (by decide)]
        omega
      refine (bmap_spec h h0 hbn).bind ?_
      rintro ⟨t,addr⟩ ⟨hown,hgrow,hslot⟩
      dsimp only at hown hgrow hslot ⊢
      split
      · exact .ok ⟨hown,hgrow,hc.grows hgrow⟩
      · rename_i haddr
        have hslot := hslot haddr
        have hne : (t.inode i).slot t.words (off/bsize)≠0 := hslot ▸ haddr
        obtain ⟨hown',hgrow'⟩ := hown.write hne (src off).2
        rw [hslot] at hown' hgrow'
        have hall := hgrow.trans hgrow'
        -- the block at `off` is there, and with it all up to where it ends
        have hcov : Covers { t with words := update t.words addr (src off).2 } i
            (max (s.inode i).size (off+min (n-tot) (bsize-off%bsize))) := by
          intro bn hlt
          by_cases hold : bn*bsize < max (s.inode i).size off
          · exact hc.grows hall bn hold
          · have heq : bn=off/bsize := by
              simp only [bsize] at *
              omega
            rw [heq]
            exact hgrow'.slots _ hne
        split
        · rw [← hall.size] at hcov
          refine (ih hown' hcov (by omega)).weaken fun r hr => ?_
          rw [← hall.size]
          exact ⟨hr.1,hall.trans hr.2.1,hr.2.2⟩
        · exact .ok ⟨hown',hall,hc.grows hall⟩
    · exact .ok ⟨h,.refl i rest s,hc⟩

structure Shrinks (i : Nat) (s t : Fs) : Prop where
  blocks : t.size=s.size
  ninodes : t.ninodes=s.ninodes
  words : t.words=s.words
  dinode : t.dinode=s.dinode
  ref : t.ref=s.ref
  valid : t.valid=s.valid
  other : ∀ j≠i, t.inode j=s.inode j
  type : (t.inode i).type=(s.inode i).type

theorem Shrinks.refl (i : Nat) (s : Fs) : Shrinks i s s :=
  ⟨rfl,rfl,rfl,rfl,rfl,rfl,fun _ _ => rfl,rfl⟩

theorem Shrinks.trans {u : Fs} (h : Shrinks i s t) (h' : Shrinks i t u) : Shrinks i s u :=
  ⟨h'.blocks.trans h.blocks,h'.ninodes.trans h.ninodes,h'.words.trans h.words,
    h'.dinode.trans h.dinode,h'.ref.trans h.ref,h'.valid.trans h.valid,
    fun j hj => (h'.other j hj).trans (h.other j hj),h'.type.trans h.type⟩

theorem Shrinks.free (i k : Nat) (s : Fs) (used : Nat → Bool) :
    Shrinks i s (Fs.setAddr { s with used := used } i k 0) := by
  refine ⟨rfl,rfl,rfl,rfl,rfl,rfl,fun j hj => update_of_ne hj _ _,?_⟩
  rw [Fs.setAddr_inode]
  rfl

theorem truncDirect_spec (n : Nat) {k : Nat} (hk : k+n=ndirect)
    (hz : ∀ j < k, (s.inode i).addrs j=0) (h : Accounts s (rest+(s.inode i).direct)) :
    Yields (truncDirect s i k n) fun t => Accounts t rest ∧ Shrinks i s t ∧
      (∀ j < ndirect, (t.inode i).addrs j=0) ∧
        (t.inode i).addrs ndirect=(s.inode i).addrs ndirect := by
  induction n generalizing s k with
  | zero =>
    obtain rfl : k=ndirect := hk
    have hempty : (s.inode i).direct=0 := held_empty fun j hj => hz j (Finset.mem_range.mp hj)
    rw [hempty,add_zero] at h
    exact .ok ⟨h,.refl i s,hz,rfl⟩
  | succ n ih =>
    unfold truncDirect
    by_cases hzero : (s.inode i).addrs k=0
    · rw [if_pos hzero]
      refine ih (by omega) (fun j hj => ?_) h
      rcases Nat.lt_succ_iff_lt_or_eq.mp hj with hj | rfl
      · exact hz j hj
      · exact hzero
    · rw [if_neg hzero]
      have hset := held_update (Finset.mem_range.mpr (show k < ndirect by omega)) (s.inode i).addrs 0
      rw [name_of_ne hzero,name_zero,add_zero] at hset
      have hacc : Accounts s (rest+((s.inode i).setAddr k 0).direct + {(s.inode i).addrs k}) := by
        rw [add_assoc]
        exact h.congr (congrArg (rest + ·) hset.symm)
      obtain ⟨hfree,hacc⟩ := bfree_spec hacc
      rw [hfree]
      refine Yields.ok_bind ?_
      set u := Fs.setAddr { s with used := update s.used ((s.inode i).addrs k) false } i k 0
      have hu : u.inode i=(s.inode i).setAddr k 0 := Fs.setAddr_inode _ i k 0
      have hz' : ∀ j < k+1, (u.inode i).addrs j=0 := by
        intro j hj
        rw [hu]
        by_cases hjk : j=k
        · rw [hjk,Dinode.setAddr_self]
        · rw [Dinode.setAddr_of_ne hjk]
          exact hz j (by omega)
      have hacc' : Accounts u (rest+(u.inode i).direct) := by
        rw [hu]
        exact hacc
      refine (ih (by omega) hz' hacc').weaken fun t ht => ?_
      refine ⟨ht.1,(Shrinks.free i k s _).trans ht.2.1,ht.2.2.1,ht.2.2.2.trans ?_⟩
      rw [hu,Dinode.setAddr_of_ne (by omega)]

theorem truncWords_spec (n : Nat) {ind j : Nat}
    (h : Accounts s (rest+held (Finset.Ico j (j+n)) (s.words ind))) :
    Yields (truncWords s ind j n) fun t => ∃ used, t = { s with used := used } ∧ Accounts t rest := by
  induction n generalizing s j with
  | zero =>
    rw [add_zero,Finset.Ico_self,held,Finset.sum_empty,add_zero] at h
    exact .ok ⟨s.used,rfl,h⟩
  | succ n ih =>
    have hsplit : held (Finset.Ico j (j+(n+1))) (s.words ind) =
        name (s.words ind j)+held (Finset.Ico (j+1) (j+1+n)) (s.words ind) := by
      rw [held,Finset.sum_eq_sum_Ico_succ_bot (by omega),← add_assoc j,add_right_comm j n 1]
      rfl
    rw [hsplit] at h
    unfold truncWords
    by_cases hzero : s.words ind j=0
    · rw [if_pos hzero]
      rw [hzero,name_zero,zero_add] at h
      exact ih h
    · rw [if_neg hzero]
      rw [name_of_ne hzero,add_comm {_},← add_assoc] at h
      obtain ⟨hfree,hacc⟩ := bfree_spec h
      rw [hfree]
      refine Yields.ok_bind ((ih hacc).weaken ?_)
      rintro t ⟨used,rfl,ht⟩
      exact ⟨used,rfl,ht⟩

theorem truncIndirect_spec (h : Accounts s (rest+(s.inode i).indirect s.words)) :
    Yields (truncIndirect s i) fun t => Accounts t rest ∧ Shrinks i s t ∧
      (t.inode i).addrs ndirect=0 ∧ ∀ j < ndirect, (t.inode i).addrs j=(s.inode i).addrs j := by
  unfold truncIndirect
  by_cases hzero : (s.inode i).addrs ndirect=0
  · rw [if_pos hzero]
    refine .ok ⟨h.congr ?_,.refl i s,hzero,fun _ _ => rfl⟩
    rw [Dinode.indirect,hzero,name_zero,if_pos rfl,add_zero,add_zero]
  · rw [if_neg hzero]
    rw [Dinode.indirect,if_neg hzero,name_of_ne hzero,← add_assoc,Finset.range_eq_Ico,
      ← zero_add nindirect] at h
    refine (truncWords_spec nindirect h).bind ?_
    rintro _ ⟨used,rfl,hacc⟩
    obtain ⟨hfree,hacc⟩ := bfree_spec hacc
    rw [hfree]
    refine Yields.ok_bind (.ok ⟨hacc,.free i ndirect s _,?_,fun j hj => ?_⟩)
    · rw [Fs.setAddr_inode,Dinode.setAddr_self]
    · rw [Fs.setAddr_inode,Dinode.setAddr_of_ne hj.ne]

/-- The change that a whole operation on inode `i` makes: the copy in the table is on
disk, it has all blocks below its size, and the blocks `rest` are as they were. -/
structure Works (i : Nat) (rest : Multiset Nat) (s t : Fs) : Prop where
  blocks : t.size=s.size
  ninodes : t.ninodes=s.ninodes
  ref : t.ref=s.ref
  valid : t.valid=s.valid
  dinode : t.dinode=update s.dinode i (t.inode i)
  other : ∀ j≠i, t.inode j=s.inode j
  type : (t.inode i).type=(s.inode i).type
  words : ∀ b∈rest, t.words b=s.words b
  owns : Owns t rest i
  covers : Covers t i (t.inode i).size

theorem setNlink_spec (h : Owns s rest i) (hc : Covers s i (s.inode i).size) (n : Int) :
    Works i rest s (setNlink s i n) := by
  have hi : (setNlink s i n).inode i = { s.inode i with nlink := short n } := update_self i _ s.inode
  refine ⟨rfl,rfl,rfl,rfl,rfl,fun j hj => update_of_ne hj _ _,?_,fun _ _ => rfl,?_,?_⟩
  · rw [hi]
  · unfold Owns
    rw [hi]
    exact h
  · unfold Covers
    rw [hi]
    exact hc

theorem writei_spec (off n : Nat) (src : Source) (h0 : 0∈rest) (h : Owns s rest i)
    (hc : Covers s i (s.inode i).size) (hd : s.dinode i=s.inode i) :
    Yields (writei s i off n src) fun r => Works i rest s r.1 := by
  have hsame : Works i rest s s :=
    ⟨rfl,rfl,rfl,rfl,by rw [← hd,update_eq_self],fun _ _ => rfl,rfl,fun _ _ => rfl,h,hc⟩
  unfold writei
  split
  · exact .ok hsame
  split
  · exact .ok hsame
  rename_i hsize hmax
  have hoff : max (s.inode i).size off=(s.inode i).size := by omega
  refine (writeiFrom_spec src h0 _ h (hoff.symm ▸ hc) (by omega)).bind ?_
  rintro ⟨t,off',tot⟩ ⟨hown,hgrow,hcov⟩
  refine .ok ?_
  split
  · rename_i hlt
    have hi : (iupdate (t.setInode i { t.inode i with size := off' }) i).inode i =
      { t.inode i with size := off' } := update_self i _ t.inode
    refine ⟨hgrow.blocks,hgrow.ninodes,hgrow.ref,hgrow.valid,?_,fun j hj => ?_,?_,hgrow.words,?_,?_⟩
    · rw [hi,← hgrow.dinode]
      exact congrArg (update t.dinode i) (update_self i _ t.inode)
    · exact (update_of_ne hj _ _).trans (hgrow.other j hj)
    · rw [hi]
      exact hgrow.type
    · unfold Owns
      rw [hi]
      exact hown
    · unfold Covers
      rw [hi]
      have hmax : max (s.inode i).size off'=off' := by
        rw [hgrow.size] at hlt
        omega
      rw [hmax] at hcov
      exact hcov
  · rename_i hlt
    refine ⟨hgrow.blocks,hgrow.ninodes,hgrow.ref,hgrow.valid,?_,hgrow.other,hgrow.type,hgrow.words,
      hown,?_⟩
    · rw [← hgrow.dinode]
      rfl
    · have hmax : max (s.inode i).size off'=(t.inode i).size := by
        rw [hgrow.size] at hlt ⊢
        omega
      rw [hmax] at hcov
      exact hcov

theorem itrunc_spec (h : Owns s rest i) :
    Yields (itrunc s i) fun t => Works i rest s t ∧ (t.inode i).blocks t.words=0 := by
  have hdirect : Accounts s (rest+(s.inode i).indirect s.words+(s.inode i).direct) := by
    refine h.congr ?_
    rw [Dinode.blocks]
    abel
  refine (truncDirect_spec ndirect (zero_add _) (fun j hj => absurd hj (Nat.not_lt_zero j))
    hdirect).bind ?_
  rintro t ⟨hacc,hshrink,hzero,haddr⟩
  have hind : (t.inode i).indirect t.words=(s.inode i).indirect s.words := by
    rw [Dinode.indirect,Dinode.indirect,haddr,hshrink.words]
  rw [← hind] at hacc
  refine (truncIndirect_spec hacc).bind ?_
  rintro u ⟨hacc,hshrink',hnone,hkeep⟩
  have hall := hshrink.trans hshrink'
  set v := iupdate (u.setInode i { u.inode i with size := 0 }) i
  have hi : v.inode i = { u.inode i with size := 0 } := update_self i _ u.inode
  have hblocks : (v.inode i).blocks v.words=0 := by
    rw [hi,Dinode.blocks,Dinode.direct,Dinode.indirect]
    simp only [hnone,name_zero,if_true,add_zero]
    exact held_empty fun j hj => (hkeep j (Finset.mem_range.mp hj)).trans
      (hzero j (Finset.mem_range.mp hj))
  refine .ok ⟨⟨hall.blocks,hall.ninodes,hall.ref,hall.valid,?_,fun j hj => ?_,?_,fun b _ => ?_,?_,?_⟩,
    hblocks⟩
  · rw [← hall.dinode]
    rfl
  · exact (update_of_ne hj _ _).trans (hall.other j hj)
  · rw [hi]
    exact hall.type
  · exact congrFun hall.words b
  · unfold Owns
    rw [hblocks,add_zero]
    exact hacc
  · rw [hi]
    exact fun bn hbn => absurd hbn (Nat.not_lt_zero _)

end Xv6.Inode
