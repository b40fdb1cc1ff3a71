import Xv6.BlockSpec

/-! Ownership of blocks: after every operation on a consistent image the set bits of the bitmap are
the metadata blocks and the blocks of the allocated inodes, each of them once. -/
namespace Xv6.Inode
open Function Xv6.Total Xv6.Holdings Xv6.Machine
variable {s t : Fs} {M : Multiset Nat} {i dp : Nat}

def Dinode.held (words : Nat → Nat → Nat) (d : Dinode) : Multiset Nat :=
  if d.type=.free then 0 else d.blocks words

def Fs.held (s : Fs) : Multiset Nat := ∑ i∈Finset.range s.ninodes, (s.dinode i).held s.words

/-- A consistent image; `M` are the metadata blocks. -/
structure Consistent (M : Multiset Nat) (s : Fs) : Prop where
  boot : 0∈M
  accounts : Accounts s (M+s.held)
  covers : ∀ i, (s.dinode i).type≠.free →
    ∀ bn, bn*bsize < (s.dinode i).size → (s.dinode i).slot s.words bn≠0
  beyond : ∀ i, s.ninodes ≤ i → (s.dinode i).type=.free

structure Sound (M : Multiset Nat) (s : Fs) : Prop extends Consistent M s where
  copies : ∀ i, s.valid i=true → s.inode i=s.dinode i ∧ (s.dinode i).type≠.free

def Fs.rest (M : Multiset Nat) (s : Fs) (i : Nat) : Multiset Nat :=
  M + ∑ j∈(Finset.range s.ninodes).erase i, (s.dinode j).held s.words

theorem Fs.rest_add_held (M : Multiset Nat) (s : Fs) (hi : i < s.ninodes) :
    s.rest M i+(s.dinode i).held s.words=M+s.held := by
  rw [Fs.rest,Fs.held,← Finset.sum_erase_add _ _ (Finset.mem_range.mpr hi),add_assoc]

theorem indirect_mem_rest {j : Nat} (hj : j < s.ninodes) (hji : j≠i)
    (htype : (s.dinode j).type≠.free) (hne : (s.dinode j).addrs ndirect≠0) :
    (s.dinode j).addrs ndirect∈s.rest M i := by
  refine Multiset.mem_add.mpr (.inr (Multiset.mem_sum.mpr ⟨j,?_,?_⟩))
  · exact Finset.mem_erase.mpr ⟨hji,Finset.mem_range.mpr hj⟩
  · rw [Dinode.held,if_neg htype]
    exact addr_mem_blocks le_rfl hne

def Other (e : Panic) : Prop := e≠.freeingFreeBlock

/-- A sound state with the reference counts `r`, in which the copies of inodes that
stay referenced are valid still. -/
structure Leads (M : Multiset Nat) (s : Fs) (r : Nat → Nat) (t : Fs) : Prop where
  sound : Sound M t
  ref : t.ref=r
  valid : ∀ j, 0 < s.ref j → 0 < r j → s.valid j=true → t.valid j=true

theorem Leads.trans {r r' : Nat → Nat} {u : Fs} (h : Leads M s r t) (h' : Leads M t r' u)
    (hpos : ∀ j, 0 < s.ref j → 0 < r j) : Leads M s r' u := by
  refine ⟨h'.sound,h'.ref,fun j hj hj' hv => ?_⟩
  have href : 0 < t.ref j := h.ref ▸ hpos j hj
  exact h'.valid j href hj' (h.valid j hj (hpos j hj) hv)

theorem Leads.pos {r : Nat → Nat} {n : Nat} (h : Leads M s (update r i (n+1)) t) : 0 < t.ref i := by
  rw [h.ref,update_self]
  exact Nat.succ_pos n

theorem update_succ_pos (ref : Nat → Nat) (i j : Nat) (hj : 0 < ref j) :
    0 < update ref i (ref i+1) j := by
  by_cases hji : j=i
  · rw [hji,update_self]
    exact Nat.succ_pos _
  · rwa [update_of_ne hji]

theorem readEntries_spec {e : Panic} (he : Other e) (hc : Covers s i (s.inode i).size) (n k : Nat) :
    Ends Other (readEntries s i k e n) (· = s) := by
  induction n generalizing k with
  | zero => exact .ok rfl
  | succ n ih =>
    refine (readi_spec _ _ _ hc).ends.bind ?_
    rintro ⟨t,tot⟩ rfl
    dsimp only
    split
    · exact ih (k+1)
    · exact .error he

section Kept
variable (h : Sound M s)
include h

theorem Sound.lt (hv : s.valid i=true) : i < s.ninodes := by
  by_contra hge
  exact (h.copies i hv).2 (h.beyond i (by omega))

theorem Sound.boot_rest (i : Nat) : 0∈s.rest M i :=
  Multiset.mem_add.mpr (.inl h.boot)

theorem Sound.owns (hv : s.valid i=true) : Owns s (s.rest M i) i := by
  obtain ⟨hcopy,htype⟩ := h.copies i hv
  refine h.accounts.congr ?_
  rw [← s.rest_add_held M (h.lt hv),Dinode.held,if_neg htype,hcopy]

theorem Sound.covers_copy (hv : s.valid i=true) : Covers s i (s.inode i).size := by
  obtain ⟨hcopy,htype⟩ := h.copies i hv
  intro bn hbn
  rw [hcopy] at hbn ⊢
  exact h.covers i htype bn hbn

theorem Sound.works (hv : s.valid i=true) (hw : Works i (s.rest M i) s t) : Sound M t := by
  obtain ⟨hcopy,htype⟩ := h.copies i hv
  have hi : i < s.ninodes := h.lt hv
  have hself : t.dinode i=t.inode i := by rw [hw.dinode,update_self]
  have hother : ∀ j≠i, t.dinode j=s.dinode j := fun j hj => by rw [hw.dinode,update_of_ne hj]
  have htype' : (t.dinode i).type≠.free := by
    rw [hself,hw.type,hcopy]
    exact htype
  -- the words of the other inodes' indirect blocks are what they were
  have hwords : ∀ j < s.ninodes, j≠i → (s.dinode j).type≠.free → (s.dinode j).addrs ndirect≠0 →
        t.words ((s.dinode j).addrs ndirect)=s.words ((s.dinode j).addrs ndirect) :=
    fun j hj hji hfree hne => hw.words _ (indirect_mem_rest hj hji hfree hne)
  have hheld : ∀ j∈(Finset.range s.ninodes).erase i,
      (t.dinode j).held t.words=(s.dinode j).held s.words := by
    intro j hj
    obtain ⟨hji,hj⟩ := Finset.mem_erase.mp hj
    rw [hother j hji,Dinode.held,Dinode.held]
    split
    · rfl
    · rename_i hfree
      exact Dinode.blocks_congr (hwords j (Finset.mem_range.mp hj) hji hfree)
  have hrest : t.rest M i=s.rest M i := by
    rw [Fs.rest,Fs.rest,hw.ninodes,Finset.sum_congr rfl hheld]
  refine ⟨⟨h.boot,?_,fun j hj bn hbn => ?_,fun j hj => ?_⟩,fun j hj => ?_⟩
  · rw [← t.rest_add_held M (hw.ninodes ▸ hi),hrest,Dinode.held,if_neg htype',hself]
    exact hw.owns
  · by_cases hji : j=i
    · subst hji
      rw [hself] at hbn ⊢
      exact hw.covers bn hbn
    · rw [hother j hji] at hj hbn ⊢
      have hlt : j < s.ninodes := by
        by_contra hge
        exact hj (h.beyond j (by omega))
      rw [Dinode.slot_congr (hwords j hlt hji hj)]
      exact h.covers j hj bn hbn
  · rw [hother j (by rw [hw.ninodes] at hj; omega)]
    exact h.beyond j (hw.ninodes ▸ hj)
  · by_cases hji : j=i
    · subst hji
      exact ⟨hself.symm,htype'⟩
    · rw [hw.valid] at hj
      rw [hw.other j hji,hother j hji]
      exact h.copies j hj

theorem Sound.table (ref : Nat → Nat) {valid : Nat → Bool}
    (hvalid : ∀ j, valid j=true → s.valid j=true) : Sound M { s with ref := ref, valid := valid } :=
  ⟨⟨h.boot,h.accounts,h.covers,h.beyond⟩,fun j hj => h.copies j (hvalid j hj)⟩

theorem Sound.replace (hi : i < s.ninodes) (d d' : Dinode)
    (hold : (s.dinode i).held s.words=0) (hnew : d.held s.words=0)
    (hsize : d.type=.free ∨ d.size=0) (ref : Nat → Nat) :
    Sound M { s with
      dinode := update s.dinode i d
      inode := update s.inode i d'
      valid := update s.valid i false
      ref := ref } := by
  have hheld : ∑ j∈Finset.range s.ninodes, (update s.dinode i d j).held s.words=s.held := by
    refine Finset.sum_congr rfl fun j _ => ?_
    by_cases hj : j=i
    · rw [hj,update_self,hold,hnew]
    · rw [update_of_ne hj]
  refine ⟨⟨h.boot,h.accounts.congr (congrArg (M + ·) hheld.symm),fun j hj bn hbn => ?_,fun j hj => ?_⟩,
    fun j hj => ?_⟩
  · dsimp only at hj hbn ⊢
    by_cases hji : j=i
    · rw [hji,update_self] at hj hbn
      rw [hsize.resolve_left hj] at hbn
      exact absurd hbn (Nat.not_lt_zero _)
    · rw [update_of_ne hji] at hj hbn ⊢
      exact h.covers j hj bn hbn
  · dsimp only at hj ⊢
    rw [update_of_ne (by omega)]
    exact h.beyond j hj
  · dsimp only at hj ⊢
    have hji : j≠i := by
      rintro rfl
      rw [update_self] at hj
      cases hj
    rw [update_of_ne hji] at hj
    rw [update_of_ne hji,update_of_ne hji]
    exact h.copies j hj

theorem Sound.leads_works (hv : s.valid i=true) (hw : Works i (s.rest M i) s t) :
    Leads M s s.ref t :=
  ⟨h.works hv hw,hw.ref,fun j _ _ hj => by rw [hw.valid]; exact hj⟩

theorem setNlink_leads (hv : s.valid i=true) (n : Int) : Leads M s s.ref (setNlink s i n) :=
  h.leads_works hv (setNlink_spec (h.owns hv) (h.covers_copy hv) n)

theorem iget_spec (i : Nat) : Ends Other (iget s i) (Leads M s (update s.ref i (s.ref i+1))) := by
  unfold iget
  split
  · exact .ok ⟨h.table _ fun _ hj => hj,rfl,fun j _ _ hj => hj⟩
  split
  · exact .error (by simp [Other])
  · rename_i href _
    have hzero : s.ref i=0 := by omega
    refine .ok ⟨h.table _ fun j hj => ?_,by rw [hzero],fun j hpos _ hj => ?_⟩
    · by_cases hji : j=i
      · rw [hji,update_self] at hj
        cases hj
      · rwa [update_of_ne hji] at hj
    · have hji : j≠i := by
        rintro rfl
        omega
      exact (update_of_ne hji false s.valid).trans hj

theorem ilock_spec (i : Nat) :
    Ends Other (ilock s i) fun t => Leads M s s.ref t ∧ t.valid i=true := by
  unfold ilock
  split
  · rename_i hv
    exact .ok ⟨⟨h,rfl,fun _ _ _ hj => hj⟩,hv⟩
  split
  · exact .error (by simp [Other])
  · rename_i htype
    have hsound : Sound M { s.setInode i (s.dinode i) with valid := update s.valid i true } := by
      refine ⟨⟨h.boot,h.accounts,h.covers,h.beyond⟩,fun j hj => ?_⟩
      dsimp only [Fs.setInode] at hj ⊢
      by_cases hji : j=i
      · rw [hji,update_self]
        exact ⟨rfl,htype⟩
      · rw [update_of_ne hji] at hj ⊢
        exact h.copies j hj
    refine .ok ⟨⟨hsound,rfl,fun j _ _ hj => ?_⟩,update_self i true s.valid⟩
    dsimp only
    by_cases hji : j=i
    · rw [hji,update_self]
    · rwa [update_of_ne hji]

theorem lockDir_spec (i : Nat) :
    Ends Other (lockDir s i) fun t => Leads M s (update s.ref i (s.ref i+1)) t ∧ t.valid i=true := by
  refine (iget_spec h i).bind fun t ht => (ilock_spec ht.sound i).weaken fun u hu => ?_
  rw [ht.ref] at hu
  exact ⟨ht.trans hu.1 fun j hj => update_succ_pos s.ref i j hj,hu.2⟩

theorem iput_spec (i : Nat) : Ends Other (iput s i) (Leads M s (update s.ref i (s.ref i-1))) := by
  unfold iput
  split
  · rename_i hlast
    obtain ⟨href,hv,-⟩ := hlast
    refine (itrunc_spec (h.owns hv)).ends.bind ?_
    rintro t ⟨hw,hblocks⟩
    have hsound := h.works hv hw
    have hself : t.dinode i=t.inode i := by rw [hw.dinode,update_self]
    have hheld : (t.dinode i).held t.words=0 := by
      rw [Dinode.held,hself,hblocks,ite_self]
    have hfreed := hsound.replace (hw.ninodes ▸ h.lt hv) { t.inode i with type := .free }
      { t.inode i with type := .free } hheld (if_pos rfl) (.inl rfl) (update t.ref i (t.ref i-1))
    have hstate : iupdate (t.setInode i { t.inode i with type := .free }) i = { t with
        dinode := update t.dinode i { t.inode i with type := .free }
        inode := update t.inode i { t.inode i with type := .free } } := by
      simp only [iupdate,Fs.setInode,update_self]
    rw [hstate]
    refine .ok ⟨hfreed,by rw [hw.ref],fun j _ hj hvj => ?_⟩
    have hji : j≠i := by
      rintro rfl
      rw [update_self,href] at hj
      exact absurd hj (Nat.lt_irrefl 0)
    dsimp only
    rw [update_of_ne hji,hw.valid]
    exact hvj
  · exact .ok ⟨h.table _ fun _ hj => hj,rfl,fun j _ _ hj => hj⟩

omit h in
theorem iget_iput (h : Leads M s (update s.ref i (s.ref i+1)) t) :
    Ends Other (iput t i) (Leads M s s.ref) := by
  refine (iput_spec h.sound i).weaken fun u hu => ?_
  have href : update t.ref i (t.ref i-1)=s.ref := by
    rw [h.ref,update_self,Nat.add_sub_cancel,update_idem,update_eq_self]
  rw [href] at hu
  exact h.trans hu fun j hj => update_succ_pos s.ref i j hj

theorem ialloc_spec (type : FileType) : Ends Other (ialloc s type) fun r => (r.2=0 ∧ r.1=s) ∨
      s.valid r.2=false ∧ Leads M s (update s.ref r.2 (s.ref r.2+1)) r.1 := by
  unfold ialloc
  cases hfind : ((List.range s.ninodes).drop 1).find? fun i => (s.dinode i).type=.free with
  | none => exact .ok (.inl ⟨rfl,rfl⟩)
  | some i =>
    have hlt : i < s.ninodes :=
      List.mem_range.mp (List.mem_of_mem_drop (List.mem_of_find?_eq_some hfind))
    have hfree : (s.dinode i).type=.free := by simpa using List.find?_some hfind
    have hvalid : s.valid i=false := by
      by_contra hv
      exact (h.copies i (by simpa using hv)).2 hfree
    have hempty : Dinode.held s.words ⟨type,0,0,fun _ => 0⟩=0 := by
      have hnone : ∀ n, held (Finset.range n) (fun _ => 0)=0 := fun n => held_empty fun _ _ => rfl
      simp [Dinode.held,Dinode.blocks,Dinode.direct,Dinode.indirect,name_zero,hnone]
    have hnew := h.replace hlt ⟨type,0,0,fun _ => 0⟩ (s.inode i) (if_pos hfree) hempty (.inr rfl) s.ref
    rw [← hvalid,update_eq_self,update_eq_self] at hnew
    refine (iget_spec hnew i).bind fun t ht => .ok (.inr ⟨hvalid,?_⟩)
    exact ⟨ht.sound,ht.ref,ht.valid⟩

theorem dirlookup_spec (hv : s.valid dp=true) (hit : Hit) :
    Ends Other (dirlookup s dp hit) fun r => (r.2=none ∧ r.1=s) ∨
      ∃ k i, r.2=some (k,i) ∧ Leads M s (update s.ref i (s.ref i+1)) r.1 := by
  have hread : ∀ n, Ends Other (readEntries s dp 0 .dirlookupRead n) (· = s) :=
    fun n => readEntries_spec (by simp [Other]) (h.covers_copy hv) n 0
  unfold dirlookup
  split
  · exact .error (by simp [Other])
  cases hit with
  | none => exact (hread _).bind fun t ht => .ok (.inl ⟨rfl,ht⟩)
  | some hit =>
    obtain ⟨k,i⟩ := hit
    dsimp only
    split
    · refine (hread _).bind ?_
      rintro _ rfl
      exact (iget_spec h i).bind fun t ht => .ok (.inr ⟨k,i,rfl,ht⟩)
    · exact (hread _).bind fun t ht => .ok (.inl ⟨rfl,ht⟩)

theorem writei_leads (hv : s.valid i=true) (off n : Nat) (src : Source) :
    Yields (writei s i off n src) fun r => Leads M s s.ref r.1 :=
  (writei_spec off n src (h.boot_rest i) (h.owns hv) (h.covers_copy hv) (h.copies i hv).1.symm).weaken
    fun _ hw => h.leads_works hv hw

theorem dirlink_spec (hv : s.valid dp=true) (hit : Hit) (free : Nat)
    (de : Nat → Nat) : Ends Other (dirlink s dp hit free de) fun r => Leads M s s.ref r.1 := by
  refine (dirlookup_spec h hv hit).bind ?_
  rintro ⟨t,found⟩ (⟨rfl,rfl⟩ | ⟨k,i,rfl,hlead⟩)
  · refine (readEntries_spec (by simp [Other]) (h.covers_copy hv) _ 0).bind ?_
    rintro _ rfl
    exact (writei_leads h hv _ _ _).ends.bind fun r hr => .ok hr
  · exact (iget_iput hlead).bind fun u hu => .ok hu

theorem createDots_spec (hv : s.valid i=true) (hpos : 0 < s.ref i)
    (type : FileType) (dot dotdot : Find) :
    Ends Other (createDots s i type dot dotdot) fun r => Leads M s s.ref r.1 := by
  unfold createDots
  split
  · refine (dirlink_spec h hv _ _ _).bind ?_
    rintro ⟨t,made⟩ ht
    dsimp only at ht ⊢
    split
    · have hvt : t.valid i=true := ht.valid i hpos hpos hv
      refine (dirlink_spec ht.sound hvt _ _ _).weaken fun r hr => ?_
      rw [ht.ref] at hr
      exact ht.trans hr fun _ hj => hj
    · exact .ok ht
  · exact .ok ⟨h,rfl,fun _ _ _ hj => hj⟩

theorem dirlinkIf_spec (hv : s.valid dp=true) (go : Bool) (entry : Find) :
    Ends Other (dirlinkIf go s dp entry) fun r => Leads M s s.ref r.1 := by
  unfold dirlinkIf
  split
  · exact dirlink_spec h hv _ _ _
  · exact .ok ⟨h,rfl,fun _ _ _ hj => hj⟩

theorem iput_sound (i : Nat) : Ends Other (iput s i) (Sound M) :=
  (iput_spec h i).weaken fun _ ht => ht.sound

theorem createLink_spec (hi : s.valid i=true) (hipos : 0 < s.ref i)
    (hv : s.valid dp=true) (hpos : 0 < s.ref dp) (type : FileType) (dot dotdot entry : Find) :
    Ends Other (createLink s dp i type dot dotdot entry) fun r => Sound M r.1 := by
  refine (createDots_spec h hi hipos type dot dotdot).bind ?_
  rintro ⟨t,dots⟩ ht
  dsimp only at ht ⊢
  refine (dirlinkIf_spec ht.sound (ht.valid dp hpos hpos hv) dots entry).bind ?_
  rintro ⟨u,linked⟩ hu
  rw [ht.ref] at hu
  have hall := ht.trans hu fun _ hj => hj
  split
  · refine Ends.bind (iput_sound ?_ dp) fun v hv => .ok hv
    split
    · exact (setNlink_leads hall.sound (hall.valid dp hpos hpos hv) _).sound
    · exact hall.sound
  · have hset := setNlink_leads hall.sound (hall.valid i hipos hipos hi) 0
    refine (iput_sound hset.sound i).bind fun v hv => ?_
    exact (iput_sound hv dp).bind fun w hw => .ok hw

theorem create_spec (dp : Nat) (type : FileType) (hit : Hit) (dot dotdot entry : Find) :
    Ends Other (create s dp type hit dot dotdot entry) fun r => Sound M r.1 := by
  refine (lockDir_spec h dp).bind ?_
  rintro t ⟨ht,hv⟩
  have hpos : 0 < t.ref dp := ht.pos
  refine (dirlookup_spec ht.sound hv hit).bind ?_
  rintro ⟨u,found⟩ (⟨rfl,rfl⟩ | ⟨k,i,rfl,hlead⟩)
  · dsimp only
    refine (ialloc_spec ht.sound type).bind ?_
    rintro ⟨w,i⟩ (⟨rfl,rfl⟩ | ⟨hfresh,hw⟩)
    · exact (iput_sound ht.sound dp).bind fun v hv => .ok hv
    · split
      · exact (iput_sound hw.sound dp).bind fun v hv => .ok hv
      refine (ilock_spec hw.sound i).bind ?_
      rintro x ⟨hx,hi⟩
      rw [hw.ref] at hx
      have hall := hw.trans hx fun j hj => update_succ_pos _ i j hj
      have hset := setNlink_leads hall.sound hi 1
      have hipos : 0 < x.ref i := hall.pos
      have hdpos : 0 < x.ref dp := by
        rw [hall.ref]
        exact update_succ_pos _ i dp hpos
      have hdv : x.valid dp=true := hall.valid dp hpos (hall.ref ▸ hdpos) hv
      refine createLink_spec hset.sound (hset.valid i hipos hipos hi) ?_
        (hset.valid dp hdpos hdpos hdv) ?_ type dot dotdot entry
      · exact hset.ref.symm ▸ hipos
      · exact hset.ref.symm ▸ hdpos
  · refine (iput_sound hlead.sound dp).bind fun v hv => ?_
    refine (ilock_spec hv i).bind fun w hw => ?_
    split
    · exact .ok hw.1.sound
    · exact (iput_sound hw.1.sound i).bind fun x hx => .ok hx

theorem linkEntry_spec (dp : Option Nat) (entry : Find) :
    Ends Other (linkEntry s dp entry) fun r => Leads M s s.ref r.1 := by
  cases dp with
  | none => exact .ok ⟨h,rfl,fun _ _ _ hj => hj⟩
  | some dp =>
    refine (lockDir_spec h dp).bind ?_
    rintro t ⟨ht,hv⟩
    refine (dirlink_spec ht.sound hv _ _ _).bind ?_
    rintro ⟨u,linked⟩ hu
    rw [ht.ref] at hu
    have hall := ht.trans hu fun j hj => update_succ_pos s.ref dp j hj
    exact (iget_iput hall).bind fun v hv => .ok hv

theorem link_spec (i : Nat) (dp : Option Nat) (entry : Find) :
    Ends Other (link s i dp entry) (Sound M) := by
  refine (lockDir_spec h i).bind ?_
  rintro t ⟨ht,hv⟩
  have hpos : 0 < t.ref i := ht.pos
  split
  · exact iput_sound ht.sound i
  have hset := setNlink_leads ht.sound hv ((t.inode i).nlink+1)
  refine (linkEntry_spec hset.sound dp entry).bind ?_
  rintro ⟨u,linked⟩ hu
  have hall := hset.trans hu fun _ hj => hj
  refine iput_sound ?_ i
  split
  · exact hall.sound
  · exact (setNlink_leads hall.sound (hall.valid i hpos hpos hv) _).sound

theorem busyDir_spec (hv : s.valid i=true) (busy : Option Nat) :
    Ends Other (busyDir s i busy) fun r => r.1=s := by
  unfold busyDir
  split
  · exact (readEntries_spec (by simp [Other]) (h.covers_copy hv) _ 2).bind fun t ht => .ok ht
  · exact .ok rfl

theorem unlink_spec (dp : Nat) (hit : Hit) (busy : Option Nat) (de : Nat → Nat) :
    Ends Other (unlink s dp hit busy de) (Sound M) := by
  refine (lockDir_spec h dp).bind ?_
  rintro t ⟨ht,hv⟩
  have hpos : 0 < t.ref dp := ht.pos
  refine (dirlookup_spec ht.sound hv hit).bind ?_
  rintro ⟨u,found⟩ (⟨rfl,rfl⟩ | ⟨k,i,rfl,hu⟩)
  · exact iput_sound ht.sound dp
  dsimp only at hu ⊢
  refine (ilock_spec hu.sound i).bind ?_
  rintro w ⟨hw,hi⟩
  rw [hu.ref] at hw
  have hall := hu.trans hw fun j hj => update_succ_pos t.ref i j hj
  have hdpos : 0 < w.ref dp := by
    rw [hall.ref]
    exact update_succ_pos _ i dp hpos
  have hdv : w.valid dp=true := hall.valid dp hpos (hall.ref ▸ hdpos) hv
  -- the reference of the lookup outlives the put of the directory, even if it is the same
  have hleft : 0 < update w.ref dp (w.ref dp-1) i := by
    by_cases hid : i=dp
    · subst hid
      rw [update_self,hall.ref,update_self]
      omega
    · rw [update_of_ne hid,hall.ref,update_self]
      exact Nat.succ_pos _
  split
  · exact .error (by simp [Other])
  refine (busyDir_spec hall.sound hi busy).bind ?_
  rintro ⟨w,nonempty⟩ rfl
  split
  · exact (iput_sound hall.sound i).bind fun x hx => iput_sound hx dp
  refine (writei_leads hall.sound hdv _ _ _).ends.bind ?_
  rintro ⟨x,tot⟩ hx
  split
  · have hstep : Leads M w w.ref
        (if (x.inode i).type=.dir then setNlink x dp ((x.inode dp).nlink-1) else x) := by
      split
      · have hset := setNlink_leads hx.sound (hx.valid dp hdpos hdpos hdv) ((x.inode dp).nlink-1)
        rw [hx.ref] at hset
        exact hx.trans hset fun _ hj => hj
      · exact hx
    refine (iput_spec hstep.sound dp).bind fun y hy => ?_
    rw [hstep.ref] at hy
    have hend := hstep.trans hy fun _ hj => hj
    have hipos : 0 < w.ref i := hall.pos
    exact iput_sound (setNlink_leads hend.sound (hend.valid i hipos hleft hi) _).sound i
  · exact .error (by simp [Other])

theorem locked_spec {α : Type} (i : Nat) {f : Fs → Except Panic (Fs × α)}
    (hf : ∀ t, Sound M t → t.valid i=true → Ends Other (f t) fun r => Sound M r.1) :
    Ends Other (locked s i f) (Sound M) := by
  refine (ilock_spec h i).bind ?_
  rintro t ⟨ht,hv⟩
  exact (hf t ht.sound hv).bind fun r hr => .ok hr

theorem operate_spec (op : Op) : Ends Other (operate s op) (Sound M) := by
  cases op with
  | namei i => exact (lockDir_spec h i).weaken fun t ht => ht.1.sound
  | ialloc type =>
    refine (ialloc_spec h type).bind ?_
    rintro ⟨t,i⟩ (⟨-,rfl⟩ | ⟨-,ht⟩)
    · exact .ok h
    · exact .ok ht.sound
  | readi i off n copies =>
    refine locked_spec h i fun t ht hv => ?_
    exact (readi_spec off n copies (ht.covers_copy hv)).ends.weaken fun r hr => hr ▸ ht
  | writei i off n src =>
    exact locked_spec h i fun t ht hv => (writei_leads ht hv off n src).ends.weaken fun r hr => hr.sound
  | itrunc i =>
    refine (ilock_spec h i).bind ?_
    rintro t ⟨ht,hv⟩
    exact (itrunc_spec (ht.sound.owns hv)).ends.weaken fun u hu => ht.sound.works hv hu.1
  | dirlink dp entry =>
    exact locked_spec h dp fun t ht hv => (dirlink_spec ht hv _ _ _).weaken fun r hr => hr.sound
  | create dp type hit dot dotdot entry =>
    exact (create_spec h dp type hit dot dotdot entry).bind fun r hr => .ok hr
  | link i dp entry => exact link_spec h i dp entry
  | unlink dp hit busy de => exact unlink_spec h dp hit busy de
  | iput i => exact iput_sound h i

end Kept

def Sys.Sound (M : Multiset Nat) (s : Sys) : Prop :=
  Inode.Sound M s.fs ∧ s.panicked≠some .freeingFreeBlock

theorem step_sound {s t : Sys} {op : Op} (h : s.Sound M) (hstep : step s op=some t) : t.Sound M := by
  unfold step at hstep
  split at hstep
  · obtain ⟨fs,hfs,hsound⟩ | ⟨e,he,hother⟩ := operate_spec h.1 op
    · rw [hfs] at hstep
      cases hstep
      exact ⟨hsound,h.2⟩
    · rw [he] at hstep
      cases hstep
      exact ⟨h.1,fun heq => hother (Option.some.inj heq)⟩
  · cases hstep

/-- From a consistent image on, the set bits of the bitmap are the metadata blocks and
the blocks that inodes hold, no block twice; the copies in the inode table are those on
disk; `balloc` returns no block in use, and no free block is freed. -/
theorem blocks_owned_once {s t : Sys} {ops : List Op} (h : Consistent M s.fs)
    (hcopies : ∀ i, s.fs.valid i=true → s.fs.inode i=s.fs.dinode i ∧ (s.fs.dinode i).type≠.free)
    (hstart : s.panicked=none) (hrun : run step ops s=some t) :
    (M+t.fs.held).Nodup ∧ (∀ b, b∈M+t.fs.held ↔ b < t.fs.size ∧ t.fs.used b=true) ∧
      (∀ i, t.fs.valid i=true → t.fs.inode i=t.fs.dinode i) ∧
        ((balloc t.fs).2≠0 → (balloc t.fs).2∉M+t.fs.held) ∧
          t.panicked≠some .freeingFreeBlock := by
  have h0 : s.Sound M := ⟨⟨h,hcopies⟩,by rw [hstart]; simp⟩
  obtain ⟨hsound,hpanic⟩ : t.Sound M :=
    run_invariant (fun u op v hu hstep => step_sound hu hstep) h0 hrun
  refine ⟨hsound.accounts.nodup,fun b => hsound.accounts.mem_iff,fun i hv => (hsound.copies i hv).1,
    fun hne => ?_,hpanic⟩
  obtain hnone | ⟨b,-,hnot,hballoc,-⟩ :=
    balloc_cases hsound.accounts (Multiset.mem_add.mpr (.inl hsound.boot))
  · rw [hnone] at hne
    exact absurd rfl hne
  · rw [hballoc]
    exact hnot

def small : Sys where
  panicked := none
  fs :=
    { size := 8
      ninodes := 3
      used := fun b => b < 4
      words := fun _ _ => 0
      dinode := fun i => if i=1 then ⟨.dir,1,32,update (fun _ => 0) 0 3⟩ else ⟨.free,0,0,fun _ => 0⟩
      ref := fun _ => 0
      valid := fun _ => false
      inode := fun _ => ⟨.free,0,0,fun _ => 0⟩
      calls := 0
      fails := fun n => n=1 }

theorem small_consistent : Consistent {0,1,2} small.fs := by
  have htype : ∀ i, (small.fs.dinode i).type≠.free → i=1 := by
    intro i hi
    by_contra hne
    simp [small,hne] at hi
  refine ⟨by decide,by unfold Accounts; decide +kernel,fun i hi bn hbn => ?_,fun i hi => ?_⟩
  · obtain rfl := htype i hi
    have hsize : (small.fs.dinode 1).size=32 := rfl
    obtain rfl : bn=0 := by
      rw [hsize,bsize] at hbn
      omega
    decide
  · by_contra hne
    obtain rfl := htype i hne
    exact absurd hi (by decide)

def smallOps : List Op :=
  let entry : Find := ⟨none,2,fun _ => 0⟩
  [.create 1 .file none entry entry entry,
    .writei 2 0 2048 fun _ => (true, fun _ => 7),
    .unlink 1 (some (2,2)) none fun _ => 0,
    .iput 2]

def smallEnd : Sys := (run step smallOps small).get (by decide +kernel)

theorem small_owned_once : ({0,1,2} + smallEnd.fs.held).Nodup ∧
      (∀ b, b ∈ {0,1,2} + smallEnd.fs.held ↔ b < smallEnd.fs.size ∧ smallEnd.fs.used b=true) ∧
        (∀ i, smallEnd.fs.valid i=true → smallEnd.fs.inode i=smallEnd.fs.dinode i) ∧
          ((balloc smallEnd.fs).2≠0 → (balloc smallEnd.fs).2 ∉ {0,1,2} + smallEnd.fs.held) ∧
            smallEnd.panicked≠some .freeingFreeBlock :=
  blocks_owned_once small_consistent (fun _ hv => by cases hv) rfl (Option.some_get _).symm

end Xv6.Inode
