import Xv6.FileContents
import Mathlib.Algebra.BigOperators.Intervals
import Mathlib.Algebra.Order.BigOperators.Group.Finset

/-! The loops of `readi` and `writei`: which bytes of a file they read and change. -/
namespace Xv6.FileBytes
open Function Xv6.DiskFormat Xv6.Total
variable {fs fs' fs'' : Fs} {ip ip' ip'' : Dinode} {src : Source} {blk : Block}
  {inum i a b c k bn m n off tot addr len : Nat}

def Source.has : Source → Nat → Bool
  | .user mapped _, a => mapped (a/pgsize)
  | .kernel _, _ => true

def Source.reach (src : Source) (addr len : Nat) : Nat :=
  (List.range len).findIdx fun j => !src.has (addr+j)

theorem reach_le (src : Source) (addr len : Nat) : src.reach addr len ≤ len := by
  have hle : src.reach addr len ≤ (List.range len).length := List.findIdx_le_length
  rwa [List.length_range] at hle

theorem has_of_lt_reach {j : Nat} (h : j < src.reach addr len) : src.has (addr+j)=true := by
  have hnot := List.not_of_lt_findIdx h
  simpa using hnot

theorem not_has_reach (h : src.reach addr len < len) : src.has (addr+src.reach addr len)=false := by
  have hlt : (List.range len).findIdx (fun j => !src.has (addr+j)) < (List.range len).length := by
    rwa [List.length_range]
  have hstop := List.findIdx_getElem (w := hlt)
  simpa [Source.reach] using hstop

theorem reach_eq (hc : c ≤ len) (hall : ∀ j < c, src.has (addr+j)=true)
    (hstop : c < len → src.has (addr+c)=false) : src.reach addr len=c := by
  rcases Nat.lt_trichotomy (src.reach addr len) c with hlt | he | hgt
  · have hno := not_has_reach (hlt.trans_le hc)
    rw [hall _ hlt] at hno
    cases hno
  · exact he
  · have hno := hstop (hgt.trans_le (reach_le src addr len))
    rw [has_of_lt_reach hgt] at hno
    cases hno

theorem reach_add (hn : n ≤ len) (hall : ∀ j < n, src.has (addr+j)=true) :
    src.reach addr len=n+src.reach (addr+n) (len-n) := by
  have hle := reach_le src (addr+n) (len-n)
  refine reach_eq (by omega) (fun j hj => ?_) fun hlt => ?_
  · by_cases hjn : j < n
    · exact hall j hjn
    · have hrest : src.has (addr+n+(j-n))=true := has_of_lt_reach (by omega : _ < src.reach _ (len-n))
      rwa [show addr+n+(j-n)=addr+j by omega] at hrest
  · rw [← Nat.add_assoc]
    exact not_has_reach (by omega)

theorem memmove_zero (dst : Block) (off : Nat) (f : Nat → UInt8) : memmove dst off 0 f=dst := by
  funext k
  exact if_neg (by omega)

theorem memmove_memmove (dst : Block) (off : Nat) (f : Nat → UInt8) :
    memmove (memmove dst off m f) (off+m) n (fun j => f (m+j))=memmove dst off (m+n) f := by
  funext k
  simp only [memmove]
  by_cases hlo : off+m ≤ k ∧ k < off+m+n
  · rw [if_pos hlo,if_pos (by omega),show m+(k-(off+m))=k-off by omega]
  · rw [if_neg hlo]
    exact if_congr (by omega) rfl rfl

theorem copyinFrom_eq {mapped : Nat → Bool} {byte : Nat → UInt8} (hk : len ≤ k) :
    copyinFrom mapped byte blk off a len k =
      (memmove blk off ((Source.user mapped byte).reach a len) fun j => byte (a+j),
        decide ((Source.user mapped byte).reach a len=len)) := by
  induction k generalizing blk off a len with
  | zero =>
    obtain rfl : len=0 := Nat.le_zero.mp hk
    have hzero : (Source.user mapped byte).reach a 0=0 := rfl
    simp [copyinFrom,hzero,memmove_zero]
  | succ k ih =>
    rw [copyinFrom]
    by_cases h0 : len=0
    · subst h0
      have hzero : (Source.user mapped byte).reach a 0=0 := rfl
      simp [hzero,memmove_zero]
    rw [if_neg h0]
    by_cases hm : mapped (a/pgsize)
    · rw [if_pos hm]
      generalize hn : min (pgsize-(a-(a-a%pgsize))) len=n
      have hpos : 0 < n ∧ n ≤ len ∧ a%pgsize+n ≤ pgsize := by
        simp only [pgsize] at hn ⊢
        omega
      -- the bytes of this round are on one page
      have hall : ∀ j < n, (Source.user mapped byte).has (a+j)=true := by
        intro j hj
        have hpage : (a+j)/pgsize=a/pgsize := by
          simp only [pgsize] at hpos ⊢
          omega
        simpa [Source.has,hpage] using hm
      have hreach := reach_add hpos.2.1 hall
      have hnext : (Source.user mapped byte).reach (a-a%pgsize+pgsize) (len-n) =
          (Source.user mapped byte).reach (a+n) (len-n) ∧
          (memmove (memmove blk off n fun j => byte (a+j)) (off+n)
            ((Source.user mapped byte).reach (a+n) (len-n))
            fun j => byte (a-a%pgsize+pgsize+j)) =
          memmove (memmove blk off n fun j => byte (a+j)) (off+n)
            ((Source.user mapped byte).reach (a+n) (len-n)) fun j => byte (a+(n+j)) := by
        by_cases hrest : len-n=0
        · have hzero (v : Nat) : (Source.user mapped byte).reach v 0=0 := rfl
          simp only [hrest,hzero,memmove_zero,and_self]
        · have hva : a-a%pgsize+pgsize=a+n := by
            omega
          simp only [hva,Nat.add_assoc,and_self]
      simp only [hn]
      rw [ih (by omega),hnext.1,hnext.2,memmove_memmove blk off fun j => byte (a+j),hreach]
      congr 1
      exact decide_eq_decide.mpr (by omega)
    · rw [if_neg hm]
      have hstop : (Source.user mapped byte).reach a len=0 :=
        reach_eq (Nat.zero_le _) (fun j hj => absurd hj (Nat.not_lt_zero j))
          fun _ => by simpa [Source.has] using hm
      simp [hstop,memmove_zero,Ne.symm h0]

theorem eitherCopyin_eq (src : Source) (blk : Block) (off addr len : Nat) :
    eitherCopyin src blk off addr len =
      (memmove blk off (src.reach addr len) fun j => src.byte (addr+j),
        decide (src.reach addr len=len)) := by
  cases src with
  | user mapped byte => exact copyinFrom_eq (Nat.le_refl len)
  | kernel byte =>
    have hall : (Source.kernel byte).reach addr len=len :=
      reach_eq (Nat.le_refl len) (fun _ _ => rfl) fun h => absurd h (Nat.lt_irrefl len)
    simp [eitherCopyin,hall,Source.byte]

theorem store (hc : Consistent fs inum ip) (hl : Live fs inum ip)
    (hb : fs.addr inum ip inum (some bn)=b) (h0 : b≠0) (blk : Block) :
    Frame inum fs ip (fs.setBlock b blk) ip ∧ (fs.setBlock b blk).addr inum ip=fs.addr inum ip ∧
      (∀ c < fs.sb.size, (fs.setBlock b blk).used c=fs.used c) ∧
      ∀ i k, (fs.setBlock b blk).byte inum ip i k =
        if i=inum ∧ k/bsize=bn then blk (k%bsize) else fs.byte inum ip i k := by
  have hlo : nmeta fs.sb ≤ b := hb ▸ (hc.area inum (some bn) (hb ▸ h0)).1
  have hdinode : ∀ i < fs.sb.ninodes, (fs.setBlock b blk).dinode i=fs.dinode i :=
    fun i hi => dinode_setBlock fs hc.layout hlo hi
  have hused : ∀ c < fs.sb.size, (fs.setBlock b blk).used c=fs.used c :=
    fun c hcs => used_setBlock fs hlo hcs
  have hother {i : Nat} {x : Option Nat} (hx : fs.addr inum ip i x≠0) (hne : ¬(i=inum ∧ x=some bn)) :
      (fs.setBlock b blk).block (fs.addr inum ip i x)=fs.block (fs.addr inum ip i x) :=
    update_of_ne (fun he => hne (hc.once i x inum (some bn) hx (he.trans hb.symm))) _ _
  have haddr : (fs.setBlock b blk).addr inum ip=fs.addr inum ip :=
    addr_congr rfl (inodes_congr hdinode) fun i hx => hother hx (by simp)
  refine ⟨?_,haddr,hused,fun i k => ?_⟩
  · exact {
      sb := rfl
      busy := rfl
      dinode := hdinode
      inode := rfl
      fits := hl.fits
      consistent := hc.of_addr rfl (fun c hcs hu => (hused c hcs).trans hu) haddr
      keeps := fun i x _ => by rw [haddr]
      others := fun i x _ => by rw [haddr]
      added := fun x h0 hx => absurd h0 (by rwa [haddr] at hx)
      marked := fun c hcs _ hu => .inl ((hused c hcs).symm.trans hu)
      logged := List.Subset.refl _ }
  · simp only [Fs.byte,haddr]
    by_cases hk : i=inum ∧ k/bsize=bn
    · obtain ⟨rfl,rfl⟩ := hk
      simp [hb,h0,Fs.setBlock]
    · rw [if_neg hk]
      by_cases hz : fs.addr inum ip i (some (k/bsize))=0
      · rw [if_pos hz,if_pos hz]
      · rw [if_neg hz,if_neg hz,hother hz (by simpa using hk)]

theorem byte_memmove (hb : fs.addr inum ip inum (some (off/bsize))=b) (h0 : b≠0)
    (hm : off%bsize+m ≤ bsize) (f : Nat → UInt8) (i k : Nat) :
    (if i=inum ∧ k/bsize=off/bsize then memmove (fs.block b) (off%bsize) m f (k%bsize)
      else fs.byte inum ip i k) =
    if i=inum ∧ off ≤ k ∧ k < off+m then f (k-off) else fs.byte inum ip i k := by
  by_cases hk : i=inum ∧ k/bsize=off/bsize
  · rw [if_pos hk]
    obtain ⟨rfl,hk⟩ := hk
    have hbyte : fs.byte i ip i k=fs.block b (k%bsize) := by
      simp only [Fs.byte,hk,hb,if_neg h0]
    have hin : off%bsize ≤ k%bsize ∧ k%bsize < off%bsize+m ↔ off ≤ k ∧ k < off+m := by
      simp only [bsize] at hk hm ⊢
      omega
    have hsub : k%bsize-off%bsize=k-off := by
      simp only [bsize] at hk ⊢
      omega
    simp only [memmove,hin,hsub,hbyte,true_and]
  · rw [if_neg hk,if_neg]
    simp only [bsize] at hk hm
    omega

theorem piece_spec (off : Nat) (h : tot < n) : 0 < piece n tot off ∧ piece n tot off ≤ n-tot ∧
    off%bsize+piece n tot off ≤ bsize ∧
    (tot+piece n tot off < n → off%bsize+piece n tot off=bsize) := by
  simp only [piece,bsize]
  omega

/-- The number of blocks to allocate before the bytes in the blocks from `lo` up to `hi` can
be written. -/
def needs (fs : Fs) (inum : Nat) (ip : Dinode) (lo hi : Nat) : Nat :=
  ∑ bn∈Finset.Ico lo hi, lacks fs inum ip (some bn) + if ndirect < hi then lacks fs inum ip none else 0

/-- What the loop of `writei` has done when it ends: `tot` bytes are written, and `c` more
from a copy that failed, which are not logged. -/
structure Written (inum n : Nat) (src : Source) (fs : Fs) (ip : Dinode) (addr off tot : Nat)
    (r : Fs × Dinode × Nat × Nat) (c : Nat) : Prop where
  frame : Frame inum fs ip r.1 r.2.1
  offset : r.2.2.1+tot=off+r.2.2.2
  start : tot ≤ r.2.2.2
  stop : r.2.2.2 ≤ n
  aligned : r.2.2.2 < n → r.2.2.1=off ∨ r.2.2.1%bsize=0
  mapped : ∀ k, off ≤ k → k < r.2.2.1 → r.1.addr inum r.2.1 inum (some (k/bsize))≠0
  why : r.2.2.2 < n → r.1.addr inum r.2.1 inum (some (r.2.2.1/bsize))≠0 →
    src.reach (addr+(r.2.2.2-tot)) (piece n r.2.2.2 r.2.2.1)≠piece n r.2.2.2 r.2.2.1
  byte : ∀ i k, r.1.byte inum r.2.1 i k =
    if i=inum ∧ off ≤ k ∧ k < r.2.2.1+c then src.byte (addr+(k-off)) else fs.byte inum ip i k
  torn : c = if r.2.2.2 < n ∧ r.1.addr inum r.2.1 inum (some (r.2.2.1/bsize))≠0 then
    src.reach (addr+(r.2.2.2-tot)) (piece n r.2.2.2 r.2.2.1) else 0
  changed : ∀ b, r.1.block b≠fs.block b → b∈r.1.logged ∨
    0 < c ∧ b=r.1.addr inum r.2.1 inum (some (r.2.2.1/bsize))
  fresh : r.2.2.2 < n → ∀ bn, r.2.2.1/bsize ≤ bn → fs.addr inum ip inum (some bn)≠0 →
    fs.addr inum ip inum (some bn)∈r.1.logged → fs.addr inum ip inum (some bn)∈fs.logged
  copied : ∀ j < r.2.2.2-tot, src.has (addr+j)=true
  room : r.2.2.2 < n → (r.1.addr inum r.2.1 inum (some (r.2.2.1/bsize))≠0 ↔
    fs.grants (needs fs inum ip (off/bsize) (r.2.2.1/bsize+1))=true)

theorem needs_one (lo : Nat) : needs fs inum ip lo (lo+1)=missing fs inum ip lo := by
  simp [needs,missing]

theorem needs_mono {lo hi hi' : Nat} (h : hi ≤ hi') : needs fs inum ip lo hi ≤ needs fs inum ip lo hi' := by
  have hsum : ∑ bn∈Finset.Ico lo hi, lacks fs inum ip (some bn) ≤
      ∑ bn∈Finset.Ico lo hi', lacks fs inum ip (some bn) :=
    Finset.sum_le_sum_of_subset (Finset.Ico_subset_Ico_right h)
  rw [needs,needs]
  split <;> split <;> omega

variable {r : Fs × Dinode × Nat}

theorem needs_succ {lo hi : Nat} (h : MapsTo inum fs ip lo r)
    (hl : Live fs inum ip) (h0 : r.2.2≠0) (hlo : lo < hi) :
    missing fs inum ip lo+needs r.1 inum r.2.1 (lo+1) hi=needs fs inum ip lo hi := by
  have hsum : ∑ bn∈Finset.Ico (lo+1) hi, lacks r.1 inum r.2.1 (some bn) =
      ∑ bn∈Finset.Ico (lo+1) hi, lacks fs inum ip (some bn) := by
    refine Finset.sum_congr rfl fun bn hbn => ?_
    have hne : bn≠lo := by
      have hlt := (Finset.mem_Ico.mp hbn).1
      omega
    simp only [lacks,h.rest bn hne]
  -- in the indirect range the indirect block is there now
  have hind : ndirect ≤ lo → lacks r.1 inum r.2.1 none=0 := by
    intro hle
    refine if_neg fun hz => h0 ?_
    have hl' := h.grows.toFrame.live hl
    rw [hl'.addr] at hz
    rw [← h.addr,hl'.addr]
    simp only [place] at hz
    simp [place,Dinode.slot,Nat.not_lt.mpr hle,hz]
  rw [needs,needs,Finset.sum_eq_sum_Ico_succ_bot hlo,hsum,missing]
  by_cases hle : ndirect ≤ lo
  · have hhi : ndirect < hi := by omega
    simp only [hind hle,if_pos hle,if_pos hhi]
    omega
  · have hnone : lacks r.1 inum r.2.1 none=lacks fs inum ip none := by
      simp only [lacks,h.direct (Nat.lt_of_not_le hle)]
    rw [if_neg hle,hnone]
    omega

theorem Written.done (hc : Consistent fs inum ip) (hip : ip.Fits) (h : tot=n) :
    Written inum n src fs ip addr off tot (fs, ip, off, tot) 0 where
  frame := .refl hc hip
  offset := rfl
  start := Nat.le_refl _
  stop := h.le
  aligned _ := .inl rfl
  mapped k hk hk' := absurd hk' (Nat.not_lt.mpr hk)
  why hlt := absurd h (Nat.ne_of_lt hlt)
  byte i k := (if_neg (by simp only; omega)).symm
  torn := (if_neg fun hlt => absurd h (Nat.ne_of_lt hlt.1)).symm
  changed b hb := absurd rfl hb
  fresh hlt := absurd h (Nat.ne_of_lt hlt)
  copied j hj := absurd hj (by simp)
  room hlt := absurd h (Nat.ne_of_lt hlt)

theorem Written.full_disk (hm : MapsTo inum fs ip (off/bsize) r)
    (h0 : r.2.2=0) (hlt : tot < n) :
    Written inum n src fs ip addr off tot (r.1, r.2.1, off, tot) 0 where
  frame := hm.grows.toFrame
  offset := rfl
  start := Nat.le_refl _
  stop := hlt.le
  aligned _ := .inl rfl
  mapped k hk hk' := absurd hk' (Nat.not_lt.mpr hk)
  why _ h := absurd (hm.addr.trans h0) h
  byte i k := by
    rw [hm.grows.byte]
    exact (if_neg (by simp only; omega)).symm
  torn := (if_neg fun h => h.2 (hm.addr.trans h0)).symm
  changed b hb := .inl (hm.grows.changed b hb)
  fresh _ bn _ hbn hmem := (hm.grows.fresh _ hmem).elim id fun hnew => absurd rfl (hnew bn hbn)
  copied j hj := absurd hj (by simp)
  room _ := by
    rw [hm.addr,needs_one]
    exact hm.granted

theorem Written.failed_copy (hm : MapsTo inum fs ip (off/bsize) r) (hl : Live fs inum ip)
    (h0 : r.2.2≠0) (hlt : tot < n) (hreach : src.reach addr (piece n tot off)≠piece n tot off) :
    Written inum n src fs ip addr off tot
      (r.1.setBlock r.2.2 (memmove (r.1.block r.2.2) (off%bsize) (src.reach addr (piece n tot off))
        fun j => src.byte (addr+j)), r.2.1, off, tot) (src.reach addr (piece n tot off)) := by
  obtain ⟨hpos,hle,hblock,-⟩ := piece_spec off hlt
  have hreachLe := reach_le src addr (piece n tot off)
  obtain ⟨hframe,haddr,-,hbyte⟩ := store hm.grows.consistent (hm.grows.toFrame.live hl) hm.addr h0
    (memmove (r.1.block r.2.2) (off%bsize) (src.reach addr (piece n tot off)) fun j => src.byte (addr+j))
  exact {
    frame := hm.grows.toFrame.trans hframe
    offset := rfl
    start := Nat.le_refl _
    stop := hlt.le
    aligned := fun _ => .inl rfl
    mapped := fun k hk hk' => absurd hk' (Nat.not_lt.mpr hk)
    why := fun _ _ => by
      simp only [Nat.sub_self,Nat.add_zero]
      exact hreach
    byte := fun i k => by
      rw [hbyte,byte_memmove hm.addr h0 (by omega) (fun j => src.byte (addr+j)),hm.grows.byte]
    torn := by
      simp only [haddr,hm.addr,Nat.sub_self,Nat.add_zero]
      exact (if_pos ⟨hlt,h0⟩).symm
    changed := fun b hb => by
      by_cases hbr : b=r.2.2
      · by_cases hzero : src.reach addr (piece n tot off)=0
        · refine .inl (hm.grows.changed b fun he => hb ?_)
          simp only [Fs.setBlock,hbr,update_self,hzero,memmove_zero]
          exact hbr ▸ he
        · exact .inr ⟨Nat.pos_of_ne_zero hzero,by simp only [haddr,hm.addr,hbr]⟩
      · refine .inl (hm.grows.changed b fun he => hb ?_)
        exact (update_of_ne hbr _ _).trans he
    fresh := fun _ bn _ hbn hmem =>
      (hm.grows.fresh _ hmem).elim id fun hnew => absurd rfl (hnew bn hbn)
    copied := fun j hj => absurd hj (by simp)
    room := fun _ => by
      simp only [haddr,hm.addr,needs_one]
      exact hm.granted }

theorem Written.piece {w : Fs × Dinode × Nat × Nat}
    (hm : MapsTo inum fs ip (off/bsize) r)
    (hl : Live fs inum ip) (h0 : r.2.2≠0) (hlt : tot < n)
    (hhas : ∀ j < piece n tot off, src.has (addr+j)=true)
    (hw : Written inum n src ((r.1.setBlock r.2.2 (memmove (r.1.block r.2.2) (off%bsize)
      (piece n tot off) fun j => src.byte (addr+j))).logWrite r.2.2) r.2.1
        (addr+piece n tot off) (off+piece n tot off) (tot+piece n tot off) w c) :
    Written inum n src fs ip addr off tot w c := by
  obtain ⟨hpos,hle,hblock,hnext⟩ := piece_spec off hlt
  obtain ⟨hframe,haddr,hused,hbyte⟩ := store hm.grows.consistent (hm.grows.toFrame.live hl) hm.addr h0
    (memmove (r.1.block r.2.2) (off%bsize) (FileBytes.piece n tot off) fun j => src.byte (addr+j))
  generalize hm' : FileBytes.piece n tot off=m at *
  generalize hu : r.1.setBlock r.2.2 (memmove (r.1.block r.2.2) (off%bsize) m fun j => src.byte (addr+j)) =
    u at *
  have hframe' : Frame inum r.1 r.2.1 (u.logWrite r.2.2) r.2.1 := hframe.logWrite r.2.2
  have hoff := hw.offset
  have hstart := hw.start
  exact {
    frame := (hm.grows.toFrame.trans hframe').trans hw.frame
    offset := by omega
    start := by omega
    stop := hw.stop
    aligned := fun hwn => by
      have hfull := hnext (by omega)
      rcases hw.aligned hwn with he | he
      · right
        simp only [bsize] at hfull ⊢
        omega
      · exact .inr he
    mapped := fun k hk hk' => by
      by_cases hkm : off+m ≤ k
      · exact hw.mapped k hkm hk'
      · have hdiv : k/bsize=off/bsize := by
          simp only [bsize] at hblock ⊢
          omega
        have hold : (u.logWrite r.2.2).addr inum r.2.1 inum (some (off/bsize))≠0 := by
          have haddr' : (u.logWrite r.2.2).addr inum r.2.1=r.1.addr inum r.2.1 := haddr
          rw [haddr',hm.addr]
          exact h0
        rw [hdiv,hw.frame.keeps inum _ hold]
        exact hold
    why := by
      rw [show addr+(w.2.2.2-tot)=addr+m+(w.2.2.2-(tot+m)) by omega]
      exact hw.why
    byte := fun i k => by
      have hfirst : (u.logWrite r.2.2).byte inum r.2.1 i k =
          if i=inum ∧ off ≤ k ∧ k < off+m then src.byte (addr+(k-off)) else fs.byte inum ip i k := by
        refine (hbyte i k).trans ?_
        rw [byte_memmove hm.addr h0 hblock (fun j => src.byte (addr+j)),hm.grows.byte]
      rw [hw.byte,hfirst]
      by_cases hin : i=inum ∧ off+m ≤ k ∧ k < w.2.2.1+c
      · rw [if_pos hin,if_pos (by omega),show addr+m+(k-(off+m))=addr+(k-off) by omega]
      · rw [if_neg hin]
        exact if_congr (by omega) rfl rfl
    torn := by
      rw [show addr+(w.2.2.2-tot)=addr+m+(w.2.2.2-(tot+m)) by omega]
      exact hw.torn
    changed := fun b hb => by
      by_cases hsame : w.1.block b=u.block b
      · refine .inl (hw.frame.logged ?_)
        by_cases hbr : b=r.2.2
        · exact hbr ▸ List.mem_cons_self
        · have hold : u.block b=r.1.block b := by
            rw [← hu]
            exact update_of_ne hbr _ _
          exact List.mem_cons_of_mem _ (hframe.logged
            (hm.grows.changed b fun he => hb (hsame.trans (hold.trans he))))
      · exact hw.changed b hsame
    fresh := fun hwn bn hbn hx hmem => by
      have hkeep : (u.logWrite r.2.2).addr inum r.2.1 inum (some bn)=fs.addr inum ip inum (some bn) :=
        (hm.grows.toFrame.trans hframe').keeps inum (some bn) hx
      have hmem' : fs.addr inum ip inum (some bn)∈r.2.2::u.logged := by
        rw [← hkeep]
        exact hw.fresh hwn bn hbn (by rw [hkeep]; exact hx) (by rw [hkeep]; exact hmem)
      have hlogged : u.logged=r.1.logged := by rw [← hu]; rfl
      rw [hlogged,List.mem_cons] at hmem'
      rcases hmem' with he | hmem'
      · -- the block of this piece is not one that comes after the end
        have hbn' : bn=off/bsize := by
          have hr : r.1.addr inum r.2.1 inum (some bn)=r.1.addr inum r.2.1 inum (some (off/bsize)) := by
            rw [hm.grows.keeps inum (some bn) hx,hm.addr,he]
          have honce := (hm.grows.consistent.once inum (some bn) inum (some (off/bsize))
            (by rw [hr,hm.addr]; exact h0) hr).2
          exact Option.some.inj honce
        simp only [bsize] at *
        omega
      · exact (hm.grows.fresh _ hmem').elim id fun hnew => absurd rfl (hnew bn hx)
    copied := fun j hj => by
      by_cases hjm : j < m
      · exact hhas j hjm
      · have hj' := hw.copied (j-m) (by omega)
        rwa [show addr+m+(j-m)=addr+j by omega] at hj'
    room := fun hwn => by
      have hlo : (off+m)/bsize=off/bsize+1 := by
        have hfull := hnext (by omega)
        simp only [bsize] at hfull ⊢
        omega
      have hhi : off/bsize < w.2.2.1/bsize+1 := by
        have hle : off/bsize ≤ w.2.2.1/bsize := Nat.div_le_div_right (by omega)
        omega
      have hneeds : needs (u.logWrite r.2.2) inum r.2.1 (off/bsize+1) (w.2.2.1/bsize+1) =
          needs r.1 inum r.2.1 (off/bsize+1) (w.2.2.1/bsize+1) := by
        have haddr' : (u.logWrite r.2.2).addr inum r.2.1=r.1.addr inum r.2.1 := haddr
        simp only [needs,lacks,haddr']
      have hgrants (k : Nat) : (u.logWrite r.2.2).grants k=r.1.grants k := by
        have hsb : u.sb=r.1.sb := by rw [← hu]; rfl
        have hbusy : u.busy=r.1.busy := by rw [← hu]; rfl
        have hcalls : u.calls=r.1.calls := by rw [← hu]; rfl
        rw [Fs.grants,Fs.grants,show (u.logWrite r.2.2).sb=r.1.sb from hsb,
          show (u.logWrite r.2.2).busy=r.1.busy from hbusy,
          show (u.logWrite r.2.2).calls=r.1.calls from hcalls]
        exact grants_congr hused
      rw [hw.room hwn,hlo,hneeds,hgrants,← needs_succ hm hl h0 hhi,hm.left h0] }

/-- The loop writes all bytes if the source can be read and the blocks can be allocated. -/
theorem Written.full {w : Fs × Dinode × Nat × Nat} (h : Written inum n src fs ip addr off tot w c)
    (hgrants : fs.grants (needs fs inum ip (off/bsize) ((off+(n-tot)+(bsize-1))/bsize))=true)
    (hall : ∀ j < n-tot, src.has (addr+j)=true) : w.2.2.2=n := by
  by_contra hne
  have hstop := h.stop
  have hlt : w.2.2.2 < n := by omega
  have hoff := h.offset
  have hstart := h.start
  have hblock : w.2.2.1/bsize+1≤(off+(n-tot)+(bsize-1))/bsize := by
    simp only [bsize]
    omega
  have haddr := (h.room hlt).mpr (grants_mono (needs_mono hblock) hgrants)
  obtain ⟨-,hle,-⟩ := piece_spec w.2.2.1 hlt
  refine h.why hlt haddr (reach_eq (Nat.le_refl _) (fun j hj => ?_) fun hh => ?_)
  · have hj' := hall (w.2.2.2-tot+j) (by omega)
    rwa [← Nat.add_assoc] at hj'
  · exact absurd hh (Nat.lt_irrefl _)

theorem writeiFrom_written (hc : Consistent fs inum ip) (hl : Live fs inum ip) (htot : tot ≤ n)
    (hk : n ≤ tot+k) (hend : off+(n-tot) ≤ maxfile*bsize) :
    Yields (writeiFrom src n fs ip addr off tot k) fun r =>
      ∃ c, Written inum n src fs ip addr off tot r c := by
  induction k generalizing fs ip addr off tot with
  | zero => exact .ok ⟨0,.done hc hl.fits (by omega)⟩
  | succ k ih =>
    rw [writeiFrom]
    by_cases hlt : tot < n
    case neg =>
      rw [if_neg hlt]
      exact .ok ⟨0,.done hc hl.fits (by omega)⟩
    rw [if_pos hlt]
    obtain ⟨hpos,hle,hblock,-⟩ := piece_spec off hlt
    have hbn : off/bsize < maxfile := Nat.div_lt_of_lt_mul (by rw [Nat.mul_comm]; omega)
    refine (bmap_mapsTo hc hl hbn).bind ?_
    rintro ⟨fs',ip',b⟩ hm
    by_cases hb : b=0
    · simp only [if_pos hb]
      exact .ok ⟨0,.full_disk hm hb hlt⟩
    simp only [if_neg hb,eitherCopyin_eq,decide_eq_true_eq]
    by_cases hreach : src.reach addr (piece n tot off)=piece n tot off
    · rw [if_pos hreach,hreach]
      have hl' : Live fs' inum ip' := hm.grows.toFrame.live hl
      obtain ⟨hframe,-⟩ := store hm.grows.consistent hl' hm.addr hb
        (memmove (fs'.block b) (off%bsize) (piece n tot off) fun j => src.byte (addr+j))
      have hframe' := hframe.logWrite b
      refine (ih hframe'.consistent (hframe'.live hl') ?_ ?_ ?_).weaken ?_
      · omega
      · omega
      · omega
      · rintro w ⟨c,hw⟩
        refine ⟨c,.piece hm hl hb hlt (fun j hj => ?_) hw⟩
        exact has_of_lt_reach (hreach.symm ▸ hj : j < src.reach addr (piece n tot off))
    · rw [if_neg hreach]
      exact .ok ⟨_,.failed_copy hm hl hb hlt hreach⟩

end Xv6.FileBytes
