import Xv6.FileBytes
import Mathlib.Data.Finset.Card

/-! How many blocks a transaction of `filewrite` passes to `log_write`: two in a round of the loop of
`writei`, and the indirect block with its bitmap block. -/
namespace Xv6.FileBytes
open Function Xv6.DiskFormat Xv6.Total
variable {fs : Fs} {ip : Dinode} {src : Source} {l : List Nat} {a b k ind bn m n off tot addr inum : Nat}

def distinct (l : List Nat) : Nat := l.toFinset.card

/-- What has been logged, with what the indirect block may still need: itself, and its
bitmap block if it is not allocated. -/
def cost (l : List Nat) (ind : Nat) : Nat :=
  distinct l + if ind=0 then 2 else if ind∈l then 0 else 1

def Covers (ip : Dinode) (m : Nat) : Prop := ∀ bn, bn*bsize < m → ip.addrs (min bn ndirect)≠0

structure Extends (ip ip' : Dinode) : Prop where
  addrs : ∀ j, ip.addrs j≠0 → ip'.addrs j≠0
  size : ip'.size=ip.size

/-- The blocks that a loop over the bytes from `off` on still has to visit. -/
def roundsLeft (n tot off : Nat) : Nat :=
  if tot < n then (off+(n-tot)-1)/bsize-off/bsize+1 else 0

theorem distinct_cons_le : distinct (a::l) ≤ distinct l+1 := by
  rw [distinct,List.toFinset_cons]
  exact Finset.card_insert_le _ _

theorem distinct_cons_of_mem (h : a∈l) : distinct (a::l)=distinct l := by
  rw [distinct,List.toFinset_cons,Finset.insert_eq_of_mem (List.mem_toFinset.mpr h),distinct]

theorem distinct_le_cost : distinct l ≤ cost l ind := Nat.le_add_right _ _

theorem cost_cons_le : cost (a::l) ind ≤ cost l ind+1 := by
  have hcard : distinct (a::l) ≤ distinct l+1 := distinct_cons_le
  by_cases h0 : ind=0
  · simp only [cost,if_pos h0]
    omega
  by_cases hl : ind∈l
  · simp only [cost,if_neg h0,if_pos hl,if_pos (List.mem_cons_of_mem a hl)]
    omega
  · simp only [cost,if_neg h0,if_neg hl]
    split <;> omega

theorem cost_cons_of_mem (h : a∈l) : cost (a::l) ind=cost l ind := by
  have hmem : ind∈a::l ↔ ind∈l :=
    ⟨fun hi => (List.mem_cons.mp hi).elim (fun e => e ▸ h) id,List.mem_cons_of_mem a⟩
  simp only [cost,distinct_cons_of_mem h,hmem]

theorem cost_cons_ind (h : ind≠0) : cost (ind::l) ind ≤ cost l ind := by
  by_cases hl : ind∈l
  · exact (cost_cons_of_mem hl).le
  · have hcard : distinct (ind::l) ≤ distinct l+1 := distinct_cons_le
    simp only [cost,if_neg h,if_neg hl,if_pos List.mem_cons_self]
    omega

theorem cost_new_ind (h : ind≠0) : cost (ind::a::l) ind ≤ cost l 0 := by
  have hcard : distinct (ind::a::l) ≤ distinct (a::l)+1 := distinct_cons_le
  have hcard' : distinct (a::l) ≤ distinct l+1 := distinct_cons_le
  simp only [cost,if_neg h,if_pos List.mem_cons_self,if_true]
  omega

theorem cost_le_cons : cost l ind ≤ cost (a::l) ind := by
  by_cases ha : a∈l
  · exact (cost_cons_of_mem ha).ge
  have hcard : distinct (a::l)=distinct l+1 := by
    rw [distinct,List.toFinset_cons,Finset.card_insert_of_notMem (by simpa using ha),distinct]
  simp only [cost,hcard,List.mem_cons]
  by_cases hi : ind=a <;> simp only [hi,true_or,false_or,if_true] <;> split <;> omega

theorem cost_cons_cons_le : cost (a::b::l) ind ≤ cost l ind+2 :=
  cost_cons_le.trans (Nat.succ_le_succ cost_cons_le)

theorem balloc_logged (fs : Fs) : (balloc fs).2=0 ∧ (balloc fs).1.logged=fs.logged ∨
    (balloc fs).1.logged=(balloc fs).2 :: fs.sb.bblock (balloc fs).2 :: fs.logged := by
  unfold balloc
  cases fs.firstFree with
  | none => exact .inl ⟨rfl,rfl⟩
  | some b => exact .inr rfl

theorem Extends.refl (ip : Dinode) : Extends ip ip := ⟨fun _ h => h,rfl⟩

theorem Extends.trans {ip' ip'' : Dinode} (h : Extends ip ip') (h' : Extends ip' ip'') :
    Extends ip ip'' :=
  ⟨fun j hj => h'.addrs j (h.addrs j hj),h'.size.trans h.size⟩

theorem Extends.update (h : a≠0) : Extends ip { ip with addrs := update ip.addrs k a } where
  addrs j hj := by
    by_cases hjk : j=k
    · simpa [hjk] using h
    · simpa [hjk] using hj
  size := rfl

theorem Covers.extends {ip' : Dinode} (h : Covers ip m) (he : Extends ip ip') : Covers ip' m :=
  fun bn hbn => he.addrs _ (h bn hbn)

theorem mapAddr_cases (fs : Fs) (ip : Dinode) (k : Nat) :
    ip.addrs k≠0 ∧ mapAddr fs ip k=(fs, ip, ip.addrs k) ∨
    (ip.addrs k=0 ∧ ∃ fs', ((∃ b c, fs'.logged=b::c::fs.logged) ∨ fs'.logged=fs.logged) ∧
      mapAddr fs ip k=(fs', ip, 0)) ∨
    ip.addrs k=0 ∧ ∃ fs' b c, b≠0 ∧ fs'.logged=b::c::fs.logged ∧
      mapAddr fs ip k=(fs', { ip with addrs := update ip.addrs k b }, b) := by
  by_cases hk : ip.addrs k=0
  · rcases balloc_logged fs with ⟨h0,hl⟩ | hl
    · exact .inr (.inl ⟨hk,(balloc fs).1,.inr hl,by simp [mapAddr,hk,h0]⟩)
    by_cases h0 : (balloc fs).2=0
    · exact .inr (.inl ⟨hk,(balloc fs).1,.inl ⟨_,_,hl⟩,by simp [mapAddr,hk,h0]⟩)
    · exact .inr (.inr ⟨hk,(balloc fs).1,_,_,h0,hl,by simp [mapAddr,hk,h0]⟩)
  · exact .inl ⟨hk,by simp [mapAddr,hk]⟩

theorem mapWord_cost (fs : Fs) (k : Nat) (hind : ind≠0) :
    ((mapWord fs ind k).2=0 → cost (mapWord fs ind k).1.logged ind ≤ cost fs.logged ind+2) ∧
    ((mapWord fs ind k).2≠0 →
      cost ((mapWord fs ind k).2 :: (mapWord fs ind k).1.logged) ind ≤ cost fs.logged ind+2) := by
  unfold mapWord
  by_cases hw : getWord (fs.block ind) k=0
  · rcases balloc_logged fs with ⟨h0,hl⟩ | hl
    · simp [hw,h0,hl]
    by_cases h0 : (balloc fs).2=0
    · simp only [if_pos hw,if_pos h0,hl]
      exact ⟨fun _ => cost_cons_cons_le,fun h => absurd rfl h⟩
    · simp only [if_pos hw,if_neg h0]
      refine ⟨fun h => absurd h h0,fun _ => ?_⟩
      -- the block is in the list already, and so is the indirect block in effect
      have hmem : (balloc fs).2∈ind :: (balloc fs).1.logged := by simp [hl]
      calc cost ((balloc fs).2 :: ind :: (balloc fs).1.logged) ind
          = cost (ind :: (balloc fs).1.logged) ind := cost_cons_of_mem hmem
        _ ≤ cost (balloc fs).1.logged ind := cost_cons_ind hind
        _ ≤ cost fs.logged ind+2 := hl ▸ cost_cons_cons_le
  · simp only [if_neg hw]
    exact ⟨fun h => absurd h hw,fun _ => cost_cons_le.trans (by omega)⟩

/-- What `bmap` logs, with the block itself if there is one. A block of the inode's own
table that is there needs only itself. -/
structure Mapped (fs : Fs) (ip : Dinode) (bn : Nat) (r : Fs × Dinode × Nat) : Prop where
  ext : Extends ip r.2.1
  failed : r.2.2=0 → cost r.1.logged (r.2.1.addrs ndirect) ≤ cost fs.logged (ip.addrs ndirect)+2
  paid : r.2.2≠0 → cost (r.2.2 :: r.1.logged) (r.2.1.addrs ndirect) ≤
    cost fs.logged (ip.addrs ndirect)+2
  direct : bn < ndirect → ip.addrs bn≠0 →
    r.2.2≠0 ∧ cost (r.2.2 :: r.1.logged) (r.2.1.addrs ndirect) ≤ cost fs.logged (ip.addrs ndirect)+1
  filled : r.2.2≠0 → r.2.1.addrs (min bn ndirect)≠0

theorem mapAddr_mapped (hbn : bn < ndirect) : Mapped fs ip bn (mapAddr fs ip bn) := by
  have hmin : min bn ndirect=bn := Nat.min_eq_left hbn.le
  rcases mapAddr_cases fs ip bn with ⟨hk,he⟩ | ⟨hk,fs',hl,he⟩ | ⟨hk,fs',b,c,hb,hl,he⟩
  · rw [he]
    exact ⟨.refl ip,fun h => absurd h hk,fun _ => cost_cons_le.trans (Nat.le_succ _),
      fun _ _ => ⟨hk,cost_cons_le⟩,fun _ => hmin.symm ▸ hk⟩
  · rw [he]
    refine ⟨.refl ip,fun _ => ?_,fun h => absurd rfl h,fun _ h => absurd hk h,fun h => absurd rfl h⟩
    rcases hl with ⟨b,c,hl⟩ | hl
    · exact hl ▸ cost_cons_cons_le
    · exact hl ▸ Nat.le_add_right _ _
  · rw [he]
    have hind : update ip.addrs bn b ndirect=ip.addrs ndirect := update_of_ne (by omega) _ _
    refine ⟨.update hb,fun h => absurd h hb,fun _ => ?_,fun _ h => absurd hk h,fun _ => ?_⟩
    · simp only [hind,hl]
      rw [cost_cons_of_mem List.mem_cons_self]
      exact cost_cons_cons_le
    · simpa [hmin] using hb

theorem bmap_mapped (hbn : bn < maxfile) : Yields (bmap fs ip bn) (Mapped fs ip bn) := by
  unfold bmap
  by_cases hd : bn < ndirect
  · rw [if_pos hd]
    exact .ok (mapAddr_mapped hd)
  rw [if_neg hd,if_pos (by simp only [maxfile] at hbn; omega)]
  have hmin : min bn ndirect=ndirect := Nat.min_eq_right (Nat.le_of_not_lt hd)
  rcases mapAddr_cases fs ip ndirect with ⟨hk,he⟩ | ⟨hk,fs',hl,he⟩ | ⟨hk,fs',b,c,hb,hl,he⟩
  · rw [he]
    obtain ⟨hfail,hcost⟩ := mapWord_cost fs (bn-ndirect) hk
    simp only [if_neg hk]
    exact .ok ⟨.refl ip,hfail,hcost,fun h => absurd h hd,fun _ => hmin.symm ▸ hk⟩
  · rw [he]
    refine .ok ⟨.refl ip,fun _ => ?_,fun h => absurd rfl h,fun h => absurd h hd,fun h => absurd rfl h⟩
    rcases hl with ⟨b,c,hl⟩ | hl
    · exact hl ▸ cost_cons_cons_le
    · exact hl ▸ Nat.le_add_right _ _
  · rw [he]
    obtain ⟨hfail,hcost⟩ := mapWord_cost fs' (bn-ndirect) hb
    have hpaid : cost fs'.logged b ≤ cost fs.logged (ip.addrs ndirect) := by
      rw [hl,hk]
      exact cost_new_ind hb
    simp only [if_neg hb]
    refine .ok ⟨.update hb,?_,?_,fun h => absurd h hd,fun _ => ?_⟩
    · simp only [update_self]
      exact fun h => (hfail h).trans (Nat.add_le_add_right hpaid 2)
    · simp only [update_self]
      exact fun h => (hcost h).trans (Nat.add_le_add_right hpaid 2)
    · simpa [hmin] using hb

theorem roundsLeft_piece (h : tot < n) :
    roundsLeft n (tot+piece n tot off) (off+piece n tot off)+1 ≤ roundsLeft n tot off := by
  generalize hm : piece n tot off=m
  simp only [piece,bsize] at hm
  simp only [roundsLeft,bsize,if_pos h]
  split <;> omega

theorem Covers.piece (h : Covers ip off) (hfill : ip.addrs (min (off/bsize) ndirect)≠0) :
    Covers ip (off+piece n tot off) := by
  intro bn hbn
  by_cases hlt : bn*bsize < off
  · exact h bn hlt
  · obtain rfl : bn=off/bsize := by
      simp only [FileBytes.piece,bsize] at *
      omega
    exact hfill

/-- What the loop of `writei` keeps and logs. The first round needs one block less if it
writes to a block of the inode's own table that is there. -/
structure Wrote (n : Nat) (fs : Fs) (ip : Dinode) (off tot : Nat) (r : Fs × Dinode × Nat × Nat) :
    Prop where
  ext : Extends ip r.2.1
  covers : Covers r.2.1 r.2.2.1
  offset : r.2.2.1+tot=off+r.2.2.2
  paid : cost r.1.logged (r.2.1.addrs ndirect) ≤ cost fs.logged (ip.addrs ndirect)+2*roundsLeft n tot off
  direct : tot < n → off/bsize < ndirect → ip.addrs (off/bsize)≠0 →
    cost r.1.logged (r.2.1.addrs ndirect)+1 ≤ cost fs.logged (ip.addrs ndirect)+2*roundsLeft n tot off

theorem writeiFrom_wrote (hend : off+(n-tot) ≤ maxfile*bsize) (hcov : Covers ip off) :
    Yields (writeiFrom src n fs ip addr off tot k) (Wrote n fs ip off tot) := by
  induction k generalizing fs ip addr off tot with
  | zero =>
    refine .ok ⟨.refl ip,hcov,rfl,Nat.le_add_right _ _,fun h _ _ => ?_⟩
    have hrounds : 0 < roundsLeft n tot off := by simp [roundsLeft,h]
    change cost fs.logged (ip.addrs ndirect)+1 ≤ _
    omega
  | succ k ih =>
    rw [writeiFrom]
    by_cases htot : tot < n
    case neg =>
      rw [if_neg htot]
      exact .ok ⟨.refl ip,hcov,rfl,Nat.le_add_right _ _,fun h => absurd h htot⟩
    rw [if_pos htot]
    have hrounds : roundsLeft n (tot+piece n tot off) (off+piece n tot off)+1 ≤ roundsLeft n tot off :=
      roundsLeft_piece htot
    have hbn : off/bsize < maxfile := Nat.div_lt_of_lt_mul (by rw [Nat.mul_comm]; omega)
    refine (bmap_mapped hbn).bind ?_
    rintro ⟨fs',ip',b⟩ hmap
    by_cases hb : b=0
    · simp only [if_pos hb]
      have hfail := hmap.failed hb
      exact .ok ⟨hmap.ext,hcov.extends hmap.ext,rfl,by simp only at hfail ⊢; omega,
        fun _ hd ha => absurd hb (hmap.direct hd ha).1⟩
    simp only [if_neg hb]
    have hcost : cost (b::fs'.logged) (ip'.addrs ndirect) ≤ _ := hmap.paid hb
    by_cases hcopy : (eitherCopyin src (fs'.block b) (off%bsize) addr (piece n tot off)).2
    · simp only [if_pos hcopy]
      have hpiece : piece n tot off ≤ n-tot := Nat.min_le_left _ _
      refine (ih (by omega) ((hcov.extends hmap.ext).piece (hmap.filled hb))).weaken ?_
      rintro ⟨fs'',ip'',off'',tot''⟩ hw
      have hrest : cost fs''.logged (ip''.addrs ndirect) ≤
        cost (b::fs'.logged) (ip'.addrs ndirect)+_ := hw.paid
      have hoff := hw.offset
      refine ⟨hmap.ext.trans hw.ext,hw.covers,?_,?_,fun _ hd ha => ?_⟩
      · omega
      · simp only
        omega
      · have hdirect : cost (b::fs'.logged) (ip'.addrs ndirect) ≤ _ := (hmap.direct hd ha).2
        simp only
        omega
    · simp only [if_neg hcopy]
      have hdrop : cost fs'.logged (ip'.addrs ndirect) ≤ cost (b::fs'.logged) (ip'.addrs ndirect) :=
        cost_le_cons
      refine .ok ⟨hmap.ext,hcov.extends hmap.ext,rfl,?_,fun _ hd ha => ?_⟩
      · change cost fs'.logged (ip'.addrs ndirect) ≤ _
        omega
      · have hdirect : cost (b::fs'.logged) (ip'.addrs ndirect) ≤ _ := (hmap.direct hd ha).2
        change cost fs'.logged (ip'.addrs ndirect)+1 ≤ _
        omega

section Transactions
variable {f : File} {i : Nat} {ops : List (List Nat)} {len : Int}

theorem Covers.mono {m' : Nat} (h : Covers ip m) (hm : m' ≤ m) : Covers ip m' :=
  fun bn hbn => h bn (hbn.trans_le hm)

theorem roundsLeft_chunk (off : Nat) (hn : n ≤ maxChunk) :
    roundsLeft n 0 off ≤ 4 ∧ (off%bsize=0 → roundsLeft n 0 off ≤ 3) := by
  simp only [maxChunk,maxopblocks,bsize] at hn
  simp only [roundsLeft,bsize]
  split <;> omega

theorem Wrote.distinct_lt {r : Fs × Dinode × Nat × Nat} (h : Wrote n fs ip off 0 r)
    (hlog : fs.logged=[]) (hcov : Covers ip off) (hn : n ≤ maxChunk) :
    distinct r.1.logged < maxopblocks := by
  obtain ⟨hrounds,haligned⟩ := roundsLeft_chunk off hn
  have hstart : cost fs.logged (ip.addrs ndirect) = if ip.addrs ndirect=0 then 2 else 1 := by
    simp [hlog,cost,distinct]
  have hcost := h.paid
  refine distinct_le_cost.trans_lt (b := cost r.1.logged (r.2.1.addrs ndirect)) ?_
  rw [hstart] at hcost
  simp only [maxopblocks]
  by_cases ha : off%bsize=0
  · split at hcost <;> omega
  -- the block of `off` is there, or at least the indirect block
  have hbn : off/bsize*bsize < off := by
    simp only [bsize] at ha ⊢
    omega
  have hfill := hcov (off/bsize) hbn
  by_cases hd : off/bsize < ndirect
  · rw [Nat.min_eq_left hd.le] at hfill
    by_cases hn0 : 0 < n
    · have hdirect := h.direct hn0 hd hfill
      rw [hstart] at hdirect
      split at hdirect <;> omega
    · have hnone : roundsLeft n 0 off=0 := if_neg hn0
      split at hcost <;> omega
  · rw [Nat.min_eq_right (Nat.le_of_not_lt hd)] at hfill
    rw [if_neg hfill] at hcost
    omega

theorem writei_distinct (hlog : fs.logged=[]) (hcov : Covers ip ip.size) (hn : n ≤ maxChunk) :
    Yields (writei fs inum ip src addr off n) fun r =>
      distinct r.1.logged ≤ maxopblocks ∧ Covers r.2.1 r.2.1.size := by
  unfold writei
  by_cases hoff : off > ip.size ∨ (off+n)%uint < off
  · rw [if_pos hoff]
    exact .ok ⟨by simp [hlog,distinct],hcov⟩
  rw [if_neg hoff]
  by_cases hmax : off+n > maxfile*bsize
  · rw [if_pos hmax]
    exact .ok ⟨by simp [hlog,distinct],hcov⟩
  rw [if_neg hmax]
  have hcovOff : Covers ip off := hcov.mono (by omega)
  refine (writeiFrom_wrote (by omega) hcovOff).bind ?_
  rintro ⟨fs',ip',off',tot⟩ hw
  refine .ok ⟨?_,?_⟩
  · have hlt : distinct fs'.logged < maxopblocks := hw.distinct_lt hlog hcovOff hn
    exact distinct_cons_le.trans hlt
  · have hsize : ip'.size=ip.size := hw.ext.size
    by_cases hgrow : off' > ip'.size
    · simp only [if_pos hgrow]
      exact hw.covers
    · simp only [if_neg hgrow]
      exact hsize ▸ hcov.extends hw.ext

theorem chunk_distinct (hcov : Covers f.ip f.ip.size) (hn : n ≤ maxChunk) :
    Yields (chunk f src addr n) fun r =>
      distinct r.1.fs.logged ≤ maxopblocks ∧ Covers r.1.ip r.1.ip.size := by
  have hw : Yields (writei { f.fs with logged := [] } f.inum f.ip src addr f.off n) _ :=
    writei_distinct rfl hcov hn
  refine hw.bind ?_
  rintro ⟨fs',ip',r⟩ h
  exact .ok h

theorem filewriteFrom_distinct (hcov : Covers f.ip f.ip.size)
    (hops : ∀ op∈ops, distinct op ≤ maxopblocks) :
    Yields (filewriteFrom src addr len f i ops k) fun r => ∀ op∈r.2.2, distinct op ≤ maxopblocks := by
  induction k generalizing f i ops with
  | zero => exact .ok hops
  | succ k ih =>
    rw [filewriteFrom]
    by_cases hi : i < len
    case neg =>
      rw [if_neg hi]
      exact .ok hops
    rw [if_pos hi]
    have hn : chunkLen len i ≤ maxChunk := by
      unfold chunkLen
      split <;> omega
    refine (chunk_distinct hcov hn).bind ?_
    rintro ⟨f',r⟩ ⟨hlog,hcov'⟩
    have hops' : ∀ op∈ops++[f'.fs.logged], distinct op ≤ maxopblocks := by
      intro op hop
      rcases List.mem_append.mp hop with hold | hnew
      · exact hops op hold
      · exact List.mem_singleton.mp hnew ▸ hlog
    by_cases hr : r≠chunkLen len i
    · simp only [if_pos hr]
      exact .ok hops'
    · simp only [if_neg hr]
      exact ih hcov' hops'

theorem filewriteFrom_fuel (hk : len ≤ i+k) :
    filewriteFrom src addr len f i ops (k+1)=filewriteFrom src addr len f i ops k := by
  induction k generalizing f i ops with
  | zero =>
    have hi : ¬(i : Int) < len := by omega
    simp [filewriteFrom,hi]
  | succ k ih =>
    rw [filewriteFrom,filewriteFrom]
    by_cases hi : i < len
    case neg => rw [if_neg hi,if_neg hi]
    cases chunk f src (addr+i) (chunkLen len i) with
    | error e => rfl
    | ok r =>
      have hlen : 0 < chunkLen len i := by
        have hmax : 0 < maxChunk := by decide
        unfold chunkLen
        split <;> omega
      have hrest {f' : File} {ops' : List (List Nat)} :
          filewriteFrom src addr len f' (i+chunkLen len i) ops' (k+1) =
            filewriteFrom src addr len f' (i+chunkLen len i) ops' k :=
        ih (by push_cast; omega)
      simp only [bind,Except.bind,hrest]

/-- **A write chunk fits one transaction.** Every transaction of `filewrite` passes at most
`MAXOPBLOCKS` different blocks to `log_write`, whatever the layout and whichever blocks
`balloc` finds. -/
theorem filewrite_fits_transactions (f : File) (src : Source) (addr : Nat) (n : Int)
    (hblocks : ∀ bn, bn*bsize < f.ip.size → f.ip.slot f.fs.block bn≠0) :
    Yields (filewrite f src addr n) fun r => ∀ op∈r.2.2, distinct op ≤ maxopblocks := by
  have hcov : Covers f.ip f.ip.size := by
    intro bn hbn hzero
    refine hblocks bn hbn ?_
    by_cases hd : bn < ndirect
    · rwa [Dinode.slot,if_pos hd,← Nat.min_eq_left hd.le]
    · rw [Nat.min_eq_right (Nat.le_of_not_lt hd)] at hzero
      simp [Dinode.slot,hd,hzero]
  unfold filewrite
  by_cases hw : f.writable
  · rw [if_pos hw]
    refine (filewriteFrom_distinct hcov (by simp)).bind ?_
    rintro ⟨f',i,ops⟩ hops
    exact .ok hops
  · rw [if_neg hw]
    exact .ok (by simp)

def shortFile : File where
  writable := true
  fs := ⟨⟨64,18,16,0,2,2,3⟩,fun _ _ => 0,[],0,fun _ b => b < 51⟩
  inum := 1
  ip := ⟨tFile,0,0,1,100,fun j => if j=0 then 50 else 0⟩
  off := 100

theorem shortFile_fits_transactions :
    (∀ bn, bn*bsize < shortFile.ip.size → shortFile.ip.slot shortFile.fs.block bn≠0) ∧
      Yields (filewrite shortFile (.kernel fun _ => 7) 0 5000) fun r =>
        ∀ op∈r.2.2, distinct op ≤ maxopblocks := by
  have hblocks : ∀ bn, bn*bsize < shortFile.ip.size → shortFile.ip.slot shortFile.fs.block bn≠0 := by
    intro bn hbn
    obtain rfl : bn=0 := by
      simp only [shortFile,bsize] at hbn
      omega
    decide
  exact ⟨hblocks,filewrite_fits_transactions shortFile _ 0 5000 hblocks⟩

end Transactions

end Xv6.FileBytes
