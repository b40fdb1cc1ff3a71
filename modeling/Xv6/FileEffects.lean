import Xv6.FileWrite

/-! `readi` and `writei` on a file as an array of bytes, and what a `writei` that stops early
leaves behind. -/
namespace Xv6.FileBytes
open Function Xv6.DiskFormat Xv6.Total
variable {fs fs' : Fs} {ip ip' : Dinode} {src : Source} {copies : Nat → Bool} {out : List UInt8}
  {inum i c k bn n off tot addr size : Nat}

theorem addr_size : fs.addr inum { ip with size := size } = fs.addr inum ip := by
  funext i x
  by_cases hi : i=inum
  · subst hi
    simp only [Fs.addr,Fs.inodes,update_self]
    cases x <;> rfl
  · simp only [Fs.addr,Fs.inodes,update_of_ne hi]

theorem iupdate_view (hc : Consistent fs inum ip) (hl : Live fs inum ip) (hsize : size < uint) :
    (iupdate fs inum { ip with size := size }).addr inum { ip with size := size } = fs.addr inum ip ∧
    (iupdate fs inum { ip with size := size }).byte inum { ip with size := size } = fs.byte inum ip ∧
    ∀ i, (iupdate fs inum { ip with size := size }).dinode i =
      if i=inum then { ip with size := size } else fs.dinode i := by
  have hfits : { ip with size := size }.Fits := { hl.fits with size := hsize }
  have hdinode (i : Nat) : (iupdate fs inum { ip with size := size }).dinode i =
      if i=inum then { ip with size := size } else fs.dinode i := by
    rw [dinode_iupdate hfits]
    by_cases hi : i=inum
    · simp [Fs.inodes,hi]
    · simp [Fs.inodes,hi]
  have hblock {i : Nat} {x : Option Nat} (hx : fs.addr inum ip i x≠0) :
      (iupdate fs inum { ip with size := size }).block (fs.addr inum ip i x) =
        fs.block (fs.addr inum ip i x) :=
    block_iupdate hc.layout hl.lt (hc.area i x hx).1
  have hinodes : ∀ i < fs.sb.ninodes, (iupdate fs inum { ip with size := size }).inodes inum
      { ip with size := size } i=fs.inodes inum { ip with size := size } i := by
    intro i _
    by_cases hi : i=inum
    · simp [Fs.inodes,hi]
    · simp [Fs.inodes,hi,hdinode]
  have haddr : (iupdate fs inum { ip with size := size }).addr inum { ip with size := size } =
      fs.addr inum ip := by
    have hcopy : (iupdate fs inum { ip with size := size }).addr inum { ip with size := size } =
        fs.addr inum { ip with size := size } := addr_congr rfl hinodes fun i hx => by
      rw [addr_size] at hx ⊢
      exact hblock hx
    exact hcopy.trans addr_size
  exact ⟨haddr,byte_congr haddr fun _ _ hx => hblock hx,hdinode⟩

/-- What `writei` has done when it ends, if it has not refused: the loop has ended with `w`,
and the inode is stored with its new size. -/
structure Stored (inum n : Nat) (src : Source) (fs : Fs) (ip : Dinode) (addr off : Nat)
    (r : Fs × Dinode × Int) (w : Fs × Dinode × Nat × Nat) (c : Nat) : Prop where
  loop : Written inum n src fs ip addr off 0 w c
  result : r.2.2=w.2.2.2
  inode : r.2.1 = { ip with size := r.2.1.size, addrs := r.2.1.addrs }
  size : r.2.1.size=max ip.size (off+w.2.2.2)
  addr : r.1.addr inum r.2.1=w.1.addr inum w.2.1
  byte : r.1.byte inum r.2.1=w.1.byte inum w.2.1
  consistent : Consistent r.1 inum r.2.1
  live : Live r.1 inum r.2.1
  dinode : ∀ i < fs.sb.ninodes, r.1.dinode i = if i=inum then r.2.1 else fs.dinode i
  block : ∀ b, b≠fs.sb.iblock inum → r.1.block b=w.1.block b
  used : ∀ b, r.1.used b=w.1.used b
  logged : r.1.logged=fs.sb.iblock inum :: w.1.logged

theorem writei_stored (hc : Consistent fs inum ip) (hl : Live fs inum ip) :
    Yields (writei fs inum ip src addr off n) fun r =>
      (off > ip.size ∨ (off+n)%uint < off ∨ off+n > maxfile*bsize) ∧ r=(fs, ip, -1) ∨
      (off ≤ ip.size ∧ off+n ≤ maxfile*bsize) ∧ ∃ w c, Stored inum n src fs ip addr off r w c := by
  unfold writei
  by_cases hoff : off > ip.size ∨ (off+n)%uint < off
  · rw [if_pos hoff]
    exact .ok (.inl ⟨by omega,rfl⟩)
  rw [if_neg hoff]
  by_cases hmax : off+n > maxfile*bsize
  · rw [if_pos hmax]
    exact .ok (.inl ⟨.inr (.inr hmax),rfl⟩)
  rw [if_neg hmax]
  refine (writeiFrom_written hc hl (Nat.zero_le n) (Nat.le_add_left n 0) (by omega)).bind ?_
  rintro ⟨fs',ip',off',tot⟩ ⟨c,hw⟩
  have hsize : ip'.size=ip.size := hw.frame.size
  have hoff' : off'+0=off+tot := hw.offset
  have hstop : tot ≤ n := hw.stop
  have hnew : (if off' > ip'.size then { ip' with size := off' } else ip') =
      { ip' with size := max ip.size (off+tot) } := by
    split
    · rw [Nat.max_eq_right (by omega),← hoff',Nat.add_zero]
    · rw [Nat.max_eq_left (by omega),← hsize]
  have hfit : max ip.size (off+tot) < uint := by
    refine Nat.max_lt.mpr ⟨hl.fits.size,?_⟩
    have hbig : maxfile*bsize < uint := by decide
    omega
  have hl' : Live fs' inum ip' := hw.frame.live hl
  obtain ⟨haddr,hbyte,hdinode⟩ := iupdate_view hw.frame.consistent hl' hfit
  have hsb : fs'.sb=fs.sb := hw.frame.sb
  simp only [hnew]
  refine .ok (.inr ⟨⟨by omega,by omega⟩,(fs', ip', off', tot),c,?_⟩)
  exact {
    loop := hw
    result := rfl
    inode := by
      have hip : ip' = { ip with addrs := ip'.addrs } := hw.frame.inode
      rw [hip]
    size := rfl
    addr := haddr
    byte := hbyte
    consistent := hw.frame.consistent.of_addr rfl
      (fun _ _ hu => (used_iupdate hw.frame.consistent.layout hl'.lt).trans hu) haddr
    live := ⟨hl'.lt,hl'.type,{ hl'.fits with size := hfit }⟩
    dinode := fun i hi => by
      rw [hdinode]
      split
      · rfl
      · exact hw.frame.dinode i hi
    block := fun b hb => update_of_ne (by rw [hsb]; exact hb) _ _
    used := fun _ => used_iupdate hw.frame.consistent.layout hl'.lt
    logged := by
      change fs'.sb.iblock inum :: fs'.logged=_
      rw [hsb] }

theorem bmap_found (h : ip.slot fs.block bn≠0) : bmap fs ip bn=.ok (fs, ip, ip.slot fs.block bn) := by
  unfold bmap
  by_cases hd : bn < ndirect
  · simp only [Dinode.slot,if_pos hd] at h ⊢
    simp [mapAddr,h]
  by_cases hmax : bn < maxfile ∧ ip.addrs ndirect≠0
  · have hj : bn-ndirect < nindirect := by
      have hlt := hmax.1
      simp only [maxfile] at hlt
      omega
    simp only [Dinode.slot,if_neg hd,if_pos hmax] at h ⊢
    simp [hj,mapAddr,mapWord,hmax.2,h]
  · simp only [Dinode.slot,if_neg hd,if_neg hmax] at h
    exact absurd rfl h

theorem readiFrom_eq (hl : Live fs inum ip)
    (hblocks : ∀ o, off ≤ o → o < off+(n-tot) → ip.slot fs.block (o/bsize)≠0) (htot : tot ≤ n)
    (hk : n ≤ tot+k) (hcopies : ∀ o, off ≤ o → o < off+(n-tot) → copies o=true) :
    readiFrom copies n fs ip off tot out k =
      .ok (fs, ip, n, out++(List.range (n-tot)).map fun j => fs.byte inum ip inum (off+j)) := by
  induction k generalizing off tot out with
  | zero =>
    obtain rfl : tot=n := by omega
    simp [readiFrom]
  | succ k ih =>
    rw [readiFrom]
    by_cases hlt : tot < n
    case neg =>
      obtain rfl : tot=n := by omega
      simp
    obtain ⟨hpos,hle,hblock,-⟩ := piece_spec off hlt
    have hslot : ip.slot fs.block (off/bsize)≠0 := hblocks off (Nat.le_refl _) (by omega)
    rw [if_pos hlt,bmap_found hslot]
    simp only [bind,Except.bind,if_neg hslot,hcopies off (Nat.le_refl _) (by omega),if_true]
    generalize piece n tot off=m at *
    rw [ih (fun o ho ho' => hblocks o (by omega) (by omega)) (by omega) (by omega)
      fun o ho ho' => hcopies o (by omega) (by omega)]
    have hdata : ((List.range m).map fun j => fs.block (ip.slot fs.block (off/bsize)) (off%bsize+j)) =
        (List.range m).map fun j => fs.byte inum ip inum (off+j) := by
      refine List.map_congr_left fun j hj => ?_
      have hjm := List.mem_range.mp hj
      have hdiv : (off+j)/bsize=off/bsize := by
        simp only [bsize] at hblock ⊢
        omega
      have hmod : (off+j)%bsize=off%bsize+j := by
        simp only [bsize] at hblock ⊢
        omega
      have haddr : fs.addr inum ip inum (some (off/bsize))=ip.slot fs.block (off/bsize) := hl.addr
      simp only [Fs.byte,hdiv,hmod,haddr,if_neg hslot]
    have hrange : List.range (n-tot)=List.range m++(List.range (n-(tot+m))).map (m + ·) := by
      rw [← List.range_add,show m+(n-(tot+m))=n-tot by omega]
    rw [hdata,hrange,List.map_append,List.map_map,List.append_assoc]
    simp only [comp_def,Nat.add_assoc]

theorem readi_eq (hl : Live fs inum ip)
    (hblocks : ∀ o, off ≤ o → o < off+min n (ip.size-off) → ip.slot fs.block (o/bsize)≠0)
    (hoff : off ≤ ip.size)
    (hwrap : off+n < uint) (hcopies : ∀ o, off ≤ o → o < off+n → copies o=true) :
    readi copies fs ip off n=.ok (fs, ip, (min n (ip.size-off) : Nat),
      (List.range (min n (ip.size-off))).map fun j => fs.byte inum ip inum (off+j)) := by
  have hnot : ¬(off > ip.size ∨ (off+n)%uint < off) := by
    rw [Nat.mod_eq_of_lt hwrap]
    omega
  have hlen : (if off+n > ip.size then ip.size-off else n)=min n (ip.size-off) := by
    split <;> omega
  unfold readi
  rw [if_neg hnot]
  simp only [hlen]
  rw [readiFrom_eq hl (by simpa using hblocks) (Nat.zero_le _) (Nat.le_add_left _ 0)
    fun o ho ho' => hcopies o ho (by omega)]
  simp

/-- **`readi` and `writei` refine a byte array.** On an inode whose blocks are there, a
`writei` whose source can be read and for which blocks are free replaces the bytes from `off`
on and nothing else, and a `readi` returns the bytes and changes nothing. -/
theorem readi_writei_refine_bytes (fs : Fs) (inum : Nat) (ip : Dinode) (hc : Consistent fs inum ip)
    (hl : Live fs inum ip) (hblocks : ∀ bn, bn*bsize < ip.size → ip.slot fs.block bn≠0) :
    (∀ (src : Source) (addr off n : Nat) (S : Finset Nat), off ≤ ip.size →
      off+n ≤ maxfile*bsize → (∀ j < n, src.has (addr+j)=true) → Spare fs S →
      needs fs inum ip (off/bsize) ((off+n+(bsize-1))/bsize) ≤ S.card →
      Yields (writei fs inum ip src addr off n) fun r =>
        r.2.2=n ∧ r.2.1.size=max ip.size (off+n) ∧ r.1.dinode inum=r.2.1 ∧
        (∀ k, r.1.byte inum r.2.1 inum k =
          if off ≤ k ∧ k < off+n then src.byte (addr+(k-off)) else fs.byte inum ip inum k) ∧
        ∀ i < fs.sb.ninodes, i≠inum → r.1.dinode i=fs.dinode i ∧
          ∀ k, r.1.byte inum r.2.1 i k=fs.byte inum ip i k) ∧
    ∀ (copies : Nat → Bool) (off n : Nat), off ≤ ip.size → off+n < uint →
      (∀ o, off ≤ o → o < off+n → copies o=true) →
      readi copies fs ip off n=.ok (fs, ip, (min n (ip.size-off) : Nat),
        (List.range (min n (ip.size-off))).map fun j => fs.byte inum ip inum (off+j)) := by
  refine ⟨fun src addr off n S hoff hmax hhas hS hneeds => ?_,
    fun copies off n hoff hwrap hcopies => readi_eq hl (fun o ho ho' => ?_) hoff hwrap hcopies⟩
  case refine_2 => exact hblocks _ ((Nat.div_mul_le_self o bsize).trans_lt (by omega))
  refine (writei_stored hc hl).weaken ?_
  rintro r (⟨hrefused,-⟩ | ⟨-,w,c,hs⟩)
  · have hbig : maxfile*bsize < uint := by decide
    rw [Nat.mod_eq_of_lt (hmax.trans_lt hbig)] at hrefused
    omega
  have hfull : w.2.2.2=n := hs.loop.full (grants_of_card hS hneeds) hhas
  have hend : w.2.2.1=off+n := by
    have hoffset := hs.loop.offset
    omega
  have hc0 : c=0 := by
    rw [hs.loop.torn,hfull]
    exact if_neg fun h => absurd h.1 (Nat.lt_irrefl n)
  have hbyte (i k : Nat) : r.1.byte inum r.2.1 i k = if i=inum ∧ off ≤ k ∧ k < off+n then
      src.byte (addr+(k-off)) else fs.byte inum ip i k := by
    rw [hs.byte,hs.loop.byte,hend,hc0,Nat.add_zero]
  refine ⟨by rw [hs.result,hfull],by rw [hs.size,hfull],?_,fun k => ?_,fun i hi hne => ⟨?_,fun k => ?_⟩⟩
  · rw [hs.dinode inum hl.lt,if_pos rfl]
  · simp only [hbyte,true_and]
  · rw [hs.dinode i hi,if_neg hne]
  · rw [hbyte,if_neg fun h => hne h.1]

/-- A disk with 64 blocks: inodes in block 2, the bitmap in block 3, and one file, inode 1,
with 100 bytes in block 50. -/
def tinyDisk : Fs where
  sb := ⟨64,60,15,0,2,2,3⟩
  block := update (update (fun _ _ => 0) 2
      (putDinode (fun _ => 0) 1 ⟨tFile,0,0,1,100,fun j => if j=0 then 50 else 0⟩))
    3 (setBit (setBit (setBit (setBit (setBit (fun _ => 0) 0) 1) 2) 3) 50)
  logged := []
  calls := 0
  busy := fun _ _ => false

def tinyFile : Dinode := tinyDisk.dinode 1

theorem tinyFile_live : Live tinyDisk 1 tinyFile := ⟨by decide,by decide,getDinode_fits _ _⟩

theorem tinyDisk_addr {x : Option Nat} (h : tinyDisk.addr 1 tinyFile i x≠0) :
    i=1 ∧ x=some 0 ∧ tinyDisk.addr 1 tinyFile i x=50 := by
  have hi : i=1 := by
    by_contra hne
    refine h (if_neg fun hlive => hlive.2 ?_)
    have hfree : ∀ j<15, j≠1 → (tinyDisk.dinode j).type=0 := by decide
    rw [Fs.inodes,update_of_ne hne]
    exact hfree i hlive.1 hne
  subst hi
  rw [tinyFile_live.addr] at h ⊢
  have hnone : tinyFile.addrs ndirect=0 := by decide
  cases x with
  | none => exact absurd hnone h
  | some bn =>
    by_cases hbn : bn < ndirect
    · have hslot : ∀ j < ndirect, tinyFile.addrs j≠0 → j=0 ∧ tinyFile.addrs j=50 := by decide
      simp only [place,Dinode.slot,if_pos hbn] at h ⊢
      obtain ⟨rfl,hv⟩ := hslot bn hbn h
      exact ⟨trivial,rfl,hv⟩
    · exact absurd (by simp [place,Dinode.slot,hbn,hnone]) h

theorem tinyDisk_consistent : Consistent tinyDisk 1 tinyFile where
  layout := ⟨by decide,by decide,by decide⟩
  reserved := by decide
  area i x hx := by
    rw [(tinyDisk_addr hx).2.2]
    decide
  once i x j y hx he := by
    obtain ⟨rfl,rfl,-⟩ := tinyDisk_addr hx
    obtain ⟨rfl,rfl,-⟩ := tinyDisk_addr (he ▸ hx)
    exact ⟨rfl,rfl⟩

theorem tinyFile_blocks (bn : Nat) (h : bn*bsize < tinyFile.size) :
    tinyFile.slot tinyDisk.block bn≠0 := by
  have hsize : tinyFile.size=100 := by decide
  obtain rfl : bn=0 := by
    simp only [hsize,bsize] at h
    omega
  decide

theorem tinyFile_refines_bytes :
    Yields (writei tinyDisk 1 tinyFile (.kernel fun _ => 7) 0 90 2000) fun r =>
      r.2.2=2000 ∧ r.2.1.size=2090 := by
  have hS : Spare tinyDisk {4, 5} := by
    intro b hb
    have hfree : ∀ b∈({4, 5} : Finset Nat), b<64 ∧ tinyDisk.used b=false := by decide
    exact ⟨(hfree b hb).1,(hfree b hb).2,fun _ => rfl⟩
  refine ((readi_writei_refine_bytes tinyDisk 1 tinyFile tinyDisk_consistent tinyFile_live
    tinyFile_blocks).1 (.kernel fun _ => 7) 0 90 2000 {4, 5} (by decide) (by decide) (fun _ _ => rfl)
    hS (by decide)).weaken ?_
  intro r hr
  exact ⟨hr.1,hr.2.1⟩

/-- What a `writei` may leave behind that has returned `r`: the bytes outside of those that
it reports are as before, and every block that has changed was passed to `log_write`. -/
structure Reports (inum : Nat) (fs : Fs) (ip : Dinode) (off : Nat) (r : Fs × Dinode × Int) : Prop where
  bytes : ∀ k < r.2.1.size, ¬(off ≤ k ∧ k < off+r.2.2.toNat) →
    r.1.byte inum r.2.1 inum k=fs.byte inum ip inum k
  others : ∀ i k, i≠inum → r.1.byte inum r.2.1 i k=fs.byte inum ip i k
  blocks : ∀ b, (∃ o < bsize, r.1.block b o≠fs.block b o) → b∈r.1.logged

/-- A copy fails half done. Of the source only the first bytes can be read; the blocks up to that of
the first byte which cannot are there or will be found by `balloc`; and a byte before it in its block
is new, in a block that was there before or below the size. -/
def Torn (inum : Nat) (fs : Fs) (ip : Dinode) (src : Source) (addr off n : Nat) : Prop :=
  (off ≤ ip.size ∧ off+n ≤ maxfile*bsize) ∧ src.reach addr n < n ∧
  fs.grants (needs fs inum ip (off/bsize) ((off+src.reach addr n)/bsize+1))=true ∧
  ∃ j < src.reach addr n, (off+j)/bsize=(off+src.reach addr n)/bsize ∧
    src.byte (addr+j)≠fs.byte inum ip inum (off+j) ∧
    (fs.addr inum ip inum (some ((off+j)/bsize))≠0 ∨ off+j < ip.size)

section Stops
variable {r : Fs × Dinode × Int} {w : Fs × Dinode × Nat × Nat}

theorem byte_of_addr {b o : Nat} (hb : fs.addr inum ip inum (some bn)=b) (h0 : b≠0) (ho : o < bsize) :
    fs.byte inum ip inum (bn*bsize+o)=fs.block b o := by
  have hdiv : (bn*bsize+o)/bsize=bn := by
    simp only [bsize] at ho ⊢
    omega
  have hmod : (bn*bsize+o)%bsize=o := by
    simp only [bsize] at ho ⊢
    omega
  simp only [Fs.byte,hdiv,hmod,hb,if_neg h0]

variable (h : Stored inum n src fs ip addr off r w c)
include h

theorem Stored.byte_eq (i k : Nat) :
    r.1.byte inum r.2.1 i k = if i=inum ∧ off ≤ k ∧ k < off+w.2.2.2+c then
      src.byte (addr+(k-off)) else fs.byte inum ip i k := by
  have hend : w.2.2.1=off+w.2.2.2 := h.loop.offset
  rw [h.byte,h.loop.byte,hend]

theorem Stored.toNat_eq : r.2.2.toNat=w.2.2.2 := by
  rw [h.result,Int.toNat_natCast]

theorem Stored.reach_eq_add (hlt : w.2.2.2 < n)
    (haddr : w.1.addr inum w.2.1 inum (some ((off+w.2.2.2)/bsize))≠0) :
    src.reach addr n=w.2.2.2+c ∧ w.2.2.2+c < n ∧ (off+(w.2.2.2+c))/bsize=(off+w.2.2.2)/bsize := by
  have hend : w.2.2.1=off+w.2.2.2 := h.loop.offset
  have hc := h.loop.torn
  have hwhy := h.loop.why hlt
  rw [Nat.sub_zero,hend] at hc hwhy
  rw [if_pos ⟨hlt,haddr⟩] at hc
  have hstop := hwhy haddr
  rw [← hc] at hstop
  have hle := reach_le src (addr+w.2.2.2) (piece n w.2.2.2 (off+w.2.2.2))
  obtain ⟨-,hpiece,hblock,-⟩ := piece_spec (off+w.2.2.2) hlt
  have hread : ∀ j < w.2.2.2+c, src.has (addr+j)=true := by
    intro j hj
    by_cases hjt : j < w.2.2.2
    · exact h.loop.copied j hjt
    · have hj' : j-w.2.2.2 < src.reach (addr+w.2.2.2) (piece n w.2.2.2 (off+w.2.2.2)) := by omega
      have hrest := has_of_lt_reach hj'
      rwa [show addr+w.2.2.2+(j-w.2.2.2)=addr+j by omega] at hrest
  refine ⟨reach_eq (by omega) hread fun _ => ?_,by omega,?_⟩
  · have hshort : src.reach (addr+w.2.2.2) (piece n w.2.2.2 (off+w.2.2.2)) <
        piece n w.2.2.2 (off+w.2.2.2) := by omega
    have hno := not_has_reach hshort
    rwa [← hc,Nat.add_assoc] at hno
  · simp only [bsize] at hblock ⊢
    omega

theorem Stored.torn_iff (hin : off ≤ ip.size ∧ off+n ≤ maxfile*bsize) :
    Torn inum fs ip src addr off n ↔ ∃ j < c,
      src.byte (addr+w.2.2.2+j)≠fs.byte inum ip inum (off+w.2.2.2+j) ∧
      (fs.addr inum ip inum (some ((off+w.2.2.2)/bsize))≠0 ∨ off+w.2.2.2+j < ip.size) := by
  have hend : w.2.2.1=off+w.2.2.2 := h.loop.offset
  have hc := h.loop.torn
  rw [Nat.sub_zero,hend] at hc
  by_cases hcopy : w.2.2.2 < n ∧ w.1.addr inum w.2.1 inum (some ((off+w.2.2.2)/bsize))≠0
  · obtain ⟨hreach,hlt,hblock⟩ := h.reach_eq_add hcopy.1 hcopy.2
    have hroom := h.loop.room hcopy.1
    rw [hend] at hroom
    have hgrants := hroom.mp hcopy.2
    simp only [Torn,hin,hgrants,hreach,hlt,hblock,and_self,true_and]
    constructor
    · rintro ⟨j,hj,hsame,hne,hseen⟩
      -- the piece starts where the block does, or is the first one
      have hjt : w.2.2.2 ≤ j := by
        have haligned := h.loop.aligned hcopy.1
        rw [hend] at haligned
        simp only [bsize] at hsame haligned
        omega
      refine ⟨j-w.2.2.2,by omega,?_⟩
      rw [show addr+w.2.2.2+(j-w.2.2.2)=addr+j by omega,
        show off+w.2.2.2+(j-w.2.2.2)=off+j by omega,← hsame]
      exact ⟨hne,hseen⟩
    · rintro ⟨j,hj,hne,hseen⟩
      have hsame : (off+(w.2.2.2+j))/bsize=(off+w.2.2.2)/bsize :=
        Nat.le_antisymm (hblock ▸ Nat.div_le_div_right (by omega)) (Nat.div_le_div_right (by omega))
      refine ⟨w.2.2.2+j,by omega,hsame,?_⟩
      rw [hsame,← Nat.add_assoc,← Nat.add_assoc]
      exact ⟨hne,hseen⟩
  · rw [if_neg hcopy] at hc
    refine iff_of_false ?_ (by rintro ⟨j,hj,-⟩; omega)
    rintro ⟨-,hlt,hgrants,-⟩
    have hle : w.2.2.2 ≤ src.reach addr n := by
      by_contra hgt
      have hno := not_has_reach hlt
      rw [h.loop.copied _ (by omega)] at hno
      cases hno
    have hlt' : w.2.2.2 < n := by omega
    refine hcopy ⟨hlt',?_⟩
    have hroom := h.loop.room hlt'
    rw [hend] at hroom
    refine hroom.mpr (grants_mono (needs_mono (Nat.succ_le_succ ?_)) hgrants)
    exact Nat.div_le_div_right (by omega)

theorem Stored.torn_block {j : Nat} (hj : j < c) :
    w.2.2.2 < n ∧ (off+w.2.2.2+j)/bsize=(off+w.2.2.2)/bsize := by
  have hend : w.2.2.1=off+w.2.2.2 := h.loop.offset
  have htorn := h.loop.torn
  rw [hend] at htorn
  by_cases hcopy : w.2.2.2 < n ∧ w.1.addr inum w.2.1 inum (some ((off+w.2.2.2)/bsize))≠0
  · rw [if_pos hcopy] at htorn
    have hle := reach_le src (addr+(w.2.2.2-0)) (piece n w.2.2.2 (off+w.2.2.2))
    obtain ⟨-,-,hblock,-⟩ := piece_spec (off+w.2.2.2) hcopy.1
    refine ⟨hcopy.1,?_⟩
    simp only [bsize] at hblock ⊢
    omega
  · rw [if_neg hcopy] at htorn
    omega

theorem Stored.not_torn (hc : Consistent fs inum ip)
    (hl : Live fs inum ip) (hlog : fs.logged=[]) (hin : off ≤ ip.size ∧ off+n ≤ maxfile*bsize)
    (hr : Reports inum fs ip off r) : ¬Torn inum fs ip src addr off n := by
  rw [h.torn_iff hin]
  rintro ⟨j,hj,hne,hseen⟩
  obtain ⟨hlt,hdiv⟩ := h.torn_block hj
  have hbyte : r.1.byte inum r.2.1 inum (off+w.2.2.2+j)=src.byte (addr+w.2.2.2+j) := by
    rw [h.byte_eq,if_pos ⟨rfl,by omega,by omega⟩,
      show addr+(off+w.2.2.2+j-off)=addr+w.2.2.2+j by omega]
  rcases hseen with hold | hsize
  · -- the block was there: it has changed, and it is not logged
    have hkeep := h.loop.frame.keeps inum _ hold
    rw [← h.addr] at hkeep
    have hnew : r.1.addr inum r.2.1 inum (some ((off+w.2.2.2+j)/bsize)) =
        fs.addr inum ip inum (some ((off+w.2.2.2)/bsize)) := by rw [hdiv,hkeep]
    have hmem := hr.blocks (fs.addr inum ip inum (some ((off+w.2.2.2)/bsize)))
      ⟨(off+w.2.2.2+j)%bsize,Nat.mod_lt _ (by decide),fun he => hne ?_⟩
    · rw [h.logged,List.mem_cons] at hmem
      rcases hmem with he | hmem
      · have hlo := (hc.area inum _ hold).1
        have hmeta := hc.layout.iblock_lt_nmeta hl.lt
        omega
      · have hend : w.2.2.1=off+w.2.2.2 := h.loop.offset
        have hin := h.loop.fresh hlt _ (by rw [hend]) hold hmem
        rw [hlog] at hin
        cases hin
    · rw [← hbyte,Fs.byte,hnew,if_neg hold,he,Fs.byte,hdiv,if_neg hold]
  · refine hne (hbyte.symm.trans (hr.bytes _ ?_ ?_))
    · rw [h.size]
      omega
    · rw [h.toNat_eq]
      omega

theorem Stored.reports
    (hin : off ≤ ip.size ∧ off+n ≤ maxfile*bsize) (hnt : ¬Torn inum fs ip src addr off n) :
    Reports inum fs ip off r := by
  have hsame : ∀ j < c, (fs.addr inum ip inum (some ((off+w.2.2.2)/bsize))≠0 ∨
      off+w.2.2.2+j < ip.size) →
      src.byte (addr+w.2.2.2+j)=fs.byte inum ip inum (off+w.2.2.2+j) := by
    intro j hj hseen
    by_contra hne
    exact hnt ((h.torn_iff hin).mpr ⟨j,hj,hne,hseen⟩)
  -- a byte past those that are reported
  have htail : ∀ k, off+w.2.2.2 ≤ k → (fs.addr inum ip inum (some ((off+w.2.2.2)/bsize))≠0 ∨
      k < ip.size) → r.1.byte inum r.2.1 inum k=fs.byte inum ip inum k := by
    intro k hk hseen
    rw [h.byte_eq]
    by_cases hin : k < off+w.2.2.2+c
    · have hj := hsame (k-(off+w.2.2.2)) (by omega)
        (by rwa [show off+w.2.2.2+(k-(off+w.2.2.2))=k by omega])
      rw [if_pos ⟨rfl,by omega,hin⟩,show addr+(k-off)=addr+w.2.2.2+(k-(off+w.2.2.2)) by omega,
        hj,show off+w.2.2.2+(k-(off+w.2.2.2))=k by omega]
    · rw [if_neg fun hh => hin hh.2.2]
  refine ⟨fun k hk hout => ?_,fun i k hi => ?_,?_⟩
  · rw [h.size] at hk
    rw [h.toNat_eq] at hout
    by_cases hlo : off ≤ k
    · exact htail k (by omega) (.inr (by omega))
    · rw [h.byte_eq,if_neg fun hh => hlo hh.2.1]
  · rw [h.byte_eq,if_neg fun hh => hi hh.1]
  · rintro b ⟨o,ho,hne⟩
    rw [h.logged]
    by_cases hi : b=fs.sb.iblock inum
    · exact hi ▸ List.mem_cons_self
    refine List.mem_cons_of_mem _ ?_
    have hblock := h.block b hi
    rcases h.loop.changed b fun he => hne (by rw [hblock,he]) with hmem | ⟨hcpos,hb⟩
    · exact hmem
    have hend : w.2.2.1=off+w.2.2.2 := h.loop.offset
    obtain ⟨hlt,-⟩ := h.torn_block hcpos
    rw [hend] at hb
    by_cases hold : fs.addr inum ip inum (some ((off+w.2.2.2)/bsize))=0
    · -- a new block has been zeroed, and logged then
      have hcopy : w.1.addr inum w.2.1 inum (some ((off+w.2.2.2)/bsize))≠0 := by
        intro hz
        have htorn := h.loop.torn
        rw [hend,if_neg fun hh => hh.2 hz] at htorn
        omega
      rw [hb]
      exact h.loop.frame.added _ hold hcopy
    · have hkeep := h.loop.frame.keeps inum _ hold
      have hbold : fs.addr inum ip inum (some ((off+w.2.2.2)/bsize))=b := by rw [← hkeep,hb]
      have hbnew : r.1.addr inum r.2.1 inum (some ((off+w.2.2.2)/bsize))=b := by rw [h.addr,hb]
      have h0 : b≠0 := hbold ▸ hold
      refine absurd ?_ hne
      rw [← byte_of_addr hbnew h0 ho,← byte_of_addr hbold h0 ho]
      by_cases hk : off+w.2.2.2≤(off+w.2.2.2)/bsize*bsize+o
      · exact htail _ hk (.inl hold)
      · -- before the place where the loop stopped, the block has no byte that was written
        rw [h.byte_eq,if_neg]
        rintro ⟨-,hge,-⟩
        have haligned := h.loop.aligned hlt
        simp only [bsize] at *
        omega

end Stops

/-- **A short `writei` changes only what it reports, unless a copy fails half done**, which the
arguments, the pages of the source and the blocks of the disk decide. -/
theorem writei_reports_iff (fs : Fs) (inum : Nat) (ip : Dinode) (src : Source) (addr off n : Nat)
    (hc : Consistent fs inum ip) (hl : Live fs inum ip) (hlog : fs.logged=[]) :
    Yields (writei fs inum ip src addr off n) fun r =>
      Reports inum fs ip off r ↔ ¬Torn inum fs ip src addr off n := by
  refine (writei_stored hc hl).weaken ?_
  rintro r (⟨hrefused,rfl⟩ | ⟨hin,w,c,hs⟩)
  · refine iff_of_true ⟨fun _ _ _ => rfl,fun _ _ _ => rfl,?_⟩ ?_
    · rintro b ⟨o,-,hne⟩
      exact absurd rfl hne
    · rintro ⟨⟨hoff,hmax⟩,-⟩
      have hbig : maxfile*bsize < uint := by decide
      rw [Nat.mod_eq_of_lt (hmax.trans_lt hbig)] at hrefused
      omega
  · exact ⟨hs.not_torn hc hl hlog hin,hs.reports hin⟩

/-- The last ten bytes of a page that is mapped, and ten of one that is not, written to the
start of the file: nothing is reported, and the first bytes have changed in the cache. -/
theorem torn_write_is_not_reported :
    ∃ r, writei tinyDisk 1 tinyFile (.user (· = 0) fun _ => 7) 4086 0 20=.ok r ∧ r.2.2=0 ∧
      tinyDisk.byte 1 tinyFile 1 0=0 ∧ r.1.byte 1 r.2.1 1 0=7 ∧ r.1.block 50 0≠tinyDisk.block 50 0 ∧
      50∉r.1.logged := by
  refine ⟨_,rfl,?_⟩
  decide +kernel

theorem whole_write_is_reported :
    Yields (writei tinyDisk 1 tinyFile (.user (· ≤ 1) fun _ => 7) 4086 0 20) fun r =>
      Reports 1 tinyDisk tinyFile 0 r := by
  refine (writei_reports_iff tinyDisk 1 tinyFile (.user (· ≤ 1) fun _ => 7) 4086 0 20
    tinyDisk_consistent tinyFile_live rfl).weaken fun r hiff => hiff.mpr ?_
  rintro ⟨-,hlt,-⟩
  revert hlt
  decide

end Xv6.FileBytes
