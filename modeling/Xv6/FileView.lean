import Xv6.FileBytes

/-! What the blocks of a file system stand for: the block at each place of each inode, and the bytes
of each file. The inode being worked on counts with its copy in memory. -/
namespace Xv6.FileBytes
open Function Xv6.DiskFormat
variable {fs : Fs} {ip : Dinode} {inum i j b c k bn : Nat} {x y : Option Nat} {blk : Block}

def nmeta (sb : Super) : Nat := sb.bmapstart+sb.size/bpb+1

/-- Inodes, bitmap and data follow each other, and block numbers fit in a word. -/
structure Layout (sb : Super) : Prop where
  inodes : sb.inodestart+sb.ninodes/ipb+1 ≤ sb.bmapstart
  bitmap : nmeta sb ≤ sb.size
  fits : sb.size ≤ uint

def Fs.inodes (fs : Fs) (inum : Nat) (ip : Dinode) : Nat → Dinode := update fs.dinode inum ip

/-- The block at a place of an inode: its indirect block, or the block with a number. -/
def place (block : Nat → Block) (d : Dinode) : Option Nat → Nat
  | none => d.addrs ndirect
  | some bn => d.slot block bn

def Fs.addr (fs : Fs) (inum : Nat) (ip : Dinode) (i : Nat) (x : Option Nat) : Nat :=
  if i < fs.sb.ninodes ∧ (fs.inodes inum ip i).type≠0 then place fs.block (fs.inodes inum ip i) x
  else 0

/-- Byte `k` of the file that is inode `i`; where there is no block, 0. -/
def Fs.byte (fs : Fs) (inum : Nat) (ip : Dinode) (i k : Nat) : UInt8 :=
  if fs.addr inum ip i (some (k/bsize))=0 then 0
  else fs.block (fs.addr inum ip i (some (k/bsize))) (k%bsize)

/-- **The file system is consistent.** Blocks of inodes are in the data area, marked in the
bitmap, and at one place only. -/
structure Consistent (fs : Fs) (inum : Nat) (ip : Dinode) : Prop where
  layout : Layout fs.sb
  reserved : ∀ b < nmeta fs.sb, fs.used b=true
  area : ∀ i x, fs.addr inum ip i x≠0 →
    nmeta fs.sb ≤ fs.addr inum ip i x ∧ fs.addr inum ip i x < fs.sb.size ∧
      fs.used (fs.addr inum ip i x)=true
  once : ∀ i x j y, fs.addr inum ip i x≠0 → fs.addr inum ip i x=fs.addr inum ip j y →
    i=j ∧ x=y

structure Live (fs : Fs) (inum : Nat) (ip : Dinode) : Prop where
  lt : inum < fs.sb.ninodes
  type : ip.type≠0
  fits : ip.Fits

theorem Layout.iblock_lt {sb : Super} (h : Layout sb) (hi : i < sb.ninodes) :
    sb.iblock i < sb.bmapstart := by
  have hinodes := h.inodes
  simp only [Super.iblock,ipb] at *
  omega

theorem bblock_lt {sb : Super} (hb : b < sb.size) : sb.bblock b < nmeta sb := by
  simp only [Super.bblock,nmeta,bpb,bsize]
  omega

theorem le_bblock (sb : Super) (b : Nat) : sb.bmapstart ≤ sb.bblock b := Nat.le_add_left _ _

theorem Layout.iblock_lt_nmeta {sb : Super} (h : Layout sb) (hi : i < sb.ninodes) :
    sb.iblock i < nmeta sb := by
  have hlt := h.iblock_lt hi
  have hle : sb.bmapstart ≤ nmeta sb := Nat.le_succ_of_le (Nat.le_add_right _ _)
  exact hlt.trans_le hle

theorem nmeta_pos (sb : Super) : 0 < nmeta sb := Nat.succ_pos _

theorem dinode_setBlock (fs : Fs) (hlay : Layout fs.sb) (hc : nmeta fs.sb ≤ c) (hi : i < fs.sb.ninodes) :
    (fs.setBlock c blk).dinode i=fs.dinode i := by
  have hlt := hlay.iblock_lt_nmeta hi
  have hne : fs.sb.iblock i≠c := by omega
  simp only [Fs.dinode,Fs.setBlock,update_of_ne hne]

theorem used_setBlock (fs : Fs) (hc : nmeta fs.sb ≤ c) (hb : b < fs.sb.size) :
    (fs.setBlock c blk).used b=fs.used b := by
  have hlt := bblock_lt hb
  have hne : fs.sb.bblock b≠c := by omega
  simp only [Fs.used,Fs.setBlock,update_of_ne hne]

theorem dinode_mark (fs : Fs) (hlay : Layout fs.sb) (hi : i < fs.sb.ninodes) :
    (fs.mark b).dinode i=fs.dinode i := by
  have hlt := hlay.iblock_lt hi
  have hle := le_bblock fs.sb b
  have hne : fs.sb.iblock i≠fs.sb.bblock b := by omega
  simp only [Fs.dinode,Fs.mark,Fs.setBlock,Fs.logWrite,update_of_ne hne]

theorem used_mark (fs : Fs) (b c : Nat) : (fs.mark b).used c=(decide (c=b) || fs.used c) := by
  by_cases hblock : fs.sb.bblock c=fs.sb.bblock b
  · have hbit := getBit_setBit (fs.block (fs.sb.bblock b)) b c
    simp only [Fs.used,Fs.mark,Fs.setBlock,Fs.logWrite,hblock,update_self,hbit]
    congr 1
    simp only [Super.bblock,bpb,bsize] at hblock ⊢
    exact decide_eq_decide.mpr ⟨fun h => by omega,fun h => by rw [h]⟩
  · have hne : c≠b := fun h => hblock (by rw [h])
    simp only [Fs.used,Fs.mark,Fs.setBlock,Fs.logWrite,update_of_ne hblock,hne,
      decide_false,Bool.false_or]

theorem block_mark (fs : Fs) (hb : b < fs.sb.size) (hc : nmeta fs.sb ≤ c) :
    (fs.mark b).block c=fs.block c := by
  have hlt := bblock_lt hb
  have hne : c≠fs.sb.bblock b := by omega
  simp only [Fs.mark,Fs.setBlock,Fs.logWrite,update_of_ne hne]

theorem dinode_iupdate (hip : ip.Fits) : (iupdate fs inum ip).dinode i=fs.inodes inum ip i := by
  by_cases hi : i=inum
  · subst hi
    simp only [Fs.dinode,iupdate,Fs.setBlock,Fs.logWrite,Fs.inodes,update_self]
    exact getDinode_putDinode hip
  simp only [Fs.inodes,update_of_ne hi]
  by_cases hblock : fs.sb.iblock i=fs.sb.iblock inum
  · have hslot : i%ipb≠inum%ipb := by
      simp only [Super.iblock,ipb] at hblock ⊢
      omega
    simp only [Fs.dinode,iupdate,Fs.setBlock,Fs.logWrite,hblock,update_self]
    exact getDinode_putDinode_of_ne hslot
  · simp only [Fs.dinode,iupdate,Fs.setBlock,Fs.logWrite,update_of_ne hblock]

theorem used_iupdate (hlay : Layout fs.sb) (hi : inum < fs.sb.ninodes) :
    (iupdate fs inum ip).used b=fs.used b := by
  have hlt := hlay.iblock_lt hi
  have hle := le_bblock fs.sb b
  have hne : fs.sb.bblock b≠fs.sb.iblock inum := by omega
  simp only [Fs.used,iupdate,Fs.setBlock,Fs.logWrite,update_of_ne hne]

theorem block_iupdate (hlay : Layout fs.sb) (hi : inum < fs.sb.ninodes) (hc : nmeta fs.sb ≤ c) :
    (iupdate fs inum ip).block c=fs.block c := by
  have hlt := hlay.iblock_lt_nmeta hi
  have hne : c≠fs.sb.iblock inum := by omega
  simp only [iupdate,Fs.setBlock,Fs.logWrite,update_of_ne hne]

section Places
variable {fs' : Fs} {ip' : Dinode}

theorem slot_congr {block block' : Nat → Block} {d : Dinode}
    (h : d.addrs ndirect≠0 → block' (d.addrs ndirect)=block (d.addrs ndirect)) :
    place block' d=place block d := by
  funext x
  cases x with
  | none => rfl
  | some bn =>
    simp only [place,Dinode.slot]
    split
    · rfl
    · split
      · next hbn => rw [h hbn.2]
      · rfl

theorem addr_congr (hsb : fs'.sb=fs.sb)
    (hino : ∀ i < fs.sb.ninodes, fs'.inodes inum ip' i=fs.inodes inum ip i)
    (hblock : ∀ i, fs.addr inum ip i none≠0 →
      fs'.block (fs.addr inum ip i none)=fs.block (fs.addr inum ip i none)) :
    fs'.addr inum ip'=fs.addr inum ip := by
  funext i x
  by_cases hi : i < fs.sb.ninodes
  · by_cases htype : (fs.inodes inum ip i).type≠0
    · have haddr : fs.addr inum ip i none=(fs.inodes inum ip i).addrs ndirect := by
        simp [Fs.addr,hi,htype,place]
      have hb := hblock i
      rw [haddr] at hb
      simp only [Fs.addr,hsb,hino i hi]
      rw [if_pos ⟨hi,htype⟩,if_pos ⟨hi,htype⟩]
      exact congrFun (slot_congr hb) x
    · simp only [Fs.addr,hino i hi,htype,and_false,if_false]
  · simp only [Fs.addr,hsb,hi,false_and,if_false]

theorem byte_congr (haddr : fs'.addr inum ip'=fs.addr inum ip)
    (hblock : ∀ i bn, fs.addr inum ip i (some bn)≠0 →
      fs'.block (fs.addr inum ip i (some bn))=fs.block (fs.addr inum ip i (some bn))) :
    fs'.byte inum ip'=fs.byte inum ip := by
  funext i k
  simp only [Fs.byte,haddr]
  by_cases h0 : fs.addr inum ip i (some (k/bsize))=0
  · rw [if_pos h0,if_pos h0]
  · rw [if_neg h0,if_neg h0,hblock i _ h0]

theorem inodes_congr (h : ∀ i < fs.sb.ninodes, fs'.dinode i=fs.dinode i) :
    ∀ i < fs.sb.ninodes, fs'.inodes inum ip i=fs.inodes inum ip i := by
  intro i hi
  by_cases he : i=inum
  · simp [Fs.inodes,he]
  · simp [Fs.inodes,he,h i hi]

theorem Live.addr (h : Live fs inum ip) : fs.addr inum ip inum x=place fs.block ip x := by
  simp [Fs.addr,Fs.inodes,h.lt,h.type]

theorem Consistent.of_addr {inum' : Nat} (h : Consistent fs inum ip) (hsb : fs'.sb=fs.sb)
    (hused : ∀ b < fs.sb.size, fs.used b=true → fs'.used b=true)
    (haddr : fs'.addr inum' ip'=fs.addr inum ip) : Consistent fs' inum' ip' where
  layout := hsb ▸ h.layout
  reserved b hb := by
    rw [hsb] at hb
    exact hused b (hb.trans_le h.layout.bitmap) (h.reserved b hb)
  area i x hx := by
    rw [haddr] at hx ⊢
    rw [hsb]
    obtain ⟨hlo,hhi,hu⟩ := h.area i x hx
    exact ⟨hlo,hhi,hused _ hhi hu⟩
  once i x j y := by
    rw [haddr]
    exact h.once i x j y

theorem Consistent.of_add (h : Consistent fs inum ip) (hsb : fs'.sb=fs.sb)
    (hused : ∀ c < fs.sb.size, fs.used c=true → fs'.used c=true)
    (hb : nmeta fs.sb ≤ b ∧ b < fs.sb.size ∧ fs'.used b=true)
    (hnew : ∀ i x, fs.addr inum ip i x≠b)
    (haddr : ∀ i y, fs'.addr inum ip' i y = if i=inum ∧ y=x then b else fs.addr inum ip i y) :
    Consistent fs' inum ip' where
  layout := hsb ▸ h.layout
  reserved c hc := by
    rw [hsb] at hc
    exact hused c (hc.trans_le h.layout.bitmap) (h.reserved c hc)
  area i y hy := by
    rw [haddr] at hy ⊢
    rw [hsb]
    by_cases hxy : i=inum ∧ y=x
    · rwa [if_pos hxy]
    · rw [if_neg hxy] at hy ⊢
      obtain ⟨hlo,hhi,hu⟩ := h.area i y hy
      exact ⟨hlo,hhi,hused _ hhi hu⟩
  once i y j z hy heq := by
    rw [haddr] at hy
    rw [haddr,haddr] at heq
    by_cases hiy : i=inum ∧ y=x <;> by_cases hjz : j=inum ∧ z=x
    · exact ⟨hiy.1.trans hjz.1.symm,hiy.2.trans hjz.2.symm⟩
    · rw [if_pos hiy,if_neg hjz] at heq
      exact absurd heq.symm (hnew j z)
    · rw [if_neg hiy,if_pos hjz] at heq
      exact absurd heq (hnew i y)
    · rw [if_neg hiy] at hy
      rw [if_neg hiy,if_neg hjz] at heq
      exact h.once i y j z hy heq

end Places

end Xv6.FileBytes
