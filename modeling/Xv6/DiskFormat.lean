import Xv6.Param
import Xv6.LittleEndian
import Mathlib.Data.Nat.Bitwise

/-! The format of the disk, `kernel/fs.h`: blocks of bytes, the inodes in them, and the words
of an indirect block. `mkfs` and the kernel share it. -/
namespace Xv6.DiskFormat
open Function Xv6.LittleEndian

/-- `sizeof(struct dinode)` -/
def dinodeSize : Nat := 64
def ipb : Nat := 16
def bpb : Nat := bsize*8
def uint : Nat := 2 ^ 32
def ushort : Nat := 2 ^ 16

abbrev Block : Type := Nat → UInt8

/-- The fields of `struct superblock` that say where things are. -/
structure Super where
  size : Nat
  nblocks : Nat
  ninodes : Nat
  nlog : Nat
  logstart : Nat
  inodestart : Nat
  bmapstart : Nat
deriving DecidableEq, Repr

/-- `IBLOCK(i, sb)` -/
def Super.iblock (sb : Super) (i : Nat) : Nat := i/ipb+sb.inodestart

/-- `BBLOCK(b, sb)` -/
def Super.bblock (sb : Super) (b : Nat) : Nat := b/bpb+sb.bmapstart

def tDir : Nat := 1
def tFile : Nat := 2

/-- A `struct dinode`, and the part of a `struct inode` that is a copy of one. -/
@[ext]
structure Dinode where
  type : Nat
  major : Nat
  minor : Nat
  nlink : Nat
  size : Nat
  addrs : Nat → Nat

def getWord (b : Block) (j : Nat) : Nat := get b (4*j) 4

def putWord (b : Block) (j v : Nat) : Block := put b (4*j) 4 v

def getDinode (b : Block) (k : Nat) : Dinode :=
  let off := dinodeSize*k
  { type := get b off 2
    major := get b (off+2) 2
    minor := get b (off+4) 2
    nlink := get b (off+6) 2
    size := get b (off+8) 4
    addrs := fun j => if j ≤ ndirect then get b (off+12+4*j) 4 else 0 }

def putWords (b : Block) (off : Nat) (f : Nat → Nat) : Nat → Block
  | 0 => b
  | n+1 => put (putWords b off f n) (off+4*n) 4 (f n)

def putDinode (b : Block) (k : Nat) (d : Dinode) : Block :=
  let off := dinodeSize*k
  let b := put b off 2 d.type
  let b := put b (off+2) 2 d.major
  let b := put b (off+4) 2 d.minor
  let b := put b (off+6) 2 d.nlink
  let b := put b (off+8) 4 d.size
  putWords b (off+12) d.addrs (ndirect+1)

def Dinode.slot (block : Nat → Block) (d : Dinode) (bn : Nat) : Nat :=
  if bn < ndirect then d.addrs bn
  else if bn < maxfile ∧ d.addrs ndirect≠0 then getWord (block (d.addrs ndirect)) (bn-ndirect)
  else 0

def getBit (blk : Block) (b : Nat) : Bool := (blk (b%bpb/8)).toNat &&& 2 ^ (b%8)≠0

def setBit (blk : Block) (b : Nat) : Block :=
  update blk (b%bpb/8) (UInt8.ofNat ((blk (b%bpb/8)).toNat ||| 2 ^ (b%8)))

/-- The values of the fields fit in the bytes they have. -/
structure Dinode.Fits (d : Dinode) : Prop where
  type : d.type < ushort
  major : d.major < ushort
  minor : d.minor < ushort
  nlink : d.nlink < ushort
  size : d.size < uint
  addrs : ∀ j, d.addrs j < uint
  rest : ∀ j, ndirect < j → d.addrs j=0

section Words
variable {b c : Block} {off n j k v : Nat} {f : Nat → Nat}

theorem putWords_of_not_mem (hk : k < off ∨ off+4*n ≤ k) : putWords b off f n k=b k := by
  induction n with
  | zero => rfl
  | succ n ih =>
    rw [putWords,put_of_not_mem (by omega)]
    exact ih (by omega)

theorem get_putWords (hj : j < n) (hf : f j < uint) :
    get (putWords b off f n) (off+4*j) 4=f j := by
  induction n with
  | zero => omega
  | succ n ih =>
    rw [putWords]
    rcases Nat.lt_or_eq_of_le (Nat.le_of_lt_succ hj) with hlt | rfl
    · rw [get_put_of_disjoint (by omega)]
      exact ih hlt
    · exact get_put_of_lt hf

theorem getWord_putWord (hv : v < uint) : getWord (putWord b j v) j=v := get_put_of_lt hv

theorem getWord_putWord_of_ne (h : k≠j) : getWord (putWord b j v) k=getWord b k :=
  get_put_of_disjoint (by omega)

@[simp] theorem getWord_zero (j : Nat) : getWord (fun _ => 0) j=0 := get_zero fun _ _ _ => rfl

end Words

section Dinodes
variable {b c : Block} {j k : Nat} {d : Dinode}

theorem getDinode_fits (b : Block) (k : Nat) : (getDinode b k).Fits where
  type := get_lt b _ 2
  major := get_lt b _ 2
  minor := get_lt b _ 2
  nlink := get_lt b _ 2
  size := get_lt b _ 4
  addrs j := by
    simp only [getDinode]
    split
    · exact get_lt b _ 4
    · decide
  rest j hj := if_neg (by omega)

theorem putDinode_of_not_mem (hj : j < dinodeSize*k ∨ dinodeSize*k+dinodeSize ≤ j) :
    putDinode b k d j=b j := by
  simp only [dinodeSize] at hj
  simp only [putDinode,dinodeSize,ndirect]
  rw [putWords_of_not_mem (by omega),put_of_not_mem (by omega),put_of_not_mem (by omega),
    put_of_not_mem (by omega),put_of_not_mem (by omega),put_of_not_mem (by omega)]

theorem getDinode_congr (h : ∀ j, dinodeSize*k ≤ j → j < dinodeSize*k+dinodeSize → b j=c j) :
    getDinode b k=getDinode c k := by
  have hget (a n : Nat) (han : a+n ≤ dinodeSize) :
      get b (dinodeSize*k+a) n=get c (dinodeSize*k+a) n :=
    get_congr fun i hi hi' => h i (by omega) (by omega)
  have haddrs (j : Nat) (hj : j ≤ ndirect) :
      get b (dinodeSize*k+12+4*j) 4=get c (dinodeSize*k+12+4*j) 4 := by
    rw [Nat.add_assoc]
    exact hget (12+4*j) 4 (by simp only [ndirect,dinodeSize] at *; omega)
  ext j
  · exact hget 0 2 (by decide)
  · exact hget 2 2 (by decide)
  · exact hget 4 2 (by decide)
  · exact hget 6 2 (by decide)
  · exact hget 8 4 (by decide)
  · by_cases hj : j ≤ ndirect
    · simp only [getDinode,if_pos hj,haddrs j hj]
    · simp only [getDinode,if_neg hj]

theorem getDinode_putDinode_of_ne (h : j≠k) : getDinode (putDinode b k d) j=getDinode b j := by
  refine getDinode_congr fun i hi hi' => putDinode_of_not_mem ?_
  simp only [dinodeSize] at hi hi' ⊢
  omega

theorem getDinode_putDinode (hd : d.Fits) : getDinode (putDinode b k d) k=d := by
  -- each field is read past the fields stored after it
  have hpast {c : Block} {a n : Nat} (han : a+n≤12) :
      get (putWords c (dinodeSize*k+12) d.addrs (ndirect+1)) (dinodeSize*k+a) n =
        get c (dinodeSize*k+a) n :=
    get_congr fun i hi hi' => putWords_of_not_mem (.inl (by omega))
  ext j
  · refine (hpast (a := 0) (by decide)).trans ?_
    rw [get_put_of_disjoint (by omega),get_put_of_disjoint (by omega),
      get_put_of_disjoint (by omega),get_put_of_disjoint (by omega)]
    exact get_put_of_lt hd.type
  · refine (hpast (a := 2) (by decide)).trans ?_
    rw [get_put_of_disjoint (by omega),get_put_of_disjoint (by omega),
      get_put_of_disjoint (by omega)]
    exact get_put_of_lt hd.major
  · refine (hpast (a := 4) (by decide)).trans ?_
    rw [get_put_of_disjoint (by omega),get_put_of_disjoint (by omega)]
    exact get_put_of_lt hd.minor
  · refine (hpast (a := 6) (by decide)).trans ?_
    rw [get_put_of_disjoint (by omega)]
    exact get_put_of_lt hd.nlink
  · exact (hpast (a := 8) (by decide)).trans (get_put_of_lt hd.size)
  · by_cases hj : j ≤ ndirect
    · simp only [getDinode,putDinode,if_pos hj]
      exact get_putWords (Nat.lt_succ_of_le hj) (hd.addrs j)
    · simp only [getDinode,if_neg hj,hd.rest j (Nat.lt_of_not_le hj)]

end Dinodes

theorem getBit_eq_testBit (blk : Block) (b : Nat) :
    getBit blk b=(blk (b%bpb/8)).toNat.testBit (b%8) := by
  unfold getBit
  rw [Nat.and_two_pow]
  cases (blk (b%bpb/8)).toNat.testBit (b%8) <;> simp

theorem getBit_setBit (blk : Block) (b b' : Nat) :
    getBit (setBit blk b) b'=(decide (b'%bpb=b%bpb) || getBit blk b') := by
  have hlow (x : Nat) : x%8=x%bpb%8 := (Nat.mod_mod_of_dvd x (by decide)).symm
  rw [getBit_eq_testBit,getBit_eq_testBit]
  by_cases hbyte : b'%bpb/8=b%bpb/8
  · have hlt : (blk (b%bpb/8)).toNat ||| 2^(b%8)<256 :=
      Nat.or_lt_two_pow (n := 8) (blk (b%bpb/8)).toNat_lt
        (Nat.pow_lt_pow_right (by decide) (Nat.mod_lt _ (by decide)))
    rw [setBit,hbyte,update_self,UInt8.toNat_ofNat_of_lt' hlt,Nat.testBit_or,
      Nat.testBit_two_pow,Bool.or_comm]
    congr 1
    rw [hlow b,hlow b']
    exact decide_eq_decide.mpr (by omega)
  · rw [setBit,update_of_ne hbyte]
    have hne : b'%bpb≠b%bpb := fun h => hbyte (by rw [h])
    simp [hne]

end Xv6.DiskFormat
