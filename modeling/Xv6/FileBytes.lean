import Xv6.DiskFormat
import Xv6.Total

/-! Files down to their bytes, as `kernel/fs.c` keeps them: the blocks as the buffer cache
shows them, the bitmap and the inodes in their blocks, and the block numbers passed to
`log_write`. The inode a function works on is locked; its copy in memory is passed along. -/
namespace Xv6.FileBytes
open Function Xv6.DiskFormat

def maxopblocks : Nat := 10

inductive Panic where
  | bmapOutOfRange
  | dirlookupNotDir
  | dirlookupRead
  | dirlinkRead
  | unlinkWritei
deriving DecidableEq, Repr

/-- `block` is what the cache shows, `logged` the arguments of `log_write`, the latest first.
`busy c b` says that at call number `c` of `balloc` another process has block `b`. -/
structure Fs where
  sb : Super
  block : Nat → Block
  logged : List Nat
  calls : Nat
  busy : Nat → Nat → Bool

def Fs.setBlock (fs : Fs) (b : Nat) (blk : Block) : Fs := { fs with block := update fs.block b blk }

def Fs.logWrite (fs : Fs) (b : Nat) : Fs := { fs with logged := b :: fs.logged }

def Fs.used (fs : Fs) (b : Nat) : Bool := getBit (fs.block (fs.sb.bblock b)) b

def bzero (fs : Fs) (bno : Nat) : Fs := (fs.setBlock bno fun _ => 0).logWrite bno

def Fs.mark (fs : Fs) (b : Nat) : Fs :=
  (fs.setBlock (fs.sb.bblock b) (setBit (fs.block (fs.sb.bblock b)) b)).logWrite (fs.sb.bblock b)

def Fs.firstFree (fs : Fs) : Option Nat :=
  (List.range fs.sb.size).find? fun b => !fs.used b && !fs.busy fs.calls b

/-- `balloc`: 0 if there is no block. -/
def balloc (fs : Fs) : Fs × Nat :=
  match fs.firstFree with
  | none => ({ fs with calls := fs.calls+1 }, 0)
  | some b => (bzero ({ fs with calls := fs.calls+1 }.mark b) b, b)

/-- `ip->addrs[k]`, allocated if it is 0; 0 if there is no block. -/
def mapAddr (fs : Fs) (ip : Dinode) (k : Nat) : Fs × Dinode × Nat :=
  if ip.addrs k=0 then
    match balloc fs with
    | (fs, addr) =>
      if addr=0 then (fs, ip, 0) else (fs, { ip with addrs := update ip.addrs k addr }, addr)
  else (fs, ip, ip.addrs k)

/-- `a[j]` of the indirect block `ind`, allocated if it is 0; 0 if there is no block. -/
def mapWord (fs : Fs) (ind j : Nat) : Fs × Nat :=
  if getWord (fs.block ind) j=0 then
    match balloc fs with
    | (fs, addr) =>
      if addr=0 then (fs, 0)
      else ((fs.setBlock ind (putWord (fs.block ind) j addr)).logWrite ind, addr)
  else (fs, getWord (fs.block ind) j)

def bmap (fs : Fs) (ip : Dinode) (bn : Nat) : Except Panic (Fs × Dinode × Nat) :=
  if bn < ndirect then .ok (mapAddr fs ip bn)
  else if bn-ndirect < nindirect then
    match mapAddr fs ip ndirect with
    | (fs, ip, ind) =>
      if ind=0 then .ok (fs, ip, 0)
      else match mapWord fs ind (bn-ndirect) with
        | (fs, addr) => .ok (fs, ip, addr)
  else .error .bmapOutOfRange

def Fs.dinode (fs : Fs) (inum : Nat) : Dinode := getDinode (fs.block (fs.sb.iblock inum)) (inum%ipb)

def iupdate (fs : Fs) (inum : Nat) (ip : Dinode) : Fs :=
  (fs.setBlock (fs.sb.iblock inum)
    (putDinode (fs.block (fs.sb.iblock inum)) (inum%ipb) ip)).logWrite (fs.sb.iblock inum)

def memmove (dst : Block) (off n : Nat) (src : Nat → UInt8) : Block :=
  fun k => if off ≤ k ∧ k < off+n then src (k-off) else dst k

/-- What a copy reads from: the memory of a process, with the pages that `walkaddr` finds,
or that of the kernel. -/
inductive Source where
  | user (mapped : Nat → Bool) (byte : Nat → UInt8)
  | kernel (byte : Nat → UInt8)

def Source.byte : Source → Nat → UInt8
  | .user _ byte => byte
  | .kernel byte => byte

def copyinFrom (mapped : Nat → Bool) (byte : Nat → UInt8) :
    Block → Nat → Nat → Nat → Nat → Block × Bool
  | dst, _, _, _, 0 => (dst, true)
  | dst, off, srcva, len, k+1 =>
    if len=0 then (dst, true)
    else if mapped (srcva/pgsize) then
      let va0 := srcva-srcva%pgsize
      let n := min (pgsize-(srcva-va0)) len
      copyinFrom mapped byte (memmove dst off n fun j => byte (srcva+j))
        (off+n) (va0+pgsize) (len-n) k
    else (dst, false)

/-- `copyin` to `dst + off`; every round copies a byte at least. -/
def copyin (mapped : Nat → Bool) (byte : Nat → UInt8) (dst : Block) (off srcva len : Nat) :
    Block × Bool :=
  copyinFrom mapped byte dst off srcva len len

def eitherCopyin (src : Source) (dst : Block) (off addr len : Nat) : Block × Bool :=
  match src with
  | .user mapped byte => copyin mapped byte dst off addr len
  | .kernel byte => (memmove dst off len fun j => byte (addr+j), true)

/-- The bytes from `off` on that are in the block of `off`, of the `n - tot` that are left. -/
def piece (n tot off : Nat) : Nat := min (n-tot) (bsize-off%bsize)

/-- The loop of `readi`: what has been read so far is `out`, and `copies` says for which
offsets `either_copyout` succeeds. The result is `tot`, or -1. -/
def readiFrom (copies : Nat → Bool) (n : Nat) :
    Fs → Dinode → Nat → Nat → List UInt8 → Nat → Except Panic (Fs × Dinode × Int × List UInt8)
  | fs, ip, _, tot, out, 0 => .ok (fs, ip, tot, out)
  | fs, ip, off, tot, out, k+1 =>
    if tot < n then do
      let (fs, ip, addr) ← bmap fs ip (off/bsize)
      if addr=0 then .ok (fs, ip, tot, out)
      else
        let m := piece n tot off
        let data := (List.range m).map fun j => fs.block addr (off%bsize+j)
        if copies off then readiFrom copies n fs ip (off+m) (tot+m) (out++data) k
        else .ok (fs, ip, -1, out)
    else .ok (fs, ip, tot, out)

def readi (copies : Nat → Bool) (fs : Fs) (ip : Dinode) (off n : Nat) :
    Except Panic (Fs × Dinode × Int × List UInt8) :=
  if off > ip.size ∨ (off+n)%uint < off then .ok (fs, ip, 0, [])
  else
    let n := if off+n > ip.size then ip.size-off else n
    readiFrom copies n fs ip off 0 [] n

def writeiFrom (src : Source) (n : Nat) :
    Fs → Dinode → Nat → Nat → Nat → Nat → Except Panic (Fs × Dinode × Nat × Nat)
  | fs, ip, _, off, tot, 0 => .ok (fs, ip, off, tot)
  | fs, ip, addr, off, tot, k+1 =>
    if tot < n then do
      let (fs, ip, b) ← bmap fs ip (off/bsize)
      if b=0 then .ok (fs, ip, off, tot)
      else
        let m := piece n tot off
        let (data, copied) := eitherCopyin src (fs.block b) (off%bsize) addr m
        let fs := fs.setBlock b data
        if copied then writeiFrom src n (fs.logWrite b) ip (addr+m) (off+m) (tot+m) k
        else .ok (fs, ip, off, tot)
    else .ok (fs, ip, off, tot)

/-- `writei` to the inode `inum`, with the copy `ip`. -/
def writei (fs : Fs) (inum : Nat) (ip : Dinode) (src : Source) (addr off n : Nat) :
    Except Panic (Fs × Dinode × Int) :=
  if off > ip.size ∨ (off+n)%uint < off then .ok (fs, ip, -1)
  else if off+n > maxfile*bsize then .ok (fs, ip, -1)
  else do
    let (fs, ip, off, tot) ← writeiFrom src n fs ip addr off 0 n
    let ip := if off > ip.size then { ip with size := off } else ip
    .ok (iupdate fs inum ip, ip, tot)

/-- The `struct file` of an inode, with the inode: what `filewrite` works on. -/
structure File where
  writable : Bool
  fs : Fs
  inum : Nat
  ip : Dinode
  off : Nat

/-- `max` of `filewrite`: a few blocks at a time, to avoid exceeding the maximum log
transaction size. -/
def maxChunk : Nat := (maxopblocks-1-1-2)/2*bsize

/-- What `begin_op` and `end_op` of `filewrite` enclose; the result of `writei` is returned. -/
def chunk (f : File) (src : Source) (addr n1 : Nat) : Except Panic (File × Int) := do
  let (fs, ip, r) ← writei { f.fs with logged := [] } f.inum f.ip src addr f.off n1
  .ok ({ f with fs := fs, ip := ip, off := if r > 0 then f.off+r.toNat else f.off }, r)

/-- `n1` of `filewrite`. -/
def chunkLen (n : Int) (i : Nat) : Nat := if n-i > maxChunk then maxChunk else (n-i).toNat

/-- The loop of `filewrite`. With `i` it returns what each transaction passed to `log_write`. -/
def filewriteFrom (src : Source) (addr : Nat) (n : Int) :
    File → Nat → List (List Nat) → Nat → Except Panic (File × Nat × List (List Nat))
  | f, i, ops, 0 => .ok (f, i, ops)
  | f, i, ops, k+1 =>
    if i < n then do
      let (f, r) ← chunk f src (addr+i) (chunkLen n i)
      let ops := ops++[f.fs.logged]
      if r≠chunkLen n i then .ok (f, i, ops)
      else filewriteFrom src addr n f (i+chunkLen n i) ops k
    else .ok (f, i, ops)

/-- `filewrite` for `FD_INODE`. -/
def filewrite (f : File) (src : Source) (addr : Nat) (n : Int) :
    Except Panic (File × Int × List (List Nat)) :=
  if f.writable then do
    let (f, i, ops) ← filewriteFrom src addr n f 0 [] n.toNat
    .ok (f, if i=n then n else -1, ops)
  else .ok (f, -1, [])

end Xv6.FileBytes
