import Xv6.FileBytes

/-! Directories down to their bytes, as `kernel/fs.c` keeps them: entries of 16 bytes that are
read and written as any other bytes of a file. The inode that `dirlookup` finds is given by
its number. -/
namespace Xv6.FileBytes
open Function Xv6.DiskFormat Xv6.LittleEndian

abbrev Str : Type := Nat → UInt8

def strncmp (p q : Str) : Nat → Int
  | 0 => 0
  | n+1 =>
    if p 0≠0 ∧ p 0=q 0 then strncmp (fun j => p (j+1)) (fun j => q (j+1)) n
    else (p 0).toNat-(q 0).toNat

def strncpy (t : Str) : Nat → List UInt8
  | 0 => []
  | n+1 => t 0 :: if t 0=0 then List.replicate n 0 else strncpy (fun j => t (j+1)) n

def namecmp (s t : Str) : Int := strncmp s t dirsiz

/-- `de.inum` -/
def direntInum (de : List UInt8) : Nat := get (fun j => de.getD j 0) 0 2

/-- `de.name` -/
def direntName (de : List UInt8) : Str := fun j => de.getD (2+j) 0

def direntBytes (inum : Nat) (name : Str) : Nat → UInt8 :=
  put (fun j => (strncpy name dirsiz).getD (j-2) 0) 0 2 inum

/-- The loop of `dirlookup`: the offset of the entry, and its inode. -/
def dirlookupFrom (name : Str) :
    Fs → Dinode → Nat → Nat → Except Panic (Fs × Dinode × Option (Nat × Nat))
  | fs, dp, _, 0 => .ok (fs, dp, none)
  | fs, dp, off, k+1 =>
    if off < dp.size then do
      let (fs, dp, r, de) ← readi (fun _ => true) fs dp off direntSize
      if r≠direntSize then .error .dirlookupRead
      else if direntInum de≠0 ∧ namecmp name (direntName de)=0 then
        .ok (fs, dp, some (off, direntInum de))
      else dirlookupFrom name fs dp (off+direntSize) k
    else .ok (fs, dp, none)

def dirlookup (fs : Fs) (dp : Dinode) (name : Str) : Except Panic (Fs × Dinode × Option (Nat × Nat)) :=
  if dp.type≠tDir then .error .dirlookupNotDir else dirlookupFrom name fs dp 0 dp.size

/-- The search of `dirlink` for an empty entry: where it ends. -/
def emptyFrom : Fs → Dinode → Nat → Nat → Except Panic (Fs × Dinode × Nat)
  | fs, dp, off, 0 => .ok (fs, dp, off)
  | fs, dp, off, k+1 =>
    if off < dp.size then do
      let (fs, dp, r, de) ← readi (fun _ => true) fs dp off direntSize
      if r≠direntSize then .error .dirlinkRead
      else if direntInum de=0 then .ok (fs, dp, off)
      else emptyFrom fs dp (off+direntSize) k
    else .ok (fs, dp, off)

/-- `dirlink` in the directory `dnum`, with the copy `dp`. -/
def dirlink (fs : Fs) (dnum : Nat) (dp : Dinode) (name : Str) (inum : Nat) :
    Except Panic (Fs × Dinode × Int) := do
  let (fs, dp, found) ← dirlookup fs dp name
  if found.isSome then .ok (fs, dp, -1)
  else
    let (fs, dp, off) ← emptyFrom fs dp 0 dp.size
    let (fs, dp, r) ← writei fs dnum dp (.kernel (direntBytes inum name)) 0 off direntSize
    if r≠direntSize then .ok (fs, dp, -1) else .ok (fs, dp, 0)

/-- The part of `sys_unlink` that removes the entry: -1 if there is none. -/
def dirunlink (fs : Fs) (dnum : Nat) (dp : Dinode) (name : Str) : Except Panic (Fs × Dinode × Int) := do
  let (fs, dp, found) ← dirlookup fs dp name
  match found with
  | none => .ok (fs, dp, -1)
  | some (off, _) =>
    let (fs, dp, r) ← writei fs dnum dp (.kernel fun _ => 0) 0 off direntSize
    if r≠direntSize then .error .unlinkWritei else .ok (fs, dp, 0)

structure Dir where
  fs : Fs
  inum : Nat
  dp : Dinode

inductive DirOp where
  | link (name : Str) (inum : Nat)
  | unlink (name : Str)

def DirOp.exec (d : Dir) : DirOp → Except Panic (Fs × Dinode × Int)
  | .link name inum => dirlink d.fs d.inum d.dp name inum
  | .unlink name => dirunlink d.fs d.inum d.dp name

def DirOp.Fits : DirOp → Prop
  | .link _ inum => 0 < inum ∧ inum < ushort
  | .unlink _ => True

instance : DecidablePred DirOp.Fits
  | .link _ inum => inferInstanceAs (Decidable (0 < inum ∧ inum < ushort))
  | .unlink _ => inferInstanceAs (Decidable True)

def dirStep (d : Dir) (op : DirOp) : Option Dir :=
  if op.Fits then
    match op.exec d with
    | .ok (fs, dp, _) => some { d with fs := fs, dp := dp }
    | .error _ => none
  else none

end Xv6.FileBytes
