import Xv6.FileSystem
import Xv6.Total
import Mathlib.Algebra.Order.Group.Multiset
import Mathlib.Tactic.Abel

/-! References to inodes: each function of the file system hands out the references that its
caller gets, and puts back all others that it took, also where it fails. -/
namespace Xv6.FileSystem
open Function Xv6.Total
variable {s : Fs} {m : Multiset Inum} {i : Inum}

def Fs.Refs (s : Fs) (m : Multiset Inum) : Prop := ∀ j, s.ref j=m.count j

def Panic.NotFile (e : Panic) : Prop := e≠.filedup ∧ e≠.fileclose

instance Panic.NotFile.decidable : DecidablePred Panic.NotFile :=
  fun _ => inferInstanceAs (Decidable (_ ∧ _))

def got (m : Multiset Inum) : Option Inum → Multiset Inum
  | none => m
  | some i => m + {i}

theorem count_add_single {α : Type} [DecidableEq α] {m : Multiset α} {i j : α} (hj : j≠i) :
    (m+{i}).count j=m.count j := by
  simp [hj]

theorem writeDirent_ref (s : Fs) (dp : Inum) (e : Dirent) : (writeDirent s dp e).1.ref=s.ref := by
  unfold writeDirent
  split
  · rfl
  · split
    · rfl
    · split
      · rfl
      · rfl

variable (h : s.Refs m)
include h

theorem Fs.Refs.setRef {n : Int} {m' : Multiset Inum} (hn : n=m'.count i)
    (hother : ∀ j≠i, m'.count j=m.count j) : (s.setRef i n).Refs m' := by
  intro j
  by_cases hj : j=i
  · rw [hj,← hn]
    exact update_self ..
  · rw [hother j hj,← h j]
    exact update_of_ne hj ..

theorem Fs.Refs.setInode (x : Inode) : (s.setInode i x).Refs m := h

theorem Fs.Refs.countDotdot (type : InodeType) (d : Int) : (s.countDotdot i type d).Refs m := by
  unfold Fs.countDotdot
  split
  · exact h
  · exact h

theorem Fs.Refs.idup : (idup s i).Refs (m+{i}) :=
  h.setRef (by simp [h i]) fun _ => count_add_single

theorem Fs.Refs.iget : Ends Panic.NotFile (iget s i) fun t => t.Refs (m+{i}) := by
  unfold FileSystem.iget
  split
  · exact .ok h.idup
  · next hpos =>
    have hzero : m.count i=0 := by
      have := h i
      omega
    split
    · exact .error (by decide)
    · exact .ok (h.setRef (by simp [hzero]) fun _ => count_add_single)

theorem Fs.Refs.ilock : Ends Panic.NotFile (ilock s i) fun t => t.Refs m := by
  unfold FileSystem.ilock
  split
  · exact .error (by decide)
  · split
    · exact .ok h
    · split
      · exact .error (by decide)
      · exact .ok h

omit h in
theorem Fs.Refs.iput (h : s.Refs (m+{i})) : (iput s i).Refs m := by
  have hderef : (s.setRef i (s.ref i-1)).Refs m :=
    h.setRef (by simp [h i]) fun _ hj => (count_add_single hj).symm
  unfold FileSystem.iput
  split
  · exact hderef
  · exact hderef

theorem Fs.Refs.ialloc (type : InodeType) :
    Ends Panic.NotFile (ialloc s type) fun r => r.1.Refs (got m r.2) := by
  unfold FileSystem.ialloc
  split
  · exact .ok h
  · exact Ends.bind (Fs.Refs.iget h) fun t ht => .ok ht

theorem Fs.Refs.dirlookup (dp : Inum) (name : Name) :
    Ends Panic.NotFile (dirlookup s dp name) fun r => r.1.Refs (got m (r.2.map Prod.snd)) := by
  unfold FileSystem.dirlookup
  split
  · exact .error (by decide)
  · split
    · exact .ok h
    · exact h.iget.bind fun t ht => .ok ht

theorem Fs.Refs.dirlink (dp : Inum) (name : Name) (inum : Inum) :
    Ends Panic.NotFile (dirlink s dp name inum) fun r => r.1.Refs m := by
  refine (h.dirlookup dp name).bind fun r hr => ?_
  obtain ⟨t,found⟩ := r
  cases found with
  | none =>
    refine .ok fun j => ?_
    rw [writeDirent_ref]
    exact hr j
  | some x => exact .ok hr.iput

omit h in
theorem Fs.Refs.namexFrom (parent : Bool) (names : List Name) {ip : Inum} (h : s.Refs (m+{ip})) :
    Ends Panic.NotFile (namexFrom parent s ip names) fun r => r.1.Refs (got m (r.2.map Prod.fst)) := by
  induction names generalizing s ip with
  | nil =>
    cases parent with
    | false => exact .ok h
    | true => exact .ok h.iput
  | cons name rest ih =>
    refine h.ilock.bind fun t ht => ?_
    split
    · exact .ok ht.iput
    · split
      · exact .ok ht
      · refine (ht.dirlookup ip name).bind fun r hr => ?_
        obtain ⟨u,found⟩ := r
        cases found with
        | none => exact .ok hr.iput
        | some x =>
          -- the directory is put before the entry found in it is looked at
          have hswap : u.Refs (m+{x.2}+{ip}) := by
            rw [add_right_comm]
            exact hr
          exact ih hswap.iput

theorem Fs.Refs.namex (parent : Bool) (cwd : Inum) (path : List UInt8) :
    Ends Panic.NotFile (namex parent s cwd path) fun r => r.1.Refs (got m (r.2.map Prod.fst)) := by
  unfold FileSystem.namex
  split
  · exact h.iget.bind fun t ht => ht.namexFrom parent _
  · exact h.idup.namexFrom parent _

theorem Fs.Refs.namei (cwd : Inum) (path : List UInt8) :
    Ends Panic.NotFile (namei s cwd path) fun r => r.1.Refs (got m r.2) :=
  (h.namex false cwd path).bind fun _ hr => .ok hr

theorem Fs.Refs.createLinks (dp ip : Inum) (name : Name) (type : InodeType) :
    Ends Panic.NotFile (createLinks s dp ip name type) fun r => r.1.Refs m := by
  unfold FileSystem.createLinks
  split
  · refine (h.dirlink ip dot ip).bind fun r hr => ?_
    obtain ⟨t,ok⟩ := r
    cases ok with
    | false => exact .ok hr
    | true =>
      refine Ends.bind (Fs.Refs.dirlink hr ip dotdot dp) fun r hr => ?_
      obtain ⟨u,ok⟩ := r
      cases ok with
      | false => exact .ok hr
      | true => exact Fs.Refs.dirlink hr dp name ip
  · exact h.dirlink dp name ip

omit h in
theorem Fs.Refs.createNew {dp : Inum} (h : s.Refs (m+{dp})) (name : Name) (type : InodeType)
    (major minor : Int) :
    Ends Panic.NotFile (createNew s dp name type major minor) fun r => r.1.Refs (got m r.2) := by
  refine (h.ialloc type).bind fun r hr => ?_
  obtain ⟨t,r⟩ := r
  cases r with
  | none => exact .ok hr.iput
  | some ip =>
    refine Ends.bind (Fs.Refs.ilock hr) fun u hu => ?_
    refine ((hu.setInode _).createLinks dp ip name type).bind fun r hr => ?_
    obtain ⟨v,ok⟩ := r
    cases ok with
    | false => exact .ok (Fs.Refs.iput (Fs.Refs.iput hr))
    | true =>
      have hswap : v.Refs (m+{ip}+{dp}) := by
        rw [add_right_comm]
        exact hr
      exact .ok (hswap.countDotdot type 1).iput

theorem Fs.Refs.create (cwd : Inum) (path : List UInt8) (type : InodeType) (major minor : Int) :
    Ends Panic.NotFile (create s cwd path type major minor) fun r => r.1.Refs (got m r.2) := by
  refine (h.namex true cwd path).bind fun r hr => ?_
  obtain ⟨t,r⟩ := r
  cases r with
  | none => exact .ok hr
  | some x =>
    obtain ⟨dp,name⟩ := x
    refine Ends.bind (Fs.Refs.ilock hr) fun u hu => ?_
    refine (hu.dirlookup dp name).bind fun r hr => ?_
    obtain ⟨v,found⟩ := r
    cases found with
    | none => exact Fs.Refs.createNew hr name type major minor
    | some y =>
      have hswap : v.Refs (m+{y.2}+{dp}) := by
        rw [add_right_comm]
        exact hr
      refine hswap.iput.ilock.bind fun w hw => ?_
      split
      · exact .ok hw
      · exact .ok hw.iput

theorem Fs.Refs.createOnly (cwd : Inum) (path : List UInt8) (type : InodeType) (major minor : Int) :
    Ends Panic.NotFile (createOnly s cwd path type major minor) fun r => r.1.Refs m := by
  refine (h.create cwd path type major minor).bind fun r hr => ?_
  obtain ⟨t,r⟩ := r
  cases r with
  | none => exact .ok hr
  | some ip => exact .ok hr.iput

theorem Fs.Refs.linkNew (cwd : Inum) (new : List UInt8) (ip : Inum) :
    Ends Panic.NotFile (linkNew s cwd new ip) fun r => r.1.Refs m := by
  refine (h.namex true cwd new).bind fun r hr => ?_
  obtain ⟨t,r⟩ := r
  cases r with
  | none => exact .ok hr
  | some x =>
    refine Ends.bind (Fs.Refs.ilock hr) fun u hu => ?_
    exact (hu.dirlink x.1 x.2 ip).bind fun r hr => .ok hr.iput

theorem Fs.Refs.sysLink (cwd : Inum) (old new : List UInt8) :
    Ends Panic.NotFile (sysLink s cwd old new) fun r => r.1.Refs m := by
  refine (h.namei cwd old).bind fun r hr => ?_
  obtain ⟨t,r⟩ := r
  cases r with
  | none => exact .ok hr
  | some ip =>
    refine Ends.bind (Fs.Refs.ilock hr) fun u hu => ?_
    split
    · exact .ok hu.iput
    · refine ((hu.setInode _).linkNew cwd new ip).bind fun r hr => ?_
      obtain ⟨v,ok⟩ := r
      cases ok with
      | false => exact Ends.bind (Fs.Refs.ilock hr) fun w hw => .ok (Fs.Refs.iput hw)
      | true => exact .ok (Fs.Refs.iput hr)

omit h in
theorem Fs.Refs.unlinkFound {dp ip : Inum} (h : s.Refs (m+{dp}+{ip})) (off : Nat) :
    Ends Panic.NotFile (unlinkFound s dp off ip) fun r => r.1.Refs m := by
  refine h.ilock.bind fun t ht => ?_
  have hswap : t.Refs (m+{ip}+{dp}) := by
    rw [add_right_comm]
    exact ht
  split
  · exact .error (by decide)
  · split
    · exact .ok (Fs.Refs.iput (Fs.Refs.iput ht))
    · exact .ok (Fs.Refs.iput ((hswap.setInode _).countDotdot _ _).iput)

theorem Fs.Refs.sysUnlink (cwd : Inum) (path : List UInt8) :
    Ends Panic.NotFile (sysUnlink s cwd path) fun r => r.1.Refs m := by
  refine (h.namex true cwd path).bind fun r hr => ?_
  obtain ⟨t,r⟩ := r
  cases r with
  | none => exact .ok hr
  | some x =>
    obtain ⟨dp,name⟩ := x
    refine Ends.bind (Fs.Refs.ilock hr) fun u hu => ?_
    split
    · exact .ok hu.iput
    · refine (hu.dirlookup dp name).bind fun r hr => ?_
      obtain ⟨v,found⟩ := r
      cases found with
      | none => exact .ok hr.iput
      | some y => exact Fs.Refs.unlinkFound hr y.1

end Xv6.FileSystem
