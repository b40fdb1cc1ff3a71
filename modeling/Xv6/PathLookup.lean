import Xv6.PathWalk
import Mathlib.Data.List.TakeWhile

/-! `namei` and `nameiparent` with the locks that they take and the buffer for the name. No other
process runs: a lock that is held is held by the caller, who would wait for it forever. -/
namespace Xv6.PathLookup
open Function Xv6.FileSystem Xv6.Total
variable {fs : Fs} {ip : Inum} {path name : List UInt8}

/-- Why a call does not return: a panic, `iunlock` of an inode that is not locked, or waiting for
a lock. The last is not one of the source: the steps given were not enough. -/
inductive Stop where
  | panic (e : Panic)
  | iunlock
  | sleep
  | fuel
deriving DecidableEq, Repr

structure State where
  fs : Fs
  locked : Inum → Bool

def State.lift {α : Type} (s : State) (x : Except Panic (Fs × α)) : Except Stop (State × α) :=
  match x with
  | .error e => .error (.panic e)
  | .ok (fs, a) => .ok ({ s with fs := fs }, a)

def ilock (s : State) (i : Inum) : Except Stop State :=
  if s.fs.ref i < 1 then .error (.panic .ilock)
  else if s.locked i then .error .sleep
  else
    match FileSystem.ilock s.fs i with
    | .error e => .error (.panic e)
    | .ok fs => .ok ⟨fs,update s.locked i true⟩

def iunlock (s : State) (i : Inum) : Except Stop State :=
  if !s.locked i ∨ s.fs.ref i < 1 then .error .iunlock
  else .ok { s with locked := update s.locked i false }

def iput (s : State) (i : Inum) : Except Stop State :=
  if s.fs.ref i=1 ∧ s.fs.valid i ∧ (s.fs.inode i).nlink=0 ∧ s.locked i then .error .sleep
  else .ok { s with fs := FileSystem.iput s.fs i }

def iunlockput (s : State) (i : Inum) : Except Stop State := do
  let s ← iunlock s i
  iput s i

/-- `skipelem`, with the buffer `name` of `DIRSIZ` bytes. -/
def skipelem (path name : List UInt8) : Option (List UInt8 × List UInt8) :=
  let s := path.dropWhile (· = slash)
  if s=[] then none
  else
    let path := s.dropWhile (· ≠ slash)
    let len := s.length-path.length
    let name := if dirsiz ≤ len then s.take dirsiz else s.take len++0 :: name.drop (len+1)
    some (path.dropWhile (· = slash), name)

/-- What `strncmp` sees of a name. -/
def text (name : List UInt8) : Name := (name.take dirsiz).takeWhile (· ≠ 0)

def namexLoop (parent : Bool) : Nat → State → Inum → List UInt8 → List UInt8 →
    Except Stop (State × Option Inum × List UInt8)
  | 0, _, _, _, _ => .error .fuel
  | n+1, s, ip, path, name =>
    match skipelem path name with
    | none =>
      if parent then do
        let s ← iput s ip
        .ok (s, none, name)
      else .ok (s, some ip, name)
    | some (path, name) => do
      let s ← ilock s ip
      if (s.fs.inode ip).type≠.dir then do
        let s ← iunlockput s ip
        .ok (s, none, name)
      else if parent ∧ path=[] then do
        -- stop one level early
        let s ← iunlock s ip
        .ok (s, some ip, name)
      else do
        let (s, found) ← s.lift (dirlookup s.fs ip (text name))
        match found with
        | none => do
          let s ← iunlockput s ip
          .ok (s, none, name)
        | some (_, next) => do
          let s ← iunlockput s ip
          namexLoop parent n s next path name

def namex (parent : Bool) (s : State) (cwd : Inum) (path name : List UInt8) :
    Except Stop (State × Option Inum × List UInt8) :=
  if path.head?=some slash then do
    let (s, _) ← s.lift ((iget s.fs rootino).map fun fs => (fs, ()))
    namexLoop parent (path.length+1) s rootino path name
  else namexLoop parent (path.length+1) { s with fs := idup s.fs cwd } cwd path name

/-- `name` is what the array on the stack happens to hold. -/
def namei (s : State) (cwd : Inum) (path name : List UInt8) : Except Stop (State × Option Inum) := do
  let (s, r, _) ← namex false s cwd path name
  .ok (s, r)

def nameiparent (s : State) (cwd : Inum) (path name : List UInt8) :
    Except Stop (State × Option Inum × List UInt8) := namex true s cwd path name

theorem takeWhile_nonzero {w : List UInt8} (h : ∀ x∈w, x≠0) (rest : List UInt8) :
    (w++0::rest).takeWhile (· ≠ 0)=w := by
  rw [List.takeWhile_append_of_pos (by simpa using h),List.takeWhile_cons_of_neg (by simp),
    List.append_nil]

theorem text_long {w : List UInt8} (h : ∀ x∈w, x≠0) : text (w.take dirsiz)=w.take dirsiz := by
  rw [text,List.take_take,min_self,List.takeWhile_eq_self_iff]
  intro x hx
  simpa using h x (List.mem_of_mem_take hx)

theorem text_short {w : List UInt8} (h : ∀ x∈w, x≠0) (hlen : w.length < dirsiz)
    (rest : List UInt8) : text (w++0::rest)=w := by
  obtain ⟨k,hk⟩ : ∃ k, dirsiz-w.length=k+1 := ⟨dirsiz-w.length-1,by omega⟩
  rw [text,List.take_append,List.take_of_length_le hlen.le,hk,List.take_succ_cons]
  exact takeWhile_nonzero h _

/-- The buffer holds the component that `skipelem` has taken off the path, whatever it held
before. -/
theorem skipelem_eq (h : 0∉path) (name : List UInt8) :
    (skipelem path name).map (fun r => (text r.2, r.1))=FileSystem.skipelem path := by
  have hmem : ∀ x∈path.dropWhile (· = slash), x≠0 := by
    rintro x hx rfl
    exact h ((List.dropWhile_sublist _).mem hx)
  unfold skipelem FileSystem.skipelem
  cases hs : path.dropWhile (· = slash) with
  | nil => rfl
  | cons c rest =>
    rw [hs] at hmem
    have hsplit := List.takeWhile_append_dropWhile (p := (· ≠ slash)) (l := c::rest)
    simp only [reduceCtorEq,if_false,Option.map_some]
    generalize (c::rest).takeWhile (· ≠ slash)=w at hsplit ⊢
    generalize (c::rest).dropWhile (· ≠ slash)=d at hsplit ⊢
    rw [← hsplit] at hmem ⊢
    have hw : ∀ x∈w, x≠0 := fun x hx => hmem x (List.mem_append_left d hx)
    have hlen : (w++d).length-d.length=w.length := by simp
    rw [hlen,List.take_left]
    by_cases hlong : dirsiz ≤ w.length
    · rw [if_pos hlong,List.take_append_of_le_length hlong,text_long hw]
    · rw [if_neg hlong,text_short hw (by omega),List.take_of_length_le (by omega)]

def unlocked : Inum → Bool := fun _ => false

theorem update_unlocked (i : Inum) : update (update unlocked i true) i false=unlocked := by
  rw [update_idem]
  exact update_eq_self ..

theorem ilock_unlocked (fs : Fs) (i : Inum) : ilock ⟨fs,unlocked⟩ i =
    match FileSystem.ilock fs i with
    | .error e => .error (.panic e)
    | .ok fs => .ok ⟨fs,update unlocked i true⟩ := by
  unfold ilock
  split
  · next href => rw [FileSystem.ilock,if_pos href]
  · rfl

theorem iput_unlocked (fs : Fs) (i : Inum) :
    iput ⟨fs,unlocked⟩ i=.ok ⟨FileSystem.iput fs i,unlocked⟩ := by
  rw [iput,if_neg]
  rintro ⟨-,-,-,hlocked⟩
  cases hlocked

theorem iunlock_locked {i : Inum} (h : 0 < fs.ref i) :
    iunlock ⟨fs,update unlocked i true⟩ i=.ok ⟨fs,unlocked⟩ := by
  rw [iunlock,if_neg,update_unlocked]
  simp
  omega

theorem iunlockput_locked {i : Inum} (h : 0 < fs.ref i) :
    iunlockput ⟨fs,update unlocked i true⟩ i=.ok ⟨FileSystem.iput fs i,unlocked⟩ := by
  rw [iunlockput,iunlock_locked h]
  exact iput_unlocked fs i

theorem ilock_ref {fs' : Fs} {i : Inum} (h : FileSystem.ilock fs i=.ok fs') : 0 < fs'.ref i := by
  unfold FileSystem.ilock at h
  split at h
  · cases h
  · next href =>
    have hpos : 0 < fs.ref i := by omega
    split at h
    · cases h
      exact hpos
    · split at h
      · cases h
      · cases h
        exact hpos

theorem iget_ref {fs' : Fs} {i j : Inum} (h : iget fs i=.ok fs') (hj : 0 < fs.ref j) :
    0 < fs'.ref j := by
  have hle : ∀ n, 0 < n → 0 < update fs.ref i n j := fun n hn => by
    by_cases heq : j=i
    · rw [heq,update_self]
      exact hn
    · rwa [update_of_ne heq]
  unfold iget at h
  split at h
  · next hpos =>
    cases h
    exact hle _ (by omega)
  · split at h
    · cases h
    · cases h
      exact hle 1 (by omega)

theorem dirlookup_ref {fs' : Fs} {found : Option (Nat × Inum)} {c : Name}
    (h : dirlookup fs ip c=.ok (fs', found)) (hpos : 0 < fs.ref ip) : 0 < fs'.ref ip := by
  unfold dirlookup at h
  split at h
  · cases h
  · split at h
    · cases h
      exact hpos
    · obtain ⟨t,hget,h⟩ := bind_eq_ok.mp h
      cases h
      exact iget_ref hget hpos

/-- The call with locks and the buffer does what the one without them does. -/
def Matches (parent : Bool) (y : Except Panic (Fs × Option (Inum × Name)))
    (x : Except Stop (State × Option Inum × List UInt8)) : Prop :=
  match y with
  | .error e => x=.error (.panic e)
  | .ok (fs, r) => ∃ name, x=.ok (⟨fs,unlocked⟩, r.map Prod.fst, name) ∧
      (parent=true → ∀ i c, r=some (i, c) → text name=c)

theorem namexLoop_matches {n : Nat} (parent : Bool) (h0 : 0∉path) (hn : path.length < n) :
    Matches parent (namexFrom parent fs ip (components path))
      (namexLoop parent n ⟨fs,unlocked⟩ ip path name) := by
  induction n generalizing fs ip path name with
  | zero => omega
  | succ n ih =>
    have hskip := skipelem_eq h0 name
    have hcomp := skipelem_components path
    unfold namexLoop
    cases hs : skipelem path name with
    | none =>
      rw [hs] at hskip
      rw [← hskip] at hcomp
      rw [show components path=[] from hcomp]
      cases parent with
      | false => exact ⟨name,rfl,nofun⟩
      | true =>
        refine ⟨name,?_,nofun⟩
        simp only [if_true,iput_unlocked]
        rfl
    | some r =>
      obtain ⟨rest,name'⟩ := r
      rw [hs] at hskip
      rw [← hskip] at hcomp
      obtain ⟨hcomp,hlen,hlast⟩ : components path=text name' :: components rest ∧
        rest.length < path.length ∧ (components rest=[] → rest=[]) := hcomp
      have hrest0 : 0∉rest := fun hmem => h0 ((skipelem_suffix hskip.symm).subset hmem)
      have hend : rest=[] ↔ components rest=[] := ⟨fun h => by rw [h]; rfl,hlast⟩
      rw [hcomp,namexFrom]
      simp only [ilock_unlocked]
      cases hlock : FileSystem.ilock fs ip with
      | error e => rfl
      | ok fs₁ =>
        have hpos := ilock_ref hlock
        simp only [bind,Except.bind,hend]
        split
        · rw [iunlockput_locked hpos]
          exact ⟨name',rfl,nofun⟩
        · split
          · rw [iunlock_locked hpos]
            refine ⟨name',rfl,fun _ i c hr => ?_⟩
            cases hr
            rfl
          · cases hlook : dirlookup fs₁ ip (text name') with
            | error e => rfl
            | ok r =>
              obtain ⟨fs₂,found⟩ := r
              have hpos' := dirlookup_ref hlook hpos
              simp only [State.lift]
              cases found with
              | none =>
                rw [iunlockput_locked hpos']
                exact ⟨name',rfl,nofun⟩
              | some x =>
                simp only [iunlockput_locked hpos']
                exact ih hrest0 (by omega)

theorem namex_matches (parent : Bool) (fs : Fs) (cwd : Inum) (h0 : 0∉path) (name : List UInt8) :
    Matches parent (FileSystem.namex parent fs cwd path)
      (namex parent ⟨fs,unlocked⟩ cwd path name) := by
  unfold FileSystem.namex namex
  rw [elems_eq]
  split
  · cases hget : iget fs rootino with
    | error e => rfl
    | ok fs₁ => exact namexLoop_matches parent h0 (Nat.lt_succ_self _)
  · exact namexLoop_matches parent h0 (Nat.lt_succ_self _)

section Resolution
variable {s : State} {cwd : Inum}

/-- A state between two calls: no entry of a directory is dangling, an inode that one leads to has
links or is referenced, and the caller's current directory is referenced. -/
structure Whole (fs : Fs) (cwd : Inum) : Prop where
  settled : fs.Settled
  root : (fs.inode rootino).type≠.free
  entries : ∀ dp, (fs.inode dp).type=.dir → ∀ e∈(fs.inode dp).ents, e.inum≠0 →
    (fs.inode e.inum).type≠.free
  cwd_ref : 0 < fs.ref cwd
  cwd_type : (fs.inode cwd).type≠.free

theorem Whole.walk {names : List Name} {j : Inum} (h : Whole fs cwd)
    (hip : (fs.inode ip).type≠.free) (hwalk : fs.walk ip names=some j) :
    (fs.inode j).type≠.free := by
  induction names generalizing ip with
  | nil =>
    cases hwalk
    exact hip
  | cons name names ih =>
    obtain ⟨next,hnext,hwalk⟩ := Option.bind_eq_some_iff.mp hwalk
    obtain ⟨hdir,hfind⟩ := Option.ite_none_right_eq_some.mp hnext
    obtain ⟨off,hoff,rfl⟩ := Option.map_eq_some_iff.mp hfind
    obtain ⟨e,he,hne,-,hinum⟩ := find_spec hoff
    rw [hinum] at hwalk
    exact ih (h.entries ip hdir e he hne) hwalk

def TableFull (fs : Fs) (e : Stop) : Prop :=
  e=.panic .igetNoInodes ∧ ninode ≤ fs.table.length+1

structure Returned (s : State) (r : Option Inum) (t : State) : Prop where
  inode : t.fs.inode=s.fs.inode
  ref : ∀ j, t.fs.ref j=s.fs.ref j + if r=some j then 1 else 0
  locked : t.locked=s.locked

theorem Whole.namex (h : Whole fs cwd) (parent : Bool) (h0 : 0∉path) (name : List UInt8) :
    Ends (TableFull fs) (namex parent ⟨fs,unlocked⟩ cwd path name) fun x =>
      Returned ⟨fs,unlocked⟩ x.2.1 x.1 ∧
        ∃ r, fs.resolve parent (origin cwd path) (components path)=r ∧ x.2.1=r.map Prod.fst ∧
          (parent=true → ∀ i c, r=some (i, c) → text x.2.2=c) := by
  have hmatch := namex_matches parent fs cwd h0 name
  rcases h.settled.namex parent h.cwd_ref path with ⟨⟨t,r⟩,hok,hold,hr⟩ | ⟨e,herr,hstop⟩
  · rw [hok] at hmatch
    obtain ⟨name',hx,htext⟩ := hmatch
    rw [hx]
    refine .ok ⟨⟨hold.inode,fun j => ?_,rfl⟩,r,hr.symm,rfl,htext⟩
    rw [hold.ref j]
    cases r with
    | none => simp [got]
    | some x => simp [got,Multiset.count_singleton,eq_comm]
  · rw [herr] at hmatch
    rw [hmatch]
    rcases hstop with ⟨rfl,hfull⟩ | ⟨rfl,pre,j,-,hwalk,hfree⟩
    · exact .error ⟨rfl,hfull⟩
    · have horigin : (fs.inode (origin cwd path)).type≠.free := by
        unfold origin
        split
        · exact h.root
        · exact h.cwd_type
      exact absurd hfree (h.walk horigin hwalk)

/-- **Path resolution.** For every path, `namei` returns the inode that the components lead to, and
`nameiparent` the directory that all but the last lead to, or 0. Then only that inode has one more
reference, and no inode is locked. The only panic is that of `iget` on a full table. -/
theorem path_resolution (h : Whole s.fs cwd) (hlocked : s.locked=unlocked) (h0 : 0∉path)
    (name : List UInt8) :
    (Ends (TableFull s.fs) (namei s cwd path name) fun x =>
      x.2=s.fs.walk (origin cwd path) (components path) ∧ Returned s x.2 x.1) ∧
    Ends (TableFull s.fs) (nameiparent s cwd path name) fun x =>
      x.2.1.map (fun dp => (dp, text x.2.2)) =
          s.fs.walkParent (origin cwd path) (components path) ∧ Returned s x.2.1 x.1 := by
  obtain ⟨fs,locked⟩ := s
  subst hlocked
  constructor
  · refine (h.namex false h0 name).bind ?_
    rintro ⟨t,i,name'⟩ ⟨hret,r,hr,hi,-⟩
    obtain rfl : i=r.map Prod.fst := hi
    refine .ok ⟨?_,hret⟩
    rw [← hr,Fs.resolve]
    cases fs.walk (origin cwd path) (components path) <;> rfl
  · refine (h.namex true h0 name).weaken ?_
    rintro ⟨t,i,name'⟩ ⟨hret,r,hr,hi,htext⟩
    obtain rfl : i=r.map Prod.fst := hi
    refine ⟨?_,hret⟩
    rw [show fs.walkParent _ _ = r from hr]
    cases r with
    | none => rfl
    | some x => exact congrArg some (Prod.ext rfl (htext rfl x.1 x.2 rfl))

def treeFs : Fs where
  ninodes := 3
  inode i :=
    if i=1 then ⟨.dir,0,0,1,[⟨1,dot,0⟩,⟨1,dotdot,0⟩,⟨2,[97],0⟩]⟩
    else if i=2 then ⟨.file,0,0,1,[]⟩ else ⟨.free,0,0,0,[]⟩
  ref i := if i=1 then 1 else 0
  valid _ := false
  table := [1]
  born _ := 0
  fails _ := false
  attempts := 0

theorem treeFs_whole : Whole treeFs rootino where
  settled := by
    refine ⟨⟨fun i => ?_,fun i => ?_,by decide⟩,nofun,by simp [Fs.Kept,treeFs,rootino],
      fun dp hdir => ?_⟩
    · by_cases h : i=1 <;> simp [treeFs,h]
    · by_cases h : i=1 <;> simp [treeFs,h]
    · by_cases h1 : dp=1
      · subst h1
        unfold Fs.Kept
        decide
      · by_cases h2 : dp=2 <;> simp [treeFs,h1,h2] at hdir
  root := by decide
  entries dp hdir := by
    by_cases h1 : dp=1
    · subst h1
      decide
    · by_cases h2 : dp=2 <;> simp [treeFs,h1,h2] at hdir
  cwd_ref := by decide
  cwd_type := by decide

/-- `//a/` is found from anywhere, and `nameiparent` stops at the root with `a` for the name. -/
theorem treeFs_resolved :
    (∃ t, namei ⟨treeFs,unlocked⟩ rootino [47, 47, 97, 47] []=.ok (t, some 2) ∧ t.fs.ref 2=1) ∧
      ∃ t name, nameiparent ⟨treeFs,unlocked⟩ rootino [47, 47, 97, 47] []=.ok (t, some 1, name) ∧
        text name=[97] ∧ t.fs.ref 1=2 := by
  have h0 : (0 : UInt8)∉([47, 47, 97, 47] : List UInt8) := by decide
  have hroom : ∀ e, ¬TableFull treeFs e := fun e he => absurd he.2 (by decide)
  obtain ⟨hnamei,hparent⟩ := path_resolution (s := ⟨treeFs,unlocked⟩) treeFs_whole rfl h0 []
  constructor
  · rcases hnamei with ⟨⟨t,r⟩,hok,hr,hret⟩ | ⟨e,-,he⟩
    · obtain rfl : r=some 2 := hr.trans (by decide)
      exact ⟨t,hok,hret.ref 2⟩
    · exact absurd he (hroom e)
  · rcases hparent with ⟨⟨t,r,name⟩,hok,hr,hret⟩ | ⟨e,-,he⟩
    · have hr' : r.map (fun dp => (dp, text name))=some (1, [97]) := hr.trans (by decide)
      obtain ⟨dp,rfl,hdp⟩ := Option.map_eq_some_iff.mp hr'
      obtain ⟨rfl,htext⟩ := Prod.ext_iff.mp hdp
      exact ⟨t,name,hok,htext,hret.ref 1⟩
    · exact absurd he (hroom e)

end Resolution
end Xv6.PathLookup
