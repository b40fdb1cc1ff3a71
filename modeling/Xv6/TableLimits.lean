import Xv6.FileCalls
import Xv6.InodeCoherence
import Xv6.LogCrash

/-! When the inode table and the buffer cache are exhausted: `iget` and `bget` panic if they find
neither the inode or block nor an entry that is not in use. -/
namespace Xv6.TableLimits
open Function Xv6.Machine

section Inodes
open Xv6.InodeTable
variable {P : Type} [DecidableEq P] {s : InodeTable.Sys P} {k : Key} {e : Entry}

/-- The inodes that are referenced, by open files, current directories or calls under way. -/
def referenced (s : InodeTable.Sys P) : Finset Key := (s.refs.map fun r => s.key r.1).toFinset

/-- The next step of the process is `panic("iget: no inodes")`. -/
def NoInodes (s : InodeTable.Sys P) (p : P) : Prop :=
  ∃ k, s.pc p=.iget k ∧ s.lookup k=none ∧ s.empty=none

theorem ref_pos_iff (h : InodeTable.Inv s) : 0 < s.ref e ↔ ∃ r∈s.refs, r.1=e := by
  rw [h.count,InodeTable.count,List.countP_pos_iff]
  simp

theorem mem_referenced_iff (h : InodeTable.Inv s) : k∈referenced s ↔ ∃ e, 0 < s.ref e ∧ s.key e=k := by
  simp only [referenced,List.mem_toFinset,List.mem_map]
  constructor
  · rintro ⟨r,hr,rfl⟩
    exact ⟨r.1,(ref_pos_iff h).mpr ⟨r,hr,rfl⟩,rfl⟩
  · rintro ⟨e,he,rfl⟩
    obtain ⟨r,hr,rfl⟩ := (ref_pos_iff h).mp he
    exact ⟨r,hr,rfl⟩

theorem lookup_none_iff (h : InodeTable.Inv s) : s.lookup k=none ↔ k∉referenced s := by
  rw [mem_referenced_iff h,Sys.lookup,List.find?_eq_none]
  simp

/-- Entries in use are of different inodes, so there are as many of them as inodes referenced. -/
theorem card_referenced (h : InodeTable.Inv s) :
    (referenced s).card=(Finset.univ.filter fun e => 0 < s.ref e).card := by
  have himage : referenced s=(Finset.univ.filter fun e => 0 < s.ref e).image s.key := by
    ext k
    rw [mem_referenced_iff h]
    simp
  rw [himage]
  refine Finset.card_image_of_injOn fun e he e' he' => ?_
  simp only [Finset.coe_filter,Finset.mem_univ,true_and,Set.mem_ofPred_eq] at he he'
  exact h.unique e e' he he'

theorem empty_none_iff (h : InodeTable.Inv s) : s.empty=none ↔ (referenced s).card=ninode := by
  have hall := Finset.card_eq_iff_eq_univ (Finset.univ.filter fun e : Entry => 0 < s.ref e)
  have hcard : Fintype.card Entry=ninode := Fintype.card_fin ninode
  rw [hcard,Finset.filter_eq_self] at hall
  rw [card_referenced h,hall,Sys.empty,List.find?_eq_none]
  simp [Nat.pos_iff_ne_zero]

end Inodes

section Buffers
open Xv6.BufferCache Xv6.Log
variable {P : Type} [DecidableEq P] [Fintype P] {M : Mount P} {s : Log.Sys P} {b : Buf}

/-- The block is one of the transaction, and `install_trans` has not unpinned its buffer yet. -/
def Pinned (s : Log.Sys P) (x : Nat) : Prop :=
  x∈s.lh ∧ ∀ p k, s.pc p=.log k → x∈k.pinned s.lh

/-- The buffer is in the hands of a process, or its block is pinned. -/
def InUse (M : Mount P) (s : Log.Sys P) (b : Buf) : Prop :=
  (∃ p, b∈s.bio.refs p) ∨ s.bio.dev b=M.dev ∧ Pinned s (s.bio.blockno b)

theorem pinned_subset (k : Point) (lh : List Nat) : k.pinned lh ⊆ lh := by
  unfold Point.pinned
  split <;> simp [List.drop_subset]

omit [DecidableEq P] [Fintype P] in
theorem pinned_iff {pinned : List Nat} {scratch : Buf → Prop} {x : Nat}
    (h : Log.Phase M s pinned scratch) : Pinned s x ↔ x∈pinned := by
  cases h with
  | @busy p k hbusy =>
    refine ⟨fun hx => hx.2 p k hbusy.pc,fun hx => ⟨pinned_subset k s.lh hx,fun q j hq => ?_⟩⟩
    rw [hbusy.alone q j hq,hbusy.pc] at hq
    cases hq
    exact hx
  | quiet hquiet => exact ⟨And.left,fun hx => ⟨hx,fun p k hp => absurd hp (hquiet.pc p k)⟩⟩

theorem refcnt_iff (h : Log.Inv M s) : s.bio.refcnt b≠0 ↔ InUse M s b := by
  obtain ⟨pinned,scratch,hphase,hcoh⟩ := h.phase
  have hrefs : ∑ p, (s.bio.refs p).count b=0 ↔ ¬∃ p, b∈s.bio.refs p := by
    simp [List.count_eq_zero]
  rw [hcoh.refcnt b,InUse,pinned_iff hphase,Ne,Nat.add_eq_zero_iff,hrefs]
  simp only [ite_eq_right_iff,one_ne_zero,imp_false]
  tauto

theorem bget_panics_iff (h : Log.Inv M s) {p : P} {dev x : Nat} :
    s.bio.bget p dev x=.error .bgetNoBuffers ↔
      (∀ b, ¬(s.bio.dev b=dev ∧ s.bio.blockno b=x)) ∧ ∀ b, InUse M s b := by
  obtain ⟨pinned,scratch,-,hcoh⟩ := h.phase
  constructor
  · intro hp
    unfold Bio.bget at hp
    split at hp
    · cases hp
    · rename_i hcached
      split at hp
      · cases hp
      · rename_i hnone
        exact ⟨hcoh.lookup_none hcached,fun b => (refcnt_iff h).mp (hcoh.victim_none hnone b)⟩
  · rintro ⟨hcached,huse⟩
    have hlookup : s.bio.lookup dev x=none :=
      Option.eq_none_iff_forall_ne_some.mpr fun b hb => hcached b (Bio.lookup_some hb)
    have hvictim : s.bio.victim=none :=
      Option.eq_none_iff_forall_ne_some.mpr fun b hb =>
        (refcnt_iff h).mpr (huse b) (Bio.victim_some hb)
    simp only [Bio.bget,hlookup,hvictim]

end Buffers

open Xv6.InodeTable in
/-- **When the tables are exhausted.** In every reachable state `iget` panics for want of an entry
exactly if its inode is not referenced and 50 others are, and `bget` exactly if its block is not
cached and each buffer is in the hands of a process or holds a pinned block. -/
theorem table_exhaustion {P : Type} [DecidableEq P] [Fintype P] :
    (∀ (disk : Key → Dinode) (ninodes : Nat) (ls : List (InodeTable.Label P)) (s : InodeTable.Sys P),
      run InodeTable.step ls (start disk ninodes)=some s → ∀ p,
        NoInodes s p ↔ ∃ k, s.pc p=.iget k ∧ k∉referenced s ∧ (referenced s).card=ninode) ∧
    ∀ (M : Log.Mount P) (disk : Nat → BufferCache.Data) (ls : List (Log.Label P)) (s : Log.Sys P),
      M.Fits (M.head disk) →
      Along (Log.step M) (fun _ s l => Log.Bracketed M s l) [] (Log.boot M disk) ls →
      run (Log.step M) ls (Log.boot M disk)=some s →
        ∀ p dev x, s.bio.bget p dev x=.error .bgetNoBuffers ↔
          (∀ b, ¬(s.bio.dev b=dev ∧ s.bio.blockno b=x)) ∧ ∀ b, InUse M s b := by
  refine ⟨fun disk ninodes ls s hrun p => ?_,fun M disk ls s hdisk hok hrun p dev x => ?_⟩
  · have h : InodeTable.Inv s :=
      run_invariant (fun _ _ _ hinv hs => hinv.step hs) (inv_start disk ninodes) hrun
    refine exists_congr fun k => and_congr_right fun _ => ?_
    rw [lookup_none_iff h,empty_none_iff h]
  · exact bget_panics_iff ((Log.boot_inv hdisk).run hok hrun).1

section Hoarded
open Xv6.Log

/-- A process reads 30 blocks and keeps them all. -/
def hoards : List (Log.Label (Fin 2)) :=
  turns 19 mkfsMount.initproc++(List.range 30).flatMap fun i =>
    .request (Fin.last 1) (.bread 1 (40+i)) :: turns 3 (Fin.last 1)

def hoarded : Log.Sys (Fin 2) :=
  (run (Log.step mkfsMount) hoards (boot mkfsMount blankDisk)).get (by decide +kernel)

theorem hoarded_panics : hoarded.bio.bget 0 1 70=.error .bgetNoBuffers ∧
    ∀ b, InUse mkfsMount hoarded b := by
  have hrun : run (Log.step mkfsMount) hoards (boot mkfsMount blankDisk)=some hoarded :=
    (Option.some_get _).symm
  have hok : Along (Log.step mkfsMount) (fun _ s l => Bracketed mkfsMount s l) []
      (boot mkfsMount blankDisk) hoards := by decide +kernel
  have hlookup : hoarded.bio.lookup 1 70=none := by decide +kernel
  have hvictim : hoarded.bio.victim=none := by decide +kernel
  have hpanic : hoarded.bio.bget 0 1 70=.error .bgetNoBuffers := by
    simp only [BufferCache.Bio.bget,hlookup,hvictim]
  exact ⟨hpanic,((table_exhaustion.2 mkfsMount blankDisk hoards hoarded blankDisk_fits hok hrun
    0 1 70).mp hpanic).2⟩

end Hoarded

section Exhausted
open Xv6.FileSystem

/-- A disk with 52 files in the root directory. -/
def manyFiles : Image where
  ninodes := 200
  inode i :=
    if i=rootino then
      ⟨.dir,0,0,1,⟨rootino,dot,0⟩ :: ⟨rootino,dotdot,0⟩ ::
        (List.range 52).map fun i => ⟨i+2,[UInt8.ofNat (i+48)],0⟩⟩
    else ⟨.file,0,0,1,[]⟩

/-- A process that opens 13 of the files. -/
def opens (p : Slot) : List Event :=
  (List.range 13).map fun j => .call p (.open_ [UInt8.ofNat (13*p+j+48)] 0)

/-- Four processes that together open 49 files. -/
def opened : List Event :=
  (List.replicate 3 (Event.call initproc .fork)++((List.finRange nproc).take 4).flatMap opens).take 52

def openedEnd : FileSystem.Sys :=
  (run FileSystem.step opened (boot manyFiles fun _ => false)).get (by decide +kernel)

def panicOf (s : FileSystem.Sys) (p : Slot) (c : FileSystem.Call) : Option FileSystem.Panic :=
  match s.exec p c with
  | some (.error m) => some m
  | _ => none

/-- No process has more than 13 open files, there are 49 of the 100 that are allowed, and the
next one brings the kernel down. -/
theorem fifty_files_panic :
    run FileSystem.step opened (boot manyFiles fun _ => false)=some openedEnd ∧
      panicOf openedEnd initproc (.open_ [UInt8.ofNat 97] 0)=some .igetNoInodes :=
  ⟨(Option.some_get _).symm,by decide +kernel⟩

end Exhausted

end Xv6.TableLimits
