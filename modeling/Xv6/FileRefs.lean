import Xv6.FileCalls
import Xv6.InodeRefs
import Xv6.Holdings
import Xv6.Machine
import Mathlib.Algebra.BigOperators.Fin

/-! Reference counts of open files, inodes and pipes: between calls every count is the number
of places that hold the reference. -/
namespace Xv6.FileSystem
open Function Xv6.Total Xv6.Holdings Xv6.Machine
variable {s t : Sys} {u : Multiset FileId} {m : Multiset Inum} {f : FileId} {p : Slot} {fd : Fd}

/-- The name in a place that may be empty. -/
def single {α : Type} : Option α → Multiset α
  | none => 0
  | some a => {a}

def File.inodes (x : File) : Multiset Inum :=
  match x.type with
  | .inode | .device => {x.ip}
  | .pipe | .none => 0

def File.IsEnd (x : File) (n : PipeId) (writable : Bool) : Prop :=
  x.type=.pipe ∧ x.pipe=n ∧ x.writable=writable

def Pipe.isOpen (pi : Pipe) (writable : Bool) : Bool := if writable then pi.writeopen else pi.readopen

namespace Sys

def fds (s : Sys) : Multiset FileId := ∑ x, single (s.ofile x)

def inodes (s : Sys) : Multiset Inum := ∑ f, (s.file f).inodes

def cwds (s : Sys) : Multiset Inum := ∑ p, single (s.cwd p)

structure Pipes (file : FileId → File) (pipe : PipeId → Pipe) (npipes : Nat) : Prop where
  lt : ∀ f n w, (file f).IsEnd n w → n < npipes
  unique : ∀ f g n w, (file f).IsEnd n w → (file g).IsEnd n w → f=g
  opened : ∀ n < npipes, ∀ w, (pipe n).isOpen w=true ↔ ∃ f, (file f).IsEnd n w
  freed : ∀ n < npipes, (pipe n).freed = if (pipe n).readopen ∨ (pipe n).writeopen then 0 else 1

/-- The counts are right if a call in progress holds the files `u` and the inodes `m`. -/
structure Sound (s : Sys) (u : Multiset FileId) (m : Multiset Inum) : Prop where
  files : ∀ f, (s.file f).ref=(s.fds+u).count f
  idle : ∀ f, (s.file f).ref=0 → (s.file f).type=.none
  inodes : s.fs.Refs (s.inodes+s.cwds+m)
  pipes : Pipes s.file s.pipe s.npipes

structure SameProcs (s t : Sys) : Prop where
  ofile : t.ofile=s.ofile
  cwd : t.cwd=s.cwd

theorem SameProcs.refl (s : Sys) : SameProcs s s := ⟨rfl,rfl⟩

theorem SameProcs.trans {r : Sys} (h : SameProcs r s) (h' : SameProcs s t) : SameProcs r t :=
  ⟨h'.ofile.trans h.ofile,h'.cwd.trans h.cwd⟩

theorem setOfile_fds (s : Sys) (p : Slot) (fd : Fd) (x : Option FileId) :
    (s.setOfile p fd x).fds+single (s.ofile (p, fd))=s.fds+single x :=
  sum_comp_update single s.ofile (Finset.mem_univ (p, fd)) x

theorem fds_of_some (hf : s.ofile (p, fd)=some f) : s.fds=(s.setOfile p fd none).fds+{f} := by
  have hsum := setOfile_fds s p fd none
  rw [hf,single,single,add_zero] at hsum
  exact hsum.symm

theorem setCwd_cwds (s : Sys) (p : Slot) (x : Option Inum) :
    (s.setCwd p x).cwds+single (s.cwd p)=s.cwds+single x :=
  sum_comp_update single s.cwd (Finset.mem_univ p) x

theorem setFile_inodes (s : Sys) (f : FileId) (x : File) :
    (s.setFile f x).inodes+(s.file f).inodes=s.inodes+x.inodes :=
  sum_comp_update File.inodes s.file (Finset.mem_univ f) x

theorem setFile_inodes_eq {x : File} (hx : x.inodes=(s.file f).inodes) :
    (s.setFile f x).inodes=s.inodes := by
  have hsum := setFile_inodes s f x
  rw [hx] at hsum
  exact add_right_cancel hsum

theorem setFile_isEnd {x : File} (hx : ∀ n w, x.IsEnd n w ↔ (s.file f).IsEnd n w) (g : FileId)
    (n : PipeId) (w : Bool) : (update s.file f x g).IsEnd n w ↔ (s.file g).IsEnd n w := by
  by_cases hg : g=f
  · subst hg
    rw [update_self]
    exact hx n w
  · rw [update_of_ne hg]

theorem Pipes.setFile (h : Pipes s.file s.pipe s.npipes) {x : File}
    (hx : ∀ n w, x.IsEnd n w ↔ (s.file f).IsEnd n w) :
    Pipes (update s.file f x) s.pipe s.npipes := by
  have hends := setFile_isEnd hx
  exact
    { lt := fun g n w hg => h.lt g n w ((hends g n w).mp hg)
      unique := fun g g' n w hg hg' => h.unique g g' n w ((hends g n w).mp hg) ((hends g' n w).mp hg')
      opened := fun n hn w => by
        simp only [hends]
        exact h.opened n hn w
      freed := h.freed }

theorem Sound.update_refs (h : s.Sound u m) {x : File} {u' : Multiset FileId}
    (hidle : x.ref=0 → x.type=.none) (hself : x.ref=(s.fds+u').count f)
    (hother : ∀ g≠f, u'.count g=u.count g) : (∀ g, (update s.file f x g).ref=(s.fds+u').count g) ∧
      ∀ g, (update s.file f x g).ref=0 → (update s.file f x g).type=.none := by
  refine ⟨fun g => ?_,fun g hg => ?_⟩
  · by_cases hg : g=f
    · rw [hg,update_self,hself]
    · rw [update_of_ne hg,h.files g,Multiset.count_add,Multiset.count_add,hother g hg]
  · by_cases hgf : g=f
    · rw [hgf,update_self] at hg ⊢
      exact hidle hg
    · rw [update_of_ne hgf] at hg ⊢
      exact h.idle g hg

theorem Sound.setRef (h : s.Sound u m) {x : File} {u' : Multiset FileId} (href : 0 < x.ref)
    (hi : x.inodes=(s.file f).inodes) (he : ∀ n w, x.IsEnd n w ↔ (s.file f).IsEnd n w)
    (hself : x.ref=(s.fds+u').count f) (hother : ∀ g≠f, u'.count g=u.count g) :
    (s.setFile f x).Sound u' m := by
  obtain ⟨hfiles,hidle⟩ := h.update_refs (by omega) hself hother
  refine ⟨hfiles,hidle,?_,h.pipes.setFile he⟩
  rw [setFile_inodes_eq hi]
  exact h.inodes

theorem Sound.count (h : s.Sound (u+{f}) m) : (s.file f).ref=(s.fds+u).count f+1 := by
  rw [h.files f,← add_assoc,Multiset.count_add,Multiset.count_singleton_self]

theorem Sound.held (h : s.Sound (u+{f}) m) : 0<(s.file f).ref := by
  rw [h.count]
  exact Nat.succ_pos _

theorem Sound.open_ (h : s.Sound u m) (hf : s.ofile (p, fd)=some f) : 0<(s.file f).ref := by
  rw [h.files f,fds_of_some hf]
  simp

theorem Sound.install (h : s.Sound (u+{f}) m) (hfree : s.ofile (p, fd)=none) :
    (s.setOfile p fd (some f)).Sound u m := by
  have hfds : (s.setOfile p fd (some f)).fds=s.fds+{f} := by
    have hsum := setOfile_fds s p fd (some f)
    rwa [hfree,single,add_zero] at hsum
  refine { h with files := fun g => ?_ }
  rw [hfds,add_assoc,add_comm {f} u]
  exact h.files g

theorem Sound.remove (h : s.Sound u m) (hf : s.ofile (p, fd)=some f) :
    (s.setOfile p fd none).Sound (u+{f}) m := by
  refine { h with files := fun g => ?_ }
  rw [add_comm u,← add_assoc,← fds_of_some hf]
  exact h.files g

theorem Sound.setFs (h : s.Sound u m) {fs : Fs} {m' : Multiset Inum}
    (hfs : fs.Refs (s.inodes+s.cwds+m')) : (s.setFs fs).Sound u m' :=
  { h with inodes := hfs }

theorem Sound.attempt (h : s.Sound u m) : s.attempt.Sound u m := { h with }

end Sys

section Files
open Sys

theorem filealloc_spec (h : s.Sound u m) : filealloc s=(s, none) ∨
      ∃ f x, filealloc s=(s.setFile f x, some f) ∧ (s.setFile f x).Sound (u+{f}) m ∧
        (s.file f).ref=0 ∧ x.type=.none := by
  unfold filealloc
  cases hfind : (List.finRange nfile).find? fun f => (s.file f).ref=0 with
  | none => exact .inl rfl
  | some f =>
    have hzero : (s.file f).ref=0 := by simpa using List.find?_some hfind
    refine .inr ⟨f,_,rfl,?_,hzero,h.idle f hzero⟩
    · refine h.setRef Nat.one_pos rfl (fun _ _ => Iff.rfl) ?_ fun _ => count_add_single
      have hcount := h.files f
      rw [hzero] at hcount
      rw [← add_assoc,Multiset.count_add,← hcount,Multiset.count_singleton_self]

theorem filedup_spec (h : s.Sound u m) (hf : 0<(s.file f).ref) :
    ∃ t, filedup s f=.ok t ∧ t.Sound (u+{f}) m ∧ SameProcs s t ∧ t.fs=s.fs := by
  refine ⟨_,if_neg (by omega),?_,⟨rfl,rfl⟩,rfl⟩
  refine h.setRef (Nat.succ_pos _) rfl (fun _ _ => Iff.rfl) ?_ fun _ => count_add_single
  rw [← add_assoc,Multiset.count_add,Multiset.count_singleton_self,← h.files f]

theorem isOpen_close (pi : Pipe) (w w' : Bool) :
    (pi.close w).isOpen w'=(pi.isOpen w' && w' != w) := by
  cases w <;> cases w' <;> cases hr : pi.readopen <;> cases hw : pi.writeopen <;>
    simp [Pipe.close,Pipe.isOpen,hr,hw]

theorem freed_close {pi : Pipe} {w : Bool} (hopen : pi.isOpen w=true)
    (h : pi.freed = if pi.readopen ∨ pi.writeopen then 0 else 1) :
    (pi.close w).freed = if (pi.close w).readopen ∨ (pi.close w).writeopen then 0 else 1 := by
  cases w <;> cases hr : pi.readopen <;> cases hw : pi.writeopen <;>
    simp_all [Pipe.close,Pipe.isOpen]

theorem Sys.Pipes.close (h : Pipes s.file s.pipe s.npipes) {n : PipeId} {w : Bool} {x : File}
    (hf : (s.file f).IsEnd n w) (hx : ∀ n w, ¬ x.IsEnd n w) :
    Pipes (update s.file f x) (update s.pipe n ((s.pipe n).close w)) s.npipes := by
  have hends : ∀ g n' w', (update s.file f x g).IsEnd n' w' ↔
      (s.file g).IsEnd n' w' ∧ ¬ (n'=n ∧ w'=w) := by
    intro g n' w'
    by_cases hg : g=f
    · subst hg
      rw [update_self]
      refine ⟨fun hx' => absurd hx' (hx n' w'),fun ⟨hg',hne⟩ => absurd ?_ hne⟩
      exact ⟨hg'.2.1.symm.trans hf.2.1,hg'.2.2.symm.trans hf.2.2⟩
    · rw [update_of_ne hg]
      refine ⟨fun hg' => ⟨hg',?_⟩,And.left⟩
      rintro ⟨rfl,rfl⟩
      exact hg (h.unique g f n' w' hg' hf)
  refine ⟨fun g n' w' hg => ?_,fun g g' n' w' hg hg' => ?_,fun n' hn' w' => ?_,fun n' hn' => ?_⟩
  · exact h.lt g n' w' ((hends g n' w').mp hg).1
  · exact h.unique g g' n' w' ((hends g n' w').mp hg).1 ((hends g' n' w').mp hg').1
  · have hold := h.opened n' hn' w'
    simp only [hends,exists_and_right,← hold]
    by_cases hn : n'=n
    · simp [hn,isOpen_close]
    · simp [hn]
  · by_cases hn : n'=n
    · subst hn
      rw [update_self]
      exact freed_close ((h.opened n' hn' w).mpr ⟨f,hf⟩) (h.freed n' hn')
    · rw [update_of_ne hn]
      exact h.freed n' hn'

theorem Sys.Sound.last (h : s.Sound (u+{f}) m) (x : File) (hlast : (s.file f).ref=1)
    (href : x.ref=0) (htype : x.type=.none) : ((∀ g, (update s.file f x g).ref=(s.fds+u).count g) ∧
      ∀ g, (update s.file f x g).ref=0 → (update s.file f x g).type=.none) ∧
      (s.setFile f x).inodes+(s.file f).inodes=s.inodes := by
  have hcount := h.count
  refine ⟨h.update_refs (fun _ => htype) (by omega) fun g hg => (count_add_single hg).symm,?_⟩
  rw [setFile_inodes,File.inodes,htype,add_zero]

theorem fileclose_spec (h : s.Sound (u+{f}) m) :
    ∃ t, fileclose s f=.ok t ∧ t.Sound u m ∧ SameProcs s t := by
  have hpos := h.held
  unfold fileclose
  rw [if_neg (by omega)]
  by_cases hmore : 0<(s.file f).ref-1
  · rw [if_pos hmore]
    refine ⟨_,rfl,h.setRef hmore rfl (fun _ _ => Iff.rfl) ?_ ?_,⟨rfl,rfl⟩⟩
    · have hcount := h.count
      change (s.file f).ref-1=(s.fds+u).count f
      omega
    · exact fun g hg => (count_add_single hg).symm
  · rw [if_neg hmore]
    obtain ⟨⟨hfiles,hidle⟩,hinodes⟩ := h.last { s.file f with ref := 0, type := .none } (by omega) rfl rfl
    have hfs : s.fs.Refs ((s.setFile f { s.file f with ref := 0, type := .none }).inodes+s.cwds+m +
        (s.file f).inodes) := by
      have hold := h.inodes
      rw [← hinodes] at hold
      convert hold using 1
      abel
    cases htype : (s.file f).type with
    | none =>
      refine ⟨_,rfl,⟨hfiles,hidle,?_,?_⟩,⟨rfl,rfl⟩⟩
      · rw [File.inodes,htype,add_zero] at hfs
        exact hfs
      · refine h.pipes.setFile fun n w => ?_
        simp [File.IsEnd,htype]
    | pipe =>
      refine ⟨_,rfl,⟨hfiles,hidle,?_,?_⟩,⟨rfl,rfl⟩⟩
      · rw [File.inodes,htype,add_zero] at hfs
        exact hfs
      · exact h.pipes.close ⟨htype,rfl,rfl⟩ fun n w => by simp [File.IsEnd]
    | inode | device =>
      rw [File.inodes,htype] at hfs
      refine ⟨_,rfl,⟨hfiles,hidle,hfs.iput,?_⟩,⟨rfl,rfl⟩⟩
      refine h.pipes.setFile fun n w => ?_
      simp [File.IsEnd,htype]

theorem Sys.Sound.held' {f0 f1 : FileId} (h : s.Sound (u+{f0}+{f1}) m) : 0<(s.file f0).ref := by
  rw [add_right_comm] at h
  exact h.held

theorem closeBoth_spec {f0 f1 : FileId} (h : s.Sound (u+{f0}+{f1}) m) :
    ∃ t, closeBoth s f0 f1=.ok t ∧ t.Sound u m ∧ SameProcs s t := by
  rw [add_right_comm] at h
  obtain ⟨t,hclose,ht,hst⟩ := fileclose_spec h
  obtain ⟨v,hclose',hv,htv⟩ := fileclose_spec ht
  refine ⟨v,?_,hv,hst.trans htv⟩
  unfold closeBoth
  rw [hclose]
  exact hclose'

theorem fileclose_setOfile (s : Sys) (x : Option FileId) :
    fileclose (s.setOfile p fd x) f=(fileclose s f).map fun t => t.setOfile p fd x := by
  unfold fileclose
  dsimp only [setOfile]
  split
  · rfl
  · split
    · rfl
    · cases (s.file f).type <;> rfl

theorem fdalloc_some (h : fdalloc s p f=some (t, fd)) :
    s.ofile (p, fd)=none ∧ t=s.setOfile p fd (some f) := by
  obtain ⟨fd,hfind,hr⟩ := Option.map_eq_some_iff.mp h
  cases hr
  exact ⟨by simpa using List.find?_some hfind,rfl⟩

theorem argfd_some {n : Int} (h : argfd s p n=some (fd, f)) : s.ofile (p, fd)=some f := by
  unfold argfd at h
  split at h
  · cases h
  · obtain ⟨f,hf,hr⟩ := Option.map_eq_some_iff.mp h
    cases hr
    exact hf

theorem Sys.Sound.iput {i : Inum} (h : s.Sound u (m+{i})) : (s.setFs (iput s.fs i)).Sound u m := by
  have hfs := h.inodes
  rw [← add_assoc] at hfs
  exact h.setFs hfs.iput

theorem Sys.Sound.opened {ip : Inum} {x : File} (h : s.Sound u (m+{ip}))
    (hnone : (s.file f).type=.none) (href : x.ref=(s.file f).ref) (hpos : 0 < x.ref)
    (htype : x.type=.inode ∨ x.type=.device) (hip : x.ip=ip) : (s.setFile f x).Sound u m := by
  obtain ⟨hfiles,hidle⟩ := h.update_refs (by omega) (href.trans (h.files f)) fun _ _ => rfl
  have hx : x.inodes={ip} ∧ ∀ n w, x.IsEnd n w ↔ (s.file f).IsEnd n w := by
    obtain ht | ht := htype
    · simp [File.inodes,File.IsEnd,ht,hip,hnone]
    · simp [File.inodes,File.IsEnd,ht,hip,hnone]
  refine ⟨hfiles,hidle,?_,h.pipes.setFile hx.2⟩
  have hsum := setFile_inodes s f x
  rw [hx.1,File.inodes,hnone,add_zero] at hsum
  have hmove : s.inodes+{ip}+s.cwds+m=s.inodes+s.cwds+(m+{ip}) := by abel
  rw [hsum]
  change s.fs.Refs (s.inodes+{ip}+s.cwds+m)
  rw [hmove]
  exact h.inodes

end Files

def Sys.Tidy (s : Sys) : Prop := ∀ p, s.cwd p=none → ∀ fd, s.ofile (p, fd)=none

structure Sys.Counted (s : Sys) : Prop where
  sound : s.Sound 0 0
  tidy : s.Tidy

section Calls
open Sys
variable {cwd : Inum}

theorem Sys.Tidy.same (h : s.Tidy) (hst : SameProcs s t) : t.Tidy := by
  intro q hq
  rw [hst.cwd] at hq
  rw [hst.ofile]
  exact h q hq

theorem Sys.Tidy.setOfile (h : s.Tidy) (hp : s.cwd p=some cwd) (x : Option FileId) :
    (s.setOfile p fd x).Tidy := by
  intro q hq fd'
  have hne : (q, fd')≠(p, fd) := by
    rintro ⟨rfl,rfl⟩
    cases hp.symm.trans hq
  exact (update_of_ne hne ..).trans (h q hq fd')

theorem Sys.Tidy.setCwd (h : s.Tidy) (p : Slot) (i : Inum) : (s.setCwd p (some i)).Tidy := by
  intro q hq fd
  change update s.cwd p (some i) q=none at hq
  by_cases hqp : q=p
  · rw [hqp,update_self] at hq
    cases hq
  · rw [update_of_ne hqp] at hq
    exact h q hq fd

theorem openInode_spec {fs : Fs} (h : fs.Refs m) (path : List UInt8) (omode : BitVec 32) :
    Ends Panic.NotFile (openInode fs cwd path omode) fun r => r.1.Refs (got m r.2) := by
  unfold openInode
  split
  · exact h.create cwd path .file 0 0
  · refine (h.namei cwd path).bind fun r hr => ?_
    obtain ⟨fs',r⟩ := r
    cases r with
    | none => exact .ok hr
    | some ip =>
      refine Ends.bind (Fs.Refs.ilock hr) fun fs'' hlock => ?_
      split
      · exact .ok hlock.iput
      · exact .ok hlock

theorem openFile_spec {ip : Inum} (h : s.Sound 0 (0+{ip})) (htidy : s.Tidy)
    (hp : s.cwd p=some cwd) (omode : BitVec 32) :
    Ends Panic.NotFile (openFile s p ip omode) fun r => r.1.Counted := by
  unfold openFile
  dsimp only
  split
  · exact .ok ⟨h.iput,htidy⟩
  · obtain hnone | ⟨f,x,hsome,ht,-,htype⟩ := filealloc_spec h
    · rw [hnone]
      exact .ok ⟨h.iput,htidy⟩
    · rw [hsome]
      dsimp only
      split
      · obtain ⟨v,hclose,hv,htv⟩ := fileclose_spec ht
        have htidy' : v.Tidy := htidy.same ⟨htv.ofile,htv.cwd⟩
        rw [hclose]
        exact .ok ⟨hv.iput,htidy'⟩
      · next v fd halloc =>
        obtain ⟨hfree,rfl⟩ := fdalloc_some halloc
        have hnone : ((s.setFile f x).file f).type=.none := by simpa [setFile] using htype
        refine .ok ⟨(ht.install hfree).opened hnone rfl ht.held ?_ rfl,htidy.setOfile hp (some f)⟩
        unfold File.opened
        by_cases hdev : (s.fs.inode ip).type=.device
        · simp [hdev]
        · simp [hdev]

section Pipeinit
variable {f0 f1 : FileId}

theorem pipeinit_file (hne : f0≠f1) (g : FileId) : (pipeinit s f0 f1).file g =
      if g=f1 then ⟨(s.file f1).ref,.pipe,false,true,s.npipes,(s.file f1).ip,(s.file f1).major⟩
      else if g=f0 then ⟨(s.file f0).ref,.pipe,true,false,s.npipes,(s.file f0).ip,(s.file f0).major⟩
      else s.file g := by
  by_cases hg1 : g=f1
  · simp [pipeinit,setFile,setPipe,hg1,hne.symm]
  · by_cases hg0 : g=f0
    · simp [pipeinit,setFile,setPipe,hg0,hne]
    · simp [pipeinit,setFile,setPipe,hg0,hg1]

theorem pipeinit_isEnd (hne : f0≠f1) (h0 : (s.file f0).type=.none)
    (h1 : (s.file f1).type=.none) (g : FileId) (n : PipeId) (w : Bool) :
    ((pipeinit s f0 f1).file g).IsEnd n w ↔
      (s.file g).IsEnd n w ∨ s.npipes=n ∧ g = if w then f1 else f0 := by
  rw [pipeinit_file hne]
  by_cases hg1 : g=f1
  · subst hg1
    cases w <;> simp [File.IsEnd,h1,hne.symm]
  · by_cases hg0 : g=f0
    · subst hg0
      cases w <;> simp [File.IsEnd,h0,hne]
    · cases w <;> simp [File.IsEnd,hg0,hg1]

theorem pipeinit_pipes (h : Pipes s.file s.pipe s.npipes) (hne : f0≠f1)
    (h0 : (s.file f0).type=.none) (h1 : (s.file f1).type=.none) :
    Pipes (pipeinit s f0 f1).file (pipeinit s f0 f1).pipe (pipeinit s f0 f1).npipes := by
  have hends := pipeinit_isEnd hne h0 h1
  have hnew : ∀ f w, ¬ (s.file f).IsEnd s.npipes w := fun f w hf => Nat.lt_irrefl _ (h.lt f _ w hf)
  have hpipe : ∀ n, (pipeinit s f0 f1).pipe n = if n=s.npipes then ⟨true,true,0⟩ else s.pipe n :=
    fun n => update_apply s.pipe s.npipes ⟨true,true,0⟩ n
  have hlt : ∀ n, n<(pipeinit s f0 f1).npipes → n≠s.npipes → n < s.npipes := by
    intro n hn hne
    change n < s.npipes+1 at hn
    omega
  refine ⟨fun g n w hg => ?_,fun g g' n w hg hg' => ?_,fun n hn w => ?_,fun n hn => ?_⟩
  · obtain hg | ⟨hn,-⟩ := (hends g n w).mp hg
    · exact Nat.lt_succ_of_lt (h.lt g n w hg)
    · exact hn ▸ Nat.lt_succ_self s.npipes
  · obtain hg | ⟨rfl,rfl⟩ := (hends g n w).mp hg
    · obtain hg' | ⟨rfl,-⟩ := (hends g' n w).mp hg'
      · exact h.unique g g' n w hg hg'
      · exact absurd hg (hnew g w)
    · obtain hg' | ⟨-,rfl⟩ := (hends g' _ w).mp hg'
      · exact absurd hg' (hnew g' w)
      · rfl
  · rw [hpipe]
    by_cases hn' : n=s.npipes
    · rw [if_pos hn',hn']
      refine ⟨fun _ => ⟨_,(hends _ _ w).mpr (.inr ⟨rfl,rfl⟩)⟩,fun _ => ?_⟩
      cases w <;> rfl
    · rw [if_neg hn',h.opened n (hlt n hn hn') w]
      refine exists_congr fun g => ?_
      rw [hends]
      exact ⟨.inl,fun hg => hg.resolve_right fun hg => hn' hg.1.symm⟩
  · rw [hpipe]
    by_cases hn' : n=s.npipes
    · rw [if_pos hn']
      rfl
    · rw [if_neg hn']
      exact h.freed n (hlt n hn hn')

theorem pipeinit_spec (h : s.Sound u m) (hne : f0≠f1) (h0 : (s.file f0).type=.none)
    (h1 : (s.file f1).type=.none) (hpos0 : 0<(s.file f0).ref) (hpos1 : 0<(s.file f1).ref) :
    (pipeinit s f0 f1).Sound u m := by
  have hfile := pipeinit_file (s := s) hne
  have href : ∀ g, ((pipeinit s f0 f1).file g).ref=(s.file g).ref := by
    intro g
    rw [hfile]
    split
    · next hg => rw [hg]
    · split
      · next hg => rw [hg]
      · rfl
  have hinodes : (pipeinit s f0 f1).inodes=s.inodes := by
    refine Finset.sum_congr rfl fun g _ => ?_
    rw [hfile]
    split
    · next hg => simp [File.inodes,hg,h1]
    · split
      · next hg => simp [File.inodes,hg,h0]
      · rfl
  refine ⟨fun g => ?_,fun g hg => ?_,?_,pipeinit_pipes h.pipes hne h0 h1⟩
  · rw [href]
    exact h.files g
  · rw [href] at hg
    rw [hfile,if_neg (by rintro rfl; omega),if_neg (by rintro rfl; omega)]
    exact h.idle g hg
  · rw [hinodes]
    exact h.inodes

end Pipeinit

theorem copyoutFds_spec (h : s.Sound u m) :
    (copyoutFds s).1.Sound u m ∧ SameProcs s (copyoutFds s).1 := by
  unfold copyoutFds
  split
  · exact ⟨h.attempt.attempt,⟨rfl,rfl⟩⟩
  · exact ⟨h.attempt,⟨rfl,rfl⟩⟩

structure Sys.During (s : Sys) (p : Slot) (cwd : Inum) (u : Multiset FileId) : Prop where
  sound : s.Sound u 0
  tidy : s.Tidy
  running : s.cwd p=some cwd

theorem Sys.During.counted (h : s.During p cwd 0) : s.Counted := ⟨h.sound,h.tidy⟩

theorem Sys.During.same (h : s.During p cwd u) {u' : Multiset FileId} (hst : SameProcs s t)
    (ht : t.Sound u' 0) : t.During p cwd u' :=
  ⟨ht,h.tidy.same hst,(congrFun hst.cwd p).trans h.running⟩

theorem Sys.During.install (h : s.During p cwd (u+{f})) (hfree : s.ofile (p, fd)=none) :
    (s.setOfile p fd (some f)).During p cwd u :=
  ⟨h.sound.install hfree,h.tidy.setOfile h.running _,h.running⟩

theorem Sys.During.remove (h : s.During p cwd u) (hf : s.ofile (p, fd)=some f) :
    (s.setOfile p fd none).During p cwd (u+{f}) :=
  ⟨h.sound.remove hf,h.tidy.setOfile h.running _,h.running⟩

theorem Sys.During.closeBoth {rf wf : FileId} (h : s.During p cwd (0+{rf}+{wf})) (r : Int) :
    Ends Panic.NotFile ((closeBoth s rf wf).map fun s => (s, r)) fun r => r.1.Counted := by
  obtain ⟨t,hclose,ht,hst⟩ := closeBoth_spec h.sound
  rw [hclose]
  exact .ok (h.same hst ht).counted

theorem pipeFds_spec {rf wf : FileId} (h : s.During p cwd (0+{wf}+{rf})) :
    Ends Panic.NotFile (pipeFds s p rf wf) fun r => r.1.Counted := by
  unfold pipeFds
  split
  · rw [add_right_comm] at h
    exact h.closeBoth (-1)
  · next s₁ fd0 halloc =>
    obtain ⟨hfree,hs₁⟩ := fdalloc_some halloc
    have hfd0 : s₁.ofile (p, fd0)=some rf := by
      rw [hs₁]
      exact update_self ..
    have h₁ : s₁.During p cwd (0+{wf}) := by
      rw [hs₁]
      exact h.install hfree
    split
    · have hback := h₁.remove hfd0
      rw [add_right_comm] at hback
      exact hback.closeBoth (-1)
    · next s₂ fd1 halloc' =>
      obtain ⟨hfree',hs₂⟩ := fdalloc_some halloc'
      have h₂ : s₂.During p cwd 0 := by
        rw [hs₂]
        exact h₁.install hfree'
      obtain ⟨hcopy,hst⟩ := copyoutFds_spec h₂.sound
      have h₃ := h₂.same hst hcopy
      split
      · exact .ok h₃.counted
      · have hne : (p, fd1)≠(p, fd0) := by
          intro heq
          rw [heq,hfd0] at hfree'
          cases hfree'
        have hof : (copyoutFds s₂).1.ofile=update s₁.ofile (p, fd1) (some wf) := by
          rw [hst.ofile,hs₂]
          rfl
        have hfd0' : (copyoutFds s₂).1.ofile (p, fd0)=some rf := by
          rw [hof,update_of_ne hne.symm,hfd0]
        have h₄ := h₃.remove hfd0'
        have hfd1 : ((copyoutFds s₂).1.setOfile p fd0 none).ofile (p, fd1)=some wf := by
          refine (update_of_ne hne ..).trans ?_
          rw [hof,update_self]
        exact (h₄.remove hfd1).closeBoth (-1)

/-- What the loop of `fork` keeps: the new process has no descriptor at a place still to come,
and the other processes keep theirs. -/
structure ForkLoop (s₀ : Sys) (np : Slot) (rest : List Fd) (s : Sys) : Prop where
  sound : s.Sound 0 0
  cwd : s.cwd=s₀.cwd
  nodup : rest.Nodup
  free : ∀ fd∈rest, s.ofile (np, fd)=none
  others : ∀ q≠np, ∀ fd, s.ofile (q, fd)=s₀.ofile (q, fd)

theorem forkFd_spec {s₀ : Sys} {np : Slot} {rest : List Fd} (h : ForkLoop s₀ np (fd::rest) s) :
    Yields (forkFd p np s fd) (ForkLoop s₀ np rest) := by
  obtain ⟨hnotin,hnodup⟩ := List.nodup_cons.mp h.nodup
  unfold forkFd
  split
  · exact .ok ⟨h.sound,h.cwd,hnodup,fun fd' hfd' => h.free fd' (List.mem_cons_of_mem _ hfd'),h.others⟩
  · next f hf =>
    obtain ⟨t,hdup,ht,hst,-⟩ := filedup_spec h.sound (h.sound.open_ hf)
    have hfree : t.ofile (np, fd)=none := by
      rw [hst.ofile]
      exact h.free fd (by simp)
    rw [hdup]
    refine .ok ⟨ht.install hfree,hst.cwd.trans h.cwd,hnodup,fun fd' hfd' => ?_,fun q hq fd' => ?_⟩
    · have hne : (np, fd')≠(np, fd) := by
        rintro ⟨⟩
        exact hnotin hfd'
      refine (update_of_ne hne ..).trans ?_
      rw [hst.ofile]
      exact h.free fd' (List.mem_cons_of_mem _ hfd')
    · have hne : (q, fd')≠(np, fd) := by
        rintro ⟨⟩
        exact hq rfl
      refine (update_of_ne hne ..).trans ?_
      rw [hst.ofile]
      exact h.others q hq fd'

theorem Sys.Sound.idup (h : s.Sound u m) {np : Slot} (hnp : s.cwd np=none) (i : Inum) :
    ((s.setFs (idup s.fs i)).setCwd np (some i)).Sound u m := by
  have hcwds := setCwd_cwds s np (some i)
  rw [hnp,single,single,add_zero] at hcwds
  have hfs : (FileSystem.idup s.fs i).Refs (s.inodes+(s.setCwd np (some i)).cwds+m) := by
    have hmove : s.inodes+(s.cwds+{i})+m=s.inodes+s.cwds+m+{i} := by abel
    rw [hcwds,hmove]
    exact h.inodes.idup
  exact { h with inodes := hfs }

structure ExitLoop (s₀ : Sys) (p : Slot) (rest : List Fd) (s : Sys) : Prop where
  sound : s.Sound 0 0
  cwd : s.cwd=s₀.cwd
  closed : ∀ fd, fd∉rest → s.ofile (p, fd)=none
  others : ∀ q≠p, ∀ fd, s.ofile (q, fd)=s₀.ofile (q, fd)

theorem exitFd_spec {s₀ : Sys} {rest : List Fd} (h : ExitLoop s₀ p (fd::rest) s) :
    Yields (exitFd p s fd) (ExitLoop s₀ p rest) := by
  unfold exitFd
  split
  · next hnone =>
    refine .ok ⟨h.sound,h.cwd,fun fd' hfd' => ?_,h.others⟩
    by_cases heq : fd'=fd
    · rw [heq,hnone]
    · exact h.closed fd' (by simp [heq,hfd'])
  · next f hf =>
    -- the file is closed while the descriptor still points at it
    obtain ⟨t,hclose,ht,hst⟩ := fileclose_spec (h.sound.remove hf)
    rw [fileclose_setOfile] at hclose
    cases hfc : fileclose s f with
    | error e =>
      rw [hfc] at hclose
      cases hclose
    | ok v =>
      rw [hfc] at hclose
      obtain rfl : v.setOfile p fd none=t := Except.ok.inj hclose
      refine .ok ⟨ht,?_,fun fd' hfd' => ?_,fun q hq fd' => ?_⟩
      · exact hst.cwd.trans h.cwd
      · by_cases heq : fd'=fd
        · rw [heq]
          exact update_self ..
        · refine (congrFun hst.ofile (p, fd')).trans ?_
          refine (update_of_ne (fun hpair => heq (congrArg Prod.snd hpair)) ..).trans ?_
          exact h.closed fd' (by simp [heq,hfd'])
      · refine (congrFun hst.ofile (q, fd')).trans ?_
        refine (update_of_ne (fun hpair => hq (congrArg Prod.fst hpair)) ..).trans ?_
        exact h.others q hq fd'

theorem Sys.Sound.exit (h : s.Sound u m) (hp : s.cwd p=some cwd) :
    ((s.setFs (FileSystem.iput s.fs cwd)).setCwd p none).Sound u m := by
  have hcwds := setCwd_cwds s p none
  rw [hp,single,single,add_zero] at hcwds
  have hfs : s.fs.Refs (s.inodes+(s.setCwd p none).cwds+m+{cwd}) := by
    have hmove : s.inodes+(s.setCwd p none).cwds+m+{cwd} =
        s.inodes+((s.setCwd p none).cwds+{cwd})+m := by abel
    rw [hmove,hcwds]
    exact h.inodes
  exact { h with inodes := hfs.iput }

section Counts
variable (h : s.Counted)
include h

theorem pipealloc_spec : Ends Panic.NotFile (pipealloc s) fun r => SameProcs s r.1 ∧
      match r.2 with
      | none => r.1.Sound 0 0
      | some (rf, wf) => r.1.Sound (0+{rf}+{wf}) 0 := by
  unfold pipealloc
  obtain hnone | ⟨f0,x0,hsome,h0,-,hx0⟩ := filealloc_spec h.sound
  · rw [hnone]
    exact .ok ⟨.refl s,h.sound⟩
  · rw [hsome]
    dsimp only
    obtain hnone | ⟨f1,x1,hsome',h1,hzero,hx1⟩ := filealloc_spec h0
    · rw [hnone]
      obtain ⟨t,hclose,ht,hst⟩ := fileclose_spec h0
      dsimp only
      rw [hclose]
      exact .ok ⟨⟨hst.ofile,hst.cwd⟩,ht⟩
    · rw [hsome']
      have hne : f0≠f1 := by
        rintro rfl
        have := h0.held
        omega
      dsimp only
      split
      · have hnone0 : (update (update s.file f0 x0) f1 x1 f0).type=.none := by
          rw [update_of_ne hne,update_self,hx0]
        have hnone1 : (update (update s.file f0 x0) f1 x1 f1).type=.none := by
          rw [update_self,hx1]
        exact .ok ⟨⟨rfl,rfl⟩,pipeinit_spec h1.attempt hne hnone0 hnone1 h1.held' h1.held⟩
      · obtain ⟨t,hclose,ht,hst⟩ := closeBoth_spec h1.attempt
        rw [hclose]
        exact .ok ⟨⟨hst.ofile,hst.cwd⟩,ht⟩

theorem sysFork_spec (p : Slot) (cwd : Inum) :
    Ends Panic.NotFile (sysFork s p cwd) fun r => r.1.Counted := by
  unfold sysFork
  split
  · exact .ok h
  · next np hfind =>
    have hnp : s.cwd np=none := by
      have hunused := List.find?_some hfind
      simp only [Sys.unused,decide_eq_true_eq] at hunused
      exact hunused.1
    split
    · exact .ok ⟨h.sound.attempt,h.tidy⟩
    · split
      · exact .ok ⟨h.sound.attempt.attempt,h.tidy⟩
      · have hstart : ForkLoop s np (List.finRange nofile) s.attempt.attempt :=
          ⟨h.sound.attempt.attempt,rfl,List.nodup_finRange _,fun fd _ => h.tidy np hnp fd,
            fun _ _ _ => rfl⟩
        refine ((Yields.foldlM (fun _ _ _ => forkFd_spec) hstart).ends).bind fun t ht => ?_
        have hnp' : t.cwd np=none := by
          rw [ht.cwd]
          exact hnp
        refine .ok ⟨ht.sound.idup hnp' cwd,fun q hq fd => ?_⟩
        change update t.cwd np (some cwd) q=none at hq
        by_cases hqn : q=np
        · rw [hqn,update_self] at hq
          cases hq
        · rw [update_of_ne hqn,ht.cwd] at hq
          exact (ht.others q hqn fd).trans (h.tidy q hq fd)

theorem Sys.Counted.onFs {x : Except Panic (Fs × Int)}
    (hx : Ends Panic.NotFile x fun r => r.1.Refs (s.inodes+s.cwds+0)) :
    Ends Panic.NotFile (s.onFs x) fun r => r.1.Counted :=
  hx.bind fun _ hr => .ok ⟨h.sound.setFs hr,h.tidy⟩

theorem Sys.Counted.withPath (path : List UInt8) {k : List UInt8 → Except Panic (Sys × Int)}
    (hk : ∀ path, Ends Panic.NotFile (k path) fun r => r.1.Counted) :
    Ends Panic.NotFile (s.withPath path k) fun r => r.1.Counted := by
  unfold Sys.withPath
  split
  · exact .ok h
  · exact hk _

variable (hp : s.cwd p=some cwd)
include hp

theorem sysDup_spec (n : Int) : Ends Panic.NotFile (sysDup s p n) fun r => r.1.Counted := by
  unfold sysDup
  split
  · exact .ok h
  · next fd f harg =>
    split
    · exact .ok h
    · next t fd' halloc =>
      obtain ⟨hfree,rfl⟩ := fdalloc_some halloc
      obtain ⟨t,hdup,ht,hst,-⟩ := filedup_spec h.sound (h.sound.open_ (argfd_some harg))
      have hdup' : filedup (s.setOfile p fd' (some f)) f=.ok (t.setOfile p fd' (some f)) := by
        unfold filedup at hdup ⊢
        split at hdup
        · cases hdup
        · cases hdup
          rename_i href
          exact if_neg href
      rw [hdup']
      refine .ok ⟨ht.install (by rw [hst.ofile]; exact hfree),?_⟩
      exact (h.tidy.same hst).setOfile (by rw [hst.cwd]; exact hp) _

theorem sysClose_spec (n : Int) : Ends Panic.NotFile (sysClose s p n) fun r => r.1.Counted := by
  unfold sysClose
  split
  · exact .ok h
  · next fd f harg =>
    obtain ⟨t,hclose,ht,hst⟩ := fileclose_spec (h.sound.remove (argfd_some harg))
    rw [hclose]
    exact .ok ⟨ht,(h.tidy.setOfile hp none).same hst⟩

theorem sysOpen_spec (path : List UInt8)
    (omode : BitVec 32) : Ends Panic.NotFile (sysOpen s p cwd path omode) fun r => r.1.Counted := by
  refine (openInode_spec h.sound.inodes path omode).bind fun r hr => ?_
  obtain ⟨fs,r⟩ := r
  cases r with
  | none => exact .ok ⟨h.sound.setFs hr,h.tidy⟩
  | some ip =>
    have hopen : (s.setFs fs).Sound 0 (0+{ip}) := by
      refine h.sound.setFs ?_
      rw [← add_assoc]
      exact hr
    exact openFile_spec hopen h.tidy hp omode

theorem sysChdir_spec (path : List UInt8) :
    Ends Panic.NotFile (sysChdir s p cwd path) fun r => r.1.Counted := by
  refine (h.sound.inodes.namei cwd path).bind fun r hr => ?_
  obtain ⟨fs,r⟩ := r
  cases r with
  | none => exact .ok ⟨h.sound.setFs hr,h.tidy⟩
  | some ip =>
    refine Ends.bind (Fs.Refs.ilock hr) fun fs hlock => ?_
    split
    · exact .ok ⟨h.sound.setFs hlock.iput,h.tidy⟩
    · have hcwds := setCwd_cwds s p (some ip)
      rw [hp,single,single] at hcwds
      have hfs : fs.Refs (s.inodes+(s.setCwd p (some ip)).cwds+0+{cwd}) := by
        have hsum : s.inodes+(s.setCwd p (some ip)).cwds+0+{cwd} =
            s.inodes+((s.setCwd p (some ip)).cwds+{cwd}) := by abel
        rw [hsum,hcwds]
        convert hlock using 1
        dsimp only [got]
        abel
      exact .ok ⟨{ h.sound with inodes := hfs.iput },h.tidy.setCwd p ip⟩

theorem sysPipe_spec : Ends Panic.NotFile (sysPipe s p) fun r => r.1.Counted := by
  have hduring : s.During p cwd 0 := ⟨h.sound,h.tidy,hp⟩
  refine (pipealloc_spec h).bind fun r hr => ?_
  obtain ⟨t,r⟩ := r
  obtain ⟨hsame,hsound⟩ := hr
  cases r with
  | none => exact .ok (hduring.same hsame hsound).counted
  | some x =>
    have hswap : t.Sound (0+{x.2}+{x.1}) 0 := by
      rw [add_right_comm]
      exact hsound
    exact pipeFds_spec (hduring.same hsame hswap)

theorem sysExit_spec : Ends Panic.NotFile (sysExit s p cwd) fun t => t.Counted := by
  unfold sysExit
  split
  · exact .error (by decide)
  · have hstart : ExitLoop s p (List.finRange nofile) s :=
      ⟨h.sound,rfl,fun fd hfd => absurd (List.mem_finRange fd) hfd,fun _ _ _ => rfl⟩
    refine ((Yields.foldlM (fun _ _ _ => exitFd_spec) hstart).ends).bind fun t ht => ?_
    have hp' : t.cwd p=some cwd := by
      rw [ht.cwd]
      exact hp
    have hsound := ht.sound.exit hp'
    refine .ok ⟨{ hsound with },fun q hq fd => ?_⟩
    change update t.cwd p none q=none at hq
    by_cases hqp : q=p
    · rw [hqp]
      exact ht.closed fd (by simp)
    · rw [update_of_ne hqp,ht.cwd] at hq
      exact (ht.others q hqp fd).trans (h.tidy q hq fd)

theorem Call.exec_spec (c : Call) : Ends Panic.NotFile (c.exec s p cwd) fun r => r.1.Counted := by
  have hfs := h.sound.inodes
  cases c with
  | open_ path omode => exact h.withPath path fun path => sysOpen_spec h hp path omode
  | close fd => exact sysClose_spec h hp fd
  | dup fd => exact sysDup_spec h hp fd
  | pipe => exact sysPipe_spec h hp
  | fork => exact sysFork_spec h p cwd
  | chdir path => exact h.withPath path fun path => sysChdir_spec h hp path
  | exit => exact Ends.map (f := fun s => (s, 0)) (sysExit_spec h hp)
  | mkdir path => exact h.withPath path fun path => h.onFs (hfs.createOnly cwd path .dir 0 0)
  | mknod path major minor =>
    exact h.withPath path fun path => h.onFs (hfs.createOnly cwd path .device major minor)
  | link old new =>
    exact h.withPath old fun old => h.withPath new fun new => h.onFs (hfs.sysLink cwd old new)
  | unlink path => exact h.withPath path fun path => h.onFs (hfs.sysUnlink cwd path)

end Counts

theorem step_counted {e : Event} (h : s.Counted) (hs : step s e=some t) : t.Counted := by
  cases e with
  | call p c =>
    cases hp : s.cwd p with
    | none => simp [step,Sys.exec,hp] at hs
    | some cwd =>
      obtain ⟨r,hr,hcounted⟩ | ⟨e,he,-⟩ := Call.exec_spec h hp c
      · simp only [step,Sys.exec,hp,Option.map_some,Option.bind_some,hr,Except.toOption] at hs
        cases hs
        exact hcounted
      · simp [step,Sys.exec,hp,he,Except.toOption] at hs
  | wait p =>
    simp only [step] at hs
    split at hs
    · cases hs
      exact ⟨{ h.sound with },h.tidy⟩
    · cases hs

end Calls

theorem boot_counted (image : Image) (fails : Nat → Bool) : (boot image fails).Counted := by
  have hfds : (boot image fails).fds=0 := Finset.sum_eq_zero fun _ _ => rfl
  have hinodes : (boot image fails).inodes=0 := Finset.sum_eq_zero fun _ _ => rfl
  have hcwds : (boot image fails).cwds={rootino} := by
    have hsum := sum_comp_update single (fun _ : Slot => none) (Finset.mem_univ initproc) (some rootino)
    have hnone : ∑ p : Slot, single ((fun _ => none : Slot → Option Inum) p)=0 :=
      Finset.sum_eq_zero fun _ _ => rfl
    rw [hnone] at hsum
    change (boot image fails).cwds+0=0+{rootino} at hsum
    rwa [add_zero,zero_add] at hsum
  refine ⟨⟨fun f => ?_,fun _ _ => rfl,fun i => ?_,?_⟩,fun _ _ _ => rfl⟩
  · rw [hfds]
    rfl
  · rw [hinodes,hcwds]
    change update (fun _ => (0 : Int)) rootino 1 i=_
    by_cases hi : i=rootino
    · simp [hi]
    · simp [hi]
  · refine ⟨fun _ _ _ h => ?_,fun _ _ _ _ h => ?_,fun n hn => absurd hn (Nat.not_lt_zero n),
      fun n hn => absurd hn (Nat.not_lt_zero n)⟩
    · cases h.1
    · cases h.1

theorem run_counted {image : Image} {fails : Nat → Bool} {es : List Event}
    (hrun : run step es (boot image fails)=some s) : s.Counted :=
  run_invariant (fun _ _ _ => step_counted) (boot_counted image fails) hrun

def File.Holds (x : File) (i : Inum) : Prop :=
  0 < x.ref ∧ (x.type=.inode ∨ x.type=.device) ∧ x.ip=i

instance File.Holds.decidable (x : File) (i : Inum) : Decidable (x.Holds i) :=
  inferInstanceAs (Decidable (_ ∧ _ ∧ _))

structure Sys.Exact (s : Sys) : Prop where
  files : ∀ f, (s.file f).ref=(Finset.univ.filter fun x => s.ofile x=some f).card
  inodes : ∀ i, s.fs.ref i=(Finset.univ.filter fun f => (s.file f).Holds i).card +
    (Finset.univ.filter fun p => s.cwd p=some i).card
  readopen : ∀ n < s.npipes, (s.pipe n).readopen=true ↔
    ∃ f, 0 < (s.file f).ref ∧ (s.file f).IsEnd n false
  writeopen : ∀ n < s.npipes, (s.pipe n).writeopen=true ↔
    ∃ f, 0 < (s.file f).ref ∧ (s.file f).IsEnd n true
  freed : ∀ n < s.npipes, (s.pipe n).freed = if (s.pipe n).readopen ∨ (s.pipe n).writeopen then 0 else 1

theorem count_sum_single {ι α : Type} [Fintype ι] [DecidableEq α] (g : ι → Option α) (a : α) :
    (∑ x, single (g x)).count a=(Finset.univ.filter fun x => g x=some a).card := by
  rw [Multiset.count_sum',Finset.card_filter]
  refine Finset.sum_congr rfl fun x _ => ?_
  cases hx : g x with
  | none => simp [single]
  | some b => simp [single,Multiset.count_singleton,eq_comm]

theorem Sys.Sound.isOpen (h : s.Sound u m) {n : PipeId} {w : Bool} (hf : (s.file f).IsEnd n w) :
    0<(s.file f).ref := by
  rcases Nat.eq_zero_or_pos (s.file f).ref with hzero | hpos
  · rw [File.IsEnd,h.idle f hzero] at hf
    cases hf.1
  · exact hpos

theorem Sys.Sound.count_inodes (h : s.Sound u m) (i : Inum) :
    s.inodes.count i=(Finset.univ.filter fun f => (s.file f).Holds i).card := by
  unfold Sys.inodes
  rw [Multiset.count_sum',Finset.card_filter]
  refine Finset.sum_congr rfl fun f _ => ?_
  rcases Nat.eq_zero_or_pos (s.file f).ref with hzero | hpos
  · simp [File.inodes,File.Holds,h.idle f hzero]
  · cases htype : (s.file f).type with
    | none | pipe => simp [File.inodes,File.Holds,htype]
    | inode | device => simp [File.inodes,File.Holds,htype,hpos,Multiset.count_singleton,eq_comm]

theorem Sys.Counted.exact (h : s.Counted) : s.Exact where
  files f := by
    rw [h.sound.files f,add_zero]
    exact count_sum_single s.ofile f
  inodes i := by
    rw [h.sound.inodes i,add_zero,Multiset.count_add,h.sound.count_inodes,Nat.cast_add]
    exact congrArg _ (congrArg _ (count_sum_single s.cwd i))
  readopen n hn := by
    refine (h.sound.pipes.opened n hn false).trans (exists_congr fun f => ?_)
    exact ⟨fun hf => ⟨h.sound.isOpen hf,hf⟩,And.right⟩
  writeopen n hn := by
    refine (h.sound.pipes.opened n hn true).trans (exists_congr fun f => ?_)
    exact ⟨fun hf => ⟨h.sound.isOpen hf,hf⟩,And.right⟩
  freed := h.sound.pipes.freed

/-- Between calls every reference count is the number of holders, whatever calls were made,
on whatever image, and wherever they failed; and no call panics in `filedup` or `fileclose`. -/
theorem reference_counts_exact {image : Image} {fails : Nat → Bool} {es : List Event}
    (hrun : run step es (boot image fails)=some s) :
    s.Exact ∧ ∀ p c, s.exec p c≠some (.error .filedup) ∧ s.exec p c≠some (.error .fileclose) := by
  have hcounted := run_counted hrun
  have hpanic : ∀ p c e, s.exec p c=some (.error e) → e.NotFile := by
    intro p c e he
    obtain ⟨cwd,hp,hexec⟩ := Option.map_eq_some_iff.mp he
    obtain ⟨r,hr,-⟩ | ⟨e',he',hother⟩ := Call.exec_spec hcounted hp c
    · rw [hr] at hexec
      cases hexec
    · rw [he'] at hexec
      cases hexec
      exact hother
  exact ⟨hcounted.exact,fun p c => ⟨fun he => (hpanic p c _ he).1 rfl,fun he => (hpanic p c _ he).2 rfl⟩⟩

def tinyImage : Image where
  ninodes := 4
  inode i :=
    if i=1 then ⟨.dir,0,0,1,[⟨1,dot,0⟩,⟨1,dotdot,0⟩,⟨2,[97],0⟩]⟩
    else if i=2 then ⟨.file,0,0,1,[]⟩
    else ⟨.free,0,0,0,[]⟩

def second : Slot := ⟨1,one_lt_nproc⟩

def sharing : List Event :=
  [.call initproc (.open_ [97] 2),.call initproc (.dup 0),.call initproc .pipe,
    .call initproc .fork,.call second (.close 2),.call second (.unlink [97]),
    .call second (.mkdir [100]),.call second (.chdir [100]),.call initproc (.close 3),
    .call second .exit,.wait second]

def shared : Sys := (run step sharing (boot tinyImage fun _ => false)).get (by decide +kernel)

theorem shared_counts_exact : shared.Exact ∧ ∀ p c, shared.exec p c≠some (.error .filedup) ∧
      shared.exec p c≠some (.error .fileclose) :=
  reference_counts_exact (Option.some_get _).symm

end Xv6.FileSystem
