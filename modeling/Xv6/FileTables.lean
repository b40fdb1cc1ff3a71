import Xv6.FileRefs
import Xv6.PipeFiles

/-! The two file tables of this model: `FileSystem` has the files with their inodes, `UserMemory` the
pages that pipes lie on. `filealloc`, `filedup`, `fileclose` and `fdalloc` do the same to both. -/
namespace Xv6.FileSystem
open Function
open Xv6.Vm (Page Mem)

/-- What the account of pages keeps of a file. -/
def held (page : PipeId → Page) (x : File) : UserMemory.File :=
  ⟨x.ref,if x.type=.pipe then .pipe (page x.pipe) x.writable else .none⟩

/-- The tables have the same files, and the pipes of these, each on its own page. -/
structure Agree (page : PipeId → Page) (files : FileId → File)
    (pipes : PipeId → Pipe) (fs : UserMemory.Files) : Prop where
  file : fs.file=held page∘files
  pipe : ∀ f n w, (files f).IsEnd n w → ∀ w', (fs.pipe (page n)).isOpen w'=(pipes n).isOpen w'
  apart : ∀ f g n k w w', (files f).IsEnd n w → (files g).IsEnd k w' → page n=page k → n=k

variable {page : PipeId → Page} {s t : Sys} {fs gs : UserMemory.Files} {m m' : Mem}
  {f : FileId}

theorem pipeclose_files {pi : Page} {w : Bool} (hm : UserMemory.pipeclose m fs pi w=.ok (m', gs)) :
    gs=⟨fs.file,update fs.pipe pi ((fs.pipe pi).shut w)⟩ := by
  rw [UserMemory.pipeclose_eq] at hm
  split at hm
  · cases hm
    rfl
  · obtain ⟨m₁,-,hret⟩ := Total.bind_eq_ok.mp hm
    cases hret
    rfl

theorem fdalloc_agree {x : UserMemory.Task} {p : Slot} (h : ∀ fd, x.ofile fd=s.ofile (p, fd)) :
    (UserMemory.fdalloc x f).2=(fdalloc s p f).map Prod.snd ∧
      ∀ r∈fdalloc s p f, ∀ fd, (UserMemory.fdalloc x f).1.ofile fd=r.1.ofile (p, fd) := by
  unfold UserMemory.fdalloc fdalloc
  simp only [h]
  cases (List.finRange nofile).find? fun fd => s.ofile (p, fd)=none with
  | none => simp
  | some fd =>
    refine ⟨rfl,?_⟩
    rintro r ⟨⟩ fd'
    by_cases hfd : fd'=fd
    · simp [Sys.setOfile,hfd]
    · simp [Sys.setOfile,hfd,h]

section Steps
variable (h : Agree page s.file s.pipe fs)
include h

theorem Agree.ref (f : FileId) : (fs.file f).ref=(s.file f).ref := by
  rw [h.file]
  rfl

/-- A function on files gives no file an end of a pipe that it did not have. -/
theorem Agree.keep {pipe : PipeId → Pipe} {pages : Page → UserMemory.Pipe}
    {x : File} (hx : ∀ n w, x.IsEnd n w → (s.file f).IsEnd n w)
    (hpipe : ∀ g n w, (s.file g).IsEnd n w → ∀ w', (pages (page n)).isOpen w'=(pipe n).isOpen w') :
    Agree page (update s.file f x) pipe ⟨update fs.file f (held page x),pages⟩ := by
  have hends : ∀ g n w, (update s.file f x g).IsEnd n w → (s.file g).IsEnd n w := by
    intro g n w hg
    by_cases hgf : g=f
    · subst hgf
      exact hx n w (by rwa [update_self] at hg)
    · rwa [update_of_ne hgf] at hg
  refine ⟨?_,fun g n w hg => hpipe g n w (hends g n w hg),fun g g' n k w w' hg hg' => ?_⟩
  · rw [h.file]
    exact (comp_update ..).symm
  · exact h.apart g g' n k w w' (hends g n w hg) (hends g' k w' hg')

theorem Agree.setRef (f : FileId) (r : Nat) : Agree page (update s.file f { s.file f with ref := r })
    s.pipe { fs with file := update fs.file f { fs.file f with ref := r } } := by
  have hf : { fs.file f with ref := r } = held page { s.file f with ref := r } := by
    rw [h.file]
    rfl
  rw [hf]
  exact h.keep (fun _ _ => id) h.pipe

theorem filealloc_agree : (UserMemory.filealloc fs).2=(filealloc s).2 ∧ Agree page
    (filealloc s).1.file (filealloc s).1.pipe (UserMemory.filealloc fs).1 := by
  unfold UserMemory.filealloc filealloc
  simp only [h.ref]
  cases (List.finRange nfile).find? fun f => (s.file f).ref=0 with
  | none => exact ⟨rfl,h⟩
  | some f => exact ⟨rfl,h.setRef f 1⟩

theorem filedup_agree (hs : filedup s f=.ok t) :
    ∃ gs, UserMemory.filedup fs f=.ok gs ∧ Agree page t.file t.pipe gs := by
  unfold filedup at hs
  unfold UserMemory.filedup
  rw [h.ref]
  split at hs
  · cases hs
  · next hpos =>
    cases hs
    exact ⟨_,if_neg hpos,h.setRef f _⟩

theorem fileclose_agree (hs : fileclose s f=.ok t)
    (hm : UserMemory.fileclose m fs f=.ok (m', gs)) : Agree page t.file t.pipe gs := by
  have htype : (fs.file f).type=(held page (s.file f)).type := by
    rw [h.file]
    rfl
  unfold fileclose at hs
  unfold UserMemory.fileclose at hm
  rw [h.ref] at hm
  dsimp only at hs hm
  split_ifs at hs hm
  · cases hs
    cases hm
    exact h.setRef f _
  rw [htype] at hm
  have hx (n : PipeId) (w : Bool) (hend : { s.file f with ref := 0, type := .none }.IsEnd n w) :
      (s.file f).IsEnd n w := by cases hend.1
  cases hk : (s.file f).type with
  | none | inode | device =>
    simp only [hk,held,reduceCtorEq,if_false] at hs hm
    cases hs
    cases hm
    exact h.keep hx h.pipe
  | pipe =>
    simp only [hk,held,if_true] at hs hm
    cases hs
    obtain rfl := pipeclose_files hm
    refine h.keep hx fun g n w hg w' => ?_
    have hf : (s.file f).IsEnd (s.file f).pipe (s.file f).writable := ⟨hk,rfl,rfl⟩
    by_cases hn : n=(s.file f).pipe
    · rw [hn,update_self,UserMemory.Pipe.isOpen_shut,h.pipe f _ _ hf,pipeclose]
      simp [Sys.setPipe,Sys.setFile,isOpen_close]
    · rw [update_of_ne fun he => hn (h.apart g f _ _ w _ hg hf he),h.pipe g n w hg]
      simp [pipeclose,Sys.setPipe,Sys.setFile,hn]

end Steps

end Xv6.FileSystem
