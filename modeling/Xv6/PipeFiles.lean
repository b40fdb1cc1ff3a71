import Xv6.VmSpec
import Xv6.UserMemory

/-! The file table and the pipes. A pipe lies on a page of its own as long as one of its
ends is open, and each end is one entry of the file table; `readopen` and `writeopen`
say which ends there are. -/
namespace Xv6.UserMemory
open Function Xv6.PageTree Xv6.Total Xv6.Vm
variable {kend : Nat} {m : Mem} {rest : Multiset Page} {fs : Files} {cnt : FileId → Nat} {f : FileId}

def Pipe.isOpen (q : Pipe) (writable : Bool) : Bool := if writable then q.writeopen else q.readopen

structure Files.Sound (fs : Files) (cnt : FileId → Nat) : Prop where
  refs : ∀ f, (fs.file f).ref=cnt f
  idle : ∀ f, cnt f=0 → (fs.file f).type=.none
  ends : ∀ f g pi w, (fs.file f).type=.pipe pi w → (fs.file g).type=.pipe pi w → f=g
  opened : ∀ f pi w, (fs.file f).type=.pipe pi w → ∀ w', (fs.pipe pi).isOpen w'=true ↔
    ∃ g, (fs.file g).type=.pipe pi w'

def FileType.pages : FileType → Finset Page
  | .none => ∅
  | .pipe pi _ => {pi}

def Files.pages (fs : Files) : Finset Page := Finset.univ.biUnion fun f => (fs.file f).type.pages

theorem Files.mem_pages {pi : Page} : pi∈fs.pages ↔ ∃ f w, (fs.file f).type=.pipe pi w := by
  simp only [Files.pages,Finset.mem_biUnion,Finset.mem_univ,true_and]
  refine exists_congr fun f => ?_
  cases (fs.file f).type with
  | none => simp [FileType.pages]
  | pipe pi' w => simp [FileType.pages,eq_comm]

def Files.setRef (fs : Files) (f : FileId) (k : Nat) : Files :=
  { fs with file := update fs.file f { fs.file f with ref := k } }

theorem Files.setRef_type (g : FileId) (k : Nat) :
    ((fs.setRef f k).file g).type=(fs.file g).type := by
  by_cases hg : g=f
  · simp [setRef,hg]
  · simp [setRef,hg]

theorem Files.setRef_pages (k : Nat) : (fs.setRef f k).pages=fs.pages := by
  simp only [pages,setRef_type]

theorem Files.Sound.setRef (h : fs.Sound cnt) {k : Nat} (hk : k=0 → (fs.file f).type=.none) :
    (fs.setRef f k).Sound (update cnt f k) := by
  refine ⟨fun g => ?_,fun g hg => ?_,?_,?_⟩
  · by_cases hgf : g=f
    · simp [Files.setRef,hgf]
    · simp [Files.setRef,hgf,h.refs]
  · rw [Files.setRef_type]
    by_cases hgf : g=f
    · rw [hgf,update_self] at hg
      rw [hgf,hk hg]
    · rw [update_of_ne hgf] at hg
      exact h.idle g hg
  · simp only [Files.setRef_type]
    exact h.ends
  · simp only [Files.setRef_type]
    exact h.opened

theorem filealloc_spec (h : fs.Sound cnt) :
    filealloc fs=(fs, none) ∨
      ∃ f, filealloc fs=(fs.setRef f 1, some f) ∧ cnt f=0 ∧ (fs.setRef f 1).Sound (update cnt f 1) := by
  unfold filealloc
  cases hfind : (List.finRange nfile).find? fun f => (fs.file f).ref=0 with
  | none => exact .inl rfl
  | some f =>
    have hzero : (fs.file f).ref=0 := by simpa using List.find?_some hfind
    exact .inr ⟨f,rfl,(h.refs f).symm.trans hzero,h.setRef (by simp)⟩

theorem filedup_spec (h : fs.Sound cnt) (hf : 0 < cnt f) :
    Yields (filedup fs f) fun fs' => fs'.Sound (update cnt f (cnt f+1)) ∧ fs'.pages=fs.pages := by
  have hdup : filedup fs f=.ok (fs.setRef f (cnt f+1)) := by
    rw [filedup,if_neg (by rw [h.refs]; omega),h.refs]
    rfl
  rw [hdup]
  exact .ok ⟨h.setRef (by simp),Files.setRef_pages _⟩

def Pipe.shut (q : Pipe) (w : Bool) : Pipe :=
  if w then { q with writeopen := false } else { q with readopen := false }

theorem Pipe.isOpen_shut (q : Pipe) (w w' : Bool) :
    (q.shut w).isOpen w'=(q.isOpen w' && w' != w) := by
  cases w <;> cases w' <;> simp [shut,isOpen]

def Files.drop (fs : Files) (f : FileId) (pi : Page) (w : Bool) : Files :=
  ⟨update fs.file f ⟨0,.none⟩,update fs.pipe pi ((fs.pipe pi).shut w)⟩

theorem Files.drop_type {pi : Page} {w : Bool} (g : FileId) :
    ((fs.drop f pi w).file g).type = if g=f then .none else (fs.file g).type := by
  by_cases hg : g=f
  · simp [drop,hg]
  · simp [drop,hg]

section Drop
variable {pi : Page} {w : Bool}

theorem Files.Sound.drop_end (h : fs.Sound cnt) (hf : (fs.file f).type=.pipe pi w) {g : FileId}
    {pi' : Page} {w' : Bool} : ((fs.drop f pi w).file g).type=.pipe pi' w' ↔
      (fs.file g).type=.pipe pi' w' ∧ ¬ (pi'=pi ∧ w'=w) := by
  rw [Files.drop_type]
  by_cases hg : g=f
  · subst hg
    rw [if_pos rfl,hf]
    simp [eq_comm]
  · rw [if_neg hg]
    refine ⟨fun hg' => ⟨hg',?_⟩,And.left⟩
    rintro ⟨rfl,rfl⟩
    exact hg (h.ends _ _ _ _ hg' hf)

theorem Files.Sound.drop (h : fs.Sound cnt) (hf : (fs.file f).type=.pipe pi w) :
    (fs.drop f pi w).Sound (update cnt f 0) := by
  refine ⟨fun g => ?_,fun g hg => ?_,fun g g' pi' w' hg hg' => ?_,fun g pi' w' hg w'' => ?_⟩
  · by_cases hgf : g=f
    · simp [Files.drop,hgf]
    · simp [Files.drop,hgf,h.refs]
  · rw [Files.drop_type]
    by_cases hgf : g=f
    · rw [if_pos hgf]
    · rw [update_of_ne hgf] at hg
      rw [if_neg hgf,h.idle g hg]
  · exact h.ends g g' pi' w' ((h.drop_end hf).mp hg).1 ((h.drop_end hf).mp hg').1
  · have hold := h.opened g pi' w' ((h.drop_end hf).mp hg).1 w''
    simp only [h.drop_end hf,exists_and_right,← hold]
    by_cases hpi : pi'=pi
    · simp [Files.drop,hpi,Pipe.isOpen_shut]
    · simp [Files.drop,hpi]

theorem Files.Sound.mem_pages_drop (h : fs.Sound cnt) (hf : (fs.file f).type=.pipe pi w)
    {pa : Page} :
    pa∈(fs.drop f pi w).pages ↔ pa∈fs.pages ∧ (pa=pi → (fs.pipe pi).isOpen (!w)=true) := by
  simp only [Files.mem_pages,h.drop_end hf]
  by_cases hpa : pa=pi
  · subst hpa
    rw [h.opened f pa w hf (!w)]
    constructor
    · rintro ⟨g,w',hg,hne⟩
      obtain rfl : w' = !w := by simpa [Bool.eq_not] using hne
      exact ⟨⟨g,_,hg⟩,fun _ => ⟨g,hg⟩⟩
    · rintro ⟨-,hopen⟩
      obtain ⟨g,hg⟩ := hopen rfl
      exact ⟨g,!w,hg,by simp⟩
  · simp [hpa]

end Drop

theorem pipeclose_eq (m : Mem) (fs : Files) (pi : Page) (w : Bool) :
    pipeclose m fs pi w =
      if (fs.pipe pi).isOpen (!w) then .ok (m, ⟨fs.file,update fs.pipe pi ((fs.pipe pi).shut w)⟩)
      else kfree m pi >>= fun m => .ok (m, ⟨fs.file,update fs.pipe pi ((fs.pipe pi).shut w)⟩) := by
  cases w with
  | false => cases hw : (fs.pipe pi).writeopen <;> simp [pipeclose,Pipe.shut,Pipe.isOpen,hw]
  | true => cases hr : (fs.pipe pi).readopen <;> simp [pipeclose,Pipe.shut,Pipe.isOpen,hr]

theorem pipeclose_spec {pi : Page} {w : Bool} (h : fs.Sound cnt)
    (hf : (fs.file f).type=.pipe pi w) (hacc : Accounts kend m (rest+fs.pages.val)) :
    Yields (pipeclose m { fs with file := update fs.file f ⟨0,.none⟩ } pi w) fun r =>
      Accounts kend r.1 (rest+r.2.pages.val) ∧ r.2.Sound (update cnt f 0) := by
  have hmem : pi∈fs.pages := Files.mem_pages.mpr ⟨f,w,hf⟩
  rw [pipeclose_eq]
  change Yields (if (fs.pipe pi).isOpen (!w) then .ok (m, fs.drop f pi w)
    else kfree m pi >>= fun m => .ok (m, fs.drop f pi w)) _
  by_cases hopen : (fs.pipe pi).isOpen (!w)=true
  · rw [if_pos hopen]
    have hpages : (fs.drop f pi w).pages=fs.pages := by
      ext pa
      rw [h.mem_pages_drop hf]
      exact and_iff_left fun _ => hopen
    exact .ok ⟨hacc.congr (by rw [hpages]),h.drop hf⟩
  · rw [if_neg hopen]
    have hpages : fs.pages=insert pi (fs.drop f pi w).pages := by
      ext pa
      rw [Finset.mem_insert,h.mem_pages_drop hf]
      by_cases hpa : pa=pi
      · simp [hpa,hmem]
      · simp [hpa]
    have hnot : pi∉(fs.drop f pi w).pages := fun hpi => hopen (((h.mem_pages_drop hf).mp hpi).2 rfl)
    have hfree : Accounts kend m (rest+(fs.drop f pi w).pages.val+{pi}) := by
      refine hacc.congr ?_
      rw [hpages,Finset.insert_val_of_notMem hnot,← Multiset.singleton_add]
      abel
    exact hfree.kfree.bind fun m₁ h₁ => .ok ⟨h₁,h.drop hf⟩

theorem fileclose_spec (h : fs.Sound cnt) (hf : 0 < cnt f)
    (hacc : Accounts kend m (rest+fs.pages.val)) :
    Yields (fileclose m fs f) fun r =>
      Accounts kend r.1 (rest+r.2.pages.val) ∧ r.2.Sound (update cnt f (cnt f-1)) := by
  unfold fileclose
  rw [h.refs,if_neg (by omega)]
  by_cases hmore : cnt f-1 > 0
  · rw [if_pos hmore]
    have hset : (fs.setRef f (cnt f-1)).Sound (update cnt f (cnt f-1)) := h.setRef (by omega)
    refine .ok ⟨hacc.congr ?_,hset⟩
    change _ = rest+(fs.setRef f (cnt f-1)).pages.val
    rw [Files.setRef_pages]
  · rw [if_neg hmore,show cnt f-1=0 by omega]
    cases htype : (fs.file f).type with
    | none =>
      have hset : (fs.setRef f 0).Sound (update cnt f 0) := h.setRef fun _ => htype
      have heq : { fs with file := update fs.file f ⟨0,.none⟩ } = fs.setRef f 0 := by
        simp [Files.setRef,htype]
      simp only [htype,heq]
      exact .ok ⟨hacc.congr (by rw [Files.setRef_pages]),hset⟩
    | pipe pi w =>
      simp only [htype]
      exact pipeclose_spec h htype hacc

def Files.addPipe (fs : Files) (f0 f1 : FileId) (pi : Page) : Files :=
  let file := update fs.file f0 { fs.file f0 with type := .pipe pi false }
  ⟨update file f1 { file f1 with type := .pipe pi true },update fs.pipe pi ⟨true,true⟩⟩

section AddPipe
variable {f0 f1 : FileId} {pi : Page}

theorem Files.addPipe_type (hne : f0≠f1) (g : FileId) :
    ((fs.addPipe f0 f1 pi).file g).type =
      if g=f0 then .pipe pi false else if g=f1 then .pipe pi true else (fs.file g).type := by
  by_cases h0 : g=f0
  · subst h0
    simp [addPipe,hne]
  by_cases h1 : g=f1
  · subst h1
    simp [addPipe,h0]
  · simp [addPipe,h0,h1]

theorem Files.addPipe_end (hne : f0≠f1) (ht0 : (fs.file f0).type=.none)
    (ht1 : (fs.file f1).type=.none) {g : FileId} {pa : Page} {w : Bool} :
    ((fs.addPipe f0 f1 pi).file g).type=.pipe pa w ↔
      (fs.file g).type=.pipe pa w ∨ pa=pi ∧ g = if w then f1 else f0 := by
  rw [addPipe_type hne]
  by_cases h0 : g=f0
  · subst h0
    cases w <;> simp [ht0,hne,eq_comm]
  by_cases h1 : g=f1
  · subst h1
    cases w <;> simp [ht1,h0,eq_comm]
  · cases w <;> simp [h0,h1]

theorem Files.Sound.addPipe (h : fs.Sound cnt) (hne : f0≠f1) (ht0 : (fs.file f0).type=.none)
    (ht1 : (fs.file f1).type=.none) (hc0 : cnt f0≠0) (hc1 : cnt f1≠0) (hpi : pi∉fs.pages) :
    (fs.addPipe f0 f1 pi).Sound cnt := by
  have hfresh : ∀ {g pa w}, (fs.file g).type=.pipe pa w → pa≠pi := by
    rintro g pa w hg rfl
    exact hpi (Files.mem_pages.mpr ⟨g,w,hg⟩)
  refine ⟨fun g => ?_,fun g hg => ?_,fun g g' pa w hg hg' => ?_,fun g pa w hg w' => ?_⟩
  · by_cases h0 : g=f0
    · subst h0
      simp [Files.addPipe,hne,h.refs]
    by_cases h1 : g=f1
    · subst h1
      simp [Files.addPipe,h0,h.refs]
    · simp [Files.addPipe,h0,h1,h.refs]
  · rw [Files.addPipe_type hne,if_neg (by rintro rfl; exact hc0 hg),
      if_neg (by rintro rfl; exact hc1 hg)]
    exact h.idle g hg
  · rw [Files.addPipe_end hne ht0 ht1] at hg hg'
    obtain hg | ⟨rfl,rfl⟩ := hg
    · obtain hg' | ⟨rfl,-⟩ := hg'
      · exact h.ends g g' pa w hg hg'
      · exact absurd rfl (hfresh hg)
    · obtain hg' | ⟨-,rfl⟩ := hg'
      · exact absurd rfl (hfresh hg')
      · rfl
  · simp only [Files.addPipe_end hne ht0 ht1] at hg ⊢
    by_cases hpa : pa=pi
    · subst hpa
      cases w' <;> simp [Files.addPipe,Pipe.isOpen]
    · obtain hg | ⟨rfl,-⟩ := hg
      · simpa [Files.addPipe,hpa] using h.opened g pa w hg w'
      · exact absurd rfl hpa

theorem Files.addPipe_pages (hne : f0≠f1) (ht0 : (fs.file f0).type=.none)
    (ht1 : (fs.file f1).type=.none) : (fs.addPipe f0 f1 pi).pages=insert pi fs.pages := by
  ext pa
  simp only [Finset.mem_insert,Files.mem_pages,Files.addPipe_end hne ht0 ht1]
  constructor
  · rintro ⟨g,w,hg | ⟨rfl,-⟩⟩
    · exact .inr ⟨g,w,hg⟩
    · exact .inl rfl
  · rintro (rfl | ⟨g,w,hg⟩)
    · exact ⟨f0,false,.inr ⟨rfl,rfl⟩⟩
    · exact ⟨g,w,.inl hg⟩

end AddPipe

theorem fileclose_both {β : Type} {f0 f1 : FileId} {k : Mem × Files → Except Panic β}
    {Q : β → Prop} (h : fs.Sound (update (update cnt f0 1) f1 1)) (hne : f0≠f1)
    (hc0 : cnt f0=0) (hc1 : cnt f1=0) (hacc : Accounts kend m (rest+fs.pages.val))
    (hk : ∀ r : Mem × Files, Accounts kend r.1 (rest+r.2.pages.val) → r.2.Sound cnt →
      Yields (k r) Q) :
    Yields (fileclose m fs f0 >>= fun r => fileclose r.1 r.2 f1 >>= k) Q := by
  have hback : update (update (update (update cnt f0 1) f1 1) f0 0) f1 0=cnt := by
    funext g
    by_cases hg1 : g=f1
    · simp [hg1,hc1]
    by_cases hg0 : g=f0
    · simp [hg0,hne,hc0]
    · simp [hg0,hg1]
  refine (fileclose_spec (f := f0) h (by simp [hne]) hacc).bind fun r hr => ?_
  refine (fileclose_spec (f := f1) hr.2 (by simp [hne.symm]) hr.1).bind fun r' hr' => ?_
  refine hk r' hr'.1 ?_
  simpa [hne,hne.symm,hback] using hr'.2

/-- `pipealloc` makes a pipe with two new files, or gives back what it took. -/
theorem pipealloc_spec (h : fs.Sound cnt) (hacc : Accounts kend m (rest+fs.pages.val)) :
    Yields (pipealloc m fs) fun r => Accounts kend r.1 (rest+r.2.1.pages.val) ∧
      match r.2.2 with
      | none => r.2.1.Sound cnt
      | some (f0, f1) => f0≠f1 ∧ cnt f0=0 ∧ cnt f1=0 ∧
        r.2.1.Sound (update (update cnt f0 1) f1 1) := by
  unfold pipealloc
  obtain hf | ⟨f0,hf,hc0,h0⟩ := filealloc_spec h
  · rw [hf]
    exact .ok ⟨hacc,h⟩
  rw [hf]
  have hback0 : update (update cnt f0 1) f0 0=cnt := by
    rw [update_idem,← hc0,update_eq_self]
  have hacc0 : Accounts kend m (rest+(fs.setRef f0 1).pages.val) := by rwa [Files.setRef_pages]
  obtain hf | ⟨f1,hf,hc1,h1⟩ := filealloc_spec h0
  · simp only [hf]
    refine (fileclose_spec h0 (by simp) hacc0).bind fun r hr => .ok ⟨hr.1,?_⟩
    have hs := hr.2
    rwa [update_self,Nat.sub_self,hback0] at hs
  simp only [hf]
  have hne : f0≠f1 := by
    rintro rfl
    simp at hc1
  rw [update_of_ne hne.symm] at hc1
  have hacc1 : Accounts kend m (rest+((fs.setRef f0 1).setRef f1 1).pages.val) := by
    rwa [Files.setRef_pages]
  obtain ⟨m₁,hm,hacc₁⟩ | ⟨m₁,pi,hm,hacc₁⟩ := hacc1.kalloc
  · simp only [hm]
    exact fileclose_both h1 hne hc0 hc1 hacc₁ fun r hr hs => .ok ⟨hr,hs⟩
  · simp only [hm]
    have htype : ∀ g, cnt g=0 → (((fs.setRef f0 1).setRef f1 1).file g).type=.none := fun g hg => by
      rw [Files.setRef_type,Files.setRef_type,h.idle g hg]
    have hfresh : pi∉((fs.setRef f0 1).setRef f1 1).pages := by
      have hnodup := hacc₁.nodup
      rw [Multiset.nodup_add,Multiset.disjoint_singleton] at hnodup
      exact fun hpi => hnodup.2.2 (Multiset.mem_add.mpr (.inr hpi))
    refine .ok ⟨?_,hne,hc0,hc1,
      h1.addPipe hne (htype f0 hc0) (htype f1 hc1) (by simp [hne]) (by simp) hfresh⟩
    refine hacc₁.congr ?_
    change _ = rest+(((fs.setRef f0 1).setRef f1 1).addPipe f0 f1 pi).pages.val
    rw [Files.addPipe_pages hne (htype f0 hc0) (htype f1 hc1),Finset.insert_val_of_notMem hfresh,
      ← Multiset.singleton_add]
    abel

end Xv6.UserMemory
