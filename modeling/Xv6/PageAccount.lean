import Xv6.PipeFiles
import Xv6.UserSpace

/-! The account of the physical pages over whole runs: between two system calls each page is on the
free list, with the kernel, with one process or with one pipe. -/
namespace Xv6.UserMemory
open Function Xv6.PageTree Xv6.Total Xv6.Vm Xv6.Machine
open Xv6.Proc (Slot ProcState initproc)
variable {kend : Nat} {s : Sys} {p : Slot}

def Task.uses (t : Task) (f : FileId) : Nat := ∑ fd, if t.ofile fd=some f then 1 else 0

def uses (proc : Slot → Task) (f : FileId) : Nat := ∑ p, (proc p).uses f

def usesElse (proc : Slot → Task) (p : Slot) (f : FileId) : Nat :=
  ∑ q∈Finset.univ.erase p, (proc q).uses f

theorem uses_eq (proc : Slot → Task) (p : Slot) :
    uses proc = fun f => usesElse proc p f+(proc p).uses f := by
  funext f
  exact (Finset.sum_erase_add _ _ (Finset.mem_univ p)).symm

theorem uses_update (proc : Slot → Task) (p : Slot) (t : Task) :
    uses (update proc p t) = fun f => usesElse proc p f+t.uses f := by
  rw [uses_eq (update proc p t) p]
  funext f
  rw [update_self,usesElse,usesElse]
  refine congrArg (· + t.uses f) (Finset.sum_congr rfl fun q hq => ?_)
  rw [update_of_ne (Finset.ne_of_mem_erase hq)]

theorem Task.uses_set (t : Task) (fd : Fd) (x : Option FileId) (f : FileId) :
    { t with ofile := update t.ofile fd x }.uses f+(if t.ofile fd=some f then 1 else 0) =
      t.uses f + if x=some f then 1 else 0 := by
  have hset : (fun fd' => if update t.ofile fd x fd'=some f then 1 else 0) =
      update (fun fd' => if t.ofile fd'=some f then 1 else 0) fd (if x=some f then 1 else 0) := by
    funext fd'
    by_cases hfd : fd'=fd
    · simp [hfd]
    · simp [hfd]
  rw [Task.uses,hset,Holdings.sum_update_add _ (Finset.mem_univ fd)]
  rfl

variable {fd : Fd} {t : Task}

theorem Task.uses_pos {f : FileId} (h : t.ofile fd=some f) : 0 < t.uses f := by
  have hone := Finset.single_le_sum (f := fun fd => if t.ofile fd=some f then 1 else 0)
    (fun _ _ => Nat.zero_le _) (Finset.mem_univ fd)
  rw [if_pos h] at hone
  exact hone

theorem Task.uses_close {f : FileId} (h : t.ofile fd=some f) (c : FileId → Nat) :
    update (fun g => c g+t.uses g) f (c f+t.uses f-1) =
      fun g => c g + { t with ofile := update t.ofile fd none }.uses g := by
  funext g
  have hset := t.uses_set fd none g
  rw [h,if_neg (by simp : ¬ none=some g)] at hset
  by_cases hg : g=f
  · subst hg
    rw [if_pos rfl] at hset
    rw [update_self]
    omega
  · rw [if_neg (by simpa using Ne.symm hg)] at hset
    rw [update_of_ne hg]
    omega

theorem Task.uses_open (h : t.ofile fd=none) (f : FileId) (c : FileId → Nat) :
    update (fun g => c g+t.uses g) f (c f+t.uses f+1) =
      fun g => c g + { t with ofile := update t.ofile fd (some f) }.uses g := by
  funext g
  have hset := t.uses_set fd (some f) g
  rw [h,if_neg (by simp : ¬ none=some g)] at hset
  by_cases hg : g=f
  · subst hg
    rw [if_pos rfl] at hset
    rw [update_self]
    omega
  · rw [if_neg (by simpa using Ne.symm hg)] at hset
    rw [update_of_ne hg]
    omega

theorem Task.uses_none (h : t.ofile = fun _ => none) (f : FileId) : t.uses f=0 := by
  simp [Task.uses,h]

def Sys.held (s : Sys) : Multiset Page :=
  (s.kernel : Multiset Page) + ∑ p, (s.proc p).held+s.files.pages.val

def heldElse (proc : Slot → Task) (p : Slot) : Multiset Page :=
  ∑ q∈Finset.univ.erase p, (proc q).held

theorem sum_held (proc : Slot → Task) (p : Slot) :
    ∑ q, (proc q).held=heldElse proc p+(proc p).held :=
  (Finset.sum_erase_add _ _ (Finset.mem_univ p)).symm

theorem sum_held_update (proc : Slot → Task) (p : Slot) (t : Task) :
    ∑ q, (update proc p t q).held=heldElse proc p+t.held := by
  rw [sum_held (update proc p t) p,update_self,heldElse,heldElse]
  refine congrArg (· + t.held) (Finset.sum_congr rfl fun q hq => ?_)
  rw [update_of_ne (Finset.ne_of_mem_erase hq)]

structure Task.Sound (t : Task) : Prop where
  unused : t.state=.unused → t=Task.unused
  zombie : t.state=.zombie → t.ofile = fun _ => none
  ready : t.state≠.unused → t.Ready

/-- The invariant of the states between two calls, up to a panic. -/
structure Sys.Sound (kend : Nat) (s : Sys) : Prop where
  accounts : Accounts kend s.mem s.held
  slots : ∀ p, (s.proc p).Sound
  files : s.files.Sound (uses s.proc)
  calm : s.panicked=none

def Sys.rest (s : Sys) (p : Slot) : Multiset Page := (s.kernel : Multiset Page)+heldElse s.proc p

variable {fs : Files} {m : Mem}

theorem Task.Sound.set_ofile (h : t.Sound) (hl : t.state.live=true)
    (ofile : Fd → Option FileId) : { t with ofile := ofile }.Sound := by
  have hne : t.state≠.unused ∧ t.state≠.zombie := by
    constructor <;> intro hs <;> rw [hs] at hl <;> cases hl
  exact ⟨fun hu => absurd hu hne.1,fun hz => absurd hz hne.2,fun _ => h.ready hne.1⟩

theorem closeFiles_spec {rest : Multiset Page} {c : FileId → Nat} (t : Task)
    (hfs : fs.Sound fun f => c f+t.uses f) (hacc : Accounts kend m (rest+fs.pages.val)) :
    Yields (closeFiles m fs t) fun r => Accounts kend r.1 (rest+r.2.1.pages.val) ∧
      r.2.1.Sound c ∧ r.2.2 = { t with ofile := fun _ => none } := by
  have hloop := Yields.foldlM (f := closeFd)
    (I := fun l x => Accounts kend x.1 (rest+x.2.1.pages.val) ∧
      (x.2.1.Sound fun f => c f+x.2.2.uses f) ∧ (∃ o, x.2.2 = { t with ofile := o }) ∧
        ∀ fd∉l, x.2.2.ofile fd=none) (l := List.finRange nofile) (b := (m, fs, t)) ?_
    ⟨hacc,hfs,⟨t.ofile,rfl⟩,fun fd hfd => absurd (List.mem_finRange fd) hfd⟩
  · refine hloop.weaken ?_
    rintro ⟨m₁,fs₁,t₁⟩ ⟨hacc₁,hfs₁,⟨o,rfl⟩,hnone⟩
    obtain rfl : o = fun _ => none := funext fun fd => hnone fd (by simp)
    refine ⟨hacc₁,?_,rfl⟩
    have hzero := Task.uses_none (t := { t with ofile := fun _ => none }) rfl
    simpa only [hzero,Nat.add_zero] using hfs₁
  · rintro fd l ⟨m₁,fs₁,t₁⟩ ⟨hacc₁,hfs₁,heq,hnone⟩
    unfold closeFd
    cases hfd : t₁.ofile fd with
    | none =>
      refine .ok ⟨hacc₁,hfs₁,heq,fun fd' hfd' => ?_⟩
      by_cases hd : fd'=fd
      · rw [hd]
        exact hfd
      · exact hnone fd' (by simp [hd,hfd'])
    | some f =>
      have hpos : 0 < c f+t₁.uses f := by
        have := Task.uses_pos hfd
        omega
      refine (fileclose_spec hfs₁ hpos hacc₁).bind fun r hr => .ok ⟨hr.1,?_,?_,fun fd' hfd' => ?_⟩
      · rw [← Task.uses_close hfd]
        exact hr.2
      · obtain ⟨o,rfl⟩ := heq
        exact ⟨_,rfl⟩
      · by_cases hd : fd'=fd
        · simp [hd]
        · simpa [hd] using hnone fd' (by simp [hd,hfd'])

theorem fdalloc_cases (t : Task) (f : FileId) : fdalloc t f=(t, none) ∨ ∃ fd, t.ofile fd=none ∧
      fdalloc t f=({ t with ofile := update t.ofile fd (some f) }, some fd) := by
  unfold fdalloc
  cases hfind : (List.finRange nofile).find? fun fd => t.ofile fd=none with
  | none => exact .inl rfl
  | some fd => exact .inr ⟨fd,by simpa using List.find?_some hfind,rfl⟩

theorem dupFiles_spec {cnt : FileId → Nat} (hfs : fs.Sound cnt) (t : Task)
    (ht : ∀ fd f, t.ofile fd=some f → 0 < cnt f) :
    Yields (dupFiles fs t) fun fs' => (fs'.Sound fun f => cnt f+t.uses f) ∧ fs'.pages=fs.pages := by
  let left (l : List Fd) (f : FileId) : Nat := (l.map fun fd => if t.ofile fd=some f then 1 else 0).sum
  have hloop := Yields.foldlM (f := dupFd t)
    (I := fun l fs' => ∃ cnt', fs'.Sound cnt' ∧ (∀ f, cnt' f+left l f=cnt f+t.uses f) ∧
      (∀ f, cnt f ≤ cnt' f) ∧ fs'.pages=fs.pages) (l := List.finRange nofile) (b := fs) ?_
    ⟨cnt,hfs,fun f => by rw [Task.uses,Fin.sum_univ_def],fun f => le_rfl,rfl⟩
  · refine hloop.weaken ?_
    rintro fs' ⟨cnt',hs,hsum,-,hpages⟩
    obtain rfl : cnt' = fun f => cnt f+t.uses f := funext fun f => by simpa [left] using hsum f
    exact ⟨hs,hpages⟩
  · rintro fd l fs' ⟨cnt',hs,hsum,hle,hpages⟩
    simp only [left,List.map_cons,List.sum_cons] at hsum
    unfold dupFd
    cases hfd : t.ofile fd with
    | none => exact .ok ⟨cnt',hs,fun f => by simpa [hfd] using hsum f,hle,hpages⟩
    | some f =>
      refine (filedup_spec hs ((ht fd f hfd).trans_le (hle f))).weaken fun fs'' hs'' =>
        ⟨_,hs''.1,fun g => ?_,fun g => ?_,hs''.2.trans hpages⟩
      · have hg := hsum g
        rw [hfd] at hg
        by_cases hgf : g=f
        · subst hgf
          rw [if_pos rfl] at hg
          rw [update_self]
          change _ + (l.map _).sum=_
          omega
        · rw [if_neg (by simpa using Ne.symm hgf)] at hg
          rw [update_of_ne hgf]
          change _ + (l.map _).sum=_
          omega
      · by_cases hgf : g=f
        · rw [hgf,update_self]
          exact (hle f).trans (Nat.le_succ _)
        · rw [update_of_ne hgf]
          exact hle g

section Calls
variable (h : s.Sound kend)
include h

theorem Sys.Sound.account (p : Slot) :
    Accounts kend s.mem (s.rest p+s.files.pages.val+(s.proc p).held) := by
  refine h.accounts.congr ?_
  rw [Sys.held,sum_held s.proc p,Sys.rest]
  abel

theorem Sys.Sound.update_task (hacc : Accounts kend m (s.rest p+fs.pages.val+t.held)) (ht : t.Sound)
    (hfs : fs.Sound fun f => usesElse s.proc p f+t.uses f) :
    Sys.Sound kend { s with mem := m, files := fs, proc := update s.proc p t } := by
  refine ⟨hacc.congr ?_,fun q => ?_,?_,h.calm⟩
  · simp only [Sys.held,sum_held_update,Sys.rest]
    abel
  · by_cases hq : q=p
    · simpa [hq] using ht
    · simpa [hq] using h.slots q
  · rwa [uses_update]

theorem onTask_sound (hp : (s.proc p).state.live=true) {f : Mem → Task → Except Panic (Mem × Task)}
    (hf : (s.proc p).Ready → ∀ rest, Accounts kend s.mem (rest+(s.proc p).held) →
      Yields (f s.mem (s.proc p)) fun r =>
        Accounts kend r.1 (rest+r.2.held) ∧ Reshaped (s.proc p) r.2) :
    Yields (onTask s p f) fun s' => s'.Sound kend := by
  have hstate : (s.proc p).state≠.unused := by
    intro hu
    rw [hu] at hp
    cases hp
  refine (hf ((h.slots p).ready hstate) _ (h.account p)).bind fun r hr => .ok ?_
  obtain ⟨hacc,hq⟩ := hr
  refine h.update_task hacc ⟨?_,?_,fun _ => hq.ready⟩ ?_
  · intro hu
    exact absurd (hq.state.symm.trans hu) hstate
  · intro hz
    rw [hq.ofile]
    exact (h.slots p).zombie (hq.state.symm.trans hz)
  · have hfiles := h.files
    rw [uses_eq s.proc p] at hfiles
    simpa only [Task.uses,hq.ofile] using hfiles

theorem wait_sound (copied : Bool) : Yields (wait s p copied) fun s' => s'.Sound kend := by
  unfold wait
  split
  · exact .ok h
  rename_i pp hfind
  have hz : (s.proc pp).state=.zombie := by
    have hfound := List.find?_some hfind
    exact (decide_eq_true_eq.mp hfound).2
  split
  · obtain ⟨pt,hpt,hlaid⟩ := (h.slots pp).ready (by rw [hz]; decide)
    refine (freeproc_spec (p := s.proc pp) ?_ (h.account pp)).bind fun r hr => .ok ?_
    · intro pt' hpt'
      rw [hpt] at hpt'
      cases hpt'
      exact hlaid
    obtain ⟨hacc,hr⟩ := hr
    rw [(h.slots pp).zombie hz] at hr
    have hnew : r.2=Task.unused := hr
    rw [hnew]
    refine h.update_task (hacc.congr ?_) ⟨fun _ => rfl,nofun,fun hne => absurd rfl hne⟩ ?_
    · simp [Task.held,Task.unused]
    · have hfiles := h.files
      rw [uses_eq s.proc pp] at hfiles
      simpa only [Task.uses_none ((h.slots pp).zombie hz),Task.uses_none (t := Task.unused) rfl]
        using hfiles
  · exact .ok h

theorem sysClose_sound (hp : (s.proc p).state.live=true) (fd : Fd) :
    Yields (sysClose s p fd) fun s' => s'.Sound kend := by
  unfold sysClose
  cases hfd : (s.proc p).ofile fd with
  | none => exact .ok h
  | some f =>
    have hfiles := h.files
    rw [uses_eq s.proc p] at hfiles
    have hpos : 0 < usesElse s.proc p f+(s.proc p).uses f := by
      have := Task.uses_pos hfd
      omega
    have hacc : Accounts kend s.mem (s.rest p+(s.proc p).held+s.files.pages.val) :=
      (h.account p).congr (add_right_comm _ _ _)
    refine (fileclose_spec hfiles hpos hacc).bind fun r hr => .ok ?_
    refine h.update_task (hr.1.congr (add_right_comm _ _ _)) ((h.slots p).set_ofile hp _) ?_
    rw [← Task.uses_close hfd]
    exact hr.2

theorem Sys.Sound.map_proc {proc : Slot → Task}
    (hproc : ∀ q, (proc q).Sound ∧ (proc q).held=(s.proc q).held ∧
      (proc q).ofile=(s.proc q).ofile) : Sys.Sound kend { s with proc := proc } := by
  refine ⟨h.accounts.congr ?_,fun q => (hproc q).1,?_,h.calm⟩
  · simp only [Sys.held,(hproc _).2.1]
  · have huses : uses proc=uses s.proc := by
      funext f
      simp only [uses,Task.uses,(hproc _).2.2]
    rw [huses]
    exact h.files

theorem exit_sound (hp : (s.proc p).state.live=true) (hinit : p≠initproc) :
    Yields (exit s p) fun s' => s'.Sound kend := by
  unfold exit
  rw [if_neg hinit]
  have hfiles := h.files
  rw [uses_eq s.proc p] at hfiles
  have hacc : Accounts kend s.mem (s.rest p+(s.proc p).held+s.files.pages.val) :=
    (h.account p).congr (add_right_comm _ _ _)
  refine (closeFiles_spec (s.proc p) hfiles hacc).bind ?_
  rintro ⟨m,fs,t⟩ ⟨hacc₁,hfs,rfl⟩
  have hready : (s.proc p).Ready := (h.slots p).ready fun hu => by rw [hu] at hp; cases hp
  -- first the files are closed, then parents and the state of `p` change
  have hclosed : Sys.Sound kend { s with
      mem := m, files := fs, proc := update s.proc p { s.proc p with ofile := fun _ => none } } := by
    refine h.update_task (hacc₁.congr (add_right_comm _ _ _)) ((h.slots p).set_ofile hp _) ?_
    have hzero := Task.uses_none (t := { s.proc p with ofile := fun _ => none }) rfl
    simpa only [hzero,Nat.add_zero] using hfs
  refine .ok (hclosed.map_proc fun q => ?_)
  by_cases hq : q=p
  · subst hq
    simp only [update_self,reparent]
    split
    · exact ⟨⟨nofun,fun _ => rfl,fun _ => hready⟩,rfl,rfl⟩
    · exact ⟨⟨nofun,fun _ => rfl,fun _ => hready⟩,rfl,rfl⟩
  · simp only [update_of_ne hq,reparent]
    split
    · rename_i hparent
      have hq' := h.slots q
      refine ⟨⟨fun hu => ?_,hq'.zombie,hq'.ready⟩,rfl,rfl⟩
      rw [hq'.unused hu] at hparent
      cases hparent
    · exact ⟨h.slots q,rfl,rfl⟩

theorem Sys.Sound.set_files
    (hacc : Accounts kend m ((s.kernel : Multiset Page) + ∑ q, (s.proc q).held+fs.pages.val))
    (hfs : fs.Sound (uses s.proc)) : Sys.Sound kend { s with mem := m, files := fs } :=
  ⟨hacc,h.slots,hfs,h.calm⟩

theorem sysPipe_sound (hp : (s.proc p).state.live=true) (copied : Bool) :
    Yields (sysPipe s p copied) fun s' => s'.Sound kend := by
  refine (pipealloc_spec h.files h.accounts).bind ?_
  rintro ⟨m,fs,ends⟩ ⟨hacc,hends⟩
  cases ends with
  | none => exact .ok (h.set_files hacc hends)
  | some ends =>
    obtain ⟨rf,wf⟩ := ends
    obtain ⟨hne,hrf,hwf,hfs⟩ := hends
    dsimp only at hacc hfs ⊢
    -- the undo path leaves the descriptors as they were
    have hbad : ∀ o, o=(s.proc p).ofile → Yields (fileclose m fs rf >>= fun r =>
        fileclose r.1 r.2 wf >>= fun r => Except.ok { s with
          mem := r.1, files := r.2, proc := update s.proc p { s.proc p with ofile := o } })
        fun s' => s'.Sound kend := by
      rintro o rfl
      refine fileclose_both hfs hne hrf hwf hacc fun r hr hs => .ok ?_
      rw [update_eq_self]
      exact h.set_files hr hs
    obtain hfd | ⟨fd0,hfd0,hfd⟩ := fdalloc_cases (s.proc p) rf
    · rw [hfd]
      exact hbad _ rfl
    rw [hfd]
    dsimp only
    obtain hfd | ⟨fd1,hfd1,hfd⟩ :=
      fdalloc_cases { s.proc p with ofile := update (s.proc p).ofile fd0 (some rf) } wf
    · rw [hfd]
      refine hbad _ ?_
      rw [update_idem,← hfd0,update_eq_self]
    rw [hfd]
    dsimp only at hfd1 ⊢
    have hfds : fd1≠fd0 := by
      rintro rfl
      simp at hfd1
    cases copied with
    | false =>
      refine hbad _ ?_
      rw [update_of_ne hfds] at hfd1
      funext fd
      by_cases h1 : fd=fd1
      · simp [h1,hfd1]
      by_cases h0 : fd=fd0
      · simp [h0,hfds.symm,hfd0]
      · simp [h0,h1]
    | true =>
      refine .ok (h.update_task ?_ ((h.slots p).set_ofile hp _) ?_)
      · refine hacc.congr ?_
        rw [sum_held s.proc p,Sys.rest]
        change _ = _ + (s.proc p).held
        abel
      · have hopen0 := Task.uses_open hfd0 rf (usesElse s.proc p)
        have hopen1 := Task.uses_open (t := { s.proc p with
          ofile := update (s.proc p).ofile fd0 (some rf) }) hfd1 wf (usesElse s.proc p)
        rw [← hopen0] at hopen1
        have hcnt := uses_eq s.proc p
        rw [hcnt] at hrf hwf hfs
        dsimp only at hrf hwf
        have hwf' : usesElse s.proc p wf +
            { s.proc p with ofile := update (s.proc p).ofile fd0 (some rf) }.uses wf=0 := by
          have hsame := congrFun hopen0 wf
          rw [update_of_ne hne.symm] at hsame
          exact hsame.symm.trans hwf
        rw [hwf',hrf] at hopen1
        rw [← hopen1]
        exact hfs

theorem Sys.Sound.give_back {np : Slot}
    (hu : (s.proc np).state=.unused) (hacc : Accounts kend m (s.rest np+s.files.pages.val)) :
    Sys.Sound kend { s with mem := m, proc := update s.proc np Task.unused } := by
  have hnp := (h.slots np).unused hu
  rw [← hnp,update_eq_self]
  refine h.set_files (hacc.congr ?_) h.files
  rw [sum_held s.proc np,hnp,Sys.rest]
  simp [Task.held,Task.unused]

theorem allocproc_spec :
    Yields (allocproc s) fun r => match r.2 with
      | none => r.1.Sound kend
      | some np => (s.proc np).state=.unused ∧ ∃ m pa pt,
        r.1 = { s with mem := m, proc := update s.proc np { Task.unused with
          state := .used, trapframe := some pa, pagetable := some pt } } ∧
            Space kend m (s.rest np+s.files.pages.val+{pa}) pt 0 := by
  unfold allocproc
  cases hfind : (List.finRange nproc).find? fun p => (s.proc p).state=.unused with
  | none => exact .ok h
  | some np =>
    have hu : (s.proc np).state=.unused := by simpa using List.find?_some hfind
    have hnp := (h.slots np).unused hu
    have hacc : Accounts kend s.mem (s.rest np+s.files.pages.val) := by
      refine (h.account np).congr ?_
      simp [hnp,Task.held,Task.unused]
    dsimp only
    rw [hnp]
    refine (allocprocFound_spec hacc).bind ?_
    rintro ⟨m,t,found⟩ (⟨rfl,rfl,hm⟩ | ⟨rfl,pa,pt,rfl,hspace⟩)
    · exact .ok (h.give_back hu hm)
    · exact .ok ⟨hu,m,pa,pt,rfl,hspace⟩

theorem Sys.Sound.add_child {np : Slot} {pa : Page} {pt : Pagetable}
    (hu : (s.proc np).state=.unused) (hsz : (s.proc p).sz ≤ phystop)
    (hspace : Space kend m (s.rest np+s.files.pages.val+{pa}) pt (npages (s.proc p).sz))
    (hfs : fs.Sound fun f => uses s.proc f+(s.proc p).uses f) (hpages : fs.pages=s.files.pages) :
    Sys.Sound kend { s with
      mem := m
      files := fs
      proc := update s.proc np ⟨.runnable,some pa,some pt,(s.proc p).sz,some p,(s.proc p).ofile⟩ } := by
  refine h.update_task ?_ ⟨nofun,nofun,fun _ => ⟨pt,rfl,hspace.laid hsz⟩⟩ ?_
  · refine hspace.accounts.congr ?_
    rw [hpages]
    simp only [Task.held,Option.elim_some]
    abel
  · have hnp : ∀ f, uses s.proc f=usesElse s.proc np f := fun f => by
      have hempty : (s.proc np).uses f=0 := Task.uses_none (by rw [(h.slots np).unused hu]; rfl) f
      simp only [uses_eq s.proc np,hempty,Nat.add_zero]
    simp only [hnp] at hfs
    exact hfs

theorem fork_sound (hp : (s.proc p).state.live=true) :
    Yields (fork s p) fun s' => s'.Sound kend := by
  refine (allocproc_spec h).bind ?_
  rintro ⟨s₁,np⟩ hnp
  cases np with
  | none => exact .ok hnp
  | some np =>
    obtain ⟨hu,m,pa,pt,hs₁,hspace⟩ := hnp
    subst hs₁
    have hne : p≠np := by
      rintro rfl
      rw [hu] at hp
      cases hp
    obtain ⟨old,hold,hlaid⟩ := (h.slots p).ready fun hu => by rw [hu] at hp; cases hp
    simp only [update_self,update_of_ne hne,hold]
    refine (uvmcopy_spec hlaid.small hspace.toHeld hlaid.mapped).bind ?_
    rintro ⟨m₁,new,copied⟩ ⟨hheld,hkeep⟩
    cases copied with
    | true =>
      have hnew : Space kend m₁ (s.rest np+s.files.pages.val+{pa}) new (npages (s.proc p).sz) :=
        ⟨hheld,hspace.high.keeps hkeep⟩
      have hpos : ∀ fd f, (s.proc p).ofile fd=some f → 0 < uses s.proc f := fun fd f hfd => by
        rw [uses_eq s.proc p]
        exact Nat.lt_add_left _ (Task.uses_pos hfd)
      have hofile : (fun fd => (s.proc p).ofile fd <|> Task.unused.ofile fd)=(s.proc p).ofile := by
        funext fd
        cases (s.proc p).ofile fd <;> rfl
      refine (dupFiles_spec h.files (s.proc p) hpos).bind fun fs hfs => .ok ?_
      rw [update_idem,hofile]
      exact h.add_child hu hlaid.small hnew hfs.1 hfs.2
    | false =>
      have hnew : Space kend m₁ (s.rest np+s.files.pages.val+{pa}) new (npages 0) :=
        ⟨hheld,hspace.high.keeps hkeep⟩
      have hacc : Accounts kend m₁ (s.rest np+s.files.pages.val + { Task.unused with
          state := .used, trapframe := some pa, pagetable := some new }.held) := by
        refine hnew.accounts.congr ?_
        simp only [Task.held,Task.unused,Option.elim_some]
        abel
      have hlaid' : ∀ pt', { Task.unused with state := .used, trapframe := some pa, pagetable := some new
          }.pagetable=some pt' → Laid pt' 0 := by
        rintro pt' ⟨⟩
        exact hnew.laid (Nat.zero_le _)
      refine (freeproc_spec hlaid' hacc).bind fun r hr => .ok ?_
      rw [update_idem,hr.2]
      exact h.give_back hu hr.1

theorem syscall_sound (hp : (s.proc p).state.live=true) (c : Call) :
    Yields (syscall s p c) (fun s' => s'.Sound kend) ∨ syscall s p c=.error .initExiting := by
  cases c with
  | fork => exact .inl (fork_sound h hp)
  | exec args last img =>
    exact .inl (onTask_sound (f := fun m t => sysExec m t args last img) h hp fun hr rest hacc =>
      sysExec_spec hr hacc args last img)
  | exit =>
    by_cases hinit : p=initproc
    · exact .inr (if_pos hinit)
    · exact .inl (exit_sound h hp hinit)
  | wait copied => exact .inl (wait_sound h copied)
  | sbrk n =>
    exact .inl (onTask_sound (f := fun m t => growproc m t n) h hp fun hr rest hacc =>
      growproc_spec hr hacc n)
  | pipe copied => exact .inl (sysPipe_sound h hp copied)
  | close fd => exact .inl (sysClose_sound h hp fd)

end Calls

def Sys.Good (kend : Nat) (s : Sys) : Prop :=
  Sys.Sound kend { s with panicked := none } ∧
    (s.panicked=none ∨ s.panicked=some .initExiting)

theorem step_good {s' : Sys} {l : Slot × Call} (h : s.Good kend) (hstep : step s l=some s') :
    s'.Good kend := by
  unfold step at hstep
  split at hstep
  · rename_i hen
    have hs : s.Sound kend := by
      have hsame : { s with panicked := none } = s := by rw [← hen.1]
      exact hsame ▸ h.1
    obtain ⟨t,ht,hgood⟩ | hpanic := syscall_sound hs hen.2 l.2
    · rw [ht] at hstep
      cases hstep
      have hsame : { s' with panicked := none } = s' := by rw [← hgood.calm]
      exact ⟨hsame.symm ▸ hgood,.inl hgood.calm⟩
    · rw [hpanic] at hstep
      cases hstep
      exact ⟨h.1,.inr rfl⟩
  · cases hstep

section Boot
variable {m : Mem}

theorem freerangeFrom_spec (n pa : Nat) (halign : pa%pgsize=0) (hlow : m.kernelEnd ≤ pa)
    (hhigh : pa+n*pgsize ≤ phystop) :
    Yields (freerangeFrom m pa n) fun m' => m'.kernelEnd=m.kernelEnd ∧
      (m'.freelist : Multiset Page)=m.freelist+(Multiset.range n).map fun i => pa+i*pgsize := by
  induction n generalizing m pa with
  | zero => exact .ok ⟨rfl,by simp⟩
  | succ n ih =>
    have hlast : pa < phystop := by
      rw [pgsize_eq] at hhigh
      omega
    unfold freerangeFrom
    rw [kfree_eq halign hlow hlast]
    have hrest : Yields (freerangeFrom { m with freelist := pa::m.freelist } (pa+pgsize) n)
        fun m' => m'.kernelEnd=m.kernelEnd ∧ (m'.freelist : Multiset Page) =
          (pa::m.freelist : List Page)+(Multiset.range n).map fun i => pa+pgsize+i*pgsize := by
      refine ih _ ?_ ?_ ?_
      · rw [Nat.add_mod_right]
        exact halign
      · exact hlow.trans (Nat.le_add_right _ _)
      · rw [Nat.succ_mul] at hhigh
        omega
    refine hrest.weaken fun m' hm' => ⟨hm'.1,?_⟩
    rw [hm'.2,← Multiset.cons_coe,← Multiset.singleton_add]
    have hshift : (Multiset.range (n+1)).map (fun i => pa+i*pgsize) =
        {pa}+(Multiset.range n).map fun i => pa+pgsize+i*pgsize := by
      rw [Multiset.range,List.range_succ_eq_map,← Multiset.cons_coe,Multiset.map_cons,
        Nat.zero_mul,Nat.add_zero,← Multiset.map_coe,Multiset.map_map,← Multiset.singleton_add]
      refine congrArg ({pa} + ·) (Multiset.map_congr rfl fun i _ => ?_)
      simp only [Function.comp_apply,Nat.succ_mul]
      omega
    rw [hshift]
    abel

theorem kinit_spec (hend : 0 < m.kernelEnd ∧ m.kernelEnd ≤ phystop) (hfree : m.freelist=[]) :
    Yields (kinit m) fun m' => Accounts m.kernelEnd m' 0 := by
  have hround := pgroundup_eq hend.2
  have hrange := freerangeFrom_spec (m := m) ((phystop-pgroundup m.kernelEnd)/pgsize)
    (pgroundup m.kernelEnd) (by rw [hround,pgsize_eq]; omega) (by omega)
    (by rw [hround,pgsize_eq,phystop_eq] at *; omega)
  refine hrange.weaken fun m' hm' => ⟨hm'.1,hend,?_⟩
  rw [hm'.2,hfree,Multiset.coe_nil,zero_add,add_zero]
  rfl

theorem bootPages_spec (n : Nat) {m' : Mem} {pages : List Page} {rest : Multiset Page}
    (h : Accounts kend m rest) (hboot : bootPages m n=some (m', pages)) :
    Accounts kend m' (rest+(pages : Multiset Page)) := by
  induction n generalizing m rest pages with
  | zero =>
    cases hboot
    exact h.congr (add_zero rest).symm
  | succ n ih =>
    unfold bootPages at hboot
    obtain ⟨m₁,hm,hacc⟩ | ⟨m₁,pa,hm,hacc⟩ := h.kalloc
    · rw [hm] at hboot
      cases hboot
    · rw [hm] at hboot
      obtain ⟨⟨m₂,pages₂⟩,hrest,heq⟩ := Option.map_eq_some_iff.mp hboot
      cases heq
      refine (ih hacc hrest).congr ?_
      rw [← Multiset.cons_coe,← Multiset.singleton_add,add_assoc]

theorem uvmfirst_spec {m' : Mem} {pt pt' : Pagetable} {rest : Multiset Page}
    (h : Space kend m rest pt 0) (hfirst : uvmfirst m pt=some (m', pt')) :
    Space kend m' rest pt' 1 := by
  unfold uvmfirst at hfirst
  obtain ⟨m₁,hm,-⟩ | ⟨m₁,pa,hm,hheld⟩ := h.kalloc
  · rw [hm] at hfirst
    cases hfirst
  · rw [hm] at hfirst
    obtain ⟨⟨m₂,pt₂,mapped⟩,heq,hkeep,hif⟩ :=
      hheld.map_next (show (⟨true,true,true,true⟩ : Perm).r=true from rfl)
    rw [Nat.zero_mul] at heq
    dsimp only at hfirst
    rw [heq] at hfirst
    cases mapped with
    | false => cases hfirst
    | true =>
      cases hfirst
      exact ⟨hif.1,h.high.keeps hkeep⟩

theorem start_sound {kernel : List Page} (h : Accounts kend m kernel) :
    Sys.Sound kend ⟨m,kernel,fun _ => Task.unused,⟨fun _ => ⟨0,.none⟩,fun _ => ⟨false,false⟩⟩,none⟩ := by
  refine ⟨h.congr ?_,fun _ => ⟨fun _ => rfl,nofun,fun hu => absurd rfl hu⟩,
    ⟨fun f => ?_,fun _ _ => rfl,nofun,nofun⟩,rfl⟩
  · simp [Sys.held,Task.held,Task.unused,Files.pages,FileType.pages]
  · simp [uses,Task.uses,Task.unused]

theorem userinit_sound {s' : Sys} (h : s.Sound kend) (hu : userinit s=some s') : s'.Sound kend := by
  unfold userinit at hu
  obtain ⟨⟨s₁,np⟩,halloc,hnp⟩ := allocproc_spec h
  rw [halloc] at hu
  cases np with
  | none => cases hu
  | some np =>
    obtain ⟨hunused,m,pa,pt,hs₁,hspace⟩ := hnp
    subst hs₁
    simp only [update_self] at hu
    obtain ⟨⟨m₁,pt₁⟩,hfirst,heq⟩ := Option.map_eq_some_iff.mp hu
    cases heq
    have hone : npages pgsize=1 := by rw [npages_eq (by decide),pgsize_eq]
    have hspace₁ : Space kend m₁ (s.rest np+s.files.pages.val+{pa}) pt₁ (npages pgsize) :=
      hone ▸ uvmfirst_spec hspace hfirst
    rw [update_idem]
    refine h.update_task ?_ ⟨nofun,nofun,fun _ => ⟨pt₁,rfl,hspace₁.laid (by decide)⟩⟩ ?_
    · refine hspace₁.accounts.congr ?_
      simp only [Task.held,Option.elim_some]
      abel
    · have hfiles := h.files
      rw [uses_eq s.proc np,(h.slots np).unused hunused] at hfiles
      exact hfiles

theorem boot_sound {n : Nat} (hend : 0 < m.kernelEnd ∧ m.kernelEnd ≤ phystop)
    (hboot : boot m n=some s) : s.Sound m.kernelEnd := by
  unfold boot at hboot
  obtain ⟨m₁,hinit,hacc⟩ := kinit_spec (m := { m with freelist := [] }) hend rfl
  rw [hinit] at hboot
  obtain ⟨⟨m₂,kernel⟩,hpages,hu⟩ := Option.bind_eq_some_iff.mp hboot
  exact userinit_sound (start_sound ((bootPages_spec n hacc hpages).congr (zero_add _))) hu

end Boot

theorem run_good {n : Nat} {s₀ s : Sys} {calls : List (Slot × Call)}
    (hend : 0 < m.kernelEnd ∧ m.kernelEnd ≤ phystop) (hboot : boot m n=some s₀)
    (hrun : run step calls s₀=some s) : s.Good m.kernelEnd := by
  have hs := boot_sound hend hboot
  have hsame : { s₀ with panicked := none } = s₀ := by rw [← hs.calm]
  have hstart : s₀.Good m.kernelEnd := ⟨hsame.symm ▸ hs,.inl hs.calm⟩
  exact run_invariant (fun _ _ _ => step_good) hstart hrun

/-- Every place where a page can be: the free list, the kernel's own pages, the
trapframe, the page-table pages and the user pages of each process, the pipes. -/
def Sys.places (s : Sys) : Multiset Page := (s.mem.freelist : Multiset Page)+s.held

/-- After any boot and any sequence of calls, whatever calls of `kalloc` fail, each page of
`[PGROUNDUP(end), PHYSTOP)` is in exactly one place, and nothing else is in any place. No
call has panicked, unless `initproc` has called `exit`. -/
theorem pages_accounted {m : Mem} {n : Nat} {s₀ s : Sys} {calls : List (Slot × Call)}
    (hend : 0 < m.kernelEnd ∧ m.kernelEnd ≤ phystop) (hboot : boot m n=some s₀)
    (hrun : run step calls s₀=some s) : (∀ pa, s.places.count pa =
      if pa%pgsize=0 ∧ pgroundup m.kernelEnd ≤ pa ∧ pa < phystop then 1 else 0) ∧
        (s.panicked=none ∨ s.panicked=some .initExiting) := by
  have hgood := run_good hend hboot hrun
  refine ⟨fun pa => ?_,hgood.2⟩
  have hsum : s.places=allPages m.kernelEnd := hgood.1.accounts.sum
  rw [hsum,Multiset.count_eq_of_nodup (nodup_allPages _)]
  exact if_congr (mem_allPages_iff hend.2) rfl rfl

def tiny : Mem := ⟨phystop-16*pgsize,kernbase,[],0,fun n => n=14⟩

def tinyBoot : Sys := (boot tiny 1).get (by decide +kernel)

def tinyCalls : List (Slot × Call) :=
  [(initproc,.pipe true),(initproc,.fork),(initproc,.close ⟨0,by decide⟩)]

def tinyEnd : Sys := (run step tinyCalls tinyBoot).get (by decide +kernel)

theorem tiny_accounted : tinyEnd.places.count tiny.kernelEnd=1 ∧
    (tinyEnd.panicked=none ∨ tinyEnd.panicked=some .initExiting) :=
  have hboot : boot tiny 1=some tinyBoot := (Option.some_get _).symm
  have hrun : run step tinyCalls tinyBoot=some tinyEnd := (Option.some_get _).symm
  have h := pages_accounted (by decide) hboot hrun
  ⟨(h.1 tiny.kernelEnd).trans (if_pos (by decide)),h.2⟩

end Xv6.UserMemory
