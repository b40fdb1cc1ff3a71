import Xv6.ProcSteps

/-! Who is where in the kernel: one process at a time holds `wait_lock`, and a USED slot is the child
of exactly one `fork` under way. -/
namespace Xv6.Proc
open Function Xv6.Machine
variable {s t : Sys} {p q : Slot} {l : Label}

/-- The places between the acquisition of `wait_lock` and its release. -/
def Pc.holds : Pc → Bool
  | .reparent .. | .reparentWakeup .. | .exitWakeup .. | .exitZombie _ | .waitScan .. |
    .waitKilled _ | .waitSleep _ => true
  | _ => false

def Pc.exiting : Pc → Bool
  | .exit _ | .reparent .. | .reparentWakeup .. | .exitWakeup .. | .exitZombie _ => true
  | _ => false

def Pc.child : Pc → Option Slot
  | .forkParent np _ | .forkStart np _ => some np
  | _ => none

def Pc.called : Pc → Bool
  | .user | .exited => false
  | _ => true

variable {k k' : Pc}

theorem Moves.same (h : Moves s p k k') :
    k'.holds=k.holds ∧ k'.exiting=k.exiting ∧ k'.child=k.child := by
  cases h <;> simp [Pc.holds,Pc.exiting,Pc.child]

theorem Wakes.same (h : Wakes s p q k k') :
    k'.holds=k.holds ∧ k'.exiting=k.exiting ∧ k'.child=k.child := by
  cases h <;> simp [Pc.holds,Pc.exiting,Pc.child]

theorem Wakes.sleeper (h : Wakes s p q k k') : s.state q=.sleeping := by
  cases h <;> assumption

theorem Locks.same (h : Locks k k') : k.holds=false ∧ k'.holds=true ∧
    k'.exiting=k.exiting ∧ k.child=none ∧ k'.child=none := by
  cases h <;> simp [Pc.holds,Pc.exiting,Pc.child]

theorem Fails.same (h : Fails k) : k.holds=false ∧ k.child=none := by
  cases h <;> simp [Pc.holds,Pc.child]

theorem WaitFails.same {ok : Bool} (h : WaitFails s p ok k) : k.holds=true ∧ k.child=none := by
  cases h <;> simp [Pc.holds,Pc.child]

theorem Call.entry_same (c : Call) :
    c.entry.holds=false ∧ c.entry.exiting=c.exits ∧ c.entry.child=none := by
  cases c <;> simp [Call.entry,Call.exits,Pc.holds,Pc.exiting,Pc.child]

structure At (s : Sys) (p : Slot) : Prop where
  holder : (s.pc p).holds=true ↔ s.waitLock=some p
  running : (s.pc p).holds=true → s.state p=.running
  called : (s.pc p).called=true → (s.state p).live=true
  asleep : s.state p=.sleeping → (∃ a, s.pc p=.asleep a) ∧ s.chan p=some p
  zombie : s.state p=.zombie → s.pc p=.exited
  init : p=initproc → (s.state p).live=true ∧ (s.pc p).exiting=false

def Control (s : Sys) : Prop := ∀ p, At s p

/-- A USED slot is the child of exactly one `fork` under way. -/
structure Forking (s : Sys) : Prop where
  fresh : ∀ q np, (s.pc q).child=some np → s.state np=.used
  unique : ∀ q r np, (s.pc q).child=some np → (s.pc r).child=some np → q=r
  inside : ∀ np, s.state np=.used → ∃ q, (s.pc q).child=some np

theorem boot_control : Control boot := by
  intro p
  constructor <;> simp [boot,Pc.holds,Pc.called,Pc.exiting]
  · split <;> simp
  · split <;> simp
  · intro hp
    simp [hp,ProcState.live]

variable {x : ProcState}

section Steps
variable (h : Control s)
include h

theorem Control.only (p : Slot) (hp : At t p) (hpc : ∀ r, r≠p → t.pc r=s.pc r)
    (hst : ∀ r, r≠p → t.state r=s.state r) (hchan : ∀ r, r≠p → t.chan r=s.chan r)
    (hlk : ∀ r, r≠p → (t.waitLock=some r ↔ s.waitLock=some r)) : Control t := by
  intro r
  by_cases hr : r=p
  · exact hr ▸ hp
  · obtain ⟨h1,h2,h3,h4,h5,h6⟩ := h r
    constructor <;> simp only [hpc r hr,hst r hr,hchan r hr,hlk r hr] <;> assumption

theorem Control.congr (hpc : t.pc=s.pc) (hst : t.state=s.state)
    (hchan : t.chan=s.chan) (hlk : t.waitLock=s.waitLock) : Control t := by
  intro r
  obtain ⟨h1,h2,h3,h4,h5,h6⟩ := h r
  constructor <;> simp only [hpc,hst,hchan,hlk] <;> assumption

theorem Control.goto (hrun : s.state p=.running) {w : Option Slot}
    (hp : k.holds=true ↔ w=some p) (hlk : ∀ r, r≠p → (w=some r ↔ s.waitLock=some r))
    (hexit : p=initproc → k.exiting=false) : Control ({ s with waitLock := w }.goto p k) := by
  refine h.only p ?_ (fun r hr => by simp [Sys.goto,hr]) (fun _ _ => rfl) (fun _ _ => rfl) hlk
  constructor <;> simp only [Sys.goto,update_self,hrun]
  · exact hp
  · simp
  · simp [ProcState.live]
  · simp
  · simp
  · exact fun hi => ⟨rfl,hexit hi⟩

theorem Control.move (hrun : s.state p=.running) (hp : k.holds=(s.pc p).holds)
    (hexit : p=initproc → k.exiting=false) : Control (s.goto p k) :=
  h.goto (w := s.waitLock) hrun (hp ▸ (h p).holder) (fun _ _ => Iff.rfl) hexit

theorem Control.unlock (hrun : s.state p=.running)
    (hp : (s.pc p).holds=true) (hk : k.holds=false) (hexit : k.exiting=false) :
    Control ({ s with waitLock := none }.goto p k) := by
  refine h.goto hrun (by simp [hk]) (fun r hr => ?_) fun _ => hexit
  simp [(h p).holder.mp hp,hr.symm]

theorem Control.leave (hrun : s.state p=.running) (r : Ret)
    (hp : (s.pc p).holds=false) : Control (s.leave p r) :=
  (h.move (k := .user) hrun hp.symm fun _ => rfl).congr rfl rfl rfl rfl

theorem Control.restate (q : Slot) (hholds : (s.pc q).holds=false)
    (hlive : (s.state q).live=true → x.live=true) (hx : x≠.sleeping) (hz : x≠.zombie)
    (hpc : t.pc=s.pc) (hstate : t.state=update s.state q x)
    (hchan : ∀ r, r≠q → t.chan r=s.chan r) (hlk : t.waitLock=s.waitLock) : Control t := by
  refine h.only q ?_ (fun r _ => by rw [hpc]) (fun r hr => by simp [hstate,hr]) hchan
    fun r _ => by rw [hlk]
  obtain ⟨h1,h2,h3,h4,h5,h6⟩ := h q
  constructor <;> simp only [hpc,hstate,hlk,update_self]
  · exact h1
  · simp [hholds]
  · exact fun hc => hlive (h3 hc)
  · exact fun hx' => absurd hx' hx
  · exact fun hz' => absurd hz' hz
  · exact fun hi => ⟨hlive (h6 hi).1,(h6 hi).2⟩

theorem Control.not_holds (hs : s.state q≠.running) : (s.pc q).holds=false :=
  Bool.eq_false_iff.mpr fun hh => hs ((h q).running hh)

theorem Control.woken (hs : s.state q=.sleeping) :
    Control { s with state := update s.state q .runnable } :=
  h.restate q (h.not_holds (by simp [hs])) (fun _ => rfl) (by simp) (by simp) rfl rfl
    (fun _ _ => rfl) rfl

theorem Control.renew (np : Slot) (hst : s.state np=.unused)
    (hx : x=.used ∨ x=.unused) (hpc : t.pc=update s.pc np .user)
    (hstate : t.state=update s.state np x) (hchan : ∀ r, r≠np → t.chan r=s.chan r)
    (hlk : t.waitLock=s.waitLock) : Control t := by
  refine h.only np ?_ (fun r hr => by simp [hpc,hr]) (fun r hr => by simp [hstate,hr]) hchan
    fun r _ => by rw [hlk]
  have hfree : ¬ s.waitLock=some np := fun hh => by
    simpa [hst] using (h np).running ((h np).holder.mpr hh)
  constructor <;> simp only [hpc,hstate,hlk,update_self,Pc.holds,Pc.called]
  · simpa using hfree
  · simp
  · simp
  · rcases hx with rfl | rfl <;> simp
  · rcases hx with rfl | rfl <;> simp
  · intro hi
    simpa [hst,ProcState.live] using ((h np).init hi).1

theorem Control.exiting (hp : (s.pc p).exiting=true) : p≠initproc :=
  fun hi => by simp [((h p).init hi).2] at hp

theorem Control.switch (hp : (s.pc p).holds=true) (hat : At t p)
    (hpc : ∀ r, r≠p → t.pc r=s.pc r) (hst : ∀ r, r≠p → t.state r=s.state r)
    (hchan : ∀ r, r≠p → t.chan r=s.chan r) (hlk : t.waitLock=none) : Control t := by
  refine h.only p hat hpc hst hchan fun r hr => ?_
  simp [hlk,(h p).holder.mp hp,hr.symm]

theorem Control.step (hf : Forking s) (hc : Change s l t) : Control t := by
  cases hc with
  | call p c hrun hpc hinit =>
    obtain ⟨hh,he,-⟩ := c.entry_same
    exact h.move hrun (by rw [hh,hpc]; rfl) fun hi => he ▸ hinit hi
  | panic p c => exact h.congr rfl rfl rfl rfl
  | move p ok k' hrun hmove =>
    obtain ⟨hh,he,-⟩ := hmove.same
    exact h.move hrun hh fun hi => he ▸ ((h p).init hi).2
  | fail p ok hrun hfail => exact h.leave hrun _ hfail.same.1
  | alloc p np hrun hpc hst =>
    have hne : p≠np := fun hp => by simp [hp,hst] at hrun
    have hfound : Control (s.found np) := h.renew np hst (.inl rfl) rfl rfl (fun _ _ => rfl) rfl
    refine hfound.move (by simp [Sys.found,hne,hrun]) ?_ fun _ => rfl
    simp [Sys.found,hne,hpc,Pc.holds]
  | allocFail p np hrun hpc hst =>
    have hne : p≠np := fun hp => by simp [hp,hst] at hrun
    have hfreed : Control ((s.found np).freeproc np) :=
      h.renew np hst (.inr rfl) rfl (by simp [Sys.found,Sys.freeproc])
        (fun r hr => by simp [Sys.found,Sys.freeproc,hr]) rfl
    refine hfreed.leave (by simp [Sys.found,Sys.freeproc,hne,hrun]) _ ?_
    simp [Sys.found,Sys.freeproc,hne,hpc,Pc.holds]
  | setParent p ok np pid hrun hpc hlk =>
    exact (h.move hrun (by simp [hpc,Pc.holds]) fun _ => rfl).congr rfl rfl rfl rfl
  | start p ok np pid hrun hpc =>
    have hused : s.state np=.used := hf.fresh p np (by simp [hpc,Pc.child])
    have hne : p≠np := fun hp => by simp [hp,hused] at hrun
    have hnp : Control { s with state := update s.state np .runnable } :=
      h.restate np (h.not_holds (by simp [hused])) (fun _ => rfl) (by simp) (by simp) rfl rfl
        (fun _ _ => rfl) rfl
    exact hnp.leave (by simp [hne,hrun]) _ (by simp [hpc,Pc.holds])
  | lock p ok k' hrun hlk hpc =>
    obtain ⟨-,hh,he,-⟩ := hpc.same
    exact h.goto hrun (by simp [hh]) (fun r hr => by simp [hlk,hr.symm])
      fun hi => he ▸ ((h p).init hi).2
  | hand p ok status c hrun hpc hpar =>
    have hexit := h.exiting (p := p) (by simp [hpc,Pc.exiting])
    exact (h.move hrun (by simp [hpc,Pc.holds]) fun hi => absurd hi hexit).congr rfl rfl rfl rfl
  | wake p ok q k' hrun hwake =>
    obtain ⟨hh,he,-⟩ := hwake.same
    have hne : p≠q := fun hp => by simp [hp,hwake.sleeper] at hrun
    exact (h.woken hwake.sleeper).move (by simp [hne,hrun]) hh fun hi => he ▸ ((h p).init hi).2
  | zombie p ok status hrun hpc =>
    have hexit := h.exiting (p := p) (by simp [hpc,Pc.exiting])
    refine h.switch (p := p) (by simp [hpc,Pc.holds]) ?_ (fun r hr => by simp [Sys.goto,hr])
      (fun r hr => by simp [Sys.goto,hr]) (fun _ _ => rfl) rfl
    constructor <;> simp [Sys.goto,Pc.holds,Pc.called,hexit]
  | waitFail p ok hrun hfail => exact (h.unlock hrun hfail.same.1 rfl rfl).congr rfl rfl rfl rfl
  | reap p ok addr c havekids hrun hpc hpar hst =>
    have hne : p≠c := fun hp => by simp [hp,hst] at hrun
    have hfreed : Control (s.freeproc c) :=
      h.restate c (h.not_holds (by simp [hst])) (by simp [hst,ProcState.live]) (by simp)
        (by simp) rfl rfl (fun r hr => by simp [Sys.freeproc,hr]) rfl
    have hdone := hfreed.unlock (p := p) (k := .user) (by simp [Sys.freeproc,hne,hrun])
      (by simp [Sys.freeproc,hpc,Pc.holds]) rfl rfl
    exact hdone.congr rfl rfl rfl rfl
  | sleep p ok addr hrun hpc =>
    refine h.switch (p := p) (by simp [hpc,Pc.holds]) ?_ (fun r hr => by simp [Sys.goto,hr])
      (fun r hr => by simp [Sys.goto,hr]) (fun r hr => by simp [Sys.goto,hr]) rfl
    constructor <;> simp [Sys.goto,Pc.holds,Pc.exiting,ProcState.live]
  | kill p ok pid q hrun hpc hpid =>
    by_cases hst : s.state q=.sleeping
    · have hne : p≠q := fun hp => by simp [hp,hst] at hrun
      have hdone := (h.woken hst).leave (p := p) (by simp [hne,hrun]) (.ok 0 none)
        (by simp [hpc,Pc.holds])
      exact hdone.congr rfl (by simp [Sys.leave,hst]) rfl rfl
    · have hdone := h.leave hrun (.ok 0 none) (by simp [hpc,Pc.holds])
      exact hdone.congr rfl (by simp [Sys.leave,hst]) rfl rfl
  | wakened p addr hst hpc =>
    refine h.only p ?_ (fun r hr => by simp [Sys.goto,hr]) (fun r hr => by simp [Sys.goto,hr])
      (fun r hr => by simp [Sys.goto,hr]) fun _ _ => Iff.rfl
    have hfree := (h p).holder
    constructor <;> simp [Sys.goto,Pc.holds,Pc.exiting,ProcState.live]
    simpa [hpc,Pc.holds] using hfree
  | schedule p hst hpc =>
    exact h.restate p (h.not_holds (by simp [hst])) (fun _ => rfl) (by simp) (by simp) rfl rfl
      (fun _ _ => rfl) rfl
  | switched p => exact h.congr rfl rfl rfl rfl
  | yield p hrun hlk =>
    refine h.restate p ?_ (fun _ => rfl) (by simp) (by simp) rfl rfl (fun _ _ => rfl) rfl
    exact Bool.eq_false_iff.mpr fun hh => hlk ((h p).holder.mp hh)

end Steps

theorem boot_forking : Forking boot := by
  constructor <;> simp [boot,Pc.child]
  intro np
  split <;> simp

theorem Forking.congr (h : Forking s) (hst : ∀ r, t.state r=.used ↔ s.state r=.used)
    (hpc : ∀ r, (t.pc r).child=(s.pc r).child) : Forking t := by
  obtain ⟨h1,h2,h3⟩ := h
  constructor <;> simp only [hst,hpc] <;> assumption

theorem child_goto (hk : k.child=(s.pc p).child) (r : Slot) :
    (update s.pc p k r).child=(s.pc r).child := by
  by_cases hr : r=p
  · simp [hr,hk]
  · simp [hr]

theorem used_update (hs : s.state p≠.used) (hx : x≠.used) (r : Slot) :
    update s.state p x r=.used ↔ s.state r=.used := by
  by_cases hr : r=p
  · simp [hr,hs,hx]
  · simp [hr]

theorem Forking.insert (h : Forking s) (np : Slot) (hp : (s.pc p).child=none)
    (hnp : s.state np≠.used) (hst : ∀ r, t.state r=.used ↔ r=np ∨ s.state r=.used)
    (hpc : ∀ r, (t.pc r).child = if r=p then some np else (s.pc r).child) : Forking t := by
  obtain ⟨h1,h2,h3⟩ := h
  constructor
  · intro q m
    rw [hpc,hst]
    split
    · simp +contextual
    · exact fun hq => .inr (h1 q m hq)
  · intro q r m
    rw [hpc,hpc]
    -- nobody else has the slot, which was free
    have hfree : ∀ q, (s.pc q).child≠some np := fun q hq => hnp (h1 q np hq)
    split <;> split
    · simp_all
    · simp only [Option.some.injEq]
      rintro rfl hr
      exact absurd hr (hfree r)
    · simp only [Option.some.injEq]
      rintro hq rfl
      exact absurd hq (hfree q)
    · exact h2 q r m
  · intro m
    rw [hst]
    rintro (rfl | hm)
    · exact ⟨p,by simp [hpc]⟩
    · obtain ⟨q,hq⟩ := h3 m hm
      have hqp : q≠p := fun he => by simp [he,hp] at hq
      exact ⟨q,by simp [hpc,hqp,hq]⟩

theorem Forking.remove (h : Forking s) (np : Slot) (hp : (s.pc p).child=some np)
    (hst : ∀ r, t.state r=.used ↔ r≠np ∧ s.state r=.used)
    (hpc : ∀ r, (t.pc r).child = if r=p then none else (s.pc r).child) : Forking t := by
  obtain ⟨h1,h2,h3⟩ := h
  constructor
  · intro q m
    rw [hpc,hst]
    split
    · simp
    next hq =>
      refine fun hm => ⟨?_,h1 q m hm⟩
      rintro rfl
      exact hq (h2 q p m hm hp)
  · intro q r m
    rw [hpc,hpc]
    split
    · simp
    · split
      · simp
      · exact h2 q r m
  · intro m
    rw [hst]
    rintro ⟨hne,hm⟩
    obtain ⟨q,hq⟩ := h3 m hm
    have hqp : q≠p := fun he => hne (Option.some.inj (hq.symm.trans (he ▸ hp)))
    exact ⟨q,by simp [hpc,hqp,hq]⟩

theorem Control.child_unused (h : Control s) (hst : s.state q=.unused) : (s.pc q).child=none := by
  have hcall := (h q).called
  cases hq : s.pc q with
  | forkParent np pid | forkStart np pid => simp [hq,hst,Pc.called,ProcState.live] at hcall
  | _ => rfl

theorem Forking.step (h : Forking s) (hcon : Control s) (hc : Change s l t) : Forking t := by
  cases hc with
  | call p c hrun hpc =>
    refine h.congr (fun _ => Iff.rfl) (child_goto ?_)
    rw [c.entry_same.2.2,hpc]
    rfl
  | panic p c => exact h.congr (fun _ => Iff.rfl) fun _ => rfl
  | move p ok k' hrun hmove => exact h.congr (fun _ => Iff.rfl) (child_goto hmove.same.2.2)
  | fail p ok hrun hfail => exact h.congr (fun _ => Iff.rfl) (child_goto hfail.same.2.symm)
  | alloc p np hrun hpc hst =>
    have hkid : Pc.user.child=(s.pc np).child := (hcon.child_unused hst).symm
    refine h.insert (p := p) np (by simp [hpc,Pc.child]) (by simp [hst]) (fun r => ?_)
      fun r => ?_
    · by_cases hr : r=np <;> simp [Sys.goto,Sys.found,hr]
    · by_cases hr : r=p
      · simp [Sys.goto,hr,Pc.child]
      · simpa [Sys.goto,Sys.found,hr] using child_goto hkid r
  | allocFail p np hrun hpc hst =>
    have hkid : Pc.user.child=(s.pc np).child := (hcon.child_unused hst).symm
    refine h.congr (fun r => ?_) fun r => ?_
    · simpa [Sys.leave,Sys.found,Sys.freeproc] using used_update (by simp [hst]) (by simp) r
    · by_cases hr : r=p
      · simp [Sys.leave,hr,hpc,Pc.child]
      · simpa [Sys.leave,Sys.found,Sys.freeproc,hr] using child_goto hkid r
  | setParent p ok np pid hrun hpc hlk =>
    exact h.congr (fun _ => Iff.rfl) (child_goto (by simp [hpc,Pc.child]))
  | start p ok np pid hrun hpc =>
    refine h.remove (p := p) np (by simp [hpc,Pc.child]) (fun r => ?_) fun r => ?_
    · by_cases hr : r=np <;> simp [Sys.leave,hr]
    · by_cases hr : r=p <;> simp [Sys.leave,hr,Pc.child]
  | lock p ok k' hrun hlk hpc =>
    obtain ⟨-,-,-,hold,hnew⟩ := hpc.same
    exact h.congr (fun _ => Iff.rfl) (child_goto (hnew.trans hold.symm))
  | hand p ok status c hrun hpc hpar =>
    exact h.congr (fun _ => Iff.rfl) (child_goto (by simp [hpc,Pc.child]))
  | wake p ok q k' hrun hwake =>
    exact h.congr (used_update (by simp [hwake.sleeper]) (by simp)) (child_goto hwake.same.2.2)
  | zombie p ok status hrun hpc =>
    exact h.congr (used_update (by simp [hrun]) (by simp)) (child_goto (by simp [hpc,Pc.child]))
  | waitFail p ok hrun hfail => exact h.congr (fun _ => Iff.rfl) (child_goto hfail.same.2.symm)
  | reap p ok addr c havekids hrun hpc hpar hst =>
    have hkid : Pc.user.child=(s.pc p).child := by simp [hpc,Pc.child]
    exact h.congr (used_update (by simp [hst]) (by simp)) (child_goto hkid)
  | sleep p ok addr hrun hpc =>
    exact h.congr (used_update (by simp [hrun]) (by simp)) (child_goto (by simp [hpc,Pc.child]))
  | kill p ok pid q hrun hpc hpid =>
    refine h.congr (fun r => ?_) (child_goto (by simp [hpc,Pc.child]))
    split_ifs with hst
    · exact used_update (by simp [hst]) (by simp) r
    · rfl
  | wakened p addr hst hpc =>
    exact h.congr (used_update (by simp [hst]) (by simp)) (child_goto (by simp [hpc,Pc.child]))
  | schedule p hst hpc => exact h.congr (used_update (by simp [hst]) (by simp)) fun _ => rfl
  | switched p => exact h.congr (fun _ => Iff.rfl) fun _ => rfl
  | yield p hrun hlk => exact h.congr (used_update (by simp [hrun]) (by simp)) fun _ => rfl

end Xv6.Proc
