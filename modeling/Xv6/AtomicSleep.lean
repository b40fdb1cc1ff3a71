import Xv6.LostWakeup
import Xv6.Monitor

/-! `sleep` and `wakeup` can be taken for single steps: what the kernel does in the loops of
`Xv6.SleepWakeup`, with its locks and schedulers, is a run of the same loops in a monitor. A sleeper
that `wakeup` comes to before the others is woken there for no reason. -/
namespace Xv6.SleepWakeup
open Function Xv6.Machine Xv6.Proc
variable {s t : Sys} {p q : Slot}

inductive Place where
  | test
  | setCond
  | wakeup
  | release
deriving DecidableEq, Repr

/-- The condition is the shared state; it may become false at any time. -/
def code : Monitor.Code Slot Bool Place Unit Unit Unit where
  act _ cond
    | .test => ⟨cond,none,if cond then .stay .release else .sleep () .test⟩
    | .setCond => ⟨true,none,.stay .wakeup⟩
    | .wakeup => ⟨cond,some (),.stay .release⟩
    | .release => ⟨cond,none,.leave ()⟩
  env _ _ := some false

abbrev Loops : Type := Monitor.Sys Slot Bool Place Unit Unit
abbrev View : Type := Monitor.Pc Place Unit Unit

/-- Where a process that has `lk` is in the monitor. It is before its `sleep` until it releases
`lk`, and in one `wakeup` while it walks the table. -/
def place : Pc → Option Place
  | .test | .sleepAcquire | .sleepRelease => some .test
  | .setCond => some .setCond
  | .wakeup _ | .wakeupHolds _ => some .wakeup
  | .waitRelease | .wakeRelease => some .release
  | .free _ | .yieldSwtch _ | .yielded _ | .sleepSwtch | .asleep => none

def held (s : Sys) : Option (Slot × Place) :=
  s.lk.bind fun p => (place (s.pc p)).map fun a => (p,a)

def Free.view : Free → Option View
  | .outside => none
  | .wait => some (.enter .test)
  | .wake => some (.enter .setCond)

/-- What the monitor shows of a process that is in one of the loops. -/
def view (s : Sys) (p : Slot) : Option View :=
  match s.pc p with
  | .free f | .yieldSwtch f | .yielded f => f.view
  | .sleepSwtch => some (.asleep () .test)
  | .asleep => some (if s.state p=.sleeping then .asleep () .test else .enter .test)
  | _ => some .inside

def shown : View → Option View
  | .outside _ => none
  | k => some k

structure Shows (s : Sys) (u : Loops) : Prop where
  shared : u.shared=s.cond
  holder : u.holder=held s
  pc : ∀ p, shown (u.pc p)=view s p

variable {u : Loops} {a : Place} {k : Pc}

theorem eq_of_shown {v w : View} (h : shown v=some w) : v=w := by
  cases v with
  | outside r => cases h
  | enter | inside | asleep => exact Option.some.inj h

theorem view_congr (hpc : t.pc q=s.pc q) (hst : t.state q=.sleeping ↔ s.state q=.sleeping) :
    view t q=view s q := by
  simp only [view,hpc,hst]

theorem held_goto (hlk : t.lk=s.lk) (hpc : t.pc=update s.pc p k) (hplace : place k=place (s.pc p)) :
    held t=held s := by
  have hsame : ∀ q, place (t.pc q)=place (s.pc q) := fun q => by
    by_cases hq : q=p
    · rw [hpc,hq,update_self,hplace]
    · rw [hpc,update_of_ne hq]
  simp only [held,hlk,hsame]

/-- One step of the kernel is at most one step of the monitor. -/
def Follows (t : Sys) (u : Loops) : Prop :=
  Shows t u ∨ ∃ l u', code.step u l=some u' ∧ Shows t u'

theorem held_of_place (hlk : HoldsLk s) (hp : place (s.pc p)=some a) : held s=some (p,a) := by
  have hholds : (s.pc p).holdsLk=true := by
    cases hk : s.pc p <;> simp_all [place,Pc.holdsLk]
  simp [held,(hlk p).mp hholds,hp]

/-- Nobody sleeps any more when a walk through the table has ended. -/
theorem not_bound (h : Inv s) {i : Nat} (hp : s.pc p=.wakeup i) (hi : ¬ i < nproc) : ¬ Bound s q := by
  intro hq
  obtain ⟨r,hr⟩ := h.pending (h.cond p true (by rw [hp]; rfl)) q hq
  obtain rfl := h.lk.alone (by rw [hp]; rfl) hr.holdsLk
  obtain ⟨j,hj,hle⟩ | ⟨r',hr',-⟩ := hr
  · rw [hp] at hj
    cases hj
    exact hi (hle.trans_lt q.isLt)
  · rw [hp] at hr'
    cases hr'

theorem bound_of_view {c : Unit} (hs : Sleeps s q) (h : view s q=some (.asleep c a)) : Bound s q := by
  cases hpc : s.pc q with
  | sleepSwtch => exact .inr hpc
  | asleep =>
    have hst : s.state q=.sleeping := by
      by_contra hst
      simp [view,hpc,hst] at h
    exact .inl ⟨hst,hs.chan hpc⟩
  | free f | yieldSwtch f | yielded f => cases f <;> simp [view,hpc,Free.view] at h
  | _ => simp [view,hpc] at h

section Steps
variable (h : Shows s u)
include h

/-- A step that the monitor does not see. -/
theorem Shows.skip (hcond : t.cond=s.cond) (hlk : t.lk=s.lk)
    (hpc : t.pc=update s.pc p k) (hplace : place k=place (s.pc p)) (hself : view t p=view s p)
    (hst : ∀ q≠p, t.state q=.sleeping ↔ s.state q=.sleeping) : Follows t u := by
  refine .inl ⟨h.shared.trans hcond.symm,h.holder.trans (held_goto hlk hpc hplace).symm,fun q => ?_⟩
  rw [h.pc q]
  by_cases hq : q=p
  · rw [hq,hself]
  · exact (view_congr (by rw [hpc,update_of_ne hq]) (hst q hq)).symm

/-- A process that does not get or have `lk` makes a step in the monitor. -/
theorem Shows.goto {v : View} (hcond : t.cond=s.cond) (hheld : held t=held s)
    (hself : shown v=view t p) (hothers : ∀ q≠p, view t q=view s q) : Shows t (u.goto p v) := by
  refine ⟨h.shared.trans hcond.symm,h.holder.trans hheld.symm,fun q => ?_⟩
  by_cases hq : q=p
  · simpa [Monitor.Sys.goto,hq] using hself
  · simpa [Monitor.Sys.goto,hq,hothers q hq] using h.pc q

/-- The process that has `lk` makes a step in the monitor. -/
theorem Shows.advance {w : Option Unit} {n : Monitor.Next Place Unit Unit}
    (hs : held s=some (p,a)) (hact : code.act p s.cond a=⟨t.cond,w,n⟩) (ht : held t=n.holder p)
    (hself : shown n.pc=view t p) (hothers : ∀ q≠p, shown ((u.pc q).woken w)=view t q) :
    Follows t u := by
  refine .inr ⟨.advance,u.take p ⟨t.cond,w,n⟩,?_,rfl,ht.symm,fun q => ?_⟩
  · simp only [Monitor.Code.step,h.holder,hs,Option.map_some,h.shared,hact]
  · by_cases hq : q=p
    · simpa [Monitor.Sys.take,hq] using hself
    · simpa [Monitor.Sys.take,hq] using hothers q hq

theorem Shows.advance_quiet {n : Monitor.Next Place Unit Unit} (hs : held s=some (p,a))
    (hact : code.act p s.cond a=⟨t.cond,none,n⟩) (hpc : t.pc=update s.pc p k) (hst : t.state=s.state)
    (ht : held t=n.holder p) (hself : shown n.pc=view t p) : Follows t u := by
  refine h.advance hs hact ht hself fun q hq => ?_
  have hawake : (u.pc q).woken none=u.pc q := by cases u.pc q <;> rfl
  rw [hawake,h.pc q]
  exact (view_congr (by rw [hpc,update_of_ne hq]) (by rw [hst])).symm

theorem Shows.call (f : Free) (hpc : s.pc p=.free .outside) : Follows (s.goto p (.free f)) u := by
  have hheld : held (s.goto p (.free f))=held s := held_goto rfl rfl (by rw [hpc]; rfl)
  have hothers : ∀ q≠p, view (s.goto p (.free f)) q=view s q := fun q hq =>
    view_congr (by simp [Sys.goto,hq]) Iff.rfl
  obtain ⟨r,hr⟩ : ∃ r, u.pc p=.outside r := by
    have hview := h.pc p
    rw [view,hpc] at hview
    cases hu : u.pc p with
    | outside r => exact ⟨r,rfl⟩
    | enter | inside | asleep =>
      rw [hu] at hview
      cases hview
  cases f with
  | outside =>
    exact h.skip rfl rfl rfl (by rw [hpc]) (by simp [view,Sys.goto,hpc]) fun _ _ => Iff.rfl
  | wait =>
    refine .inr ⟨.call p .test,u.goto p (.enter .test),by simp only [Monitor.Code.step,hr],?_⟩
    exact h.goto rfl hheld (by simp [view,Sys.goto,Free.view,shown]) hothers
  | wake =>
    refine .inr ⟨.call p .setCond,u.goto p (.enter .setCond),by simp only [Monitor.Code.step,hr],?_⟩
    exact h.goto rfl hheld (by simp [view,Sys.goto,Free.view,shown]) hothers

theorem Shows.acquire (hlk : s.lk=none) (hp : view s p=some (.enter a))
    (hk : place k=some a) (hin : ∀ v : Sys, v.pc p=k → view v p=some .inside) :
    Follows ({ s with lk := some p }.goto p k) u := by
  have hu : u.pc p=.enter a := eq_of_shown ((h.pc p).trans hp)
  have hnone : u.holder=none := by simp [h.holder,held,hlk]
  refine .inr ⟨.acquire p,Monitor.Sys.goto { u with holder := some (p,a) } p .inside,
    by simp only [Monitor.Code.step,hu,hnone],h.shared,?_,fun q => ?_⟩
  · simp [Monitor.Sys.goto,held,Sys.goto,hk]
  · by_cases hq : q=p
    · subst hq
      simp [Monitor.Sys.goto,shown,hin,Sys.goto]
    · simp only [Monitor.Sys.goto,update_of_ne hq,h.pc q]
      exact Eq.symm (view_congr (by simp [Sys.goto,hq]) Iff.rfl)

theorem Shows.wakeupDone (hinv : Inv s) {i : Nat} (hpc : s.pc p=.wakeup i)
    (hi : ¬ i < nproc) : Follows (s.goto p .wakeRelease) u := by
  have hp : place (s.pc p)=some .wakeup := by rw [hpc]; rfl
  have hheld := held_of_place hinv.lk hp
  have hlk : s.lk=some p := (hinv.lk p).mp (by rw [hpc]; rfl)
  refine h.advance hheld rfl (by simp [held,Sys.goto,hlk,place,Monitor.Next.holder])
    (by simp [view,Sys.goto,Monitor.Next.pc,shown]) fun q hq => ?_
  have hawake : (u.pc q).woken (some ())=u.pc q := by
    have hview := h.pc q
    cases hu : u.pc q with
    | asleep c a =>
      rw [hu] at hview
      exact absurd (bound_of_view (hinv.sleeps q) hview.symm) (not_bound hinv hpc hi)
    | outside | enter | inside => rfl
  rw [hawake,h.pc q]
  exact Eq.symm (view_congr (by simp [Sys.goto,hq]) Iff.rfl)

theorem Shows.wakeupRelease (hinv : Inv s) (hpc : s.pc p=.wakeupHolds q) :
    Follows ({ s with
      state := if s.state q=ProcState.sleeping ∧ s.chan q then update s.state q .runnable
        else s.state
      lock := update s.lock q none }.goto p (.wakeup (q+1))) u := by
  split_ifs with hst
  · -- the sleeper that the walk has come to
    have hne : q≠p := (hinv.sleeps p).other q hpc
    have hq : s.pc q=.asleep := (hinv.sleeps q).asleep hst.1
    have huq : u.pc q=.asleep () .test := eq_of_shown ((h.pc q).trans (by simp [view,hq,hst.1]))
    refine .inr ⟨.rouse q,u.goto q (.enter .test),by simp only [Monitor.Code.step,huq],?_⟩
    refine h.goto rfl (held_goto rfl rfl (by rw [hpc]; rfl)) ?_ fun r hr => ?_
    · simp [view,Sys.goto,hne,hq,shown]
    · by_cases hrp : r=p
      · simp [view,Sys.goto,hrp,hpc]
      · exact view_congr (by simp [Sys.goto,hrp]) (by simp [Sys.goto,hr])
  · exact h.skip rfl rfl rfl (by rw [hpc]; rfl) (by simp [view,Sys.goto,hpc]) fun _ _ => Iff.rfl

theorem Shows.follow (hinv : Inv s) (hc : Change s t) : Follows t u := by
  cases hc with
  | enter p f hrun hpc => exact h.call f hpc
  | acquireWait p hrun hpc hlk | acquireWake p hrun hpc hlk =>
    exact h.acquire hlk (by rw [view,hpc]; rfl) rfl fun v hv => by rw [view,hv]
  | testTrue p hrun hpc hcond =>
    have hlk := (hinv.lk p).mp (by rw [hpc]; rfl)
    exact h.advance_quiet (held_of_place hinv.lk (by rw [hpc]; rfl))
      (by simp [code,Sys.goto,hcond]; rfl) rfl rfl (by simp [held,Sys.goto,hlk,place]; rfl)
      (by simp [view,Sys.goto,Monitor.Next.pc,shown])
  | sleepRelease p hrun hpc =>
    have hcond := hinv.cond p false (by rw [hpc]; rfl)
    exact h.advance_quiet (held_of_place hinv.lk (by rw [hpc]; rfl))
      (by simp [code,Sys.goto,hcond]; rfl) rfl rfl rfl (by simp [view,Sys.goto,Monitor.Next.pc,shown])
  | unlock p hrun hpc =>
    refine h.advance_quiet (a := .release) (held_of_place hinv.lk ?_) rfl rfl rfl rfl
      (by simp [view,Sys.goto,Monitor.Next.pc,Free.view,shown])
    obtain hpc | hpc := hpc <;> rw [hpc] <;> rfl
  | setCond p hrun hpc =>
    have hlk := (hinv.lk p).mp (by rw [hpc]; rfl)
    exact h.advance_quiet (held_of_place hinv.lk (by rw [hpc]; rfl)) rfl rfl rfl
      (by simp [held,Sys.goto,hlk,place,Monitor.Next.holder]) (by simp [view,Sys.goto,Monitor.Next.pc,shown])
  | testFalse p hrun hpc | sleepAcquire p hrun hpc | pass p hrun hpc | wakeupAcquire p q hrun hpc
  | yieldAcquire p f hrun hpc | yieldRelease p f hrun hpc =>
    exact h.skip rfl rfl rfl (by rw [hpc]; rfl) (by simp [view,Sys.goto,hpc]) fun _ _ => Iff.rfl
  | sleepSwtch p hrun hpc | yieldSwtch p f hrun hpc =>
    refine h.skip rfl rfl rfl (by rw [hpc]; rfl) (by simp [view,Sys.swtch,Sys.goto,hpc]) fun q hq => ?_
    simp [Sys.swtch,Sys.goto,hq]
  | awake p hrun hpc =>
    exact h.skip rfl rfl rfl (by rw [hpc]; rfl) (by simp [view,Sys.goto,hpc,hrun,Free.view])
      fun _ _ => Iff.rfl
  | wakeupRelease p q hrun hpc => exact h.wakeupRelease hinv hpc
  | wakeupDone p i hrun hpc hi => exact h.wakeupDone hinv hpc hi
  | clear p hpc => exact .inr ⟨.env (),{ u with shared := false },rfl,rfl,h.holder,h.pc⟩
  | pick p hlock | release p hlock =>
    exact h.skip (p := p) rfl rfl (update_eq_self p s.pc).symm rfl rfl fun _ _ => Iff.rfl
  | dispatch p hst hlock =>
    refine h.skip (p := p) rfl rfl (update_eq_self p s.pc).symm rfl (view_congr rfl ?_) fun q hq => ?_
    · simp [hst]
    · simp [hq]

end Steps

/-- Every run of the kernel's `sleep` and `wakeup`, with their locks and the schedulers, is a run of
the same loops in a monitor; a process sleeps there from the moment that it gives up `lk` until it
is woken. -/
theorem sleep_atomic {present : Slot → Bool} {cond : Bool} {ls : List Label}
    (hrun : run step ls (start present cond)=some t) :
    ∃ u, Reaches code.step (Monitor.start cond) u ∧ Shows t u := by
  have hstep : ∀ s l t, (Inv s ∧ ∃ u, Reaches code.step (Monitor.start cond) u ∧ Shows s u) →
      step s l=some t → Inv t ∧ ∃ u, Reaches code.step (Monitor.start cond) u ∧ Shows t u := by
    rintro s l t ⟨hinv,u,hu,hs⟩ hstep
    refine ⟨hinv.step hstep,?_⟩
    obtain ht | ⟨l',u',hl,ht⟩ := hs.follow hinv (step_change hstep)
    · exact ⟨u,hu,ht⟩
    · exact ⟨u',hu.trans (.single hl),ht⟩
  have hshows : Shows (start present cond) (Monitor.start cond) := ⟨rfl,rfl,fun p => rfl⟩
  exact (run_invariant hstep ⟨start_inv present cond,_,.refl _,hshows⟩ hrun).2

end Xv6.SleepWakeup
