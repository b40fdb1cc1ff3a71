import Xv6.SleepWakeup

/-! No wakeup is lost. A process that is about to sleep has seen the condition false under `lk` and
gives up its own lock only in the scheduler, so a later `wakeup` waits for it at its slot. -/
namespace Xv6.SleepWakeup
open Function Xv6.Machine Xv6.Proc
variable {s t : Sys} {p q : Slot} {l : Label}

def Pc.holdsLk : Pc → Bool
  | .test | .sleepAcquire | .sleepRelease | .waitRelease | .setCond | .wakeup _ | .wakeupHolds _ |
    .wakeRelease => true
  | .free _ | .yieldSwtch _ | .yielded _ | .sleepSwtch | .asleep => false

/-- The slot whose lock the thread of `p` has. A process that was switched out has its
own lock again when it runs. -/
def Sys.owned (s : Sys) (p : Slot) : Option Slot :=
  match s.pc p with
  | .yieldSwtch _ | .sleepRelease | .sleepSwtch => some p
  | .yielded _ | .asleep => if s.state p=.running then some p else none
  | .wakeupHolds q => some q
  | .free _ | .test | .sleepAcquire | .waitRelease | .setCond | .wakeup _ | .wakeRelease => none

theorem owned_congr (hpc : t.pc p=s.pc p) (hst : t.state p=.running ↔ s.state p=.running) :
    t.owned p=s.owned p := by
  simp only [Sys.owned,hpc,hst]

def HoldsLk (s : Sys) : Prop := ∀ p, (s.pc p).holdsLk=true ↔ s.lk=some p

theorem HoldsLk.move (h : HoldsLk s) {k : Pc} (hk : k.holdsLk=(s.pc p).holdsLk)
    (hpc : t.pc=update s.pc p k) (hlk : t.lk=s.lk) : HoldsLk t := by
  intro r
  by_cases hr : r=p
  · rw [hpc,hlk,hr,update_self,hk,h]
  · rw [hpc,hlk,update_of_ne hr,h]

theorem HoldsLk.acquire (h : HoldsLk s) {k : Pc} (hfree : s.lk=none) (hk : k.holdsLk=true)
    (hpc : t.pc=update s.pc p k) (hlk : t.lk=some p) : HoldsLk t := by
  intro r
  by_cases hr : r=p
  · simp [hpc,hlk,hr,hk]
  · rw [hpc,hlk,update_of_ne hr,h,hfree]
    simp [Ne.symm hr]

theorem HoldsLk.release (h : HoldsLk s) {k : Pc} (hold : (s.pc p).holdsLk=true)
    (hk : k.holdsLk=false) (hpc : t.pc=update s.pc p k) (hlk : t.lk=none) : HoldsLk t := by
  intro r
  by_cases hr : r=p
  · simp [hpc,hlk,hr,hk]
  · rw [hpc,hlk,update_of_ne hr,h,(h p).mp hold]
    simp [Ne.symm hr]

theorem HoldsLk.step (h : HoldsLk s) (hc : Change s t) : HoldsLk t := by
  cases hc with
  | enter p f hrun hpc | testTrue p hrun hpc | testFalse p hrun hpc | setCond p hrun hpc
  | pass p hrun hpc | wakeupDone p i hrun hpc | sleepAcquire p hrun hpc | sleepSwtch p hrun hpc
  | awake p hrun hpc | wakeupAcquire p q hrun hpc | wakeupRelease p q hrun hpc
  | yieldAcquire p f hrun hpc | yieldSwtch p f hrun hpc | yieldRelease p f hrun hpc =>
    exact h.move (p := p) (by rw [hpc]; rfl) rfl rfl
  | acquireWait p hrun hpc hlk | acquireWake p hrun hpc hlk => exact h.acquire hlk rfl rfl rfl
  | sleepRelease p hrun hpc => exact h.release (p := p) (by rw [hpc]; rfl) rfl rfl rfl
  | unlock p hrun hpc =>
    refine h.release (p := p) ?_ rfl rfl rfl
    obtain hpc | hpc := hpc <;> rw [hpc] <;> rfl
  | clear | pick | dispatch | release => exact h

def OwnsAll (s : Sys) : Prop := ∀ p q, s.owned p=some q → s.lock q=some (.proc p)

theorem OwnsAll.same (h : OwnsAll s) (hlock : t.lock=s.lock)
    (hown : ∀ r, t.owned r=s.owned r) : OwnsAll t := by
  intro r q hr
  rw [hlock]
  exact h r q (hown r ▸ hr)

theorem OwnsAll.acquire (h : OwnsAll s) (hfree : s.lock q=none)
    (hlock : t.lock=update s.lock q (some (.proc p))) (hp : t.owned p=some q)
    (hown : ∀ r, r≠p → t.owned r=s.owned r) : OwnsAll t := by
  intro r q' hr
  by_cases hrp : r=p
  · subst hrp
    obtain rfl : q=q' := Option.some.inj (hp.symm.trans hr)
    simp [hlock]
  · have hold := h r q' (hown r hrp ▸ hr)
    have hne : q'≠q := fun he => by simp [he,hfree] at hold
    simpa [hlock,hne] using hold

theorem OwnsAll.release (h : OwnsAll s) (hold : s.owned p=some q) {x : Option Holder}
    (hlock : t.lock=update s.lock q x) (hp : t.owned p=none)
    (hown : ∀ r, r≠p → t.owned r=s.owned r) : OwnsAll t := by
  intro r q' hr
  by_cases hrp : r=p
  · simp [hrp,hp] at hr
  · have hold' := h r q' (hown r hrp ▸ hr)
    have hne : q'≠q := fun he => by
      rw [he,h p q hold] at hold'
      exact hrp (by simpa using hold'.symm)
    simpa [hlock,hne] using hold'

theorem OwnsAll.scheduler (h : OwnsAll s) (hnone : ∀ r, s.lock q≠some (.proc r))
    {x : Option Holder} (hlock : t.lock=update s.lock q x)
    (hown : ∀ r, t.owned r=s.owned r ∨ t.owned r=some q ∧ x=some (.proc r)) : OwnsAll t := by
  intro r q' hr
  obtain hsame | ⟨hq,rfl⟩ := hown r
  · have hold := h r q' (hsame ▸ hr)
    have hne : q'≠q := fun he => hnone r (he ▸ hold)
    simpa [hlock,hne] using hold
  · obtain rfl : q=q' := Option.some.inj (hq.symm.trans hr)
    simp [hlock]

theorem owned_of_ne (hpc : ∀ r, r≠p → t.pc r=s.pc r) (hst : ∀ r, r≠p → t.state r=s.state r)
    (r : Slot) (hr : r≠p) : t.owned r=s.owned r :=
  owned_congr (hpc r hr) (by rw [hst r hr])

theorem OwnsAll.move (h : OwnsAll s) (p : Slot) (hlock : t.lock=s.lock) (hp : t.owned p=s.owned p)
    (hpc : ∀ r, r≠p → t.pc r=s.pc r) (hst : t.state=s.state) : OwnsAll t := by
  refine h.same hlock fun r => ?_
  by_cases hr : r=p
  · exact hr ▸ hp
  · exact owned_of_ne hpc (fun _ _ => by rw [hst]) r hr

theorem OwnsAll.step (h : OwnsAll s) (hc : Change s t) : OwnsAll t := by
  cases hc with
  | enter p f hrun hpc | acquireWait p hrun hpc | acquireWake p hrun hpc | testTrue p hrun hpc
  | testFalse p hrun hpc | sleepRelease p hrun hpc | setCond p hrun hpc | pass p hrun hpc
  | wakeupDone p i hrun hpc =>
    exact h.move p rfl (by simp [Sys.owned,Sys.goto,hpc]) (fun r hr => by simp [Sys.goto,hr]) rfl
  | sleepAcquire p hrun hpc hlock | wakeupAcquire p q hrun hpc hne hlock
  | yieldAcquire p f hrun hpc hlock =>
    exact h.acquire hlock rfl (by simp [Sys.owned,Sys.goto])
      (owned_of_ne (fun r hr => by simp [Sys.goto,hr]) fun _ _ => rfl)
  | sleepSwtch p hrun hpc | yieldSwtch p f hrun hpc =>
    exact h.release (p := p) (q := p) (by simp [Sys.owned,hpc]) rfl
      (by simp [Sys.owned,Sys.swtch,Sys.goto])
      (owned_of_ne (fun r hr => by simp [Sys.swtch,Sys.goto,hr])
        fun r hr => by simp [Sys.swtch,Sys.goto,hr])
  | awake p hrun hpc | yieldRelease p f hrun hpc =>
    exact h.release (p := p) (q := p) (by simp [Sys.owned,hpc,hrun]) rfl
      (by simp [Sys.owned,Sys.goto])
      (owned_of_ne (fun r hr => by simp [Sys.goto,hr]) fun _ _ => rfl)
  | unlock p hrun hpc =>
    refine h.move p rfl ?_ (fun r hr => by simp [Sys.goto,hr]) rfl
    obtain hpc | hpc := hpc <;> simp [Sys.owned,Sys.goto,hpc]
  | wakeupRelease p q hrun hpc =>
    refine h.release (p := p) (q := q) (by simp [Sys.owned,hpc]) rfl
      (by simp [Sys.owned,Sys.goto]) fun r hr => owned_congr (by simp [Sys.goto,hr]) ?_
    -- a sleeper that is woken does not run yet
    simp only [Sys.goto]
    split_ifs with hst
    · by_cases hrq : r=q
      · simp [hrq,hst.1]
      · simp [hrq]
    · rfl
  | clear p hpc => exact h.same rfl fun _ => rfl
  | pick p hlock => exact h.scheduler (by simp [hlock]) rfl fun r => .inl rfl
  | dispatch p hst hlock =>
    refine h.scheduler (q := p) (by simp [hlock]) rfl fun r => ?_
    by_cases hrp : r=p
    · subst hrp
      cases hk : s.pc r with
      | yielded f | asleep => exact .inr ⟨by simp [Sys.owned,hk],rfl⟩
      | _ => exact .inl (by simp only [Sys.owned,hk])
    · exact .inl (owned_congr (by rfl) (by simp [hrp]))
  | release p hlock =>
    refine h.scheduler (q := p) (fun r => ?_) rfl fun r => .inl rfl
    obtain hlock | hlock := hlock <;> simp [hlock]

structure Sleeps (s : Sys) (p : Slot) : Prop where
  asleep : s.state p=.sleeping → s.pc p=.asleep
  chan : s.pc p=.asleep → s.chan p=true
  other : ∀ q, s.pc p=.wakeupHolds q → q≠p

theorem Sleeps.frame (h : Sleeps s p) (hpc : t.pc p=s.pc p) (hchan : t.chan p=s.chan p)
    (hst : t.state p=.sleeping → s.state p=.sleeping) : Sleeps t p := by
  obtain ⟨h1,h2,h3⟩ := h
  exact ⟨fun hs => hpc.trans (h1 (hst hs)),fun hp => hchan.trans (h2 (hpc ▸ hp)),
    fun q hp => h3 q (hpc ▸ hp)⟩

theorem Sleeps.goto (h : ∀ r, Sleeps s r) (hrun : s.state p=.running) {k : Pc} (hk : k≠.asleep)
    (hother : ∀ q, k=.wakeupHolds q → q≠p) (hpc : t.pc=update s.pc p k)
    (hst : ∀ r, t.state r=.sleeping → s.state r=.sleeping)
    (hchan : ∀ r, r≠p → t.chan r=s.chan r) : Sleeps t q := by
  by_cases hq : q=p
  · subst hq
    refine ⟨fun hs => ?_,fun hp => ?_,fun q hp => hother q ?_⟩
    · exact absurd (hst _ hs) (by simp [hrun])
    · simp [hpc,hk] at hp
    · simpa [hpc] using hp
  · exact (h q).frame (by simp [hpc,hq]) (hchan q hq) (hst q)

theorem Sleeps.step (h : ∀ r, Sleeps s r) (hc : Change s t) (r : Slot) : Sleeps t r := by
  cases hc with
  | enter p f hrun | acquireWait p hrun | acquireWake p hrun | testTrue p hrun | testFalse p hrun
  | setCond p hrun | pass p hrun | wakeupDone p i hrun | sleepAcquire p hrun | sleepRelease p hrun
  | yieldAcquire p f hrun | yieldRelease p f hrun | unlock p hrun =>
    refine Sleeps.goto h hrun ?_ ?_ rfl (fun _ => id) (fun _ _ => rfl) <;> simp
  | awake p hrun hpc =>
    refine Sleeps.goto h hrun ?_ ?_ rfl (fun _ => id) (fun x hx => ?_)
    · simp
    · simp
    · simp [Sys.goto,hx]
  | wakeupAcquire p q hrun hpc hne =>
    refine Sleeps.goto h hrun ?_ ?_ rfl (fun _ => id) (fun _ _ => rfl)
    · simp
    · exact fun q' hq => Pc.wakeupHolds.inj hq ▸ hne
  | wakeupRelease p q hrun hpc =>
    refine Sleeps.goto h hrun ?_ ?_ rfl (fun x hx => ?_) fun _ _ => rfl
    · simp
    · simp
    · split_ifs at hx
      · exact state_of_update (by simp) hx
      · exact hx
  | sleepSwtch p hrun hpc =>
    by_cases hr : r=p
    · subst hr
      constructor <;> simp [Sys.swtch,Sys.goto]
    · exact (h r).frame (by simp [Sys.swtch,Sys.goto,hr]) (by simp [Sys.swtch,Sys.goto,hr])
        (by simp [Sys.swtch,Sys.goto,hr])
  | yieldSwtch p f hrun hpc =>
    refine Sleeps.goto h hrun ?_ ?_ rfl (fun _ => state_of_update ?_) (fun _ _ => rfl) <;> simp
  | clear | pick | release => exact (h r).frame rfl rfl id
  | dispatch p hst hlock => exact (h r).frame rfl rfl (state_of_update (by simp))

/-- The process sleeps on the channel, or is in `sleep` between the release of `lk` and
its `swtch`. -/
def Bound (s : Sys) (p : Slot) : Prop :=
  s.state p=.sleeping ∧ s.chan p=true ∨ s.pc p=.sleepSwtch

/-- What a process has seen or made of the condition: one that is about to sleep found it false, and
it is true while one walks the table. -/
def Pc.knows : Pc → Option Bool
  | .sleepAcquire | .sleepRelease => some false
  | .wakeup _ | .wakeupHolds _ => some true
  | _ => none

theorem Pc.knows_holdsLk {k : Pc} {b : Bool} (h : k.knows=some b) : k.holdsLk=true := by
  cases k <;> first | rfl | cases h

def Pc.pending (k : Pc) (p : Slot) : Prop :=
  (∃ i, k=.wakeup i ∧ i ≤ p.val) ∨ ∃ r, k=.wakeupHolds r ∧ r ≤ p

theorem Pc.pending.holdsLk {k : Pc} (h : k.pending p) : k.holdsLk=true := by
  obtain ⟨i,rfl,-⟩ | ⟨r,rfl,-⟩ := h <;> rfl

structure Inv (s : Sys) : Prop where
  lk : HoldsLk s
  lock : OwnsAll s
  sleeps : ∀ p, Sleeps s p
  cond : ∀ p b, (s.pc p).knows=some b → s.cond=b
  /-- If the condition is true, every sleeper has a `wakeup` coming. -/
  pending : s.cond=true → ∀ p, Bound s p → ∃ q, (s.pc q).pending p

theorem HoldsLk.alone (h : HoldsLk s) (hp : (s.pc p).holdsLk=true) (hq : (s.pc q).holdsLk=true) :
    q=p :=
  Option.some.inj (((h q).mp hq).symm.trans ((h p).mp hp))

theorem Inv.cond_goto (h : Inv s) {k : Pc} {b : Bool} (hk : k.knows=some b → s.cond=b)
    (hq : (update s.pc p k q).knows=some b) : s.cond=b := by
  by_cases hqp : q=p
  · exact hk (by simpa [hqp] using hq)
  · exact h.cond q b (by simpa [hqp] using hq)

theorem Inv.cond_step (h : Inv s) (hc : Change s t) (q : Slot) (b : Bool)
    (hq : (t.pc q).knows=some b) : t.cond=b := by
  cases hc with
  | enter | acquireWait | acquireWake | testTrue | sleepRelease | sleepSwtch | awake | unlock
  | wakeupDone | yieldAcquire | yieldSwtch | yieldRelease => exact h.cond_goto (by simp [Pc.knows]) hq
  | testFalse p hrun hpc hcond =>
    exact h.cond_goto (k := .sleepAcquire) (fun hb => hcond.trans (Option.some.inj hb)) hq
  | sleepAcquire p hrun hpc | pass p hrun hpc | wakeupAcquire p q hrun hpc
  | wakeupRelease p q hrun hpc => exact h.cond_goto (fun hb => h.cond p b (by rw [hpc]; exact hb)) hq
  | setCond p hrun hpc =>
    by_cases hqp : q=p
    · simpa [Sys.goto,hqp,Pc.knows] using hq
    · -- only one process at a time holds `lk`
      simp only [Sys.goto,update_of_ne hqp] at hq
      exact absurd (h.lk.alone (by rw [hpc]; rfl) (Pc.knows_holdsLk hq)) hqp
  | clear p hpc =>
    have hp : (s.pc p).holdsLk=true := by obtain hpc | hpc := hpc <;> rw [hpc] <;> rfl
    obtain rfl := h.lk.alone hp (Pc.knows_holdsLk hq)
    obtain hpc | hpc := hpc <;> simp [hpc,Pc.knows] at hq
  | pick | dispatch | release => exact h.cond q b hq

theorem Inv.pending_goto (h : Inv s) {k : Pc} (hcond : s.cond=true) (hq : Bound s q)
    (hk : (s.pc p).pending q → k.pending q) : ∃ r, (update s.pc p k r).pending q := by
  obtain ⟨r,hr⟩ := h.pending hcond q hq
  by_cases hrp : r=p
  · exact ⟨r,by simpa [hrp] using hk (hrp ▸ hr)⟩
  · exact ⟨r,by simpa [hrp] using hr⟩

theorem Bound.of (h : Bound t q) (hst : t.state q=.sleeping → s.state q=.sleeping)
    (hchan : t.chan q=s.chan q) (hpc : t.pc q=.sleepSwtch → s.pc q=.sleepSwtch) :
    Bound s q := by
  obtain ⟨hs,hch⟩ | hsw := h
  · exact .inl ⟨hst hs,hchan ▸ hch⟩
  · exact .inr (hpc hsw)

theorem sleepSwtch_of_update {f : Slot → Pc} {k : Pc} (hk : k≠.sleepSwtch)
    (h : update f p k q=.sleepSwtch) : f q=.sleepSwtch := by
  by_cases hqp : q=p
  · exact absurd (by simpa [hqp] using h) hk
  · simpa [hqp] using h

theorem Inv.not_between (h : Inv s) (hp : s.pc p=.wakeupHolds q) : s.pc q≠.sleepSwtch := by
  intro hq
  have hlock := h.lock p q (by simp [Sys.owned,hp])
  have hlock' := h.lock q q (by simp [Sys.owned,hq])
  have hne := (h.sleeps p).other q hp
  exact hne (by simpa using hlock'.symm.trans hlock)

theorem Inv.pending_step (h : Inv s) (hc : Change s t) (hcond : t.cond=true) (q : Slot)
    (hq : Bound t q) : ∃ r, (t.pc r).pending q := by
  cases hc with
  | enter p f hrun hpc | acquireWait p hrun hpc | acquireWake p hrun hpc | testTrue p hrun hpc
  | testFalse p hrun hpc | sleepAcquire p hrun hpc | yieldAcquire p f hrun hpc
  | yieldRelease p f hrun hpc =>
    exact h.pending_goto hcond (hq.of id rfl (sleepSwtch_of_update (by simp)))
      (by simp [hpc,Pc.pending])
  | sleepRelease p hrun hpc =>
    -- the condition was false when `lk` was released
    exact absurd hcond (by simp [Sys.goto,h.cond p false (by rw [hpc]; rfl)])
  | sleepSwtch p hrun hpc =>
    refine h.pending_goto hcond ?_ (by simp [hpc,Pc.pending])
    by_cases hqp : q=p
    · exact .inr (hqp ▸ hpc)
    · exact hq.of (by simp [Sys.swtch,Sys.goto,hqp]) (by simp [Sys.swtch,Sys.goto,hqp])
        (sleepSwtch_of_update (by simp))
  | awake p hrun hpc =>
    refine h.pending_goto hcond ?_ (by simp [hpc,Pc.pending])
    by_cases hqp : q=p
    · simp [Bound,Sys.goto,hqp] at hq
    · exact hq.of id (by simp [Sys.goto,hqp]) (sleepSwtch_of_update (by simp))
  | unlock p hrun hpc =>
    refine h.pending_goto hcond (hq.of id rfl (sleepSwtch_of_update (by simp))) ?_
    obtain hpc | hpc := hpc <;> simp [hpc,Pc.pending]
  | setCond p hrun hpc => exact ⟨p,.inl ⟨0,by simp [Sys.goto],Nat.zero_le _⟩⟩
  | pass p hrun hpc =>
    have hbound := hq.of (s := s) id rfl (sleepSwtch_of_update (by simp))
    refine h.pending_goto hcond hbound fun hpend => .inl ⟨p+1,rfl,?_⟩
    -- the caller of `wakeup` does not sleep
    have hne : q.val≠p.val := fun he => by
      simp [Bound,Fin.ext he,hrun,hpc] at hbound
    obtain ⟨i,hi,hle⟩ | ⟨r,hr,-⟩ := hpend
    · obtain rfl : p.val=i := by simpa [hpc] using hi
      omega
    · simp [hpc] at hr
  | wakeupAcquire p r hrun hpc =>
    refine h.pending_goto hcond (hq.of id rfl (sleepSwtch_of_update (by simp))) fun hpend => ?_
    obtain ⟨i,hi,hle⟩ | ⟨r',hr,-⟩ := hpend
    · obtain rfl : r.val=i := by simpa [hpc] using hi
      exact .inr ⟨r,rfl,hle⟩
    · simp [hpc] at hr
  | wakeupRelease p r hrun hpc =>
    have hne : q≠r := by
      rintro rfl
      obtain ⟨hst,hch⟩ | hsw := hq
      · simp only [Sys.goto] at hst hch
        split_ifs at hst with hsleep
        · simp at hst
        · exact hsleep ⟨hst,hch⟩
      · exact h.not_between hpc (sleepSwtch_of_update (by simp) hsw)
    refine h.pending_goto hcond (hq.of (fun hst => ?_) rfl (sleepSwtch_of_update (by simp)))
      fun hpend => .inl ⟨r+1,rfl,?_⟩
    · simp only [Sys.goto] at hst
      split_ifs at hst
      · exact state_of_update (by simp) hst
      · exact hst
    · have hne' : q.val≠r.val := fun he => hne (Fin.ext he)
      obtain ⟨i,hi,-⟩ | ⟨r',hr,hle⟩ := hpend
      · simp [hpc] at hi
      · obtain rfl : r=r' := by simpa [hpc] using hr
        have hle : r.val ≤ q.val := hle
        omega
  | wakeupDone p i hrun hpc hi =>
    refine h.pending_goto hcond (hq.of id rfl (sleepSwtch_of_update (by simp))) fun hpend => ?_
    obtain ⟨j,hj,hle⟩ | ⟨r,hr,-⟩ := hpend
    · obtain rfl : i=j := by simpa [hpc] using hj
      omega
    · simp [hpc] at hr
  | clear => simp at hcond
  | yieldSwtch p f hrun hpc =>
    refine h.pending_goto hcond (hq.of ?_ rfl (sleepSwtch_of_update (by simp)))
      (by simp [hpc,Pc.pending])
    exact state_of_update (by simp)
  | pick | release => exact h.pending hcond q hq
  | dispatch p hst hlock => exact h.pending hcond q (hq.of (state_of_update (by simp)) rfl id)

theorem Inv.step (h : Inv s) (hs : step s l=some t) : Inv t := by
  have hc := step_change hs
  exact ⟨h.lk.step hc,h.lock.step hc,fun p => Sleeps.step h.sleeps hc p,h.cond_step hc,
    h.pending_step hc⟩

theorem start_inv (present : Slot → Bool) (cond : Bool) : Inv (start present cond) := by
  have hst : ∀ p, (start present cond).state p≠.running ∧
      (start present cond).state p≠.sleeping := fun p => by
    simp only [start]
    split <;> simp
  refine ⟨fun p => ?_,fun p q hp => ?_,fun p => ?_,fun p b hb => ?_,fun _ p hp => ?_⟩
  · simp [start,Pc.holdsLk]
  · have hnone : (start present cond).owned p=none := if_neg (hst p).1
    simp [hnone] at hp
  · exact ⟨fun hs => absurd hs (hst p).2,by simp [start],by simp [start]⟩
  · simp [start,Pc.knows] at hb
  · obtain ⟨hs,-⟩ | hsw := hp
    · exact absurd hs (hst p).2
    · simp [start] at hsw

/-- No wakeup is lost: when `lk` is free and the condition true, no process sleeps on
the channel or is in `sleep` between the release of `lk` and its `swtch`. -/
theorem no_lost_wakeup (present : Slot → Bool) (cond : Bool) (ls : List Label) (t : Sys)
    (hrun : run SleepWakeup.step ls (start present cond)=some t) (hlk : t.lk=none)
    (hcond : t.cond=true) (p : Slot) :
    ¬ (t.state p=.sleeping ∧ t.chan p=true) ∧ t.pc p≠.sleepSwtch := by
  have h : Inv t := run_invariant (fun _ _ _ h hs => h.step hs) (start_inv present cond) hrun
  have hnot : ¬ Bound t p := fun hp => by
    obtain ⟨q,hq⟩ := h.pending hcond p hp
    have hholds := (h.lk q).mp hq.holdsLk
    simp [hlk] at hholds
  exact ⟨fun hs => hnot (.inl hs),fun hsw => hnot (.inr hsw)⟩

def begins (p : Slot) : List Label := [.pick p, .dispatch p, .run p]

def waker : Slot := Fin.last 63

def wakesSleeper : List Label :=
  begins initproc++.enter initproc .wait :: List.replicate 5 (.run initproc) ++
    .release initproc :: begins waker++.enter waker .wake :: List.replicate 131 (.run waker)

def wakesSleeperEnd : Sys :=
  (run SleepWakeup.step wakesSleeper (start (fun _ => true) false)).get (by decide +kernel)

theorem wakesSleeper_awake : wakesSleeperEnd.pc initproc=.asleep ∧
    ¬ (wakesSleeperEnd.state initproc=.sleeping ∧ wakesSleeperEnd.chan initproc=true) :=
  ⟨by decide +kernel,(no_lost_wakeup (fun _ => true) false wakesSleeper wakesSleeperEnd
    (Option.some_get _).symm (by decide +kernel) (by decide +kernel) initproc).1⟩

end Xv6.SleepWakeup
