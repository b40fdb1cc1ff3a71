import Xv6.ProcControl

/-! Parents and children in the process table of `kernel/proc.c`: what a process knows while it holds
`wait_lock` stays true. -/
namespace Xv6.Proc
open Function Xv6.Machine
variable {s t : Sys} {p q c : Slot} {l : Label}

def Label.actor : Label → Slot
  | .syscall p _ | .run p _ | .schedule p | .switched p | .yield p => p

def Pc.handed : Pc → Option Nat
  | .reparent _ i => some i
  | .reparentWakeup _ i _ => some (i+1)
  | .exitWakeup .. | .exitZombie _ => some nproc
  | _ => none

def Pc.woke : Pc → Option Nat
  | .exitWakeup _ _ j => some j
  | .exitZombie _ => some nproc
  | _ => none

def Pc.scanned : Pc → Option (Nat × Bool)
  | .waitScan _ i havekids => some (i,havekids)
  | .waitKilled _ | .waitSleep _ => some (nproc,true)
  | _ => none

structure Knows (s : Sys) (q : Slot) : Prop where
  handed : ∀ n, (s.pc q).handed=some n → ∀ c : Slot, c.val < n → s.parent c≠some q
  chan : ∀ status ch j, s.pc q=.exitWakeup status ch j → ch=s.parent q
  woke : ∀ n, (s.pc q).woke=some n → ∀ r : Slot, s.parent q=some r → r.val < n →
    s.state r≠.sleeping
  scanned : ∀ n havekids, (s.pc q).scanned=some (n,havekids) → ∀ c : Slot, c.val < n →
    s.parent c=some q → s.state c≠.zombie ∧ havekids=true

theorem Knows.of_free (h : (s.pc q).holds=false) : Knows s q := by
  constructor <;> cases hq : s.pc q <;>
    simp_all [Pc.holds,Pc.handed,Pc.woke,Pc.scanned]

theorem Knows.of_reparent {k : Pc} {n : Nat} (hpc : s.pc q=k) (hn : k.handed=some n)
    (hw : k.woke=none) (hsc : k.scanned=none)
    (h : ∀ c : Slot, c.val < n → s.parent c≠some q) : Knows s q := by
  subst hpc
  refine ⟨fun m hm => ?_,fun status ch j hj => ?_,by simp [hw],by simp [hsc]⟩
  · obtain rfl : n=m := Option.some.inj (hn.symm.trans hm)
    exact h
  · simp [hj,Pc.woke] at hw

theorem Knows.of_wakeup {k : Pc} {n : Nat} (hpc : s.pc q=k) (hn : k.handed=some nproc)
    (hw : k.woke=some n) (hsc : k.scanned=none) (h : ∀ c, s.parent c≠some q)
    (hchan : ∀ status ch j, k=.exitWakeup status ch j → ch=s.parent q)
    (hwoke : ∀ r : Slot, s.parent q=some r → r.val < n → s.state r≠.sleeping) : Knows s q := by
  subst hpc
  refine ⟨fun _ _ c _ => h c,hchan,fun m hm => ?_,by simp [hsc]⟩
  obtain rfl : n=m := Option.some.inj (hw.symm.trans hm)
  exact hwoke

theorem Knows.of_scan {k : Pc} {n : Nat} {b : Bool} (hpc : s.pc q=k) (hn : k.handed=none)
    (hw : k.woke=none) (hsc : k.scanned=some (n,b))
    (h : ∀ c : Slot, c.val < n → s.parent c=some q → s.state c≠.zombie ∧ b=true) : Knows s q := by
  subst hpc
  refine ⟨by simp [hn],fun status ch j hj => ?_,by simp [hw],fun m havekids hm => ?_⟩
  · simp [hj,Pc.woke] at hw
  · obtain ⟨rfl,rfl⟩ : n=m ∧ b=havekids := by simpa using hsc.symm.trans hm
    exact h

theorem Knows.frame (h : Knows s q) (hpc : t.pc q=s.pc q) (hpar : t.parent=s.parent)
    (hz : ∀ c, t.state c=.zombie → s.state c=.zombie)
    (hsl : ∀ c, t.state c=.sleeping → s.state c=.sleeping) : Knows t q := by
  constructor
  · rw [hpc,hpar]
    exact h.handed
  · rw [hpc,hpar]
    exact h.chan
  · rw [hpc,hpar]
    exact fun n hn r hr hlt hst => h.woke n hn r hr hlt (hsl r hst)
  · rw [hpc,hpar]
    intro n havekids hn c hc hp
    obtain ⟨h1,h2⟩ := h.scanned n havekids hn c hc hp
    exact ⟨fun hst => h1 (hz c hst),h2⟩

/-- The parents of the processes that are in use. -/
structure Kin (s : Sys) : Prop where
  free : ∀ c, s.state c=.unused → s.parent c=none
  fresh : ∀ q np pid, s.pc q=.forkParent np pid → s.parent np=none
  live : ∀ c p, s.parent c=some p → (s.state p).live=true
  parented : ∀ c, s.state c≠.unused → c≠initproc →
    s.parent c≠none ∨ ∃ q pid, s.pc q=.forkParent c pid

inductive NewParent (s : Sys) (p c : Slot) (t : Sys) : Prop
  | same (h : t.parent c=s.parent c)
  | forked (pid : Int) (hpc : s.pc p=.forkParent c pid) (hlk : s.waitLock=none)
      (h : t.parent c=some p) (hst : t.state=s.state) (hpc' : t.pc p=.forkStart c pid)
  | handed (status : Int) (hpc : s.pc p=.reparent status c) (hpar : s.parent c=some p)
      (h : t.parent c=some initproc) (hpc' : t.pc p=.reparentWakeup status c 0)
      (hst : t.state=s.state)
  | freed (hst : t.state c=.unused) (h : t.parent c=none)
      (hold : s.state c=.unused ∨ s.state c=.zombie ∧ (s.pc p).holds=true)

/-- What a step may make of the state of a slot. -/
inductive NewState (s : Sys) (l : Label) (c : Slot) (t : Sys) : Prop
  | same (hsame : t.state c=s.state c)
  | found (hs : s.state c=.unused) (hpc : t.pc l.actor=.forkParent c s.nextpid) (ht : t.state c=.used)
  | ready (hs : s.state c≠.unused ∨ (s.pc l.actor).child=some c)
      (ht : t.state c=.runnable ∨ t.state c=.running)
  | exited (ok : Bool) (status : Int) (hl : l=.run c ok) (hs : s.state c=.running)
      (hpc : s.pc c=.exitZombie status) (ht : t.state c=.zombie) (hpar : t.parent=s.parent)
  | asleep (addr : Nat) (hl : l.actor=c) (hs : s.state c=.running) (hpc : s.pc c=.waitSleep addr)
      (ht : t.state c=.sleeping)
  | freed (hs : s.state c=.unused ∨ s.state c=.zombie) (ht : t.state c=.unused)
      (hpar : t.parent c=none)

theorem NewState.of_update {x : Slot} {v : ProcState} (ht : t.state=update s.state x v)
    (h : c=x → t.state c=v → NewState s l c t) : NewState s l c t := by
  by_cases hc : c=x
  · exact h hc (by rw [ht,hc,update_self])
  · exact .same (by rw [ht,update_of_ne hc])

section Changes
variable (hc : Change s l t)
include hc

theorem Change.newState (c : Slot) : NewState s l c t := by
  cases hc with
  | call | panic | move | fail | setParent | lock | hand | waitFail | switched => exact .same rfl
  | alloc p np hrun hpc hst =>
    refine .of_update (x := np) rfl fun he ht => .found (he ▸ hst) ?_ ht
    simp [Sys.goto,Label.actor,he]
  | allocFail p np hrun hpc hst =>
    refine .of_update (x := np) (update_idem ..) fun he ht => .freed (.inl (he ▸ hst)) ht ?_
    simp [Sys.leave,Sys.freeproc,he]
  | start p ok np pid hrun hpc =>
    refine .of_update (x := np) rfl fun he ht => .ready (.inr ?_) (.inl ht)
    simp [Label.actor,hpc,Pc.child,he]
  | wake p ok q k' hrun hwake =>
    exact .of_update (x := q) rfl fun he ht => .ready (.inl (by simp [he,hwake.sleeper])) (.inl ht)
  | zombie p ok status hrun hpc =>
    refine .of_update (x := p) rfl ?_
    rintro rfl ht
    exact .exited ok status rfl hrun hpc ht rfl
  | reap p ok addr d havekids hrun hpc hpar hst =>
    refine .of_update (x := d) rfl fun he ht => .freed (.inr (he ▸ hst)) ht ?_
    simp [Sys.leave,Sys.freeproc,he]
  | sleep p ok addr hrun hpc =>
    refine .of_update (x := p) rfl ?_
    rintro rfl ht
    exact .asleep addr rfl hrun hpc ht
  | kill p ok pid q hrun hpc hpid =>
    by_cases hst : s.state q=.sleeping
    · exact .of_update (x := q) (if_pos hst) fun he ht => .ready (.inl (by simp [he,hst])) (.inl ht)
    · exact .same (congrFun (if_neg hst) c)
  | wakened p addr hst | schedule p hst =>
    exact .of_update (x := p) rfl fun he ht => .ready (.inl (by simp [he,hst])) (.inr ht)
  | yield p hst =>
    exact .of_update (x := p) rfl fun he ht => .ready (.inl (by simp [he,hst])) (.inl ht)

theorem Change.zombie_of (h : t.state c=.zombie) : s.state c=.zombie ∨
    ∃ ok status, l=.run c ok ∧ s.pc c=.exitZombie status ∧ t.parent=s.parent := by
  cases hc.newState c with
  | same hsame => exact .inl (hsame ▸ h)
  | exited ok status hl _ hpc _ hpar => exact .inr ⟨ok,status,hl,hpc,hpar⟩
  | found _ _ ht | ready _ ht | asleep _ _ _ _ ht | freed _ ht => simp [h] at ht

theorem Change.sleeping_of (h : t.state c=.sleeping) :
    s.state c=.sleeping ∨ ∃ addr, l.actor=c ∧ s.pc c=.waitSleep addr := by
  cases hc.newState c with
  | same hsame => exact .inl (hsame ▸ h)
  | asleep addr hl _ hpc => exact .inr ⟨addr,hl,hpc⟩
  | found _ _ ht | ready _ ht | exited _ _ _ _ _ ht | freed _ ht => simp [h] at ht

theorem Change.parent (c : Slot) : NewParent s l.actor c t := by
  cases hc with
  | setParent p ok np pid hrun hpc hlk =>
    by_cases hcn : c=np
    · subst hcn
      exact .forked pid hpc hlk (by simp [Sys.goto,Label.actor]) rfl (by simp [Sys.goto,Label.actor])
    · exact .same (by simp [Sys.goto,hcn])
  | hand p ok status d hrun hpc hpar =>
    by_cases hcd : c=d
    · subst hcd
      exact .handed status hpc hpar (by simp [Sys.goto]) (by simp [Sys.goto,Label.actor]) rfl
    · exact .same (by simp [Sys.goto,hcd])
  | allocFail p np hrun hpc hst =>
    by_cases hcn : c=np
    · subst hcn
      exact .freed (by simp [Sys.leave,Sys.freeproc]) (by simp [Sys.leave,Sys.freeproc]) (.inl hst)
    · exact .same (by simp [Sys.leave,Sys.freeproc,Sys.found,hcn])
  | reap p ok addr d havekids hrun hpc hpar hst =>
    by_cases hcd : c=d
    · subst hcd
      refine .freed (by simp [Sys.leave,Sys.freeproc]) (by simp [Sys.leave,Sys.freeproc]) ?_
      exact .inr ⟨hst,by simp [Label.actor,hpc,Pc.holds]⟩
    · exact .same (by simp [Sys.leave,Sys.freeproc,hcd])
  | _ => exact .same rfl

theorem Change.pc_of_ne (hne : l.actor≠q) : t.pc q=s.pc q ∨ s.state q=.unused ∧ t.pc q=.user := by
  cases hc with
  | panic | schedule | switched | yield => exact .inl rfl
  | alloc p np hrun hpc hst | allocFail p np hrun hpc hst =>
    have hqp : q≠p := fun he => hne he.symm
    by_cases hqn : q=np
    · subst hqn
      exact .inr ⟨hst,by simp [Sys.goto,Sys.leave,Sys.freeproc,Sys.found,hqp]⟩
    · exact .inl (by simp [Sys.goto,Sys.leave,Sys.freeproc,Sys.found,hqn,hqp])
  | _ p =>
    have hqp : q≠p := fun he => hne he.symm
    exact .inl (by simp [Sys.goto,Sys.leave,Sys.freeproc,hqp])

theorem Change.quiet (hcon : Control s) (hkin : Kin s)
    (hq : (s.pc q).holds=true) (hne : l.actor≠q) :
    t.parent=s.parent ∧ (∀ c, t.state c=.zombie → s.state c=.zombie) ∧
      ∀ c, t.state c=.sleeping → s.state c=.sleeping := by
  have hlk := (hcon q).holder.mp hq
  have hact : ∀ p, (s.pc p).holds=true → p=q := fun p hp =>
    Option.some.inj (((hcon p).holder.mp hp).symm.trans hlk)
  refine ⟨funext fun c => ?_,fun c h => ?_,fun c h => ?_⟩
  · cases hc.parent c with
    | same h => exact h
    | forked pid hpc hfree => simp [hlk] at hfree
    | handed status hpc => exact absurd (hact _ (by simp [hpc,Pc.holds])) hne
    | freed hst h hold =>
      obtain hold | ⟨-,hholds⟩ := hold
      · rw [h,hkin.free c hold]
      · exact absurd (hact _ hholds) hne
  · obtain h | ⟨ok,status,rfl,hpc,-⟩ := hc.zombie_of h
    · exact h
    · exact absurd (hact c (by simp [hpc,Pc.holds])) hne
  · obtain h | ⟨addr,rfl,hpc⟩ := hc.sleeping_of h
    · exact h
    · exact absurd (hact _ (by simp [hpc,Pc.holds])) hne

theorem Change.live (h : (s.state p).live=true) :
    (t.state p).live=true ∨ ∃ status, s.pc p=.exitZombie status := by
  cases hc.newState p with
  | same hsame => exact .inl (by rwa [hsame])
  | found hs => simp [hs,ProcState.live] at h
  | ready _ ht => exact .inl (by rcases ht with ht | ht <;> simp [ht,ProcState.live])
  | exited _ status _ _ hpc => exact .inr ⟨status,hpc⟩
  | asleep _ _ _ _ ht => exact .inl (by simp [ht,ProcState.live])
  | freed hs => rcases hs with hs | hs <;> simp [hs,ProcState.live] at h

theorem Change.unused_of (h : t.state c=.unused) : s.state c=.unused ∨ t.parent c=none := by
  cases hc.newState c with
  | same hsame => exact .inl (hsame ▸ h)
  | freed _ _ hpar => exact .inr hpar
  | found _ _ ht | ready _ ht | exited _ _ _ _ _ ht | asleep _ _ _ _ ht => simp [h] at ht

theorem Change.taken (hfork : Forking s) (hs : s.state c=.unused) (ht : t.state c≠.unused) :
    ∃ q pid, t.pc q=.forkParent c pid := by
  cases hc.newState c with
  | same hsame => exact absurd (hsame.trans hs) ht
  | found _ hpc => exact ⟨_,_,hpc⟩
  | ready hold =>
    obtain hold | hchild := hold
    · exact absurd hs hold
    · have hused := hfork.fresh _ c hchild
      simp [hs] at hused
  | exited _ _ _ hrun | asleep _ _ hrun => simp [hs] at hrun
  | freed _ hfree => exact absurd hfree ht

theorem Change.forking (hcon : Control s) {pid : Int}
    (h : s.pc q=.forkParent c pid) : t.pc q=.forkParent c pid ∨ t.parent c=some q := by
  by_cases hne : l.actor=q
  · subst hne
    cases hc with
    | panic | schedule | switched | yield => exact .inl h
    | setParent p ok np pid' hrun hpc hlk =>
      obtain ⟨rfl,-⟩ : np=c ∧ pid'=pid := by simpa [Label.actor,hpc] using h
      exact .inr (by simp [Sys.goto,Label.actor])
    | call p c hrun hpc | alloc p np hrun hpc | allocFail p np hrun hpc | start p ok np pid hrun hpc
    | hand p ok status c hrun hpc | zombie p ok status hrun hpc
    | reap p ok addr c havekids hrun hpc | sleep p ok addr hrun hpc
    | kill p ok pid q hrun hpc | wakened p addr hst hpc => simp [Label.actor,hpc] at h
    | move p ok k' hrun hk | fail p ok hrun hk | lock p ok k' hrun hlk hk | wake p ok q k' hrun hk
    | waitFail p ok hrun hk =>
      rw [show s.pc p=_ from h] at hk
      cases hk
  · obtain hpc | ⟨hst,-⟩ := hc.pc_of_ne hne
    · exact .inl (hpc.trans h)
    · have hlive := (hcon q).called (by simp [h,Pc.called])
      simp [hst,ProcState.live] at hlive

theorem Change.forkParent_of {pid : Int} (h : t.pc q=.forkParent c pid) :
    s.pc q=.forkParent c pid ∨ s.state c=.unused ∧ t.parent=s.parent := by
  by_cases hne : l.actor=q
  · subst hne
    cases hc with
    | panic | schedule | switched | yield => exact .inl h
    | alloc p np hrun hpc hst =>
      obtain ⟨rfl,-⟩ : np=c ∧ s.nextpid=pid := by simpa [Label.actor,Sys.goto] using h
      exact .inr ⟨hst,rfl⟩
    | call p c => cases c <;> simp [Label.actor,Sys.goto,Call.entry] at h
    | move p ok k' hrun hk | lock p ok k' hrun hlk hk | wake p ok q k' hrun hk =>
      have hk' : k'=.forkParent c pid := by simpa [Label.actor,Sys.goto] using h
      generalize s.pc p=k at hk
      subst hk'
      cases hk
    | fail | allocFail | setParent | start | hand | zombie | waitFail | reap | sleep | kill
    | wakened => simp [Label.actor,Sys.goto,Sys.leave] at h
  · obtain hpc | ⟨-,hpc⟩ := hc.pc_of_ne hne
    · exact .inl (hpc ▸ h)
    · simp [hpc] at h

end Changes

theorem lt_succ_slot {i : Nat} (hi : i < nproc) (hc : c.val < i+1) : c.val < i ∨ c=⟨i,hi⟩ := by
  rcases Nat.lt_succ_iff_lt_or_eq.mp hc with hlt | heq
  · exact .inl hlt
  · exact .inr (Fin.ext heq)

theorem Knows.move {k' : Pc} (h : Knows s p) (hcon : Control s) (hrun : s.state p=.running)
    (hmove : Moves s p (s.pc p) k') : Knows (s.goto p k') p := by
  obtain ⟨h1,h2,h3,h4⟩ := h
  have hpc : (s.goto p k').pc p=k' := by simp [Sys.goto]
  generalize hk : s.pc p=k at hmove
  simp only [hk] at h1 h2 h3 h4
  cases hmove with
  | allocproc | kill => exact .of_free (by rw [hpc]; rfl)
  | reparent status i hi hpar =>
    refine .of_reparent hpc rfl rfl rfl fun c hc => ?_
    obtain hlt | rfl := lt_succ_slot hi hc
    · exact h1 i rfl c hlt
    · exact hpar
  | reparented status i hi =>
    refine .of_wakeup hpc rfl rfl rfl (fun c => h1 i rfl c (by omega)) (fun _ _ _ hk => ?_) ?_
    · exact (Pc.exitWakeup.inj hk).2.1.symm
    · exact fun r _ hr => absurd hr (Nat.not_lt_zero _)
  | reparentWakeup status i j | reparentWoken status i j =>
    exact .of_reparent hpc rfl rfl rfl (h1 (i+1) rfl)
  | exitWakeup status chan j hj hq =>
    have hchan : chan=s.parent p := h2 status chan j rfl
    refine .of_wakeup hpc rfl rfl rfl (fun c => h1 nproc rfl c c.isLt) (fun _ _ _ hk => ?_)
      fun r hr hlt => ?_
    · exact (Pc.exitWakeup.inj hk).2.1 ▸ hchan
    · obtain hlt | rfl := lt_succ_slot hj hlt
      · exact h3 j rfl r hr hlt
      · -- the parent would sleep on itself, and `wakeup` has passed over it
        intro hst
        rcases hq with rfl | hq
        · cases hrun.symm.trans hst
        · exact hq ⟨hst,((hcon _).asleep hst).2.trans (hr.symm.trans hchan.symm)⟩
  | exitWoken status chan j hj =>
    exact .of_wakeup hpc rfl rfl rfl (fun c => h1 nproc rfl c c.isLt) (by simp)
      fun r hr hlt => h3 j rfl r hr (by omega)
  | waitChild addr i havekids hi hpar hst =>
    refine .of_scan hpc rfl rfl rfl fun c hc hp => ⟨?_,rfl⟩
    obtain hlt | rfl := lt_succ_slot hi hc
    · exact (h4 i havekids rfl c hlt hp).1
    · exact hst
  | waitScan addr i havekids hi hpar =>
    refine .of_scan hpc rfl rfl rfl fun c hc hp => ?_
    obtain hlt | rfl := lt_succ_slot hi hc
    · exact h4 i havekids rfl c hlt hp
    · exact absurd hp hpar
  | waitScanned addr i hi =>
    exact .of_scan hpc rfl rfl rfl fun c hc hp => h4 i true rfl c (by omega) hp
  | waitKilled addr hk => exact .of_scan hpc rfl rfl rfl (h4 nproc true rfl)

theorem Knows.wake {k' : Pc} (h : Knows s p) (hwake : Wakes s p q (s.pc p) k') :
    Knows ({ s with state := update s.state q .runnable }.goto p k') p := by
  obtain ⟨h1,h2,h3,h4⟩ := h
  have hpc : ({ s with state := update s.state q .runnable }.goto p k').pc p=k' := by
    simp [Sys.goto]
  generalize hk : s.pc p=k at hwake
  simp only [hk] at h1 h2 h3 h4
  cases hwake with
  | reparent status i j hj => exact .of_reparent hpc rfl rfl rfl (h1 (i+1) rfl)
  | exit status chan j hj =>
    refine .of_wakeup hpc rfl rfl rfl (fun c => h1 nproc rfl c c.isLt) (fun _ _ _ hk => ?_)
      fun r hr hlt => ?_
    · exact (Pc.exitWakeup.inj hk).2.1 ▸ h2 status chan j rfl
    · obtain hlt | rfl := lt_succ_slot hj hlt
      · exact fun hst => h3 j rfl r hr hlt (state_of_update (by simp) hst)
      · simp [Sys.goto]

theorem Knows.hand {status : Int} (h : Knows s p) (hne : p≠initproc)
    (hpc : s.pc p=.reparent status c) :
    Knows ({ s with parent := update s.parent c (some initproc) }.goto p
      (.reparentWakeup status c 0)) p := by
  refine .of_reparent (update_self p _ s.pc) rfl rfl rfl fun d hd => ?_
  obtain hlt | rfl := lt_succ_slot c.isLt hd
  · have hdc : d≠c := fun he => absurd hlt (by simp [he])
    simpa [Sys.goto,hdc] using h.handed c (by simp [hpc,Pc.handed]) d hlt
  · simpa [Sys.goto] using hne.symm

theorem Knows.step (h : ∀ q, Knows s q) (hcon : Control s) (hkin : Kin s) (hc : Change s l t)
    (q : Slot) : Knows t q := by
  cases hholds : (t.pc q).holds with
  | false => exact .of_free hholds
  | true =>
    by_cases hne : l.actor=q
    · subst hne
      cases hc with
      | panic p => exact (h p).frame rfl rfl (fun _ => id) fun _ => id
      | move p ok k' hrun hmove => exact (h p).move hcon hrun hmove
      | hand p ok status c hrun hpc hpar =>
        exact (h p).hand (hcon.exiting (by simp [hpc,Pc.exiting])) hpc
      | wake p ok q k' hrun hwake => exact (h p).wake hwake
      | lock p ok k' hrun hlk hpc =>
        generalize s.pc p=k at hpc
        cases hpc with
        | exit status =>
          exact .of_reparent (update_self p _ s.pc) rfl rfl rfl fun c hc => absurd hc (Nat.not_lt_zero _)
        | wait addr =>
          exact .of_scan (update_self p _ s.pc) rfl rfl rfl fun c hc => absurd hc (Nat.not_lt_zero _)
      | schedule p hst | yield p hst =>
        exact (h p).frame rfl rfl (fun _ => state_of_update (by simp))
          fun _ => state_of_update (by simp)
      | switched p => exact (h p).frame rfl rfl (fun _ => id) fun _ => id
      | call p c => simp [Label.actor,Sys.goto,c.entry_same.1] at hholds
      | fail | alloc | allocFail | setParent | start | zombie | waitFail | reap | sleep | kill |
          wakened =>
        simp [Label.actor,Sys.goto,Sys.leave,Pc.holds] at hholds
    · obtain hpc | ⟨-,hpc⟩ := hc.pc_of_ne hne
      · obtain ⟨hpar,hz,hsl⟩ := hc.quiet hcon hkin (hpc ▸ hholds) hne
        exact (h q).frame hpc hpar hz hsl
      · simp [hpc,Pc.holds] at hholds

theorem Kin.live_step (h : Kin s) (hcon : Control s) (hknow : ∀ q, Knows s q) (hc : Change s l t)
    (c p : Slot) (hpar : t.parent c=some p) : (t.state p).live=true := by
  cases hc.parent c with
  | same hsame =>
    have hold : s.parent c=some p := hsame ▸ hpar
    obtain hlive | ⟨status,hpc⟩ := hc.live (h.live c p hold)
    · exact hlive
    · exact absurd hold ((hknow p).handed nproc (by simp [hpc,Pc.handed]) c c.isLt)
  | forked pid hpc hlk hnew hst =>
    obtain rfl : l.actor=p := Option.some.inj (hnew.symm.trans hpar)
    rw [hst]
    exact (hcon _).called (by simp [hpc,Pc.called])
  | handed status hpc hp hnew hpc' hst =>
    obtain rfl : initproc=p := Option.some.inj (hnew.symm.trans hpar)
    rw [hst]
    exact ((hcon initproc).init rfl).1
  | freed hst hnone => simp [hnone] at hpar

theorem Kin.fresh_step (h : Kin s) (hfork : Forking s) (hc : Change s l t) (q np : Slot) (pid : Int)
    (hpc : t.pc q=.forkParent np pid) : t.parent np=none := by
  obtain hold | ⟨hst,hpar⟩ := hc.forkParent_of hpc
  · cases hc.parent np with
    | same hsame => rw [hsame,h.fresh q np pid hold]
    | forked pid' hpc' hlk hnew hst hgone =>
      -- the `fork` that sets the parent is the only one with this child
      obtain rfl : l.actor=q := hfork.unique _ _ np (by rw [hpc',Pc.child]) (by rw [hold,Pc.child])
      simp [hgone] at hpc
    | handed status hpc' hpar => simp [h.fresh q np pid hold] at hpar
    | freed _ hnone => exact hnone
  · rw [hpar,h.free np hst]

theorem Kin.step (h : Kin s) (hcon : Control s) (hfork : Forking s) (hknow : ∀ q, Knows s q)
    (hc : Change s l t) : Kin t := by
  refine ⟨fun c hst => ?_,h.fresh_step hfork hc,h.live_step hcon hknow hc,fun c hst hinit => ?_⟩
  · obtain hold | hnone := hc.unused_of hst
    · cases hc.parent c with
      | same hsame => rw [hsame,h.free c hold]
      | forked pid hpc =>
        have hused := hfork.fresh _ c (by rw [hpc,Pc.child])
        simp [hold] at hused
      | handed status hpc hpar => simp [h.free c hold] at hpar
      | freed _ hnone => exact hnone
    · exact hnone
  · by_cases hold : s.state c=.unused
    · exact .inr (hc.taken hfork hold hst)
    · obtain hpar | ⟨q,pid,hpc⟩ := h.parented c hold hinit
      · cases hc.parent c with
        | same hsame => exact .inl (hsame ▸ hpar)
        | forked pid hpc hlk hnew => exact .inl (by simp [hnew])
        | handed status hpc hp hnew => exact .inl (by simp [hnew])
        | freed hfree => exact absurd hfree hst
      · obtain hkeep | hset := hc.forking hcon hpc
        · exact .inr ⟨q,pid,hkeep⟩
        · exact .inl (by simp [hset])

def Waking (s : Sys) : Prop :=
  ∃ q status i j, s.pc q=.reparentWakeup status i j ∧ j ≤ initproc.val

theorem Waking.step (h : Waking s) (hcon : Control s) (hc : Change s l t)
    (hs : s.state initproc=.sleeping) (ht : t.state initproc=.sleeping) : Waking t := by
  obtain ⟨q,status,i,j,hq,hj⟩ := h
  by_cases hne : l.actor=q
  · subst hne
    cases hc with
    | panic | schedule | switched | yield => exact ⟨_,status,i,j,hq,hj⟩
    | move p ok k' hrun hmove =>
      have hexit : p≠initproc := hcon.exiting (by simp [show s.pc p=_ from hq,Pc.exiting])
      rw [show s.pc p=_ from hq] at hmove
      cases hmove with
      | reparentWakeup status i j hj' hpass =>
        refine ⟨p,status,i,j+1,by simp [Sys.goto],?_⟩
        -- the first process is not the caller and sleeps on itself
        have hne : j≠initproc.val := fun he => by
          have heq : (⟨j,hj'⟩ : Slot)=initproc := Fin.ext he
          rw [heq] at hpass
          exact hpass.elim (fun h => hexit h.symm) fun h => h ⟨hs,((hcon _).asleep hs).2⟩
        omega
      | reparentWoken status i j hj' => omega
    | wake p ok r k' hrun hwake =>
      rw [show s.pc p=_ from hq] at hwake
      cases hwake with
      | reparent status i j hj' =>
        refine ⟨p,status,i,j+1,by simp [Sys.goto],?_⟩
        have hne : j≠initproc.val := fun he => by
          have heq : (⟨j,hj'⟩ : Slot)=initproc := Fin.ext he
          simp [Sys.goto,heq] at ht
        omega
    | call p c hrun hpc | alloc p np hrun hpc | allocFail p np hrun hpc
    | setParent p ok np pid hrun hpc | start p ok np pid hrun hpc | hand p ok status c hrun hpc
    | zombie p ok status hrun hpc | reap p ok addr c havekids hrun hpc | sleep p ok addr hrun hpc
    | kill p ok pid q hrun hpc | wakened p addr hst hpc => simp [Label.actor,hpc] at hq
    | fail p ok hrun hk | lock p ok k' hrun hlk hk | waitFail p ok hrun hk =>
      rw [show s.pc p=_ from hq] at hk
      cases hk
  · obtain hpc | ⟨hst,-⟩ := hc.pc_of_ne hne
    · exact ⟨q,status,i,j,hpc.trans hq,hj⟩
    · have hlive := (hcon q).called (by simp [hq,Pc.called])
      simp [hst,ProcState.live] at hlive

structure Family (s : Sys) : Prop where
  control : Control s
  forking : Forking s
  kin : Kin s
  knows : ∀ q, Knows s q
  slept : ∀ p c, s.state p=.sleeping → s.state c=.zombie → s.parent c=some p →
    p=initproc ∧ Waking s

theorem Family.slept_step (h : Family s) (hc : Change s l t) (p c : Slot)
    (hp : t.state p=.sleeping) (hz : t.state c=.zombie) (hpar : t.parent c=some p) :
    p=initproc ∧ Waking t := by
  obtain hp0 | ⟨addr,rfl,hpc⟩ := hc.sleeping_of hp
  · obtain hz0 | ⟨ok,status,rfl,hpc,hparents⟩ := hc.zombie_of hz
    · cases hc.parent c with
      | same hsame =>
        obtain ⟨rfl,hwaking⟩ := h.slept p c hp0 hz0 (hsame ▸ hpar)
        exact ⟨rfl,hwaking.step h.control hc hp0 hp⟩
      | forked pid hpc =>
        have hused := h.forking.fresh _ c (by rw [hpc,Pc.child])
        simp [hz0] at hused
      | handed status hpc hold hnew hpc' =>
        obtain rfl : initproc=p := Option.some.inj (hnew.symm.trans hpar)
        exact ⟨rfl,l.actor,status,c,0,hpc',Nat.zero_le _⟩
      | freed _ hnone => simp [hnone] at hpar
    · -- the parent was woken up before its child exited
      have hwoke := (h.knows c).woke nproc (by simp [hpc,Pc.woke]) p (hparents ▸ hpar) p.isLt
      exact absurd hp0 hwoke
  · -- the process has just looked at all its children
    obtain hz0 | ⟨ok,status,rfl,hpc',-⟩ := hc.zombie_of hz
    · have hscan := (h.knows l.actor).scanned nproc true (by simp [hpc,Pc.scanned]) c c.isLt
      cases hc.parent c with
      | same hsame => exact absurd hz0 (hscan (hsame ▸ hpar)).1
      | forked pid hpc' => simp [hpc] at hpc'
      | handed status hpc' => simp [hpc] at hpc'
      | freed _ hnone => simp [hnone] at hpar
    · simp [Label.actor,hpc'] at hpc

theorem Family.step (h : Family s) (hs : step s l=some t) : Family t := by
  have hc := step_change hs
  exact ⟨h.control.step h.forking hc,h.forking.step h.control hc,
    h.kin.step h.control h.forking h.knows hc,Knows.step h.knows h.control h.kin hc,
    h.slept_step hc⟩

theorem boot_family : Family boot where
  control := boot_control
  forking := boot_forking
  kin := by
    refine ⟨fun _ _ => rfl,fun _ _ _ _ => rfl,by simp [boot],fun c hst hinit => ?_⟩
    simp [boot,hinit] at hst
  knows := fun q => .of_free (by simp [boot,Pc.holds])
  slept := by simp [boot]

theorem family_of_run {ls : List Label} (hrun : run Proc.step ls boot=some t) : Family t :=
  run_invariant (fun _ _ _ h hs => h.step hs) boot_family hrun

end Xv6.Proc
