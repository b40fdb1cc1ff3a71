import Xv6.Proc

/-! What a step of the process table can do. -/
namespace Xv6.Proc
open Function Xv6.Machine
variable {s t : Sys} {p q : Slot} {l : Label}

/-- The steps that change no more than the place of the process. -/
inductive Moves (s : Sys) (p : Slot) : Pc → Pc → Prop
  | allocproc (i : Nat) (h : i < nproc) (hst : s.state ⟨i,h⟩≠.unused) :
      Moves s p (.allocproc i) (.allocproc (i+1))
  | reparent (status : Int) (i : Nat) (h : i < nproc) (hpar : s.parent ⟨i,h⟩≠some p) :
      Moves s p (.reparent status i) (.reparent status (i+1))
  | reparented (status : Int) (i : Nat) (h : ¬ i < nproc) :
      Moves s p (.reparent status i) (.exitWakeup status (s.parent p) 0)
  | reparentWakeup (status : Int) (i j : Nat) (h : j < nproc)
      (hq : ⟨j,h⟩=p ∨ ¬ (s.state ⟨j,h⟩=.sleeping ∧ s.chan ⟨j,h⟩=some initproc)) :
      Moves s p (.reparentWakeup status i j) (.reparentWakeup status i (j+1))
  | reparentWoken (status : Int) (i j : Nat) (h : ¬ j < nproc) :
      Moves s p (.reparentWakeup status i j) (.reparent status (i+1))
  | exitWakeup (status : Int) (chan : Option Slot) (j : Nat) (h : j < nproc)
      (hq : ⟨j,h⟩=p ∨ ¬ (s.state ⟨j,h⟩=.sleeping ∧ s.chan ⟨j,h⟩=chan)) :
      Moves s p (.exitWakeup status chan j) (.exitWakeup status chan (j+1))
  | exitWoken (status : Int) (chan : Option Slot) (j : Nat) (h : ¬ j < nproc) :
      Moves s p (.exitWakeup status chan j) (.exitZombie status)
  | waitChild (addr i : Nat) (havekids : Bool) (h : i < nproc) (hpar : s.parent ⟨i,h⟩=some p)
      (hst : s.state ⟨i,h⟩≠.zombie) :
      Moves s p (.waitScan addr i havekids) (.waitScan addr (i+1) true)
  | waitScan (addr i : Nat) (havekids : Bool) (h : i < nproc) (hpar : s.parent ⟨i,h⟩≠some p) :
      Moves s p (.waitScan addr i havekids) (.waitScan addr (i+1) havekids)
  | waitScanned (addr i : Nat) (h : ¬ i < nproc) :
      Moves s p (.waitScan addr i true) (.waitKilled addr)
  | waitKilled (addr : Nat) (hk : s.killed p=false) :
      Moves s p (.waitKilled addr) (.waitSleep addr)
  | kill (pid : Int) (i : Nat) (h : i < nproc) (hpid : s.pid ⟨i,h⟩≠pid) :
      Moves s p (.kill pid i) (.kill pid (i+1))

/-- A process that finds nothing to do returns -1 and has changed nothing. -/
inductive Fails : Pc → Prop
  | allocproc (i : Nat) (h : ¬ i < nproc) : Fails (.allocproc i)
  | kill (pid : Int) (i : Nat) (h : ¬ i < nproc) : Fails (.kill pid i)

/-- Why `wait` returns -1. -/
inductive WaitFails (s : Sys) (p : Slot) (ok : Bool) : Pc → Prop
  | copyout (addr i : Nat) (havekids : Bool) (h : i < nproc) (hpar : s.parent ⟨i,h⟩=some p)
      (hst : s.state ⟨i,h⟩=.zombie) (haddr : addr≠0) (hok : ok=false) :
      WaitFails s p ok (.waitScan addr i havekids)
  | noKids (addr i : Nat) (h : ¬ i < nproc) : WaitFails s p ok (.waitScan addr i false)
  | killed (addr : Nat) (hk : s.killed p=true) : WaitFails s p ok (.waitKilled addr)

inductive Wakes (s : Sys) (p : Slot) : Slot → Pc → Pc → Prop
  | reparent (status : Int) (i j : Nat) (h : j < nproc) (hne : ⟨j,h⟩≠p)
      (hst : s.state ⟨j,h⟩=.sleeping) (hchan : s.chan ⟨j,h⟩=some initproc) :
      Wakes s p ⟨j,h⟩ (.reparentWakeup status i j) (.reparentWakeup status i (j+1))
  | exit (status : Int) (chan : Option Slot) (j : Nat) (h : j < nproc) (hne : ⟨j,h⟩≠p)
      (hst : s.state ⟨j,h⟩=.sleeping) (hchan : s.chan ⟨j,h⟩=chan) :
      Wakes s p ⟨j,h⟩ (.exitWakeup status chan j) (.exitWakeup status chan (j+1))

inductive Locks : Pc → Pc → Prop
  | exit (status : Int) : Locks (.exit status) (.reparent status 0)
  | wait (addr : Nat) : Locks (.wait addr) (.waitScan addr 0 false)

inductive Change (s : Sys) : Label → Sys → Prop
  | call (p : Slot) (c : Call) (hrun : s.state p=.running) (hpc : s.pc p=.user)
      (hinit : p=initproc → c.exits=false) : Change s (.syscall p c) (s.goto p c.entry)
  | panic (p : Slot) (c : Call) : Change s (.syscall p c) { s with panicked := true }
  | move (p : Slot) (ok : Bool) (k' : Pc) (hrun : s.state p=.running)
      (hmove : Moves s p (s.pc p) k') : Change s (.run p ok) (s.goto p k')
  | fail (p : Slot) (ok : Bool) (hrun : s.state p=.running) (hfail : Fails (s.pc p)) :
      Change s (.run p ok) (s.leave p .error)
  | alloc (p np : Slot) (hrun : s.state p=.running) (hpc : s.pc p=.allocproc np)
      (hst : s.state np=.unused) :
      Change s (.run p true) ((s.found np).goto p (.forkParent np s.nextpid))
  | allocFail (p np : Slot) (hrun : s.state p=.running) (hpc : s.pc p=.allocproc np)
      (hst : s.state np=.unused) :
      Change s (.run p false) (((s.found np).freeproc np).leave p .error)
  | setParent (p : Slot) (ok : Bool) (np : Slot) (pid : Int) (hrun : s.state p=.running)
      (hpc : s.pc p=.forkParent np pid) (hlk : s.waitLock=none) :
      Change s (.run p ok)
        ({ s with parent := update s.parent np (some p) }.goto p (.forkStart np pid))
  | start (p : Slot) (ok : Bool) (np : Slot) (pid : Int) (hrun : s.state p=.running)
      (hpc : s.pc p=.forkStart np pid) :
      Change s (.run p ok)
        ({ s with state := update s.state np .runnable }.leave p (.ok pid none))
  | lock (p : Slot) (ok : Bool) (k' : Pc) (hrun : s.state p=.running) (hlk : s.waitLock=none)
      (hpc : Locks (s.pc p) k') :
      Change s (.run p ok) ({ s with waitLock := some p }.goto p k')
  | hand (p : Slot) (ok : Bool) (status : Int) (c : Slot) (hrun : s.state p=.running)
      (hpc : s.pc p=.reparent status c) (hpar : s.parent c=some p) :
      Change s (.run p ok) ({ s with parent := update s.parent c (some initproc) }.goto p
        (.reparentWakeup status c 0))
  | wake (p : Slot) (ok : Bool) (q : Slot) (k' : Pc) (hrun : s.state p=.running)
      (hwake : Wakes s p q (s.pc p) k') :
      Change s (.run p ok) ({ s with state := update s.state q .runnable }.goto p k')
  | zombie (p : Slot) (ok : Bool) (status : Int) (hrun : s.state p=.running)
      (hpc : s.pc p=.exitZombie status) :
      Change s (.run p ok) ({ s with
        xstate := update s.xstate p status
        state := update s.state p .zombie
        waitLock := none
        lock := update s.lock p true }.goto p .exited)
  | waitFail (p : Slot) (ok : Bool) (hrun : s.state p=.running)
      (hfail : WaitFails s p ok (s.pc p)) :
      Change s (.run p ok) ({ s with waitLock := none }.leave p .error)
  | reap (p : Slot) (ok : Bool) (addr : Nat) (c : Slot) (havekids : Bool)
      (hrun : s.state p=.running) (hpc : s.pc p=.waitScan addr c havekids)
      (hpar : s.parent c=some p) (hst : s.state c=.zombie) :
      Change s (.run p ok) (({ s with waitLock := none }.freeproc c).leave p
        (.ok (s.pid c) (if addr≠0 then some (s.xstate c) else none)))
  | sleep (p : Slot) (ok : Bool) (addr : Nat) (hrun : s.state p=.running)
      (hpc : s.pc p=.waitSleep addr) :
      Change s (.run p ok) ({ s with
        waitLock := none
        chan := update s.chan p (some p)
        state := update s.state p .sleeping
        lock := update s.lock p true }.goto p (.asleep addr))
  | kill (p : Slot) (ok : Bool) (pid : Int) (q : Slot) (hrun : s.state p=.running)
      (hpc : s.pc p=.kill pid q) (hpid : s.pid q=pid) :
      Change s (.run p ok) ({ s with
        killed := update s.killed q true
        state := if s.state q=ProcState.sleeping then update s.state q .runnable else s.state }.leave
          p (.ok 0 none))
  | wakened (p : Slot) (addr : Nat) (hst : s.state p=.runnable) (hpc : s.pc p=.asleep addr) :
      Change s (.schedule p) ({ s with
        state := update s.state p .running
        chan := update s.chan p none }.goto p (.wait addr))
  | schedule (p : Slot) (hst : s.state p=.runnable) (hpc : ∀ addr, s.pc p≠.asleep addr) :
      Change s (.schedule p) { s with state := update s.state p .running }
  | switched (p : Slot) : Change s (.switched p) { s with lock := update s.lock p false }
  | yield (p : Slot) (hrun : s.state p=.running) (hlk : s.waitLock≠some p) :
      Change s (.yield p) { s with
        state := update s.state p .runnable
        lock := update s.lock p true }

theorem allocproc_change {i : Nat} {ok : Bool} (hrun : s.state p=.running)
    (hpc : s.pc p=.allocproc i) (h : s.allocproc p i ok=some t) : Change s (.run p ok) t := by
  unfold Sys.allocproc at h
  by_cases hi : i < nproc
  · simp only [dif_pos hi] at h
    split at h
    next => cases h
    next =>
      split at h
      next hst =>
        cases ok with
        | true =>
          cases h
          exact .alloc p ⟨i,hi⟩ hrun hpc hst
        | false =>
          cases h
          exact .allocFail p ⟨i,hi⟩ hrun hpc hst
      next hst =>
        cases h
        exact .move p ok _ hrun (hpc ▸ .allocproc i hi hst)
  · simp only [dif_neg hi] at h
    cases h
    exact .fail p ok hrun (hpc ▸ .allocproc i hi)

theorem wakeup_cases {chan : Option Slot} (h : s.wakeup p chan q=some t) :
    (q≠p ∧ s.state q=.sleeping ∧ s.chan q=chan ∧
      t = { s with state := update s.state q .runnable }) ∨
    ((q=p ∨ ¬ (s.state q=.sleeping ∧ s.chan q=chan)) ∧ t=s) := by
  unfold Sys.wakeup at h
  split_ifs at h with hq hlk hst
  · exact .inr ⟨.inl hq,(Option.some.inj h).symm⟩
  · exact .inl ⟨hq,hst.1,hst.2,(Option.some.inj h).symm⟩
  · exact .inr ⟨.inr hst,(Option.some.inj h).symm⟩

theorem reparent_change {status : Int} {i : Nat} {ok : Bool} (hrun : s.state p=.running)
    (hpc : s.pc p=.reparent status i) : Change s (.run p ok) (s.reparent p status i) := by
  unfold Sys.reparent
  split_ifs with hi hpar
  · exact .hand p ok status ⟨i,hi⟩ hrun hpc hpar
  · exact .move p ok _ hrun (hpc ▸ .reparent status i hi hpar)
  · exact .move p ok _ hrun (hpc ▸ .reparented status i hi)

theorem waitScan_change {addr i : Nat} {havekids ok : Bool} (hrun : s.state p=.running)
    (hpc : s.pc p=.waitScan addr i havekids) (h : s.waitScan p addr i havekids ok=some t) :
    Change s (.run p ok) t := by
  unfold Sys.waitScan at h
  by_cases hi : i < nproc
  · simp only [dif_pos hi] at h
    by_cases hpar : s.parent ⟨i,hi⟩=some p
    · rw [if_pos hpar] at h
      split at h
      next => cases h
      next =>
        by_cases hst : s.state ⟨i,hi⟩=.zombie
        · rw [if_pos hst] at h
          by_cases hcopy : addr≠0 ∧ ok=false
          · rw [if_pos hcopy] at h
            cases h
            exact .waitFail p ok hrun (hpc ▸ .copyout addr i havekids hi hpar hst hcopy.1 hcopy.2)
          · rw [if_neg hcopy] at h
            cases h
            exact .reap p ok addr ⟨i,hi⟩ havekids hrun hpc hpar hst
        · rw [if_neg hst] at h
          cases h
          exact .move p ok _ hrun (hpc ▸ .waitChild addr i havekids hi hpar hst)
    · rw [if_neg hpar] at h
      cases h
      exact .move p ok _ hrun (hpc ▸ .waitScan addr i havekids hi hpar)
  · simp only [dif_neg hi] at h
    cases h
    cases havekids with
    | true => exact .move p ok _ hrun (hpc ▸ .waitScanned addr i hi)
    | false => exact .waitFail p ok hrun (hpc ▸ .noKids addr i hi)

theorem kill_change {pid : Int} {i : Nat} {ok : Bool} (hrun : s.state p=.running)
    (hpc : s.pc p=.kill pid i) (h : s.kill p pid i=some t) : Change s (.run p ok) t := by
  unfold Sys.kill at h
  by_cases hi : i < nproc
  · simp only [dif_pos hi] at h
    split at h
    next => cases h
    next =>
      by_cases hpid : s.pid ⟨i,hi⟩=pid
      · rw [if_pos hpid] at h
        cases h
        exact .kill p ok pid ⟨i,hi⟩ hrun hpc hpid
      · rw [if_neg hpid] at h
        cases h
        exact .move p ok _ hrun (hpc ▸ .kill pid i hi hpid)
  · simp only [dif_neg hi] at h
    cases h
    exact .fail p ok hrun (hpc ▸ .kill pid i hi)

theorem advance_change {ok : Bool} (hrun : s.state p=.running) (h : s.advance p ok=some t) :
    Change s (.run p ok) t := by
  unfold Sys.advance at h
  cases hpc : s.pc p with
  | user | exited | asleep _ => simp [hpc] at h
  | allocproc i =>
    simp only [hpc] at h
    exact allocproc_change hrun hpc h
  | forkParent np pid =>
    simp only [hpc] at h
    split_ifs at h with hlk
    cases h
    exact .setParent p ok np pid hrun hpc hlk
  | forkStart np pid =>
    simp only [hpc] at h
    split_ifs at h with hlk
    cases h
    exact .start p ok np pid hrun hpc
  | exit status =>
    simp only [hpc] at h
    split_ifs at h with hlk
    cases h
    exact .lock p ok _ hrun hlk (hpc ▸ .exit status)
  | reparent status i =>
    simp only [hpc,Option.some.injEq] at h
    exact h ▸ reparent_change hrun hpc
  | reparentWakeup status i j =>
    simp only [hpc] at h
    split_ifs at h with hj
    · obtain ⟨u,hu,rfl⟩ := Option.map_eq_some_iff.mp h
      obtain ⟨hne,hst,hchan,rfl⟩ | ⟨hq,rfl⟩ := wakeup_cases hu
      · exact .wake p ok _ _ hrun (hpc ▸ .reparent status i j hj hne hst hchan)
      · exact .move p ok _ hrun (hpc ▸ .reparentWakeup status i j hj hq)
    · cases h
      exact .move p ok _ hrun (hpc ▸ .reparentWoken status i j hj)
  | exitWakeup status chan j =>
    simp only [hpc] at h
    split_ifs at h with hj
    · obtain ⟨u,hu,rfl⟩ := Option.map_eq_some_iff.mp h
      obtain ⟨hne,hst,hchan,rfl⟩ | ⟨hq,rfl⟩ := wakeup_cases hu
      · exact .wake p ok _ _ hrun (hpc ▸ .exit status chan j hj hne hst hchan)
      · exact .move p ok _ hrun (hpc ▸ .exitWakeup status chan j hj hq)
    · cases h
      exact .move p ok _ hrun (hpc ▸ .exitWoken status chan j hj)
  | exitZombie status =>
    simp only [hpc] at h
    split_ifs at h with hlk
    cases h
    exact .zombie p ok status hrun hpc
  | wait addr =>
    simp only [hpc] at h
    split_ifs at h with hlk
    cases h
    exact .lock p ok _ hrun hlk (hpc ▸ .wait addr)
  | waitScan addr i havekids =>
    simp only [hpc] at h
    exact waitScan_change hrun hpc h
  | waitKilled addr =>
    simp only [hpc] at h
    split_ifs at h with hlk hk
    all_goals cases h
    · exact .waitFail p ok hrun (hpc ▸ .killed addr hk)
    · exact .move p ok _ hrun (hpc ▸ .waitKilled addr (by simpa using hk))
  | waitSleep addr =>
    simp only [hpc] at h
    split_ifs at h with hlk
    cases h
    exact .sleep p ok addr hrun hpc
  | kill pid i =>
    simp only [hpc] at h
    exact kill_change hrun hpc h

theorem step_change (h : step s l=some t) : Change s l t := by
  unfold step at h
  split_ifs at h with hpan
  cases l with
  | syscall p c =>
    simp only at h
    split_ifs at h with hrun hinit
    all_goals cases h
    · exact .panic p c
    · refine .call p c hrun.1 hrun.2 fun hp => ?_
      simpa [hp] using hinit
  | run p ok =>
    simp only at h
    split_ifs at h with hrun
    exact advance_change hrun h
  | schedule p =>
    simp only at h
    split_ifs at h with hst
    cases h
    unfold Sys.resume
    cases hpc : s.pc p with
    | asleep addr => exact .wakened p addr hst.2 hpc
    | _ => exact .schedule p hst.2 (by simp [hpc])
  | switched p =>
    simp only at h
    split_ifs at h with hlk
    cases h
    exact .switched p
  | yield p =>
    simp only at h
    split_ifs at h with hy
    cases h
    exact .yield p hy.1 hy.2.2

end Xv6.Proc
