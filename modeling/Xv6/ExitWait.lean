import Xv6.ProcClean
import Xv6.ProcFamily

/-! The protocol of `exit` and `wait` in `kernel/proc.c`: a ZOMBIE stays until it is collected, and a
call of `wait` that sleeps has nothing to collect. -/
namespace Xv6.Proc
open Function Xv6.Machine
variable {s t : Sys} {p q c : Slot} {l : Label}

/-- A call of `wait` by `p` returns the number and the status of its ZOMBIE child in
slot `c`, and frees the slot. -/
def Reaps (s : Sys) (l : Label) (t : Sys) (p c : Slot) : Prop :=
  ∃ ok addr havekids, l=.run p ok ∧ s.pc p=.waitScan addr c havekids ∧
    s.parent c=some p ∧ s.state c=.zombie ∧ t.pc p=.user ∧
    t.ret p=.ok (s.pid c) (if addr≠0 then some (s.xstate c) else none) ∧ t.state c=.unused

def Pc.inWait : Pc → Bool
  | .wait _ | .waitScan .. | .waitKilled _ | .waitSleep _ | .asleep _ => true
  | _ => false

def Excused (s : Sys) (l : Label) (p : Slot) : Prop :=
  (∀ c, s.parent c≠some p) ∨ s.killed p=true ∨
    -- `copyout` fails
    ∃ addr i havekids, l=.run p false ∧ s.pc p=.waitScan addr i havekids ∧ addr≠0

theorem reap_reaps {ok : Bool} {addr : Nat} {havekids : Bool}
    (hpc : s.pc p=.waitScan addr c havekids) (hpar : s.parent c=some p)
    (hst : s.state c=.zombie) :
    Reaps s (.run p ok) (({ s with waitLock := none }.freeproc c).leave p
      (.ok (s.pid c) (if addr≠0 then some (s.xstate c) else none))) p c :=
  ⟨ok,addr,havekids,rfl,hpc,hpar,hst,by simp [Sys.leave],by simp [Sys.leave],
    by simp [Sys.leave,Sys.freeproc]⟩

theorem Family.zombie_step (h : Family s) (hc : Change s l t) (hz : s.state c=.zombie) :
    (t.state c=.zombie ∧ t.pid c=s.pid c ∧ t.xstate c=s.xstate c) ∨ ∃ p, Reaps s l t p c := by
  have hkeep : ∀ {r x}, s.state r≠.zombie → update s.state r x c=.zombie := fun {r x} hr => by
    have hcr : c≠r := fun he => hr (he ▸ hz)
    simpa [hcr] using hz
  cases hc with
  | call | panic | move | fail | setParent | lock | hand | waitFail | switched =>
    exact .inl ⟨hz,rfl,rfl⟩
  | alloc p np hrun hpc hst | allocFail p np hrun hpc hst =>
    have hcn : c≠np := fun he => by simp [he,hst] at hz
    exact .inl (by simp [Sys.goto,Sys.leave,Sys.freeproc,Sys.found,hcn,hz])
  | start p ok np pid hrun hpc =>
    have hused := h.forking.fresh p np (by simp [hpc,Pc.child])
    exact .inl ⟨hkeep (by simp [hused]),rfl,rfl⟩
  | wake p ok q k' hrun hwake => exact .inl ⟨hkeep (by simp [hwake.sleeper]),rfl,rfl⟩
  | zombie p ok status hrun =>
    have hcp : c≠p := fun he => by simp [he,hrun] at hz
    exact .inl (by simp [Sys.goto,hcp,hz])
  | reap p ok addr d havekids hrun hpc hpar hst =>
    by_cases hcd : c=d
    · subst hcd
      exact .inr ⟨p,reap_reaps hpc hpar hst⟩
    · exact .inl (by simp [Sys.leave,Sys.freeproc,hcd,hz])
  | sleep p ok addr hst | wakened p addr hst | schedule p hst | yield p hst =>
    exact .inl ⟨hkeep (by simp [hst]),rfl,rfl⟩
  | kill p ok pid q hrun hpc hpid =>
    refine .inl ⟨?_,rfl,rfl⟩
    split_ifs with hst
    · exact hkeep (by simp [hst])
    · exact hz

theorem Family.freed_step (h : Family s) (hc : Change s l t) (hs : s.state c≠.unused)
    (ht : t.state c=.unused) : ∃ p, Reaps s l t p c := by
  cases hc.newState c with
  | same hsame => exact absurd (hsame ▸ ht) hs
  | freed hold =>
    refine (h.zombie_step hc (hold.resolve_left hs)).resolve_left fun hz => ?_
    simp [ht] at hz
  | found _ _ hst | ready _ hst | exited _ _ _ _ _ hst | asleep _ _ _ _ hst => simp [ht] at hst

theorem Family.wait_step (h : Family s) (hc : Change s l t) (hp : (s.pc p).inWait=true)
    (hret : t.pc p=.user) : (∃ c, Reaps s l t p c) ∨ t.ret p=.error ∧ Excused s l p := by
  by_cases hne : l.actor=p
  · subst hne
    cases hc with
    | panic | schedule | switched | yield =>
      rw [show s.pc _ = _ from hret] at hp
      simp [Pc.inWait] at hp
    | call p c hrun hpc | alloc p np hrun hpc | allocFail p np hrun hpc
    | setParent p ok np pid hrun hpc | start p ok np pid hrun hpc | hand p ok status c hrun hpc
    | zombie p ok status hrun hpc | kill p ok pid q hrun hpc =>
      simp [Label.actor,hpc,Pc.inWait] at hp
    | sleep | wakened => simp [Label.actor,Sys.goto] at hret
    | move p ok k' hrun hk | lock p ok k' hrun hlk hk | wake p ok q k' hrun hk =>
      have hk' : k'=.user := by simpa [Label.actor,Sys.goto] using hret
      generalize s.pc p=k at hk
      subst hk'
      cases hk
    | fail p ok hrun hk =>
      simp only [Label.actor] at hp
      generalize s.pc p=k at hk hp
      cases hk <;> simp [Pc.inWait] at hp
    | reap p ok addr c havekids hrun hpc hpar hst => exact .inl ⟨c,reap_reaps hpc hpar hst⟩
    | waitFail p ok hrun hfail =>
      refine .inr ⟨by simp [Label.actor,Sys.leave],?_⟩
      generalize hk : s.pc p=k at hfail
      cases hfail with
      | copyout addr i havekids hi hpar hst haddr hok =>
        exact .inr (.inr ⟨addr,i,havekids,by rw [hok]; rfl,hk,haddr⟩)
      | noKids addr i hi =>
        refine .inl fun c hpar => ?_
        have hscan := (h.knows p).scanned i false (by simp [hk,Pc.scanned]) c (by omega) hpar
        simp at hscan
      | killed addr hkilled => exact .inr (.inl hkilled)
  · obtain hpc | ⟨hst,-⟩ := hc.pc_of_ne hne
    · rw [← hpc,hret] at hp
      simp [Pc.inWait] at hp
    · have hlive := (h.control p).called (by cases hk : s.pc p <;> simp_all [Pc.inWait,Pc.called])
      simp [hst,ProcState.live] at hlive

def Pc.handing (k : Pc) : Bool := k.exiting && k.holds

theorem Change.handing (hc : Change s l t) (hcon : Control s) (h : (s.pc q).handing=true) :
    (t.pc q).handing=true ∨ t.state q=.zombie := by
  simp only [Pc.handing,Bool.and_eq_true] at h ⊢
  by_cases hne : l.actor=q
  · subst hne
    cases hc with
    | panic | schedule | switched | yield => exact .inl h
    | zombie p ok status hrun hpc => exact .inr (by simp [Label.actor,Sys.goto])
    | move p ok k' hrun hk =>
      obtain ⟨hh,he,-⟩ := hk.same
      exact .inl (by simpa [Label.actor,Sys.goto,hh,he] using h)
    | wake p ok q k' hrun hk =>
      obtain ⟨hh,he,-⟩ := hk.same
      exact .inl (by simpa [Label.actor,Sys.goto,hh,he] using h)
    | hand => exact .inl (by simp [Label.actor,Sys.goto,Pc.exiting,Pc.holds])
    | call p c hrun hpc | alloc p np hrun hpc | allocFail p np hrun hpc
    | setParent p ok np pid hrun hpc | start p ok np pid hrun hpc
    | reap p ok addr c havekids hrun hpc | sleep p ok addr hrun hpc | kill p ok pid q hrun hpc
    | wakened p addr hst hpc => simp [Label.actor,hpc,Pc.exiting] at h
    | lock p ok k' hrun hlk hk => simp [Label.actor,hk.same.1] at h
    | fail p ok hrun hk => simp [Label.actor,hk.same.1] at h
    | waitFail p ok hrun hk =>
      simp only [Label.actor] at h
      generalize s.pc p=k at hk h
      cases hk <;> simp [Pc.exiting] at h
  · obtain hpc | ⟨hst,-⟩ := hc.pc_of_ne hne
    · exact .inl (hpc ▸ h)
    · simp [(hcon q).running h.2] at hst

section Heirs
variable {ls v : List Label}

/-- What has become of the child `c` that `q` had in state `s`: it is still the child
of `q`, or `q` has given it to the first process in its `exit`, or it is gone. -/
structure Heir (s : Sys) (c q : Slot) (past : List Label) (t : Sys) : Prop where
  run : run Proc.step past s=some t
  family : Family t
  heir : (∃ w x, w <+: past ∧ Machine.run Proc.step w s=some x ∧ x.state c=.unused) ∨
    t.parent c=some q ∨ t.parent c=some initproc ∧ ((t.pc q).handing=true ∨
      ∃ w x, w <+: past ∧ Machine.run Proc.step w s=some x ∧ x.state q=.zombie)

theorem Heir.step {past : List Label} {u : Sys} (h : Heir s c q past u)
    (hs : Proc.step u l=some t) : Heir s c q (past++[l]) t := by
  have hc := step_change hs
  have hrun : Machine.run Proc.step (past++[l]) s=some t :=
    run_append_some.mpr ⟨u,h.run,by simp [Machine.run,hs]⟩
  have hearlier : ∀ {w : List Label}, w <+: past → w <+: past++[l] := fun hw =>
    hw.trans (List.prefix_append _ _)
  refine ⟨hrun,h.family.step hs,?_⟩
  obtain ⟨w,x,hw,hx,hst⟩ | hpar | ⟨hpar,hgone⟩ := h.heir
  · exact .inl ⟨w,x,hearlier hw,hx,hst⟩
  · cases hc.parent c with
    | same hsame => exact .inr (.inl (hsame.trans hpar))
    | forked pid hpc => simp [h.family.kin.fresh _ c pid hpc] at hpar
    | handed status hpc hold hnew hpc' =>
      obtain rfl : l.actor=q := Option.some.inj (hold.symm.trans hpar)
      exact .inr (.inr ⟨hnew,.inl (by simp [hpc',Pc.handing,Pc.exiting,Pc.holds])⟩)
    | freed hfree => exact .inl ⟨_,t,List.prefix_rfl,hrun,hfree⟩
  · have hgone' : (t.pc q).handing=true ∨
        ∃ w x, w <+: past++[l] ∧ Machine.run Proc.step w s=some x ∧ x.state q=.zombie := by
      obtain hhand | ⟨w,x,hw,hx,hz⟩ := hgone
      · obtain hhand | hz := hc.handing h.family.control hhand
        · exact .inl hhand
        · exact .inr ⟨_,t,List.prefix_rfl,hrun,hz⟩
      · exact .inr ⟨w,x,hearlier hw,hx,hz⟩
    cases hc.parent c with
    | same hsame => exact .inr (.inr ⟨hsame.trans hpar,hgone'⟩)
    | forked pid hpc => simp [h.family.kin.fresh _ c pid hpc] at hpar
    | handed status hpc hold hnew => exact .inr (.inr ⟨hnew,hgone'⟩)
    | freed hfree => exact .inl ⟨_,t,List.prefix_rfl,hrun,hfree⟩

theorem Heir.of_run (h : Family s) (hpar : s.parent c=some q)
    (hrun : Machine.run Proc.step v s=some t) : Heir s c q v t :=
  run_history (I := Heir s c q) (fun _ _ _ _ h hs => h.step hs)
    ⟨rfl,h,.inr (.inl hpar)⟩ hrun

theorem exit_of_zombie (hs : s.state c≠.zombie) (ht : t.state c=.zombie)
    (hrun : Machine.run Proc.step v s=some t) :
    ∃ w ok rest x status, v=w++.run c ok :: rest ∧ Machine.run Proc.step w s=some x ∧
      x.pc c=.exitZombie status := by
  induction v generalizing s with
  | nil =>
    cases hrun
    exact absurd ht hs
  | cons l v ih =>
    obtain ⟨u,hu,hrest⟩ := run_cons.mp hrun
    by_cases hz : u.state c=.zombie
    · obtain hz | ⟨ok,status,rfl,hpc,-⟩ := (step_change hu).zombie_of hz
      · exact absurd hz hs
      · exact ⟨[],ok,v,s,status,rfl,rfl,hpc⟩
    · obtain ⟨w,ok,rest,x,status,rfl,hx,hpc⟩ := ih hz hrest
      exact ⟨l::w,ok,rest,x,status,rfl,run_cons.mpr ⟨u,hu,hx⟩,hpc⟩

/-- In every reachable state a process has a parent that has not exited, and none sleeps in `wait`
with a ZOMBIE child while `wait_lock` is free. A ZOMBIE stays as it is until its parent, or the
first process in its place, gets its number and status in `wait` and frees its slot. A call of
`wait` that returns no child finds that the caller has none, or was killed, or `copyout` fails. -/
theorem exit_wait_protocol (ls : List Label) (t : Sys) (hrun : Machine.run Proc.step ls boot=some t) :
    (∀ c, t.state c≠.unused → c≠initproc → (∀ q, (t.pc q).child≠some c) →
      ∃ p, t.parent c=some p ∧ t.state p≠.unused ∧ t.state p≠.zombie) ∧
    (t.waitLock=none → ∀ p c, t.state p=.sleeping → t.state c=.zombie →
      t.parent c≠some p) ∧
    (∀ l u, Proc.step t l=some u →
      (∀ c, t.state c=.zombie →
        (u.state c=.zombie ∧ u.pid c=t.pid c ∧ u.xstate c=t.xstate c) ∨
          ∃ p, Reaps t l u p c) ∧
      (∀ c, t.state c≠.unused → u.state c=.unused → ∃ p, Reaps t l u p c) ∧
      ∀ p, (t.pc p).inWait=true → u.pc p=.user →
        (∃ c, Reaps t l u p c) ∨ u.ret p=.error ∧ Excused t l p) ∧
    (∀ v w s c q, ls=v++w → Machine.run Proc.step v boot=some s → s.parent c=some q →
      (∀ w' x, w' <+: w → Machine.run Proc.step w' s=some x → x.state c≠.unused) →
      ∀ l u p, Reaps t l u p c → p=q ∨ p=initproc ∧
        ∃ w' x, w' <+: w ∧ Machine.run Proc.step w' s=some x ∧ x.state q=.zombie) ∧
    ∀ v w s c, ls=v++w → Machine.run Proc.step v boot=some s → s.state c=.unused →
      t.state c=.zombie → ∃ w' ok rest x status, w=w'++.run c ok :: rest ∧
        Machine.run Proc.step w' s=some x ∧ x.pc c=.exitZombie status := by
  have h := family_of_run hrun
  refine ⟨fun c hst hinit hfork => ?_,fun hlk p c hp hz hpar => ?_,fun l u hs => ?_,?_,?_⟩
  · obtain hpar | ⟨q,pid,hq⟩ := h.kin.parented c hst hinit
    · obtain ⟨p,hp⟩ := Option.ne_none_iff_exists'.mp hpar
      have hlive := h.kin.live c p hp
      refine ⟨p,hp,fun he => ?_,fun he => ?_⟩ <;> simp [he,ProcState.live] at hlive
    · exact absurd (by rw [hq,Pc.child]) (hfork q)
  · obtain ⟨-,q,status,i,j,hq,-⟩ := h.slept p c hp hz hpar
    have hholds := (h.control q).holder.mp (by rw [hq,Pc.holds])
    simp [hlk] at hholds
  · have hc := step_change hs
    exact ⟨fun c hz => h.zombie_step hc hz,fun c hst hfree => h.freed_step hc hst hfree,
      fun p hp hret => h.wait_step hc hp hret⟩
  · rintro v w s c q rfl hv hpar huse l u p ⟨ok,addr,havekids,-,hpc,hpar',-⟩
    obtain ⟨x,hx,hw⟩ := run_append_some.mp hrun
    obtain rfl : s=x := Option.some.inj (hv.symm.trans hx)
    obtain ⟨w',x,hw',hx',hst⟩ | hq | ⟨hinit,hgone⟩ := (Heir.of_run (family_of_run hv) hpar hw).heir
    · exact absurd hst (huse w' x hw' hx')
    · exact .inl (Option.some.inj (hpar'.symm.trans hq))
    · obtain rfl : p=initproc := Option.some.inj (hpar'.symm.trans hinit)
      obtain hhand | hz := hgone
      · -- the first process holds the lock, so nobody else is in the middle of `exit`
        have hp := (h.control initproc).holder.mp (by rw [hpc,Pc.holds])
        simp only [Pc.handing,Bool.and_eq_true] at hhand
        have hq := (h.control q).holder.mp hhand.2
        exact .inl (Option.some.inj (hp.symm.trans hq))
      · exact .inr ⟨rfl,hz⟩
  · rintro v w s c rfl hv hst hz
    obtain ⟨x,hx,hw⟩ := run_append_some.mp hrun
    obtain rfl : s=x := Option.some.inj (hv.symm.trans hx)
    exact exit_of_zombie (by simp [hst]) hz hw

end Heirs

def collects : List Label :=
  .schedule initproc :: forks++.schedule secondSlot :: .syscall secondSlot (.exit 7) ::
    List.replicate 132 (.run secondSlot true)++.switched secondSlot ::
    .syscall initproc (.wait 4096) :: List.replicate 2 (.run initproc true)

def collectsEnd : Sys := (Machine.run Proc.step collects boot).get (by decide +kernel)

def collectedEnd : Sys := (Proc.step collectsEnd (.run initproc true)).get (by decide +kernel)

theorem collects_reaps : collectedEnd.ret initproc=.ok 2 (some 7) ∧
    ∃ p, Reaps collectsEnd (.run initproc true) collectedEnd p secondSlot := by
  refine ⟨by decide +kernel,?_⟩
  obtain ⟨-,-,hstep,-⟩ := exit_wait_protocol collects collectsEnd (Option.some_get _).symm
  exact (hstep (.run initproc true) collectedEnd (Option.some_get _).symm).2.1 secondSlot
    (by decide +kernel) (by decide +kernel)

end Xv6.Proc
