import Xv6.PetersonUse

/-! Mutual exclusion and bounded bypass of a Peterson lock in use. -/
namespace Xv6.PetersonExclusion
open Function Xv6.Machine Xv6.PetersonLock Xv6.PetersonCell Xv6.PetersonSim Xv6.PetersonUse
variable {P : Type*} [DecidableEq P]

/-- The uses of a lock that is not destroyed: one process per role, and no call
of destroy on it. Calls on other locks are free, with role 0 or 1. -/
def Undestroyed (lockId : Int) (creator : P) (past : List (Label P)) (_ : Sys P) (l : Label P) :
    Prop :=
  OnePerRole lockId creator past l ∧ ∀ p, l≠.call p (.destroy lockId)

instance Undestroyed.decidable [Fintype P] (lockId : Int) (creator : P) (past : List (Label P))
    (s : Sys P) (l : Label P) : Decidable (Undestroyed lockId creator past s l) :=
  inferInstanceAs (Decidable (OnePerRole lockId creator past l ∧
    ∀ p, l≠.call p (.destroy lockId)))

def NoDestroy (lockId : Int) (s : Sys P) : Prop :=
  ∀ p, s.pc p≠.destroyCheck lockId ∧ s.pc p≠.destroyClear lockId

structure Live (lockId : Int) (creator : P) (past : List (Label P)) (s : Sys P) : Prop where
  inRange : outOfRange lockId=false
  active : s.mem (activeAddr lockId)≠0
  noDestroy : NoDestroy lockId s
  made : Made lockId creator past s

variable {lockId : Int} {pc : Pc}

theorem next_not_destroy (h : pc≠.destroyCheck lockId) (h' : pc≠.destroyClear lockId)
    (v : Int) : pc.next v≠.destroyCheck lockId ∧ pc.next v≠.destroyClear lockId := by
  cases pc <;> grind [Pc.next]

theorem entry_not_destroy {c : Syscall} (h : c≠.destroy lockId) :
    c.entry≠.destroyCheck lockId ∧ c.entry≠.destroyClear lockId := by
  cases c <;> grind [Syscall.entry]

variable {l : Label P} {past : List (Label P)} {creator : P} {s t : Sys P}

theorem NoDestroy.next (h : NoDestroy lockId s) (hok : Undestroyed lockId creator past s l)
    (hstep : step s l=some t) : NoDestroy lockId t := by
  intro q
  by_cases hq : q=l.proc
  · subst hq
    cases l with
    | call p c =>
      obtain ⟨-,rfl⟩ := step_call.mp hstep
      simpa [Label.proc] using entry_not_destroy fun hc => hok.2 p (by rw [hc])
    | access p =>
      obtain ⟨a,-,rfl⟩ := step_access.mp hstep
      simpa [Label.proc] using next_not_destroy (h p).1 (h p).2 _
    | ret p c v =>
      obtain ⟨-,rfl⟩ := step_ret.mp hstep
      simp [Label.proc]
  · rw [step_pc_other hstep hq]
    exact h q

theorem Live.next (h : Live lockId creator past s) (hok : Undestroyed lockId creator past s l)
    (hstep : step s l=some t) : Live lockId creator (past++[l]) t where
  inRange := h.inRange
  active := h.made.active h.active (h.noDestroy l.proc).2 hstep
  noDestroy := h.noDestroy.next hok hstep
  made := h.made.next h.inRange h.active hok.1 hstep

theorem Live.run {ls : List (Label P)}
    (h : Live lockId creator past s) (hok : Along step (Undestroyed lockId creator) past s ls)
    (hrun : run step ls s=some t) : Live lockId creator (past++ls) t :=
  run_induction (fun _ _ _ _ hi hl hs => hi.next hl hs) h hok hrun

theorem Live.of_won (h : Won lockId creator s)
    (hnd : NoDestroy lockId s) : Live lockId creator [] s :=
  ⟨h.inRange,h.active,hnd,h.made⟩

variable {r : Bool} {p : P}

theorem Live.ready (h : Live lockId creator past s) (hp : stage lockId past p r≠.out) :
    Ready lockId past s := by
  rcases h.made with hc | hr
  · exact absurd (hc.unused p r) hp
  · exact hr

theorem Live.ready_of_inCall (h : Live lockId creator past s) (hp : InCall lockId r (s.pc p)) :
    Ready lockId past s := by
  refine h.made.ready (not_elsewhere hp) ?_
  generalize s.pc p=pc at hp
  cases hp <;> simp [Initialised]

/-- No two processes have returned 0 from acquire on the lock, one in each role,
with neither having called release since. -/
theorem petersonlock_mutual_exclusion {lockId : Int} {creator : P} {s t : Sys P}
    {ls : List (Label P)} (hwon : Won lockId creator s) (hnd : NoDestroy lockId s)
    (huse : Along step (Undestroyed lockId creator) [] s ls) (hrun : run step ls s=some t)
    (p q : P) : ¬ (stage lockId ls p false=.holding ∧ stage lockId ls q true=.holding) := by
  rintro ⟨hp,hq⟩
  have hlive := (Live.of_won hwon hnd).run huse hrun
  have hready := hlive.ready (p := p) (r := false) (by simp [hp])
  have hpi : phases lockId ls t (p,false)=.inside := by simp [phases,hp,phase]
  have hqi : phases lockId ls t (q,true)=.inside := by simp [phases,hq,phase]
  have heq := hready.inv.exclusive (a := (p,false)) (b := (q,true)) hpi hqi
  simp at heq

def justWon : Sys Bool where
  mem a := if a=activeAddr 0 then 1 else 7
  pc p := if p then .user else .createFlag0 0

theorem justWon_won : Won 0 false justWon :=
  ⟨by decide,by decide,by decide,fun p hp => by simp [justWon,hp,Elsewhere]⟩

theorem justWon_noDestroy : NoDestroy 0 justWon := fun p => by cases p <;> decide

def oneHoldsOneWaits : List (Label Bool) :=
  [.access false, .access false, .access false, .ret false .create 0,
    .call false (.acquire 0 0), .access false, .access false, .call true (.acquire 0 1),
    .access true, .access true, .access false, .access true, .access false, .access false,
    .access true, .access true, .ret false (.acquire 0 0) 0]

theorem oneHoldsOneWaits_exclusive :
    stage 0 oneHoldsOneWaits false false=.holding ∧
    ¬ (stage 0 oneHoldsOneWaits false false=.holding ∧
      stage 0 oneHoldsOneWaits true true=.holding) := by
  have hrun : (run step oneHoldsOneWaits justWon).isSome=true := by decide
  exact ⟨by decide,petersonlock_mutual_exclusion justWon_won justWon_noDestroy (by decide)
    (Option.some_get hrun).symm false true⟩

/-- Past the store of the turn in `petersonlock_acquire`, and not returned yet. -/
def PastTurn (lockId : Int) (r : Bool) (pc : Pc) : Prop :=
  pc=.waitFlag lockId (bit r) ∨ pc=.waitTurn lockId (bit r) ∨
    pc=.ret (.acquire lockId (bit r)) 0

/-- In an acquire in role `!r`, and either the turn is not yet given away to
role `r` or it is and the loop has to be left. -/
def Behind (lockId : Int) (r : Bool) (m : Mem) (pc : Pc) : Prop :=
  pc=.acquireCheck lockId (bit !r) ∨ pc=.acquireFlag lockId (bit !r) ∨
    pc=.acquireTurn lockId (bit !r) ∨
    (m (turnAddr lockId)=bit r ∧
      (pc=.waitFlag lockId (bit !r) ∨ pc=.waitTurn lockId (bit !r)))

def Overtaken (lockId : Int) (r : Bool) (past : List (Label P)) (s : Sys P) : Prop :=
  ∀ q, stage lockId past q (!r)=.acquiring → Behind lockId r s.mem (s.pc q)

theorem PastTurn.inCall (h : PastTurn lockId r pc) : InCall lockId r pc := by
  rcases h with rfl | rfl | rfl
  · exact .waitFlag
  · exact .waitTurn
  · exact .acquired

theorem PastTurn.flag (h : PastTurn lockId r (s.pc p)) (hr : Ready lockId past s) :
    s.mem (flagAddr lockId (bit r))≠0 := by
  have hst := (hr.stage_of_inCall h.inCall).1
  have hph : (phases lockId past s (p,r)).flagged=true := by
    simp only [phases,hst,phase_stageOf]
    rcases h with h | h | h <;> simp [h,phaseOf,Phase.flagged]
  simpa [cellAt] using hr.inv.flag_set (p,r) hph

variable {a : Access}

theorem phases_inCall (hr : Ready lockId past s) (hpc : InCall lockId r (s.pc p))
    (ha : (s.pc p).access=some a) : phases lockId past s (p,r)≠.out := by
  have hst := (hr.stage_of_inCall hpc).1
  simp only [phases,hst,phase_stageOf]
  generalize s.pc p=pc at hpc ha
  cases hpc with
  | released => cases ha
  | _ => simp [phaseOf]

theorem phases_acquiring (hr : Ready lockId past s) (h : stage lockId past p r=.acquiring) :
    phases lockId past s (p,r)≠.out := by
  have hpc := hr.inCall_of_stage (p := p) (r := r) (by simp [h,Stage.Resting])
  have hst := (hr.stage_of_inCall hpc).1
  rw [h] at hst
  simp only [phases,h,phase]
  generalize s.pc p=pc at hpc hst
  cases hpc with
  | releaseCheck | releaseFlag | released => cases hst
  | _ => simp [phaseOf]

variable {m : Mem}

theorem behind_next (h : Behind lockId r m pc) (ha : pc.access=some a)
    (hact : m (activeAddr lockId)≠0) (hflag : m (flagAddr lockId (bit r))≠0) :
    Behind lockId r (a.perform m) (pc.next (a.value m)) := by
  rcases h with rfl | rfl | rfl | ⟨ht,rfl | rfl⟩ <;> cases ha
  · simp [Behind,Pc.next,Access.value,hact]
  · simp [Behind,Pc.next]
  · simp [Behind,Pc.next,Access.perform]
  · simp [Behind,Pc.next,Access.value,Access.perform,hflag,ht]
  · simp [Behind,Pc.next,Access.value,Access.perform,ht]

theorem behind_congr {m' : Mem} (h : Behind lockId r m pc)
    (ht : m' (turnAddr lockId)=m (turnAddr lockId)) : Behind lockId r m' pc := by
  simpa only [Behind,ht] using h

theorem pastTurn_next (h : PastTurn lockId r pc) (ha : pc.access=some a) :
    PastTurn lockId r (pc.next (a.value m)) ∧ a.perform m=m := by
  rcases h with rfl | rfl | rfl <;> cases ha
  · by_cases hv : m (flagAddr lockId (bit !r))=0 <;>
      simp [PastTurn,Pc.next,Access.value,Access.perform,hv]
  · by_cases hv : m (turnAddr lockId)=bit !r <;>
      simp [PastTurn,Pc.next,Access.value,Access.perform,hv]

theorem Overtaken.next (h : Overtaken lockId r past s) (hlive : Live lockId creator past s)
    (hp : PastTurn lockId r (s.pc p)) (hok : Undestroyed lockId creator past s l)
    (hstep : step s l=some t) : Overtaken lockId r (past++[l]) t := by
  have hready := hlive.ready_of_inCall hp.inCall
  intro q hq
  cases l with
  | call p0 c =>
    obtain ⟨hu,rfl⟩ := step_call.mp hstep
    by_cases hqp : q=p0
    · subst hqp
      have hrest := hready.resting (p := q) (by simp [hu,Elsewhere]) (!r)
      have hc : c=.acquire lockId (bit !r) := by
        by_contra hc
        rcases hrest with hst | hst <;> simp [Stage.after,hc,hst] at hq <;> split at hq <;>
          simp_all
      simp [hc,Syscall.entry,hlive.inRange,Behind]
    · have hst : stage lockId past q (!r)=.acquiring := by
        simpa [Stage.after,Ne.symm hqp] using hq
      simpa [hqp] using h q hst
  | access p0 =>
    obtain ⟨a,ha,rfl⟩ := step_access.mp hstep
    have hst : stage lockId past q (!r)=.acquiring := by simpa [Stage.after] using hq
    by_cases hqp : q=p0
    · subst hqp
      simpa using behind_next (h q hst) ha hlive.active (hp.flag hready)
    · have hturn : a.perform s.mem (turnAddr lockId)=s.mem (turnAddr lockId) := by
        cases hready.tracks p0 with
        | calling r0 hpc =>
          have hne := phases_inCall hready hpc ha
          by_cases hr0 : r0=r
          · -- only the waiting process itself is in role r, and it only reads
            subst hr0
            have hpp : phases lockId past s (p,r0)≠.out := phases_acquiring hready (by
              rw [(hready.stage_of_inCall hp.inCall).1]
              rcases hp with hp | hp | hp <;> rw [hp] <;> rfl)
            obtain rfl := hready.same hpp hne
            rw [(pastTurn_next hp ha).2]
          · rw [Bool.eq_not.mpr hr0] at hne
            exact absurd (hready.same (phases_acquiring hready hst) hne) hqp
        | elsewhere hpc => exact perform_apply a s.mem (elsewhere_addr hpc ha).2
      simpa [hqp] using behind_congr (h q hst) hturn
  | ret p0 c v =>
    obtain ⟨hu,rfl⟩ := step_ret.mp hstep
    by_cases hqp : q=p0
    · subst hqp
      have hst : stage lockId past q (!r)=.acquiring := by
        simp only [stage_snoc,Stage.after] at hq
        split_ifs at hq
        simpa using hq
      have hb := h q hst
      simp [hu,Behind] at hb
    · have hst : stage lockId past q (!r)=.acquiring := by
        simpa [Stage.after,Ne.symm hqp] using hq
      simpa [hqp] using h q hst

theorem pastTurn_step (h : PastTurn lockId r (s.pc p)) (hstep : step s l=some t)
    (hl : ∀ v, l≠.ret p (.acquire lockId (bit r)) v) : PastTurn lockId r (t.pc p) := by
  by_cases hp : p=l.proc
  · subst hp
    cases l with
    | call p0 c =>
      obtain ⟨hu,-⟩ := step_call.mp hstep
      simp [Label.proc,hu,PastTurn] at h
    | access p0 =>
      obtain ⟨a,ha,rfl⟩ := step_access.mp hstep
      simpa [Label.proc] using (pastTurn_next h ha).1
    | ret p0 c v =>
      obtain ⟨hu,-⟩ := step_ret.mp hstep
      simp only [Label.proc,hu,PastTurn,reduceCtorEq,false_or,Pc.ret.injEq] at h
      exact absurd (by simp [Label.proc,h.1]) (hl v)
  · rwa [step_pc_other hstep hp]

def acquireReturn (lockId : Int) (r : Bool) : Label P → Bool
  | .ret _ c _ => c=.acquire lockId (bit r)
  | _ => false

variable {v : Int} {q : P}

theorem inCall_of_return (hready : Ready lockId past s) (hu : s.pc q=.ret (.acquire lockId (bit r)) v) :
    InCall lockId r (s.pc q) := by
  cases hready.tracks q with
  | calling r' hpc =>
    have hr : r'=r := by
      rw [hu] at hpc
      generalize hc : Pc.ret (.acquire lockId (bit r)) v=pc at hpc
      cases hpc <;> simp_all
    exact hr ▸ hpc
  | elsewhere hpc => simp [hu,Elsewhere] at hpc

theorem overtaken_of_return (hlive : Live lockId creator past s)
    (hstep : step s (.ret q (.acquire lockId (bit !r)) v)=some t) :
    Overtaken lockId r (past++[.ret q (.acquire lockId (bit !r)) v]) t := by
  obtain ⟨hu,rfl⟩ := step_ret.mp hstep
  intro q' hq'
  by_cases hqq : q'=q
  · subst hqq
    simp only [stage_snoc,Stage.after,and_self,if_true] at hq'
    split_ifs at hq'
  · have hst : stage lockId past q' (!r)=.acquiring := by
      simpa [Stage.after,Ne.symm hqq] using hq'
    have hready := hlive.ready (p := q') (r := !r) (by simp [hst])
    have hne : phases lockId past s (q,!r)≠.out := by
      simp only [phases,(hready.stage_of_inCall (inCall_of_return hready hu)).1,phase_stageOf,
        hu,phaseOf]
      simp
    exact absurd (hready.same (phases_acquiring hready hst) hne) hqq

theorem Overtaken.no_return (h : Overtaken lockId r past s) (hready : Ready lockId past s)
    (hstep : step s (.ret q (.acquire lockId (bit !r)) v)=some t) : False := by
  obtain ⟨hu,-⟩ := step_ret.mp hstep
  have hst := (hready.stage_of_inCall (inCall_of_return hready hu)).1
  have hb := h q (by rw [hst,hu]; rfl)
  simp [hu,Behind] at hb

omit [DecidableEq P] in
theorem acquireReturn_eq
    (h : acquireReturn lockId r l=true) : ∃ q v, l=.ret q (.acquire lockId (bit r)) v := by
  cases l with
  | ret q c v => exact ⟨q,v,by simpa [acquireReturn] using h⟩
  | call q c => cases h
  | access q => cases h

/-- While a process of role `r` stays past its turn store, role `!r` returns from
acquire at most once, and not at all once it is behind. -/
theorem bypass_run {mid : List (Label P)} (hlive : Live lockId creator past s)
    (hp : PastTurn lockId r (s.pc p))
    (huse : Along step (Undestroyed lockId creator) past s mid) (hrun : run step mid s=some t)
    (hcall : ∀ v, Label.ret p (.acquire lockId (bit r)) v∉mid) :
    mid.countP (acquireReturn lockId !r) ≤ 1 ∧
      (Overtaken lockId r past s → mid.countP (acquireReturn lockId !r)=0) := by
  induction mid generalizing past s with
  | nil => simp
  | cons l mid ih =>
    obtain ⟨u,hu,hls⟩ := run_cons.mp hrun
    have hpu := pastTurn_step hp hu fun v hv => hcall v (by simp [hv])
    obtain ⟨hone,hzero⟩ := ih (hlive.next huse.1 hu) hpu (huse.2 u hu) hls
      fun v hv => hcall v (List.mem_cons_of_mem l hv)
    by_cases hl : acquireReturn lockId (!r) l=true
    · obtain ⟨q,v,rfl⟩ := acquireReturn_eq hl
      have hz := hzero (overtaken_of_return hlive hu)
      refine ⟨by simp [hz,hl], fun ho => ?_⟩
      exact (ho.no_return (hlive.ready_of_inCall hp.inCall) hu).elim
    · simp only [List.countP_cons,hl]
      exact ⟨hone, fun ho => hzero (ho.next hlive hp huse.1 hu)⟩

/-- From the store `turn = 1-r` of a process in `petersonlock_acquire` on, until
that call returns, the other role returns from acquire at most once. -/
theorem petersonlock_bounded_bypass {lockId : Int} {creator p : P} {r : Bool}
    {pre mid : List (Label P)} {s u t : Sys P} (hwon : Won lockId creator s)
    (hnd : NoDestroy lockId s)
    (huse : Along step (Undestroyed lockId creator) [] s (pre++.access p :: mid))
    (hpre : run step pre s=some u) (hturn : u.pc p=.acquireTurn lockId (bit r))
    (hrun : run step (.access p :: mid) u=some t)
    (hcall : ∀ v, Label.ret p (.acquire lockId (bit r)) v∉mid) :
    mid.countP (acquireReturn lockId !r) ≤ 1 := by
  obtain ⟨huse1,huse2⟩ := along_append.mp huse
  have hlive := (Live.of_won hwon hnd).run huse1 hpre
  obtain ⟨w,hw,hmid⟩ := run_cons.mp hrun
  have hok := huse2 u hpre
  have hpw : PastTurn lockId r (w.pc p) := by
    obtain ⟨a,-,rfl⟩ := step_access.mp hw
    simp [hturn,Pc.next,PastTurn]
  exact (bypass_run (hlive.next hok.1 hw) hpw (hok.2 w hw) hmid hcall).1

def beforeTurn : Sys Bool := (run step (oneHoldsOneWaits.take 11) justWon).get (by decide)

theorem oneHoldsOneWaits_bypass :
    (oneHoldsOneWaits.drop 12).countP (acquireReturn 0 !true)=1 ∧
    (oneHoldsOneWaits.drop 12).countP (acquireReturn 0 !true) ≤ 1 := by
  have hpre : run step (oneHoldsOneWaits.take 11) justWon=some beforeTurn :=
    (Option.some_get (by decide)).symm
  have hrun : (run step (.access true :: oneHoldsOneWaits.drop 12) beforeTurn).isSome=true := by
    decide
  exact ⟨by decide,petersonlock_bounded_bypass (p := true) justWon_won justWon_noDestroy
    (by decide) hpre (by decide) (Option.some_get hrun).symm (by simp [oneHoldsOneWaits])⟩

end Xv6.PetersonExclusion
