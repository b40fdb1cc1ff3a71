import Xv6.PetersonExclusion

/-! A Peterson lock that is destroyed while processes use it: what becomes of those that are past the
test of the active field depends on when the destroy call clears it. -/
namespace Xv6.PetersonDestroy
open Function Xv6.Machine Xv6.PetersonLock Xv6.PetersonCell Xv6.PetersonSim Xv6.PetersonUse
open Xv6.PetersonExclusion
variable {P : Type*} [DecidableEq P]

/-- One process per role and one role per process; anybody may destroy the lock,
but its slot is not won again. -/
def Shared (lockId : Int) (creator : P) (past : List (Label P)) (s : Sys P) : Label P → Prop
  | .access p => s.pc p=.createTas lockId → s.mem (activeAddr lockId)≠0
  | .call p c => OnePerRole lockId creator past (.call p c) ∧
      ∀ r, c=.acquire lockId (bit r) → stage lockId past p (!r)=.out
  | .ret _ _ _ => True

instance Shared.decidable [Fintype P] (lockId : Int) (creator : P) (past : List (Label P))
    (s : Sys P) : ∀ l, Decidable (Shared lockId creator past s l)
  | .access p => inferInstanceAs
      (Decidable (s.pc p=.createTas lockId → s.mem (activeAddr lockId)≠0))
  | .call p c => inferInstanceAs (Decidable (OnePerRole lockId creator past (.call p c) ∧
      ∀ r, c=.acquire lockId (bit r) → stage lockId past p (!r)=.out))
  | .ret _ _ _ => inferInstanceAs (Decidable True)

def pastCheck (lockId : Int) : Pc → Bool
  | .acquireFlag i _ | .acquireTurn i _ | .waitFlag i _ | .waitTurn i _ => i == lockId
  | .ret (.acquire i _) v => i == lockId && v == 0
  | _ => false

def Quiet (lockId : Int) (s : Sys P) : Label P → Prop
  | .access p => s.pc p=.destroyClear lockId → ∀ q, pastCheck lockId (s.pc q)=false
  | _ => True

instance Quiet.decidable [Fintype P] (lockId : Int) (s : Sys P) :
    ∀ l, Decidable (Quiet lockId s l)
  | .access p => inferInstanceAs
      (Decidable (s.pc p=.destroyClear lockId → ∀ q, pastCheck lockId (s.pc q)=false))
  | .call _ _ | .ret _ _ _ => inferInstanceAs (Decidable True)

def OneRole (lockId : Int) (past : List (Label P)) : Prop :=
  ∀ p r, stage lockId past p r=.out ∨ stage lockId past p (!r)=.out

def DeadPc (lockId : Int) : Pc → Prop
  | .acquireFlag i role | .acquireTurn i role | .waitFlag i role | .waitTurn i role =>
      i≠lockId ∧ ∃ r, role=bit r
  | .ret (.acquire i _) v => i=lockId → v≠0
  | .releaseFlag _ role | .acquireCheck _ role | .releaseCheck _ role => ∃ r, role=bit r
  | _ => True

inductive Status (lockId : Int) (creator : P) (past : List (Label P)) (s : Sys P) : Prop
  | alive (hact : s.mem (activeAddr lockId)≠0) (hmade : Made lockId creator past s)
      (hone : OneRole lockId past)
  | dead (hact : s.mem (activeAddr lockId)=0) (hpc : ∀ p, DeadPc lockId (s.pc p))

variable {lockId : Int} {l : Label P} {past : List (Label P)} {creator : P} {s : Sys P}

theorem Shared.onePerRole (h : Shared lockId creator past s l) : OnePerRole lockId creator past l := by
  cases l with
  | call p c => exact h.1
  | access p => trivial
  | ret p c v => trivial

variable {pc : Pc}

theorem deadPc_of_elsewhere (h : Elsewhere lockId pc) : DeadPc lockId pc := by
  cases pc with
  | ret c v =>
    cases c with
    | acquire i role => exact fun he => absurd he h.1
    | create | release | destroy => trivial
  | acquireCheck i role | releaseCheck i role | releaseFlag i role => exact h.2
  | acquireFlag i role | acquireTurn i role | waitFlag i role | waitTurn i role => exact h
  | _ => trivial

variable {r : Bool}

theorem deadPc_of_inCall (h : InCall lockId r pc)
    (hq : pastCheck lockId pc=false) : DeadPc lockId pc := by
  cases h with
  | acquireCheck | releaseCheck | releaseFlag => exact ⟨r,rfl⟩
  | released => trivial
  | acquireFlag | acquireTurn | waitFlag | waitTurn | acquired => simp [pastCheck] at hq

variable {m : Mem}

theorem deadPc_of_initialised (h : Initialised lockId m pc) : DeadPc lockId pc := by
  cases pc with
  | ret c v =>
    cases c with
    | create => trivial
    | _ => exact h.elim
  | createFlag0 | createFlag1 | createTurn => trivial
  | _ => exact absurd h (by simp [Initialised])

theorem made_deadPc (h : Made lockId creator past s) (hq : ∀ q, pastCheck lockId (s.pc q)=false)
    (p : P) : DeadPc lockId (s.pc p) := by
  cases h with
  | inl hc =>
    by_cases hp : p=creator
    · rw [hp]
      exact deadPc_of_initialised hc.progress
    · exact deadPc_of_elsewhere (hc.others p hp)
  | inr hr =>
    cases hr.tracks p with
    | calling r hpc => exact deadPc_of_inCall hpc (hq p)
    | elsewhere hpc => exact deadPc_of_elsewhere hpc

theorem deadPc_next {a : Access} (h : DeadPc lockId pc) (ha : pc.access=some a)
    (hact : m (activeAddr lockId)=0) : DeadPc lockId (pc.next (a.value m)) := by
  cases pc with
  | acquireCheck i role =>
    cases ha
    by_cases hv : m (activeAddr i)=0
    · simp [Pc.next,Access.value,hv,DeadPc]
    · have hi : i≠lockId := by
        rintro rfl
        exact hv hact
      simpa [Pc.next,Access.value,hv,DeadPc,hi] using h
  | releaseCheck i role | waitFlag i role | waitTurn i role =>
    simp only [Pc.next]
    split_ifs <;> first | exact h | trivial | exact fun he => absurd he h.1
  | createTas i | destroyCheck i =>
    simp only [Pc.next]
    split_ifs <;> trivial
  | acquireFlag i role | acquireTurn i role => exact h
  | createFlag0 | createFlag1 | createTurn | releaseFlag | destroyClear => trivial
  | user | ret => cases ha

theorem deadPc_inactive {a : Access} (h : DeadPc lockId pc)
    (ha : pc.access=some a) (hact : m (activeAddr lockId)=0) (htas : pc≠.createTas lockId) :
    a.perform m (activeAddr lockId)=0 := by
  cases pc with
  | createTas i =>
    cases ha
    have hi : lockId≠i := fun he => htas (by rw [he])
    simpa [Access.perform,hi] using hact
  | destroyClear i =>
    cases ha
    by_cases hi : lockId=i <;> simp [Access.perform,hi,hact]
  | createFlag0 i =>
    cases ha
    rwa [perform_apply _ m (show activeAddr lockId≠flagAddr i 0 from
      activeAddr_ne_flagAddr lockId i false)]
  | createFlag1 i =>
    cases ha
    rwa [perform_apply _ m (show activeAddr lockId≠flagAddr i 1 from
      activeAddr_ne_flagAddr lockId i true)]
  | acquireFlag i role =>
    obtain ⟨-,r,rfl⟩ := h
    cases ha
    simpa [Access.perform] using hact
  | releaseFlag i role =>
    obtain ⟨r,rfl⟩ := h
    cases ha
    simpa [Access.perform] using hact
  | createTurn i | acquireTurn i =>
    cases ha
    simpa [Access.perform] using hact
  | acquireCheck | waitFlag | waitTurn | releaseCheck | destroyCheck =>
    cases ha
    exact hact
  | user | ret => cases ha

variable {p : P} {c : Syscall}

theorem deadPc_entry (h : OnePerRole lockId creator past (.call p c)) : DeadPc lockId c.entry := by
  cases c with
  | create => trivial
  | acquire i role =>
    simp only [Syscall.entry]
    split
    · simp [DeadPc]
    · exact h.1
  | release i role =>
    simp only [Syscall.entry]
    split
    · trivial
    · exact h.1
  | destroy i =>
    simp only [Syscall.entry]
    split <;> trivial

theorem inCall_ret_role {v : Int} {r' : Bool} (h : InCall lockId r' (.ret c v))
    (hc : c=.acquire lockId (bit r) ∨ c=.release lockId (bit r)) : r'=r := by
  generalize hpc : Pc.ret c v=pc at h
  cases h <;> cases hpc <;> simpa [eq_comm] using hc

theorem made_stage_of_ret {v : Int} (h : Made lockId creator past s) (hp : s.pc p=.ret c v)
    (hc : c=.acquire lockId (bit r) ∨ c=.release lockId (bit r)) :
    stage lockId past p r≠.out := by
  have hnot : ¬ Elsewhere lockId (s.pc p) := by
    rw [hp]
    obtain rfl | rfl := hc <;> simp [Elsewhere]
  cases h with
  | inl hcr =>
    by_cases hpc : p=creator
    · have hinit := hcr.progress
      rw [← hpc,hp] at hinit
      obtain rfl | rfl := hc <;> exact hinit.elim
    · exact absurd (hcr.others p hpc) hnot
  | inr hr =>
    cases hr.tracks p with
    | calling r' hin hst =>
      rw [hp] at hin hst
      obtain rfl := inCall_ret_role hin hc
      rw [hst]
      obtain rfl | rfl := hc <;> simp [stageOf]
    | elsewhere he => exact absurd he hnot

variable {t : Sys P}

theorem OneRole.next (h : OneRole lockId past) (hmade : Made lockId creator past s)
    (hok : Shared lockId creator past s l) (hstep : step s l=some t) :
    OneRole lockId (past++[l]) := by
  -- a step that moves `p` in role `r` only, while `p` is out in the other role
  have hmove : ∀ p r, (∀ q r', ¬ (q=p ∧ r'=r) →
      stage lockId (past++[l]) q r'=stage lockId past q r') →
      stage lockId past p (!r)=.out → OneRole lockId (past++[l]) := by
    intro p r hkeep hout q r'
    by_cases hq : q=p
    · subst hq
      have hother : stage lockId (past++[l]) q (!r)=.out := by
        rw [hkeep q (!r) (by simp),hout]
      by_cases hr : r'=r
      · exact .inr (hr ▸ hother)
      · exact .inl (Bool.eq_not.mpr hr ▸ hother)
    · rw [hkeep q r' (by simp [hq]),hkeep q (!r') (by simp [hq])]
      exact h q r'
  cases l with
  | access p => simpa [OneRole,Stage.after] using h
  | call p c =>
    obtain ⟨hfor,-⟩ | ⟨r,rfl,-,-⟩ | ⟨r,rfl,hhold⟩ := hok.1.call_cases
    · intro q r
      rw [stage_call_foreign hfor,stage_call_foreign hfor]
      exact h q r
    · refine hmove p r (fun q r' hq => ?_) (hok.2 r rfl)
      simp only [stage_snoc,Stage.after]
      grind [bit_inj]
    · refine hmove p r (fun q r' hq => ?_) ((h p r).resolve_left (by simp [hhold]))
      simp only [stage_snoc,Stage.after]
      grind [bit_inj]
  | ret p c v =>
    obtain ⟨hp,-⟩ := step_ret.mp hstep
    by_cases hfor : Foreign lockId c
    · intro q r
      rw [stage_ret_foreign hfor,stage_ret_foreign hfor]
      exact h q r
    · obtain ⟨r,hr⟩ : ∃ r, c=.acquire lockId (bit r) ∨ c=.release lockId (bit r) := by
        by_contra hcon
        push Not at hcon
        exact hfor hcon
      refine hmove p r (fun q r' hq => ?_) ((h p r).resolve_left (made_stage_of_ret hmade hp hr))
      simp only [stage_snoc,Stage.after]
      grind [bit_inj]

theorem Status.destroyed (hmade : Made lockId creator past s) (hq : Quiet lockId s (.access p))
    (hp : s.pc p=.destroyClear lockId) (hstep : step s (.access p)=some t) :
    Status lockId creator (past++[.access p]) t := by
  obtain ⟨a,ha,rfl⟩ := step_access.mp hstep
  rw [hp] at ha ⊢
  cases ha
  refine .dead (by simp [Access.perform]) fun q => ?_
  by_cases hqp : q=p
  · simp [hqp,Pc.next,DeadPc]
  · simpa [hqp] using made_deadPc hmade (hq hp) q

theorem Status.dead_next (hact : s.mem (activeAddr lockId)=0) (hpc : ∀ p, DeadPc lockId (s.pc p))
    (hok : Shared lockId creator past s l) (hstep : step s l=some t) :
    Status lockId creator (past++[l]) t := by
  cases l with
  | call p c =>
    obtain ⟨-,rfl⟩ := step_call.mp hstep
    refine .dead hact fun q => ?_
    by_cases hq : q=p
    · simpa [hq] using deadPc_entry hok.1
    · simpa [hq] using hpc q
  | access p =>
    obtain ⟨a,ha,rfl⟩ := step_access.mp hstep
    have htas : s.pc p≠.createTas lockId := fun he => hok he hact
    refine .dead (deadPc_inactive (hpc p) ha hact htas) fun q => ?_
    by_cases hq : q=p
    · simpa [hq] using deadPc_next (hpc p) ha hact
    · simpa [hq] using hpc q
  | ret p c v =>
    obtain ⟨-,rfl⟩ := step_ret.mp hstep
    refine .dead hact fun q => ?_
    by_cases hq : q=p
    · simp [hq,DeadPc]
    · simpa [hq] using hpc q

theorem Status.next (h : Status lockId creator past s) (hin : outOfRange lockId=false)
    (hok : Shared lockId creator past s l) (hq : Quiet lockId s l) (hstep : step s l=some t) :
    Status lockId creator (past++[l]) t := by
  cases h with
  | dead hact hpc => exact .dead_next hact hpc hok hstep
  | alive hact hmade hone =>
    by_cases hclear : s.pc l.proc=.destroyClear lockId
    · cases l with
      | access p => exact .destroyed hmade hq hclear hstep
      | call p c => exact absurd (step_call.mp hstep).1 (by rw [Label.proc] at hclear; simp [hclear])
      | ret p c v => exact absurd (step_ret.mp hstep).1 (by rw [Label.proc] at hclear; simp [hclear])
    · exact .alive (hmade.active hact hclear hstep)
        (hmade.next hin hact hok.onePerRole hstep) (hone.next hmade hok hstep)

theorem ready_blocker {role : Int} (h : Ready lockId past s) (hone : OneRole lockId past)
    (hp : GuardHolds s p lockId role) : ∃ q r, q≠p ∧ stage lockId past q r≠.out := by
  obtain ⟨hwait,hflag,-⟩ := hp
  have hnot : ¬ Elsewhere lockId (s.pc p) := by
    obtain hw | hw := hwait <;> simp [hw,Elsewhere]
  cases h.tracks p with
  | elsewhere he => exact absurd he hnot
  | calling r hin hst =>
    have hrole : role=bit r := by
      obtain hw | hw := hwait <;> rw [hw] at hin <;> cases hin <;> rfl
    have hown : stage lockId past p r≠.out := by
      rw [hst]
      obtain hw | hw := hwait <;> simp [hw,stageOf]
    rw [hrole,other_bit] at hflag
    obtain ⟨⟨q,r'⟩,hr',hup⟩ := h.inv.flag_owner (!r) (by simp [cellAt,hflag])
    obtain rfl : r' = !r := hr'
    have hq : stage lockId past q (!r)≠.out := by
      intro hout
      simp [cellAt,phases,hout,phase,Phase.flagged] at hup
    refine ⟨q,!r,?_,hq⟩
    rintro rfl
    obtain ho | ho := hone q r
    · exact hown ho
    · exact hq ho

/-- As long as every destroy clears the lock while no process is between the test of its acquire call
and the return, a process that is blocked has another process in the lock, and no acquire returns
0 once the lock is destroyed. -/
theorem destroy_quiet_safe {lockId : Int} {creator : P} {s t : Sys P} {ls : List (Label P)}
    (hwon : Won lockId creator s)
    (huse : Along step (fun past u l => Shared lockId creator past u l ∧ Quiet lockId u l) [] s ls)
    (hrun : run step ls s=some t) :
    (∀ p role, GuardHolds t p lockId role → ∃ q r, q≠p ∧ stage lockId ls q r≠.out) ∧
    (t.mem (activeAddr lockId)=0 → ∀ p role, t.pc p≠.ret (.acquire lockId role) 0) := by
  have h0 : Status lockId creator [] s := .alive hwon.active hwon.made fun _ _ => .inl rfl
  have hst : Status lockId creator ls t := run_induction
    (fun _ _ _ _ hi hl hs => hi.next hwon.inRange hl.1 hl.2 hs) h0 huse hrun
  cases hst with
  | alive hact hmade hone =>
    refine ⟨fun p role hp => ?_,fun hdead => absurd hdead hact⟩
    refine ready_blocker (hmade.ready (p := p) ?_ ?_) hone hp
    · obtain hw | hw := hp.1 <;> simp [hw,Elsewhere]
    · obtain hw | hw := hp.1 <;> simp [hw,Initialised]
  | dead hact hpc =>
    refine ⟨fun p role hp => ?_,fun _ p role he => ?_⟩
    · have hd := hpc p
      obtain hw | hw := hp.1 <;> exact absurd rfl (hw ▸ hd).1
    · have hd := hpc p
      rw [he] at hd
      exact hd rfl rfl

def destroyedAfterUse : List (Label Bool) :=
  oneHoldsOneWaits++[.call false (.release 0 0), .access false, .access false,
    .ret false (.release 0 0) 0, .access true, .ret true (.acquire 0 1) 0,
    .call true (.release 0 1), .access true, .access true, .ret true (.release 0 1) 0,
    .call false (.destroy 0), .access false, .access false, .ret false (.destroy 0) 0,
    .call true (.acquire 0 1), .access true]

def afterUse : Sys Bool := (run step destroyedAfterUse justWon).get (by decide +kernel)

theorem destroyedAfterUse_safe : afterUse.mem (activeAddr 0)=0 ∧
    afterUse.pc true≠.ret (.acquire 0 1) 0 :=
  have hdead : afterUse.mem (activeAddr 0)=0 := by decide +kernel
  have hrun : run step destroyedAfterUse justWon=some afterUse := (Option.some_get _).symm
  have huse : Along step (fun past u l => Shared 0 false past u l ∧ Quiet 0 u l) [] justWon
      destroyedAfterUse := by decide +kernel
  ⟨hdead,(destroy_quiet_safe justWon_won huse hrun).2 hdead true 1⟩

/-- The creation of lock 0, an acquire in role 1 up to the test, a destroy, and the
rest of the acquire. -/
def destroyedUnderAcquire : List (Label Bool) :=
  [.access false, .access false, .access false, .ret false .create 0,
    .call true (.acquire 0 1), .access true,
    .call false (.destroy 0), .access false, .access false, .ret false (.destroy 0) 0,
    .access true, .access true, .access true]

def misled : Sys Bool := (run step destroyedUnderAcquire justWon).get (by decide +kernel)

/-- The holder in role 0 destroys the lock while role 1 waits, and its release
then fails without lowering the flag. -/
def destroyedByHolder : List (Label Bool) :=
  oneHoldsOneWaits++[.call false (.destroy 0), .access false, .access false,
    .ret false (.destroy 0) 0, .call false (.release 0 0), .access false,
    .ret false (.release 0 0) (-1)]

def stranded : Sys Bool := (run step destroyedByHolder justWon).get (by decide +kernel)

theorem destroy_misleads_and_strands :
    (Along step (Shared 0 false) [] justWon destroyedUnderAcquire ∧
      run step destroyedUnderAcquire justWon=some misled ∧
      misled.mem (activeAddr 0)=0 ∧ misled.pc true=.ret (.acquire 0 1) 0) ∧
    (Along step (Shared 0 false) [] justWon destroyedByHolder ∧
      run step destroyedByHolder justWon=some stranded ∧
      GuardHolds stranded true 0 1 ∧ ∀ r, stage 0 destroyedByHolder false r=.out) :=
  ⟨⟨by decide +kernel,(Option.some_get _).symm,by decide +kernel,by decide +kernel⟩,
    ⟨by decide +kernel,(Option.some_get _).symm,
      ⟨by decide +kernel,by decide +kernel,by decide +kernel⟩,by decide +kernel⟩⟩

end Xv6.PetersonDestroy
