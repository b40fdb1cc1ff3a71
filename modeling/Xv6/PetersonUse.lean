import Xv6.PetersonSim
import Mathlib.Data.Fintype.Basic

/-! One Peterson lock in use, from the `petersonlock_create` that makes it on. The kernel's steps on
the lock are simulated by the steps of one Peterson cell. -/
namespace Xv6.PetersonUse
open Function Xv6.Machine Xv6.PetersonLock Xv6.PetersonCell Xv6.PetersonSim
variable {P : Type*} [DecidableEq P]

/-- Where a process stands with the lock in one role: between a call of acquire
and its return, between that return and a call of release, between that call
and its return, or none of these. -/
inductive Stage where
  | out | acquiring | holding | releasing
  deriving DecidableEq

def Stage.after (lockId : Int) (p : P) (r : Bool) (st : Stage) : Label P → Stage
  | .call q c =>
      if q=p ∧ c=.acquire lockId (bit r) then .acquiring
      else if q=p ∧ c=.release lockId (bit r) then .releasing else st
  | .ret q c v =>
      if q=p ∧ c=.acquire lockId (bit r) then (if v=0 then .holding else .out)
      else if q=p ∧ c=.release lockId (bit r) then .out else st
  | .access _ => st

/-- The stage of process `p` in role `r`, read off the calls and returns so far. -/
def stage (lockId : Int) (past : List (Label P)) (p : P) (r : Bool) : Stage :=
  past.foldl (Stage.after lockId p r) .out

@[simp] theorem stage_snoc (lockId : Int) (past : List (Label P)) (l : Label P) (p : P) (r : Bool) :
    stage lockId (past++[l]) p r=(stage lockId past p r).after lockId p r l := by
  simp [stage]

/-- One process per role: a process calls acquire in a role no process is in,
and release in the role it holds the lock in. The lock is used once the create
call that made it has returned, and every role is 0 or 1. -/
def OnePerRole (lockId : Int) (creator : P) (past : List (Label P)) : Label P → Prop
  | .call _ (.acquire i role) => (∃ r, role=bit r) ∧ (i=lockId →
      Label.ret creator .create lockId∈past ∧
      ∀ q r, role=bit r → stage lockId past q r=.out)
  | .call p (.release i role) => (∃ r, role=bit r) ∧ (i=lockId →
      ∀ r, role=bit r → stage lockId past p r=.holding)
  | _ => True

instance OnePerRole.decidable [Fintype P] (lockId : Int) (creator : P) (past : List (Label P)) :
    ∀ l, Decidable (OnePerRole lockId creator past l)
  | .call _ (.acquire i role) => inferInstanceAs (Decidable ((∃ r, role=bit r) ∧ (i=lockId →
      Label.ret creator .create lockId∈past ∧
      ∀ q r, role=bit r → stage lockId past q r=.out)))
  | .call p (.release i role) => inferInstanceAs (Decidable ((∃ r, role=bit r) ∧ (i=lockId →
      ∀ r, role=bit r → stage lockId past p r=.holding)))
  | .call _ .create | .call _ (.destroy _) | .access _ | .ret _ _ _ =>
      inferInstanceAs (Decidable True)

/-- The program counters of a process that is not in an acquire or release of
the lock, nor in the create that initialises it. -/
def Elsewhere (lockId : Int) : Pc → Prop
  | .user | .createTas _ | .ret .create _ | .destroyCheck _ | .destroyClear _
  | .ret (.destroy _) _ => True
  | .createFlag0 i | .createFlag1 i | .createTurn i => i≠lockId
  | .acquireCheck i role | .acquireFlag i role | .acquireTurn i role | .waitFlag i role
  | .waitTurn i role | .releaseCheck i role | .releaseFlag i role
  | .ret (.acquire i role) _ | .ret (.release i role) _ => i≠lockId ∧ ∃ r, role=bit r

/-- Right after `creator` has won slot `lockId` with its test-and-set. The rest
of the table and the other processes are arbitrary. -/
structure Won (lockId : Int) (creator : P) (s : Sys P) : Prop where
  inRange : outOfRange lockId=false
  winner : s.pc creator=.createFlag0 lockId
  active : s.mem (activeAddr lockId)≠0
  others : ∀ p, p≠creator → Elsewhere lockId (s.pc p)

def Stage.Resting (st : Stage) : Prop := st=.out ∨ st=.holding

def stageOf : Pc → Stage
  | .releaseCheck _ _ | .releaseFlag _ _ | .ret (.release _ _) _ => .releasing
  | _ => .acquiring

inductive Tracks (lockId : Int) (pc : Pc) (st : Bool → Stage) : Prop
  | calling (r : Bool) (hpc : InCall lockId r pc) (hst : st r=stageOf pc)
      (hrest : (st !r).Resting)
  | elsewhere (hpc : Elsewhere lockId pc) (hst : ∀ r, (st r).Resting)

def phase (pc : Pc) : Stage → Phase
  | .out => .out
  | .holding => .inside
  | .acquiring | .releasing => phaseOf pc

def phases (lockId : Int) (past : List (Label P)) (s : Sys P) (a : P × Bool) : Phase :=
  phase (s.pc a.1) (stage lockId past a.1 a.2)

structure Ready (lockId : Int) (past : List (Label P)) (s : Sys P) : Prop where
  turn : TurnBit s.mem lockId
  tracks : ∀ p, Tracks lockId (s.pc p) (stage lockId past p)
  inv : Inv Prod.snd (cellAt s.mem lockId (phases lockId past s))

theorem phase_resting {st : Stage} (h : st.Resting) (pc pc' : Pc) : phase pc st=phase pc' st := by
  rcases h with rfl | rfl <;> rfl

theorem phase_stageOf (pc pc' : Pc) : phase pc' (stageOf pc)=phaseOf pc' := by
  cases pc <;> try rfl
  rename_i c v
  cases c <;> rfl

variable {r : Bool} {lockId : Int} {pc : Pc}

theorem not_elsewhere (h : InCall lockId r pc) : ¬ Elsewhere lockId pc := by
  cases h <;> simp [Elsewhere]

variable {a : Access} {m : Mem}

theorem elsewhere_next (h : Elsewhere lockId pc) (ha : pc.access=some a)
    (hact : m (activeAddr lockId)≠0) : Elsewhere lockId (pc.next (a.value m)) := by
  cases pc with
  | createTas i =>
    cases ha
    by_cases hi : m (activeAddr i)=0
    · have hne : i≠lockId := by
        rintro rfl
        exact hact hi
      simpa [Pc.next,Access.value,hi,Elsewhere] using hne
    · simp only [Pc.next,Access.value,hi,if_false]
      split_ifs <;> trivial
  | acquireCheck i role | waitFlag i role | waitTurn i role | releaseCheck i role
  | destroyCheck i =>
    simp only [Pc.next]
    split_ifs <;> exact h
  | createFlag0 i | createFlag1 i | acquireFlag i role | acquireTurn i role
  | releaseFlag i role | destroyClear i => exact h
  | createTurn i => trivial
  | user | ret c v => cases ha

theorem elsewhere_addr (h : Elsewhere lockId pc) (ha : pc.access=some a) :
    (∀ r, flagAddr lockId (bit r)≠a.addr) ∧ turnAddr lockId≠a.addr := by
  cases pc with
  | createFlag0 i =>
    cases ha
    have h' : lockId≠i := fun he => h he.symm
    exact ⟨fun r he => h' ((flagAddr_eq_flagAddr (r := false)).mp he).1,
      turnAddr_ne_flagAddr lockId i false⟩
  | createFlag1 i =>
    cases ha
    have h' : lockId≠i := fun he => h he.symm
    exact ⟨fun r he => h' ((flagAddr_eq_flagAddr (r := true)).mp he).1,
      turnAddr_ne_flagAddr lockId i true⟩
  | acquireCheck i role | acquireFlag i role | acquireTurn i role | waitFlag i role
  | waitTurn i role | releaseCheck i role | releaseFlag i role =>
    obtain ⟨hi,r',rfl⟩ := h
    cases ha
    simp [Access.addr,Ne.symm hi]
  | createTas i | createTurn i | destroyCheck i | destroyClear i =>
    cases ha
    simp_all [Access.addr,Elsewhere,eq_comm]
  | user | ret c v => cases ha

variable {past : List (Label P)} {p : P} {s : Sys P}

theorem inCall_role {r' : Bool} (h : InCall lockId r pc) (h' : InCall lockId r' pc) : r'=r := by
  generalize hpc : pc=pc' at h'
  cases h <;> cases h' <;> simp_all

theorem stageOf_next (h : InCall lockId r pc) (ha : pc.access=some a)
    (hact : m (activeAddr lockId)≠0) : stageOf (pc.next (a.value m))=stageOf pc := by
  have hn := inCall_next h ha hact
  cases h <;> cases ha <;> generalize Access.value m _ = v at hn ⊢ <;> simp only [Pc.next] at hn ⊢
    <;> first | rfl | (split_ifs <;> rfl)

variable {t : Sys P} {c : Syscall}

section Ready
variable (h : Ready lockId past s)
include h

theorem Ready.resting (hp : Elsewhere lockId (s.pc p)) (r : Bool) :
    (stage lockId past p r).Resting := by
  cases h.tracks p with
  | calling q hc => exact absurd hp (not_elsewhere hc)
  | elsewhere _ hr => exact hr r

theorem Ready.stage_of_inCall (hpc : InCall lockId r (s.pc p)) :
    stage lockId past p r=stageOf (s.pc p) ∧ (stage lockId past p !r).Resting := by
  cases h.tracks p with
  | calling r' hpc' hst hrest =>
    obtain rfl := inCall_role hpc hpc'
    exact ⟨hst,hrest⟩
  | elsewhere he => exact absurd he (not_elsewhere hpc)

theorem Ready.inCall_of_stage (hst : ¬ (stage lockId past p r).Resting) :
    InCall lockId r (s.pc p) := by
  cases h.tracks p with
  | calling r' hpc _ hrest =>
    by_cases hr : r=r'
    · exact hr ▸ hpc
    · exact absurd (Bool.eq_not.mpr hr ▸ hrest) hst
  | elsewhere _ hrest => exact absurd (hrest r) hst

theorem Ready.same {q : P} (hp : phases lockId past s (p,r)≠.out)
    (hq : phases lockId past s (q,r)≠.out) : p=q :=
  congrArg Prod.fst (h.inv.unique (p,r) (q,r) rfl hp hq)

theorem Ready.frame {past' : List (Label P)}
    (hpc : ∀ q, q≠p → t.pc q=s.pc q) (hs : Elsewhere lockId (s.pc p))
    (ht : Elsewhere lockId (t.pc p)) (hst : ∀ q r, stage lockId past' q r=stage lockId past q r)
    (hflag : ∀ r, t.mem (flagAddr lockId (bit r))=s.mem (flagAddr lockId (bit r)))
    (hturn : t.mem (turnAddr lockId)=s.mem (turnAddr lockId)) : Ready lockId past' t := by
  have hrest := h.resting hs
  have hphases : phases lockId past' t=phases lockId past s := by
    funext ⟨q,r⟩
    simp only [phases,hst]
    by_cases hq : q=p
    · subst hq
      exact phase_resting (hrest r) _ _
    · rw [hpc q hq]
  refine ⟨?_,?_,?_⟩
  · simpa only [TurnBit,hturn] using h.turn
  · intro q
    have hq' : stage lockId past' q=stage lockId past q := funext (hst q)
    rw [hq']
    by_cases hq : q=p
    · subst hq
      exact .elsewhere ht hrest
    · rw [hpc q hq]
      exact h.tracks q
  · rw [hphases,cellAt_congr _ hflag hturn]
    exact h.inv

theorem Ready.own {past' : List (Label P)} (hpc : ∀ q, q≠p → t.pc q=s.pc q)
    (hst : ∀ q q', ¬ (q=p ∧ q'=r) → stage lockId past' q q'=stage lockId past q q')
    (hrest : (stage lockId past p !r).Resting) (hturn : TurnBit t.mem lockId)
    (htr : Tracks lockId (t.pc p) (stage lockId past' p))
    (hinv : Inv Prod.snd (cellAt t.mem lockId (update (phases lockId past s) (p,r)
      (phase (t.pc p) (stage lockId past' p r))))) : Ready lockId past' t := by
  have hphases : phases lockId past' t =
      update (phases lockId past s) (p,r) (phase (t.pc p) (stage lockId past' p r)) := by
    funext ⟨q,q'⟩
    by_cases hq : q=p
    · subst hq
      by_cases hr : q'=r
      · simp [hr,phases]
      · have hq' : q' = !r := Bool.eq_not.mpr hr
        subst hq'
        have he := hst q (!r) (by simp)
        simpa [phases,he] using phase_resting hrest _ _
    · have he := hst q q' (by simp [hq])
      simp [phases,he,hpc q hq,hq]
  refine ⟨hturn,?_,?_⟩
  · intro q
    by_cases hq : q=p
    · subst hq
      exact htr
    · have hq' : stage lockId past' q=stage lockId past q :=
        funext fun q' => hst q q' (by simp [hq])
      rw [hpc q hq,hq']
      exact h.tracks q
  · rw [hphases]
    exact hinv

theorem Ready.call_acquire (hp : s.pc p=.user) (hfree : ∀ q, stage lockId past q r=.out) :
    Ready lockId (past++[.call p (.acquire lockId (bit r))])
      (s.setPc p (.acquireCheck lockId (bit r))) := by
  have hrest := h.resting (p := p) (by simp [hp,Elsewhere]) (!r)
  have hst : stage lockId (past++[.call p (.acquire lockId (bit r))]) p r=.acquiring := by
    simp [Stage.after]
  refine h.own (r := r) (fun q hq => by simp [hq]) ?_ hrest h.turn ?_ ?_
  · intro q q' hq
    simp only [stage_snoc,Stage.after,Syscall.acquire.injEq,bit_inj,true_and,
      reduceCtorEq,and_false,if_false]
    rw [if_neg (by simpa [eq_comm] using hq)]
  · refine .calling r (by simpa using InCall.acquireCheck) (by simpa [stageOf] using hst) ?_
    simpa [Stage.after] using hrest
  · rw [hst]
    have hout : phases lockId past s (p,r)=.out := by simp [phases,hfree,phase]
    simpa [phase,phaseOf,cellAt_update] using
      h.inv.step (.enter hout fun b hb => by
        simp only at hb
        simp [cellAt,phases,hb,hfree,phase])

theorem Ready.call_release (hp : s.pc p=.user) (hhold : stage lockId past p r=.holding) :
    Ready lockId (past++[.call p (.release lockId (bit r))])
      (s.setPc p (.releaseCheck lockId (bit r))) := by
  have hrest := h.resting (p := p) (by simp [hp,Elsewhere]) (!r)
  have hst : stage lockId (past++[.call p (.release lockId (bit r))]) p r=.releasing := by
    simp [Stage.after]
  refine h.own (r := r) (fun q hq => by simp [hq]) ?_ hrest h.turn ?_ ?_
  · intro q q' hq
    simp only [stage_snoc,Stage.after,Syscall.release.injEq,bit_inj,true_and,
      reduceCtorEq,and_false,if_false]
    rw [if_neg (by simpa [eq_comm] using hq)]
  · refine .calling r (by simpa using InCall.releaseCheck) (by simpa [stageOf] using hst) ?_
    simpa [Stage.after] using hrest
  · rw [hst]
    have hin : phases lockId past s (p,r)=.inside := by simp [phases,hhold,phase]
    simp only [Sys.setPc_pc,if_true,phase,phaseOf,Sys.setPc_mem,cellAt_update_self hin]
    exact h.inv

theorem Ready.access_own (hact : s.mem (activeAddr lockId)≠0)
    (hpc : InCall lockId r (s.pc p)) (ha : (s.pc p).access=some a)
    (hst : stage lockId past p r=stageOf (s.pc p)) (hrest : (stage lockId past p !r).Resting) :
    Ready lockId (past++[.access p])
      ((s.setMem (a.perform s.mem)).setPc p ((s.pc p).next (a.value s.mem))) := by
  have hst' : stage lockId (past++[.access p]) p r=stageOf (s.pc p) := by
    simpa [Stage.after] using hst
  refine h.own (r := r) (fun q hq => by simp [hq]) (fun q q' _ => by simp [Stage.after]) hrest
    (turnBit_access hpc ha h.turn) ?_ ?_
  · refine .calling r (by simpa using inCall_next hpc ha hact) ?_ (by simpa [Stage.after] using hrest)
    simpa [stageOf_next hpc ha hact] using hst'
  · rw [hst',phase_stageOf]
    simpa using inv_access (x := (p,r)) hpc ha hact h.turn
      (by simp [phases,hst,phase_stageOf]) h.inv

theorem Ready.ret_own {v : Int} (hpc : s.pc p=.ret c v)
    (hin : InCall lockId r (.ret c v)) (hst : stage lockId past p r=stageOf (.ret c v))
    (hrest : (stage lockId past p !r).Resting) :
    Ready lockId (past++[.ret p c v]) (s.setPc p .user) := by
  have hkeep : phase .user (stage lockId (past++[.ret p c v]) p r) =
      phases lockId past s (p,r) := by
    cases hin <;> simp [phases,hst,hpc,Stage.after,phase,stageOf,phaseOf]
  have hother : ∀ q q', ¬ (q=p ∧ q'=r) →
      stage lockId (past++[.ret p c v]) q q'=stage lockId past q q' := by
    intro q q' hq
    cases hin <;> grind [stage_snoc,Stage.after,bit_inj]
  refine h.own (r := r) (fun q hq => by simp [hq]) hother hrest h.turn ?_ ?_
  · refine .elsewhere (by simp [Elsewhere]) fun q' => ?_
    by_cases hq : q'=r
    · subst hq
      cases hin <;> simp [Stage.after,Stage.Resting]
    · rw [hother p q' (by simp [hq]),Bool.eq_not.mpr hq]
      exact hrest
  · simp only [Sys.setPc_pc,if_true,Sys.setPc_mem,hkeep,update_eq_self]
    exact h.inv

end Ready

def Foreign (lockId : Int) (c : Syscall) : Prop :=
  ∀ r, c≠.acquire lockId (bit r) ∧ c≠.release lockId (bit r)

theorem stage_call_foreign (hc : Foreign lockId c) (past : List (Label P)) (p q : P) (r : Bool) :
    stage lockId (past++[.call p c]) q r=stage lockId past q r := by
  simp [Stage.after,hc r]

theorem stage_ret_foreign (hc : Foreign lockId c) (past : List (Label P)) (p q : P) (v : Int)
    (r : Bool) : stage lockId (past++[.ret p c v]) q r=stage lockId past q r := by
  simp [Stage.after,hc r]

theorem foreign_of_elsewhere_ret {v : Int}
    (h : Elsewhere lockId (.ret c v)) : Foreign lockId c := by
  cases c <;> simp_all [Elsewhere,Foreign]

variable {creator : P}

theorem OnePerRole.call_cases (h : OnePerRole lockId creator past (.call p c)) :
    (Foreign lockId c ∧ Elsewhere lockId c.entry) ∨
    (∃ r, c=.acquire lockId (bit r) ∧ Label.ret creator .create lockId∈past ∧
      ∀ q, stage lockId past q r=.out) ∨
    ∃ r, c=.release lockId (bit r) ∧ stage lockId past p r=.holding := by
  cases c with
  | create => exact Or.inl ⟨by simp [Foreign],trivial⟩
  | destroy i =>
    refine Or.inl ⟨by simp [Foreign],?_⟩
    simp only [Syscall.entry]
    split <;> trivial
  | acquire i role =>
    obtain ⟨⟨r,rfl⟩,hfree⟩ := h
    by_cases hi : i=lockId
    · subst hi
      exact Or.inr (Or.inl ⟨r,rfl,(hfree rfl).1,fun q => (hfree rfl).2 q r rfl⟩)
    · refine Or.inl ⟨by simp [Foreign,hi],?_⟩
      simp only [Syscall.entry]
      split <;> exact ⟨hi,r,rfl⟩
  | release i role =>
    obtain ⟨⟨r,rfl⟩,hhold⟩ := h
    by_cases hi : i=lockId
    · subst hi
      exact Or.inr (Or.inr ⟨r,rfl,hhold rfl r rfl⟩)
    · refine Or.inl ⟨by simp [Foreign,hi],?_⟩
      simp only [Syscall.entry]
      split <;> exact ⟨hi,r,rfl⟩

variable {l : Label P}

theorem Ready.next (h : Ready lockId past s) (hin : outOfRange lockId=false)
    (hact : s.mem (activeAddr lockId)≠0) (huse : OnePerRole lockId creator past l)
    (hstep : step s l=some t) : Ready lockId (past++[l]) t := by
  cases l with
  | call p c =>
    obtain ⟨hp,rfl⟩ := step_call.mp hstep
    obtain ⟨hfor,hent⟩ | ⟨r,rfl,-,hfree⟩ | ⟨r,rfl,hhold⟩ := huse.call_cases
    · exact h.frame (p := p) (fun q hq => by simp [hq]) (by simp [hp,Elsewhere])
        (by simpa using hent) (fun q r => stage_call_foreign hfor past p q r)
        (fun r => rfl) rfl
    · simpa [Syscall.entry,hin] using h.call_acquire hp hfree
    · simpa [Syscall.entry,hin] using h.call_release hp hhold
  | access p =>
    obtain ⟨a,ha,rfl⟩ := step_access.mp hstep
    cases h.tracks p with
    | calling r hpc hst hrest => exact h.access_own hact hpc ha hst hrest
    | elsewhere hpc hrest =>
      obtain ⟨hflag,hturn⟩ := elsewhere_addr hpc ha
      exact h.frame (p := p) (fun q hq => by simp [hq]) hpc
        (by simpa using elsewhere_next hpc ha hact) (fun q r => by simp [Stage.after])
        (fun r => perform_apply a s.mem (hflag r)) (perform_apply a s.mem hturn)
  | ret p c v =>
    obtain ⟨hp,rfl⟩ := step_ret.mp hstep
    cases h.tracks p with
    | calling r hpc hst hrest =>
      rw [hp] at hpc hst
      exact h.ret_own hp hpc hst hrest
    | elsewhere hpc hrest =>
      have hfor := foreign_of_elsewhere_ret (hp ▸ hpc)
      exact h.frame (p := p) (fun q hq => by simp [hq]) hpc (by simp [Elsewhere])
        (fun q r => stage_ret_foreign hfor past p q v r) (fun r => rfl) rfl

def Initialised (lockId : Int) (m : Mem) : Pc → Prop
  | .createFlag0 i => i=lockId
  | .createFlag1 i => i=lockId ∧ m (flagAddr lockId 0)=0
  | .createTurn i => i=lockId ∧ m (flagAddr lockId 0)=0 ∧ m (flagAddr lockId 1)=0
  | .ret .create i => i=lockId ∧ m (flagAddr lockId 0)=0 ∧ m (flagAddr lockId 1)=0 ∧
      m (turnAddr lockId)=0
  | _ => False

structure Creating (lockId : Int) (creator : P) (past : List (Label P)) (s : Sys P) : Prop where
  unreturned : Label.ret creator .create lockId∉past
  unused : ∀ p r, stage lockId past p r=.out
  others : ∀ p, p≠creator → Elsewhere lockId (s.pc p)
  progress : Initialised lockId s.mem (s.pc creator)

theorem initialised_next (h : Initialised lockId m pc) (ha : pc.access=some a) :
    Initialised lockId (a.perform m) (pc.next (a.value m)) := by
  cases pc <;> cases ha <;>
    simp_all [Initialised,Pc.next,Access.perform,flagAddr,turnAddr,update_apply]

theorem initialised_congr {m' : Mem} (h : Initialised lockId m pc)
    (hf : ∀ r, m' (flagAddr lockId (bit r))=m (flagAddr lockId (bit r)))
    (ht : m' (turnAddr lockId)=m (turnAddr lockId)) : Initialised lockId m' pc := by
  have h0 := hf false
  have h1 := hf true
  simp only [bit] at h0 h1
  cases pc <;> simp_all [Initialised]

/-- The lock from the moment its slot is won: being initialised, or in use. -/
def Made (lockId : Int) (creator : P) (past : List (Label P)) (s : Sys P) : Prop :=
  Creating lockId creator past s ∨ Ready lockId past s

theorem Won.made (h : Won lockId creator s) : Made lockId creator [] s :=
  Or.inl ⟨by simp,fun _ _ => rfl,h.others,by simp [h.winner,Initialised]⟩

theorem Creating.opened {i : Int}
    (h : Creating lockId creator past s) (hp : s.pc creator=.ret .create i) :
    Ready lockId (past++[.ret creator .create i]) (s.setPc creator .user) := by
  have hinit := h.progress
  rw [hp] at hinit
  obtain ⟨-,hf0,hf1,ht⟩ := hinit
  have hst : ∀ q r, stage lockId (past++[.ret creator .create i]) q r=.out := by
    intro q r
    simp [Stage.after,h.unused]
  refine ⟨Or.inl ht,?_,Inv.of_idle ?_ ?_⟩
  · intro q
    refine .elsewhere ?_ fun r => Or.inl (hst q r)
    by_cases hq : q=creator
    · simp [hq,Elsewhere]
    · simpa [hq] using h.others q hq
  · rintro ⟨q,r⟩
    simp [cellAt,phases,hst,phase]
  · intro r
    cases r <;> simp [cellAt,bit,hf0,hf1]

theorem Creating.next (h : Creating lockId creator past s) (hact : s.mem (activeAddr lockId)≠0)
    (huse : OnePerRole lockId creator past l) (hstep : step s l=some t) :
    Made lockId creator (past++[l]) t := by
  cases l with
  | call p c =>
    obtain ⟨hp,rfl⟩ := step_call.mp hstep
    have hpc : p≠creator := by
      rintro rfl
      simpa [hp,Initialised] using h.progress
    obtain ⟨hfor,hent⟩ | ⟨r,rfl,hret,-⟩ | ⟨r,rfl,hhold⟩ := huse.call_cases
    · refine Or.inl ⟨by simpa using h.unreturned,?_,?_,?_⟩
      · intro q r
        rw [stage_call_foreign hfor]
        exact h.unused q r
      · intro q hq
        by_cases hqp : q=p
        · simpa [hqp] using hent
        · simpa [hqp] using h.others q hq
      · simpa [Ne.symm hpc] using h.progress
    · exact absurd hret h.unreturned
    · simp [h.unused] at hhold
  | access p =>
    obtain ⟨a,ha,rfl⟩ := step_access.mp hstep
    refine Or.inl ⟨by simpa using h.unreturned,fun q r => by simp [Stage.after,h.unused],?_,?_⟩
    · intro q hq
      by_cases hqp : q=p
      · subst hqp
        simpa using elsewhere_next (h.others q hq) ha hact
      · simpa [hqp] using h.others q hq
    · by_cases hpc : p=creator
      · subst hpc
        simpa using initialised_next h.progress ha
      · obtain ⟨hflag,hturn⟩ := elsewhere_addr (h.others p hpc) ha
        simpa [Ne.symm hpc] using initialised_congr h.progress
          (fun r => perform_apply a s.mem (hflag r)) (perform_apply a s.mem hturn)
  | ret p c v =>
    obtain ⟨hp,rfl⟩ := step_ret.mp hstep
    by_cases hpc : p=creator
    · subst hpc
      have hc : c=.create := by
        have hinit := h.progress
        cases c <;> simp_all [Initialised]
      subst hc
      exact Or.inr (h.opened hp)
    · have hfor := foreign_of_elsewhere_ret (hp ▸ h.others p hpc)
      refine Or.inl ⟨by simpa [Ne.symm hpc] using h.unreturned,?_,?_,?_⟩
      · intro q r
        rw [stage_ret_foreign hfor]
        exact h.unused q r
      · intro q hq
        by_cases hqp : q=p
        · simp [hqp,Elsewhere]
        · simpa [hqp] using h.others q hq
      · simpa [Ne.symm hpc] using h.progress

theorem Made.next (h : Made lockId creator past s) (hin : outOfRange lockId=false)
    (hact : s.mem (activeAddr lockId)≠0) (huse : OnePerRole lockId creator past l)
    (hstep : step s l=some t) : Made lockId creator (past++[l]) t := by
  rcases h with h | h
  · exact h.next hact huse hstep
  · exact Or.inr (h.next hin hact huse hstep)

theorem Made.ready (h : Made lockId creator past s) (hp : ¬ Elsewhere lockId (s.pc p))
    (hinit : ¬ Initialised lockId s.mem (s.pc p)) : Ready lockId past s := by
  cases h with
  | inr hr => exact hr
  | inl hc =>
    by_cases hpc : p=creator
    · exact absurd (hpc ▸ hc.progress) hinit
    · exact absurd (hc.others p hpc) hp

theorem elsewhere_active
    (h : Elsewhere lockId pc) (ha : pc.access=some a) (hact : m (activeAddr lockId)≠0)
    (hclear : pc≠.destroyClear lockId) : a.perform m (activeAddr lockId)≠0 := by
  cases pc with
  | createTas i =>
    cases ha
    by_cases hi : lockId=i <;> simp [Access.perform,hi,hact]
  | destroyClear i =>
    cases ha
    have hi : lockId≠i := fun he => hclear (by rw [he])
    simpa [Access.perform,hi] using hact
  | createFlag0 i =>
    cases ha
    rwa [perform_apply _ m (show activeAddr lockId≠flagAddr i 0 from
      activeAddr_ne_flagAddr lockId i false)]
  | createFlag1 i =>
    cases ha
    rwa [perform_apply _ m (show activeAddr lockId≠flagAddr i 1 from
      activeAddr_ne_flagAddr lockId i true)]
  | acquireCheck i role | acquireFlag i role | acquireTurn i role | waitFlag i role
  | waitTurn i role | releaseCheck i role | releaseFlag i role =>
    obtain ⟨-,r,rfl⟩ := h
    cases ha
    simpa [Access.perform] using hact
  | createTurn i | destroyCheck i =>
    cases ha
    simpa [Access.perform] using hact
  | user | ret c v => cases ha

theorem inCall_active (h : InCall lockId r pc) (ha : pc.access=some a) (i : Int) :
    a.perform m (activeAddr i)=m (activeAddr i) := by
  cases h <;> cases ha <;> simp [Access.perform]

theorem initialised_active (h : Initialised lockId m pc) (ha : pc.access=some a) :
    a.perform m (activeAddr lockId)=m (activeAddr lockId) := by
  apply perform_apply
  cases pc with
  | createFlag0 i =>
    cases ha
    exact activeAddr_ne_flagAddr lockId i false
  | createFlag1 i =>
    cases ha
    exact activeAddr_ne_flagAddr lockId i true
  | createTurn i =>
    cases ha
    exact activeAddr_ne_turnAddr lockId i
  | ret c v => cases ha
  | _ => exact absurd h (by simp [Initialised])

theorem Made.active (h : Made lockId creator past s) (hact : s.mem (activeAddr lockId)≠0)
    (hclear : s.pc l.proc≠.destroyClear lockId) (hstep : step s l=some t) :
    t.mem (activeAddr lockId)≠0 := by
  cases l with
  | call p c =>
    obtain ⟨-,rfl⟩ := step_call.mp hstep
    exact hact
  | ret p c v =>
    obtain ⟨-,rfl⟩ := step_ret.mp hstep
    exact hact
  | access p =>
    obtain ⟨a,ha,rfl⟩ := step_access.mp hstep
    change a.perform s.mem (activeAddr lockId)≠0
    rcases h with h | h
    · by_cases hp : p=creator
      · subst hp
        rwa [initialised_active h.progress ha]
      · exact elsewhere_active (h.others p hp) ha hact hclear
    · cases h.tracks p with
      | calling r hpc => rwa [inCall_active hpc ha]
      | elsewhere hpc => exact elsewhere_active hpc ha hact hclear

end Xv6.PetersonUse
