import Xv6.PetersonLock

/-! Which memory a call of `peterson_acquire` or `peterson_release` touches.
`lock_id` is tested against the table, `role` is an index nobody tests. -/
namespace Xv6.PetersonConfinement
open Function Xv6.Machine Xv6.PetersonLock
variable {P : Type*} [DecidableEq P]

def OwnField (lockId addr : Int) : Prop :=
  addr=flagAddr lockId 0 ∨ addr=flagAddr lockId 1 ∨ addr=turnAddr lockId

/-- The program counters a call of `petersonlock_acquire` goes through after
its validity test. -/
def InAcquire (lockId role : Int) (pc : Pc) : Prop :=
  pc=.acquireFlag lockId role ∨ pc=.acquireTurn lockId role ∨ pc=.waitFlag lockId role ∨
    pc=.waitTurn lockId role ∨ pc=.ret (.acquire lockId role) 0

def InRelease (lockId role : Int) (pc : Pc) : Prop :=
  pc=.releaseFlag lockId role ∨ pc=.ret (.release lockId role) 0

/-- Process `p` is about to test `active` of entry `lockId` in the call `c`. Every later access of the
call is to a field of its entry, and it returns -1 only by that test, which changes nothing. -/
structure Confined (c : Syscall) (lockId : Int) (p : P) (s : Sys P) : Prop where
  own : ∀ ls t, run step (.access p :: ls) s=some t → (∀ v, Label.ret p c v∉ls) →
    ∀ a, (t.pc p).access=some a → OwnField lockId a.addr
  fails : ∀ ls t, run step (.access p :: ls) s=some t → (∀ v, Label.ret p c v∉ls) →
    t.pc p=.ret c (-1) →
    ∃ u, step s (.access p)=some u ∧ u.pc p=.ret c (-1) ∧ u.mem=s.mem

variable {p : P} {s : Sys P} {c : Syscall}

theorem pc_closed_run {I : Pc → Prop} {ls : List (Label P)} {t : Sys P}
    (hI : ∀ pc a v, I pc → pc.access=some a → I (pc.next v)) (huser : ¬ I .user)
    (hret : ∀ c' v, I (.ret c' v) → c'=c) (h0 : I (s.pc p)) (hrun : run step ls s=some t)
    (hls : ∀ v, Label.ret p c v∉ls) : I (t.pc p) := by
  induction ls generalizing s with
  | nil =>
    cases hrun
    exact h0
  | cons l ls ih =>
    obtain ⟨u,hu,hr⟩ := run_cons.mp hrun
    refine ih ?_ hr fun v hv => hls v (List.mem_cons_of_mem l hv)
    by_cases hp : p=l.proc
    · subst hp
      cases l with
      | call q c' =>
        simp only [Label.proc] at h0
        rw [(step_call.mp hu).1] at h0
        exact absurd h0 huser
      | access q =>
        obtain ⟨a,ha,rfl⟩ := step_access.mp hu
        simpa [Label.proc] using hI _ a _ h0 ha
      | ret q c' v =>
        simp only [Label.proc] at h0 hls
        rw [(step_ret.mp hu).1] at h0
        exact absurd (by simp [hret c' v h0]) (hls v)
    · rw [step_pc_other hu hp]
      exact h0

variable {lockId : Int}

theorem confined_of_out_of_range (h : s.pc p=.ret c (-1)) : Confined c lockId p s := by
  have hnone : step s (.access p)=none := by simp [step,h,Pc.access]
  constructor <;> intro ls t hrun <;> simp [run,hnone] at hrun

theorem confined_of_inactive (ha : (s.pc p).access=some (.load (activeAddr lockId)))
    (hn : (s.pc p).next (s.mem (activeAddr lockId))=.ret c (-1)) : Confined c lockId p s := by
  have hstep : step s (.access p)=some (s.setPc p (.ret c (-1))) := by
    simp [step,ha,Access.perform,Access.value,hn,Sys.setMem]
  have hstay : ∀ ls t, run step (.access p :: ls) s=some t → (∀ v, Label.ret p c v∉ls) →
      t.pc p=.ret c (-1) := by
    intro ls t hrun hls
    obtain ⟨u,hu,hr⟩ := run_cons.mp hrun
    rw [hstep,Option.some.injEq] at hu
    subst hu
    exact pc_closed_run (I := (· = .ret c (-1))) (by rintro pc a v rfl hpc; simp [Pc.access] at hpc)
      (by simp) (by simp_all) (by simp) hr hls
  refine ⟨fun ls t hrun hls a hpc => ?_, fun _ _ _ _ _ => ⟨_,hstep,by simp,rfl⟩⟩
  rw [hstay ls t hrun hls] at hpc
  simp [Pc.access] at hpc

theorem confined_of_closed {I : Pc → Prop}
    (ha : (s.pc p).access=some (.load (activeAddr lockId)))
    (h0 : I ((s.pc p).next (s.mem (activeAddr lockId))))
    (hI : ∀ pc a v, I pc → pc.access=some a → I (pc.next v))
    (huser : ¬ I .user) (hret : ∀ c' v, I (.ret c' v) → c'=c ∧ v ≠ -1)
    (hown : ∀ pc a, I pc → pc.access=some a → OwnField lockId a.addr) :
    Confined c lockId p s := by
  have hstay : ∀ ls t, run step (.access p :: ls) s=some t → (∀ v, Label.ret p c v∉ls) →
      I (t.pc p) := by
    intro ls t hrun hls
    obtain ⟨u,hu,hr⟩ := run_cons.mp hrun
    obtain ⟨a,ha',rfl⟩ := step_access.mp hu
    rw [ha,Option.some.injEq] at ha'
    subst ha'
    refine pc_closed_run hI huser (fun c' v h => (hret c' v h).1) ?_ hr hls
    simpa [Access.value] using h0
  refine ⟨fun ls t hrun hls a => hown _ a (hstay ls t hrun hls), ?_⟩
  intro ls t hrun hls hpc
  have h := hstay ls t hrun hls
  rw [hpc] at h
  exact absurd rfl (hret _ _ h).2

variable {role : Int}

theorem ownField_flag : OwnField lockId (flagAddr lockId role) ↔ role=0 ∨ role=1 ∨ role=2 := by
  simp only [OwnField,flagAddr,turnAddr]
  omega

theorem inAcquire_next (pc : Pc) (a : Access) (v : Int) (h : InAcquire lockId role pc)
    (ha : pc.access=some a) : InAcquire lockId role (pc.next v) := by
  rcases h with rfl | rfl | rfl | rfl | rfl
  · simp [InAcquire,Pc.next]
  · simp [InAcquire,Pc.next]
  · by_cases hv : v=0 <;> simp [InAcquire,Pc.next,hv]
  · by_cases hv : v=other role <;> simp [InAcquire,Pc.next,hv]
  · simp [Pc.access] at ha

theorem inAcquire_own (hrole : role=0 ∨ role=1) (pc : Pc) (a : Access)
    (h : InAcquire lockId role pc) (ha : pc.access=some a) : OwnField lockId a.addr := by
  have hflag : OwnField lockId (flagAddr lockId role) := ownField_flag.mpr (by omega)
  have hother : OwnField lockId (flagAddr lockId (other role)) := by
    rcases hrole with rfl | rfl <;> simp [OwnField]
  have hturn : OwnField lockId (turnAddr lockId) := Or.inr (Or.inr rfl)
  rcases h with rfl | rfl | rfl | rfl | rfl <;> cases ha <;> assumption

/-- `petersonlock_acquire` keeps to its entry exactly when the call is refused
or `role` is 0 or 1. -/
theorem acquire_confined_iff (s : Sys P) (p : P) (lockId role : Int) :
    Confined (.acquire lockId role) lockId p
        (s.setPc p (Syscall.acquire lockId role).entry) ↔
      outOfRange lockId=true ∨ s.mem (activeAddr lockId)=0 ∨ role=0 ∨ role=1 := by
  by_cases hout : outOfRange lockId=true
  · simp only [hout,true_or,iff_true]
    exact confined_of_out_of_range (by simp [Syscall.entry,hout])
  have hentry : (Syscall.acquire lockId role).entry=.acquireCheck lockId role := by
    simp [Syscall.entry,hout]
  rw [hentry]
  by_cases hact : s.mem (activeAddr lockId)=0
  · simp only [hact,true_or,or_true,iff_true]
    exact confined_of_inactive (by simp [Pc.access]) (by simp [Pc.next,hact])
  simp only [hout,hact,Bool.false_eq_true,false_or]
  constructor
  · intro h
    have hcheck := step_access_setPc s p (.acquireCheck lockId role) rfl
    simp only [Access.value,Pc.next,hact,if_false] at hcheck
    -- the flag store right after the test already needs role 0, 1 or 2
    have h1 := h.own [] _ (run_cons.mpr ⟨_,hcheck,rfl⟩) (by simp)
      (.store (flagAddr lockId role) 1) (by simp [Pc.access])
    rcases ownField_flag.mp h1 with h0 | h1 | rfl
    · exact Or.inl h0
    · exact Or.inr h1
    · -- with role 2 the wait loop reads flag[-1], the active field
      have h2 := h.own [.access p, .access p] _
        (run_cons.mpr ⟨_,hcheck,run_cons.mpr ⟨_,step_access_setPc _ p _ rfl,
          run_cons.mpr ⟨_,step_access_setPc _ p _ rfl,rfl⟩⟩⟩) (by simp)
        (.load (flagAddr lockId (other 2))) (by simp [Pc.access,Pc.next])
      exact absurd (ownField_flag.mp h2) (by decide)
  · intro hrole
    exact confined_of_closed (I := InAcquire lockId role) (by simp [Pc.access])
      (by simp [Pc.next,hact,InAcquire]) inAcquire_next (by simp [InAcquire])
      (by simp_all [InAcquire]) (inAcquire_own hrole)

/-- `petersonlock_release` keeps to its entry exactly when the call is refused
or `role` is 0, 1 or 2; role 2 clears the turn in place of a flag. -/
theorem release_confined_iff (s : Sys P) (p : P) (lockId role : Int) :
    Confined (.release lockId role) lockId p
        (s.setPc p (Syscall.release lockId role).entry) ↔
      outOfRange lockId=true ∨ s.mem (activeAddr lockId)=0 ∨ role=0 ∨ role=1 ∨ role=2 := by
  by_cases hout : outOfRange lockId=true
  · simp only [hout,true_or,iff_true]
    exact confined_of_out_of_range (by simp [Syscall.entry,hout])
  have hentry : (Syscall.release lockId role).entry=.releaseCheck lockId role := by
    simp [Syscall.entry,hout]
  rw [hentry]
  by_cases hact : s.mem (activeAddr lockId)=0
  · simp only [hact,true_or,or_true,iff_true]
    exact confined_of_inactive (by simp [Pc.access]) (by simp [Pc.next,hact])
  simp only [hout,hact,Bool.false_eq_true,false_or]
  constructor
  · intro h
    have hcheck := step_access_setPc s p (.releaseCheck lockId role) rfl
    simp only [Access.value,Pc.next,hact,if_false] at hcheck
    have h1 := h.own [] _ (run_cons.mpr ⟨_,hcheck,rfl⟩) (by simp)
      (.store (flagAddr lockId role) 0) (by simp [Pc.access])
    exact ownField_flag.mp h1
  · intro hrole
    refine confined_of_closed (I := InRelease lockId role) (by simp [Pc.access])
      (by simp [Pc.next,hact,InRelease]) ?_ (by simp [InRelease]) (by simp_all [InRelease]) ?_
    · rintro pc a v (rfl | rfl) ha
      · simp [InRelease,Pc.next]
      · simp [Pc.access] at ha
    · rintro pc a (rfl | rfl) ha
      · cases ha
        exact ownField_flag.mpr hrole
      · simp [Pc.access] at ha

/-- The two system calls on raw argument registers, in every state of the
table and under every interference by other processes. -/
theorem peterson_syscalls_confined_iff (s : Sys P) (p : P) (a0 a1 : BitVec 64) :
    (Confined (sysPetersonAcquire a0 a1) (argint a0) p
        (s.setPc p (sysPetersonAcquire a0 a1).entry) ↔
      outOfRange (argint a0)=true ∨ s.mem (activeAddr (argint a0))=0 ∨
        argint a1=0 ∨ argint a1=1) ∧
    (Confined (sysPetersonRelease a0 a1) (argint a0) p
        (s.setPc p (sysPetersonRelease a0 a1).entry) ↔
      outOfRange (argint a0)=true ∨ s.mem (activeAddr (argint a0))=0 ∨
        argint a1=0 ∨ argint a1=1 ∨ argint a1=2) :=
  ⟨acquire_confined_iff s p (argint a0) (argint a1),
    release_confined_iff s p (argint a0) (argint a1)⟩

def onlyEntryZero : Sys Unit := ⟨fun a => if a=activeAddr 0 then 1 else 0, fun _ => .user⟩

/-- Acquiring lock 0 in role 3 stores through `flag[3]`, which is the active
field of entry 1: a lock nobody created comes to life. -/
theorem acquire_role_three_activates_next :
    ¬ Confined (sysPetersonAcquire 0 3) 0 ()
        (onlyEntryZero.setPc () (sysPetersonAcquire 0 3).entry) ∧
    onlyEntryZero.mem (activeAddr 1)=0 ∧
    ((run step [.access (), .access ()]
        (onlyEntryZero.setPc () (sysPetersonAcquire 0 3).entry)).map
      fun s => s.mem (activeAddr 1))=some 1 := by
  refine ⟨?_,by decide,by decide⟩
  exact fun h => absurd ((acquire_confined_iff onlyEntryZero () 0 3).mp h) (by decide)

end Xv6.PetersonConfinement
