import Xv6.TournamentRun

/-! The tournament and the kernel's lock table: which locks its processes operate
on, and which slots are active after a run. -/
namespace Xv6.TournamentLocks
open Function Xv6.Machine Xv6.PetersonSim Xv6.PetersonUse
open Xv6.Tournament Xv6.TournamentTree Xv6.TournamentCreate Xv6.TournamentRun
open Xv6.PetersonLock hiding step step_access

def activeSlots (m : Mem) : List Nat := (List.range 15).filter fun i : Nat => m (activeAddr i) != 0

theorem activeSlots_eq_iff {m m' : Mem} : activeSlots m=activeSlots m' ↔
    ∀ i : Nat, i<15 → (m (activeAddr i)=0 ↔ m' (activeAddr i)=0) := by
  constructor
  · intro h i hi
    have hmem : i∈activeSlots m ↔ i∈activeSlots m' := by rw [h]
    simp only [activeSlots,List.mem_filter,List.mem_range,hi,true_and,bne_iff_ne] at hmem
    exact not_iff_not.mp hmem
  · intro h
    refine List.filter_congr fun i hi => ?_
    have hiff := h i (List.mem_range.mp hi)
    by_cases h0 : m (activeAddr i)=0
    · simp [h0,hiff.mp h0]
    · rw [bne_iff_ne.mpr h0,bne_iff_ne.mpr (mt hiff.mpr h0)]

theorem running_leaks {L : Nat} {m0 : Mem} {ids : List Int} {s : Tour} (h : Running L m0 ids s)
    (hL : 1 ≤ L) : activeSlots s.kern.mem≠activeSlots m0 := by
  have hpow : 2^1≤2^L := Nat.pow_le_pow_right (by omega) hL
  have hlen := h.length
  obtain ⟨b,hb,hids,ht⟩ := h.slots
  obtain ⟨id,hid⟩ : ∃ id, id∈ids := List.exists_mem_of_length_pos (by omega)
  rw [hids] at hid
  obtain ⟨i,hi,hfree,-⟩ := mem_freeBelow.mp hid
  intro heq
  exact ht.below i hi ((activeSlots_eq_iff.mp heq i (by omega)).mpr hfree)

theorem running_enough {L : Nat} {m0 : Mem} {ids : List Int} {s : Tour} (h : Running L m0 ids s) :
    2^L-1≤(freeBelow m0 15).length := by
  obtain ⟨b,hb,hids,-⟩ := h.slots
  have hmono := freeBelow_mono (m := m0) hb
  rwa [← hids,h.length] at hmono

def Plays (processes : Int) (table : Mem) (s : Tour) : Prop :=
  ∃ L ids, 1 ≤ L ∧ L ≤ 4 ∧ processes=((2 ^ L : Nat) : Int) ∧ Running L table ids s

theorem plays_run {processes : Int} {table : Mem} {ls : List Event} {s : Tour}
    (hrun : run (step processes) ls (init processes table)=some s) :
    Progress processes table (Plays processes table) ls s := by
  refine progress_run (fun ids s hs hb => ?_) ?_ hrun
  · obtain ⟨L,hL,hmax,rfl⟩ := start_mallocing hs
    exact ⟨L,ids,hL,hmax,rfl,.of_built hL hb⟩
  · rintro u e t ⟨L,ids,hL,hmax,rfl,hr⟩ hstep
    obtain ⟨hm,he⟩ := hr.moves hL hstep
    exact ⟨⟨L,ids,hL,hmax,rfl,hr.move hmax hm⟩,he⟩

/-- After a run whose processes have all exited, the active slots are those from before exactly if
the argument was refused, or there was no memory for the ids, or not enough slots were free. -/
theorem tournament_restores_iff {processes : Int} {table : Mem} {ls : List Event} {s : Tour}
    (hrun : run (step processes) ls (init processes table)=some s)
    (hdone : ∀ p < processes.toNat, s.user p=.exited ∨ s.user p=.unborn) :
    activeSlots s.kern.mem=activeSlots table ↔ start processes=.exited ∨
      Event.malloc false∈ls ∨ ((freeBelow table 15).length : Int) < processes-1 := by
  have h0 : 1 < processes → s.user 0=.exited ∨ s.user 0=.unborn := fun h1 => hdone 0 (by omega)
  cases plays_run hrun with
  | initial =>
    have hex : start processes=.exited := by
      obtain hs | ⟨hs,h1⟩ := start_cases processes
      · exact hs
      · simpa [init,hs] using h0 h1
    simp [hex,init]
  | noMemory => simp [init]
  | setup _ _ hs hm h =>
    have h1 := one_lt_of_start hs
    cases h with
    | creating _ h => simpa [h.user] using h0 h1
    | rollback _ hu => simpa [hu] using h0 h1
    | refused hu hfew hact hpc hal =>
      simp only [hfew,or_true,iff_true]
      exact activeSlots_eq_iff.mpr fun i _ => hact i
  | running _ _ hs hm h =>
    obtain ⟨L,ids,hL,-,rfl,hr⟩ := h
    have hmany := running_enough hr
    refine iff_of_false (running_leaks hr hL) ?_
    rintro (hex | hmal | hfew)
    · cases hs.symm.trans hex
    · exact hm hmal
    · omega

def completed : List Event :=
  let round (p : Nat) : List Event := [.acquire p]++List.replicate 4 (.access p) ++
    [.sysret p, .release p]++List.replicate 2 (.access p)++[.sysret p, .exit p]
  [.malloc true]++List.replicate 4 (.access 0)++[.sysret 0, .fork true]++round 0++round 1

def completedState : Tour := (run (step 2) completed (init 2 fun _ => 0)).get (by decide +kernel)

theorem completed_leaks_lock : run (step 2) completed (init 2 fun _ => 0)=some completedState ∧
    completedState.user 0=.exited ∧ completedState.user 1=.exited ∧
    activeSlots completedState.kern.mem=[0] ∧ activeSlots (fun _ => 0)=[] :=
  ⟨(Option.some_get _).symm,by decide +kernel,by decide +kernel,by decide +kernel,by decide +kernel⟩

/-- Slot 0 is the only free one. -/
def oneFree : Mem := fun a => if a=activeAddr 0 then 0 else 1

/-- The second of three calls of `peterson_create` fails, and the lock of the first is destroyed. -/
def rolledBack : List Event :=
  [.malloc true]++List.replicate 4 (.access 0)++[.sysret 0]++List.replicate 15 (.access 0) ++
    [.sysret 0]++List.replicate 2 (.access 0)++[.sysret 0]

def rolledBackState : Tour := (run (step 4) rolledBack (init 4 oneFree)).get (by decide +kernel)

theorem rollback_restores : activeSlots oneFree=(List.range 15).tail ∧
    ((run (step 4) (rolledBack.take 6) (init 4 oneFree)).map fun s => activeSlots s.kern.mem) =
      some (List.range 15) ∧
    activeSlots rolledBackState.kern.mem=activeSlots oneFree := by
  have hrun : run (step 4) rolledBack (init 4 oneFree)=some rolledBackState :=
    (Option.some_get _).symm
  exact ⟨by decide +kernel,by decide +kernel,
    (tournament_restores_iff hrun (by decide +kernel)).mpr (.inr (.inr (by decide +kernel)))⟩

end Xv6.TournamentLocks
