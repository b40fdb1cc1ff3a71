import Xv6.PetersonUse
import Xv6.TournamentCreate
import Xv6.TournamentTree
import Mathlib.Tactic.IntervalCases

/-! The processes of a tournament once its locks are created, whatever the lock
table was before: every slot the tree uses is active, so every call succeeds, and
the active slots stay as they are. -/
namespace Xv6.TournamentRun
open Function Xv6.Machine Xv6.PetersonSim Xv6.PetersonUse
open Xv6.Tournament Xv6.TournamentTree Xv6.TournamentCreate
open Xv6.PetersonLock hiding step step_access

def OnTree (L p : Nat) (pc : Pc) : UserPc → Prop
  | .acquiring i => (p < 2 ^ L ∧ i < L) ∧
      InCall (nodeAt L p i) (side L p i) pc ∧ stageOf pc=.acquiring
  | .releasing i => (p < 2 ^ L ∧ i < L) ∧
      InCall (nodeAt L p i) (side L p i) pc ∧ stageOf pc=.releasing
  | .critical | .ready => p < 2 ^ L ∧ pc=.user
  | .forking i => i < 2 ^ L ∧ pc=.user
  | .unborn | .exited => pc=.user
  | .mallocing | .creating | .rollback _ | .unwinding _ | .failed => False

structure Running (L : Nat) (m0 : Mem) (ids : List Int) (s : Tour) : Prop where
  lockIds : s.lockIds=some ids
  length : ids.length=2 ^ L-1
  slots : ∃ b ≤ 15, ids=freeBelow m0 b ∧ Taken m0 s.kern.mem b
  pcs : ∀ p, OnTree L p (s.kern.pc p) (s.user p)
  unborn : ∀ i, s.user 0=.forking i → 1 ≤ i ∧ ∀ q, i ≤ q → s.user q=.unborn

variable {L p : Nat} {pc : Pc} {u : UserPc}

theorem OnTree.playing (h : OnTree L p pc u) : Playing u := by
  cases u <;> simp_all [OnTree,Playing]

theorem freeBelow_length_le (m : Mem) (b : Nat) : (freeBelow m b).length ≤ b := by
  simpa [freeBelow] using List.length_filter_le (fun i : Nat => m (activeAddr i) == 0) (List.range b)

variable {ids : List Int} {m0 : Mem} {s : Tour}

theorem Running.active (h : Running L m0 ids s)
    {v : Nat} (hv : v<2^L-1) : s.kern.mem (activeAddr v)≠0 := by
  obtain ⟨b,-,hids,ht⟩ := h.slots
  have hb := freeBelow_length_le m0 b
  rw [← hids,h.length] at hb
  exact ht.below v (by omega)

theorem Running.node_mem (h : Running L m0 ids s)
    (hfree : ∀ v : Nat, v<2^L-1 → m0 (activeAddr v)=0) {v : Nat} (hv : v<2^L-1) :
    (v : Int)∈ids := by
  obtain ⟨b,-,hids,-⟩ := h.slots
  have hb := freeBelow_length_le m0 b
  rw [← hids,h.length] at hb
  rw [hids]
  exact mem_freeBelow.mpr ⟨v,by omega,hfree v hv,rfl⟩

variable {i : Nat}

theorem node_inRange (hmax : L≤4) (hp : p<2^L) (hi : i < L) : outOfRange (nodeAt L p i)=false := by
  have hlt := nodeAt_lt hp hi
  have hpow : 2^L≤2^4 := Nat.pow_le_pow_right (by omega) hmax
  exact inRange_natCast (by omega)

theorem acquire_entry (hmax : L≤4) (hp : p<2^L) (hi : i < L) :
    (Syscall.acquire (nodeAt L p i) (roleAt L p i)).entry =
      .acquireCheck (nodeAt L p i) (bit (side L p i)) := by
  simp [Syscall.entry,node_inRange hmax hp hi,roleAt_eq]

theorem release_entry (hmax : L≤4) (hp : p<2^L) (hi : i < L) :
    (Syscall.release (nodeAt L p i) (roleAt L p i)).entry =
      .releaseCheck (nodeAt L p i) (bit (side L p i)) := by
  simp [Syscall.entry,node_inRange hmax hp hi,roleAt_eq]

theorem ret_acquired {v : Int} {r : Bool} {c : Syscall} {x : Int} (h : InCall v r (.ret c x))
    (hst : stageOf (.ret c x)=.acquiring) : phaseOf (.ret c x)=.inside ∧ x=0 := by
  cases h with
  | acquired => exact ⟨rfl,rfl⟩
  | released => cases hst

theorem ret_released {v : Int} {r : Bool} {c : Syscall} {x : Int} (h : InCall v r (.ret c x))
    (hst : stageOf (.ret c x)=.releasing) : phaseOf (.ret c x)=.out ∧ x=0 := by
  cases h with
  | acquired => cases hst
  | released => exact ⟨rfl,rfl⟩

theorem OnTree.climb {u' : UserPc} {pc' : Pc} (h : OnTree L p pc u)
    (hmax : L≤4) (hc : Climb L p u pc u' pc') : OnTree L p pc' u' := by
  cases hc with
  | start hl =>
    rw [acquire_entry hmax h.1 (by omega)]
    exact ⟨⟨h.1,by omega⟩,.acquireCheck,rfl⟩
  | up i c v hv =>
    rw [acquire_entry hmax h.1.1 (by have := h.1.2; omega)]
    exact ⟨⟨h.1.1,by have := h.1.2; omega⟩,.acquireCheck,rfl⟩
  | top c v hv => exact ⟨h.1.1,rfl⟩
  | refused i c v hv hi =>
    obtain ⟨-,rfl⟩ := ret_acquired h.2.1 h.2.2
    omega
  | unwind => exact h.elim
  | leave hl =>
    rw [release_entry hmax h.1 hl]
    exact ⟨⟨h.1,hl⟩,.releaseCheck,rfl⟩
  | down i c v hv hi =>
    rw [release_entry hmax h.1.1 hi]
    exact ⟨⟨h.1.1,hi⟩,.releaseCheck,rfl⟩
  | bottom i c v hv hi => exact ⟨h.1.1,rfl⟩
  | fail u c v hfail =>
    obtain ⟨i,rfl,hi⟩ | ⟨j,rfl⟩ | ⟨i,rfl,hv⟩ := hfail
    · exact absurd h.1.2 (by omega)
    · exact h.elim
    · obtain ⟨-,rfl⟩ := ret_released h.2.1 h.2.2
      omega
  | exit u pc hex =>
    obtain rfl | rfl := hex
    · exact h.2
    · exact h.elim

variable {a : Access}

theorem OnTree.at_level (h : OnTree L p pc u)
    (ha : pc.access=some a) : ∃ j, (u=.acquiring j ∨ u=.releasing j) ∧ p<2^L ∧ j < L ∧
      InCall (nodeAt L p j) (side L p j) pc := by
  cases u with
  | acquiring j => exact ⟨j,.inl rfl,h.1.1,h.1.2,h.2.1⟩
  | releasing j => exact ⟨j,.inr rfl,h.1.1,h.1.2,h.2.1⟩
  | critical | ready | forking i =>
    rw [h.2] at ha
    cases ha
  | unborn | exited =>
    rw [h] at ha
    cases ha
  | mallocing | creating | rollback i | unwinding j | failed => exact h.elim

theorem OnTree.access {m : Mem} (h : OnTree L p pc u) (ha : pc.access=some a)
    (hact : ∀ v : Nat, v<2^L-1 → m (activeAddr v)≠0) : OnTree L p (pc.next (a.value m)) u := by
  obtain ⟨j,hu,hp,hj,hin⟩ := h.at_level ha
  have hnode := hact _ (nodeAt_lt hp hj)
  obtain rfl | rfl := hu
  · exact ⟨h.1,inCall_next hin ha hnode,(stageOf_next hin ha hnode).trans h.2.2⟩
  · exact ⟨h.1,inCall_next hin ha hnode,(stageOf_next hin ha hnode).trans h.2.2⟩

theorem climb_born {u' : UserPc} {pc' : Pc} (hc : Climb L p u pc u' pc')
    (i : Nat) : u≠.unborn ∧ u'≠.forking i := by
  cases hc with
  | fail u c v hu => obtain ⟨_,rfl,_⟩ | ⟨_,rfl⟩ | ⟨_,rfl,_⟩ := hu <;> exact ⟨nofun,nofun⟩
  | exit u pc hu => obtain rfl | rfl := hu <;> exact ⟨nofun,nofun⟩
  | _ => exact ⟨nofun,nofun⟩

section Steps
variable (h : Running L m0 ids s)
include h

theorem Running.at (hmax : L≤4)
    (hc : Climb L p (s.user p) (s.kern.pc p) u pc) : Running L m0 ids (s.at p u pc) where
  lockIds := h.lockIds
  length := h.length
  slots := h.slots
  pcs q := by
    by_cases hq : q=p
    · subst hq
      simpa using (h.pcs q).climb hmax hc
    · simpa [hq] using h.pcs q
  unborn i hi := by
    have hborn := climb_born hc i
    by_cases hp : p=0
    · simp [hp,hborn.2] at hi
    · obtain ⟨hi1,hun⟩ := h.unborn i (by simpa [Ne.symm hp] using hi)
      refine ⟨hi1,fun q hq => ?_⟩
      have hqp : q≠p := by
        rintro rfl
        exact hborn.1 (hun q hq)
      simpa [hqp] using hun q hq

theorem Running.access (ha : (s.kern.pc p).access=some a) : Running L m0 ids (s.access p a) where
  lockIds := h.lockIds
  length := h.length
  slots := by
    obtain ⟨j,-,-,-,hin⟩ := (h.pcs p).at_level ha
    obtain ⟨b,hb,hids,ht⟩ := h.slots
    exact ⟨b,hb,hids,ht.congr fun i => inCall_active hin ha i⟩
  pcs q := by
    by_cases hq : q=p
    · subst hq
      simpa using (h.pcs q).access ha fun v hv => h.active hv
    · simpa [hq] using h.pcs q
  unborn := h.unborn

theorem Running.fork (hu : s.user 0=.forking i) : Running L m0 ids
      ((s.goto i .ready).goto 0
        (if (i : Int)+1<((2^L : Nat) : Int) then .forking (i+1) else .ready)) where
  lockIds := h.lockIds
  length := h.length
  slots := h.slots
  pcs q := by
    have h0 := h.pcs 0
    have hi := h.unborn i hu
    rw [hu] at h0
    by_cases hq0 : q=0
    · subst hq0
      split_ifs with hlast
      · exact ⟨by omega,h0.2⟩
      · exact ⟨Nat.two_pow_pos L,h0.2⟩
    · by_cases hqi : q=i
      · subst hqi
        have hun := h.pcs q
        rw [hi.2 q (Nat.le_refl q)] at hun
        simpa [hq0,OnTree] using ⟨h0.1,hun⟩
      · simpa [hq0,hqi] using h.pcs q
  unborn j hj := by
    have hi := h.unborn i hu
    rw [Tour.goto_user,if_pos rfl] at hj
    split_ifs at hj with hlast
    · obtain rfl := UserPc.forking.inj hj
      refine ⟨by omega,fun q hq => ?_⟩
      have hq0 : q≠0 := by omega
      have hqi : q≠i := by omega
      simpa [hq0,hqi] using hi.2 q (by omega)

theorem Running.forkFailed (hu : s.user 0=.forking i) : Running L m0 ids (s.goto 0 .exited) where
  lockIds := h.lockIds
  length := h.length
  slots := h.slots
  pcs q := by
    have h0 := h.pcs 0
    rw [hu] at h0
    by_cases hq : q=0
    · subst hq
      simpa [OnTree] using h0.2
    · simpa [hq] using h.pcs q
  unborn j hj := by simp at hj

theorem Running.move {t : Tour}
    (hmax : L≤4) (hm : Move ((2^L : Nat) : Int) s t) : Running L m0 ids t := by
  cases hm with
  | fork i hu => exact h.fork hu
  | forkFailed i hu => exact h.forkFailed hu
  | access p a ha => exact h.access ha
  | climb p u pc hc =>
    rw [numLevels_two_pow] at hc
    exact h.at hmax hc

theorem Running.moves {t : Tour} {e : Event} (hL : 1 ≤ L) (hstep : step ((2^L : Nat) : Int) s e=some t) :
    Move ((2^L : Nat) : Int) s t ∧ ∀ ok, e≠.malloc ok := by
  refine step_moves (fun p => (h.pcs p).playing) ?_ ?_ hstep
  · rw [numLevels_two_pow]
    omega
  · simp [h.lockIds]

end Steps

theorem Running.of_built (hL : 1 ≤ L)
    (h : Built ((2^L : Nat) : Int) m0 ids s) : Running L m0 ids s where
  lockIds := h.lockIds
  length := by
    have := h.length
    omega
  slots := h.slots
  pcs p := by
    by_cases hp : p=0
    · subst hp
      rw [h.user,h.pc]
      exact ⟨Nat.one_lt_two_pow (by omega),rfl⟩
    · obtain ⟨hu,hpc⟩ := h.alone p hp
      rw [hu,hpc]
      rfl
  unborn i hi := by
    obtain rfl : 1=i := by simpa [h.user] using hi
    exact ⟨Nat.le_refl 1,fun q hq => (h.alone q (by omega)).1⟩

theorem start_mallocing {processes : Int} (h : start processes=.mallocing) :
    ∃ L, 1 ≤ L ∧ L≤4 ∧ processes=((2^L : Nat) : Int) := by
  by_cases hr : processes<2 ∨ maxProcesses < processes
  · rw [start,if_pos hr] at h
    cases h
  have ha : admitted processes=true := by
    by_contra ha
    rw [start,if_neg hr,if_neg ha] at h
    cases h
  simp only [maxProcesses] at hr
  have h2 : 2 ≤ processes := by omega
  have h16 : processes≤16 := by omega
  interval_cases processes
  all_goals first
    | exact ⟨1,by decide⟩
    | exact ⟨2,by decide⟩
    | exact ⟨3,by decide⟩
    | exact ⟨4,by decide⟩
    | exact absurd ha (by decide)

theorem start_admitted {processes : Int} (ha : admitted processes=true) (h1 : 1 < processes) :
    start processes=.mallocing := by
  have hle : ¬ maxProcesses < processes := by
    intro hlt
    simp [admitted,Int.not_le.mpr hlt] at ha
  have hge : ¬ processes<2 := by omega
  simp [start,hge,hle,ha]

end Xv6.TournamentRun
