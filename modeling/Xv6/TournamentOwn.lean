import Xv6.TournamentLocks

/-! Which locks the processes of a tournament operate on. The tree walk hands
the kernel node numbers, so a tournament keeps to its own locks exactly if the
slots it was given are the first ones. -/
namespace Xv6.TournamentOwn
open Function Xv6.Machine Xv6.PetersonSim Xv6.PetersonUse
open Xv6.Tournament Xv6.TournamentTree Xv6.TournamentCreate Xv6.TournamentRun Xv6.TournamentLocks
open Xv6.PetersonLock hiding step step_access

def target : Pc → Option Int
  | .acquireCheck i _ | .acquireFlag i _ | .acquireTurn i _ | .waitFlag i _ | .waitTurn i _
  | .releaseCheck i _ | .releaseFlag i _
  | .ret (.acquire i _) _ | .ret (.release i _) _ => some i
  | _ => none

/-- Every acquire or release call in progress is on one of `lock_ids`. -/
def OwnLocks (s : Tour) : Prop :=
  ∀ p id, target (s.kern.pc p)=some id → ∃ ids, s.lockIds=some ids ∧ id∈ids

variable {pc : Pc}

theorem target_inCall {v : Int} {r : Bool} (h : InCall v r pc) : target pc=some v := by
  cases h <;> rfl

variable {L p : Nat}

theorem target_onTree {u : UserPc} {id : Int} (h : OnTree L p pc u)
    (ht : target pc=some id) : ∃ i, p<2^L ∧ i < L ∧ id=nodeAt L p i := by
  cases u with
  | acquiring i | releasing i =>
    rw [target_inCall h.2.1] at ht
    exact ⟨i,h.1.1,h.1.2,(Option.some.inj ht).symm⟩
  | critical | ready | forking i =>
    rw [h.2] at ht
    cases ht
  | unborn | exited =>
    rw [h] at ht
    cases ht
  | mallocing | creating | rollback i | unwinding j | failed => exact h.elim

variable {ids : List Int} {m0 : Mem} {s : Tour}

theorem ownLocks_running (h : Running L m0 ids s)
    (hfree : ∀ v : Nat, v<2^L-1 → m0 (activeAddr v)=0) : OwnLocks s := by
  intro p id ht
  obtain ⟨i,hp,hi,rfl⟩ := target_onTree (h.pcs p) ht
  exact ⟨ids,h.lockIds,h.node_mem hfree (nodeAt_lt hp hi)⟩

theorem ownLocks_alone (h : Alone s) (h0 : target (s.kern.pc 0)=none) : OwnLocks s := by
  intro p id ht
  by_cases hp : p=0
  · rw [hp,h0] at ht
    cases ht
  · rw [(h p hp).2] at ht
    cases ht

variable {processes : Int}

theorem ownLocks_setup (h : Setup processes m0 s) : OwnLocks s := by
  cases h with
  | creating ids h =>
    have hscan := h.scan
    refine ownLocks_alone h.alone ?_
    generalize s.kern.pc 0=pc at hscan
    cases hscan <;> rfl
  | rollback j hu hids hfew hundo hal =>
    refine ownLocks_alone hal ?_
    generalize s.kern.pc 0=pc at hundo
    cases hundo <;> rfl
  | refused hu hfew hm hpc hal => exact ownLocks_alone hal (by rw [hpc]; rfl)

def scanCost : Pc → Nat
  | .createTas j => (40-j).toNat
  | .createFlag0 _ => 4
  | .createFlag1 _ => 3
  | .createTurn _ => 2
  | _ => 1

variable {m : Mem}

theorem scanCost_next {a : Access} (h : Scan m0 m ids pc) (ha : pc.access=some a) :
    scanCost (pc.next (a.value m)) < scanCost pc := by
  cases h with
  | tas b j hb hj =>
    cases ha
    simp only [Pc.next]
    split_ifs <;> simp only [scanCost] <;> omega
  | flag0 | flag1 | turn =>
    cases ha
    simp [scanCost,Pc.next]
  | found | full => cases ha

theorem scanCost_pos (h : Scan m0 m ids pc) : 0 < scanCost pc := by
  cases h with
  | tas b j hb hj =>
    simp only [scanCost]
    omega
  | _ => simp [scanCost]

theorem createNext_returns (hpc : s.kern.pc 0=.user)
    (ids : List Int) : ∃ t, createNext processes s ids=some t := by
  by_cases h : (ids.length : Int) < processes-1
  · rw [createNext,if_pos h]
    exact ⟨_,call_eq_some.mpr ⟨hpc,rfl⟩⟩
  · rw [createNext,if_neg h]
    exact ⟨_,rfl⟩

theorem found_returns {j : Nat} (h : Creating processes m0 ids s)
    (hpc : s.kern.pc 0=.ret .create j) : ∃ t, step processes s (.sysret 0)=some t := by
  have hres : ∃ t, resume processes { s with kern := s.kern.setPc 0 .user } 0 j=some t := by
    simp only [resume,h.user]
    exact createNext_returns (by simp) _
  obtain ⟨t,ht⟩ := hres
  exact ⟨t,step_sysret.mpr ⟨_,_,hpc,ht⟩⟩

theorem create_completes
    (hmany : processes-1≤(freeBelow m0 15).length) (h1 : 1 < processes) (k : Nat) :
    ∀ s ids, Creating processes m0 ids s →
      scanCost (s.kern.pc 0)+50*(processes-1-ids.length).toNat ≤ k →
      ∃ t ids', Reaches (step processes) s t ∧ Built processes m0 ids' t := by
  induction k with
  | zero =>
    intro s ids h hk
    have := scanCost_pos h.scan
    omega
  | succ k ih =>
    intro s ids h hk
    cases hacc : (s.kern.pc 0).access with
    | some a =>
      have hcost := scanCost_next h.scan hacc
      obtain ⟨t,ids',hreach,hb⟩ := ih (s.access 0 a) ids (h.access hacc) (by
        simp only [Tour.access_pc,if_true]
        omega)
      exact ⟨t,ids',(Reaches.single (step_access.mpr ⟨a,hacc,rfl⟩)).trans hreach,hb⟩
    | none =>
      have hscan := h.scan
      generalize hpc : s.kern.pc 0=pc at hscan hacc
      cases hscan with
      | tas | flag0 | flag1 | turn => cases hacc
      | full hids =>
        have := h.more
        rw [hids] at this
        omega
      | found j hw h0 ht =>
        obtain ⟨t,hstep⟩ := found_returns h hpc
        obtain ⟨hc,hpc0⟩ | hb := h.found h1 (by omega) hpc hstep
        · obtain ⟨u,ids',hreach,hb⟩ := ih t _ hc (by
            have hmore := h.more
            simp only [hpc,hpc0,scanCost,List.length_append,List.length_singleton] at hk ⊢
            omega)
          exact ⟨u,ids',(Reaches.single hstep).trans hreach,hb⟩
        · exact ⟨t,_,.single hstep,hb⟩

theorem init_completes (hs : start processes=.mallocing)
    (hmany : processes-1≤(freeBelow m0 15).length) :
    ∃ t ids, Reaches (step processes) (init processes m0) t ∧ Built processes m0 ids t := by
  obtain ⟨t,ht⟩ := createNext_returns (s := init processes m0) rfl []
  have hstep : step processes (init processes m0) (.malloc true)=some t := by
    have h0 : (init processes m0).user 0=.mallocing := by simp [init,hs]
    simpa [step,h0] using ht
  obtain ⟨hc,-⟩ | hb := first_create hs ht
  · obtain ⟨u,ids,hreach,hb⟩ := create_completes hmany (one_lt_of_start hs) _ t [] hc le_rfl
    exact ⟨u,ids,(Reaches.single hstep).trans hreach,hb⟩
  · exact ⟨t,[],.single hstep,hb⟩

theorem step_fork (processes : Int) {i : Nat} (h : s.user 0=.forking i) :
    step processes s (.fork true)=some ((s.goto i .ready).goto 0
      (if i+1 < processes then .forking (i+1) else .ready)) := by
  simp [step,h]

theorem forks_complete (k : Nat) : ∀ s i, i+k+1=2^L → s.user 0=.forking i →
    (∀ q, 0 < q → q < i → s.user q=.ready) →
    ∃ t, Reaches (step ((2^L : Nat) : Int)) s t ∧ t.kern=s.kern ∧
      ∀ q, q<2^L → t.user q=.ready := by
  induction k with
  | zero =>
    intro s i hi hu hready
    refine ⟨_,.single (step_fork _ hu),rfl,fun q hq => ?_⟩
    rw [if_neg (by omega),Tour.goto_user,Tour.goto_user]
    split_ifs with hq0 hqi
    · rfl
    · rfl
    · exact hready q (by omega) (by omega)
  | succ k ih =>
    intro s i hi hu hready
    have hstep := step_fork ((2^L : Nat) : Int) hu
    rw [if_pos (by omega)] at hstep
    obtain ⟨t,hreach,hkern,hall⟩ := ih ((s.goto i .ready).goto 0 (.forking (i+1))) (i+1)
      (by omega) (by simp) fun q hq hqi => by
        rw [Tour.goto_user,Tour.goto_user,if_neg (by omega)]
        split_ifs with hq'
        · rfl
        · exact hready q hq (by omega)
    exact ⟨t,(Reaches.single hstep).trans hreach,hkern,hall⟩

def put (s : Tour) (p : Nat) (m : Mem) (pc : Pc) : Tour :=
  { s with kern := (s.kern.setMem m).setPc p pc }

theorem put_pc (s : Tour) (p : Nat) (m : Mem) (pc : Pc) : (put s p m pc).kern.pc p=pc := by
  simp [put]

theorem step_put (s : Tour) (p : Nat) (m : Mem) {a : Access}
    (h : pc.access=some a) : step processes (put s p m pc) (.access p) =
      some (put s p (a.perform m) (pc.next (a.value m))) := by
  refine step_access.mpr ⟨a,by simpa [put] using h,?_⟩
  simp [put,Tour.access]

theorem acquire_alone (processes : Int) (s : Tour) (p : Nat) {v : Int} {r : Bool}
    (hact : m (activeAddr v)≠0) (hdown : m (flagAddr v (bit !r))=0) :
    Reaches (step processes) (put s p m (.acquireCheck v (bit r)))
      (put s p (update (update m (flagAddr v (bit r)) 1) (turnAddr v) (bit !r))
        (.ret (.acquire v (bit r)) 0)) := by
  have hcheck : Pc.next (.acquireCheck v (bit r)) (Access.value m (.load (activeAddr v))) =
      .acquireFlag v (bit r) := by simp [Pc.next,Access.value,hact]
  have hloop : ∀ m', m' (flagAddr v (bit !r))=0 → Pc.next (.waitFlag v (bit r))
      (Access.value m' (.load (flagAddr v (other (bit r)))))=.ret (.acquire v (bit r)) 0 := by
    intro m' h
    simp [Pc.next,Access.value,h]
  refine (Reaches.single (step_put s p m rfl)).trans ?_
  rw [hcheck]
  refine (Reaches.single (step_put s p _ rfl)).trans ?_
  refine (Reaches.single (step_put s p _ rfl)).trans ?_
  refine (Reaches.single (step_put s p _ rfl)).trans ?_
  change Reaches _ (put s p (update (update m (flagAddr v (bit r)) 1) (turnAddr v) (other (bit r)))
    (Pc.next (.waitFlag v (bit r)) (Access.value (update (update m (flagAddr v (bit r)) 1)
      (turnAddr v) (other (bit r))) (.load (flagAddr v (other (bit r))))))) _
  rw [hloop _ (by simp [hdown]),other_bit]
  exact .refl _

theorem running_reaches {t : Tour} (hL : 1 ≤ L) (hmax : L≤4) (h : Running L m0 ids s)
    (hreach : Reaches (step ((2^L : Nat) : Int)) s t) : Running L m0 ids t := by
  obtain ⟨ls,hls⟩ := hreach
  exact run_invariant (fun u l t hu hstep => hu.move hmax (hu.moves hL hstep).1) h hls

theorem step_up {i : Nat} {c : Syscall} (hmax : L≤4) (hp : p<2^L)
    (hi : i+1 < L) (hu : s.user p=.acquiring (i+1)) (hpc : s.kern.pc p=.ret c 0) :
    step ((2^L : Nat) : Int) s (.sysret p)=some (s.at p (.acquiring i)
      (.acquireCheck (nodeAt L p i) (bit (side L p i)))) := by
  refine step_sysret.mpr ⟨c,0,hpc,?_⟩
  simp only [resume,hu,numLevels_two_pow]
  rw [if_neg (by omega),if_neg (by omega),Nat.add_sub_cancel,acquireAt,call_after_return,
    acquire_entry hmax hp (by omega)]

theorem climb_to_foreign {j : Nat} (hL : 1 ≤ L) (hmax : L≤4)
    (hp : p<2^L) (hnot : ((nodeAt L p j : Nat) : Int)∉ids) (i : Nat) :
    ∀ s, Running L m0 ids s → i < L → j ≤ i → s.user p=.acquiring i →
      s.kern.pc p=.acquireCheck (nodeAt L p i) (bit (side L p i)) →
      (∀ k, k ≤ i → ((nodeAt L p k : Nat) : Int)∈ids →
        ∀ r, s.kern.mem (flagAddr (nodeAt L p k) (bit r))=0) →
      ∃ t, Reaches (step ((2^L : Nat) : Int)) s t ∧ ¬ OwnLocks t := by
  have hforeign : ∀ i s, Running L m0 ids s → ((nodeAt L p i : Nat) : Int)∉ids →
      s.kern.pc p=.acquireCheck (nodeAt L p i) (bit (side L p i)) → ¬ OwnLocks s := by
    intro i s hr hni hpc hown
    obtain ⟨ids',hids,hmem⟩ := hown p _ (by rw [hpc]; rfl)
    rw [hr.lockIds] at hids
    exact hni (Option.some.inj hids ▸ hmem)
  induction i with
  | zero =>
    intro s hr hi hji hu hpc hfresh
    obtain rfl : j=0 := by omega
    exact ⟨s,.refl s,hforeign 0 s hr hnot hpc⟩
  | succ i ih =>
    intro s hr hi hji hu hpc hfresh
    by_cases hin : ((nodeAt L p (i+1) : Nat) : Int)∈ids
    · have hself : put s p s.kern.mem (s.kern.pc p)=s := by
        simp [put,Sys.setPc,Sys.setMem]
      have hacq := acquire_alone ((2^L : Nat) : Int) s p
        (hr.active (nodeAt_lt hp hi)) (hfresh _ (Nat.le_refl _) hin (!side L p (i+1)))
      rw [← hpc,hself] at hacq
      have hreach := hacq.trans (.single (step_up hmax hp hi hu (put_pc _ _ _ _)))
      have hji' : j ≤ i := by
        by_contra hlt
        obtain rfl : j=i+1 := by omega
        exact hnot hin
      obtain ⟨t,ht,hbad⟩ := ih _ (running_reaches hL hmax hr hreach) (by omega) hji' (by simp)
        (by simp) fun k hk hmem r => by
          have hne : nodeAt L p k≠nodeAt L p (i+1) := by
            intro he
            have := nodeAt_level hp hp (by omega) (by omega) he
            omega
          simpa [put,hne] using hfresh k (by omega) hmem r
      exact ⟨t,hreach.trans ht,hbad⟩
    · exact ⟨s,.refl s,hforeign _ s hr hin hpc⟩

theorem foreign_reachable {v : Nat} (hL : 1 ≤ L) (hmax : L≤4)
    (hb : Built ((2^L : Nat) : Int) m0 ids s) (hv : v<2^L-1) (htaken : m0 (activeAddr v)≠0) :
    ∃ t, Reaches (step ((2^L : Nat) : Int)) s t ∧ ¬ OwnLocks t := by
  obtain ⟨p,j,hp,hj,rfl⟩ := exists_nodeAt hv
  have hr := Running.of_built hL hb
  have hnot : ((nodeAt L p j : Nat) : Int)∉ids := by
    intro hmem
    obtain ⟨b,-,hids,-⟩ := hb.slots
    rw [hids] at hmem
    obtain ⟨i,-,hfree,he⟩ := mem_freeBelow.mp hmem
    exact htaken (he ▸ hfree)
  obtain ⟨t,ht,hkern,hready⟩ := forks_complete (L := L) (2^L-2) s 1 (by omega) hb.user
    (fun q hq hq1 => by omega)
  have hrt := running_reaches hL hmax hr ht
  have hacq : step ((2^L : Nat) : Int) t (.acquire p)=some (t.at p (.acquiring (L-1))
      (.acquireCheck (nodeAt L p (L-1)) (bit (side L p (L-1))))) := by
    have hpc : t.kern.pc p=.user := by
      have hon := hrt.pcs p
      rw [hready p hp] at hon
      exact hon.2
    have hL0 : L≠0 := by omega
    simp only [step,hready p hp,if_true,numLevels_two_pow,hrt.lockIds]
    rw [if_neg (by simp [hL0]),acquireAt,call_eq_some,acquire_entry hmax hp (by omega)]
    exact ⟨hpc,rfl⟩
  obtain ⟨u,hu,hbad⟩ := climb_to_foreign hL hmax hp hnot (L-1) _
    (running_reaches hL hmax hrt (.single hacq)) (by omega) (by omega) (by simp) (by simp) (by
      intro k hk hmem r
      simpa [hkern] using (hb.fresh _ hmem).1 r)
  exact ⟨u,ht.trans ((Reaches.single hacq).trans hu),hbad⟩

/-- A tournament keeps to its own locks in every run exactly if it gets no locks
at all or if the slots that serve as nodes of its tree are free before. -/
theorem tournament_own_locks_iff (processes : Int) (table : Mem) :
    (∀ ls s, run (step processes) ls (init processes table)=some s → OwnLocks s) ↔
      start processes=.exited ∨ ((freeBelow table 15).length : Int) < processes-1 ∨
      ∀ v : Nat, v < processes-1 → table (activeAddr v)=0 := by
  constructor
  · intro h
    by_contra hcon
    push Not at hcon
    obtain ⟨hs,hmany,v,hv,htaken⟩ := hcon
    have hs := (start_cases processes).resolve_left hs
    obtain ⟨t,ids,ht,hb⟩ := init_completes hs.1 hmany
    obtain ⟨L,hL,hmax,rfl⟩ := start_mallocing hs.1
    obtain ⟨u,hu,hbad⟩ := foreign_reachable hL hmax hb (by omega) htaken
    obtain ⟨ls,hls⟩ := ht.trans hu
    exact hbad (h ls u hls)
  · intro h ls s hrun
    cases plays_run hrun with
    | initial => exact ownLocks_alone (alone_init processes table) rfl
    | noMemory =>
      refine ownLocks_alone (fun p hp => ?_) rfl
      simp [init,hp]
    | setup _ _ hs hm hset => exact ownLocks_setup hset
    | running _ _ hs hm hplay =>
      obtain ⟨L,ids,hL,hmax,rfl,hr⟩ := hplay
      have hmany := running_enough hr
      obtain hex | hfew | hfree := h
      · cases hs.symm.trans hex
      · omega
      · exact ownLocks_running hr fun v hv => hfree v (by omega)

/-- Slot 0 is taken by somebody else. -/
def slotZeroTaken : Mem := fun a => if a=activeAddr 0 then 1 else 0

def foreignRun : List Event :=
  [.malloc true]++List.replicate 5 (.access 0)++[.sysret 0, .fork true, .acquire 0]

def foreignState : Tour := (run (step 2) foreignRun (init 2 slotZeroTaken)).get (by decide +kernel)

/-- The tournament got lock 1 and acquires lock 0. -/
theorem acquires_foreign_lock : run (step 2) foreignRun (init 2 slotZeroTaken)=some foreignState ∧
    foreignState.lockIds=some [1] ∧ foreignState.kern.pc 0=.acquireCheck 0 0 :=
  ⟨(Option.some_get _).symm,by decide +kernel,by decide +kernel⟩

end Xv6.TournamentOwn
