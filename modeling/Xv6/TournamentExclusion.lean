import Xv6.TournamentRun

/-! The tournament lock on its own locks. Each node of the tree is a Peterson cell
whose agents are the processes below it, and the exclusion at a node is what
makes the role in its parent free. -/
namespace Xv6.TournamentExclusion
open Function Xv6.Machine Xv6.PetersonCell Xv6.PetersonSim Xv6.PetersonUse
open Xv6.Tournament Xv6.TournamentTree Xv6.TournamentCreate Xv6.TournamentRun
open Xv6.PetersonLock hiding step step_access

/-- The phase of a process in the cell it meets at level `i`. It has passed the
levels below the one it is at, on the way up and on the way down. -/
def levelPhase (pc : Pc) (i : Nat) : UserPc → Phase
  | .acquiring j | .releasing j => if j < i then .inside else if j=i then phaseOf pc else .out
  | .critical => .inside
  | _ => .out

def phasesAt (L : Nat) (s : Tour) (v i p : Nat) : Phase :=
  if nodeAt L p i=v then levelPhase (s.kern.pc p) i (s.user p) else .out

structure Cells (L : Nat) (s : Tour) : Prop where
  turn : ∀ v : Nat, v < 2 ^ L-1 → TurnBit s.kern.mem v
  inv : ∀ i x, i < L → x < 2 ^ L →
    Inv (fun p => side L p i) (cellAt s.kern.mem (nodeAt L x i) (phasesAt L s (nodeAt L x i) i))

theorem phasesAt_at (L : Nat) (s : Tour) (v i p : Nat) (u : UserPc) (pc : Pc) :
    phasesAt L (s.at p u pc) v i =
      update (phasesAt L s v i) p (if nodeAt L p i=v then levelPhase pc i u else .out) := by
  funext q
  by_cases hq : q=p
  · subst hq
    simp [phasesAt]
  · simp [phasesAt,hq]

theorem phasesAt_access (L : Nat) (s : Tour) (v i p : Nat) (a : Access) :
    phasesAt L (s.access p a) v i=update (phasesAt L s v i) p (if nodeAt L p i=v then
      levelPhase ((s.kern.pc p).next (a.value s.kern.mem)) i (s.user p) else .out) := by
  funext q
  by_cases hq : q=p
  · subst hq
    simp [phasesAt]
  · simp [phasesAt,hq]

variable {L : Nat} {s : Tour}

theorem Cells.same {t : Tour} (h : Cells L s) (hm : t.kern.mem=s.kern.mem)
    (hph : ∀ p i, i < L →
      levelPhase (t.kern.pc p) i (t.user p)=levelPhase (s.kern.pc p) i (s.user p)) :
    Cells L t where
  turn v hv := by
    rw [hm]
    exact h.turn v hv
  inv i x hi hx := by
    have hsame : phasesAt L t (nodeAt L x i) i=phasesAt L s (nodeAt L x i) i := by
      funext p
      rw [phasesAt,phasesAt,hph p i hi]
    rw [hsame,hm]
    exact h.inv i x hi hx

variable {p : Nat} {pc : Pc} {u : UserPc}

theorem Cells.quiet (h : Cells L s)
    (hph : ∀ i, i < L → levelPhase pc i u=levelPhase (s.kern.pc p) i (s.user p)) :
    Cells L (s.at p u pc) := by
  refine h.same rfl fun q i hi => ?_
  by_cases hq : q=p
  · subst hq
    simpa using hph i hi
  · simp [hq]

theorem Cells.enter {j : Nat} (h : Cells L s) (hpc : phaseOf pc=.flagging)
    (hph : ∀ i, i < L → levelPhase (s.kern.pc p) i (s.user p) = if j < i then .inside else .out)
    (hfree : ∀ q, nodeAt L q j=nodeAt L p j → side L q j=side L p j →
      levelPhase (s.kern.pc q) j (s.user q)=.out) : Cells L (s.at p (.acquiring j) pc) where
  turn := h.turn
  inv i x hi hx := by
    have hc := h.inv i x hi hx
    rw [phasesAt_at]
    by_cases hij : i=j ∧ nodeAt L p i=nodeAt L x i
    · obtain ⟨rfl,hv⟩ := hij
      simp only [levelPhase,hv,Nat.lt_irrefl,hpc,if_true,if_false,Tour.at_mem,cellAt_update]
      refine hc.enter (by simp [cellAt,phasesAt,hv,hph i hi]) fun q hq => ?_
      by_cases hqv : nodeAt L q i=nodeAt L x i
      · simp [cellAt,phasesAt,hqv,hfree q (hqv.trans hv.symm) hq]
      · simp [cellAt,phasesAt,hqv]
    · have hsame : (if nodeAt L p i=nodeAt L x i then levelPhase pc i (.acquiring j) else .out) =
          phasesAt L s (nodeAt L x i) i p := by
        by_cases hv : nodeAt L p i=nodeAt L x i
        · have hne : j≠i := fun he => hij ⟨he.symm,hv⟩
          rw [if_pos hv,phasesAt,if_pos hv,hph i hi,levelPhase,if_neg hne]
        · simp [phasesAt,hv]
      rw [hsame,update_eq_self]
      exact hc

theorem elsewhere_of_inCall {v w : Int} {r : Bool} (h : InCall w r pc) (hv : v≠w) :
    Elsewhere v pc := by
  have hrole : ∃ r', bit r=bit r' := ⟨r,rfl⟩
  cases h <;> exact ⟨Ne.symm hv,hrole⟩

variable {ids : List Int} {m0 : Mem}

theorem Cells.access {a : Access} (h : Cells L s) (hr : Running L m0 ids s)
    (ha : (s.kern.pc p).access=some a) : Cells L (s.access p a) := by
  obtain ⟨j,hu,hp,hj,hin⟩ := (hr.pcs p).at_level ha
  have hact := hr.active (nodeAt_lt hp hj)
  have hlevel : ∀ i pc, levelPhase pc i (s.user p) =
      if j < i then .inside else if j=i then phaseOf pc else .out := by
    intro i pc
    obtain hu | hu := hu <;> rw [hu] <;> rfl
  refine ⟨fun v hv => ?_,fun i x hi hx => ?_⟩
  · by_cases hvp : (v : Int)=nodeAt L p j
    · rw [Tour.access_mem,hvp]
      exact turnBit_access hin ha (h.turn _ (nodeAt_lt hp hj))
    · rw [TurnBit,Tour.access_mem,
        perform_apply _ _ (elsewhere_addr (elsewhere_of_inCall hin hvp) ha).2]
      exact h.turn v hv
  · have hc := h.inv i x hi hx
    rw [phasesAt_access,hlevel,Tour.access_mem]
    by_cases hxp : nodeAt L p j=nodeAt L x i
    · obtain rfl := nodeAt_level hp hx hj.le hi.le hxp
      have hphase : phasesAt L s (nodeAt L x j) j p=phaseOf (s.kern.pc p) := by
        simp [phasesAt,hxp,hlevel]
      simp only [hxp,if_true,Nat.lt_irrefl,if_false]
      rw [hxp] at hin hact
      exact inv_access hin ha hact (h.turn _ (nodeAt_lt hx hj)) hphase hc
    · -- another cell: neither its memory nor the phase of the process changes
      have hne : ((nodeAt L x i : Nat) : Int)≠nodeAt L p j := by omega
      obtain ⟨hf,ht⟩ := elsewhere_addr (elsewhere_of_inCall hin hne) ha
      have hsame : (if nodeAt L p i=nodeAt L x i then (if j < i then Phase.inside else
          if j=i then phaseOf ((s.kern.pc p).next (a.value s.kern.mem)) else .out) else .out) =
          phasesAt L s (nodeAt L x i) i p := by
        by_cases hv : nodeAt L p i=nodeAt L x i
        · have hij : j≠i := by
            rintro rfl
            exact hxp hv
          simp [phasesAt,hv,hlevel,hij]
        · simp [phasesAt,hv]
      rw [hsame,update_eq_self,cellAt_congr _ (fun r => perform_apply a _ (hf r))
        (perform_apply a _ ht)]
      exact hc

variable {i : Nat}

theorem levelPhase_below (h : levelPhase pc i u≠.out) : levelPhase pc (i+1) u=.inside := by
  cases u with
  | acquiring j | releasing j =>
    have hle : j < i+1 := by
      by_contra hgt
      exact h (by rw [levelPhase,if_neg (by omega),if_neg (by omega)])
    rw [levelPhase,if_pos hle]
  | critical => rfl
  | _ => exact absurd rfl h

theorem Cells.side_unique {q : Nat} (h : Cells L s) (hp : p<2^L)
    (hi : i+1 < L) (hv : nodeAt L q i=nodeAt L p i) (hs : side L q i=side L p i)
    (hin : levelPhase (s.kern.pc p) (i+1) (s.user p)=.inside)
    (hq : levelPhase (s.kern.pc q) i (s.user q)≠.out) : q=p := by
  have hchild := nodeAt_child (by omega) hv hs
  refine (h.inv (i+1) p hi hp).exclusive ?_ ?_
  · simpa [cellAt,phasesAt,hchild] using levelPhase_below hq
  · simpa [cellAt,phasesAt] using hin

theorem Cells.climb (h : Cells L s) (hr : Running L m0 ids s) (hL : 1 ≤ L) (hmax : L≤4)
    (hc : Climb L p (s.user p) (s.kern.pc p) u pc) : Cells L (s.at p u pc) := by
  have hon := hr.pcs p
  generalize hu : s.user p=u0 at hc hon
  generalize hpc : s.kern.pc p=pc0 at hc hon
  cases hc with
  | start hl =>
    have hout : ∀ k, levelPhase (s.kern.pc p) k (s.user p)=.out := by
      intro k
      rw [hu]
      rfl
    rw [acquire_entry hmax hon.1 (by omega)]
    refine h.enter rfl (fun i hi => by rw [hout,if_neg (by omega)]) fun q hv hs => ?_
    rw [eq_of_leaf hL hv hs,hout]
  | up i c v hv =>
    obtain ⟨⟨hp,hi⟩,hin,hst⟩ := hon
    obtain ⟨hph,-⟩ := ret_acquired hin hst
    have hlevel : ∀ k, levelPhase (s.kern.pc p) k (s.user p) = if i < k then .inside else .out := by
      intro k
      simp only [hu,hpc,levelPhase,hph]
      split_ifs <;> first | rfl | omega
    rw [acquire_entry hmax hp (by omega)]
    refine h.enter rfl (fun k _ => hlevel k) fun q hvq hsq => ?_
    by_contra hq
    have hqp := h.side_unique hp hi hvq hsq (by rw [hlevel,if_pos (by omega)]) hq
    rw [hqp,hlevel,if_neg (by omega)] at hq
    exact hq rfl
  | top c v hv =>
    obtain ⟨hph,-⟩ := ret_acquired hon.2.1 hon.2.2
    refine h.quiet fun k _ => ?_
    simp only [hu,hpc,levelPhase,hph]
    split_ifs <;> first | rfl | omega
  | refused i c v hv hi =>
    obtain ⟨-,rfl⟩ := ret_acquired hon.2.1 hon.2.2
    omega
  | unwind => exact hon.elim
  | leave hl =>
    rw [release_entry hmax hon.1 hl]
    refine h.quiet fun k _ => ?_
    simp only [hu,levelPhase,phaseOf]
    split_ifs <;> first | rfl | omega
  | down i c v hv hi =>
    obtain ⟨hph,-⟩ := ret_released hon.2.1 hon.2.2
    rw [release_entry hmax hon.1.1 hi]
    refine h.quiet fun k _ => ?_
    simp only [hu,hpc,levelPhase,hph]
    split_ifs <;> first | rfl | omega
  | bottom i c v hv hi =>
    obtain ⟨hph,-⟩ := ret_released hon.2.1 hon.2.2
    refine h.quiet fun k hk => ?_
    simp only [hu,hpc,levelPhase,hph]
    split_ifs <;> first | rfl | omega
  | fail u c v hfail =>
    obtain ⟨i,rfl,hi⟩ | ⟨j,rfl⟩ | ⟨i,rfl,hv⟩ := hfail
    · exact absurd hon.1.2 (by omega)
    · exact hon.elim
    · obtain ⟨-,rfl⟩ := ret_released hon.2.1 hon.2.2
      omega
  | exit u pc hex =>
    refine h.quiet fun k _ => ?_
    obtain rfl | rfl := hex <;> rw [hu] <;> rfl

theorem Cells.move {t : Tour} (h : Cells L s) (hr : Running L m0 ids s) (hL : 1 ≤ L) (hmax : L≤4)
    (hm : Move ((2^L : Nat) : Int) s t) : Cells L t := by
  cases hm with
  | fork i hu =>
    have hun := (hr.unborn i hu).2 i (Nat.le_refl i)
    refine h.same rfl fun p k _ => ?_
    simp only [Tour.goto_user,Tour.goto_kern]
    by_cases hp : p=0
    · subst hp
      rw [if_pos rfl,hu]
      split_ifs <;> rfl
    · rw [if_neg hp]
      by_cases hpi : p=i
      · rw [if_pos hpi,hpi,hun]
        rfl
      · rw [if_neg hpi]
  | forkFailed i hu =>
    refine h.same rfl fun p k _ => ?_
    by_cases hp : p=0
    · simp [hp,hu,levelPhase]
    · simp [hp]
  | access p a ha => exact h.access hr ha
  | climb p u pc hc =>
    rw [numLevels_two_pow] at hc
    exact h.climb hr hL hmax hc

theorem Cells.of_built (hL : 1 ≤ L) (hfree : ∀ v : Nat, v<2^L-1 → m0 (activeAddr v)=0)
    (h : Built ((2^L : Nat) : Int) m0 ids s) : Cells L s := by
  have hr := Running.of_built hL h
  have hfresh : ∀ v : Nat, v<2^L-1 → (∀ r, s.kern.mem (flagAddr v (bit r))=0) ∧
      s.kern.mem (turnAddr v)=0 := fun v hv => h.fresh v (hr.node_mem hfree hv)
  have hout : ∀ p i, levelPhase (s.kern.pc p) i (s.user p)=.out := by
    intro p i
    by_cases hp : p=0
    · rw [hp,h.user]
      rfl
    · rw [(h.alone p hp).1]
      rfl
  refine ⟨fun v hv => .inl (hfresh v hv).2,fun i x hi hx => .of_idle (fun p => ?_) fun r => ?_⟩
  · simp [cellAt,phasesAt,hout]
  · simp [cellAt,(hfresh _ (nodeAt_lt hx hi)).1 r]

/-- In every run from an empty lock table, once a process is in the tournament
all nodes of the tree are good Peterson cells. -/
theorem cells_run {processes : Int} {table : Mem} {ls : List Event}
    (hn : admitted processes=true) (hn1 : 1 < processes)
    (hempty : ∀ v : Nat, v<15 → table (activeAddr v)=0)
    (hrun : run (step processes) ls (init processes table)=some s)
    (hp : InTournament (s.user p)) : ∃ L ids, 1 ≤ L ∧ Running L table ids s ∧ Cells L s := by
  obtain ⟨L,hL,hmax,rfl⟩ := start_mallocing (start_admitted hn hn1)
  have hpow : 2^L≤2^4 := Nat.pow_le_pow_right (by omega) hmax
  have hfree : ∀ v : Nat, v<2^L-1 → table (activeAddr v)=0 := fun v hv => hempty v (by omega)
  have hprog : Progress ((2^L : Nat) : Int) table
      (fun s => (∃ ids, Running L table ids s) ∧ Cells L s) ls s := by
    refine progress_run (fun ids s _ hb => ⟨⟨ids,.of_built hL hb⟩,.of_built hL hfree hb⟩) ?_ hrun
    rintro u e t ⟨⟨ids,hr⟩,hc⟩ hstep
    obtain ⟨hm,he⟩ := hr.moves hL hstep
    exact ⟨⟨⟨ids,hr.move hmax hm⟩,hc.move hr hL hmax hm⟩,he⟩
  obtain ⟨⟨ids,hr⟩,hc⟩ := hprog.created hp
  exact ⟨L,ids,hL,hr,hc⟩

/-- Mutual exclusion of the tournament lock: from an empty lock table, at most
one process at a time is past `tournament_acquire` and before its call of
`tournament_release`. -/
theorem tournament_mutual_exclusion {processes : Int} {table : Mem} {ls : List Event} {s : Tour}
    {p q : Nat} (hn : admitted processes=true) (hn1 : 1 < processes)
    (hempty : ∀ v : Nat, v < 15 → table (activeAddr v)=0)
    (hrun : run (step processes) ls (init processes table)=some s)
    (hp : s.user p=.critical) (hq : s.user q=.critical) : p=q := by
  obtain ⟨L,ids,hL,hr,hc⟩ := cells_run hn hn1 hempty hrun (p := p) (by rw [hp]; trivial)
  have hlt : ∀ x, s.user x=.critical → x<2^L := by
    intro x hx
    have hon := hr.pcs x
    rw [hx] at hon
    exact hon.1
  have hroot : nodeAt L q 0=nodeAt L p 0 := by
    rw [nodeAt_eq_iff,Nat.sub_zero,Nat.div_eq_of_lt (hlt p hp),Nat.div_eq_of_lt (hlt q hq)]
  refine (hc.inv 0 p (by omega) (hlt p hp)).exclusive ?_ ?_
  · simp [cellAt,phasesAt,hp,levelPhase]
  · simp [cellAt,phasesAt,hq,hroot,levelPhase]

def contended : List Event :=
  [.malloc true]++List.replicate 4 (.access 0)++[.sysret 0, .fork true, .acquire 0] ++
    List.replicate 4 (.access 0)++[.sysret 0, .acquire 1]++List.replicate 4 (.access 1)

def contendedState : Tour := (run (step 2) contended (init 2 fun _ => 0)).get (by decide +kernel)

theorem contended_run : run (step 2) contended (init 2 fun _ => 0)=some contendedState :=
  (Option.some_get _).symm

theorem contended_exclusive : contendedState.user 0=.critical ∧ contendedState.user 1≠.critical :=
  ⟨by decide +kernel,fun h => absurd (tournament_mutual_exclusion (by decide) (by decide)
    (fun _ _ => rfl) contended_run (by decide +kernel : contendedState.user 0=.critical) h) (by decide)⟩

def Blocked (s : Tour) (p : Nat) : Prop := ∃ lockId role, GuardHolds s.kern p lockId role

theorem blocked_at_node
    (h : Running L m0 ids s) (hb : Blocked s p) : ∃ i, s.user p=.acquiring i ∧ p<2^L ∧ i < L ∧
      s.kern.mem (flagAddr (nodeAt L p i) (bit !side L p i))≠0 ∧
      s.kern.mem (turnAddr (nodeAt L p i))=bit !side L p i := by
  obtain ⟨lockId,role,hpc,hflag,hturn⟩ := hb
  have hacc : ∃ a, (s.kern.pc p).access=some a := by
    obtain hpc | hpc := hpc <;> rw [hpc] <;> exact ⟨_,rfl⟩
  obtain ⟨a,ha⟩ := hacc
  obtain ⟨i,hu,hp,hi,hin⟩ := (h.pcs p).at_level ha
  have hcall : lockId=nodeAt L p i ∧ role=bit (side L p i) := by
    obtain hpc | hpc := hpc <;> rw [hpc] at hin <;> cases hin <;> exact ⟨rfl,rfl⟩
  obtain ⟨rfl,rfl⟩ := hcall
  have hup : s.user p=.acquiring i := by
    refine hu.resolve_right fun hu => ?_
    have hst := h.pcs p
    rw [hu] at hst
    obtain hpc | hpc := hpc <;> exact absurd hst.2.2 (by rw [hpc]; nofun)
  rw [other_bit] at hflag hturn
  exact ⟨i,hup,hp,hi,hflag,hturn⟩

theorem inTournament_of_flagged (h : (levelPhase pc i u).flagged=true) : InTournament u := by
  cases u with
  | acquiring | releasing | critical => trivial
  | _ => exact absurd h (by simp [levelPhase,Phase.flagged])

/-- The tournament lock has no deadlock state. -/
theorem tournament_no_deadlock {processes : Int} {table : Mem} {ls : List Event} {s : Tour}
    {p : Nat} (hn : admitted processes=true) (hn1 : 1 < processes)
    (hempty : ∀ v : Nat, v < 15 → table (activeAddr v)=0)
    (hrun : run (step processes) ls (init processes table)=some s)
    (hp : (∃ i, s.user p=.acquiring i) ∨ ∃ j, s.user p=.unwinding j) :
    ¬ ∀ q, InTournament (s.user q) → Blocked s q := by
  intro hall
  have hpin : InTournament (s.user p) := by
    obtain ⟨i,hi⟩ | ⟨j,hj⟩ := hp
    · rw [hi]
      trivial
    · rw [hj]
      trivial
  obtain ⟨L,ids,hL,hr,hc⟩ := cells_run hn hn1 hempty hrun hpin
  -- take a process that is blocked at the highest node
  have hex : ∃ i q, s.user q=.acquiring i := by
    obtain ⟨i,hi,-⟩ := blocked_at_node hr (hall p hpin)
    exact ⟨i,p,hi⟩
  classical
  obtain ⟨x,hx⟩ := Nat.find_spec hex
  obtain ⟨i,hxi,hxL,hiL,hflag,hturn⟩ := blocked_at_node hr (hall x (by rw [hx]; trivial))
  have hlow : ∀ q j, s.user q=.acquiring j → i ≤ j := by
    intro q j hq
    rw [hx] at hxi
    rw [← UserPc.acquiring.inj hxi]
    exact Nat.find_min' hex ⟨q,hq⟩
  -- the process of the other side waits at the same node, for the turn that `x` waits for
  obtain ⟨y,hside,hyf⟩ := (hc.inv i x hiL hxL).flag_owner (!side L x i) (by simp [cellAt,hflag])
  have hvy : nodeAt L y i=nodeAt L x i := by
    by_contra hne
    simp [cellAt,phasesAt,hne,Phase.flagged] at hyf
  have hphase : (levelPhase (s.kern.pc y) i (s.user y)).flagged=true := by
    simpa [cellAt,phasesAt,hvy] using hyf
  obtain ⟨j,hyj,-,-,-,hyturn⟩ := blocked_at_node hr (hall y (inTournament_of_flagged hphase))
  have hle := hlow y j hyj
  have hge : j ≤ i := by
    by_contra hlt
    rw [hyj,levelPhase,if_neg (by omega),if_neg (by omega)] at hphase
    exact absurd hphase (by decide)
  obtain rfl : i=j := by omega
  rw [hvy,hturn,hside] at hyturn
  simp at hyturn

theorem contended_no_deadlock : contendedState.user 1=.acquiring 0 ∧
    ¬ ∀ q, InTournament (contendedState.user q) → Blocked contendedState q :=
  have hwait : contendedState.user 1=.acquiring 0 := by decide +kernel
  ⟨hwait,tournament_no_deadlock (by decide) (by decide) (fun _ _ => rfl) contended_run
    (.inl ⟨0,hwait⟩)⟩

end Xv6.TournamentExclusion
