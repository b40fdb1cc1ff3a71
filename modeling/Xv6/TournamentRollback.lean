import Xv6.TournamentTree

/-! `tournament_acquire` when locks of the tree disappear while a process climbs: what
happens to the locks it has, if a level cannot be acquired. Before each step of the process
the others may change the lock table; they need not be processes of the tree. -/
namespace Xv6.Tournament
open Function Xv6.PetersonLock

def Tour.disturb (s : Tour) (f : Mem → Mem) : Tour :=
  { s with kern := s.kern.setMem (f s.kern.mem) }

/-- What a process that climbs or unwinds does next. -/
def Tour.event (s : Tour) (p : Nat) : Event :=
  if s.user p=.ready then .acquire p
  else if (s.kern.pc p).access.isSome then .access p else .sysret p

/-- The next `k` steps of process `p`; before step `n` the others turn the table `m` into
`others n m`. -/
def play (processes : Int) (p : Nat) (others : Nat → Mem → Mem) : Nat → Nat → Tour → Option Tour
  | 0, _, s => some s
  | k+1, n, s =>
      (step processes (s.disturb (others n)) (s.event p)).bind (play processes p others k (n+1))

def Active (m : Mem) (lockId : Int) : Prop := outOfRange lockId=false ∧ m (activeAddr lockId)≠0

instance Active.decidable (m : Mem) (lockId : Int) : Decidable (Active m lockId) :=
  inferInstanceAs (Decidable (_ ∧ _))

def pathFlag (levels p : Nat) (m : Mem) (j : Nat) : Int :=
  m (flagAddr (nodeAt levels p j) (roleAt levels p j))

/-- Two tables have the same active word and the same flag of process `p` in the locks on its
path below level `i`. -/
def Agree (levels p i : Nat) (m m' : Mem) : Prop :=
  ∀ j, i < j → j < levels →
    m' (activeAddr (nodeAt levels p j))=m (activeAddr (nodeAt levels p j)) ∧
      pathFlag levels p m' j=pathFlag levels p m j

section Path
variable {levels p i j : Nat} {m m' m'' : Mem}

theorem roleAt_zero_or_one (levels p i : Nat) :
    (roleAt levels p i : Int)=0 ∨ (roleAt levels p i : Int)=1 := by
  rw [TournamentTree.roleAt_eq]
  cases TournamentTree.side levels p i with
  | false => exact .inl rfl
  | true => exact .inr rfl

theorem nodeAt_strictMono (hij : i < j) : nodeAt levels p i < nodeAt levels p j := by
  have hi := TournamentTree.nodeAt_succ levels p i
  have hj := TournamentTree.nodeAt_succ levels p j
  have hpow : 2^i<2^j := Nat.pow_lt_pow_right (by omega) hij
  have hdiv : p/2^(levels-i) ≤ p/2^(levels-j) :=
    Nat.div_le_div_left (Nat.pow_le_pow_right (by omega) (by omega)) (Nat.two_pow_pos _)
  omega

def freeFlag (levels p j : Nat) (m : Mem) : Mem :=
  update m (flagAddr (nodeAt levels p j) (roleAt levels p j)) 0

theorem freeFlag_active (levels p j l : Nat) (m : Mem) :
    freeFlag levels p j m (activeAddr (nodeAt levels p l))=m (activeAddr (nodeAt levels p l)) := by
  have hrole := roleAt_zero_or_one levels p j
  refine update_of_ne ?_ _ _
  simp only [activeAddr,flagAddr]
  omega

theorem freeFlag_pathFlag (levels p j l : Nat) (m : Mem) :
    pathFlag levels p (freeFlag levels p j m) l = if l=j then 0 else pathFlag levels p m l := by
  by_cases hl : l=j
  · subst hl
    simp [pathFlag,freeFlag]
  · have hne : nodeAt levels p l≠nodeAt levels p j := by
      rcases Nat.lt_or_gt_of_ne hl with hlt | hgt
      · exact (nodeAt_strictMono hlt).ne
      · exact (nodeAt_strictMono hgt).ne'
    have hrole := roleAt_zero_or_one levels p j
    have hrole' := roleAt_zero_or_one levels p l
    rw [if_neg hl]
    refine update_of_ne ?_ _ _
    simp only [flagAddr]
    omega

theorem Agree.trans (h : Agree levels p i m m') (h' : Agree levels p i m' m'') :
    Agree levels p i m m'' := by
  intro j hij hj
  obtain ⟨hactive,hflag⟩ := h j hij hj
  obtain ⟨hactive',hflag'⟩ := h' j hij hj
  exact ⟨hactive'.trans hactive,hflag'.trans hflag⟩

theorem Agree.freeFlag (h : Agree levels p i m m') (j : Nat) :
    Agree levels p i (freeFlag levels p j m) (freeFlag levels p j m') := by
  intro l hil hl
  obtain ⟨hactive,hflag⟩ := h l hil hl
  rw [freeFlag_active,freeFlag_active,freeFlag_pathFlag,freeFlag_pathFlag,hflag]
  exact ⟨hactive,rfl⟩

theorem Agree.active (h : Agree levels p i m m') (hij : i < j) (hj : j < levels) :
    Active m' (nodeAt levels p j) ↔ Active m (nodeAt levels p j) := by
  rw [Active,Active,(h j hij hj).1]

/-- The flag of the level that failed is none of those below it. -/
theorem agree_freeFlag (levels p i : Nat) (m : Mem) :
    Agree levels p i m (Tournament.freeFlag levels p i m) := by
  intro j hij hj
  rw [freeFlag_active,freeFlag_pathFlag,if_neg (by omega)]
  exact ⟨rfl,rfl⟩

end Path

section Rollback
variable {processes : Int} {others : Nat → Mem → Mem} {levels p i j k l n : Nat} {s t : Tour}

theorem play_succ (h : step processes (s.disturb (others n)) (s.event p)=some t) :
    play processes p others (k+1) n s=play processes p others k (n+1) t := by
  rw [play,h]
  rfl

theorem play_append (h : play processes p others k n s=some t) :
    play processes p others (k+l) n s=play processes p others l (n+k) t := by
  induction k generalizing n s with
  | zero =>
    cases h
    rw [Nat.zero_add,Nat.add_zero]
  | succ k ih =>
    obtain ⟨r,hr,hplay⟩ := Option.bind_eq_some_iff.mp h
    rw [Nat.succ_add,play_succ hr,ih hplay,Nat.succ_add_eq_add_succ]

theorem play_access {pc : Pc} {a : Access} (hready : s.user p≠.ready) (hpc : s.kern.pc p=pc)
    (ha : pc.access=some a) :
    ∃ t, play processes p others 1 n s=some t ∧ t.user p=s.user p ∧
      t.kern.mem=a.perform (others n s.kern.mem) ∧
      t.kern.pc p=pc.next (a.value (others n s.kern.mem)) := by
  subst hpc
  refine ⟨(s.disturb (others n)).access p a,(play_succ ?_).trans rfl,rfl,rfl,by simp [Tour.disturb]⟩
  rw [Tour.event,if_neg hready,if_pos (by rw [ha]; rfl)]
  exact step_access.mpr ⟨a,ha,rfl⟩

/-- Process `p` is at the head of the loop that releases, with loop variable `j`. -/
def Unwinds (levels p j : Nat) (s : Tour) : Prop :=
  if j < levels then s.user p=.unwinding j ∧
    s.kern.pc p=(Syscall.release (nodeAt levels p j) (roleAt levels p j)).entry
  else s.user p=.failed

theorem releaseFrom_unwinds (h : s.kern.pc p=.user) :
    ∃ t, releaseFrom levels s p j (.unwinding j) .failed=some t ∧ t.kern.mem=s.kern.mem ∧
      Unwinds levels p j t := by
  unfold releaseFrom Unwinds
  split
  · exact ⟨_,call_eq_some.mpr ⟨h,rfl⟩,rfl,by simp⟩
  · exact ⟨_,rfl,rfl,by simp⟩

/-- The table that the others leave, and process `p` back from its system call. -/
def Tour.back (s : Tour) (p : Nat) (f : Mem → Mem) : Tour :=
  { s with kern := (s.kern.setMem (f s.kern.mem)).setPc p .user }

theorem play_sysret {c : Syscall} {v : Int} (hready : s.user p≠.ready)
    (hpc : s.kern.pc p=.ret c v) :
    play processes p others 1 n s=resume processes (s.back p (others n)) p v := by
  have hevent : s.event p=.sysret p := by
    rw [Tour.event,if_neg hready,hpc]
    rfl
  rw [play,hevent]
  simp [step,PetersonLock.step,hpc,play,Tour.back,Tour.disturb]

/-- A release that fails ends the loop. -/
theorem play_stops {c : Syscall} (huser : s.user p=.unwinding j) (hpc : s.kern.pc p=.ret c (-1)) :
    ∃ t, play processes p others 1 n s=some t ∧ t.kern.mem=others n s.kern.mem ∧
      t.user p=.failed := by
  rw [play_sysret (by simp [huser]) hpc,resume]
  simp [Tour.back,huser]

/-- A system call whose return leads to the loop that releases. -/
theorem play_to_loop {c : Syscall} {v : Int} (hready : s.user p≠.ready)
    (hpc : s.kern.pc p=.ret c v)
    (h : ∀ r : Tour, r.user p=s.user p →
      resume processes r p v=releaseFrom levels r p j (.unwinding j) .failed) :
    ∃ t, play processes p others 1 n s=some t ∧ t.kern.mem=others n s.kern.mem ∧
      Unwinds levels p j t := by
  obtain ⟨t,hnext,hmem,hat⟩ := @releaseFrom_unwinds levels p j (s.back p (others n)) (by simp [Tour.back])
  rw [play_sysret hready hpc,h (s.back p (others n)) rfl]
  exact ⟨t,hnext,hmem,hat⟩

section Loop
variable (hlevels : numLevels processes=levels)
include hlevels

/-- The failed acquisition returns to the loop that releases, from the same level on. -/
theorem play_refused {c : Syscall} (huser : s.user p=.acquiring i) (hpc : s.kern.pc p=.ret c (-1)) :
    ∃ t, play processes p others 1 n s=some t ∧ t.kern.mem=others n s.kern.mem ∧
      Unwinds levels p i t :=
  play_to_loop (by simp [huser]) hpc fun r hr => by simp [resume,hr,huser,hlevels]

theorem play_goes_on {c : Syscall} (huser : s.user p=.unwinding j) (hpc : s.kern.pc p=.ret c 0) :
    ∃ t, play processes p others 1 n s=some t ∧ t.kern.mem=others n s.kern.mem ∧
      Unwinds levels p (j+1) t :=
  play_to_loop (by simp [huser]) hpc fun r hr => by simp [resume,hr,huser,hlevels]

section Release
variable (hothers : ∀ n, 0 < n → ∀ m, Agree levels p i m (others n m)) (hn : 0 < n)
include hothers hn

omit hlevels in
/-- The release of a lock that it finds inactive ends the loop. -/
theorem play_release_refused (hj : j < levels) (hs : Unwinds levels p j s)
    (h : ¬ Active (others n s.kern.mem) (nodeAt levels p j)) :
    ∃ k, k ≤ 2 ∧ ∃ t, play processes p others k n s=some t ∧ t.user p=.failed ∧
      Agree levels p i s.kern.mem t.kern.mem := by
  rw [Unwinds,if_pos hj] at hs
  obtain ⟨huser,hpc⟩ := hs
  rw [Syscall.entry] at hpc
  split at hpc
  · obtain ⟨t,hplay,hmem,hfailed⟩ := play_stops huser hpc
    exact ⟨1,by omega,t,hplay,hfailed,hmem ▸ hothers n hn _⟩
  · next hrange =>
    obtain ⟨r,hload,hruser,hrmem,hrpc⟩ := play_access (by simp [huser]) hpc rfl
    have hzero : others n s.kern.mem (activeAddr (nodeAt levels p j))=0 := by
      by_contra hne
      exact h ⟨by simpa using hrange,hne⟩
    rw [Pc.next,Access.value,if_pos hzero] at hrpc
    obtain ⟨t,hplay,hmem,hfailed⟩ := play_stops (hruser.trans huser) hrpc
    refine ⟨2,by omega,t,(play_append hload).trans hplay,hfailed,?_⟩
    rw [hmem,hrmem]
    exact (hothers n hn _).trans (hothers (n+1) (by omega) _)

/-- The release of a lock that it finds active lowers the flag and goes on one level down. -/
theorem play_release_ok (hj : j < levels) (hs : Unwinds levels p j s)
    (h : Active (others n s.kern.mem) (nodeAt levels p j)) :
    ∃ t, play processes p others 3 n s=some t ∧ Unwinds levels p (j+1) t ∧
      Agree levels p i (freeFlag levels p j s.kern.mem) t.kern.mem := by
  rw [Unwinds,if_pos hj] at hs
  obtain ⟨huser,hpc⟩ := hs
  rw [Syscall.entry,if_neg (by simp [h.1])] at hpc
  obtain ⟨r,hload,hruser,hrmem,hrpc⟩ := play_access (by simp [huser]) hpc rfl
  rw [Pc.next,Access.value,if_neg h.2] at hrpc
  rw [huser] at hruser
  obtain ⟨q,hstore,hquser,hqmem,hqpc⟩ := play_access (by simp [hruser]) hrpc rfl
  rw [hruser] at hquser
  obtain ⟨t,hret,hmem,hat⟩ := play_goes_on hlevels hquser hqpc
  refine ⟨t,?_,hat,?_⟩
  · rw [play_append (l := 2) hload,play_append (l := 1) hstore]
    exact hret
  · have hbefore : Agree levels p i s.kern.mem (others (n+1) r.kern.mem) := by
      rw [hrmem]
      exact (hothers n hn _).trans (hothers (n+1) (by omega) _)
    rw [hmem,hqmem]
    exact (hbefore.freeFlag j).trans (hothers (n+1+1) (by omega) _)

/-- What the loop from level `j` on does to the locks below level `i`: it goes through those
that are active, up to the first that is not. -/
theorem play_unwinds (hij : i < j) (hs : Unwinds levels p j s) :
    ∃ k, k ≤ 3*(levels-j) ∧ ∃ t, play processes p others k n s=some t ∧
      t.user p=.failed ∧ ∀ l, i < l → l < levels →
        t.kern.mem (activeAddr (nodeAt levels p l)) =
          s.kern.mem (activeAddr (nodeAt levels p l)) ∧
        (pathFlag levels p t.kern.mem l=0 ↔
          pathFlag levels p s.kern.mem l=0 ∨ (j ≤ l ∧
            ∀ k, j ≤ k → k ≤ l → Active s.kern.mem (nodeAt levels p k))) := by
  induction hd : levels-j generalizing j n s with
  | zero =>
    rw [Unwinds,if_neg (by omega)] at hs
    refine ⟨0,by omega,s,rfl,hs,fun l hil hl => ⟨rfl,?_⟩⟩
    rw [or_iff_left]
    omega
  | succ d ih =>
    by_cases hactive : Active (others n s.kern.mem) (nodeAt levels p j)
    · obtain ⟨r,hrel,hat,hagree⟩ := play_release_ok hlevels hothers hn (by omega) hs hactive
      obtain ⟨k,hk,t,hplay,hfailed,hlocks⟩ := ih (by omega : 0 < n+3) (by omega) hat (by omega)
      refine ⟨3+k,by omega,t,(play_append hrel).trans hplay,hfailed,fun l hil hl => ?_⟩
      obtain ⟨hword,hflag⟩ := hagree l hil hl
      rw [freeFlag_active] at hword
      rw [freeFlag_pathFlag] at hflag
      refine ⟨(hlocks l hil hl).1.trans hword,?_⟩
      have hsame (k : Nat) (hik : i < k) (hkl : k ≤ l) :
          Active r.kern.mem (nodeAt levels p k) ↔ Active s.kern.mem (nodeAt levels p k) := by
        rw [hagree.active hik (by omega),Active,Active,freeFlag_active]
      have hhere := ((hothers n hn s.kern.mem).active hij (by omega)).mp hactive
      rw [(hlocks l hil hl).2,hflag]
      by_cases hlj : l=j
      · subst hlj
        simp only [if_true,true_or,true_iff]
        refine .inr ⟨le_rfl,fun k hlk hkl => ?_⟩
        rwa [Nat.le_antisymm hkl hlk]
      · rw [if_neg hlj]
        refine or_congr_right ⟨?_,?_⟩
        · rintro ⟨hle,hall⟩
          refine ⟨by omega,fun k hjk hkl => ?_⟩
          rcases Nat.eq_or_lt_of_le hjk with rfl | hlt
          · exact hhere
          · exact (hsame k (by omega) hkl).mp (hall k hlt hkl)
        · rintro ⟨hle,hall⟩
          exact ⟨by omega,fun k hjk hkl => (hsame k (by omega) hkl).mpr (hall k (by omega) hkl)⟩
    · obtain ⟨k,hk,t,hplay,hfailed,hagree⟩ := play_release_refused hothers hn (by omega) hs hactive
      refine ⟨k,by omega,t,hplay,hfailed,fun l hil hl => ⟨(hagree l hil hl).1,?_⟩⟩
      rw [(hagree l hil hl).2,or_iff_left]
      rintro ⟨hjl,hall⟩
      exact hactive (((hothers n hn _).active hij (by omega)).mpr (hall j le_rfl hjl))

end Release

section Failing
variable (huser : s.user p=.acquiring i)
  (hpc : s.kern.pc p=(Syscall.acquire (nodeAt levels p i) (roleAt levels p i)).entry)
  (hfail : ¬ Active (others 0 s.kern.mem) (nodeAt levels p i))
  (hothers : ∀ n, 0 < n → ∀ m, Agree levels p i m (others n m))
include huser hpc hfail hothers

/-- The call that fails, up to the loop that releases: two steps, or one if the range test alone
refuses the lock, which the release then does too. -/
theorem play_acquire_refused :
    ∃ n, 0 < n ∧ n ≤ 2 ∧ ∃ t, play processes p others n 0 s=some t ∧
      Unwinds levels p i t ∧
      Agree levels p i (others 0 s.kern.mem) t.kern.mem ∧
      (Active (others n t.kern.mem) (nodeAt levels p i) ↔
        Active (others 2 (others 1 (others 0 s.kern.mem))) (nodeAt levels p i)) := by
  rw [Syscall.entry] at hpc
  split at hpc
  · next hrange =>
    obtain ⟨t,hplay,hmem,hat⟩ := play_refused hlevels huser hpc
    refine ⟨1,by omega,by omega,t,hplay,hat,?_,?_⟩
    · rw [hmem]
      exact fun _ _ _ => ⟨rfl,rfl⟩
    · simp [Active,hrange]
  · next hrange =>
    obtain ⟨r,hload,hruser,hrmem,hrpc⟩ := play_access (by simp [huser]) hpc rfl
    have hzero : others 0 s.kern.mem (activeAddr (nodeAt levels p i))=0 := by
      by_contra hne
      exact hfail ⟨by simpa using hrange,hne⟩
    rw [Pc.next,Access.value,if_pos hzero] at hrpc
    obtain ⟨t,hplay,hmem,hat⟩ := play_refused hlevels (hruser.trans huser) hrpc
    replace hmem : t.kern.mem=others 1 (others 0 s.kern.mem) := by
      rw [hmem,hrmem]
      rfl
    refine ⟨2,by omega,le_rfl,t,(play_append hload).trans hplay,hat,?_,?_⟩
    · rw [hmem]
      exact hothers 1 (by omega) _
    · rw [hmem]

/-- The whole rest of the call, lock by lock. -/
theorem play_failed (hi : i < levels) :
    ∃ k, k ≤ 3*(levels-i)+2 ∧ ∃ t, play processes p others k 0 s=some t ∧
      t.user p=.failed ∧ ∀ l, i < l → l < levels →
        (Active t.kern.mem (nodeAt levels p l) ↔
          Active (others 0 s.kern.mem) (nodeAt levels p l)) ∧
        (pathFlag levels p t.kern.mem l=0 ↔
          pathFlag levels p (others 0 s.kern.mem) l=0 ∨
            (Active (others 2 (others 1 (others 0 s.kern.mem))) (nodeAt levels p i) ∧
              ∀ k, i < k → k ≤ l → Active (others 0 s.kern.mem) (nodeAt levels p k))) := by
  obtain ⟨n,hn,hn2,r,hrefused,hat,hagree,hfound⟩ := play_acquire_refused hlevels huser hpc hfail hothers
  rw [← hfound]
  by_cases hactive : Active (others n r.kern.mem) (nodeAt levels p i)
  · obtain ⟨q,hrel,hnext,hfree⟩ := play_release_ok hlevels hothers hn hi hat hactive
    have hsame := hagree.trans ((agree_freeFlag _ _ _ _).trans hfree)
    obtain ⟨k,hk,t,hplay,hfailed,hlocks⟩ :=
      play_unwinds hlevels hothers (by omega : 0 < n+3) (by omega : i < i+1) hnext
    refine ⟨n+(3+k),by omega,t,?_,hfailed,fun l hil hl => ?_⟩
    · rw [play_append hrefused,Nat.zero_add,play_append hrel]
      exact hplay
    · obtain ⟨hword,hflag⟩ := hlocks l hil hl
      rw [Active,hword,hflag,(hsame l hil hl).2]
      refine ⟨hsame.active hil hl,or_congr_right ⟨?_,?_⟩⟩
      · rintro ⟨-,hall⟩
        exact ⟨hactive,fun k hik hkl => (hsame.active hik (by omega)).mp (hall k hik hkl)⟩
      · rintro ⟨-,hall⟩
        exact ⟨hil,fun k hik hkl => (hsame.active hik (by omega)).mpr (hall k hik hkl)⟩
  · obtain ⟨k,hk,t,hplay,hfailed,hkept⟩ := play_release_refused hothers hn hi hat hactive
    refine ⟨n+k,by omega,t,?_,hfailed,fun l hil hl => ?_⟩
    · rw [play_append hrefused,Nat.zero_add]
      exact hplay
    · have hsame := hagree.trans hkept
      rw [(hsame l hil hl).2]
      exact ⟨hsame.active hil hl,by simp [hactive]⟩

/-- When the table refuses the lock of level `i`, `tournament_acquire` fails within a bounded number
of steps, and the process's flag is then down in every active lock below that level exactly if it
was so in the table at that call, or the lock of level `i` is there again when it is released and
no lock between is gone. -/
theorem failed_acquire_releases_iff (hi : i < levels) :
    ∃ k, k ≤ 3*(levels-i)+2 ∧ ∃ t, play processes p others k 0 s=some t ∧
      t.user p=.failed ∧
      ((∀ j, i < j → j < levels → Active t.kern.mem (nodeAt levels p j) →
          pathFlag levels p t.kern.mem j=0) ↔
        ∀ j, i < j → j < levels → Active (others 0 s.kern.mem) (nodeAt levels p j) →
          pathFlag levels p (others 0 s.kern.mem) j=0 ∨
            (Active (others 2 (others 1 (others 0 s.kern.mem))) (nodeAt levels p i) ∧
              ∀ k, i < k → k < j → Active (others 0 s.kern.mem) (nodeAt levels p k))) := by
  obtain ⟨k,hk,t,hplay,hfailed,hlocks⟩ := play_failed hlevels huser hpc hfail hothers hi
  refine ⟨k,hk,t,hplay,hfailed,forall_congr' fun j => forall_congr' fun hij => forall_congr' fun hj => ?_⟩
  obtain ⟨hactive,hflag⟩ := hlocks j hij hj
  rw [hactive,hflag]
  refine forall_congr' fun hhere => or_congr_right (and_congr_right fun _ => ?_)
  refine ⟨fun hall k hik hkj => hall k hik hkj.le,fun hall k hik hkj => ?_⟩
  rcases Nat.eq_or_lt_of_le hkj with rfl | hlt
  · exact hhere
  · exact hall k hik hlt

end Failing

end Loop

/-- Four processes of which process 0 is about to acquire; locks 0, 1 and 2 are active. -/
def fourReady : Tour where
  kern := ⟨fun a => if a=activeAddr 0 ∨ a=activeAddr 1 ∨ a=activeAddr 2 then 1 else 0,
    fun _ => .user⟩
  user _ := .ready
  lockIds := some [0, 1, 2]

/-- Another process destroys the lock of the root before step `n`. -/
def destroysRoot (n k : Nat) (m : Mem) : Mem :=
  if k=n then update m (activeAddr 0) 0 else m

/-- Process 0 has the lock of its leaf when the root's lock goes, and keeps it: it has failed,
and its flag in the active lock of the leaf is up. -/
theorem failed_acquire_keeps_leaf :
    ∃ t, play 4 0 (destroysRoot 6) 10 0 fourReady=some t ∧ t.user 0=.failed ∧
      Active t.kern.mem (nodeAt 2 0 1) ∧ pathFlag 2 0 t.kern.mem 1=1 :=
  ⟨(play 4 0 (destroysRoot 6) 10 0 fourReady).get (by decide +kernel),(Option.some_get _).symm,
    by decide +kernel⟩

/-- Process 0 has its leaf and calls for the lock of the root. -/
def callsForRoot : Tour := (play 4 0 (fun _ m => m) 6 0 fourReady).get (by decide +kernel)

/-- The root's lock is destroyed when the call looks at it, and created again by the time the
call unwinds. -/
def recreatesRoot : Nat → Mem → Mem
  | 0, m => update m (activeAddr 0) 0
  | 1, m => update m (activeAddr 0) 1
  | _, m => m

theorem recreatesRoot_agree (n : Nat) (hn : 0 < n) (m : Mem) :
    Agree 2 0 0 m (recreatesRoot n m) := by
  match n, hn with
  | 1, _ =>
    intro j hj hlt
    obtain rfl : j=1 := by omega
    exact ⟨rfl,rfl⟩
  | n+2, _ => exact fun _ _ _ => ⟨rfl,rfl⟩

/-- At that call the process's flag in its leaf is up, and the loop lowers it. -/
theorem recreated_root_releases_leaf :
    pathFlag 2 0 (recreatesRoot 0 callsForRoot.kern.mem) 1=1 ∧
      ∃ k, k ≤ 8 ∧ ∃ t, play 4 0 recreatesRoot k 0 callsForRoot=some t ∧
        t.user 0=.failed ∧ ∀ j, 0 < j → j < 2 →
          Active t.kern.mem (nodeAt 2 0 j) → pathFlag 2 0 t.kern.mem j=0 := by
  obtain ⟨k,hk,t,hplay,hfailed,hiff⟩ := @failed_acquire_releases_iff 4 recreatesRoot 2 0 0
    callsForRoot (by decide) (by decide +kernel) (by decide +kernel) (by decide +kernel)
    recreatesRoot_agree (by decide)
  refine ⟨by decide +kernel,k,hk,t,hplay,hfailed,hiff.mpr fun j hj hlt _ => .inr ⟨by decide +kernel,?_⟩⟩
  intro k hk hkj
  omega

end Rollback

end Xv6.Tournament
