import Xv6.PipeRing

/-! Who sleeps on a pipe. `pipewrite` breaks the rule when it is killed in a round after it has stored
bytes, because that return does not wake the readers. -/
namespace Xv6.PipeRing
open Function Xv6.Machine
variable {P : Type} [DecidableEq P] {s t : Sys P} {p : P}

/-- No process sleeps on a pipe that is ready for it. -/
def Sys.Quiet (s : Sys P) : Prop :=
  (∀ p, s.asleep p=some .nread → s.empty=true ∧ s.writeopen=true) ∧
    ∀ p, s.asleep p=some .nwrite → s.full=true ∧ s.readopen=true

def Pc.holds : Pc → Bool
  | .wLoop _ _ | .wDone _ | .rWait _ | .rCopy _ _ | .rDone _ => true
  | .user _ | .wAcquire _ _ | .rAcquire _ | .closing _ => false

def Sys.WakesReaders (s : Sys P) : Prop :=
  ∃ p, s.lock=some p ∧ ((∃ i n, s.pc p=.wLoop i n ∧ s.since≠0) ∨ ∃ i, s.pc p=.wDone i)

def Sys.WakesWriters (s : Sys P) : Prop :=
  ∃ p, s.lock=some p ∧ ((∃ i n, s.pc p=.rCopy i n) ∨ ∃ i, s.pc p=.rDone i)

structure Sys.Inv (s : Sys P) : Prop where
  holds : ∀ p, (s.pc p).holds=true ↔ s.lock=some p
  readers : ∀ p, s.asleep p=some .nread → s.writeopen=true ∧ (s.empty=true ∨ s.WakesReaders)
  writers : ∀ p, s.asleep p=some .nwrite → s.readopen=true ∧ (s.full=true ∨ s.WakesWriters)

omit [DecidableEq P] in
theorem Sys.Inv.quiet (h : s.Inv) (hfree : s.lock=none) : s.Quiet := by
  refine ⟨fun p hp => ?_,fun p hp => ?_⟩
  · obtain ⟨hopen,hempty | ⟨q,hq,-⟩⟩ := h.readers p hp
    · exact ⟨hempty,hopen⟩
    · rw [hfree] at hq
      cases hq
  · obtain ⟨hopen,hfull | ⟨q,hq,-⟩⟩ := h.writers p hp
    · exact ⟨hfull,hopen⟩
    · rw [hfree] at hq
      cases hq

def Event.advancer : Event P → Option P
  | .advance p _ => some p
  | .pipewrite _ _ | .piperead _ _ | .pipeclose _ _ | .kill _ => none

/-- The next step of `p` is the early return of `pipewrite`. -/
def Sys.returnsEarly (s : Sys P) (p : P) : Bool :=
  match s.pc p with
  | .wLoop i n => i < n ∧ (!s.readopen ∨ s.killed p)
  | _ => false

/-- `pipewrite` does not return early when it has stored bytes since it took the lock. -/
def StoresThenWakes (s : Sys P) (e : Event P) : Prop :=
  ∀ p∈e.advancer, s.returnsEarly p=true → s.since=0

instance StoresThenWakes.decidable (s : Sys P) (e : Event P) : Decidable (StoresThenWakes s e) :=
  inferInstanceAs (Decidable (∀ p∈e.advancer, _))

omit [DecidableEq P] in
theorem asleep_wakeup {c c' : Chan} {q : P} (h : (s.wakeup c).asleep q=some c') :
    c'≠c ∧ s.asleep q=some c' := by
  simp only [Sys.wakeup] at h
  split at h
  · cases h
  · next hne =>
    refine ⟨?_,h⟩
    rintro rfl
    exact hne h

omit [DecidableEq P] in
theorem not_wakesWriters (hp : s.lock=some p) (hpc : ∀ i n, s.pc p≠.rCopy i n ∧ s.pc p≠.rDone i) :
    ¬ s.WakesWriters := by
  rintro ⟨q,hq,hpc'⟩
  obtain rfl : p=q := Option.some.inj (hp.symm.trans hq)
  rcases hpc' with ⟨i,n,hi⟩ | ⟨i,hi⟩
  · exact (hpc i n).1 hi
  · exact (hpc i 0).2 hi

omit [DecidableEq P] in
theorem not_wakesReaders (hp : s.lock=some p)
    (hpc : ∀ i n, (s.pc p=.wLoop i n → s.since=0) ∧ s.pc p≠.wDone i) : ¬ s.WakesReaders := by
  rintro ⟨q,hq,hpc'⟩
  obtain rfl : p=q := Option.some.inj (hp.symm.trans hq)
  rcases hpc' with ⟨i,n,hi,hsince⟩ | ⟨i,hi⟩
  · exact hsince ((hpc i n).1 hi)
  · exact (hpc i 0).2 hi

section Steps
variable {k : Pc} {i n : Int} (h : s.Inv)
include h

theorem Sys.Inv.goto (hp : (s.pc p).holds=false) (hk : k.holds=false) : (s.goto p k).Inv := by
  have hfree : s.lock≠some p := fun hlock => by
    rw [(h.holds p).mpr hlock] at hp
    cases hp
  have hne : ∀ q, s.lock=some q → q≠p := by
    rintro q hq rfl
    exact hfree hq
  refine ⟨fun q => ?_,fun q hq => ⟨(h.readers q hq).1,(h.readers q hq).2.imp_right ?_⟩,
    fun q hq => ⟨(h.writers q hq).1,(h.writers q hq).2.imp_right ?_⟩⟩
  · change (update s.pc p k q).holds=true ↔ s.lock=some q
    by_cases hq : q=p
    · rw [hq,update_self,hk]
      simpa using hfree
    · rw [update_of_ne hq]
      exact h.holds q
  · rintro ⟨r,hr,hpc⟩
    refine ⟨r,hr,?_⟩
    change (∃ i n, update s.pc p k r=.wLoop i n ∧ s.since≠0) ∨ ∃ i, update s.pc p k r=.wDone i
    rwa [update_of_ne (hne r hr)]
  · rintro ⟨r,hr,hpc⟩
    refine ⟨r,hr,?_⟩
    change (∃ i n, update s.pc p k r=.rCopy i n) ∨ ∃ i, update s.pc p k r=.rDone i
    rwa [update_of_ne (hne r hr)]

theorem Sys.Inv.acquire (hk : k.holds=true) (hs : s.acquire p k=some t) : t.Inv := by
  unfold Sys.acquire at hs
  split at hs
  · next hfree =>
    cases hs
    obtain ⟨hreaders,hwriters⟩ := h.quiet hfree.1
    refine ⟨fun q => ?_,fun q hq => ⟨(hreaders q hq).2,.inl (hreaders q hq).1⟩,
      fun q hq => ⟨(hwriters q hq).2,.inl (hwriters q hq).1⟩⟩
    change (update s.pc p k q).holds=true ↔ some p=some q
    by_cases hq : q=p
    · rw [hq,update_self]
      exact ⟨fun _ => rfl,fun _ => hk⟩
    · rw [update_of_ne hq,h.holds q,hfree.1]
      simp [Ne.symm hq]
  · cases hs

omit [DecidableEq P] in
theorem Sys.Inv.pipeclose (hfree : s.lock=none) (w : Bool) : (s.pipeclose w).Inv := by
  obtain ⟨hreaders,hwriters⟩ := h.quiet hfree
  cases w with
  | false =>
    refine ⟨h.holds,fun q hq => ?_,fun q hq => absurd rfl (asleep_wakeup hq).1⟩
    exact ⟨(hreaders q (asleep_wakeup hq).2).2,.inl (hreaders q (asleep_wakeup hq).2).1⟩
  | true =>
    refine ⟨h.holds,fun q hq => absurd rfl (asleep_wakeup hq).1,fun q hq => ?_⟩
    exact ⟨(hwriters q (asleep_wakeup hq).2).2,.inl (hwriters q (asleep_wakeup hq).2).1⟩

theorem Sys.Inv.kill (p : P) :
    { s with killed := update s.killed p true, asleep := update s.asleep p none }.Inv := by
  have hold : ∀ q c, update s.asleep p none q=some c → s.asleep q=some c := by
    intro q c hq
    by_cases hqp : q=p
    · rw [hqp,update_self] at hq
      cases hq
    · rwa [update_of_ne hqp] at hq
  exact ⟨h.holds,fun q hq => h.readers q (hold q _ hq),fun q hq => h.writers q (hold q _ hq)⟩

omit [DecidableEq P] in
theorem Sys.Inv.readers_of {w : Prop} (hreaders : ¬ s.WakesReaders) (q : P)
    (hq : s.asleep q=some .nread) : s.writeopen=true ∧ (s.empty=true ∨ w) :=
  ⟨(h.readers q hq).1,.inl ((h.readers q hq).2.resolve_right hreaders)⟩

omit [DecidableEq P] in
theorem Sys.Inv.writers_of {w : Prop} (hwriters : ¬ s.WakesWriters) (q : P)
    (hq : s.asleep q=some .nwrite) : s.readopen=true ∧ (s.full=true ∨ w) :=
  ⟨(h.writers q hq).1,.inl ((h.writers q hq).2.resolve_right hwriters)⟩

section Held
variable (hp : s.lock=some p)
include hp

theorem Sys.Inv.holds_stay (hk : k.holds=true) (q : P) :
    (update s.pc p k q).holds=true ↔ s.lock=some q := by
  by_cases hq : q=p
  · rw [hq,update_self]
    exact ⟨fun _ => hp,fun _ => hk⟩
  · rw [update_of_ne hq]
    exact h.holds q

theorem Sys.Inv.holds_leave (hk : k.holds=false) (q : P) :
    (update s.pc p k q).holds=true ↔ none=some q := by
  by_cases hq : q=p
  · rw [hq,update_self,hk]
    simp
  · rw [update_of_ne hq,h.holds q,hp]
    simp [Ne.symm hq]

theorem Sys.Inv.release (hk : k.holds=false)
    (hreaders : ¬ s.WakesReaders) (hwriters : ¬ s.WakesWriters) : (s.release p k).Inv :=
  ⟨h.holds_leave hp hk,
    h.readers_of hreaders,
    h.writers_of hwriters⟩

theorem Sys.Inv.toDone (hwriters : ¬ s.WakesWriters) : (s.goto p (.wDone i)).Inv :=
  ⟨h.holds_stay hp rfl,fun q hq => ⟨(h.readers q hq).1,.inr ⟨p,hp,.inr ⟨i,update_self ..⟩⟩⟩,
    h.writers_of hwriters⟩

theorem Sys.Inv.writeRound (hpc : s.pc p=.wLoop i n)
    (hok : i < n → (!s.readopen ∨ s.killed p) → s.since=0) (x : Option UInt8) :
    (s.writeRound p i n x).Inv := by
  have hwriters : ¬ s.WakesWriters := not_wakesWriters hp (by simp [hpc])
  unfold Sys.writeRound
  split
  · next hin =>
    split
    · next hback =>
      refine h.release hp rfl (not_wakesReaders hp fun i' n' => ?_) hwriters
      exact ⟨fun _ => hok hin hback,by simp [hpc]⟩
    · next hgo =>
      split
      · next hfull =>
        -- the writer wakes the readers and sleeps
        have hopen : s.readopen=true := by
          by_contra hclosed
          exact hgo (.inl (by simpa using hclosed))
        refine ⟨h.holds_leave hp rfl,fun q hq => ?_,fun q hq => ?_⟩
        · change update (s.wakeup .nread).asleep p (some .nwrite) q=some .nread at hq
          by_cases hqp : q=p
          · rw [hqp,update_self] at hq
            cases hq
          · rw [update_of_ne hqp] at hq
            exact absurd rfl (asleep_wakeup hq).1
        · exact ⟨hopen,.inl hfull⟩
      · next hfull =>
        cases x with
        | none => exact h.toDone hp hwriters
        | some ch =>
          refine ⟨h.holds_stay hp rfl,fun q hq => ⟨(h.readers q hq).1,.inr ⟨p,hp,.inl ?_⟩⟩,
            fun q hq => absurd ((h.writers q hq).2.resolve_right hwriters) hfull⟩
          exact ⟨i+1,n,update_self ..,Nat.succ_ne_zero _⟩
  · exact h.toDone hp hwriters

theorem Sys.Inv.writeDone (hpc : s.pc p=.wDone i) :
    ((s.wakeup .nread).release p (.user i)).Inv := by
  have hwriters : ¬ s.WakesWriters := not_wakesWriters hp (by simp [hpc])
  refine ⟨h.holds_leave hp rfl,fun q hq => absurd rfl (asleep_wakeup hq).1,fun q hq => ?_⟩
  obtain ⟨hopen,hfull⟩ := h.writers q (asleep_wakeup hq).2
  exact ⟨hopen,.inl (hfull.resolve_right hwriters)⟩

theorem Sys.Inv.readWait (hpc : s.pc p=.rWait n) : (s.readWait p n).Inv := by
  have hreaders : ¬ s.WakesReaders := not_wakesReaders hp (by simp [hpc])
  have hwriters : ¬ s.WakesWriters := not_wakesWriters hp (by simp [hpc])
  unfold Sys.readWait
  split
  · next hempty =>
    split
    · exact h.release hp rfl hreaders hwriters
    · refine ⟨h.holds_leave hp rfl,fun q _ => ⟨hempty.2,.inl hempty.1⟩,fun q hq => ?_⟩
      change update s.asleep p (some .nread) q=some .nwrite at hq
      by_cases hqp : q=p
      · rw [hqp,update_self] at hq
        cases hq
      · rw [update_of_ne hqp] at hq
        exact h.writers_of hwriters q hq
  · exact ⟨h.holds_stay hp rfl,
      h.readers_of hreaders,
      fun q hq => ⟨(h.writers q hq).1,.inr ⟨p,hp,.inl ⟨0,n,update_self ..⟩⟩⟩⟩

theorem Sys.Inv.toReadDone (hreaders : ¬ s.WakesReaders) : (s.goto p (.rDone i)).Inv :=
  ⟨h.holds_stay hp rfl,
    h.readers_of hreaders,
    fun q hq => ⟨(h.writers q hq).1,.inr ⟨p,hp,.inr ⟨i,update_self ..⟩⟩⟩⟩

theorem Sys.Inv.readRound (hpc : s.pc p=.rCopy i n) (ok : Bool) : (s.readRound p i n ok).Inv := by
  have hreaders : ¬ s.WakesReaders := not_wakesReaders hp (by simp [hpc])
  unfold Sys.readRound
  split
  · split
    · exact h.toReadDone hp hreaders
    · next hempty =>
      -- with bytes in the ring nobody sleeps on `nread`
      have hnone : ∀ q, s.asleep q≠some .nread := fun q hq =>
        hempty ((h.readers q hq).2.resolve_right hreaders)
      cases ok with
      | false =>
        exact ⟨h.holds_stay hp rfl,fun q hq => absurd hq (hnone q),
          fun q hq => ⟨(h.writers q hq).1,.inr ⟨p,hp,.inr ⟨i,update_self ..⟩⟩⟩⟩
      | true =>
        exact ⟨h.holds_stay hp rfl,fun q hq => absurd hq (hnone q),
          fun q hq => ⟨(h.writers q hq).1,.inr ⟨p,hp,.inl ⟨i+1,n,update_self ..⟩⟩⟩⟩
  · exact h.toReadDone hp hreaders

theorem Sys.Inv.readDone (hpc : s.pc p=.rDone i) :
    ((s.wakeup .nwrite).release p (.user i)).Inv := by
  have hreaders : ¬ s.WakesReaders := not_wakesReaders hp (by simp [hpc])
  refine ⟨h.holds_leave hp rfl,fun q hq => ?_,fun q hq => absurd rfl (asleep_wakeup hq).1⟩
  obtain ⟨hopen,hempty⟩ := h.readers q (asleep_wakeup hq).2
  exact ⟨hopen,.inl (hempty.resolve_right hreaders)⟩

end Held

theorem Sys.Inv.advance {x : Option UInt8} (hok : StoresThenWakes s (.advance p x))
    (hs : s.advance p x=some t) : t.Inv := by
  have hlock : (s.pc p).holds=true → s.lock=some p := (h.holds p).mp
  cases hpc : s.pc p with
  | user r => simp [Sys.advance,hpc] at hs
  | wAcquire i n =>
    simp only [Sys.advance,hpc] at hs
    exact h.acquire rfl hs
  | wLoop i n =>
    simp only [Sys.advance,hpc,Option.some.injEq] at hs
    subst hs
    refine h.writeRound (hlock (by rw [hpc]; rfl)) hpc (fun hin hback => ?_) x
    have hearly : s.returnsEarly p=true := by
      simp only [Sys.returnsEarly,hpc,decide_eq_true_eq]
      exact ⟨hin,hback⟩
    exact hok p rfl hearly
  | wDone i =>
    simp only [Sys.advance,hpc,Option.some.injEq] at hs
    subst hs
    exact h.writeDone (hlock (by rw [hpc]; rfl)) hpc
  | rAcquire n =>
    simp only [Sys.advance,hpc] at hs
    exact h.acquire rfl hs
  | rWait n =>
    simp only [Sys.advance,hpc,Option.some.injEq] at hs
    subst hs
    exact h.readWait (hlock (by rw [hpc]; rfl)) hpc
  | rCopy i n =>
    simp only [Sys.advance,hpc,Option.some.injEq] at hs
    subst hs
    exact h.readRound (hlock (by rw [hpc]; rfl)) hpc x.isSome
  | rDone i =>
    simp only [Sys.advance,hpc,Option.some.injEq] at hs
    subst hs
    exact h.readDone (hlock (by rw [hpc]; rfl)) hpc
  | closing w =>
    simp only [Sys.advance,hpc] at hs
    split at hs
    · next hfree =>
      cases hs
      refine (h.pipeclose hfree w).goto ?_ rfl
      cases w <;> simp [Sys.pipeclose,Sys.wakeup,hpc,Pc.holds]
    · cases hs

theorem Sys.Inv.enter (hk : k.holds=false) (hs : s.enter p k=some t) : t.Inv := by
  cases hpc : s.pc p with
  | user r =>
    simp only [Sys.enter,hpc,Option.some.injEq] at hs
    subst hs
    exact h.goto (by rw [hpc]; rfl) hk
  | _ => simp [Sys.enter,hpc] at hs

theorem step_inv {e : Event P} (hok : StoresThenWakes s e) (hs : step s e=some t) : t.Inv := by
  cases e with
  | pipewrite p n => exact h.enter rfl hs
  | piperead p n => exact h.enter rfl hs
  | pipeclose p w => exact h.enter rfl hs
  | kill p =>
    cases hs
    exact h.kill p
  | advance p x => exact h.advance hok hs

end Steps

/-- In every run in which `pipewrite` never returns early after it has stored bytes under the
lock, whenever the lock is free nobody sleeps on a pipe that is ready for it. -/
theorem no_sleep_on_ready_pipe {data : Nat → UInt8} {es : List (Event P)}
    (hok : Along step (fun _ s e => StoresThenWakes s e) [] (init data : Sys P) es)
    (hrun : run step es (init data)=some s) (hfree : s.lock=none) : s.Quiet := by
  have hinit : (init data : Sys P).Inv :=
    ⟨fun q => by simp [init,Pc.holds],fun q hq => (by cases hq),fun q hq => (by cases hq)⟩
  have hinv : s.Inv := run_induction (I := fun _ (u : Sys P) => u.Inv)
    (fun _ _ e _ h hok hs => step_inv (e := e) h hok hs) hinit hok hrun
  exact hinv.quiet hfree

/-- Reader 1 sleeps; writer 0 stores a byte of two, is killed and returns. -/
def killedWriter : List (Event Nat) :=
  [.piperead 1 1,.advance 1 none,.advance 1 none,.pipewrite 0 2,.advance 0 none,
    .advance 0 (some 7),.kill 0,.advance 0 (some 9)]

def afterKill : Sys Nat := (run step killedWriter (init fun _ => 0)).get (by decide +kernel)

/-- The byte is in the ring, the lock is free, and the reader sleeps on. -/
theorem killed_writer_leaves_reader_asleep :
    run step killedWriter (init fun _ => 0)=some afterKill ∧ afterKill.lock=none ∧
      afterKill.asleep 1=some .nread ∧ afterKill.contents=[7] := by
  refine ⟨(Option.some_get _).symm,?_⟩
  decide +kernel

def killedBefore : List (Event Nat) :=
  [.piperead 1 1,.advance 1 none,.advance 1 none,.pipewrite 0 2,.kill 0,.advance 0 none,
    .advance 0 (some 7),.pipewrite 2 1,.advance 2 none,.advance 2 (some 8),.advance 2 none,
    .advance 2 none]

def afterKillBefore : Sys Nat := (run step killedBefore (init fun _ => 0)).get (by decide +kernel)

theorem killed_before_quiet : afterKillBefore.Quiet :=
  no_sleep_on_ready_pipe (by decide +kernel) (Option.some_get _).symm (by decide +kernel)

end Xv6.PipeRing
