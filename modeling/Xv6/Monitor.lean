import Xv6.Machine

/-! A lock with condition variables. A process that has the lock goes on step by step; it can wake
those that sleep on a channel, sleep itself, which gives up the lock, or leave. Meanwhile the
shared state may change on its own, and a process may be woken for no reason. -/
namespace Xv6.Monitor
open Function Xv6.Machine
variable {P S A C R E : Type*}

/-- How a step ends for the process that made it. -/
inductive Next (A C R : Type*) where
  | stay (a : A)
  | sleep (c : C) (a : A)
  | leave (r : R)

/-- A step of the process that has the lock. -/
structure Act (S A C R : Type*) where
  shared : S
  wakes : Option C
  next : Next A C R

/-- Where a process is that does not have the lock. One that sleeps has to get the lock again. -/
inductive Pc (A C R : Type*) where
  | outside (r : Option R)
  | enter (a : A)
  | inside
  | asleep (c : C) (a : A)
deriving DecidableEq

structure Code (P S A C R E : Type*) where
  act : P → S → A → Act S A C R
  env : S → E → Option S

structure Sys (P S A C R : Type*) where
  shared : S
  /-- The process that has the lock, and where it is. -/
  holder : Option (P × A)
  pc : P → Pc A C R

def start (x : S) : Sys P S A C R := ⟨x,none,fun _ => .outside none⟩

def Next.holder (p : P) : Next A C R → Option (P × A)
  | .stay a => some (p,a)
  | .sleep _ _ | .leave _ => none

def Next.pc : Next A C R → Pc A C R
  | .stay _ => .inside
  | .sleep c a => .asleep c a
  | .leave r => .outside (some r)

section Step
variable [DecidableEq P] [DecidableEq C]

def Pc.woken (c : Option C) : Pc A C R → Pc A C R
  | .asleep c' a => if c=some c' then .enter a else .asleep c' a
  | k => k

def Sys.goto (s : Sys P S A C R) (p : P) (k : Pc A C R) : Sys P S A C R :=
  { s with pc := update s.pc p k }

def Sys.take (s : Sys P S A C R) (p : P) (b : Act S A C R) : Sys P S A C R where
  shared := b.shared
  holder := b.next.holder p
  pc := update (fun q => (s.pc q).woken b.wakes) p b.next.pc

inductive Label (P A E : Type*) where
  | call (p : P) (a : A)
  | acquire (p : P)
  | advance
  | rouse (p : P)
  | env (e : E)

def Code.step (M : Code P S A C R E) (s : Sys P S A C R) : Label P A E → Option (Sys P S A C R)
  | .call p a =>
      match s.pc p with
      | .outside _ => some (s.goto p (.enter a))
      | _ => none
  | .acquire p =>
      match s.pc p, s.holder with
      | .enter a, none => some ({ s with holder := some (p,a) }.goto p .inside)
      | _, _ => none
  | .advance => s.holder.map fun (p,a) => s.take p (M.act p s.shared a)
  | .rouse p =>
      match s.pc p with
      | .asleep _ a => some (s.goto p (.enter a))
      | _ => none
  | .env e => (M.env s.shared e).map fun x => { s with shared := x }

/-- What a step of the process inside, at `a`, is to keep. A sleeper that waits for `B` to become
false is woken in the step if `B` does, or the process owes it a wakeup from then on. -/
structure Acts (I : S → Option (P × A) → Prop) (J : S → P → Pc A C R → Prop)
    (B : S → C → A → Prop) (owes : A → C → Prop) (x : S) (p : P) (a : A) (b : Act S A C R) :
    Prop where
  shared : I b.shared (b.next.holder p)
  self : J b.shared p b.next.pc
  others : ∀ q k, q≠p → J x q k → J b.shared q k
  sleeps : ∀ c a', b.next=.sleep c a' → B b.shared c a'
  wakes : ∀ c, b.wakes=some c ∨ (∃ a', b.next=.stay a' ∧ owes a' c) ∨
    ¬owes a c ∧ ∀ a', B x c a' → B b.shared c a'

/-- The rule for an invariant `I` of the shared state and of the place of the process inside,
with a condition `J` on each process, if every call meets `ok`. -/
structure Rule (M : Code P S A C R E) (ok : S → P → A → Bool) (I : S → Option (P × A) → Prop)
    (J : S → P → Pc A C R → Prop) (B : S → C → A → Prop) (owes : A → C → Prop) : Prop where
  call : ∀ {x p r a}, J x p (.outside r) → ok x p a=true → J x p (.enter a)
  rouse : ∀ {x p c a}, J x p (.asleep c a) → J x p (.enter a)
  acquire : ∀ {x p a}, I x none → J x p (.enter a) → I x (some (p,a)) ∧ J x p .inside
  act : ∀ {x p a}, I x (some (p,a)) → Acts I J B owes x p a (M.act p x a)
  env : ∀ {x e y}, M.env x e=some y →
    (∀ h, I x h → I y h) ∧ (∀ q k, J x q k → J y q k) ∧ ∀ c a, B x c a → B y c a

/-- The calls of a step meet the condition. -/
def Calls (ok : S → P → A → Bool) (s : Sys P S A C R) : Label P A E → Bool
  | .call p a => ok s.shared p a
  | _ => true

variable {M : Code P S A C R E} {ok : S → P → A → Bool} {I : S → Option (P × A) → Prop}
  {J : S → P → Pc A C R → Prop} {B : S → C → A → Prop} {owes : A → C → Prop}
  {s t : Sys P S A C R} {l : Label P A E} {p : P} {k : Pc A C R}

omit [DecidableEq P] [DecidableEq C] in
/-- A step of a process that owes nothing and goes on, and after which all sleepers may sleep on. -/
theorem Acts.quiet {x : S} {a : A} {b : Act S A C R} (hshared : I b.shared (b.next.holder p))
    (hself : J b.shared p b.next.pc) (hothers : ∀ q k, q≠p → J x q k → J b.shared q k)
    (hB : ∀ c a', B x c a' → B b.shared c a') (howes : ∀ c, ¬owes a c)
    (hawake : ∀ c a', b.next≠.sleep c a') : Acts I J B owes x p a b :=
  ⟨hshared,hself,hothers,fun c a' h => absurd h (hawake c a'),fun c => .inr (.inr ⟨howes c,hB c⟩)⟩

/-- What is kept: **no wakeup is lost**, so that a process sleeps only while `B` holds, or while
the process inside owes it a wakeup. -/
structure Kept (I : S → Option (P × A) → Prop) (J : S → P → Pc A C R → Prop)
    (B : S → C → A → Prop) (owes : A → C → Prop) (s : Sys P S A C R) : Prop where
  shared : I s.shared s.holder
  each : ∀ q, J s.shared q (s.pc q)
  sleepers : ∀ q c a, s.pc q=.asleep c a →
    B s.shared c a ∨ ∃ p b, s.holder=some (p,b) ∧ owes b c

omit [DecidableEq C] in
/-- A process that does not go to sleep. -/
theorem Kept.goto (h : Kept I J B owes s) (hk : J s.shared p k) (hawake : ∀ c a, k≠.asleep c a) :
    Kept I J B owes (s.goto p k) := by
  refine ⟨h.shared,fun q => ?_,fun q c a hq => ?_⟩
  · by_cases hqp : q=p
    · subst hqp
      simpa [Sys.goto] using hk
    · simpa [Sys.goto,hqp] using h.each q
  · by_cases hqp : q=p
    · subst hqp
      exact absurd (by simpa [Sys.goto] using hq) (hawake c a)
    · exact h.sleepers q c a (by simpa [Sys.goto,hqp] using hq)

theorem Pc.woken_asleep {w : Option C} {c : C} {a : A} (h : k.woken w=.asleep c a) :
    k=.asleep c a ∧ w≠some c := by
  cases k with
  | asleep c' a' =>
    simp only [Pc.woken] at h
    split at h
    · cases h
    · next hne =>
      cases h
      exact ⟨rfl,hne⟩
  | _ => cases h

theorem Kept.take {a : A} {b : Act S A C R} (h : Kept I J B owes s) (hh : s.holder=some (p,a))
    (hrouse : ∀ {x q c a}, J x q (.asleep c a) → J x q (.enter a))
    (hb : Acts I J B owes s.shared p a b) : Kept I J B owes (s.take p b) := by
  refine ⟨hb.shared,fun q => ?_,fun q c a' hq => ?_⟩
  · by_cases hqp : q=p
    · subst hqp
      simpa [Sys.take] using hb.self
    · have hJ := hb.others q _ hqp (h.each q)
      simp only [Sys.take,update_of_ne hqp]
      cases hq : s.pc q with
      | asleep c a' =>
        rw [hq] at hJ
        simp only [Pc.woken]
        split
        · exact hrouse hJ
        · exact hJ
      | _ =>
        rw [hq] at hJ
        exact hJ
  · by_cases hqp : q=p
    · subst hqp
      simp only [Sys.take,update_self] at hq
      cases hnext : b.next with
      | sleep c' a'' =>
        rw [hnext] at hq
        cases hq
        exact .inl (hb.sleeps _ _ hnext)
      | _ =>
        rw [hnext] at hq
        cases hq
    · simp only [Sys.take,update_of_ne hqp] at hq
      obtain ⟨hasleep,hne⟩ := Pc.woken_asleep hq
      rcases hb.wakes c with hwakes | ⟨a'',hnext,howes⟩ | ⟨hnot,hstill⟩
      · exact absurd hwakes hne
      · exact .inr ⟨p,a'',by simp [Sys.take,hnext,Next.holder],howes⟩
      · rcases h.sleepers q c a' hasleep with hB | ⟨p',a'',hh',howes⟩
        · exact .inl (hstill a' hB)
        · rw [hh] at hh'
          cases hh'
          exact absurd howes hnot

theorem Rule.step (hM : Rule M ok I J B owes) (h : Kept I J B owes s) (hok : Calls ok s l=true)
    (hs : M.step s l=some t) : Kept I J B owes t := by
  cases l with
  | call p a =>
    cases hp : s.pc p with
    | outside r =>
      simp only [Code.step,hp,Option.some.injEq] at hs
      subst hs
      exact h.goto (hM.call (hp ▸ h.each p) hok) (by simp)
    | _ => simp [Code.step,hp] at hs
  | acquire p =>
    cases hp : s.pc p with
    | enter a =>
      cases hfree : s.holder with
      | none =>
        simp only [Code.step,hp,hfree,Option.some.injEq] at hs
        subst hs
        obtain ⟨hI,hJ⟩ := hM.acquire (hfree ▸ h.shared) (hp ▸ h.each p)
        refine Kept.goto ⟨hI,h.each,fun q c b hq => .inl ?_⟩ hJ (by simp)
        exact (h.sleepers q c b hq).resolve_right (by simp [hfree])
      | some b => simp [Code.step,hp,hfree] at hs
    | _ => simp [Code.step,hp] at hs
  | advance =>
    obtain ⟨⟨p,a⟩,hh,rfl⟩ := Option.map_eq_some_iff.mp hs
    exact h.take hh hM.rouse (hM.act (hh ▸ h.shared))
  | rouse p =>
    cases hp : s.pc p with
    | asleep c a =>
      simp only [Code.step,hp,Option.some.injEq] at hs
      subst hs
      exact h.goto (hM.rouse (hp ▸ h.each p)) (by simp)
    | _ => simp [Code.step,hp] at hs
  | env e =>
    obtain ⟨y,hy,rfl⟩ := Option.map_eq_some_iff.mp hs
    obtain ⟨hI,hJ,hB⟩ := hM.env hy
    exact ⟨hI _ h.shared,fun q => hJ q _ (h.each q),
      fun q c a hq => (h.sleepers q c a hq).imp_left (hB c a)⟩

/-- The rule for runs whose calls meet the condition. -/
theorem Rule.run {x : S} {ls : List (Label P A E)} (hM : Rule M ok I J B owes) (h0 : I x none)
    (hJ : ∀ q, J x q (.outside none))
    (hok : Along M.step (fun _ s l => Calls ok s l=true) [] (start x) ls)
    (hrun : Machine.run M.step ls (start x)=some t) : Kept I J B owes t := by
  have hstep : ∀ (past : List (Label P A E)) u l t, Kept I J B owes u → Calls ok u l=true →
      M.step u l=some t → Kept I J B owes t := fun _ _ _ _ hkept hok hs => hM.step hkept hok hs
  exact run_induction (I := fun _ => Kept I J B owes) hstep ⟨h0,hJ,by simp [start]⟩ hok hrun

end Step

end Xv6.Monitor
