import Xv6.Monitor

/-! The sleep-locks of `kernel/sleeplock.c`: processes in `acquiresleep`, `releasesleep` and
`holdingsleep` on one lock, whose spinlock `lk->lk` makes it a monitor. -/
namespace Xv6.SleepLock
open Function Xv6.Machine Xv6.Monitor
variable {P : Type}

/-- A `struct sleeplock`. The source has no `has`: it says which processes are past
`lk->locked = 1` and have not come to `lk->locked = 0` since. -/
structure Lock (P : Type) where
  locked : Bool
  pid : Nat
  has : P → Bool

def initsleeplock : Lock P := ⟨false,0,fun _ => false⟩

/-- Where a process is between `acquire` and `release`. -/
inductive Place where
  | acquireTest
  | acquirePid
  | releaseLocked
  | releasePid
  | releaseWakeup
  | holding

inductive Result where
  | acquired
  | released
  | holding (r : Bool)

def code [DecidableEq P] (pid : P → Nat) : Code P (Lock P) Place Unit Result Empty where
  act p x
    | .acquireTest =>
        if x.locked then ⟨x,none,.sleep () .acquireTest⟩
        else ⟨{ x with locked := true, has := update x.has p true },none,.stay .acquirePid⟩
    | .acquirePid => ⟨{ x with pid := pid p },none,.leave .acquired⟩
    | .releaseLocked =>
        ⟨{ x with locked := false, has := update x.has p false },none,.stay .releasePid⟩
    | .releasePid => ⟨{ x with pid := 0 },none,.stay .releaseWakeup⟩
    | .releaseWakeup => ⟨x,some (),.leave .released⟩
    | .holding => ⟨x,none,.leave (.holding (x.locked && x.pid == pid p))⟩
  env _ := nofun

/-- The three functions are called, `releasesleep` only by a process that has the lock. -/
def allowed (x : Lock P) (p : P) : Place → Bool
  | .acquireTest | .holding => true
  | .releaseLocked => x.has p
  | .acquirePid | .releasePid | .releaseWakeup => false

/-- What is true where the process inside is. -/
def At (x : Lock P) (p : P) : Place → Prop
  | .acquirePid | .releaseLocked => x.has p=true
  | .releasePid | .releaseWakeup => x.locked=false
  | .acquireTest | .holding => True

/-- `locked` says whether a process has the lock, and only one has. Its number is in `pid`, but
while `acquiresleep` is about to store it. -/
structure Sound (pid : P → Nat) (x : Lock P) (h : Option (P × Place)) : Prop where
  locked : x.locked=true ↔ ∃ p, x.has p=true
  unique : ∀ p q, x.has p=true → x.has q=true → p=q
  pid : (∀ p, h≠some (p,.acquirePid)) → ∀ p, x.has p=true → x.pid=pid p
  place : ∀ p a, h=some (p,a) → At x p a

/-- `releasesleep` has given up the lock and is going to wake the sleepers. -/
def Owes (a : Place) (_ : Unit) : Prop := a=.releasePid ∨ a=.releaseWakeup

/-- The last answer of `holdingsleep` is still right. -/
def Each (x : Lock P) (p : P) : Pc Place Unit Result → Prop
  | .asleep _ a => a=.acquireTest
  | .enter a => allowed x p a=true
  | .outside (some (.holding r)) => r=x.has p
  | .outside _ | .inside => True

variable {pid : P → Nat} {x y : Lock P} {h : Option (P × Place)} {p q : P}

theorem Sound.free (hs : Sound pid x h) (hx : x.locked=false) (p : P) : x.has p=false := by
  by_contra hp
  rw [hs.locked.mpr ⟨p,by simpa using hp⟩] at hx
  cases hx

theorem Each.frame {k : Pc Place Unit Result} (hk : Each x q k) (hhas : y.has q=x.has q) :
    Each y q k := by
  cases k with
  | asleep c a => exact hk
  | enter a =>
    cases a with
    | releaseLocked => exact hhas.trans hk
    | _ => exact hk
  | outside r =>
    rcases r with _ | _ | _ | r
    · trivial
    · trivial
    · trivial
    · exact Eq.trans hk hhas.symm
  | inside => trivial

theorem holding_eq (hpid : Injective pid) (hs : Sound pid x (some (p,.holding))) :
    (x.locked && x.pid == pid p)=x.has p := by
  have hnum : ∀ q, x.has q=true → x.pid=pid q := hs.pid (by simp)
  cases hp : x.has p with
  | true => simp [hs.locked.mpr ⟨p,hp⟩,hnum p hp]
  | false =>
    cases hx : x.locked with
    | false => rfl
    | true =>
      obtain ⟨q,hq⟩ := hs.locked.mp hx
      have hne : pid q≠pid p := by
        intro heq
        rw [hpid heq,hp] at hq
        cases hq
      simpa [hnum q hq] using hne

theorem rule [DecidableEq P] (hpid : Injective pid) :
    Rule (code pid) allowed (Sound pid) Each (fun x _ _ => x.locked=true) Owes where
  call _ hok := hok
  rouse hk := by
    rw [hk]
    rfl
  acquire {x p a} hs hk := by
    refine ⟨⟨hs.locked,hs.unique,fun _ => hs.pid (by simp),?_⟩,trivial⟩
    rintro q b ⟨⟩
    cases a with
    | acquireTest | holding => trivial
    | releaseLocked => exact hk
    | acquirePid | releasePid | releaseWakeup => cases hk
  act {x p a} hs := by
    have hat := hs.place p a rfl
    cases a with
    | acquireTest =>
      cases hx : x.locked with
      | true =>
        simp only [code,hx,if_true]
        exact ⟨⟨hs.locked,hs.unique,fun _ => hs.pid (by simp),by simp [Next.holder]⟩,rfl,
          fun _ _ _ => id,fun _ _ _ => hx,fun _ => .inr (.inr ⟨by simp [Owes],fun _ => id⟩)⟩
      | false =>
        have hfree := hs.free hx
        simp only [code,hx,Bool.false_eq_true,if_false]
        refine .quiet ⟨?_,?_,?_,?_⟩ trivial (fun q k hq hk => hk.frame (update_of_ne hq ..))
          (fun _ _ _ => rfl) (by simp [Owes]) (by simp)
        · simpa using ⟨p,update_self ..⟩
        · intro q r hq hr
          simp only [update_apply,hfree,ite_eq_left_iff,Bool.false_eq_true,imp_false,
            not_not] at hq hr
          rw [hq,hr]
        · exact fun hne => absurd rfl (hne p)
        · rintro q b ⟨⟩
          exact update_self ..
    | acquirePid =>
      refine .quiet ⟨hs.locked,hs.unique,fun _ q hq => ?_,by simp [code,Next.holder]⟩ trivial
        (fun _ _ _ hk => hk.frame rfl) (fun _ _ => id) (by simp [Owes]) (by simp [code])
      rw [hs.unique q p hq hat]
      rfl
    | releaseLocked =>
      have hall : ∀ q, update x.has p false q=false := by
        intro q
        by_cases hq : q=p
        · rw [hq,update_self]
        · rw [update_of_ne hq]
          by_contra hhas
          exact hq (hs.unique q p (by simpa using hhas) hat)
      refine ⟨⟨by simp [code,hall],by simp [code,hall],by simp [code,hall],?_⟩,trivial,
        fun q k hq hk => hk.frame (update_of_ne hq ..),by simp [code],
        fun _ => .inr (.inl ⟨_,rfl,.inl rfl⟩)⟩
      rintro q b ⟨⟩
      rfl
    | releasePid =>
      have hfree := hs.free hat
      refine ⟨⟨hs.locked,hs.unique,by simp [code,hfree],?_⟩,trivial,fun _ _ _ hk => hk.frame rfl,
        by simp [code],fun _ => .inr (.inl ⟨_,rfl,.inr rfl⟩)⟩
      rintro q b ⟨⟩
      exact hat
    | releaseWakeup =>
      exact ⟨⟨hs.locked,hs.unique,fun _ => hs.pid (by simp),by simp [code,Next.holder]⟩,trivial,
        fun _ _ _ => id,by simp [code],fun _ => .inl rfl⟩
    | holding =>
      exact .quiet ⟨hs.locked,hs.unique,fun _ => hs.pid (by simp),by simp [code,Next.holder]⟩
        (holding_eq hpid hs) (fun _ _ _ => id) (fun _ _ => id) (by simp [Owes]) (by simp [code])
  env {_ e} := e.elim

/-- **Sleep-locks.** As long as `releasesleep` is called by a process that has the lock: no two
processes have it, and `locked` says whether one has; while nobody is inside, a process sleeps only
if the lock is taken; and `holdingsleep` tells its caller whether it has the lock. -/
theorem sleeplock_excludes [DecidableEq P] (pid : P → Nat) (hpid : Injective pid)
    {ls : List (Label P Place Empty)} {s : Sys P (Lock P) Place Unit Result}
    (hok : Along (code pid).step (fun _ s l => Calls allowed s l=true) [] (start initsleeplock) ls)
    (hrun : run (code pid).step ls (start initsleeplock)=some s) :
    (∀ p q, s.shared.has p=true → s.shared.has q=true → p=q) ∧
      (s.shared.locked=true ↔ ∃ p, s.shared.has p=true) ∧
      (s.holder=none → ∀ p c a, s.pc p=.asleep c a → s.shared.locked=true) ∧
      ∀ p r, s.pc p=.outside (some (.holding r)) → r=s.shared.has p := by
  have hinit : Sound pid (initsleeplock : Lock P) none := by
    constructor <;> simp [initsleeplock]
  obtain ⟨hs,heach,hsleep⟩ := (rule hpid).run hinit (fun _ => trivial) hok hrun
  refine ⟨hs.unique,hs.locked,fun hfree p c a hp => ?_,fun p r hp => ?_⟩
  · exact (hsleep p c a hp).resolve_right (by simp [hfree])
  · have hk := heach p
    rwa [hp] at hk

/-- Process `false` takes the lock, `true` sleeps until it is released, and asks whether it has the
lock when it has got it. -/
def handover : List (Label Bool Place Empty) :=
  [.call false .acquireTest,.acquire false,.advance,.advance,.call true .acquireTest,.acquire true,
    .advance,.call false .releaseLocked,.acquire false,.advance,.advance,.advance,.acquire true,
    .advance,.advance,.call true .holding,.acquire true,.advance]

def handoverEnd : Sys Bool (Lock Bool) Place Unit Result :=
  (run (code Bool.toNat).step handover (start initsleeplock)).get (by decide +kernel)

theorem handover_excludes : handoverEnd.shared.locked=true ∧
    ∀ p, handoverEnd.shared.has p=true → p=true := by
  have hrun : run (code Bool.toNat).step handover (start initsleeplock)=some handoverEnd :=
    (Option.some_get _).symm
  have h := sleeplock_excludes Bool.toNat (fun p q => by cases p <;> cases q <;> simp)
    (by decide +kernel) hrun
  exact ⟨by decide +kernel,fun p hp => h.1 p true hp (by decide +kernel)⟩

end Xv6.SleepLock
