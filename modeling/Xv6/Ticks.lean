import Mathlib.Algebra.Group.Nat.Defs
import Xv6.Monitor

/-! The clock: `clockintr` of `kernel/trap.c`, `sys_sleep` and `sys_uptime` of `kernel/sysproc.c`,
under `tickslock`. -/
namespace Xv6.Ticks
open Function Xv6.Machine Xv6.Monitor
variable {P : Type}

/-- `ticks` is a `uint`; `total` is the number of clock interrupts so far. -/
structure Clock (P : Type) where
  ticks : BitVec 32
  total : Nat
  killed : P → Bool

def init : Clock P := ⟨0,0,fun _ => false⟩

/-- Where a process is that has the lock. In the loop of `sys_sleep`, `since` is `total` when
`ticks0` was read; `n` is compared as a `uint`. -/
inductive Place where
  | sleep (n : BitVec 32)
  | test (n ticks0 : BitVec 32) (since : Nat)
  | tick
  | tickWakeup
  | uptime
deriving DecidableEq

inductive Result where
  | slept (n : BitVec 32) (since till : Nat)
  | killed
  | ticked
  | uptime (ticks : BitVec 32)
deriving DecidableEq

/-- The environment sets `p->killed`; `kill` also wakes the process. -/
def code [DecidableEq P] : Code P (Clock P) Place Unit Result P where
  act p x
    | .sleep n => ⟨x,none,.stay (.test n x.ticks x.total)⟩
    | .test n ticks0 since =>
        if x.ticks-ticks0 < n then
          if x.killed p then ⟨x,none,.leave .killed⟩
          else ⟨x,none,.sleep () (.test n ticks0 since)⟩
        else ⟨x,none,.leave (.slept n since x.total)⟩
    | .tick => ⟨{ x with ticks := x.ticks+1, total := x.total+1 },none,.stay .tickWakeup⟩
    | .tickWakeup => ⟨x,some (),.leave .ticked⟩
    | .uptime => ⟨x,none,.leave (.uptime x.ticks)⟩
  env x p := some { x with killed := update x.killed p true }

def allowed (_ : Clock P) (_ : P) : Place → Bool
  | .sleep _ | .tick | .uptime => true
  | .test _ _ _ | .tickWakeup => false

/-- A process in the loop has read `ticks` when `total` was `since`. -/
def Began (x : Clock P) : Place → Prop
  | .test _ ticks0 since => ticks0=BitVec.ofNat 32 since ∧ since ≤ x.total
  | .tickWakeup => False
  | .sleep _ | .tick | .uptime => True

structure Sound (x : Clock P) (h : Option (P × Place)) : Prop where
  ticks : x.ticks=BitVec.ofNat 32 x.total
  place : ∀ p a, h=some (p,a) → a=.tickWakeup ∨ Began x a

/-- The loop goes on: modulo `2^32`, less than `n` ticks have passed. -/
def Early (x : Clock P) (_ : Unit) : Place → Prop
  | .test n _ since => (x.total-since)%2 ^ 32 < n.toNat
  | _ => False

/-- A process that has slept has done so for as long as it wished. -/
def Each (x : Clock P) (_ : P) : Pc Place Unit Result → Prop
  | .asleep _ a | .enter a => Began x a
  | .outside (some (.slept n since till)) => since+n.toNat ≤ till ∧ till ≤ x.total
  | .outside _ | .inside => True

variable {x y : Clock P} {q : P} {a : Place}

theorem passed {total since : Nat} (hle : since ≤ total) :
    (BitVec.ofNat 32 total-BitVec.ofNat 32 since).toNat=(total-since)%2^32 := by
  simp only [BitVec.toNat_sub,BitVec.toNat_ofNat]
  omega

theorem Began.mono (hb : Began x a) (hle : x.total ≤ y.total) : Began y a := by
  cases a with
  | test n ticks0 since => exact ⟨hb.1,Nat.le_trans hb.2 hle⟩
  | _ => exact hb

theorem Each.mono {k : Pc Place Unit Result} (hk : Each x q k) (hle : x.total ≤ y.total) :
    Each y q k := by
  cases k with
  | asleep c a | enter a => exact Began.mono hk hle
  | outside r =>
    rcases r with _ | ⟨n,since,till⟩ | _ | _ | t
    · trivial
    · exact ⟨hk.1,Nat.le_trans hk.2 hle⟩
    all_goals trivial
  | inside => trivial

theorem rule [DecidableEq P] :
    Rule (code : Code P _ _ _ _ _) allowed Sound Each Early fun a _ => a=.tickWakeup where
  call {x p r a} _ hok := by
    cases a with
    | test _ _ _ | tickWakeup => cases hok
    | _ => trivial
  rouse hk := hk
  acquire hs hk := by
    refine ⟨⟨hs.ticks,?_⟩,trivial⟩
    rintro q b ⟨⟩
    exact .inr hk
  act {x p a} hs := by
    cases a with
    | sleep n =>
      refine .quiet ⟨hs.ticks,?_⟩ trivial (fun _ _ _ => id) (fun _ _ => id) (by simp)
        (by simp [code])
      rintro q b ⟨⟩
      exact .inr ⟨hs.ticks,Nat.le_refl _⟩
    | test n ticks0 since =>
      obtain ⟨rfl,hle⟩ : Began x (.test n ticks0 since) := (hs.place p _ rfl).resolve_left (by simp)
      have hpassed := passed hle
      rw [← hs.ticks] at hpassed
      by_cases hlt : x.ticks-BitVec.ofNat 32 since < n
      · cases hkilled : x.killed p with
        | true =>
          simp only [code,hlt,hkilled,if_true]
          exact .quiet ⟨hs.ticks,by simp [Next.holder]⟩ trivial (fun _ _ _ => id) (fun _ _ => id)
            (by simp) (by simp)
        | false =>
          simp only [code,hlt,hkilled,if_true,Bool.false_eq_true,if_false]
          refine ⟨⟨hs.ticks,by simp [Next.holder]⟩,⟨rfl,hle⟩,fun _ _ _ hk => hk,?_,
            fun _ => .inr (.inr ⟨by simp,fun _ => id⟩)⟩
          rintro c b ⟨⟩
          rw [Early,← hpassed]
          exact hlt
      · simp only [code,hlt,if_false]
        refine .quiet ⟨hs.ticks,by simp [Next.holder]⟩ ⟨?_,Nat.le_refl _⟩ (fun _ _ _ => id)
          (fun _ _ => id) (by simp) (by simp)
        have hge : n.toNat ≤ (x.total-since)%2^32 := by
          rw [← hpassed]
          exact BitVec.not_lt.mp hlt
        have := Nat.mod_le (x.total-since) (2^32)
        omega
    | tick =>
      refine ⟨⟨?_,?_⟩,trivial,fun _ _ _ hk => hk.mono (Nat.le_succ _),by simp [code],
        fun _ => .inr (.inl ⟨_,rfl,rfl⟩)⟩
      · simp only [code,hs.ticks]
        exact (BitVec.ofNat_add ..).symm
      · rintro q b ⟨⟩
        exact .inl rfl
    | tickWakeup =>
      exact ⟨⟨hs.ticks,by simp [code,Next.holder]⟩,trivial,fun _ _ _ => id,by simp [code],
        fun _ => .inl rfl⟩
    | uptime =>
      exact .quiet ⟨hs.ticks,by simp [code,Next.holder]⟩ trivial (fun _ _ _ => id) (fun _ _ => id)
        (by simp) (by simp [code])
  env hy := by
    cases hy
    exact ⟨fun _ hs => ⟨hs.ticks,hs.place⟩,fun _ _ hk => hk.mono (Nat.le_refl _),fun _ _ hb => hb⟩

/-- **The clock.** `ticks` counts the interrupts modulo `2^32`; `sys_sleep` returns 0 only when at
least `n` of them have come since it read `ticks`; and while nobody is inside, a process sleeps
only if, up to a multiple of `2^32`, fewer than `n` have come. -/
theorem sleep_lasts [DecidableEq P] {ls : List (Label P Place P)} {s : Sys P (Clock P) Place Unit Result}
    (hok : Along code.step (fun _ s l => Calls allowed s l=true) [] (start init) ls)
    (hrun : run code.step ls (start init)=some s) :
    s.shared.ticks=BitVec.ofNat 32 s.shared.total ∧
      (∀ p n since till, s.pc p=.outside (some (.slept n since till)) →
        since+n.toNat ≤ till ∧ till ≤ s.shared.total) ∧
      (s.holder=none → ∀ p c n ticks0 since, s.pc p=.asleep c (.test n ticks0 since) →
        since ≤ s.shared.total ∧ (s.shared.total-since)%2 ^ 32 < n.toNat) := by
  have hinit : Sound (init : Clock P) none := ⟨rfl,by simp⟩
  obtain ⟨hs,heach,hsleep⟩ := rule.run hinit (fun _ => trivial) hok hrun
  refine ⟨hs.ticks,fun p n since till hp => ?_,fun hfree p c n ticks0 since hp => ?_⟩
  · have hk := heach p
    rwa [hp] at hk
  · have hk := heach p
    rw [hp] at hk
    exact ⟨hk.2,(hsleep p c _ hp).resolve_right (by simp [hfree])⟩

/-- Process 0 sleeps for two ticks, which the clock of process 1 makes. -/
def twoTicks : List (Label Nat Place Nat) :=
  [.call 0 (.sleep 2),.acquire 0,.advance,.advance,.call 1 .tick,.acquire 1,.advance,.advance,
    .acquire 0,.advance,.call 1 .tick,.acquire 1,.advance,.advance,.acquire 0,.advance]

def twoTicksEnd : Sys Nat (Clock Nat) Place Unit Result :=
  (run code.step twoTicks (start init)).get (by decide +kernel)

theorem twoTicks_lasts : ∃ till, twoTicksEnd.pc 0=.outside (some (.slept 2 0 till)) ∧
    0+(2 : BitVec 32).toNat ≤ till ∧ till ≤ twoTicksEnd.shared.total := by
  have hrun : run code.step twoTicks (start init)=some twoTicksEnd := (Option.some_get _).symm
  have hpc : twoTicksEnd.pc 0=.outside (some (.slept 2 0 2)) := by decide +kernel
  exact ⟨2,hpc,(sleep_lasts (by decide +kernel) hrun).2.1 0 2 0 2 hpc⟩

end Xv6.Ticks
