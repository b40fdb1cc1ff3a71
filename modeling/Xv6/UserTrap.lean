import Xv6.Machine

/-! `usertrap` of `kernel/trap.c` with `kill`, `killed` and `setkilled` of `kernel/proc.c`: what a
process can still do once it has been killed. -/
namespace Xv6.UserTrap
variable {P : Type} {p : P}

/-- Whether a trap comes from the timer (2), from another device (1) or from neither. -/
def devintr (scause : BitVec 64) : Nat :=
  if scause &&& 0x8000000000000000≠0 ∧ scause &&& 0xff=9 then 1
  else if scause=0x8000000000000001 then 2 else 0

/-- Where a process is: in user space, in `usertrap` before one of its calls or tests, or past
`exit`. The tests of `killed` are `ecall`, before a system call, and `check`. Between the first of
them and `syscall()`, at `epc`, other processes run. -/
inductive Place
  | user
  | ecall
  | epc
  | syscall
  | setkilled
  | check (whichDev : Nat)
  | yield
  | usertrapret
  | exited
deriving DecidableEq

def enter (scause : BitVec 64) : Place :=
  if scause=8 then .ecall
  else if devintr scause≠0 then .check (devintr scause) else .setkilled

/-- The next statement of `usertrap`, with the flag that it leaves. -/
def usertrap (killed : Bool) : Place → Option (Bool × Place)
  | .ecall => some (killed, if killed then .exited else .epc)
  | .epc => some (killed, .syscall)
  | .syscall => some (killed, .check 0)
  | .setkilled => some (true, .check 0)
  | .check whichDev =>
    some (killed, if killed then .exited else if whichDev=2 then .yield else .usertrapret)
  | .yield => some (killed, .usertrapret)
  | .usertrapret => some (killed, .user)
  | .user | .exited => none

structure Sys (P : Type) where
  killed : P → Bool
  place : P → Place

/-- A trap of user code, a statement of `usertrap`, and two system calls: `exit`, and a `kill` that
finds a process. A trap of kernel code changes nothing here. -/
inductive Label (P : Type)
  | trap (p : P) (scause : BitVec 64)
  | advance (p : P)
  | exit (p : P)
  | kill (q p : P)

def step [DecidableEq P] (s : Sys P) : Label P → Option (Sys P)
  | .trap p scause =>
    if s.place p=.user then some { s with place := Function.update s.place p (enter scause) }
    else none
  | .advance p =>
    (usertrap (s.killed p) (s.place p)).map fun r =>
      { killed := Function.update s.killed p r.1, place := Function.update s.place p r.2 }
  | .exit p =>
    if s.place p=.syscall then some { s with place := Function.update s.place p .exited }
    else none
  | .kill q p =>
    if s.place q=.syscall then some { s with killed := Function.update s.killed p true } else none

/-- The places a process moves to in a run. -/
def visits [DecidableEq P] (p : P) (s : Sys P) : List (Label P) → List Place
  | [] => []
  | l :: ls =>
    match step s l with
    | none => []
    | some u => (if u.place p=s.place p then [] else [u.place p])++visits p u ls

/-- The process has been killed or is about to kill itself for a trap that the kernel does not
know. -/
def Doomed (killed : Bool) (a : Place) : Prop := killed=true ∨ a=.setkilled

/-- The system calls that no test of `killed` stands before. -/
def starts : Place → Nat
  | .epc => 1
  | _ => 0

/-- The returns to user space that no test of `killed` stands before. -/
def returns : Place → Nat
  | .yield | .usertrapret => 1
  | _ => 0

/-- What a move of a doomed process may be. -/
def Moves (a b : Place) : Prop :=
  [b].count .syscall+starts b ≤ starts a ∧ [b].count .user+returns b ≤ returns a

theorem enter_moves (scause : BitVec 64) : Moves .user (enter scause) := by
  fun_cases enter <;> simp [Moves,starts,returns]

theorem usertrap_doomed {k k' : Bool} {a b : Place} (h : usertrap k a=some (k',b))
    (hd : Doomed k a) : Doomed k' b ∧ Moves a b := by
  cases a with
  | epc | syscall | yield | usertrapret =>
    cases h
    simpa [Doomed,Moves,starts,returns] using hd
  | setkilled =>
    cases h
    simp [Doomed,Moves,starts,returns]
  | ecall | check whichDev =>
    have hk : k=true := hd.resolve_right (by simp)
    subst hk
    cases h
    simp [Doomed,Moves,starts,returns]
  | user | exited => cases h

variable [DecidableEq P]

theorem step_doomed {s u : Sys P} {l : Label P} (h : step s l=some u)
    (hd : Doomed (s.killed p) (s.place p)) : Doomed (u.killed p) (u.place p) ∧
      (u.place p=s.place p ∨ Moves (s.place p) (u.place p)) := by
  cases l with
  | trap q scause =>
    obtain ⟨hq,h⟩ := Option.ite_none_right_eq_some.mp h
    cases h
    by_cases hpq : p=q
    · subst hpq
      have hk : s.killed p=true := hd.resolve_right (by simp [hq])
      simpa [Doomed,hk,hq] using .inr (enter_moves scause)
    · simpa [hpq] using hd
  | advance q =>
    obtain ⟨⟨k,b⟩,hb,rfl⟩ := Option.map_eq_some_iff.mp h
    by_cases hpq : p=q
    · subst hpq
      simpa using (usertrap_doomed hb hd).imp_right .inr
    · simpa [hpq] using hd
  | exit q =>
    obtain ⟨hq,h⟩ := Option.ite_none_right_eq_some.mp h
    cases h
    by_cases hpq : p=q
    · subst hpq
      simpa [Doomed,hq,Moves,starts,returns] using hd
    · simpa [hpq] using hd
  | kill q r =>
    obtain ⟨hq,h⟩ := Option.ite_none_right_eq_some.mp h
    cases h
    by_cases hpr : p=r
    · simp [Doomed,hpr]
    · simpa [hpr] using hd

/-- A process that has been killed, or that trapped for a reason the kernel does not know, starts at
most one further system call, and only from behind the first test of `killed`. It returns to user
space at most once, and only from behind the last test. -/
theorem killed_process_stops (s : Sys P) (ls : List (Label P))
    (hd : Doomed (s.killed p) (s.place p)) :
    (visits p s ls).count .syscall ≤ starts (s.place p) ∧
      (visits p s ls).count .user ≤ returns (s.place p) := by
  induction ls generalizing s with
  | nil => simp [visits]
  | cons l ls ih =>
    cases hl : step s l with
    | none => simp [visits,hl]
    | some u =>
      obtain ⟨hdu,hmove⟩ := step_doomed hl hd
      obtain ⟨hsys,huser⟩ := ih u hdu
      by_cases hsame : u.place p=s.place p
      · simpa [visits,hl,hsame] using ⟨hsame ▸ hsys,hsame ▸ huser⟩
      · obtain ⟨hstart,hreturn⟩ := hmove.resolve_left hsame
        simp only [visits,hl,if_neg hsame,List.count_append]
        exact ⟨by omega,by omega⟩

/-- The second process has killed the first one behind its first test. -/
def lateKill : Sys Bool := ⟨fun p => !p,fun p => if p then .syscall else .epc⟩

theorem lateKill_stops :
    let v := visits false lateKill [.advance false, .advance false, .advance false]
    v=[.syscall, .check 0, .exited] ∧ v.count .syscall ≤ 1 ∧ v.count .user ≤ 0 :=
  ⟨by decide +kernel,killed_process_stops lateKill _ (.inl rfl)⟩

end Xv6.UserTrap
