import Xv6.Machine
import Xv6.RingIndex
import Mathlib.Algebra.Group.Nat.Defs

/-! A pipe of `kernel/pipe.c` and the processes that write, read and close it. A step is one
round of a loop under `pi->lock`, or the taking or giving up of the lock, so that a `kill` can
come between any two rounds. `sleep` gives up the lock and sleeps in one step. -/
namespace Xv6.PipeRing
open Function Xv6.Machine Xv6.RingIndex

def pipesize : Nat := 512

/-- `uint` counters. -/
def word : Nat := 2 ^ 32

inductive Chan where
  | nread
  | nwrite
deriving DecidableEq, Repr

/-- Where a process is; a process that has returned has the value of its last call. -/
inductive Pc where
  | user (r : Int)
  /-- About to take the lock in `pipewrite`, also when `sleep` ends. -/
  | wAcquire (i n : Int)
  | wLoop (i n : Int)
  | wDone (i : Int)
  | rAcquire (n : Int)
  | rWait (n : Int)
  | rCopy (i n : Int)
  | rDone (i : Int)
  | closing (writable : Bool)
deriving DecidableEq, Repr

structure Sys (P : Type) where
  data : Nat → UInt8
  nread : Nat
  nwrite : Nat
  readopen : Bool
  writeopen : Bool
  lock : Option P
  pc : P → Pc
  asleep : P → Option Chan
  killed : P → Bool
  /-- The bytes stored into the ring and removed from it so far, and how many were stored since
  the lock was taken. -/
  stored : List UInt8
  removed : List UInt8
  since : Nat

variable {P : Type} [DecidableEq P]

namespace Sys

def goto (s : Sys P) (p : P) (k : Pc) : Sys P := { s with pc := update s.pc p k }

def wakeup (s : Sys P) (c : Chan) : Sys P :=
  { s with asleep := fun q => if s.asleep q=some c then none else s.asleep q }

def acquire (s : Sys P) (p : P) (k : Pc) : Option (Sys P) :=
  if s.lock=none ∧ s.asleep p=none then some ({ s with lock := some p, since := 0 }.goto p k)
  else none

def release (s : Sys P) (p : P) (k : Pc) : Sys P := { s with lock := none }.goto p k

/-- `sleep(c, &pi->lock)`, after which the process goes on at `k`. -/
def sleep (s : Sys P) (p : P) (c : Chan) (k : Pc) : Sys P :=
  { s.release p k with asleep := update s.asleep p (some c) }

/-- `pi->data[pi->nwrite++ % PIPESIZE] = ch` -/
def store (s : Sys P) (ch : UInt8) : Sys P :=
  { s with
    data := update s.data (s.nwrite%pipesize) ch
    nwrite := (s.nwrite+1)%word
    stored := s.stored++[ch]
    since := s.since+1 }

/-- `ch = pi->data[pi->nread++ % PIPESIZE]` -/
def remove (s : Sys P) : Sys P :=
  { s with
    nread := (s.nread+1)%word
    removed := s.removed++[s.data (s.nread%pipesize)] }

def full (s : Sys P) : Bool := s.nwrite=(s.nread+pipesize)%word

def empty (s : Sys P) : Bool := s.nread=s.nwrite

/-- One round of the loop of `pipewrite`; `copyin` hands over a byte or fails. -/
def writeRound (s : Sys P) (p : P) (i n : Int) (ch : Option UInt8) : Sys P :=
  if i < n then
    if !s.readopen ∨ s.killed p then s.release p (.user (-1))
    else if s.full then (s.wakeup .nread).sleep p .nwrite (.wAcquire i n)
    else
      match ch with
      | none => s.goto p (.wDone i)
      | some ch => (s.store ch).goto p (.wLoop (i+1) n)
  else s.goto p (.wDone i)

/-- One round of the first loop of `piperead`. -/
def readWait (s : Sys P) (p : P) (n : Int) : Sys P :=
  if s.empty ∧ s.writeopen then
    if s.killed p then s.release p (.user (-1)) else s.sleep p .nread (.rAcquire n)
  else s.goto p (.rCopy 0 n)

/-- One round of the second loop of `piperead`; `copyout` succeeds or not. -/
def readRound (s : Sys P) (p : P) (i n : Int) (ok : Bool) : Sys P :=
  if i < n then
    if s.empty then s.goto p (.rDone i)
    else s.remove.goto p (if ok then .rCopy (i+1) n else .rDone i)
  else s.goto p (.rDone i)

def pipeclose (s : Sys P) (writable : Bool) : Sys P :=
  if writable then { s with writeopen := false }.wakeup .nread
  else { s with readopen := false }.wakeup .nwrite

def advance (s : Sys P) (p : P) (x : Option UInt8) : Option (Sys P) :=
  match s.pc p with
  | .user _ => none
  | .wAcquire i n => s.acquire p (.wLoop i n)
  | .wLoop i n => some (s.writeRound p i n x)
  | .wDone i => some ((s.wakeup .nread).release p (.user i))
  | .rAcquire n => s.acquire p (.rWait n)
  | .rWait n => some (s.readWait p n)
  | .rCopy i n => some (s.readRound p i n x.isSome)
  | .rDone i => some ((s.wakeup .nwrite).release p (.user i))
  | .closing w => if s.lock=none then some ((s.pipeclose w).goto p (.user 0)) else none

end Sys

inductive Event (P : Type) where
  | pipewrite (p : P) (n : Int)
  | piperead (p : P) (n : Int)
  | pipeclose (p : P) (writable : Bool)
  | kill (p : P)
  | advance (p : P) (x : Option UInt8)

def Sys.enter (s : Sys P) (p : P) (k : Pc) : Option (Sys P) :=
  match s.pc p with
  | .user _ => some (s.goto p k)
  | _ => none

def step (s : Sys P) : Event P → Option (Sys P)
  | .pipewrite p n => s.enter p (.wAcquire 0 n)
  | .piperead p n => s.enter p (.rAcquire n)
  | .pipeclose p w => s.enter p (.closing w)
  | .kill p => some { s with killed := update s.killed p true, asleep := update s.asleep p none }
  | .advance p x => s.advance p x

/-- The pipe that `pipealloc` made; the page holds anything. -/
def init (data : Nat → UInt8) : Sys P where
  data := data
  nread := 0
  nwrite := 0
  readopen := true
  writeopen := true
  lock := none
  pc _ := .user 0
  asleep _ := none
  killed _ := false
  stored := []
  removed := []
  since := 0

def Sys.contents (s : Sys P) : List UInt8 :=
  (List.range ((s.nwrite+word-s.nread)%word)).map fun k => s.data ((s.nread+k)%pipesize)

section Fifo
variable {s t : Sys P} {p : P}

/-- The counters count the bytes stored and removed, and the ring holds those between. -/
structure Sys.Fifo (s : Sys P) : Prop where
  nread : s.nread=s.removed.length%word
  nwrite : s.nwrite=s.stored.length%word
  ring : ∃ xs, s.stored=s.removed++xs ∧ xs.length ≤ pipesize ∧
    Holds s.data pipesize s.removed.length xs

theorem slot_eq (a k : Nat) : (a%word+k)%pipesize=(a+k)%pipesize := by
  rw [Nat.add_mod,Nat.mod_mod_of_dvd a (by decide),← Nat.add_mod]

section Steps
variable {e : Event P} (h : s.Fifo)
include h

omit [DecidableEq P] in
theorem Sys.Fifo.full_iff {xs : List UInt8} (hxs : s.stored=s.removed++xs)
    (hlen : xs.length ≤ pipesize) : s.full=true ↔ xs.length=pipesize := by
  have hword : pipesize < word := by decide
  have hcount : (s.removed.length+xs.length)%word =
      (s.removed.length+xs.length+(pipesize-xs.length))%word ↔ pipesize-xs.length=0 :=
    counter_eq_iff (by omega)
  simp only [Sys.full,decide_eq_true_eq]
  rw [h.nread,h.nwrite,hxs,List.length_append,Nat.mod_add_mod]
  rw [show s.removed.length+xs.length+(pipesize-xs.length)=s.removed.length+pipesize by
    omega] at hcount
  omega

omit [DecidableEq P] in
theorem Sys.Fifo.empty_iff {xs : List UInt8} (hxs : s.stored=s.removed++xs)
    (hlen : xs.length ≤ pipesize) : s.empty=true ↔ xs=[] := by
  have hword : pipesize < word := by decide
  simp only [Sys.empty,decide_eq_true_eq]
  rw [h.nread,h.nwrite,hxs,List.length_append,counter_eq_iff (by omega),List.length_eq_zero_iff]

omit [DecidableEq P] in
theorem Sys.Fifo.store (hfull : s.full=false) (ch : UInt8) : (s.store ch).Fifo := by
  obtain ⟨xs,hxs,hlen,hring⟩ := h.ring
  have hlt : xs.length < pipesize := by
    have hne : xs.length≠pipesize := fun heq => by
      rw [(h.full_iff hxs hlen).mpr heq] at hfull
      cases hfull
    omega
  have hstored : s.stored.length=s.removed.length+xs.length := by rw [hxs,List.length_append]
  have hslot : s.nwrite%pipesize=(s.removed.length+xs.length)%pipesize := by
    have := slot_eq s.stored.length 0
    rw [h.nwrite,← hstored]
    simpa using this
  refine ⟨h.nread,?_,xs++[ch],?_,?_,?_⟩
  · change (s.nwrite+1)%word=(s.stored++[ch]).length%word
    rw [h.nwrite,Nat.mod_add_mod,List.length_append,List.length_singleton]
  · change s.stored++[ch]=s.removed++(xs++[ch])
    rw [hxs,List.append_assoc]
  · rw [List.length_append,List.length_singleton]
    omega
  · change Holds (update s.data (s.nwrite%pipesize) ch) pipesize s.removed.length (xs++[ch])
    rw [hslot]
    exact (hring.write hlt ch).push (update_self ..)

omit [DecidableEq P] in
theorem Sys.Fifo.remove (hempty : s.empty=false) : s.remove.Fifo := by
  obtain ⟨xs,hxs,hlen,hring⟩ := h.ring
  cases xs with
  | nil =>
    rw [(h.empty_iff hxs hlen).mpr rfl] at hempty
    cases hempty
  | cons x xs =>
    have hbyte : s.data (s.nread%pipesize)=x := by
      have := slot_eq s.removed.length 0
      rw [h.nread,← hring.head]
      exact congrArg s.data (by simpa using this)
    refine ⟨?_,h.nwrite,xs,?_,?_,?_⟩
    · change (s.nread+1)%word=(s.removed++[_]).length%word
      rw [h.nread,Nat.mod_add_mod,List.length_append,List.length_singleton]
    · change s.stored=s.removed++[s.data (s.nread%pipesize)]++xs
      rw [hxs,hbyte,List.append_assoc,List.singleton_append]
    · rw [List.length_cons] at hlen
      omega
    · change Holds s.data pipesize (s.removed++[_]).length xs
      rw [List.length_append,List.length_singleton]
      exact hring.tail

theorem Sys.Fifo.acquire {k : Pc} (hs : s.acquire p k=some t) : t.Fifo := by
  unfold Sys.acquire at hs
  split at hs
  · cases hs
    exact { h with }
  · cases hs

theorem Sys.Fifo.writeRound (i n : Int) (ch : Option UInt8) : (s.writeRound p i n ch).Fifo := by
  unfold Sys.writeRound
  split
  · split
    · exact { h with }
    · split
      · exact { h with }
      · next hfull =>
        cases ch with
        | none => exact { h with }
        | some ch =>
          have hstore := h.store (by simpa using hfull) ch
          exact { hstore with }
  · exact { h with }

theorem Sys.Fifo.readWait (n : Int) : (s.readWait p n).Fifo := by
  unfold Sys.readWait
  split
  · split
    · exact { h with }
    · exact { h with }
  · exact { h with }

theorem Sys.Fifo.readRound (i n : Int) (ok : Bool) : (s.readRound p i n ok).Fifo := by
  unfold Sys.readRound
  split
  · split
    · exact { h with }
    · next hempty =>
      have hremove := h.remove (by simpa using hempty)
      exact { hremove with }
  · exact { h with }

omit [DecidableEq P] in
theorem Sys.Fifo.pipeclose (w : Bool) : (s.pipeclose w).Fifo := by
  cases w with
  | false => exact { h with }
  | true => exact { h with }

theorem Sys.Fifo.advance {x : Option UInt8} (hs : s.advance p x=some t) : t.Fifo := by
  unfold Sys.advance at hs
  split at hs
  · cases hs
  · exact h.acquire hs
  · cases hs
    exact h.writeRound _ _ _
  · cases hs
    exact { h with }
  · exact h.acquire hs
  · cases hs
    exact h.readWait _
  · cases hs
    exact h.readRound _ _ _
  · cases hs
    exact { h with }
  · split at hs
    · cases hs
      have hclose := h.pipeclose (P := P)
      exact { hclose _ with }
    · cases hs

theorem Sys.Fifo.enter {k : Pc} (hs : s.enter p k=some t) : t.Fifo := by
  unfold Sys.enter at hs
  split at hs
  · cases hs
    exact { h with }
  · cases hs

theorem step_fifo (hs : step s e=some t) : t.Fifo := by
  cases e with
  | pipewrite p n => exact h.enter hs
  | piperead p n => exact h.enter hs
  | pipeclose p w => exact h.enter hs
  | kill p =>
    cases hs
    exact { h with }
  | advance p x => exact h.advance hs

omit [DecidableEq P] in
theorem Sys.Fifo.contents :
    s.stored=s.removed++s.contents ∧ (s.nwrite+word-s.nread)%word ≤ pipesize := by
  have hword : pipesize < word := by decide
  obtain ⟨xs,hxs,hlen,hring⟩ := h.ring
  have hcount : (s.nwrite+word-s.nread)%word=xs.length := by
    rw [h.nread,h.nwrite,hxs,List.length_append]
    exact counter_sub (by omega)
  refine ⟨?_,hcount ▸ hlen⟩
  unfold Sys.contents
  rw [hcount]
  simp only [h.nread,slot_eq]
  rw [hring.read,hxs]

end Steps

/-- Whatever calls there are and however they take turns, the bytes removed from the ring are
the first of those stored, the ring holds the others, and it never holds more than it can. -/
theorem pipe_is_fifo {data : Nat → UInt8} {es : List (Event P)}
    (hrun : run step es (init data)=some s) :
    s.removed <+: s.stored ∧ s.stored=s.removed++s.contents ∧
      (s.nwrite+word-s.nread)%word ≤ pipesize := by
  have hinit : (init data : Sys P).Fifo := ⟨rfl,rfl,[],rfl,Nat.zero_le _,holds_nil⟩
  obtain ⟨hcontents,hlen⟩ := (run_invariant (fun _ _ _ => step_fifo) hinit hrun).contents
  exact ⟨⟨s.contents,hcontents.symm⟩,hcontents,hlen⟩

end Fifo

def passing : List (Event Nat) :=
  [.piperead 1 1,.advance 1 none,.advance 1 none,.pipewrite 0 2,.advance 0 none,
    .advance 0 (some 7),.advance 0 (some 9),.advance 0 none,.advance 0 none,.piperead 2 5,
    .advance 1 none,.advance 1 none,.advance 1 (some 0),.advance 1 none,.advance 1 none,
    .advance 2 none,.advance 2 none,.advance 2 (some 0)]

def passed : Sys Nat := (run step passing (init fun _ => 0)).get (by decide +kernel)

theorem passed_is_fifo :
    passed.removed <+: passed.stored ∧ passed.stored=passed.removed++passed.contents ∧
      (passed.nwrite+word-passed.nread)%word ≤ pipesize :=
  pipe_is_fifo (Option.some_get _).symm

end Xv6.PipeRing
