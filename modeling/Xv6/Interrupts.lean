import Mathlib.Tactic.Common
import Xv6.Machine

/-! Interrupts and spinlocks: `push_off`, `pop_off`, `acquire` and `release` of
`kernel/spinlock.c` with the switches of `scheduler` and `sched` of `kernel/proc.c`, for any
number of CPUs and processes. `noff` and `intena` belong to a CPU; what a thread has done is
kept next to them. A CPU executes the thread of its scheduler or that of a process. Between
`intr_get` and `intr_off` of `push_off` an interrupt can come in, and the thread can be on
another CPU when it goes on. -/
namespace Xv6.Interrupts
open Function Xv6.Machine
variable {κ τ : Type}

inductive Panic where
  | acquire
  | release
  | popOffInterruptible
  | popOff
  | schedLock
  | schedLocks
  | schedInterruptible
deriving DecidableEq, Repr

/-- The lock of a process, and the other locks. -/
inductive Lock (τ : Type) where
  | proc (p : τ)
  | other (n : Nat)
deriving DecidableEq, Repr

inductive Tid (κ τ : Type) where
  | scheduler (c : κ)
  | proc (p : τ)
deriving DecidableEq, Repr

/-- `SSTATUS_SIE`, the fields of `struct cpu` and the thread that the CPU executes. `noff` is an
`int` in the source: that 2^31 calls of `push_off` are open at once is outside the model. -/
structure Cpu (κ τ : Type) where
  intr : Bool
  noff : Nat
  intena : Bool
  cur : Tid κ τ

structure Call (τ : Type) where
  old : Bool
  lock : Option (Lock τ)

structure Thread (τ : Type) where
  /-- it is in `push_off`, between `intr_get` and `intr_off` -/
  call : Option (Call τ)
  /-- it is in `acquire`, after `push_off` -/
  spin : Option (Lock τ)
  /-- the places where it has been interrupted -/
  traps : List (Option (Call τ))
  /-- `intena` of `sched`, from `swtch` until it is stored -/
  saved : Option Bool
  /-- the number of unmatched calls of `push_off`, a lock that has been handed over included -/
  depth : Nat
  /-- the interrupt-enable state when that number left 0 -/
  before : Bool

def Thread.idle (t : Thread τ) : Prop := t.call.isNone ∧ t.spin.isNone ∧ t.saved.isNone

instance (t : Thread τ) : Decidable t.idle := inferInstanceAs (Decidable (_ ∧ _))

/-- A process has no thread, or a thread that waits in `swtch` or has yet to start in
`forkret`, or is executed. -/
inductive Place where
  | unused
  | new
  | parked
  | running
deriving DecidableEq, Repr

structure Sys (κ τ : Type) where
  cpu : κ → Cpu κ τ
  thread : Tid κ τ → Thread τ
  place : τ → Place
  /-- the CPU of a lock that is held -/
  lock : Lock τ → Option κ
  panic : Option Panic

inductive Op (τ : Type) where
  /-- `intr_get` of `push_off` -/
  | intrGet (lock : Option (Lock τ))
  /-- the rest of `push_off`; `mycpu()` is called with interrupts off -/
  | pushOff
  /-- `acquire` gets its lock -/
  | lock
  | release (lk : Lock τ)
  | popOff
  /-- `intr_on` and `intr_off` outside of `push_off` and `pop_off` -/
  | setIntr (b : Bool)
  /-- an interrupt, and the return from it -/
  | trap
  | sret
  /-- `swtch` of `scheduler`, to the process -/
  | switchTo (p : τ)
  /-- `sched` up to its `swtch` -/
  | sched
  /-- `mycpu()->intena = intena` of `sched` -/
  | restore
  /-- another thread makes a new process of an unused slot, or frees one -/
  | create (p : τ)
  | free (p : τ)

namespace Cpu

def pushOff (c : Cpu κ τ) (old : Bool) : Cpu κ τ :=
  { c with intr := false, intena := if c.noff=0 then old else c.intena, noff := c.noff+1 }

def popOff (c : Cpu κ τ) : Except Panic (Cpu κ τ) :=
  if c.intr then .error .popOffInterruptible
  else if c.noff < 1 then .error .popOff
  else
    let c := { c with noff := c.noff-1 }
    .ok (if c.noff=0 ∧ c.intena then { c with intr := true } else c)

end Cpu

namespace Thread

def pushed (t : Thread τ) (b : Bool) : Thread τ :=
  { t with depth := t.depth+1, before := if t.depth=0 then b else t.before }

def popped (t : Thread τ) : Thread τ := { t with depth := t.depth-1 }

end Thread

section Step
variable [DecidableEq κ] [DecidableEq τ]

namespace Sys

def setCpu (s : Sys κ τ) (c : κ) (x : Cpu κ τ) : Sys κ τ := { s with cpu := update s.cpu c x }

def setThread (s : Sys κ τ) (i : Tid κ τ) (t : Thread τ) : Sys κ τ :=
  { s with thread := update s.thread i t }

def popOff (s : Sys κ τ) (c : κ) (i : Tid κ τ) : Sys κ τ :=
  match (s.cpu c).popOff with
  | .error e => { s with panic := some e }
  | .ok x => (s.setCpu c x).setThread i (s.thread i).popped

end Sys

/-- `sched` of the process `p`, without its check of `p->state`: the lock of `p` is the
scheduler's to release. -/
def sched (s : Sys κ τ) (c : κ) (p : τ) : Sys κ τ :=
  let x := s.cpu c
  let t := s.thread (.proc p)
  if s.lock (.proc p)≠some c then { s with panic := some .schedLock }
  else if x.noff≠1 then { s with panic := some .schedLocks }
  else if x.intr then { s with panic := some .schedInterruptible }
  else
    let boot := s.thread (.scheduler c)
    let s := s.setThread (.proc p) { t with saved := some x.intena }
    let s := s.setThread (.scheduler c) { boot with depth := 1, before := t.before }
    { s.setCpu c { x with cur := .scheduler c } with place := update s.place p .parked }

/-- A process goes on in `sched`, or starts in `forkret`, with the lock that the scheduler
hands over. -/
def entered (s : Sys κ τ) (c : κ) (p : τ) : Thread τ :=
  let t := s.thread (.proc p)
  if s.place p=.new then { t with depth := 1, before := (s.thread (.scheduler c)).before } else t

def switchTo (s : Sys κ τ) (c : κ) (p : τ) : Sys κ τ :=
  let boot := s.thread (.scheduler c)
  let s := s.setThread (.proc p) (entered s c p)
  let s := s.setThread (.scheduler c) { boot with depth := 0 }
  { s.setCpu c { s.cpu c with cur := .proc p } with place := update s.place p .running }

def Thread.fresh : Thread τ := ⟨none,none,[],none,0,false⟩

/-- A step of the CPU `c`. Threads are balanced: `pop_off` and `release` match calls of
`push_off` and `acquire`, in any order, and interrupts are switched on or off by other means
only where no call is unmatched. `sched` is called with the lock of the process alone. -/
def step (s : Sys κ τ) : κ × Op τ → Option (Sys κ τ)
  | (c, op) =>
    let x := s.cpu c
    let i := x.cur
    let t := s.thread i
    if s.panic.isSome then none
    else match op with
    | .intrGet lk =>
      if t.idle then some (s.setThread i { t with call := some ⟨x.intr,lk⟩ }) else none
    | .pushOff =>
      t.call.map fun call => (s.setCpu c (x.pushOff call.old)).setThread i
        { t.pushed x.intr with call := none, spin := call.lock }
    | .lock =>
      match t.spin with
      | none => none
      | some lk =>
        if s.lock lk=some c then some { s with panic := some .acquire }
        else if s.lock lk=none then
          some { s.setThread i { t with spin := none } with lock := update s.lock lk (some c) }
        else none
    | .release lk =>
      if t.idle ∧ 0 < t.depth then
        if s.lock lk≠some c then some { s with panic := some .release }
        else some (Sys.popOff { s with lock := update s.lock lk none } c i)
      else none
    | .popOff => if t.idle ∧ 0 < t.depth then some (s.popOff c i) else none
    | .setIntr b => if t.idle ∧ t.depth=0 then some (s.setCpu c { x with intr := b }) else none
    | .trap =>
      if x.intr then
        some ((s.setCpu c { x with intr := false }).setThread i
          { t with call := none, traps := t.call :: t.traps })
      else none
    | .sret =>
      match t.traps with
      | [] => none
      | call :: traps =>
        if t.idle ∧ t.depth=0 then
          some ((s.setCpu c { x with intr := true }).setThread i { t with call := call, traps := traps })
        else none
    | .switchTo p =>
      if i=.scheduler c ∧ t.idle ∧ t.traps.isEmpty ∧ t.depth=1 ∧ s.lock (.proc p)=some c ∧
          (s.place p=.new ∨ s.place p=.parked) then
        some (switchTo s c p)
      else none
    | .sched =>
      match i with
      | .scheduler _ => none
      | .proc p =>
        if t.idle ∧ t.depth=1 ∧ s.lock (.proc p)=some c then some (sched s c p) else none
    | .restore =>
      t.saved.map fun b => (s.setCpu c { x with intena := b }).setThread i { t with saved := none }
    | .create p =>
      if s.place p=.unused then
        some { s.setThread (.proc p) .fresh with place := update s.place p .new }
      else none
    | .free p =>
      if s.place p=.parked then some { s with place := update s.place p .unused } else none

end Step

section Runs
variable {x : Cpu κ τ} {t : Thread τ}

structure Runs (x : Cpu κ τ) (t : Thread τ) : Prop where
  noff : x.noff=t.depth
  off : 0 < t.depth → x.intr=false
  intena : 0 < t.depth → t.saved=none → x.intena=t.before
  saved : ∀ b, t.saved=some b → t.depth=1 ∧ b=t.before
  call : ∀ k, t.call=some k → k.old=x.intr ∧ t.saved=none
  traps : ∀ k, some k∈t.traps → k.old=true

theorem Runs.one_deep (h : Runs x t) (hdepth : t.depth=1)
    (hsaved : t.saved=none) : x.noff=1 ∧ x.intr=false ∧ x.intena=t.before :=
  ⟨h.noff.trans hdepth,h.off (by omega),h.intena (by omega) hsaved⟩

theorem Runs.pushOff {k : Call τ} (h : Runs x t) (hk : t.call=some k) (spin : Option (Lock τ)) :
    Runs (x.pushOff k.old) { t.pushed x.intr with call := none, spin := spin } := by
  obtain ⟨hold,hsaved⟩ := h.call k hk
  refine ⟨congrArg (· + 1) h.noff,fun _ => rfl,fun _ _ => ?_,fun b hb => ?_,nofun,h.traps⟩
  · simp only [Cpu.pushOff,Thread.pushed,h.noff]
    by_cases hzero : t.depth=0
    · rw [if_pos hzero,if_pos hzero,hold]
    · rw [if_neg hzero,if_neg hzero]
      exact h.intena (Nat.pos_of_ne_zero hzero) hsaved
  · have hb : t.saved=some b := hb
    rw [hsaved] at hb
    cases hb

theorem Runs.popOff (h : Runs x t) (hpos : 0 < t.depth) (hsaved : t.saved=none)
    (hcall : t.call=none) :
    ∃ x', x.popOff=.ok x' ∧ x'.cur=x.cur ∧ Runs x' t.popped ∧ (t.depth=1 → x'.intr=t.before) := by
  have hoff := h.off hpos
  have hena := h.intena hpos hsaved
  have hnoff := h.noff
  unfold Cpu.popOff
  rw [if_neg (by simp [hoff]),if_neg (by omega)]
  dsimp only
  have hbase : ∀ x' : Cpu κ τ, x'.noff=x.noff-1 → x'.intena=x.intena →
      (0 < t.depth-1 → x'.intr=false) → Runs x' t.popped := by
    intro x' hn he hi
    refine ⟨by rw [hn,hnoff]; rfl,hi,fun _ _ => he.trans hena,fun b hb => ?_,fun k hk => ?_,h.traps⟩
    · have hb : t.saved=some b := hb
      rw [hsaved] at hb
      cases hb
    · have hk : t.call=some k := hk
      rw [hcall] at hk
      cases hk
  split
  · rename_i hlast
    refine ⟨_,rfl,rfl,hbase _ rfl rfl fun hmore => ?_,fun _ => ?_⟩
    · exact absurd hlast.1 (by omega)
    · exact hlast.2.symm.trans hena
  · rename_i hmore
    refine ⟨_,rfl,rfl,hbase _ rfl rfl fun _ => hoff,fun hone => ?_⟩
    have hfalse : x.intena≠true := fun he => hmore ⟨by omega,he⟩
    rw [← hena]
    simpa [hoff] using (Bool.eq_false_iff.mpr hfalse).symm

end Runs

section Invariant
variable {s s' : Sys κ τ} {c d : κ} {p : τ}

structure Waits (t : Thread τ) : Prop where
  saved : t.saved=some t.before
  depth : t.depth=1
  call : t.call=none
  traps : ∀ k, some k∈t.traps → k.old=true

structure Asleep (t : Thread τ) : Prop where
  saved : t.saved=none
  call : t.call=none
  traps : t.traps=[]

structure Inv (s : Sys κ τ) : Prop where
  cpu : ∀ c, Runs (s.cpu c) (s.thread (s.cpu c).cur)
  own : ∀ c d, (s.cpu c).cur=.scheduler d → d=c
  running : ∀ c p, (s.cpu c).cur=.proc p → s.place p=.running
  once : ∀ c d p, (s.cpu c).cur=.proc p → (s.cpu d).cur=.proc p → c=d
  parked : ∀ p, s.place p=.parked → Waits (s.thread (.proc p))
  new : ∀ p, s.place p=.new → s.thread (.proc p)=.fresh
  asleep : ∀ c, (s.cpu c).cur≠.scheduler c → Asleep (s.thread (.scheduler c))
  panic : ∀ e, s.panic=some e → e=.acquire ∨ e=.release

theorem Inv.cur_inj (h : Inv s) (heq : (s.cpu c).cur=(s.cpu d).cur) : c=d := by
  cases hc : (s.cpu c).cur with
  | scheduler b =>
    rw [hc] at heq
    exact (h.own c b hc).symm.trans (h.own d b heq.symm)
  | proc p =>
    rw [hc] at heq
    exact h.once c d p hc heq.symm

theorem Inv.cur_ne (h : Inv s) {q : τ} (hcur : (s.cpu c).cur=.proc p) (hidle : s.place q≠.running) :
    (.proc p : Tid κ τ)≠.proc q := by
  rintro ⟨⟩
  exact hidle (h.running c p hcur)

theorem Tid.proc_ne : (Tid.proc p : Tid κ τ)≠.scheduler c := nofun

theorem Thread.idle.none {t : Thread τ} (h : t.idle) : t.call=none ∧ t.spin=none ∧ t.saved=none :=
  ⟨Option.isNone_iff_eq_none.mp h.1,Option.isNone_iff_eq_none.mp h.2.1,
    Option.isNone_iff_eq_none.mp h.2.2⟩

theorem Inv.setPanic (h : Inv s) {e : Panic} (he : e=.acquire ∨ e=.release) :
    Inv { s with panic := some e } :=
  ⟨h.cpu,h.own,h.running,h.once,h.parked,h.new,h.asleep,fun e' he' => by cases he'; exact he⟩

/-- The state in which the CPUs enter `scheduler`. -/
structure Start (s : Sys κ τ) : Prop where
  cur : ∀ c, (s.cpu c).cur=.scheduler c
  noff : ∀ c, (s.cpu c).noff=0
  thread : ∀ c, s.thread (.scheduler c)=.fresh
  place : ∀ p, s.place p=.unused
  lock : ∀ lk, s.lock lk=none
  panic : s.panic=none

theorem Start.inv (h : Start s) : Inv s := by
  refine ⟨fun c => ?_,fun c d hd => ?_,fun c p hp => ?_,fun c d p hp => ?_,fun p hp => ?_,fun p hp => ?_,
    fun c hc => absurd (h.cur c) hc,fun e he => ?_⟩
  · rw [h.cur,h.thread]
    exact ⟨h.noff c,nofun,nofun,nofun,nofun,nofun⟩
  · rw [h.cur] at hd
    cases hd
    rfl
  · rw [h.cur] at hp
    cases hp
  · rw [h.cur] at hp
    cases hp
  · rw [h.place] at hp
    cases hp
  · rw [h.place] at hp
    cases hp
  · rw [h.panic] at he
    cases he

variable [DecidableEq κ] [DecidableEq τ]

theorem Inv.within {x : Cpu κ τ} {t : Thread τ} (h : Inv s) (hcpu : s'.cpu=update s.cpu c x)
    (hthread : s'.thread=update s.thread (s.cpu c).cur t) (hplace : s'.place=s.place)
    (hpanic : ∀ e, s'.panic=some e → e=.acquire ∨ e=.release)
    (hcur : x.cur=(s.cpu c).cur) (hruns : Runs x t) : Inv s' := by
  have hcur' : ∀ d, (s'.cpu d).cur=(s.cpu d).cur := by
    intro d
    rw [hcpu]
    by_cases hd : d=c
    · rw [hd,update_self,hcur]
    · rw [update_of_ne hd]
  have hother : ∀ i, (s.cpu c).cur≠i → s'.thread i=s.thread i := by
    intro i hi
    rw [hthread,update_of_ne (Ne.symm hi)]
  refine ⟨fun d => ?_,fun d b hd => h.own d b (hcur' d ▸ hd),fun d p hd => ?_,fun b d p hb hd => ?_,
    fun p hp => ?_,fun p hp => ?_,fun d hd => ?_,hpanic⟩
  · by_cases hd : d=c
    · rw [hcur',hd,hcpu,hthread,update_self,update_self]
      exact hruns
    · have hne : (s.cpu c).cur≠(s.cpu d).cur := fun heq => hd (h.cur_inj heq).symm
      rw [hcur',hother _ hne,hcpu,update_of_ne hd]
      exact h.cpu d
  · rw [hplace]
    exact h.running d p (hcur' d ▸ hd)
  · exact h.once b d p (hcur' b ▸ hb) (hcur' d ▸ hd)
  · rw [hplace] at hp
    rw [hother]
    · exact h.parked p hp
    · intro heq
      rw [h.running c p heq] at hp
      cases hp
  · rw [hplace] at hp
    rw [hother]
    · exact h.new p hp
    · intro heq
      rw [h.running c p heq] at hp
      cases hp
  · rw [hcur'] at hd
    by_cases hcd : (s.cpu c).cur=.scheduler d
    · exact absurd (h.own c d hcd ▸ hcd) (h.own c d hcd ▸ hd)
    · rw [hother _ hcd]
      exact h.asleep d hd

theorem popOff_eq {i : Tid κ τ} {x : Cpu κ τ} (h : (s.cpu c).popOff=.ok x) :
    s.popOff c i=(s.setCpu c x).setThread i (s.thread i).popped := by
  rw [Sys.popOff,h]

theorem Inv.swtch {tp tb : Thread τ} {pl : Place} {j : Tid κ τ} (h : Inv s)
    (hfree : ∀ d≠c, (s.cpu d).cur≠.proc p)
    (hj : (j=.scheduler c ∧ pl=.parked ∧ Waits tp ∧ Runs { s.cpu c with cur := j } tb) ∨
      (j=.proc p ∧ pl=.running ∧ Runs { s.cpu c with cur := j } tp ∧ Asleep tb)) :
    Inv { s with
      cpu := update s.cpu c { s.cpu c with cur := j }
      thread := update (update s.thread (.proc p) tp) (.scheduler c) tb
      place := update s.place p pl } := by
  have hother : ∀ i, i≠.proc p → i≠.scheduler c →
      update (update s.thread (.proc p) tp) (.scheduler c) tb i=s.thread i := by
    intro i hi hi'
    rw [update_of_ne hi',update_of_ne hi]
  have hp : update (update s.thread (.proc p) tp) (.scheduler c) tb (.proc p)=tp := by
    rw [update_of_ne Tid.proc_ne,update_self]
  have hb : update (update s.thread (.proc p) tp) (.scheduler c) tb (.scheduler c)=tb := update_self ..
  have hcases : ∀ d, d=c ∨ (d≠c ∧ (s.cpu d).cur≠.scheduler c) := by
    intro d
    by_cases hd : d=c
    · exact .inl hd
    · exact .inr ⟨hd,fun heq => hd (h.own d c heq).symm⟩
  have hjp : ∀ q, j=.proc q → q=p := by
    rcases hj with ⟨rfl,-⟩ | ⟨rfl,-⟩
    · exact nofun
    · rintro q ⟨⟩
      rfl
  refine ⟨fun d => ?_,fun d b hd => ?_,fun d q hd => ?_,fun b d q hb' hd => ?_,fun q hq => ?_,
    fun q hq => ?_,fun d hd => ?_,h.panic⟩
  · dsimp only
    rcases hcases d with rfl | ⟨hdc,hsched⟩
    · rw [update_self]
      rcases hj with ⟨rfl,-,-,hruns⟩ | ⟨rfl,-,hruns,-⟩
      · rw [hb]
        exact hruns
      · rw [hp]
        exact hruns
    · rw [update_of_ne hdc,hother _ (hfree d hdc) hsched]
      exact h.cpu d
  · dsimp only at hd
    rcases hcases d with rfl | ⟨hdc,-⟩
    · rw [update_self] at hd
      rcases hj with ⟨rfl,-⟩ | ⟨rfl,-⟩
      · cases hd
        rfl
      · cases hd
    · rw [update_of_ne hdc] at hd
      exact h.own d b hd
  · dsimp only at hd ⊢
    rcases hcases d with rfl | ⟨hdc,-⟩
    · rw [update_self] at hd
      obtain rfl := hjp q hd
      rcases hj with ⟨rfl,-⟩ | ⟨-,rfl,-⟩
      · cases hd
      · rw [update_self]
    · rw [update_of_ne hdc] at hd
      have hqp : q≠p := fun heq => hfree d hdc (heq ▸ hd)
      rw [update_of_ne hqp]
      exact h.running d q hd
  · dsimp only at hb' hd
    rcases hcases b with rfl | ⟨hbc,-⟩
    · rw [update_self] at hb'
      obtain rfl := hjp q hb'
      by_contra hne
      rw [update_of_ne (Ne.symm hne)] at hd
      exact hfree d (Ne.symm hne) hd
    · rw [update_of_ne hbc] at hb'
      rcases hcases d with rfl | ⟨hdc,-⟩
      · rw [update_self] at hd
        obtain rfl := hjp q hd
        exact absurd hb' (hfree b hbc)
      · rw [update_of_ne hdc] at hd
        exact h.once b d q hb' hd
  · dsimp only at hq ⊢
    by_cases hqp : q=p
    · rw [hqp,update_self] at hq
      rw [hqp,hp]
      rcases hj with ⟨-,-,hwaits,-⟩ | ⟨-,rfl,-⟩
      · exact hwaits
      · cases hq
    · rw [update_of_ne hqp] at hq
      rw [hother _ (fun heq => hqp (Tid.proc.inj heq)) nofun]
      exact h.parked q hq
  · dsimp only at hq ⊢
    by_cases hqp : q=p
    · rw [hqp,update_self] at hq
      rcases hj with ⟨-,rfl,-⟩ | ⟨-,rfl,-⟩
      · cases hq
      · cases hq
    · rw [update_of_ne hqp] at hq
      rw [hother _ (fun heq => hqp (Tid.proc.inj heq)) nofun]
      exact h.new q hq
  · dsimp only at hd ⊢
    rcases hcases d with rfl | ⟨hdc,-⟩
    · rw [update_self] at hd
      rw [hb]
      rcases hj with ⟨rfl,-⟩ | ⟨-,-,-,hasleep⟩
      · exact absurd rfl hd
      · exact hasleep
    · rw [update_of_ne hdc] at hd
      rw [hother _ Tid.proc_ne.symm (fun heq => hdc (Tid.scheduler.inj heq))]
      exact h.asleep d hd

theorem Inv.slot {t : Thread τ} {pl : Place} (h : Inv s) (hidle : s.place p≠.running)
    (hpl : (pl=.new ∧ t=.fresh) ∨ pl=.unused) :
    Inv { s with thread := update s.thread (.proc p) t, place := update s.place p pl } := by
  have hfree : ∀ d, (s.cpu d).cur≠.proc p := fun d heq => hidle (h.running d p heq)
  refine ⟨fun d => ?_,h.own,fun d q hd => ?_,h.once,fun q hq => ?_,fun q hq => ?_,fun d hd => ?_,h.panic⟩
  · dsimp only
    rw [update_of_ne (hfree d)]
    exact h.cpu d
  · dsimp only
    have hqp : q≠p := by
      rintro rfl
      exact hfree d hd
    rw [update_of_ne hqp]
    exact h.running d q hd
  · dsimp only at hq ⊢
    by_cases hqp : q=p
    · rw [hqp,update_self] at hq
      rcases hpl with ⟨rfl,-⟩ | rfl
      · cases hq
      · cases hq
    · rw [update_of_ne hqp] at hq
      rw [update_of_ne (fun heq => hqp (Tid.proc.inj heq))]
      exact h.parked q hq
  · dsimp only at hq ⊢
    by_cases hqp : q=p
    · rw [hqp,update_self] at hq
      rcases hpl with ⟨-,rfl⟩ | rfl
      · rw [hqp,update_self]
      · cases hq
    · rw [update_of_ne hqp] at hq
      rw [update_of_ne (fun heq => hqp (Tid.proc.inj heq))]
      exact h.new q hq
  · exact h.asleep d hd

inductive Effect (s : Sys κ τ) (c : κ) : Sys κ τ → Prop
  | within {s' : Sys κ τ} {x : Cpu κ τ} {t : Thread τ} (hcpu : s'.cpu=update s.cpu c x)
      (hthread : s'.thread=update s.thread (s.cpu c).cur t) (hplace : s'.place=s.place)
      (hpanic : s'.panic=s.panic) (hcur : x.cur=(s.cpu c).cur) (hruns : Runs x t)
      (hbefore : t.before=(s.thread (s.cpu c).cur).before ∨ (s.thread (s.cpu c).cur).depth=0)
      (hleave : (s.thread (s.cpu c).cur).depth=0 → 0 < t.depth → t.before=(s.cpu c).intr)
      (hback : 0 < (s.thread (s.cpu c).cur).depth → t.depth=0 →
        x.intr=(s.thread (s.cpu c).cur).before) : Effect s c s'
  | fails {e : Panic} (he : e=.acquire ∨ e=.release) : Effect s c { s with panic := some e }
  | swtch {p : τ} {tp tb : Thread τ} {pl : Place} {j : Tid κ τ}
      (hfrom : (s.cpu c).cur=.scheduler c ∨
        ((s.cpu c).cur=.proc p ∧ (s.thread (.proc p)).depth=1))
      (hfree : ∀ d≠c, (s.cpu d).cur≠.proc p)
      (hj : (j=.scheduler c ∧ pl=.parked ∧ Waits tp ∧ Runs { s.cpu c with cur := j } tb) ∨
        (j=.proc p ∧ pl=.running ∧ Runs { s.cpu c with cur := j } tp ∧ Asleep tb))
      (hbefore : tp.before=(s.thread (.proc p)).before ∨ (s.thread (.proc p)).depth=0)
      (hdepth : tp.depth=1) : Effect s c { s with
        cpu := update s.cpu c { s.cpu c with cur := j }
        thread := update (update s.thread (.proc p) tp) (.scheduler c) tb
        place := update s.place p pl }
  | slot {p : τ} {t : Thread τ} {pl : Place} (hidle : s.place p≠.running)
      (hpl : (pl=.new ∧ t=.fresh) ∨ (pl=.unused ∧ t=s.thread (.proc p))) :
      Effect s c { s with thread := update s.thread (.proc p) t, place := update s.place p pl }

theorem Inv.effect_popOff (h : Inv s) (lock : Lock τ → Option κ)
    (hidle : (s.thread (s.cpu c).cur).idle) (hpos : 0<(s.thread (s.cpu c).cur).depth) :
    Effect s c (Sys.popOff { s with lock := lock } c (s.cpu c).cur) := by
  obtain ⟨hcall,-,hsaved⟩ := hidle.none
  obtain ⟨x,hx,hcur,hruns,hlast⟩ := (h.cpu c).popOff hpos hsaved hcall
  rw [popOff_eq (s := { s with lock := lock }) hx]
  refine .within rfl rfl rfl rfl hcur hruns (.inl rfl) (fun hzero => by omega) fun _ hzero => hlast ?_
  have hzero : (s.thread (s.cpu c).cur).depth-1=0 := hzero
  omega

theorem Inv.effect_sched (h : Inv s) (hcur : (s.cpu c).cur=.proc p) (hidle : (s.thread (.proc p)).idle)
    (hdepth : (s.thread (.proc p)).depth=1) (hlock : s.lock (.proc p)=some c) :
    Effect s c (sched s c p) := by
  obtain ⟨hcall,-,hsaved⟩ := hidle.none
  have hruns := h.cpu c
  rw [hcur] at hruns
  obtain ⟨hnoff,hoff,hena⟩ := hruns.one_deep hdepth hsaved
  obtain ⟨hbsaved,hbcall,hbtraps⟩ := h.asleep c (by rw [hcur]; nofun)
  unfold Interrupts.sched
  rw [if_neg (not_not.mpr hlock),if_neg (not_not.mpr hnoff),if_neg (by simp [hoff])]
  refine .swtch (.inr ⟨hcur,hdepth⟩) (fun d hd heq => hd (h.once d c p heq hcur)) (.inl ⟨rfl,rfl,?_,?_⟩)
    (.inl rfl) hdepth
  · exact ⟨congrArg some hena,hdepth,hcall,hruns.traps⟩
  · refine ⟨hnoff,fun _ => hoff,fun _ _ => hena,fun b hb => ?_,fun k hk => ?_,fun k hk => ?_⟩
    · rw [hbsaved] at hb
      cases hb
    · rw [hbcall] at hk
      cases hk
    · rw [hbtraps] at hk
      cases hk

theorem Inv.effect_switchTo (h : Inv s) (hcur : (s.cpu c).cur=.scheduler c)
    (hidle : (s.thread (.scheduler c)).idle) (htraps : (s.thread (.scheduler c)).traps=[])
    (hdepth : (s.thread (.scheduler c)).depth=1)
    (hplace : s.place p=.new ∨ s.place p=.parked) : Effect s c (switchTo s c p) := by
  obtain ⟨hcall,-,hsaved⟩ := hidle.none
  have hruns := h.cpu c
  rw [hcur] at hruns
  obtain ⟨hnoff,hoff,hena⟩ := hruns.one_deep hdepth hsaved
  have hfree : ∀ d≠c, (s.cpu d).cur≠.proc p := by
    intro d _ heq
    have hrun := h.running d p heq
    rcases hplace with hplace | hplace
    · rw [hrun] at hplace
      cases hplace
    · rw [hrun] at hplace
      cases hplace
  have hthread : Runs { s.cpu c with cur := (.proc p : Tid κ τ) } (entered s c p) ∧
      ((entered s c p).before=(s.thread (.proc p)).before ∨ (s.thread (.proc p)).depth=0) ∧
      (entered s c p).depth=1 := by
    unfold entered
    by_cases hnew : s.place p=.new
    · rw [if_pos hnew,h.new p hnew]
      exact ⟨⟨hnoff,fun _ => hoff,fun _ _ => hena,nofun,nofun,nofun⟩,.inr rfl,rfl⟩
    · rw [if_neg hnew]
      obtain ⟨hsaved,hdepth,hcall,htraps⟩ := h.parked p (hplace.resolve_left hnew)
      refine ⟨⟨hnoff.trans hdepth.symm,fun _ => hoff,fun _ hs => ?_,fun b hb => ?_,fun k hk => ?_,
        htraps⟩,.inl rfl,hdepth⟩
      · rw [hsaved] at hs
        cases hs
      · rw [hsaved] at hb
        cases hb
        exact ⟨hdepth,rfl⟩
      · rw [hcall] at hk
        cases hk
  exact .swtch (.inl hcur) hfree (.inr ⟨rfl,rfl,hthread.1,hsaved,hcall,htraps⟩) hthread.2.1 hthread.2.2

theorem Inv.effect {op : Op τ} (h : Inv s) (hstep : step s (c, op)=some s') : Effect s c s' := by
  unfold Interrupts.step at hstep
  dsimp only at hstep
  split at hstep
  · cases hstep
  have hruns := h.cpu c
  have hmore : ∀ {d : Nat} {P : Prop}, 0 < d → d=0 → P := fun hpos hzero => by omega
  have hless : ∀ {d : Nat} {P : Prop}, d=0 → 0 < d → P := fun hzero hpos => by omega
  cases op with
  | intrGet lk =>
    obtain ⟨hidle,⟨⟩⟩ := Option.ite_none_right_eq_some.mp hstep
    refine .within (update_eq_self c s.cpu).symm rfl rfl rfl rfl
      ⟨hruns.noff,hruns.off,hruns.intena,hruns.saved,fun k hk => ?_,hruns.traps⟩ (.inl rfl) hless hmore
    cases hk
    exact ⟨rfl,hidle.none.2.2⟩
  | pushOff =>
    obtain ⟨k,hk,rfl⟩ := Option.map_eq_some_iff.mp hstep
    refine .within rfl rfl rfl rfl rfl (hruns.pushOff hk k.lock) ?_ (fun hzero _ => if_pos hzero)
      fun _ hzero => by cases hzero
    by_cases hzero : (s.thread (s.cpu c).cur).depth=0
    · exact .inr hzero
    · exact .inl (if_neg hzero)
  | lock =>
    dsimp only at hstep
    split at hstep
    · cases hstep
    split at hstep
    · cases hstep
      exact .fails (.inl rfl)
    obtain ⟨-,⟨⟩⟩ := Option.ite_none_right_eq_some.mp hstep
    exact .within (update_eq_self c s.cpu).symm rfl rfl rfl rfl
      ⟨hruns.noff,hruns.off,hruns.intena,hruns.saved,hruns.call,hruns.traps⟩ (.inl rfl) hless hmore
  | release lk =>
    dsimp only at hstep
    obtain ⟨⟨hidle,hpos⟩,hstep⟩ := Option.ite_none_right_eq_some.mp hstep
    split at hstep
    · cases hstep
      exact .fails (.inr rfl)
    · cases hstep
      exact h.effect_popOff _ hidle hpos
  | popOff =>
    obtain ⟨⟨hidle,hpos⟩,⟨⟩⟩ := Option.ite_none_right_eq_some.mp hstep
    exact h.effect_popOff s.lock hidle hpos
  | setIntr b =>
    dsimp only at hstep
    obtain ⟨⟨hidle,hzero⟩,⟨⟩⟩ := Option.ite_none_right_eq_some.mp hstep
    refine .within rfl (update_eq_self _ s.thread).symm rfl rfl rfl
      ⟨hruns.noff,fun hpos => by omega,fun hpos => by omega,hruns.saved,fun k hk => ?_,hruns.traps⟩
      (.inl rfl) hless hmore
    rw [hidle.none.1] at hk
    cases hk
  | trap =>
    dsimp only at hstep
    obtain ⟨hon,⟨⟩⟩ := Option.ite_none_right_eq_some.mp hstep
    refine .within rfl rfl rfl rfl rfl
      ⟨hruns.noff,fun _ => rfl,hruns.intena,hruns.saved,nofun,fun k hk => ?_⟩ (.inl rfl) hless hmore
    rcases List.mem_cons.mp hk with hk | hk
    · exact (hruns.call k hk.symm).1.trans hon
    · exact hruns.traps k hk
  | sret =>
    dsimp only at hstep
    split at hstep
    · cases hstep
    rename_i call traps htraps
    obtain ⟨⟨hidle,hzero⟩,⟨⟩⟩ := Option.ite_none_right_eq_some.mp hstep
    have hall := hruns.traps
    rw [htraps] at hall
    refine .within rfl rfl rfl rfl rfl
      ⟨hruns.noff,fun hpos => ?_,hruns.intena,hruns.saved,fun k hk => ?_,fun k hk => ?_⟩
      (.inl rfl) hless hmore
    · exact absurd hzero (Nat.ne_of_gt hpos)
    · exact ⟨hall k (List.mem_cons.mpr (.inl hk.symm)),hidle.none.2.2⟩
    · exact hall k (List.mem_cons_of_mem _ hk)
  | switchTo p =>
    dsimp only at hstep
    obtain ⟨⟨hcur,hidle,htraps,hdepth,-,hplace⟩,⟨⟩⟩ := Option.ite_none_right_eq_some.mp hstep
    rw [hcur] at hidle htraps hdepth
    exact h.effect_switchTo hcur hidle (List.isEmpty_iff.mp htraps) hdepth hplace
  | sched =>
    dsimp only at hstep
    split at hstep
    · cases hstep
    rename_i p hcur
    obtain ⟨⟨hidle,hdepth,hlock⟩,⟨⟩⟩ := Option.ite_none_right_eq_some.mp hstep
    rw [hcur] at hidle hdepth
    exact h.effect_sched hcur hidle hdepth hlock
  | restore =>
    obtain ⟨b,hb,rfl⟩ := Option.map_eq_some_iff.mp hstep
    obtain ⟨hdepth,hbefore⟩ := hruns.saved b hb
    exact .within rfl rfl rfl rfl rfl ⟨hruns.noff,hruns.off,fun _ _ => hbefore,nofun,
      fun k hk => ⟨(hruns.call k hk).1,rfl⟩,hruns.traps⟩ (.inl rfl) hless hmore
  | create p =>
    obtain ⟨hplace,⟨⟩⟩ := Option.ite_none_right_eq_some.mp hstep
    exact .slot (by rw [hplace]; nofun) (.inl ⟨rfl,rfl⟩)
  | free p =>
    obtain ⟨hplace,⟨⟩⟩ := Option.ite_none_right_eq_some.mp hstep
    have hslot : Effect s c { s with
        thread := update s.thread (.proc p) (s.thread (.proc p))
        place := update s.place p .unused } := .slot (by rw [hplace]; nofun) (.inr ⟨rfl,rfl⟩)
    rwa [update_eq_self] at hslot

theorem Inv.step (h : Inv s) (heff : Effect s c s') : Inv s' := by
  cases heff with
  | within hcpu hthread hplace hpanic hcur hruns =>
    exact h.within hcpu hthread hplace (fun e he => h.panic e (hpanic ▸ he)) hcur hruns
  | fails he => exact h.setPanic he
  | swtch hfrom hfree hj => exact h.swtch hfree hj
  | slot hidle hpl => exact h.slot hidle (hpl.imp_right And.left)

theorem Effect.before (heff : Effect s c s') (p : τ) :
    (s'.thread (.proc p)).before=(s.thread (.proc p)).before ∨ (s.thread (.proc p)).depth=0 ∨
      (s'.thread (.proc p)).depth=0 := by
  cases heff with
  | within hcpu hthread hplace hpanic hcur hruns hbefore hleave hback =>
    rw [hthread]
    by_cases hp : (s.cpu c).cur=.proc p
    · rw [hp] at hbefore
      rw [hp,update_self]
      exact hbefore.imp_right .inl
    · rw [update_of_ne (Ne.symm hp)]
      exact .inl rfl
  | fails he => exact .inl rfl
  | @swtch q tp tb pl j hfrom hfree hj hbefore hdepth =>
    dsimp only
    rw [update_of_ne Tid.proc_ne]
    by_cases hp : p=q
    · rw [hp,update_self]
      exact hbefore.imp_right .inl
    · rw [update_of_ne (fun heq => hp (Tid.proc.inj heq))]
      exact .inl rfl
  | @slot q t pl hidle hpl =>
    dsimp only
    by_cases hp : p=q
    · rw [hp,update_self]
      rcases hpl with ⟨-,rfl⟩ | ⟨-,rfl⟩
      · exact .inr (.inr rfl)
      · exact .inl rfl
    · rw [update_of_ne (fun heq => hp (Tid.proc.inj heq))]
      exact .inl rfl

theorem Inv.returns (h : Inv s) (heff : Effect s c s') (hcur : (s.cpu c).cur=.proc p)
    (hpos : 0<(s.thread (.proc p)).depth) (hzero : (s'.thread (.proc p)).depth=0) :
    (s'.cpu c).intr=(s.thread (.proc p)).before := by
  have hsame : (s'.thread (.proc p)).depth=(s.thread (.proc p)).depth →
      (s'.cpu c).intr=(s.thread (.proc p)).before := fun heq => by omega
  cases heff with
  | within hcpu hthread hplace hpanic hcur' hruns hbefore hleave hback =>
    rw [hcur] at hthread hback
    rw [hthread,update_self] at hzero
    rw [hcpu,update_self]
    exact hback hpos hzero
  | fails he => exact hsame rfl
  | @swtch q tp tb pl j hfrom hfree hj hbefore hdepth =>
    dsimp only at hzero hsame ⊢
    rw [update_of_ne Tid.proc_ne] at hzero hsame
    by_cases hp : p=q
    · rw [hp,update_self,hdepth] at hzero
      cases hzero
    · exact hsame (by rw [update_of_ne (fun heq => hp (Tid.proc.inj heq))])
  | @slot q t pl hidle hpl =>
    exact hsame (by dsimp only; rw [update_of_ne (h.cur_ne hcur hidle)])

theorem inv_run {s₀ : Sys κ τ} {ops : List (κ × Op τ)} (h : Inv s₀)
    (hrun : run step ops s₀=some s) : Inv s :=
  run_invariant (fun _ _ _ hinv hstep => hinv.step (hinv.effect hstep)) h hrun

theorem Inv.leaves (h : Inv s) (heff : Effect s c s') (hcur : (s.cpu c).cur=.proc p)
    (hzero : (s.thread (.proc p)).depth=0) (hpos : 0<(s'.thread (.proc p)).depth) :
    (s'.thread (.proc p)).before=(s.cpu c).intr := by
  have hsame : (s'.thread (.proc p)).depth=(s.thread (.proc p)).depth →
      (s'.thread (.proc p)).before=(s.cpu c).intr := fun heq => by omega
  cases heff with
  | within hcpu hthread hplace hpanic hcur' hruns hbefore hleave hback =>
    rw [hcur] at hthread hleave
    rw [hthread,update_self] at hpos ⊢
    exact hleave hzero hpos
  | fails he => exact hsame rfl
  | @swtch q tp tb pl j hfrom hfree hj hbefore hdepth =>
    rw [hcur] at hfrom
    rcases hfrom with hfrom | ⟨hfrom,hone⟩
    · cases hfrom
    · cases hfrom
      omega
  | @slot q t pl hidle hpl =>
    exact hsame (by dsimp only; rw [update_of_ne (h.cur_ne hcur hidle)])

theorem before_run {ops : List (κ × Op τ)} (h : Inv s) (hrun : run step ops s=some s')
    (hpos : ∀ l x, l <+: ops → run step l s=some x → 0<(x.thread (.proc p)).depth) :
    (s'.thread (.proc p)).before=(s.thread (.proc p)).before := by
  induction ops generalizing s with
  | nil =>
    cases hrun
    rfl
  | cons op ops ih =>
    obtain ⟨u,hu,hops⟩ := run_cons.mp hrun
    have heff := h.effect hu
    have hs : 0<(s.thread (.proc p)).depth := hpos [] s List.nil_prefix rfl
    have hnext : ∀ l x, l <+: ops → run step l u=some x → 0<(x.thread (.proc p)).depth :=
      fun l x hl hx => hpos (op::l) x (List.cons_prefix_cons.mpr ⟨rfl,hl⟩) (run_cons.mpr ⟨u,hu,hx⟩)
    have hu' : 0<(u.thread (.proc p)).depth := hnext [] u List.nil_prefix rfl
    rw [ih (h.step heff) hops hnext]
    rcases heff.before p with hsame | hzero | hzero
    · exact hsame
    · omega
    · omega

/-- In every run from the start of the schedulers: the only panics are those of a thread that acquires
a lock its CPU holds or releases one that it does not hold. `noff` of a CPU is the number of
unmatched calls of `push_off` of the thread there, and interrupts are off if that is not 0. When
the number returns to 0, interrupts are as they were when it left 0, on whatever CPU. -/
theorem interrupts_belong_to_threads {s₀ : Sys κ τ} {ops : List (κ × Op τ)} (h₀ : Start s₀)
    (hrun : run step ops s₀=some s) : (∀ e, s.panic=some e → e=.acquire ∨ e=.release) ∧
    (∀ c, (s.cpu c).noff=(s.thread (s.cpu c).cur).depth ∧
      (0 < (s.thread (s.cpu c).cur).depth → (s.cpu c).intr=false)) ∧
    (∀ c op s' p, step s (c, op)=some s' → (s.cpu c).cur=.proc p →
      0 < (s.thread (.proc p)).depth → (s'.thread (.proc p)).depth=0 →
      (s'.cpu c).intr=(s.thread (.proc p)).before) ∧
    ∀ c op t p, step s (c, op)=some t → (s.cpu c).cur=.proc p →
      (s.thread (.proc p)).depth=0 → ∀ later u d op' u', run step later t=some u →
      (∀ l x, l <+: later → run step l t=some x → 0 < (x.thread (.proc p)).depth) →
      step u (d, op')=some u' → (u.cpu d).cur=.proc p → (u'.thread (.proc p)).depth=0 →
      (u'.cpu d).intr=(s.cpu c).intr := by
  have h := inv_run h₀.inv hrun
  refine ⟨h.panic,fun c => ⟨(h.cpu c).noff,(h.cpu c).off⟩,
    fun c op s' p hstep hcur hpos hzero => h.returns (h.effect hstep) hcur hpos hzero,?_⟩
  intro c op t p hstep hcur hzero later u d op' u' hlater hpos hstep' hcur' hzero'
  have heff := h.effect hstep
  have ht := h.step heff
  have hu := inv_run ht hlater
  have hleft := h.leaves heff hcur hzero (hpos [] t List.nil_prefix rfl)
  have hkept := before_run ht hlater hpos
  have hback := hu.returns (hu.effect hstep') hcur' (hpos later u List.prefix_rfl hlater) hzero'
  rw [hback,hkept,hleft]

def twoCpus : Sys Bool Unit :=
  ⟨fun c => ⟨false,0,false,.scheduler c⟩,fun _ => .fresh,fun _ => .unused,fun _ => none,none⟩

def migration : List (Bool × Op Unit) :=
  [(false,.create ()),(false,.setIntr true),(false,.intrGet (some (.proc ()))),(false,.pushOff),
    (false,.lock),(false,.switchTo ()),(false,.release (.proc ())),(false,.trap),
    (false,.intrGet (some (.proc ()))),(false,.pushOff),(false,.lock),(false,.sched),
    (false,.release (.proc ())),(true,.setIntr true),(true,.intrGet (some (.proc ()))),(true,.pushOff),
    (true,.lock),(true,.switchTo ()),(true,.restore)]

def migrated : Sys Bool Unit := (run step migration twoCpus).get (by decide +kernel)

def unlocked : Sys Bool Unit := (step migrated (true,.release (.proc ()))).get (by decide +kernel)

theorem migration_keeps_interrupts : (migrated.cpu true).intena=false ∧ (migrated.cpu true).noff=1 ∧
    (unlocked.cpu true).intr=false := by
  have hrun : run step migration twoCpus=some migrated := (Option.some_get _).symm
  have hstep : step migrated (true,.release (.proc ()))=some unlocked := (Option.some_get _).symm
  have hstart : Start twoCpus :=
    ⟨fun _ => rfl,fun _ => rfl,fun _ => rfl,fun _ => rfl,fun _ => rfl,rfl⟩
  have hcur : (migrated.cpu true).cur=.proc () := by decide +kernel
  have hdepth : (migrated.thread (.proc ())).depth=1 := by decide +kernel
  have hbefore : (migrated.thread (.proc ())).before=false := by decide +kernel
  have hzero : (unlocked.thread (.proc ())).depth=0 := by decide +kernel
  obtain ⟨-,hcpu,hback,-⟩ := interrupts_belong_to_threads hstart hrun
  refine ⟨by decide +kernel,?_,?_⟩
  · rw [(hcpu true).1,hcur,hdepth]
  · rw [hback true _ unlocked () hstep hcur (by rw [hdepth]; decide) hzero,hbefore]

end Invariant

end Xv6.Interrupts
