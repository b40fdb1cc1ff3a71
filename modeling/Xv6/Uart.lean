import Xv6.Monitor
import Xv6.RingIndex
import Mathlib.Algebra.Group.Nat.Defs

/-! The transmit side of `kernel/uart.c`: `uartputc` by any number of processes, `uartstart`, and
the part of `uartintr` that sends buffered characters, under `uart_tx_lock`. -/
namespace Xv6.Uart
open Function Xv6.Machine Xv6.Monitor Xv6.RingIndex
variable {P : Type}

/-- `UART_TX_BUF_SIZE` -/
def bufSize : Nat := 32

/-- The range of a `uint64`. -/
def word : Nat := 2 ^ 64

/-- The buffer with its two indices, `LSR_TX_IDLE` and `panicked`. History: whether the UART has
become idle since the handler last ran, the bytes stored and those written to `THR`, whether one
was written over another, and whether `uartputc_sync` has written one. -/
structure Tx where
  buf : Nat → UInt8
  w : Nat
  r : Nat
  idle : Bool
  panicked : Bool
  raised : Bool
  stored : List UInt8
  sent : List UInt8
  overrun : Bool
  synced : Bool

def init (buf : Nat → UInt8) : Tx := ⟨buf,0,0,true,false,false,[],[],false,false⟩

/-- Where a process is that has the lock: at the two tests of `uartputc`, at the start of the
handler, or in the loop of `uartstart`. -/
inductive Place where
  | put (c : UInt8)
  | full (c : UInt8)
  | intr
  | start
  | lsr
  | pop
  | wakeup (c : UInt8)
  | write (c : UInt8)

/-- What comes from outside: the UART has sent its byte, `uartputc_sync` writes one without the
lock, at any time since another CPU may have written after its test, and `panic` is called. -/
inductive Env where
  | drain
  | sync (c : UInt8)
  | panic

def Tx.isFull (x : Tx) : Prop := x.w=(x.r+bufSize)%word

instance Tx.isFull.decidable (x : Tx) : Decidable x.isFull :=
  inferInstanceAs (Decidable (_ = _))

/-- `WriteReg(THR, c)` -/
def Tx.thr (x : Tx) : Tx := { x with idle := false, overrun := x.overrun || !x.idle }

def code : Code P Tx Place Unit Unit Env where
  act _ x
    | .put c => ⟨x,none,.stay (if x.panicked then .put c else .full c)⟩
    | .full c =>
        if x.isFull then ⟨x,none,.sleep () (.full c)⟩
        else
          ⟨{ x with
              buf := update x.buf (x.w%bufSize) c
              w := (x.w+1)%word
              stored := x.stored++[c] },none,.stay .start⟩
    | .intr => ⟨{ x with raised := false },none,.stay .start⟩
    | .start => ⟨x,none,if x.w=x.r then .leave () else .stay .lsr⟩
    | .lsr => ⟨x,none,if x.idle then .stay .pop else .leave ()⟩
    | .pop => ⟨{ x with r := (x.r+1)%word },none,.stay (.wakeup (x.buf (x.r%bufSize)))⟩
    | .wakeup c => ⟨x,some (),.stay (.write c)⟩
    | .write c => ⟨{ x.thr with sent := x.sent++[c] },none,.stay .start⟩
  env x
    | .drain => some { x with idle := true, raised := true }
    | .sync _ => some { x.thr with synced := true }
    | .panic => some { x with panicked := true }

def allowed (_ : Tx) (_ : P) : Place → Bool
  | .put _ | .intr => true
  | _ => false

/-- The loop of `uartstart`, which ends with an empty buffer or with the UART busy. -/
def Place.sending : Place → Bool
  | .start | .lsr | .pop | .wakeup _ | .write _ => true
  | .put _ | .full _ | .intr => false

/-- The places between the test of `LSR` and the write that follows it. -/
def Place.tested : Place → Bool
  | .pop | .wakeup _ | .write _ => true
  | _ => false

/-- The byte that has been taken out of the buffer and is still to be written. -/
def hand : Option (P × Place) → List UInt8
  | some (_,.wakeup c) | some (_,.write c) => [c]
  | _ => []

/-- The indices count the bytes stored and taken out, and `pend` are those in the buffer. -/
structure Ring (x : Tx) (out pend : List UInt8) : Prop where
  stored : x.stored=out++pend
  w : x.w=(out.length+pend.length)%word
  r : x.r=out.length%word
  holds : Holds x.buf bufSize out.length pend
  length : pend.length ≤ bufSize

/-- The bytes in the buffer are going to be sent: the UART is busy and will raise an interrupt,
or has raised one, or somebody is sending. And nobody writes to a UART that is busy, as long as
`uartputc_sync` has not written. -/
structure Sound (x : Tx) (h : Option (P × Place)) (pend : List UInt8) : Prop where
  ring : Ring x (x.sent++hand h) pend
  pops : ∀ p, h=some (p,.lsr) ∨ h=some (p,.pop) → pend≠[]
  covered : pend≠[] → x.idle=false ∨ x.raised=true ∨ ∃ p a, h=some (p,a) ∧ a.sending=true
  overrun : x.synced=false → x.overrun=false
  tested : x.synced=false → ∀ p a, h=some (p,a) → a.tested=true → x.idle=true

/-- A process outside is not in the loop of `uartstart`. -/
def Each (_ : Tx) (_ : P) : Pc Place Unit Unit → Prop
  | .asleep _ a | .enter a => a.sending=false
  | .outside _ | .inside => True

variable {x y : Tx} {h h' : Option (P × Place)} {p : P} {a : Place} {out pend : List UInt8}
  {c : UInt8}

theorem slot_eq (n : Nat) : n%word%bufSize=n%bufSize := Nat.mod_mod_of_dvd n (by decide)

theorem Ring.isFull_iff (hx : Ring x out pend) : x.isFull ↔ pend.length=bufSize := by
  have hlen := hx.length
  unfold bufSize at hlen
  rw [Tx.isFull,hx.w,hx.r]
  unfold word bufSize
  omega

theorem Ring.empty_iff (hx : Ring x out pend) : x.w=x.r ↔ pend=[] := by
  have hlen := hx.length
  unfold bufSize at hlen
  rw [hx.w,hx.r,← List.length_eq_zero_iff]
  unfold word
  omega

theorem Ring.congr (hx : Ring x out pend) (hbuf : y.buf=x.buf) (hw : y.w=x.w) (hr : y.r=x.r)
    (hstored : y.stored=x.stored) : Ring y out pend :=
  ⟨hstored.trans hx.stored,hw.trans hx.w,hr.trans hx.r,hbuf ▸ hx.holds,hx.length⟩

/-- A byte is stored behind the others. -/
theorem Ring.store (hx : Ring x out pend) (hroom : pend.length < bufSize) (c : UInt8) :
    Ring { x with
      buf := update x.buf (x.w%bufSize) c
      w := (x.w+1)%word
      stored := x.stored++[c] } out (pend++[c]) := by
  have hslot : x.w%bufSize=(out.length+pend.length)%bufSize := by rw [hx.w,slot_eq]
  refine ⟨?_,?_,hx.r,?_,?_⟩
  · simp [hx.stored]
  · simp [hx.w,Nat.add_assoc]
  · rw [hslot]
    exact (hx.holds.write hroom c).push (update_self ..)
  · simpa using Nat.succ_le_of_lt hroom

/-- The first byte is taken out. -/
theorem Ring.pop {rest : List UInt8} (hx : Ring x out (c::rest)) :
    x.buf (x.r%bufSize)=c ∧ Ring { x with r := (x.r+1)%word } (out++[c]) rest := by
  refine ⟨?_,?_,?_,?_,?_,?_⟩
  · rw [hx.r,slot_eq]
    exact hx.holds.head
  · simp [hx.stored]
  · simp only [hx.w,List.length_append,List.length_cons,List.length_nil]
    congr 1
    omega
  · simp [hx.r]
  · simpa using hx.holds.tail
  · exact Nat.le_of_succ_le hx.length

/-- Nobody is in the loop of `uartstart`. -/
def Calm (h : Option (P × Place)) : Prop := ∀ q b, h=some (q,b) → b.sending=false

theorem calm_none : Calm (none : Option (P × Place)) := by simp [Calm]

theorem calm_some (ha : a.sending=false) : Calm (some (p,a)) := by
  rintro q b hb
  cases hb
  exact ha

theorem Calm.hand_eq (hh : Calm h) : hand h=[] := by
  rcases h with _ | ⟨q,b⟩
  · rfl
  · have hb := hh q b rfl
    cases b <;> simp_all [hand,Place.sending]

/-- A process comes in, goes on before the loop, or goes to sleep. -/
theorem Sound.wait (hx : Sound x h pend) (hh : Calm h) (hh' : Calm h') : Sound x h' pend where
  ring := by
    rw [hh'.hand_eq,← hh.hand_eq]
    exact hx.ring
  pops q hq := by
    rcases hq with hq | hq
    · cases hh' q _ hq
    · cases hh' q _ hq
  covered hne := by
    rcases hx.covered hne with hidle | hraised | ⟨q,b,hb,hsending⟩
    · exact .inl hidle
    · exact .inr (.inl hraised)
    · rw [hh q b hb] at hsending
      cases hsending
  overrun := hx.overrun
  tested _ q b hb htested := by
    have := hh' q b hb
    cases b <;> simp_all [Place.sending,Place.tested]

/-- The process goes on in the loop. -/
theorem Sound.send {b : Place} (hx : Sound x (some (p,a)) pend)
    (hhand : hand (some (p,b))=hand (some (p,a))) (hb : b.sending=true)
    (hpops : b=.lsr ∨ b=.pop → pend≠[])
    (htested : x.synced=false → b.tested=true → x.idle=true) : Sound x (some (p,b)) pend where
  ring := hhand ▸ hx.ring
  pops q hq := by
    refine hpops (hq.imp ?_ ?_) <;>
    · intro hq
      cases hq
      rfl
  covered _ := .inr (.inr ⟨p,b,rfl,hb⟩)
  overrun := hx.overrun
  tested hsync q b' hb' htest := by
    cases hb'
    exact htested hsync htest

/-- What a step of the process inside keeps. A process that sleeps because the buffer is full is
woken once a byte has been taken out. -/
def Keeps (x : Tx) (p : P) (a : Place) : Prop :=
  Acts (fun x h => ∃ pend, Sound x h pend) Each (fun x _ _ => x.isFull)
    (fun a _ => ∃ c, a=.wakeup c) x p a (code.act p x a)

theorem keeps_stay {b : Place} (hact : (code : Code P _ _ _ _ _).act p x a=⟨y,none,.stay b⟩)
    (hy : Sound y (some (p,b)) pend) (hfull : x.isFull → y.isFull) (ha : ∀ c, a≠.wakeup c) :
    Keeps x p a := by
  rw [Keeps,hact]
  exact .quiet ⟨pend,hy⟩ trivial (fun _ _ _ => id) (fun _ _ => hfull) (by simpa using ha) (by simp)

theorem keeps_leave (hact : (code : Code P _ _ _ _ _).act p x a=⟨x,none,.leave ()⟩)
    (hx : Sound x (none : Option (P × Place)) pend) (ha : ∀ c, a≠.wakeup c) : Keeps x p a := by
  rw [Keeps,hact]
  exact .quiet ⟨pend,hx⟩ trivial (fun _ _ _ => id) (fun _ _ => id) (by simpa using ha) (by simp)

/-- The loop ends. -/
theorem Sound.leave (hx : Sound x (some (p,a)) pend) (ha : hand (some (p,a))=[])
    (hcovered : pend≠[] → x.idle=false) : Sound x (none : Option (P × Place)) pend where
  ring := by
    have hring := hx.ring
    rwa [ha] at hring
  pops := by simp
  covered hne := .inl (hcovered hne)
  overrun := hx.overrun
  tested := by simp

theorem Sound.put (hx : Sound x (some (p,.put c)) pend) : Keeps x p (.put c) := by
  cases hpanic : x.panicked with
  | true => exact keeps_stay (by simp [code,hpanic]) hx id (by simp)
  | false =>
    exact keeps_stay (b := .full c) (by simp [code,hpanic]) (hx.wait (calm_some rfl) (calm_some rfl)) id
      (by simp)

theorem Sound.full (hx : Sound x (some (p,.full c)) pend) : Keeps x p (.full c) := by
  by_cases hfull : x.isFull
  · have hsleep : Sound x (none : Option (P × Place)) pend := hx.wait (calm_some rfl) calm_none
    have hact : (code : Code P _ _ _ _ _).act p x (.full c)=⟨x,none,.sleep () (.full c)⟩ := by
      simp [code,hfull]
    rw [Keeps,hact]
    exact ⟨⟨pend,hsleep⟩,rfl,fun _ _ _ => id,fun _ _ _ => hfull,
      fun _ => .inr (.inr ⟨by simp,fun _ => id⟩)⟩
  · have hroom : pend.length < bufSize :=
      Nat.lt_of_le_of_ne hx.ring.length fun hlen => hfull (hx.ring.isFull_iff.mpr hlen)
    have hsound : Sound { x with
        buf := update x.buf (x.w%bufSize) c
        w := (x.w+1)%word
        stored := x.stored++[c] } (some (p,.start)) (pend++[c]) := {
      ring := hx.ring.store hroom c
      pops := by simp
      covered := fun _ => .inr (.inr ⟨p,.start,rfl,rfl⟩)
      overrun := hx.overrun
      tested := by simp [Place.tested] }
    exact keeps_stay (if_neg hfull) hsound (absurd · hfull) (by simp)

theorem Sound.intr (hx : Sound x (some (p,.intr)) pend) : Keeps x p .intr := by
  have hsound : Sound { x with raised := false } (some (p,.start)) pend := {
    ring := hx.ring.congr rfl rfl rfl rfl
    pops := by simp
    covered := fun _ => .inr (.inr ⟨p,.start,rfl,rfl⟩)
    overrun := hx.overrun
    tested := by simp [Place.tested] }
  exact keeps_stay rfl hsound id (by simp)

theorem Sound.start (hx : Sound x (some (p,.start)) pend) : Keeps x p .start := by
  by_cases hempty : x.w=x.r
  · exact keeps_leave (by simp [code,hempty]) (hx.leave rfl (absurd (hx.ring.empty_iff.mp hempty)))
      (by simp)
  · have hne : pend≠[] := fun hnil => hempty (hx.ring.empty_iff.mpr hnil)
    exact keeps_stay (b := .lsr) (by simp [code,hempty])
      (hx.send rfl rfl (fun _ => hne) (by simp [Place.tested])) id (by simp)

theorem Sound.lsr (hx : Sound x (some (p,.lsr)) pend) : Keeps x p .lsr := by
  cases hidle : x.idle with
  | true =>
    exact keeps_stay (b := .pop) (by simp [code,hidle])
      (hx.send rfl rfl (fun _ => hx.pops p (.inl rfl)) fun _ _ => hidle) id (by simp)
  | false =>
    exact keeps_leave (by simp [code,hidle]) (hx.leave rfl fun _ => hidle) (by simp)

theorem Sound.pop (hx : Sound x (some (p,.pop)) pend) : Keeps x p .pop := by
  obtain ⟨c,rest,rfl⟩ := List.exists_cons_of_ne_nil (hx.pops p (.inr rfl))
  obtain ⟨hc,hring⟩ := hx.ring.pop
  have hsound : Sound { x with r := (x.r+1)%word } (some (p,.wakeup c)) rest := {
    ring := by simpa [hand] using hring
    pops := by simp
    covered := fun _ => .inr (.inr ⟨p,.wakeup c,rfl,rfl⟩)
    overrun := hx.overrun
    tested := fun hsync _ _ _ _ => hx.tested hsync p .pop rfl rfl }
  simp only [Keeps,code,hc]
  exact ⟨⟨rest,hsound⟩,trivial,fun _ _ _ => id,by simp,fun _ => .inr (.inl ⟨_,rfl,c,rfl⟩)⟩

theorem Sound.wakeup (hx : Sound x (some (p,.wakeup c)) pend) : Keeps x p (.wakeup c) := by
  have hsound : Sound x (some (p,.write c)) pend :=
    hx.send rfl rfl (by simp) fun hsync _ => hx.tested hsync p (.wakeup c) rfl rfl
  exact ⟨⟨pend,hsound⟩,trivial,fun _ _ _ => id,by simp [code],fun _ => .inl rfl⟩

theorem Sound.write (hx : Sound x (some (p,.write c)) pend) : Keeps x p (.write c) := by
  have hring : Ring x (x.sent++[c]++[]) pend := by simpa [hand] using hx.ring
  have hsound : Sound { x.thr with sent := x.sent++[c] } (some (p,.start)) pend := {
    ring := hring.congr rfl rfl rfl rfl
    pops := by simp
    covered := fun _ => .inl rfl
    overrun := fun hsync => by
      simp [Tx.thr,hx.overrun hsync,hx.tested hsync p (.write c) rfl rfl]
    tested := by simp [Place.tested] }
  exact keeps_stay rfl hsound id (by simp)

theorem rule : Rule (code : Code P _ _ _ _ _) allowed (fun x h => ∃ pend, Sound x h pend) Each
    (fun x _ _ => x.isFull) fun a _ => ∃ c, a=.wakeup c where
  call {x p r a} _ hok := by
    cases a with
    | put _ | intr => rfl
    | _ => cases hok
  rouse hk := hk
  acquire := by
    rintro x p a ⟨pend,hx⟩ hk
    exact ⟨⟨pend,hx.wait calm_none (calm_some hk)⟩,trivial⟩
  act {x p a} := by
    rintro ⟨pend,hx⟩
    cases a with
    | put c => exact hx.put
    | full c => exact hx.full
    | intr => exact hx.intr
    | start => exact hx.start
    | lsr => exact hx.lsr
    | pop => exact hx.pop
    | wakeup c => exact hx.wakeup
    | write c => exact hx.write
  env {x e y} hy := by
    cases e with
    | drain =>
      cases hy
      exact ⟨fun _ => .imp fun _ hx => { hx with
        ring := hx.ring.congr rfl rfl rfl rfl
        covered := fun _ => .inr (.inl rfl)
        tested := fun _ _ _ _ _ => rfl },fun _ _ hk => hk,fun _ _ hb => hb⟩
    | sync c =>
      cases hy
      exact ⟨fun _ => .imp fun _ hx => { hx with
        ring := hx.ring.congr rfl rfl rfl rfl
        covered := fun _ => .inl rfl
        overrun := by simp
        tested := by simp },fun _ _ hk => hk,fun _ _ hb => hb⟩
    | panic =>
      cases hy
      exact ⟨fun _ => .imp fun _ hx => { hx with ring := hx.ring.congr rfl rfl rfl rfl },
        fun _ _ hk => hk,fun _ _ hb => hb⟩

/-- **The transmit buffer.** What `uartstart` has written to `THR` is the beginning of what was
stored, and none is written over the one before unless `uartputc_sync` has written. While the lock
is free, the rest is in the buffer and will be sent, and a process sleeps only if it is full. -/
theorem uart_sends_in_order [DecidableEq P] {buf : Nat → UInt8} {ls : List (Label P Place Env)}
    {s : Sys P Tx Place Unit Unit}
    (hok : Along code.step (fun _ s l => Calls allowed s l=true) [] (start (init buf)) ls)
    (hrun : run code.step ls (start (init buf))=some s) :
    s.shared.sent <+: s.shared.stored ∧ (s.shared.synced=false → s.shared.overrun=false) ∧
      (s.holder=none → ∃ pend, s.shared.stored=s.shared.sent++pend ∧
        pend.length ≤ bufSize ∧
        (pend≠[] → s.shared.idle=false ∨ s.shared.raised=true) ∧
        ∀ p c a, s.pc p=.asleep c a → pend.length=bufSize) := by
  have hinit : Sound (init buf) (none : Option (P × Place)) [] :=
    ⟨⟨rfl,rfl,rfl,holds_nil,Nat.zero_le _⟩,by simp,by simp,fun _ => rfl,by simp⟩
  obtain ⟨⟨pend,hx⟩,-,hsleep⟩ := rule.run ⟨[],hinit⟩ (fun _ => trivial) hok hrun
  refine ⟨⟨hand s.holder++pend,?_⟩,hx.overrun,fun hfree => ?_⟩
  · rw [hx.ring.stored,List.append_assoc]
  rw [hfree] at hx
  refine ⟨pend,by simpa [hand] using hx.ring.stored,hx.ring.length,fun hne => ?_,fun p c a hp => ?_⟩
  · simpa using hx.covered hne
  · exact hx.ring.isFull_iff.mp ((hsleep p c a hp).resolve_right (by simp [hfree]))

/-- Process 0 writes two bytes; the first is sent at once, and the second by the handler. -/
def twoBytes : List (Label Nat Place Env) :=
  [.call 0 (.put 104),.acquire 0]++List.replicate 8 .advance ++
    [.call 0 (.put 105),.acquire 0]++List.replicate 4 .advance ++
    [.env .drain,.call 1 .intr,.acquire 1]++List.replicate 7 .advance

def twoBytesEnd : Sys Nat Tx Place Unit Unit :=
  (run code.step twoBytes (start (init fun _ => 0))).get (by decide +kernel)

theorem twoBytes_sent : twoBytesEnd.shared.sent=[104, 105] ∧
    twoBytesEnd.shared.sent <+: twoBytesEnd.shared.stored := by
  have hrun : run code.step twoBytes (start (init fun _ => 0))=some twoBytesEnd :=
    (Option.some_get _).symm
  exact ⟨by decide +kernel,(uart_sends_in_order (by decide +kernel) hrun).1⟩

end Xv6.Uart
