import Mathlib.Algebra.Group.Nat.Defs
import Mathlib.Data.List.Count
import Xv6.Machine
import Xv6.RingIndex

/-! Console input of `kernel/console.c`: `consoleintr` edits the line at the end of a ring,
`consoleread` takes what has been committed. The indices of the ring are `uint`s that count
on through 0. Everything but `sleep` runs under `cons.lock`. -/
namespace Xv6.Console
open Function Xv6.Machine Xv6.RingIndex

def inputBufSize : Nat := 128

def newline : UInt8 := 10

def carriageReturn : UInt8 := 13

def delete : UInt8 := 127

/-- `C(x)`. -/
def ctrl (x : UInt8) : UInt8 := x-64

def ctrlD : UInt8 := ctrl 68

def ctrlH : UInt8 := ctrl 72

def ctrlP : UInt8 := ctrl 80

def ctrlU : UInt8 := ctrl 85

/-- `i + 1`, `i - 1` and `i - j` for `uint`s. -/
def inc (i : Nat) : Nat := (i+1)%2 ^ 32

def dec (i : Nat) : Nat := (i+2 ^ 32-1)%2 ^ 32

def sub (i j : Nat) : Nat := (i+2 ^ 32-j)%2 ^ 32

structure Cons where
  buf : Nat → UInt8
  r : Nat
  w : Nat
  e : Nat

/-- The loop that kills a line, with `k` characters between `w` and `e`. -/
def killLine (s : Cons) : Nat → Cons
  | 0 => s
  | k+1 =>
    if s.buf (dec s.e%inputBufSize)≠newline then killLine { s with e := dec s.e } k else s

def consoleintr (s : Cons) (c : UInt8) : Cons :=
  if c=ctrlP then s
  else if c=ctrlU then killLine s (sub s.e s.w)
  else if c=ctrlH ∨ c=delete then
    if s.e≠s.w then { s with e := dec s.e } else s
  else if c≠0 ∧ sub s.e s.r < inputBufSize then
    let c := if c=carriageReturn then newline else c
    let s := { s with buf := update s.buf (s.e%inputBufSize) c, e := inc s.e }
    if c=newline ∨ c=ctrlD ∨ sub s.e s.r=inputBufSize then { s with w := s.e } else s
  else s

/-- How far a call of `consoleread` has come: it sleeps with `n` bytes still to read, or it
has returned a number of bytes, or -1. -/
inductive Status where
  | waiting (n : Nat)
  /-- `saved` says that a control-D has been put back -/
  | returned (ret : Option Nat) (saved : Bool)
deriving DecidableEq, Repr

/-- The loop of `consoleread` with `n` bytes to read, up to the next `sleep` or to its end:
the bytes that it copies, and how far it has come. `killed` is what `killed(myproc())`
returns if it is called. -/
def readFrom (target : Nat) (killed : Bool) (s : Cons) : Nat → Cons × List UInt8 × Status
  | 0 => (s, [], .returned (some target) false)
  | n+1 =>
    if s.r=s.w then (s, [], if killed then .returned none false else .waiting (n+1))
    else
      let c := s.buf (s.r%inputBufSize)
      let s := { s with r := inc s.r }
      if c=ctrlD then
        if n+1 < target then
          ({ s with r := dec s.r }, [], .returned (some (target-(n+1))) true)
        else (s, [], .returned (some (target-(n+1))) false)
      else if c=newline then (s, [c], .returned (some (target-n)) false)
      else
        let (s, bytes, status) := readFrom target killed s n
        (s, c :: bytes, status)

inductive Entry where
  | byte (p : Nat) (c : UInt8)
  | ret (p target : Nat) (ret : Option Nat) (saved : Bool)
deriving DecidableEq, Repr

/-- The calls of `consoleread` that sleep, with the bytes asked for and those still to read,
and what has happened to the readers. -/
structure Readers where
  waiting : Nat → Option (Nat × Nat)
  log : List Entry

def Readers.got (s : Readers) (p target : Nat) (bytes : List UInt8) : Status → Readers
  | .waiting n => ⟨update s.waiting p (some (target, n)),s.log++bytes.map (.byte p)⟩
  | .returned k saved =>
    ⟨update s.waiting p none,s.log++(bytes.map (.byte p)++[.ret p target k saved])⟩

/-- A character arrives, a process calls `consoleread` for `n` bytes, or a process that
sleeps there goes on. -/
inductive Event where
  | key (c : UInt8)
  | read (p n : Nat) (killed : Bool)
  | resume (p : Nat) (killed : Bool)
deriving DecidableEq, Repr

structure Sys where
  cons : Cons
  readers : Readers

def Sys.goOn (s : Sys) (p target n : Nat) (killed : Bool) : Sys :=
  let (cons, bytes, status) := readFrom target killed s.cons n
  ⟨cons,s.readers.got p target bytes status⟩

def step (s : Sys) : Event → Option Sys
  | .key c => some { s with cons := consoleintr s.cons c }
  | .read p n killed =>
    if s.readers.waiting p=none ∧ 0 < n then some (s.goOn p n n killed) else none
  | .resume p killed => (s.readers.waiting p).map fun x => s.goOn p x.1 x.2 killed

def start (buf : Nat → UInt8) : Sys := ⟨⟨buf,0,0,0⟩,⟨fun _ => none,[]⟩⟩

/-! The reference: an editor of lines, and readers of a queue. -/

/-- What has been committed so far, what of it is still to read, and the line that is being
edited. -/
structure Editor where
  committed : List UInt8
  queue : List UInt8
  line : List UInt8
deriving DecidableEq, Repr

namespace Editor

def commit (ed : Editor) : Editor := ⟨ed.committed++ed.line,ed.queue++ed.line,[]⟩

def unread (ed : Editor) : Nat := ed.queue.length+ed.line.length

/-- An ordinary character, which is dropped if too much is unread. -/
def append (ed : Editor) (c : UInt8) : Editor :=
  if ed.unread < inputBufSize then
    let ed := { ed with line := ed.line++[c] }
    if c=newline ∨ c=ctrlD ∨ ed.unread=inputBufSize then ed.commit else ed
  else ed

def key (ed : Editor) (c : UInt8) : Editor :=
  if c=0 ∨ c=ctrlP then ed
  else if c=ctrlU then { ed with line := [] }
  else if c=ctrlH ∨ c=delete then { ed with line := ed.line.dropLast }
  else ed.append (if c=carriageReturn then newline else c)

/-- A reader of `n` bytes takes from the queue: what is left, what it gets and how far it
comes. It stops after a newline and at a control-D, which it takes if it has got nothing. -/
def take (target : Nat) (killed : Bool) : List UInt8 → Nat → List UInt8 × List UInt8 × Status
  | q, 0 => (q, [], .returned (some target) false)
  | [], n+1 => ([], [], if killed then .returned none false else .waiting (n+1))
  | c :: q, n+1 =>
    if c=ctrlD then
      if n+1 < target then (c :: q, [], .returned (some (target-(n+1))) true)
      else (q, [], .returned (some (target-(n+1))) false)
    else if c=newline then (q, [c], .returned (some (target-n)) false)
    else
      let (q, bytes, status) := take target killed q n
      (q, c :: bytes, status)

end Editor

structure Ref where
  editor : Editor
  readers : Readers

def Ref.goOn (s : Ref) (p target n : Nat) (killed : Bool) : Ref :=
  let (q, bytes, status) := Editor.take target killed s.editor.queue n
  ⟨{ s.editor with queue := q },s.readers.got p target bytes status⟩

def refStep (s : Ref) : Event → Option Ref
  | .key c => some { s with editor := s.editor.key c }
  | .read p n killed =>
    if s.readers.waiting p=none ∧ 0 < n then some (s.goOn p n n killed) else none
  | .resume p killed => (s.readers.waiting p).map fun x => s.goOn p x.1 x.2 killed

def refStart : Ref := ⟨⟨[],[],[]⟩,⟨fun _ => none,[]⟩⟩

section Refinement
variable {s : Cons} {ed : Editor} {R : Nat}

structure Ring (s : Cons) (ed : Editor) (R : Nat) : Prop where
  r : s.r=R%2 ^ 32
  w : s.w=(R+ed.queue.length)%2 ^ 32
  e : s.e=(R+ed.unread)%2 ^ 32
  holds : Holds s.buf inputBufSize R (ed.queue++ed.line)
  few : ed.unread ≤ inputBufSize

structure At (s : Cons) (ed : Editor) (R : Nat) : Prop extends Ring s ed R where
  line : ∀ c∈ed.line, c≠newline ∧ c≠ctrlD

theorem dec_mod {i : Nat} (hi : 0 < i) : dec (i%2^32)=(i-1)%2^32 := by
  unfold dec
  omega

theorem inc_mod (i : Nat) : inc (i%2^32)=(i+1)%2^32 := by
  unfold inc
  omega

theorem sub_mod {i d : Nat} (hd : d<2^32) : sub ((i+d)%2^32) (i%2^32)=d := counter_sub hd

theorem slot_mod (i : Nat) : i%2^32%inputBufSize=i%inputBufSize := Nat.mod_mod_of_dvd i (by decide)

theorem killLine_eq {E k : Nat} (hE : s.e=E%2^32) (hk : k ≤ E)
    (hline : ∀ i, E-k ≤ i → i < E → s.buf (i%inputBufSize)≠newline) :
    killLine s k = { s with e := (E-k)%2^32 } := by
  induction k generalizing s E with
  | zero => rw [killLine,Nat.sub_zero,← hE]
  | succ k ih =>
    have hdec : dec s.e=(E-1)%2^32 := by rw [hE,dec_mod (by omega)]
    rw [killLine,hdec,slot_mod,if_pos (hline (E-1) (by omega) (by omega))]
    rw [ih (s := { s with e := (E-1)%2^32 }) (E := E-1) rfl (by omega)
      fun i hi hi' => hline i (by omega) (by omega)]
    rw [Nat.sub_sub,Nat.add_comm 1 k]

theorem At.line_ne_newline (h : At s ed R) {i : Nat} (hi : R+ed.queue.length ≤ i)
    (hi' : i < R+ed.unread) :
    s.buf (i%inputBufSize)≠newline ∧ s.buf (i%inputBufSize)≠ctrlD := by
  unfold Editor.unread at hi'
  obtain ⟨j,rfl⟩ := Nat.exists_eq_add_of_le hi
  have hj : j < ed.line.length := by omega
  have hget : (ed.queue++ed.line)[ed.queue.length+j]?=some ed.line[j] := by
    rw [List.getElem?_append_right (by omega),Nat.add_sub_cancel_left,List.getElem?_eq_getElem hj]
  have hslot := h.holds _ _ hget
  rw [← Nat.add_assoc] at hslot
  rw [hslot]
  exact h.line _ (List.getElem_mem hj)

theorem Ring.distance_w (h : Ring s ed R) : sub s.e s.w=ed.line.length := by
  have hfew := h.few
  unfold Editor.unread inputBufSize at hfew
  rw [h.e,h.w,Editor.unread,← Nat.add_assoc]
  exact sub_mod (by omega)

theorem Ring.distance_r (h : Ring s ed R) : sub s.e s.r=ed.unread := by
  have hfew := h.few
  unfold inputBufSize at hfew
  rw [h.e,h.r]
  exact sub_mod (by omega)

theorem Ring.committed_r (h : Ring s ed R) : sub s.w s.r=ed.queue.length := by
  have hfew := h.few
  unfold Editor.unread inputBufSize at hfew
  rw [h.w,h.r]
  exact sub_mod (by omega)

theorem At.shorten (h : At s ed R) {line : List UInt8} (hpre : line <+: ed.line) :
    At { s with e := (R+(ed.queue.length+line.length))%2^32 } { ed with line := line } R := by
  obtain ⟨tail,htail⟩ := hpre
  have hlen : ed.line.length=line.length+tail.length := by rw [← htail,List.length_append]
  refine ⟨⟨h.r,h.w,rfl,fun i y hy => h.holds i y ?_,?_⟩,fun c hc => h.line c ?_⟩
  · rw [← htail,← List.append_assoc,List.getElem?_append_left]
    · exact hy
    · exact (List.getElem?_eq_some_iff.mp hy).1
  · have hfew := h.few
    simp only [Editor.unread] at *
    omega
  · rw [← htail]
    exact List.mem_append_left _ hc

theorem Ring.store (h : Ring s ed R) (hroom : ed.unread < inputBufSize) (c : UInt8) :
    Ring { s with buf := update s.buf (s.e%inputBufSize) c, e := inc s.e }
      { ed with line := ed.line++[c] } R := by
  have hlen : (ed.queue++ed.line).length=ed.unread := List.length_append
  have hslot : s.e%inputBufSize=(R+(ed.queue++ed.line).length)%inputBufSize := by
    rw [h.e,slot_mod,hlen]
  have hmore : Editor.unread { ed with line := ed.line++[c] } = ed.unread+1 := by
    simp only [Editor.unread,List.length_append,List.length_singleton]
    omega
  refine ⟨h.r,h.w,?_,?_,by rw [hmore]; omega⟩
  · rw [hmore,h.e,inc_mod,Nat.add_assoc]
  · rw [← List.append_assoc,hslot]
    exact (h.holds.write (by omega) c).push (update_self ..)

theorem Ring.commit (h : Ring s ed R) : At { s with w := s.e } ed.commit R := by
  have hunread : ed.commit.unread=ed.unread := by
    simp [Editor.unread,Editor.commit]
  have hqueue : ed.commit.queue.length=ed.unread := List.length_append
  refine ⟨⟨h.r,by rw [hqueue]; exact h.e,by rw [hunread]; exact h.e,?_,by rw [hunread]; exact h.few⟩,
    fun c hc => by cases hc⟩
  have hsame : ed.commit.queue++ed.commit.line=ed.queue++ed.line := List.append_nil _
  rw [hsame]
  exact h.holds

theorem Ring.empty_iff (h : Ring s ed R) : s.e=s.w ↔ ed.line=[] := by
  have hfew := h.few
  unfold Editor.unread inputBufSize at hfew
  rw [h.e,h.w,Editor.unread,← Nat.add_assoc,eq_comm,counter_eq_iff (by omega),List.length_eq_zero_iff]

theorem At.erase (h : At s ed R) :
    At (if s.e≠s.w then { s with e := dec s.e } else s) { ed with line := ed.line.dropLast } R := by
  by_cases hnil : ed.line=[]
  · rw [if_neg (not_not.mpr (h.empty_iff.mpr hnil)),hnil,List.dropLast_nil,← hnil]
    exact h
  · have hpos := List.length_pos_iff.mpr hnil
    have hback : dec s.e=(R+(ed.queue.length+ed.line.dropLast.length))%2^32 := by
      rw [h.e,dec_mod (by unfold Editor.unread; omega),List.length_dropLast,Editor.unread]
      congr 1
      omega
    rw [if_pos (fun he => hnil (h.empty_iff.mp he)),hback]
    exact h.shorten (List.dropLast_prefix _)

theorem At.append (h : At s ed R) (c : UInt8) :
    At (if sub s.e s.r < inputBufSize then
        let s := { s with buf := update s.buf (s.e%inputBufSize) c, e := inc s.e }
        if c=newline ∨ c=ctrlD ∨ sub s.e s.r=inputBufSize then { s with w := s.e } else s
      else s) (ed.append c) R := by
  rw [h.distance_r,Editor.append]
  by_cases hroom : ed.unread < inputBufSize
  · rw [if_pos hroom,if_pos hroom]
    have hstore := h.toRing.store hroom c
    dsimp only
    rw [hstore.distance_r]
    split
    · exact hstore.commit
    · rename_i hmore
      rw [not_or,not_or] at hmore
      refine ⟨hstore,fun x hx => ?_⟩
      rcases List.mem_append.mp hx with hx | hx
      · exact h.line x hx
      · rw [List.mem_singleton.mp hx]
        exact ⟨hmore.1,hmore.2.1⟩
  · rw [if_neg hroom,if_neg hroom]
    exact h

theorem At.consoleintr (h : At s ed R) (c : UInt8) : At (consoleintr s c) (ed.key c) R := by
  unfold Console.consoleintr Editor.key
  by_cases hP : c=ctrlP
  · rw [if_pos hP,if_pos (.inr hP)]
    exact h
  rw [if_neg hP]
  by_cases hU : c=ctrlU
  · have hkill := killLine_eq (k := ed.line.length) h.e (by unfold Editor.unread; omega)
      fun i hi hi' => (h.line_ne_newline (by unfold Editor.unread at hi; omega) hi').1
    have hback : R+ed.unread-ed.line.length=R+(ed.queue.length+([] : List UInt8).length) := by
      simp only [Editor.unread,List.length_nil]
      omega
    rw [if_pos hU,if_neg (by subst hU; decide),if_pos hU,h.distance_w,hkill,hback]
    exact h.shorten (List.nil_prefix)
  rw [if_neg hU]
  by_cases hH : c=ctrlH ∨ c=delete
  · have hne : ¬ (c=0 ∨ c=ctrlP) := by rcases hH with rfl | rfl <;> decide
    rw [if_pos hH,if_neg hne,if_neg hU,if_pos hH]
    exact h.erase
  rw [if_neg hH]
  by_cases hz : c=0
  · rw [if_neg (fun hc => hc.1 hz),if_pos (.inl hz)]
    exact h
  rw [if_neg (not_or.mpr ⟨hz,hP⟩),if_neg hU,if_neg hH]
  simp only [ne_eq,hz,not_false_eq_true,true_and]
  exact h.append _

theorem Ring.drained_iff (h : Ring s ed R) : s.r=s.w ↔ ed.queue=[] := by
  have hfew := h.few
  unfold Editor.unread inputBufSize at hfew
  rw [h.r,h.w,counter_eq_iff (by omega),List.length_eq_zero_iff]

theorem At.advance {c : UInt8} {committed q line : List UInt8} (h : At s ⟨committed,c::q,line⟩ R) :
    s.buf (s.r%inputBufSize)=c ∧ At { s with r := inc s.r } ⟨committed,q,line⟩ (R+1) := by
  have hhead : s.buf (R%inputBufSize)=c := h.holds.head
  have hmore : Editor.unread ⟨committed,c::q,line⟩=Editor.unread ⟨committed,q,line⟩+1 := by
    simp only [Editor.unread,List.length_cons]
    omega
  have hfew := h.few
  refine ⟨by rw [h.r,slot_mod,hhead],⟨by rw [h.r,inc_mod],?_,?_,h.holds.tail,by omega⟩,h.line⟩
  · have hw := h.w
    rwa [List.length_cons,Nat.add_comm q.length 1,← Nat.add_assoc] at hw
  · have he := h.e
    rwa [hmore,Nat.add_comm _ 1,← Nat.add_assoc] at he

theorem At.readFrom (h : At s ed R) (target : Nat) (killed : Bool) (n : Nat) :
    (readFrom target killed s n).2=(Editor.take target killed ed.queue n).2 ∧ ∃ R',
      At (readFrom target killed s n).1 { ed with queue := (Editor.take target killed ed.queue n).1 } R' := by
  induction n generalizing s ed R with
  | zero =>
    rw [Console.readFrom,Editor.take]
    exact ⟨rfl,R,h⟩
  | succ n ih =>
    obtain ⟨committed,queue,line⟩ := ed
    cases queue with
    | nil =>
      rw [Console.readFrom,if_pos (h.drained_iff.mpr rfl)]
      exact ⟨rfl,R,h⟩
    | cons c q =>
      have hne : s.r≠s.w := fun hrw => List.cons_ne_nil c q (h.drained_iff.mp hrw)
      obtain ⟨hc,hnext⟩ := h.advance
      have hback : dec (inc s.r)=s.r := by
        rw [h.r,inc_mod,dec_mod (by omega : 0 < R+1),Nat.add_sub_cancel]
      rw [Console.readFrom,if_neg hne]
      dsimp only
      rw [hc,Editor.take,hback]
      by_cases hD : c=ctrlD
      · rw [if_pos hD,if_pos hD]
        split
        · exact ⟨rfl,R,h⟩
        · exact ⟨rfl,R+1,hnext⟩
      rw [if_neg hD,if_neg hD]
      by_cases hline : c=newline
      · rw [if_pos hline,if_pos hline]
        exact ⟨rfl,R+1,hnext⟩
      rw [if_neg hline,if_neg hline]
      obtain ⟨hsame,R',hat⟩ := ih hnext
      exact ⟨congrArg (fun x => (c::x.1, x.2)) hsame,R',hat⟩

def Agree (s : Sys) (t : Ref) : Prop := s.readers=t.readers ∧ ∃ R, At s.cons t.editor R

theorem agree_goOn {s : Sys} {t : Ref} (h : Agree s t) (p target n : Nat) (killed : Bool) :
    Agree (s.goOn p target n killed) (t.goOn p target n killed) := by
  obtain ⟨hreaders,R,hat⟩ := h
  obtain ⟨hsame,hnext⟩ := hat.readFrom target killed n
  refine ⟨?_,hnext⟩
  change s.readers.got p target _ _ = _
  rw [hreaders]
  exact congrArg (fun x => t.readers.got p target x.1 x.2) hsame

theorem agree_step {s s' : Sys} {t : Ref} {ev : Event} (h : Agree s t) (hstep : step s ev=some s') :
    ∃ t', refStep t ev=some t' ∧ Agree s' t' := by
  cases ev with
  | key c =>
    cases hstep
    obtain ⟨R,hat⟩ := h.2
    exact ⟨_,rfl,h.1,R,hat.consoleintr c⟩
  | read p n killed =>
    obtain ⟨hcall,⟨⟩⟩ := Option.ite_none_right_eq_some.mp hstep
    rw [h.1] at hcall
    exact ⟨t.goOn p n n killed,if_pos hcall,agree_goOn h p n n killed⟩
  | resume p killed =>
    obtain ⟨x,hx,rfl⟩ := Option.map_eq_some_iff.mp hstep
    rw [h.1] at hx
    exact ⟨t.goOn p x.1 x.2 killed,Option.map_eq_some_iff.mpr ⟨x,hx,rfl⟩,
      agree_goOn h p x.1 x.2 killed⟩

theorem agree_start (buf : Nat → UInt8) : Agree (start buf) refStart :=
  ⟨rfl,0,⟨rfl,rfl,rfl,holds_nil,Nat.zero_le _⟩,fun _ hc => by cases hc⟩

theorem agree_run {buf : Nat → UInt8} {events : List Event} {s : Sys}
    (hrun : run step events (start buf)=some s) :
    ∃ t, run refStep events refStart=some t ∧ Agree s t :=
  run_simulation (fun _ _ _ _ => agree_step) (agree_start buf) hrun

end Refinement

end Xv6.Console
