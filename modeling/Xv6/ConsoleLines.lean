import Xv6.Console

/-! What the readers of the console obtain over a whole run: the committed lines in order,
with an end of file for each control-D. -/
namespace Xv6.Console
open Function Xv6.Machine
variable {p target n k : Nat} {q q' bytes : List UInt8} {status : Status} {log : List Entry}

/-- What an entry of the log takes from the queue: its byte, or the control-D for a read of
no bytes. -/
def Entry.takes : Entry → Option UInt8
  | .byte _ c => some c
  | .ret _ _ r _ => if r=some 0 then some ctrlD else none

def stream (log : List Entry) : List UInt8 := log.filterMap Entry.takes

def obtained (log : List Entry) : List UInt8 :=
  log.filterMap fun
    | .byte _ c => some c
    | .ret _ _ _ _ => none

def endsOfFile (log : List Entry) : Nat :=
  log.countP fun
    | .byte _ _ => false
    | .ret _ _ r _ => r=some 0

def received (p : Nat) (log : List Entry) : Nat :=
  log.foldl (fun k x => match x with
    | .byte q _ => if q=p then k+1 else k
    | .ret q _ _ _ => if q=p then 0 else k) 0

theorem stream_append (l l' : List Entry) : stream (l++l')=stream l++stream l' :=
  List.filterMap_append

theorem stream_bytes (p : Nat) (bytes : List UInt8) : stream (bytes.map (.byte p))=bytes := by
  induction bytes with
  | nil => rfl
  | cons c bytes ih => exact congrArg (c :: ·) ih

theorem obtained_eq (h : ∀ p c, Entry.byte p c∈log → c≠ctrlD) :
    obtained log=(stream log).filter (· ≠ ctrlD) ∧ endsOfFile log=(stream log).count ctrlD := by
  induction log with
  | nil => exact ⟨rfl,rfl⟩
  | cons x log ih =>
    obtain ⟨hbytes,hends⟩ := ih fun p c hc => h p c (List.mem_cons_of_mem _ hc)
    unfold obtained endsOfFile stream at *
    cases x with
    | byte p c =>
      have hc := h p c List.mem_cons_self
      simp [Entry.takes,hbytes,hends,hc]
    | ret p target r saved =>
      by_cases hr : r=some 0
      · simp [Entry.takes,hbytes,hends,hr]
      · simp [Entry.takes,hbytes,hends,hr]

theorem received_append (p : Nat) (l : List Entry) (x : Entry) :
    received p (l++[x]) = match x with
      | .byte q _ => if q=p then received p l+1 else received p l
      | .ret q _ _ _ => if q=p then 0 else received p l := by
  rw [received,List.foldl_append]
  rfl

theorem received_bytes (l : List Entry) (q : Nat) (bytes : List UInt8) :
    received p (l++bytes.map (.byte q)) =
      if q=p then received p l+bytes.length else received p l := by
  induction bytes generalizing l with
  | nil => simp
  | cons c bytes ih =>
    have hsplit : l++(c::bytes).map (.byte q)=l++[.byte q c]++bytes.map (.byte q) := by simp
    rw [hsplit,ih,received_append]
    by_cases hq : q=p
    · simp only [if_pos hq,List.length_cons]
      omega
    · simp only [if_neg hq]

inductive Took (target n : Nat) (q : List UInt8) : List UInt8 × List UInt8 × Status → Prop
  /-- the queue is empty -/
  | sleeps {q' bytes : List UInt8} {m : Nat} (hq : q=bytes++q') (hm : 0 < m) (hn : bytes.length+m=n) :
      Took target n q (q', bytes, .waiting m)
  | killed {q' bytes : List UInt8} (hq : q=bytes++q') : Took target n q (q', bytes, .returned none false)
  /-- it has read `target` bytes, or a whole line -/
  | done {q' bytes : List UInt8} {k : Nat} (hq : q=bytes++q') (hk : 0 < k) (hn : k+n=target+bytes.length) :
      Took target n q (q', bytes, .returned (some k) false)
  /-- a control-D stays in the queue -/
  | saves {q' bytes : List UInt8} {k : Nat} (hq : q=bytes++ctrlD :: q') (hk : 0 < k) (hlt : k < target)
      (hn : k+n=target+bytes.length) :
      Took target n q (ctrlD :: q', bytes, .returned (some k) true)
  | endOfFile {q' : List UInt8} (hq : q=ctrlD :: q') (hn : n=target) :
      Took target n q (q', [], .returned (some 0) false)

theorem took_take (target : Nat) (killed : Bool) (hpos : 0 < target) (q : List UInt8)
    (hn : n ≤ target) :
    Took target n q (Editor.take target killed q n) ∧ ctrlD∉(Editor.take target killed q n).2.1 := by
  induction n generalizing q with
  | zero =>
    rw [Editor.take]
    exact ⟨.done rfl hpos rfl,List.not_mem_nil⟩
  | succ n ih =>
    cases q with
    | nil =>
      refine ⟨?_,List.not_mem_nil⟩
      cases killed with
      | true => exact .killed rfl
      | false => exact .sleeps rfl (Nat.succ_pos n) (Nat.zero_add _)
    | cons c q =>
      rw [Editor.take]
      split
      · rename_i hD
        subst hD
        split
        · exact ⟨.saves rfl (by omega) (by omega) (by simp only [List.length_nil]; omega),
            List.not_mem_nil⟩
        · have hzero : target-(n+1)=0 := by omega
          rw [hzero]
          exact ⟨.endOfFile rfl (by omega),List.not_mem_nil⟩
      rename_i hD
      have hfirst : ctrlD∉[c] := by simpa using Ne.symm hD
      split
      · exact ⟨.done rfl (by omega) (by simp only [List.length_singleton]; omega),hfirst⟩
      obtain ⟨hmore,hbytes⟩ := ih q (by omega)
      generalize Editor.take target killed q n=x at hmore hbytes
      have hall : ctrlD∉c::x.2.1 := by
        rw [List.mem_cons,not_or]
        exact ⟨Ne.symm hD,hbytes⟩
      refine ⟨?_,hall⟩
      cases hmore with
      | sleeps hq hm hn => exact .sleeps (congrArg (c :: ·) hq) hm (by simp only [List.length_cons]; omega)
      | killed hq => exact .killed (congrArg (c :: ·) hq)
      | done hq hk hn => exact .done (congrArg (c :: ·) hq) hk (by simp only [List.length_cons]; omega)
      | saves hq hk hlt hn =>
        exact .saves (congrArg (c :: ·) hq) hk hlt (by simp only [List.length_cons]; omega)
      | endOfFile hq hn => omega

/-- What a log says about its readers, where `q` is still to be read: each call returns the number of
bytes it got, and one that has left a control-D to others got less than it asked for. -/
structure Laws (log : List Entry) (q : List UInt8) : Prop where
  bytes : ∀ p c, Entry.byte p c∈log → c≠ctrlD
  count : ∀ (i p target k : Nat) saved, log[i]?=some (.ret p target (some k) saved) →
    k=received p (log.take i)
  saved : ∀ (i p target : Nat) r, log[i]?=some (.ret p target r true) →
    (∃ k, r=some k ∧ 0 < k ∧ k < target) ∧
      (stream (log.drop (i+1))++q).head?=some ctrlD

theorem stream_singleton (x : Entry) : stream [x]=x.takes.toList := by
  rw [stream,List.filterMap_cons]
  cases x.takes <;> rfl

theorem Laws.snoc {x : Entry} (h : Laws log q) (hq : q=x.takes.toList++q')
    (hbyte : ∀ p c, x=.byte p c → c≠ctrlD)
    (hcount : ∀ p target k saved, x=.ret p target (some k) saved → k=received p log)
    (hsaved : ∀ p target r, x=.ret p target r true →
      (∃ k, r=some k ∧ 0 < k ∧ k < target) ∧ q'.head?=some ctrlD) :
    Laws (log++[x]) q' := by
  have hcases : ∀ {i : Nat} {y : Entry}, (log++[x])[i]?=some y →
      (i < log.length ∧ log[i]?=some y) ∨ (i=log.length ∧ x=y) := by
    intro i y hy
    rw [List.getElem?_append] at hy
    split at hy
    · rename_i hi
      exact .inl ⟨hi,hy⟩
    · rename_i hi
      obtain ⟨hlt,hxy⟩ := List.getElem?_eq_some_iff.mp hy
      rw [List.length_singleton] at hlt
      exact .inr ⟨by omega,by simpa using hxy⟩
  refine ⟨fun p c hc => ?_,fun i p target k saved hi => ?_,fun i p target r hi => ?_⟩
  · rcases List.mem_append.mp hc with hc | hc
    · exact h.bytes p c hc
    · exact hbyte p c (List.mem_singleton.mp hc).symm
  · rcases hcases hi with ⟨hlt,hi⟩ | ⟨rfl,rfl⟩
    · rw [List.take_append_of_le_length (Nat.le_of_lt hlt)]
      exact h.count i p target k saved hi
    · rw [List.take_left]
      exact hcount p target k saved rfl
  · rcases hcases hi with ⟨hlt,hi⟩ | ⟨rfl,rfl⟩
    · rw [List.drop_append_of_le_length (by omega),stream_append,stream_singleton,List.append_assoc,
        ← hq]
      exact h.saved i p target r hi
    · obtain ⟨hk,hhead⟩ := hsaved p target r rfl
      refine ⟨hk,?_⟩
      rw [List.drop_eq_nil_of_le (by simp)]
      exact hhead

theorem Laws.append_bytes (p : Nat) (h : Laws log (bytes++q)) (hbytes : ctrlD∉bytes) :
    Laws (log++bytes.map (.byte p)) q := by
  induction bytes generalizing log with
  | nil => simpa using h
  | cons c bytes ih =>
    rw [List.mem_cons,not_or] at hbytes
    have hfirst : Laws (log++[.byte p c]) (bytes++q) :=
      h.snoc rfl (fun _ _ hx => by cases hx; exact Ne.symm hbytes.1) nofun nofun
    have hsplit : log++(c::bytes).map (.byte p)=log++[.byte p c]++bytes.map (.byte p) := by simp
    rw [hsplit]
    exact ih hfirst hbytes.2

theorem Laws.grow (h : Laws log q) (more : List UInt8) : Laws log (q++more) := by
  refine ⟨h.bytes,h.count,fun i p target r hi => ?_⟩
  obtain ⟨hk,hhead⟩ := h.saved i p target r hi
  refine ⟨hk,?_⟩
  rw [← List.append_assoc,List.head?_append,hhead]
  rfl

/-- The readers between two events: the calls that sleep have got what they have been given
since they started. -/
structure Readers.Fine (s : Readers) (q : List UInt8) : Prop where
  laws : Laws s.log q
  waiting : ∀ p target n, s.waiting p=some (target, n) → 0 < n ∧ received p s.log+n=target
  idle : ∀ p, s.waiting p=none → received p s.log=0

theorem Readers.Fine.sleep {s : Readers} (h : s.Fine (bytes++q)) (hbytes : ctrlD∉bytes)
    (hm : 0 < k) (hn : received p s.log+bytes.length+k=target) :
    (s.got p target bytes (.waiting k)).Fine q := by
  refine ⟨h.laws.append_bytes p hbytes,fun p' target' n' hw => ?_,fun p' hw => ?_⟩
  · unfold Readers.got at hw ⊢
    dsimp only at hw ⊢
    rw [received_bytes]
    by_cases hp : p=p'
    · rw [← hp,update_self] at hw
      cases hw
      rw [if_pos hp,← hp]
      exact ⟨hm,hn⟩
    · rw [update_of_ne (Ne.symm hp)] at hw
      rw [if_neg hp]
      exact h.waiting p' target' n' hw
  · unfold Readers.got at hw ⊢
    dsimp only at hw ⊢
    have hp : p≠p' := by
      rintro rfl
      rw [update_self] at hw
      cases hw
    rw [update_of_ne (Ne.symm hp)] at hw
    rw [received_bytes,if_neg hp]
    exact h.idle p' hw

theorem Readers.Fine.finish {s : Readers} {r : Option Nat} {saved : Bool} {q₀ : List UInt8}
    (h : s.Fine q₀) (hlaws : Laws (s.log++bytes.map (.byte p)++[.ret p target r saved]) q) :
    (s.got p target bytes (.returned r saved)).Fine q := by
  have hother : ∀ p', p≠p' →
      received p' (s.log++(bytes.map (.byte p)++[.ret p target r saved]))=received p' s.log := by
    intro p' hp
    rw [← List.append_assoc,received_append,received_bytes]
    simp only [if_neg hp]
  rw [List.append_assoc] at hlaws
  refine ⟨hlaws,fun p' target' n' hw => ?_,fun p' hw => ?_⟩
  · unfold Readers.got at hw ⊢
    dsimp only at hw ⊢
    have hp : p≠p' := by
      rintro rfl
      rw [update_self] at hw
      cases hw
    rw [update_of_ne (Ne.symm hp)] at hw
    rw [hother p' hp]
    exact h.waiting p' target' n' hw
  · unfold Readers.got at hw ⊢
    dsimp only at hw ⊢
    by_cases hp : p=p'
    · rw [← List.append_assoc,received_append]
      simp only [if_pos hp]
    · rw [update_of_ne (Ne.symm hp)] at hw
      rw [hother p' hp]
      exact h.idle p' hw

theorem Readers.Fine.got {s : Readers} (h : s.Fine q) (hn : received p s.log+n=target)
    (htook : Took target n q (q', bytes, status)) (hbytes : ctrlD∉bytes) :
    (s.got p target bytes status).Fine q' := by
  have hlen : received p (s.log++bytes.map (.byte p))=received p s.log+bytes.length := by
    rw [received_bytes,if_pos rfl]
  cases htook with
  | sleeps hq hm hn' =>
    subst hq
    exact h.sleep hbytes hm (by omega)
  | killed hq =>
    subst hq
    exact h.finish ((h.laws.append_bytes p hbytes).snoc rfl nofun nofun nofun)
  | done hq hk hn' =>
    subst hq
    refine h.finish ((h.laws.append_bytes p hbytes).snoc ?_ nofun (fun p' t k' sv hx => ?_) nofun)
    · simp [Entry.takes,Nat.ne_of_gt hk]
    · cases hx
      omega
  | saves hq hk hlt hn' =>
    subst hq
    refine h.finish ((h.laws.append_bytes p hbytes).snoc ?_ nofun (fun p' t k' sv hx => ?_)
      fun p' t r hx => ?_)
    · simp [Entry.takes,Nat.ne_of_gt hk]
    · cases hx
      omega
    · cases hx
      exact ⟨⟨_,rfl,hk,hlt⟩,rfl⟩
  | endOfFile hq hn' =>
    subst hq
    refine h.finish ((h.laws.append_bytes p hbytes).snoc rfl nofun (fun p' t k' sv hx => ?_) nofun)
    cases hx
    rw [hlen,List.length_nil]
    omega

theorem stream_got {s : Readers} (htook : Took target n q (q', bytes, status)) :
    stream (s.got p target bytes status).log++q'=stream s.log++q := by
  cases htook with
  | sleeps hq hm hn => rw [Readers.got,stream_append,stream_bytes,hq,List.append_assoc]
  | killed hq =>
    rw [Readers.got,stream_append,stream_append,stream_bytes,stream_singleton,hq]
    simp [Entry.takes]
  | done hq hk hn =>
    rw [Readers.got,stream_append,stream_append,stream_bytes,stream_singleton,hq]
    simp [Entry.takes,Nat.ne_of_gt hk]
  | saves hq hk hlt hn =>
    rw [Readers.got,stream_append,stream_append,stream_bytes,stream_singleton,hq]
    simp [Entry.takes,Nat.ne_of_gt hk]
  | endOfFile hq hn =>
    rw [Readers.got,stream_append,stream_append,stream_bytes,stream_singleton,hq]
    simp [Entry.takes]

structure Ref.Fine (t : Ref) : Prop where
  readers : t.readers.Fine t.editor.queue
  order : stream t.readers.log++t.editor.queue=t.editor.committed

theorem Ref.Fine.goOn {t : Ref} (h : t.Fine) (hn : received p t.readers.log+n=target)
    (hpos : 0 < target) (killed : Bool) : (t.goOn p target n killed).Fine := by
  obtain ⟨htook,hbytes⟩ := took_take target killed hpos t.editor.queue (n := n) (by omega)
  exact ⟨h.readers.got hn htook hbytes,(stream_got htook).trans h.order⟩

def Editor.Commits (ed ed' : Editor) : Prop :=
  ∃ more, ed'.queue=ed.queue++more ∧ ed'.committed=ed.committed++more

theorem Editor.commits_of_eq {ed ed' : Editor} (hq : ed'.queue=ed.queue)
    (hc : ed'.committed=ed.committed) : ed.Commits ed' := ⟨[],by simpa using hq,by simpa using hc⟩

theorem Editor.append_commits (ed : Editor) (c : UInt8) : ed.Commits (ed.append c) := by
  unfold Editor.append
  split
  · dsimp only
    split
    · exact ⟨_,rfl,rfl⟩
    · exact commits_of_eq rfl rfl
  · exact commits_of_eq rfl rfl

theorem Editor.key_commits (ed : Editor) (c : UInt8) : ed.Commits (ed.key c) := by
  unfold Editor.key
  split
  · exact commits_of_eq rfl rfl
  split
  · exact commits_of_eq rfl rfl
  split
  · exact commits_of_eq rfl rfl
  · exact ed.append_commits _

theorem Ref.Fine.step {t t' : Ref} {ev : Event} (h : t.Fine) (hstep : refStep t ev=some t') :
    t'.Fine := by
  cases ev with
  | key c =>
    cases hstep
    obtain ⟨more,hqueue,hcommitted⟩ := t.editor.key_commits c
    refine ⟨?_,?_⟩
    · rw [hqueue]
      exact ⟨h.readers.laws.grow more,h.readers.waiting,h.readers.idle⟩
    · rw [hqueue,hcommitted,← h.order,List.append_assoc]
  | read p n killed =>
    obtain ⟨hcall,⟨⟩⟩ := Option.ite_none_right_eq_some.mp hstep
    refine h.goOn ?_ hcall.2 killed
    rw [h.readers.idle p hcall.1,Nat.zero_add]
  | resume p killed =>
    obtain ⟨⟨target,n⟩,hx,rfl⟩ := Option.map_eq_some_iff.mp hstep
    obtain ⟨hpos,hn⟩ := h.readers.waiting p target n hx
    exact h.goOn hn (by omega) killed

theorem refStart_fine : refStart.Fine :=
  ⟨⟨⟨nofun,fun i => by simp [refStart],fun i => by simp [refStart]⟩,nofun,fun _ _ => rfl⟩,rfl⟩

/-- After every interleaving of characters and readers: the indices are in order and at most
`INPUT_BUF_SIZE` apart; what is not committed holds no newline and no control-D; and the readers
have taken, in order, what the reference editor has committed, up to its queue. -/
theorem console_lines {buf : Nat → UInt8} {events : List Event} {s : Sys}
    (hrun : run step events (start buf)=some s) :
    ∃ t, run refStep events refStart=some t ∧ t.readers.log=s.readers.log ∧
      sub s.cons.w s.cons.r ≤ sub s.cons.e s.cons.r ∧ sub s.cons.e s.cons.r ≤ inputBufSize ∧
      (∀ i, sub s.cons.w s.cons.r ≤ i → i < sub s.cons.e s.cons.r →
        s.cons.buf ((s.cons.r+i)%2 ^ 32%inputBufSize)≠newline ∧
          s.cons.buf ((s.cons.r+i)%2 ^ 32%inputBufSize)≠ctrlD) ∧
      (∃ taken, t.editor.committed=taken++t.editor.queue ∧ stream s.readers.log=taken ∧
        obtained s.readers.log=taken.filter (· ≠ ctrlD) ∧
        endsOfFile s.readers.log=taken.count ctrlD) ∧
      Laws s.readers.log t.editor.queue := by
  obtain ⟨t,ht,hreaders,R,hat⟩ := agree_run hrun
  have hfine : t.Fine := run_invariant (fun _ _ _ => Ref.Fine.step) refStart_fine ht
  have hlaws := hfine.readers.laws
  rw [← hreaders] at hlaws
  refine ⟨t,ht,by rw [hreaders],?_,?_,fun i hi hi' => ?_,⟨stream s.readers.log,?_,rfl,?_⟩,hlaws⟩
  · rw [hat.committed_r,hat.distance_r,Editor.unread]
    omega
  · rw [hat.distance_r]
    exact hat.few
  · rw [hat.committed_r] at hi
    rw [hat.distance_r] at hi'
    have hslot : (s.cons.r+i)%2^32%inputBufSize=(R+i)%inputBufSize := by
      rw [hat.r,Nat.mod_add_mod,slot_mod]
    rw [hslot]
    exact hat.line_ne_newline (by omega) (by omega)
  · rw [hreaders]
    exact hfine.order.symm
  · exact obtained_eq hlaws.bytes

def typedEvents : List Event :=
  [.read 0 10 false,.key 104,.key 120,.key delete,.key 105,.key ctrlD,.resume 0 false,.read 1 5 false]

theorem typed_lines : ∃ s t, run step typedEvents (start fun _ => 0)=some s ∧
    run refStep typedEvents refStart=some t ∧ t.editor.committed=[104, 105, ctrlD] ∧
      s.readers.log=[.byte 0 104,.byte 0 105,.ret 0 10 (some 2) true,.ret 1 5 (some 0) false] ∧
      obtained s.readers.log=[104, 105] ∧ endsOfFile s.readers.log=1 := by
  obtain ⟨s,hs⟩ := Option.isSome_iff_exists.mp
    (show (run step typedEvents (start fun _ => 0)).isSome from by decide +kernel)
  obtain ⟨t,ht,hlog,-,-,-,⟨taken,hcommitted,-,hobtained,hends⟩,-⟩ := console_lines hs
  have heditor : (run refStep typedEvents refStart).map (fun t => (t.editor, t.readers.log)) =
      some (⟨[104, 105, ctrlD],[],[]⟩,
        [.byte 0 104,.byte 0 105,.ret 0 10 (some 2) true,.ret 1 5 (some 0) false]) := by decide +kernel
  rw [ht] at heditor
  obtain ⟨hed,hread⟩ := Prod.mk.inj (Option.some.inj heditor)
  rw [hed,List.append_nil] at hcommitted
  subst hcommitted
  exact ⟨s,t,hs,ht,by rw [hed],hlog.symm.trans hread,hobtained.trans (by decide),hends.trans (by decide)⟩

end Xv6.Console
