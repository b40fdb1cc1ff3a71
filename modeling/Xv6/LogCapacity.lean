import Xv6.GroupCommit
import Mathlib.Algebra.BigOperators.Ring.Finset
import Mathlib.Algebra.Order.Ring.Int

/-! The reservation of `begin_op` against the capacity of the log: `begin_op` counts up to `LOGSIZE`
blocks, but the log that `mkfs` lays out has the header among them. -/
namespace Xv6.Log
open Function Xv6.Machine Xv6.BufferCache
variable {P : Type*} [DecidableEq P]

/-- The blocks passed to `log_write`: by each process in its operation, and by all
of them since an `end_op` last left no operation under way. -/
structure Written (P : Type*) where
  byOp : P → Finset Nat
  inTrans : Finset Nat

namespace Written

def turn (w : Written P) (s : Sys P) (p : P) : Pc → Written P
  | .logWrite b =>
      ⟨update w.byOp p (insert (s.bio.blockno b) (w.byOp p)),insert (s.bio.blockno b) w.inTrans⟩
  | .endOp => ⟨update w.byOp p ∅,if s.outstanding=1 then ∅ else w.inTrans⟩
  | .fs | .beginOp | .asleep | .log _ => w

def after (w : Written P) (s : Sys P) : Label P → Written P
  | .run p => if s.bio.call p=.idle then w.turn s p (s.pc p) else w
  | .request _ _ => w
  | .crash => ⟨fun _ => ∅,∅⟩

end Written

def tallied (M : Mount P) (x : Sys P × Written P) (l : Label P) : Option (Sys P × Written P) :=
  (step M x.1 l).map fun t => (t,x.2.after x.1 l)

def tallyBoot (M : Mount P) (disk : Nat → Data) : Sys P × Written P :=
  (boot M disk,⟨fun _ => ∅,∅⟩)

/-- Operations that each pass at most `n` distinct blocks to `log_write`. -/
def Within (n : Nat) (x : Sys P × Written P) (l : Label P) : Prop :=
  Nested x.1 l ∧ ∀ p, ((x.2.after x.1 l).byOp p).card ≤ n

instance [Fintype P] (n : Nat) (x : Sys P × Written P) (l : Label P) : Decidable (Within n x l) :=
  inferInstanceAs (Decidable (Nested x.1 l ∧ ∀ p, ((x.2.after x.1 l).byOp p).card ≤ n))

/-- A call of `log_write` comes before the transaction has all but one of the
`LOGSIZE` blocks. -/
def Room (x : Sys P × Written P) : Label P → Prop
  | .run p => ∀ b, x.1.pc p=.logWrite b → x.1.bio.call p=.idle → x.2.inTrans.card+1 < logSize
  | .request _ _ | .crash => True

variable {M : Mount P} {s t : Sys P} {w v : Written P} {p : P} {l : Label P} {n : Nat}

theorem step_calm (hl : l≠.crash) (hs : Log.step M s l=some t) : s.panicked=none := by
  cases l with
  | crash => exact absurd rfl hl
  | request p r | run p =>
    simp only [Log.step] at hs
    split at hs
    next h => simp_all
    next => cases hs

def absorb (lh : List Nat) (x : Nat) : List Nat := if x∈lh then lh else lh++[x]

theorem absorb_toFinset (lh : List Nat) (x : Nat) :
    (absorb lh x).toFinset=insert x lh.toFinset := by
  unfold absorb
  split
  · ext y
    simp_all
  · ext y
    simp

theorem absorb_length (lh : List Nat) (x : Nat) :
    (absorb lh x).length = if x∈lh then lh.length else lh.length+1 := by
  unfold absorb
  split <;> simp

def Full (M : Mount P) (s : Sys P) : Prop :=
  logSize ≤ s.lh.length ∨ (M.size : Int)-1 ≤ s.lh.length

theorem logWrite_full (h : Full M s) (b : Buf) : s.logWrite M p b=s.panic .tooBigATransaction := by
  unfold Sys.logWrite
  exact if_pos h

theorem logWrite_room (h : ¬ Full M s) (hout : 0 < s.outstanding) (b : Buf) :
    ∃ bio logged, s.logWrite M p b =
      { s with bio := bio, logged := logged, lh := absorb s.lh (s.bio.blockno b) }.goto p .fs := by
  unfold Full at h
  unfold Sys.logWrite absorb
  rw [if_neg h,if_neg (by omega)]
  dsimp only
  split
  · exact ⟨s.bio,_,rfl⟩
  · exact ⟨_,_,rfl⟩

theorem beginOp_log (s : Sys P) (p : P) : (s.beginOp p).up=s.up ∧
    (s.beginOp p).committing=s.committing ∧ (s.beginOp p).lh=s.lh := by
  unfold Sys.beginOp
  split_ifs <;> exact ⟨rfl,rfl,rfl⟩

theorem Change.not_tooBig (h : Change M s l t) (hs : s.panicked≠some .tooBigATransaction)
    (hl : ∀ p b, l=.run p → s.bio.call p=.idle → s.pc p≠.logWrite b) :
    t.panicked≠some .tooBigATransaction := by
  cases h with
  | request p r => cases r <;> exact hs
  | cache | log | initialised | committed => exact hs
  | panic p m hp hm => obtain rfl | rfl | rfl := hm <;> simp [Sys.panic]
  | beginOp p =>
    unfold Sys.beginOp
    split_ifs <;> exact hs
  | logWrite p b hpc hi => exact absurd hpc (hl p b rfl hi)
  | endOp p =>
    simp only [Sys.endOp]
    split_ifs
    · simp [Sys.panic]
    · exact hs
    · exact hs
  | crash => simp [boot]

section Account
variable [Fintype P]

/-- While the log takes blocks it holds what the transaction has passed to it, and
a process outside an operation has passed nothing. -/
structure Account (M : Mount P) (s : Sys P) (w : Written P) : Prop where
  group : Group M s
  trans : s.panicked=none →
    w.inTrans = if s.up && !s.committing then s.lh.toFinset else ∅
  byOp : s.panicked=none → ∀ p, w.byOp p ⊆ if s.op p then w.inTrans else ∅

def unused (n : Nat) (op : P → Bool) (byOp : P → Finset Nat) : Nat :=
  ∑ p, if op p then n-(byOp p).card else 0

structure Reserved (n : Nat) (M : Mount P) (s : Sys P) (w : Written P) : Prop where
  account : Account M s w
  within : ∀ p, (w.byOp p).card ≤ n
  room : s.panicked=none → s.up=true → s.committing=false →
    s.lh.length+unused n s.op w.byOp+2 ≤ logSize

section
omit [DecidableEq P]

theorem Account.length (h : Account M s w) (hs : s.panicked=none) (hop : s.op p=true) :
    s.lh.length=w.inTrans.card := by
  obtain ⟨hup,hcom⟩ := h.group.of_op hop
  have htrans : w.inTrans=s.lh.toFinset := by simpa [hup,hcom] using h.trans hs
  have hnodup : s.lh.Nodup := by
    cases h.group.mode with
    | recovering _ _ _ _ hdown => cases hup.symm.trans hdown
    | committing _ _ _ _ _ _ _ _ _ hnodup | accepting _ _ _ _ hnodup => exact hnodup
  rw [htrans,List.toFinset_card_of_nodup hnodup]

theorem Account.full_iff (h : Account M s w) (hM : M.size=logSize) (hs : s.panicked=none)
    (hop : s.op p=true) : Full M s ↔ ¬ w.inTrans.card+1 < logSize := by
  rw [← h.length hs hop,Full,hM]
  omega

theorem unused_le (n : Nat) (op : P → Bool) (byOp : P → Finset Nat) :
    (unused n op byOp : Int) ≤ openOps op*n := by
  unfold unused openOps
  rw [Finset.sum_mul]
  push_cast
  refine Finset.sum_le_sum fun p _ => ?_
  split
  · omega
  · simp

theorem unused_frame (n : Nat) (op op' : P → Bool) (byOp byOp' : P → Finset Nat)
    (hop : ∀ q, q≠p → op' q=op q) (hby : ∀ q, q≠p → byOp' q=byOp q) :
    unused n op' byOp'+(if op p then n-(byOp p).card else 0) =
      unused n op byOp + if op' p then n-(byOp' p).card else 0 :=
  sum_frame (f := fun q => if op q then n-(byOp q).card else 0)
    (g := fun q => if op' q then n-(byOp' q).card else 0)
    fun q hq => by rw [hop q hq,hby q hq]

theorem unused_eq_zero (n : Nat) {op : P → Bool} (byOp : P → Finset Nat) (h : ∀ p, op p=false) :
    unused n op byOp=0 := by
  simp [unused,h]

theorem Reserved.room_of_step {x : Sys P × Written P} (h : Reserved n M x.1 x.2)
    (hx : x.1.panicked=none) (l : Label P) : Room x l := by
  cases l with
  | request p r | crash => trivial
  | run p =>
    intro b hpc hi
    have hop : x.1.op p=true := by simpa [hpc,Pc.Nests] using h.account.group.nests p
    obtain ⟨hup,hcom⟩ := h.account.group.of_op hop
    have hroom := h.room hx hup hcom
    have hlen := h.account.length hx hop
    omega

end

theorem boot_account (M : Mount P) (disk : Nat → Data) :
    Account M (boot M disk) ⟨fun _ => ∅,∅⟩ where
  group := boot_group M disk
  trans := by simp [boot]
  byOp := by simp

theorem Account.logWrite (h : Account M s w) (hs : s.panicked=none) {b : Buf}
    (hpc : s.pc p=.logWrite b) : Account M (s.logWrite M p b) (w.turn s p (.logWrite b)) := by
  have hop : s.op p=true := by simpa [hpc,Pc.Nests] using h.group.nests p
  have hgroup := h.group.logWrite hpc
  by_cases hfull : Full M s
  · rw [logWrite_full hfull] at hgroup ⊢
    exact ⟨hgroup,by simp [Sys.panic],by simp [Sys.panic]⟩
  obtain ⟨bio,logged,heq⟩ := logWrite_room (p := p) hfull (h.group.outstanding_pos hop) b
  obtain ⟨hup,hcom⟩ := h.group.of_op hop
  have htrans : w.inTrans=s.lh.toFinset := by simpa [hup,hcom] using h.trans hs
  rw [heq] at hgroup ⊢
  refine ⟨hgroup,fun _ => ?_,fun _ q => ?_⟩
  · simp [Written.turn,Sys.goto,hup,hcom,htrans,absorb_toFinset]
  · have hq := h.byOp hs q
    simp only [Written.turn,Sys.goto]
    by_cases hqp : q=p
    · subst hqp
      simpa [hop] using Finset.insert_subset_insert _ hq
    · rw [update_of_ne hqp]
      refine hq.trans ?_
      by_cases hopq : s.op q=true
      · simp [hopq,Finset.subset_insert]
      · simp [hopq]

theorem Account.endOp (h : Account M s w) (hs : s.panicked=none) (hpc : s.pc p=.endOp) :
    Account M (s.endOp p) (w.turn s p .endOp) := by
  have hop : s.op p=true := by simpa [hpc,Pc.Nests] using h.group.nests p
  have hgroup := h.group.endOp hpc
  obtain ⟨hup,hcom⟩ := h.group.of_op hop
  have htrans : w.inTrans=s.lh.toFinset := by simpa [hup,hcom] using h.trans hs
  have hsum := openOps_update s.op (p := p) (v := false) hop
  by_cases hone : s.outstanding=1
  · have hnone (q : P) : update s.op p false q=false := by
      refine openOps_eq_zero (h := ?_) q
      rw [hsum,← h.group.outstanding,hone]
      rfl
    have heq : s.endOp p=({ s with
        outstanding := s.outstanding-1
        op := update s.op p false
        committing := true } : Sys P).goto p (.log .commit) := by
      simp [Sys.endOp,hcom,hone]
    rw [heq] at hgroup ⊢
    refine ⟨hgroup,fun _ => by simp [Written.turn,Sys.goto,hone],fun _ q => ?_⟩
    simp only [Written.turn,Sys.goto,hnone q,hone,if_true,Bool.false_eq_true,if_false]
    by_cases hqp : q=p
    · simp [hqp]
    · have hq := h.byOp hs q
      have hopq : s.op q=false := by simpa [hqp] using hnone q
      simpa [hqp,hopq] using hq
  · have heq : s.endOp p=({ s with
        outstanding := s.outstanding-1
        op := update s.op p false } : Sys P).wakeup.goto p .fs := by
      have hne : s.outstanding-1≠0 := by omega
      simp [Sys.endOp,hcom,hne]
    rw [heq] at hgroup ⊢
    refine ⟨hgroup,fun _ => ?_,fun _ q => ?_⟩
    · simp [Written.turn,Sys.goto,Sys.wakeup,hone,hup,hcom,htrans]
    · simp only [Written.turn,Sys.goto,Sys.wakeup,hone,if_false]
      by_cases hqp : q=p
      · simp [hqp]
      · simpa [hqp] using h.byOp hs q

theorem Account.step (h : Account M s w) (hok : Nested s l) (hs : Log.step M s l=some t) :
    Account M t (w.after s l) := by
  have hgroup := h.group.step hok hs
  cases step_change hs with
  | crash => exact boot_account M s.bio.disk
  | request p r hup hfs =>
    have hcalm := step_calm (by simp) hs
    refine ⟨hgroup,fun _ => ?_,fun _ => ?_⟩
    · cases r <;> exact h.trans hcalm
    · cases r <;> exact h.byOp hcalm
  | cache p bio hi =>
    simp only [Written.after,if_neg hi]
    exact ⟨hgroup,h.trans,h.byOp⟩
  | panic p m => exact ⟨hgroup,by simp [Sys.panic],by simp [Sys.panic]⟩
  | beginOp p hpc hi =>
    have hcalm := step_calm (by simp) hs
    simp only [Written.after,hi,hpc,if_true,Written.turn]
    refine ⟨hgroup,fun _ => ?_,fun _ q => ?_⟩
    · obtain ⟨hup,hcom,hlh⟩ := beginOp_log s p
      rw [hup,hcom,hlh]
      exact h.trans hcalm
    · refine (h.byOp hcalm q).trans ?_
      unfold Sys.beginOp
      split_ifs <;> simp_all [Sys.goto,update_apply]
  | logWrite p b hpc hi =>
    simp only [Written.after,hi,hpc,if_true]
    exact h.logWrite (step_calm (by simp) hs) hpc
  | endOp p hpc hi =>
    simp only [Written.after,hi,hpc,if_true]
    exact h.endOp (step_calm (by simp) hs) hpc
  | log p k k' bio lh hpc =>
    have hcalm := step_calm (by simp) hs
    have hoff := (h.group.of_log hpc).1
    have hw : w.after s (.run p)=w := by simp [Written.after,hpc,Written.turn]
    have htrans := h.trans hcalm
    rw [hw]
    exact ⟨hgroup,fun _ => by simpa [Sys.goto,hoff] using htrans,fun _ => h.byOp hcalm⟩
  | initialised p hpc | committed p hpc =>
    have hcalm := step_calm (by simp) hs
    obtain ⟨hoff,hnil⟩ := h.group.of_log hpc
    have hw : w.after s (.run p)=w := by simp [Written.after,hpc,Written.turn]
    have htrans := h.trans hcalm
    rw [hw]
    refine ⟨hgroup,fun _ => ?_,fun _ => h.byOp hcalm⟩
    simpa [Sys.goto,Sys.wakeup,hnil rfl] using htrans

theorem Account.room_iff (h : Account M s w) (hM : M.size=logSize)
    (hs : s.panicked≠some .tooBigATransaction) (hst : Log.step M s l=some t) :
    t.panicked≠some .tooBigATransaction ↔ Room (s,w) l := by
  by_cases hlw : ∃ p b, l=.run p ∧ s.bio.call p=.idle ∧ s.pc p=.logWrite b
  · obtain ⟨p,b,rfl,hi,hpc⟩ := hlw
    have hcalm := step_calm (by simp) hst
    have hop : s.op p=true := by simpa [hpc,Pc.Nests] using h.group.nests p
    have hfull := h.full_iff hM hcalm hop
    have ht : t=s.logWrite M p b := by
      simpa [Log.step,hcalm,Sys.run,hi,hpc] using hst.symm
    have hroom : Room (s,w) (.run p) ↔ w.inTrans.card+1 < logSize := by
      simp [Room,hpc,hi]
    rw [ht,hroom]
    by_cases hf : Full M s
    · simp [logWrite_full hf,Sys.panic,hfull.mp hf]
    · obtain ⟨bio,logged,heq⟩ := logWrite_room (p := p) hf (h.group.outstanding_pos hop) b
      rw [heq]
      simpa [Sys.goto,hcalm] using not_not.mp fun hc => hf (hfull.mpr hc)
  · refine iff_of_true ((step_change hst).not_tooBig hs fun p b hl hi hpc => hlw ⟨p,b,hl,hi,hpc⟩) ?_
    cases l with
    | request p r | crash => trivial
    | run p => exact fun b hpc hi => absurd ⟨p,b,rfl,hi,hpc⟩ hlw

theorem Reserved.beginOp (hn : (n : Int) < maxOpBlocks) (h : Reserved n M s w)
    (hs : s.panicked=none) (hpc : s.pc p=.beginOp) (hup : s.up=true) (hcom : s.committing=false) :
    (s.beginOp p).lh.length+unused n (s.beginOp p).op w.byOp+2 ≤ logSize := by
  have hroom := h.room hs hup hcom
  have hgroup := h.account.group
  have hop : s.op p=false := by simpa [hpc,Pc.Nests] using hgroup.nests p
  unfold Sys.beginOp
  rw [if_neg (by simp [hcom])]
  split
  next => exact hroom
  next hadmit =>
    have hjoin := unused_frame (p := p) n s.op (update s.op p true) w.byOp w.byOp
      (fun q hq => update_of_ne hq true s.op) fun _ _ => rfl
    have hold := unused_le n s.op w.byOp
    have hpos := openOps_nonneg s.op
    have hout := hgroup.outstanding
    have hmul : openOps s.op*n ≤ openOps s.op*9 :=
      mul_le_mul_of_nonneg_left (by simp only [maxOpBlocks] at hn; omega) hpos
    simp only [hop,update_self,Bool.false_eq_true,if_false,if_true] at hjoin
    simp only [Sys.goto,maxOpBlocks,logSize] at hadmit hn ⊢
    by_cases hzero : s.outstanding=0
    · have hnil := hgroup.empty hup hcom hzero
      simp only [hnil,List.length_nil]
      omega
    · omega

theorem Reserved.logWrite (h : Reserved n M s w) (hs : s.panicked=none) {b : Buf}
    (hpc : s.pc p=.logWrite b) (hwithin : ∀ q, ((w.turn s p (.logWrite b)).byOp q).card ≤ n)
    (ht : (s.logWrite M p b).panicked=none) : (s.logWrite M p b).lh.length +
      unused n (s.logWrite M p b).op (w.turn s p (.logWrite b)).byOp+2 ≤ logSize := by
  have hop : s.op p=true := by simpa [hpc,Pc.Nests] using h.account.group.nests p
  obtain ⟨hup,hcom⟩ := h.account.group.of_op hop
  have hroom := h.room hs hup hcom
  have hlh : w.inTrans=s.lh.toFinset := by simpa [hup,hcom] using h.account.trans hs
  have hsub : w.byOp p ⊆ s.lh.toFinset := by simpa [hop,hlh] using h.account.byOp hs p
  have hnot : ¬ Full M s := fun hf => by simp [logWrite_full hf,Sys.panic] at ht
  obtain ⟨bio,logged,heq⟩ := logWrite_room (p := p) hnot (h.account.group.outstanding_pos hop) b
  have hframe := unused_frame (p := p) n s.op s.op w.byOp
    (w.turn s p (.logWrite b)).byOp (fun _ _ => rfl) fun q hq => by simp [Written.turn,hq]
  have hp := hwithin p
  have hlen := absorb_length s.lh (s.bio.blockno b)
  rw [heq]
  simp only [Written.turn,update_self,Sys.goto,hop,if_true] at hframe hp ⊢
  by_cases hmem : s.bio.blockno b∈s.lh
  · have hle : (w.byOp p).card ≤ (insert (s.bio.blockno b) (w.byOp p)).card :=
      Finset.card_le_card (Finset.subset_insert _ _)
    rw [if_pos hmem] at hlen
    omega
  · have hnew : s.bio.blockno b∉w.byOp p := fun hb => hmem (by simpa using hsub hb)
    rw [Finset.card_insert_of_notMem hnew] at hframe hp
    rw [if_neg hmem] at hlen
    omega

theorem Reserved.step (hn : (n : Int) < maxOpBlocks) (h : Reserved n M s w)
    (hok : Within n (s,w) l) (hs : Log.step M s l=some t) : Reserved n M t (w.after s l) := by
  refine ⟨h.account.step hok.1 hs,hok.2,fun ht hup hcom => ?_⟩
  have hwithin := hok.2
  have hgroup := h.account.group
  have hempty : 0+0+2 ≤ logSize := by decide
  cases step_change hs with
  | crash => simp [boot] at hup
  | request p r =>
    have hcalm := step_calm (by simp) hs
    cases r <;> exact h.room hcalm hup hcom
  | cache p bio hi =>
    simp only [Written.after,if_neg hi]
    exact h.room ht hup hcom
  | panic p m => simp [Sys.panic] at ht
  | beginOp p hpc hi =>
    obtain ⟨hup',hcom',-⟩ := beginOp_log s p
    simp only [Written.after,hi,hpc,if_true,Written.turn]
    exact h.beginOp hn (step_calm (by simp) hs) hpc (hup' ▸ hup) (hcom' ▸ hcom)
  | logWrite p b hpc hi =>
    simp only [Written.after,hi,hpc,if_true] at hwithin ⊢
    exact h.logWrite (step_calm (by simp) hs) hpc hwithin ht
  | endOp p hpc hi =>
    have hop : s.op p=true := by simpa [hpc,Pc.Nests] using hgroup.nests p
    obtain ⟨hup',hcom'⟩ := hgroup.of_op hop
    have hroom := h.room (step_calm (by simp) hs) hup' hcom'
    have hframe := unused_frame (p := p) n s.op (update s.op p false) w.byOp
      (update w.byOp p ∅) (fun q hq => update_of_ne hq false s.op) fun q hq => update_of_ne hq ∅ w.byOp
    have hkeep : (s.endOp p).lh=s.lh ∧ (s.endOp p).op=update s.op p false := by
      simp only [Sys.endOp]
      split_ifs <;> exact ⟨rfl,rfl⟩
    simp only [Written.after,hi,hpc,if_true,Written.turn,hkeep]
    simp only [hop,if_true,update_self,Bool.false_eq_true,if_false] at hframe
    omega
  | log p k k' bio lh hpc =>
    have hoff := (hgroup.of_log hpc).1
    simp only [Sys.goto] at hup hcom
    simp [hup,hcom] at hoff
  | initialised p hpc | committed p hpc =>
    have hnil : s.lh=[] := (hgroup.of_log hpc).2 rfl
    have hno (q : P) : s.op q=false := hgroup.no_op hpc q
    simpa [Sys.goto,Sys.wakeup,hnil,unused_eq_zero n _ hno] using hempty

variable {x : Sys P × Written P}

theorem Account.tallied {y : Sys P × Written P} (h : Account M x.1 x.2) (hok : Nested x.1 l)
    (hs : Log.tallied M x l=some y) : Account M y.1 y.2 := by
  obtain ⟨t,ht,rfl⟩ := Option.map_eq_some_iff.mp hs
  exact h.step hok ht

theorem Reserved.tallied (hn : (n : Int) < maxOpBlocks) {y : Sys P × Written P}
    (h : Reserved n M x.1 x.2) (hok : Within n x l) (hs : Log.tallied M x l=some y) :
    Reserved n M y.1 y.2 := by
  obtain ⟨t,ht,rfl⟩ := Option.map_eq_some_iff.mp hs
  exact h.step hn hok ht

/-- On the log that `mkfs` lays out, a run panics for want of room exactly if some call of `log_write`
finds all but one of the `LOGSIZE` blocks in the transaction; no call does if every operation
leaves one block of its reservation unused. -/
theorem log_reservation_iff (M : Mount P) (hM : M.size=logSize) (disk : Nat → Data) :
    (∀ ls x, Along (Log.tallied M) (fun _ x l => Nested x.1 l) [] (tallyBoot M disk) ls →
      run (Log.tallied M) ls (tallyBoot M disk)=some x →
      ((∀ u y, u <+: ls → run (Log.tallied M) u (tallyBoot M disk)=some y →
          y.1.panicked≠some .tooBigATransaction) ↔
        Along (Log.tallied M) (fun _ x l => Room x l) [] (tallyBoot M disk) ls)) ∧
    ∀ (n : Nat) ls x, (n : Int) < maxOpBlocks →
      Along (Log.tallied M) (fun _ x l => Within n x l) [] (tallyBoot M disk) ls →
      run (Log.tallied M) ls (tallyBoot M disk)=some x →
      x.1.panicked≠some .tooBigATransaction := by
  have hroom_iff {x y : Sys P × Written P} {l : Label P} (h : Account M x.1 x.2)
      (hx : x.1.panicked≠some .tooBigATransaction) (hs : Log.tallied M x l=some y) :
      y.1.panicked≠some .tooBigATransaction ↔ Room x l := by
    obtain ⟨t,ht,rfl⟩ := Option.map_eq_some_iff.mp hs
    exact h.room_iff hM hx ht
  refine ⟨fun ls x hok hrun => ?_,fun n ls x hn hok hrun => ?_⟩
  · exact forall_prefix_iff_along (I := fun _ x => Account M x.1 x.2)
      (Q := fun x => x.1.panicked≠some .tooBigATransaction)
      (fun _ x l y h hok hs => h.tallied (x := x) (y := y) (l := l) hok hs)
      (fun _ x l y h _ hx hs => hroom_iff (x := x) (y := y) (l := l) h hx hs)
      (s := tallyBoot M disk) (boot_account M disk) (by simp [tallyBoot,boot]) hok hrun
  · have hinit : Reserved n M (tallyBoot M disk).1 (tallyBoot M disk).2 :=
      ⟨boot_account M disk,by simp [tallyBoot],by simp [tallyBoot,boot]⟩
    refine (run_induction (I := fun _ x => Reserved n M x.1 x.2 ∧
      x.1.panicked≠some .tooBigATransaction) (fun _ u l t h hok hs => ?_)
      ⟨hinit,by simp [tallyBoot,boot]⟩ hok hrun).2
    refine ⟨h.1.tallied hn (l := l) hok hs,(hroom_iff (l := l) h.1.account h.2 hs).mpr ?_⟩
    cases l with
    | crash => trivial
    | request p r | run p =>
      obtain ⟨v,hv,-⟩ := Option.map_eq_some_iff.mp hs
      exact h.1.room_of_step (step_calm (by simp) hv) _

end Account

def threeOnMkfs : Mount (Fin 3) :=
  ⟨mkfsMount.dev,mkfsMount.start,mkfsMount.size,0,mkfsMount.dev_ne,mkfsMount.size_pos⟩

/-- Call number `j`: process `j / 10` reads a block of its own and passes it to
`log_write`. -/
def nthLogWrite (j : Nat) : List (Label (Fin 3)) :=
  let p : Fin 3 := ⟨j/10%3,Nat.mod_lt _ (by decide)⟩
  .request p (.bread 1 (40+j)) :: List.replicate 3 (.run p) ++
    [.request p (.logWrite ⟨(j+1)%30,Nat.mod_lt _ (by decide)⟩),.run p]

/-- The machine comes up and three operations begin, then come the first `n` calls. -/
def threeOps (n : Nat) : List (Label (Fin 3)) :=
  List.replicate 19 (.run 0) ++
    [.request 0 .beginOp,.run 0,.request 1 .beginOp,.run 1,.request 2 .beginOp,.run 2] ++
    (List.range n).flatMap nthLogWrite

def nineCalls : Sys (Fin 3) × Written (Fin 3) :=
  (run (tallied threeOnMkfs) (threeOps 9) (tallyBoot threeOnMkfs blankDisk)).get (by decide +kernel)

theorem nineCalls_room : nineCalls.1.lh.length=9 ∧ nineCalls.1.panicked≠some .tooBigATransaction :=
  ⟨by decide +kernel,(log_reservation_iff threeOnMkfs rfl blankDisk).2 9 (threeOps 9) nineCalls
    (by decide) (by decide +kernel) (Option.some_get _).symm⟩

/-- Three operations that use their whole reservation: the machine panics at the
thirtieth call. -/
theorem threeOps_tooBig :
    Along (tallied threeOnMkfs) (fun _ x l => Within 10 x l) [] (tallyBoot threeOnMkfs blankDisk)
      (threeOps 30) ∧
    (run (tallied threeOnMkfs) (threeOps 30) (tallyBoot threeOnMkfs blankDisk)).map
      (fun x => x.1.panicked)=some (some .tooBigATransaction) :=
  ⟨by decide +kernel,by decide +kernel⟩

end Xv6.Log
