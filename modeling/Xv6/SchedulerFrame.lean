import Xv6.Scheduler

/-! What holds in every state of the scheduler. A `p->lock` belongs to a CPU; while it is free, a
process is either executed by a CPU and RUNNING, or parked with its registers in `p->context`. -/
namespace Xv6.Scheduler
open Function Xv6.Machine Xv6.Proc
variable {κ : Type} {s t : Sys κ} {c d : κ} {p q : Slot}

def Pc.holds (sp : Stack κ) : Pc → Option Slot
  | .check p | .setProc p | .swtch p | .clearProc p | .release p => some p
  | .hold p _ | .sched p _ | .resumed p _ | .unlock p _ => some p
  | .forkret =>
    match sp with
    | .kstack p => some p
    | .boot _ => none
  | .scan _ | .free _ | .panicked => none

def Context.holds (r : Context κ) : Option Slot := r.ra.holds r.sp

def Resumable (p : Slot) (r : Context κ) : Prop :=
  r=⟨.kstack p,.forkret⟩ ∨ ∃ k, k≠.exit ∧ r=⟨.kstack p,.resumed p k⟩

def Parked (s : Sys κ) (p : Slot) : Prop := s.context p=s.saved p ∧ Resumable p (s.saved p)

/-- What holds where in `scheduler`, when `c->proc` is `proc`. -/
def AtSched (s : Sys κ) (proc : Option Slot) : Pc → Prop
  | .scan _ | .check _ | .release _ => proc=none
  | .setProc p => proc=none ∧ s.state p=.running ∧ Parked s p
  | .swtch p => proc=some p ∧ s.state p=.running ∧ Parked s p
  | .clearProc p => proc=some p ∧ s.state p≠.running
  | _ => False

/-- The lock that the work is done with: the own one of `me`, or that of `np`. -/
def Work.fits (s : Sys κ) (me q : Slot) : Work → Prop
  | .yield _ | .sleep _ | .exit => q=me
  | .filled | .forkStart => s.np me=some q
  | .wakeup _ | .kill _ | .allocproc | .wait => True

/-- What holds where on the kernel stack of `me`. -/
def AtProc (s : Sys κ) (me : Slot) : Pc → Prop
  | .free _ | .unlock _ _ | .forkret => s.state me=.running
  | .hold q w => s.state me=.running ∧ w.fits s me q
  | .sched p k => p=me ∧
      ((s.state me=.runnable ∨ s.state me=.sleeping) ∧ k≠.exit ∨ s.state me=.zombie)
  | .resumed p k => p=me ∧ s.state me=.running ∧ k≠.exit
  | _ => False

def CpuOk (s : Sys κ) (c : κ) : Prop :=
  (s.cpu c).regs.sp=.boot c ∧ AtSched s (s.cpu c).proc (s.cpu c).regs.ra ∨
    ∃ me, (s.cpu c).regs.sp=.kstack me ∧ (s.cpu c).proc=some me ∧
      (s.cpu c).context=⟨.boot c,.clearProc me⟩ ∧ AtProc s me (s.cpu c).regs.ra

def Busy (r : Context κ) (p : Slot) : Prop :=
  r.sp=.kstack p ∨ r.ra=.setProc p ∨ r.ra=.swtch p

/-- What holds of a slot: a process that is neither RUNNING nor a zombie is parked or on
its way into the scheduler, and a RUNNING one is on a CPU. -/
structure SlotOk (s : Sys κ) (p : Slot) : Prop where
  parked : s.state p=.runnable ∨ s.state p=.sleeping ∨ s.state p=.used →
    Parked s p ∨ ∃ c k, (s.cpu c).regs=⟨.kstack p,.sched p k⟩
  running : s.state p=.running → ∃ c, Busy (s.cpu c).regs p

structure Inv (s : Sys κ) : Prop where
  lock : ∀ p c, s.lock p=some c ↔ (s.cpu c).regs.holds=some p
  cpu : ∀ c, CpuOk s c
  slot : ∀ p, SlotOk s p
  one : ∀ c d p, Busy (s.cpu c).regs p → Busy (s.cpu d).regs p → c=d
  np : ∀ p q, s.np p=some q → s.state q=.used
  np_inj : ∀ p p' q, s.np p=some q → s.np p'=some q → p=p'

/-- A change by CPU `c`: of its own registers, of locks that it holds or takes, and of
slots whose lock it holds. -/
structure ByCpu (c : κ) (s t : Sys κ) : Prop where
  cpu : ∀ d≠c, t.cpu d=s.cpu d
  lock : ∀ p, ∀ d≠c, t.lock p=some d ↔ s.lock p=some d
  state : ∀ p, t.state p=s.state p ∨
    s.lock p=some c ∧ (s.state p=.running → (s.cpu c).regs.sp=.kstack p)
  saved : ∀ p, t.context p=s.context p ∧ t.saved p=s.saved p ∨ s.lock p=some c
  np : ∀ p, t.np p=s.np p ∨ (s.cpu c).regs.sp=.kstack p

theorem Parked.congr (h : Parked s p) (hs : t.context p=s.context p ∧ t.saved p=s.saved p) :
    Parked t p := by
  unfold Parked
  rw [hs.1,hs.2]
  exact h

theorem AtProc.holds_self {me : Slot} {ra : Pc} (h : AtProc s me ra)
    (hrun : s.state me≠.running) : ∃ k, ra=.sched me k := by
  cases ra with
  | sched p k => exact ⟨k,by rw [h.1]⟩
  | free f => exact absurd h hrun
  | unlock q f => exact absurd h hrun
  | forkret => exact absurd h hrun
  | hold q w => exact absurd h.1 hrun
  | resumed q k => exact absurd h.2.1 hrun
  | scan i => exact h.elim
  | check p => exact h.elim
  | setProc p => exact h.elim
  | swtch p => exact h.elim
  | clearProc p => exact h.elim
  | release p => exact h.elim
  | panicked => exact h.elim

theorem CpuOk.other (h : Inv s) (hby : ByCpu c s t) (hd : d≠c) : CpuOk t d := by
  have hcpu := hby.cpu d hd
  have hfree : ∀ p, (s.cpu d).regs.holds=some p → s.lock p≠some c := by
    intro p hp hc
    exact hd (Option.some.inj (((h.lock p d).mpr hp).symm.trans hc))
  have hstate : ∀ p, (s.cpu d).regs.holds=some p → t.state p=s.state p :=
    fun p hp => (hby.state p).resolve_right fun hc => hfree p hp hc.1
  have hparked : ∀ p, (s.cpu d).regs.holds=some p → Parked s p → Parked t p :=
    fun p hp hpark => hpark.congr ((hby.saved p).resolve_right (hfree p hp))
  obtain ⟨hsp,hat⟩ | ⟨me,hsp,hproc,hctx,hat⟩ := h.cpu d
  · refine .inl ⟨by rw [hcpu,hsp],?_⟩
    rw [hcpu]
    unfold Context.holds at hstate hparked
    cases hra : (s.cpu d).regs.ra with
    | scan i => rwa [hra] at hat
    | check p => rwa [hra] at hat
    | release p => rwa [hra] at hat
    | setProc p =>
      rw [hra] at hat hstate hparked
      exact ⟨hat.1,(hstate p rfl).trans hat.2.1,hparked p rfl hat.2.2⟩
    | swtch p =>
      rw [hra] at hat hstate hparked
      exact ⟨hat.1,(hstate p rfl).trans hat.2.1,hparked p rfl hat.2.2⟩
    | clearProc p =>
      rw [hra] at hat hstate
      exact ⟨hat.1,by rw [hstate p rfl]; exact hat.2⟩
    | free f => simp [hra,AtSched] at hat
    | hold q w => simp [hra,AtSched] at hat
    | sched p k => simp [hra,AtSched] at hat
    | resumed p k => simp [hra,AtSched] at hat
    | unlock q f => simp [hra,AtSched] at hat
    | forkret => simp [hra,AtSched] at hat
    | panicked => simp [hra,AtSched] at hat
  · have hne : (s.cpu c).regs.sp≠.kstack me := fun hc => hd (h.one d c me (.inl hsp) (.inl hc))
    -- a process that is executed elsewhere keeps its state, and what is on its stack
    have hme : s.state me=.running → t.state me=.running := by
      intro hrun
      rcases hby.state me with hsame | ⟨-,hc⟩
      · rw [hsame,hrun]
      · exact absurd (hc hrun) hne
    have hnp : t.np me=s.np me := (hby.np me).resolve_right hne
    refine .inr ⟨me,by rw [hcpu,hsp],by rw [hcpu,hproc],by rw [hcpu,hctx],?_⟩
    rw [hcpu]
    unfold Context.holds at hstate
    cases hra : (s.cpu d).regs.ra with
    | free f =>
      rw [hra] at hat
      exact hme hat
    | unlock q f =>
      rw [hra] at hat
      exact hme hat
    | forkret =>
      rw [hra] at hat
      exact hme hat
    | hold q w =>
      rw [hra] at hat
      refine ⟨hme hat.1,?_⟩
      cases w with
      | filled => exact hnp.trans hat.2
      | forkStart => exact hnp.trans hat.2
      | yield f => exact hat.2
      | sleep chan => exact hat.2
      | exit => exact hat.2
      | wakeup chan => trivial
      | kill pid => trivial
      | allocproc => trivial
      | wait => trivial
    | sched p k =>
      rw [hra] at hat hstate
      obtain ⟨rfl,hat⟩ := hat
      refine ⟨rfl,?_⟩
      rw [hstate p rfl]
      exact hat
    | resumed p k =>
      rw [hra] at hat
      exact ⟨hat.1,hme hat.2.1,hat.2.2⟩
    | scan i => simp [hra,AtProc] at hat
    | check p => simp [hra,AtProc] at hat
    | setProc p => simp [hra,AtProc] at hat
    | swtch p => simp [hra,AtProc] at hat
    | clearProc p => simp [hra,AtProc] at hat
    | release p => simp [hra,AtProc] at hat
    | panicked => simp [hra,AtProc] at hat

theorem Inv.byCpu (h : Inv s) (hby : ByCpu c s t) (hself : CpuOk t c)
    (hheld : ∀ p, t.lock p=some c ↔ (t.cpu c).regs.holds=some p)
    (hbusy : ∀ p, Busy (t.cpu c).regs p → Busy (s.cpu c).regs p ∨ ∀ d, ¬ Busy (s.cpu d).regs p)
    (hkeep : ∀ p, Busy (s.cpu c).regs p → s.lock p≠some c → Busy (t.cpu c).regs p)
    (hslot : ∀ p, s.lock p=some c → SlotOk t p)
    (hnp : ∀ p q, t.np p=some q → t.state q=.used)
    (hinj : ∀ p p' q, t.np p=some q → t.np p'=some q → p=p') : Inv t := by
  refine ⟨fun p d => ?_,fun d => ?_,fun p => ?_,fun d e p hd he => ?_,hnp,hinj⟩
  · by_cases hd : d=c
    · rw [hd]
      exact hheld p
    · rw [hby.lock p d hd,hby.cpu d hd]
      exact h.lock p d
  · by_cases hd : d=c
    · rw [hd]
      exact hself
    · exact CpuOk.other h hby hd
  · by_cases hp : s.lock p=some c
    · exact hslot p hp
    · have hstate : t.state p=s.state p := (hby.state p).resolve_right fun hc => hp hc.1
      have hsaved := (hby.saved p).resolve_right hp
      refine ⟨fun hst => ?_,fun hst => ?_⟩
      · rw [hstate] at hst
        obtain hpark | ⟨d,k,hd⟩ := (h.slot p).parked hst
        · exact .inl (hpark.congr hsaved)
        · have hdc : d≠c := by
            rintro rfl
            exact hp ((h.lock p d).mpr (by rw [hd]; rfl))
          exact .inr ⟨d,k,by rw [hby.cpu d hdc,hd]⟩
      · rw [hstate] at hst
        obtain ⟨d,hd⟩ := (h.slot p).running hst
        by_cases hdc : d=c
        · exact ⟨c,hkeep p (hdc ▸ hd) hp⟩
        · exact ⟨d,by rw [hby.cpu d hdc]; exact hd⟩
  · -- two CPUs are busy with one process: neither can be new
    have hone : ∀ d≠c, Busy (t.cpu d).regs p → Busy (t.cpu c).regs p → False := by
      intro d hdc hd hc
      rw [hby.cpu d hdc] at hd
      obtain hc | hnone := hbusy p hc
      · exact hdc (h.one d c p hd hc)
      · exact hnone d hd
    by_cases hdc : d=c
    · by_cases hec : e=c
      · rw [hdc,hec]
      · exact (hone e hec he (hdc ▸ hd)).elim
    · by_cases hec : e=c
      · exact (hone d hdc hd (hec ▸ he)).elim
      · rw [hby.cpu d hdc] at hd
        rw [hby.cpu e hec] at he
        exact h.one d e p hd he

def Pc.plain : Pc → Bool
  | .setProc _ | .swtch _ => false
  | _ => true

theorem busy_iff_of_plain {r : Context κ} (h : r.ra.plain) : Busy r p ↔ r.sp=.kstack p := by
  obtain ⟨sp,ra⟩ := r
  cases ra <;> simp_all [Busy,Pc.plain]

theorem Inv.lock_iff (h : Inv s) (hq : (s.cpu c).regs.holds=some q) :
    s.lock p=some c ↔ p=q := by
  rw [h.lock,hq,Option.some.injEq,eq_comm]

theorem Inv.not_busy (h : Inv s) (hq : s.lock q=some c) (hrun : s.state q≠.running)
    (hd : d≠c) : ¬ Busy (s.cpu d).regs q := by
  have hholds : (s.cpu d).regs.holds≠some q := fun hd' =>
    hd (Option.some.inj (((h.lock q d).mpr hd').symm.trans hq))
  unfold Context.holds at hholds
  rintro (hsp | hra | hra)
  · obtain ⟨hboot,-⟩ | ⟨me,hme,-,-,hat⟩ := h.cpu d
    · rw [hsp] at hboot
      cases hboot
    · obtain rfl : q=me := by
        rw [hsp] at hme
        cases hme
        rfl
      obtain ⟨k,hk⟩ := hat.holds_self hrun
      exact hholds (by rw [hk]; rfl)
  · exact hholds (by rw [hra]; rfl)
  · exact hholds (by rw [hra]; rfl)

theorem Inv.parked (h : Inv s) (hq : s.lock q=some c) (hsched : ∀ p k, (s.cpu c).regs.ra≠.sched p k)
    (hst : s.state q=.runnable ∨ s.state q=.sleeping ∨ s.state q=.used) : Parked s q := by
  obtain hpark | ⟨d,k,hd⟩ := (h.slot q).parked hst
  · exact hpark
  · have hdc : d=c :=
      Option.some.inj (((h.lock q d).mpr (by rw [hd]; rfl)).symm.trans hq)
    exact absurd (by rw [← hdc,hd]) (hsched q k)

theorem Inv.ignore (h : Inv s) (chan pid : Slot → Nat) (killed : Slot → Bool) (nextpid : Nat) :
    Inv { s with chan := chan, pid := pid, killed := killed, nextpid := nextpid } :=
  ⟨h.lock,h.cpu,fun p => ⟨(h.slot p).parked,(h.slot p).running⟩,h.one,h.np,h.np_inj⟩

theorem CpuOk.in_scheduler {pc : Pc} (h : CpuOk s c) (hra : (s.cpu c).regs.ra=pc)
    (hno : ∀ me, ¬ AtProc s me pc) : (s.cpu c).regs=⟨.boot c,pc⟩ := by
  obtain ⟨hsp,-⟩ | ⟨me,-,-,-,hat⟩ := h
  · rw [← hsp,← hra]
  · rw [hra] at hat
    exact absurd hat (hno me)

theorem CpuOk.in_process {pc : Pc} (h : CpuOk s c) (hra : (s.cpu c).regs.ra=pc)
    (hno : ¬ AtSched s (s.cpu c).proc pc) : ∃ me, (s.cpu c).regs=⟨.kstack me,pc⟩ := by
  obtain ⟨-,hat⟩ | ⟨me,hsp,-⟩ := h
  · rw [hra] at hat
    exact absurd hat hno
  · exact ⟨me,by rw [← hsp,← hra]⟩

theorem CpuOk.atSched {pc : Pc} (h : CpuOk s c) (hsp : (s.cpu c).regs=⟨.boot c,pc⟩) :
    AtSched s (s.cpu c).proc pc := by
  obtain ⟨-,hat⟩ | ⟨me,hme,-⟩ := h
  · rwa [hsp] at hat
  · rw [hsp] at hme
    cases hme

theorem CpuOk.atProc {me : Slot} {pc : Pc} (h : CpuOk s c)
    (hsp : (s.cpu c).regs=⟨.kstack me,pc⟩) :
    (s.cpu c).proc=some me ∧ (s.cpu c).context=⟨.boot c,.clearProc me⟩ ∧ AtProc s me pc := by
  obtain ⟨hboot,-⟩ | ⟨me',hme,hproc,hctx,hat⟩ := h
  · rw [hsp] at hboot
    cases hboot
  · rw [hsp] at hme hat
    cases hme
    exact ⟨hproc,hctx,hat⟩

theorem start_inv (present : Slot → Bool) : Inv (start present : Sys κ) := by
  refine ⟨fun p c => by simp [start,Context.holds,Pc.holds],fun c => .inl ⟨rfl,rfl⟩,
    fun p => ⟨fun _ => ?_,fun hst => ?_⟩,fun c d p hc => ?_,fun p q hq => (by cases hq),
    fun p p' q hq => (by cases hq)⟩
  · exact .inl ⟨rfl,.inl rfl⟩
  · simp only [start] at hst
    split_ifs at hst
  · simp [start,Busy] at hc

end Xv6.Scheduler
