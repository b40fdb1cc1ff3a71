import Xv6.SchedulerFrame

/-! A process runs on one CPU: every step keeps the invariant, and what follows. -/
namespace Xv6.Scheduler
open Function Xv6.Machine Xv6.Proc
variable {κ : Type} {s t : Sys κ} {c d : κ} {p q me : Slot} {pc : Pc}

structure Goes (s : Sys κ) (c : κ) (pc : Pc) : Prop where
  old : (s.cpu c).regs.ra.plain
  sched : ∀ p k, (s.cpu c).regs.ra≠.sched p k
  new : pc.plain
  boot : AtSched s (s.cpu c).proc (s.cpu c).regs.ra → AtSched s (s.cpu c).proc pc
  proc : ∀ me, (s.cpu c).regs.sp=.kstack me → AtProc s me (s.cpu c).regs.ra → AtProc s me pc

theorem goes_boot {ra : Pc} (hsp : (s.cpu c).regs=⟨.boot c,ra⟩) (hold : ra.plain)
    (hsched : ∀ p k, ra≠.sched p k) (hnew : pc.plain)
    (hat : AtSched s (s.cpu c).proc ra → AtSched s (s.cpu c).proc pc) : Goes s c pc := by
  refine ⟨by rwa [hsp],by rwa [hsp],hnew,fun h => hat (by rwa [hsp] at h),fun me hme => ?_⟩
  rw [hsp] at hme
  cases hme

theorem goes_kstack {ra : Pc} (hsp : (s.cpu c).regs=⟨.kstack me,ra⟩) (hold : ra.plain)
    (hsched : ∀ p k, ra≠.sched p k) (hnew : pc.plain) (hno : ¬ AtSched s (s.cpu c).proc ra)
    (hat : AtProc s me ra → AtProc s me pc) : Goes s c pc := by
  refine ⟨by rwa [hsp],by rwa [hsp],hnew,fun h => ?_,fun me' hme h => ?_⟩
  · rw [hsp] at h
    exact absurd h hno
  · rw [hsp] at hme h
    cases hme
    exact hat h

theorem Inv.np_ne (h : Inv s) (hst : s.state q≠.used) {r : Slot} (hr : s.np p=some r) : r≠q := by
  rintro rfl
  exact hst (h.np p r hr)

theorem Inv.used_setState {x : ProcState} (h : Inv s) (hst : s.state q≠.used) (p r : Slot)
    (hr : s.np p=some r) : (s.setState q x).state r=.used :=
  (update_of_ne (h.np_ne hst hr) _ _).trans (h.np p r hr)

section Steps
variable [DecidableEq κ]

@[simp] theorem goto_self (s : Sys κ) (c : κ) (pc : Pc) :
    (s.goto c pc).cpu c = { s.cpu c with regs := ⟨(s.cpu c).regs.sp,pc⟩ } :=
  update_self c _ s.cpu

theorem goto_other (s : Sys κ) (pc : Pc) (hd : d≠c) : (s.goto c pc).cpu d=s.cpu d :=
  update_of_ne hd _ s.cpu

variable (h : Inv s)
include h

theorem Inv.pass (lock : Slot → Option κ) (hgo : Goes s c pc)
    (hother : ∀ p, ∀ d≠c, lock p=some d ↔ s.lock p=some d)
    (hheld : ∀ p, lock p=some c ↔ pc.holds (s.cpu c).regs.sp=some p) :
    Inv (Sys.goto { s with lock := lock } c pc) := by
  have hbusy : ∀ p, Busy (Sys.cpu (Sys.goto { s with lock := lock } c pc) c).regs p ↔
      Busy (s.cpu c).regs p := by
    intro p
    rw [goto_self,busy_iff_of_plain hgo.old]
    exact busy_iff_of_plain hgo.new
  refine h.byCpu ⟨fun d hd => goto_other _ pc hd,hother,fun p => .inl rfl,
    fun p => .inl ⟨rfl,rfl⟩,fun p => .inl rfl⟩ ?_ (fun p => ?_) (fun p hp => .inl ((hbusy p).mp hp))
    (fun p hp _ => (hbusy p).mpr hp) (fun p hp => ⟨fun hst => .inl ?_,fun hst => ?_⟩) h.np h.np_inj
  · unfold CpuOk
    rw [goto_self]
    obtain ⟨hsp,hat⟩ | ⟨me,hsp,hp,hctx,hat⟩ := h.cpu c
    · exact .inl ⟨hsp,hgo.boot hat⟩
    · exact .inr ⟨me,hsp,hp,hctx,hgo.proc me hsp hat⟩
  · rw [goto_self]
    exact hheld p
  · exact h.parked hp hgo.sched hst
  · obtain ⟨d,hd⟩ := (h.slot p).running hst
    by_cases hdc : d=c
    · exact ⟨c,(hbusy p).mpr (hdc ▸ hd)⟩
    · exact ⟨d,by rw [goto_other _ pc hdc]; exact hd⟩

theorem Inv.move (hgo : Goes s c pc)
    (hheld : pc.holds (s.cpu c).regs.sp=(s.cpu c).regs.holds) : Inv (s.goto c pc) :=
  h.pass s.lock hgo (fun _ _ _ => Iff.rfl) fun p => hheld ▸ h.lock p c

theorem Inv.acquire (hgo : Goes s c pc) (hq : s.lock q=none)
    (hnone : (s.cpu c).regs.holds=none) (hheld : pc.holds (s.cpu c).regs.sp=some q) :
    Inv ((s.acquire c q).goto c pc) := by
  refine h.pass _ hgo (fun p d hd => ?_) fun p => ?_
  · by_cases hp : p=q
    · simp [hp,hq,Ne.symm hd]
    · rw [update_of_ne hp]
  · by_cases hp : p=q
    · simp [hp,hheld]
    · rw [update_of_ne hp,h.lock p c,hnone,hheld]
      simp [Ne.symm hp]

theorem Inv.drop (hgo : Goes s c pc) (hq : (s.cpu c).regs.holds=some q)
    (hheld : pc.holds (s.cpu c).regs.sp=none) : Inv ((s.drop q).goto c pc) := by
  have hlock : s.lock q=some c := (h.lock q c).mpr hq
  refine h.pass _ hgo (fun p d hd => ?_) fun p => ?_
  · by_cases hp : p=q
    · simp [hp,hlock,Ne.symm hd]
    · rw [update_of_ne hp]
  · rw [hheld]
    by_cases hp : p=q
    · simp [hp]
    · rw [update_of_ne hp]
      simpa using fun hc => hp ((h.lock_iff hq).mp hc)

variable {w : Work}

theorem Inv.work (hsp : (s.cpu c).regs=⟨.kstack me,.hold q w⟩)
    (hlock : t.lock=s.lock) (hcpu : t.cpu=s.cpu) (hstate : ∀ p≠q, t.state p=s.state p)
    (hsaved : ∀ p≠q, t.context p=s.context p ∧ t.saved p=s.saved p)
    (hnp : ∀ p≠me, t.np p=s.np p) (hrun : s.state q=.running → q=me)
    (hend : t.state q≠.running) (hheld : pc.holds (.kstack me : Stack κ)=some q)
    (hnew : pc.plain) (hat : AtProc t me pc)
    (hpark : t.state q=.runnable ∨ t.state q=.sleeping ∨ t.state q=.used →
      Parked t q ∨ ∃ k, q=me ∧ pc=.sched me k) (hused : ∀ p q, t.np p=some q → t.state q=.used)
    (hinj : ∀ p p' q, t.np p=some q → t.np p'=some q → p=p') : Inv (t.goto c pc) := by
  have hown : ∀ p, s.lock p=some c ↔ p=q := fun p => h.lock_iff (by rw [hsp]; rfl)
  have hregs : ((t.goto c pc).cpu c).regs=⟨.kstack me,pc⟩ := by
    rw [goto_self,hcpu,hsp]
  have hbusy : ∀ p, Busy ((t.goto c pc).cpu c).regs p ↔ Busy (s.cpu c).regs p := by
    intro p
    rw [hregs,hsp,busy_iff_of_plain (r := ⟨.kstack me,pc⟩) hnew,
      busy_iff_of_plain (r := ⟨.kstack me,.hold q w⟩) rfl]
  have hother : ∀ d≠c, (t.goto c pc).cpu d=s.cpu d := by
    intro d hd
    rw [goto_other t pc hd,hcpu]
  refine h.byCpu ⟨hother,fun p d _ => ?_,fun p => ?_,fun p => ?_,fun p => ?_⟩ ?_ (fun p => ?_)
    (fun p hp => .inl ((hbusy p).mp hp)) (fun p hp _ => (hbusy p).mpr hp) (fun p hp => ?_) hused hinj
  · exact iff_of_eq (congrArg (fun l => l p=some d) hlock)
  · by_cases hp : p=q
    · subst hp
      exact .inr ⟨(hown p).mpr rfl,fun hr => by rw [hsp,hrun hr]⟩
    · exact .inl (hstate p hp)
  · by_cases hp : p=q
    · exact .inr ((hown p).mpr hp)
    · exact .inl (hsaved p hp)
  · by_cases hp : p=me
    · exact .inr (by rw [hsp,hp])
    · exact .inl (hnp p hp)
  · obtain ⟨hproc,hctx,-⟩ := (h.cpu c).atProc hsp
    refine .inr ⟨me,by rw [hregs],?_,?_,?_⟩
    · rw [goto_self,hcpu]
      exact hproc
    · rw [goto_self,hcpu]
      exact hctx
    · rw [hregs]
      exact hat
  · rw [hregs,Context.holds,hheld,Option.some.injEq,@eq_comm _ q,← hown p,← hlock]
    rfl
  · obtain rfl : p=q := (hown p).mp hp
    refine ⟨fun hst => ?_,fun hst => absurd hst hend⟩
    obtain hpk | ⟨k,rfl,rfl⟩ := hpark hst
    · exact .inl hpk
    · exact .inr ⟨c,k,hregs⟩

theorem Inv.pick (hsp : (s.cpu c).regs=⟨.boot c,.check p⟩) (hst : s.state p=.runnable) :
    Inv ((s.setState p .running).goto c (.setProc p)) := by
  have hown : ∀ q, s.lock q=some c ↔ q=p := fun q => h.lock_iff (by rw [hsp]; rfl)
  have hlock : s.lock p=some c := (hown p).mpr rfl
  have hpark : Parked s p := h.parked hlock (by simp [hsp]) (.inl hst)
  have hregs : (((s.setState p .running).goto c (.setProc p)).cpu c).regs=⟨.boot c,.setProc p⟩ := by
    rw [goto_self]
    exact congrArg (fun r : Context κ => Context.mk r.sp (Pc.setProc p)) hsp
  have hrunning : ((s.setState p .running).goto c (.setProc p)).state p=.running :=
    update_self p _ s.state
  refine h.byCpu ⟨fun d hd => goto_other _ _ hd,fun _ _ _ => Iff.rfl,fun q => ?_,
    fun q => .inl ⟨rfl,rfl⟩,fun q => .inl rfl⟩ ?_ (fun q => ?_) (fun q hq => ?_) (fun q hq _ => ?_)
    (fun q hq => ?_) (h.used_setState (by simp [hst])) h.np_inj
  · by_cases hq : q=p
    · subst hq
      exact .inr ⟨hlock,fun hr => absurd (hst.symm.trans hr) (by simp)⟩
    · exact .inl (update_of_ne hq _ _)
  · refine .inl ⟨by rw [hregs],?_⟩
    rw [hregs,goto_self]
    exact ⟨(h.cpu c).atSched hsp,hrunning,hpark⟩
  · rw [hregs]
    exact (hown q).trans (by simp [Context.holds,Pc.holds,eq_comm])
  · -- it was not RUNNING, so that no other CPU was busy with it
    rw [hregs] at hq
    obtain rfl : q=p := by simpa [Busy,eq_comm] using hq
    refine .inr fun d hd => ?_
    by_cases hdc : d=c
    · rw [hdc,hsp] at hd
      simp [Busy] at hd
    · exact h.not_busy hlock (by simp [hst]) hdc hd
  · rw [hsp] at hq
    simp [Busy] at hq
  · obtain rfl : q=p := (hown q).mp hq
    refine ⟨fun hw => ?_,fun _ => ⟨c,by rw [hregs]; exact .inr (.inl rfl)⟩⟩
    simp [hrunning] at hw

theorem Inv.setProc {pc' : Pc} (proc : Option Slot) (hsp : (s.cpu c).regs=⟨.boot c,pc⟩)
    (hholds : pc'.holds (.boot c : Stack κ)=pc.holds (.boot c))
    (hbusy : ∀ p, Busy (⟨.boot c,pc'⟩ : Context κ) p ↔ Busy (⟨.boot c,pc⟩ : Context κ) p)
    (hat : AtSched s (s.cpu c).proc pc → AtSched s proc pc') :
    Inv ((s.setProc c proc).goto c pc') := by
  have hself : ((s.setProc c proc).goto c pc').cpu c=⟨proc,(s.cpu c).context,⟨.boot c,pc'⟩⟩ := by
    simp [Sys.setProc,Sys.setCpu,hsp]
  have hother : ∀ d≠c, ((s.setProc c proc).goto c pc').cpu d=s.cpu d := by
    intro d hd
    rw [goto_other _ _ hd]
    exact update_of_ne hd _ _
  have hbusy' : ∀ p, Busy (((s.setProc c proc).goto c pc').cpu c).regs p ↔ Busy (s.cpu c).regs p := by
    intro p
    rw [hself,hsp]
    exact hbusy p
  refine h.byCpu ⟨hother,fun _ _ _ => Iff.rfl,fun q => .inl rfl,fun q => .inl ⟨rfl,rfl⟩,
    fun q => .inl rfl⟩ ?_ (fun q => ?_) (fun q hq => .inl ((hbusy' q).mp hq))
    (fun q hq _ => (hbusy' q).mpr hq) (fun q hq => ⟨fun hst => ?_,fun hst => ?_⟩) h.np h.np_inj
  · refine .inl ⟨by rw [hself],?_⟩
    rw [hself]
    exact hat ((h.cpu c).atSched hsp)
  · rw [hself,Context.holds,hholds]
    have hlock := h.lock q c
    rw [hsp] at hlock
    exact hlock
  · obtain hpark | ⟨d,k,hd⟩ := (h.slot q).parked hst
    · exact .inl hpark
    · have hdc : d≠c := by
        rintro rfl
        rw [hsp] at hd
        cases hd
      exact .inr ⟨d,k,by rw [hother d hdc,hd]⟩
  · obtain ⟨d,hd⟩ := (h.slot q).running hst
    by_cases hdc : d=c
    · exact ⟨c,(hbusy' q).mpr (hdc ▸ hd)⟩
    · exact ⟨d,by rw [hother d hdc]; exact hd⟩

theorem Inv.swtchTo (hsp : (s.cpu c).regs=⟨.boot c,.swtch p⟩) : Inv (s.swtchTo c p) := by
  have hown : ∀ q, s.lock q=some c ↔ q=p := fun q => h.lock_iff (by rw [hsp]; rfl)
  obtain ⟨hproc,hrun,hpark⟩ := (h.cpu c).atSched hsp
  have hself : (s.swtchTo c p).cpu c=⟨some p,⟨.boot c,.clearProc p⟩,s.context p⟩ := by
    simp [Sys.swtchTo,Sys.setCpu,hsp,hproc]
  have hother : ∀ d≠c, (s.swtchTo c p).cpu d=s.cpu d := fun d hd => update_of_ne hd _ _
  have hres : Resumable p (s.context p) := by
    rw [hpark.1]
    exact hpark.2
  obtain ⟨pc,hctx,hholds,hplain,hat⟩ : ∃ pc, s.context p=⟨.kstack p,pc⟩ ∧
      pc.holds (.kstack p : Stack κ)=some p ∧ pc.plain ∧ AtProc s p pc := by
    obtain hf | ⟨k,hk,hf⟩ := hres
    · exact ⟨.forkret,hf,rfl,rfl,hrun⟩
    · exact ⟨.resumed p k,hf,rfl,rfl,rfl,hrun,hk⟩
  have hbusy : ∀ q, Busy ((s.swtchTo c p).cpu c).regs q ↔ q=p := by
    intro q
    rw [hself,hctx,busy_iff_of_plain hplain]
    simp [eq_comm]
  refine h.byCpu ⟨hother,fun _ _ _ => Iff.rfl,fun q => .inl rfl,fun q => .inl ⟨rfl,rfl⟩,
    fun q => .inl rfl⟩ ?_ (fun q => ?_) (fun q hq => .inl ?_) (fun q hq hne => ?_)
    (fun q hq => ?_) h.np h.np_inj
  · refine .inr ⟨p,by rw [hself,hctx],by rw [hself],by rw [hself],?_⟩
    rw [hself,hctx]
    exact hat
  · rw [hself,hctx,Context.holds,hholds]
    exact (hown q).trans (by simp [eq_comm])
  · rw [(hbusy q).mp hq,hsp]
    exact .inr (.inr rfl)
  · rw [hsp] at hq
    obtain rfl : q=p := by simpa [Busy,eq_comm] using hq
    exact absurd ((hown q).mpr rfl) hne
  · obtain rfl : q=p := (hown q).mp hq
    refine ⟨fun hst => ?_,fun _ => ⟨c,(hbusy q).mpr rfl⟩⟩
    have hst : s.state q=.runnable ∨ s.state q=.sleeping ∨ s.state q=.used := hst
    simp [hrun] at hst

theorem Inv.swtchFrom {k : Return} (hsp : (s.cpu c).regs=⟨.kstack p,.sched p k⟩)
    (hnot : s.state p≠.running) : Inv (s.swtchFrom c p k) := by
  have hown : ∀ q, s.lock q=some c ↔ q=p := fun q => h.lock_iff (by rw [hsp]; rfl)
  obtain ⟨hproc,hctx,-,hat⟩ := (h.cpu c).atProc hsp
  have hself : (s.swtchFrom c p k).cpu c=⟨some p,⟨.boot c,.clearProc p⟩,⟨.boot c,.clearProc p⟩⟩ := by
    simp [Sys.swtchFrom,Sys.setCpu,hproc,hctx]
  have hother : ∀ d≠c, (s.swtchFrom c p k).cpu d=s.cpu d := fun d hd => update_of_ne hd _ _
  have hcontext : (s.swtchFrom c p k).context=update s.context p ⟨.kstack p,.resumed p k⟩ := by
    simp [Sys.swtchFrom,Sys.setCpu,hsp]
  have hsaved : (s.swtchFrom c p k).saved=update s.saved p ⟨.kstack p,.resumed p k⟩ := by
    simp [Sys.swtchFrom,Sys.setCpu,hsp]
  refine h.byCpu ⟨hother,fun _ _ _ => Iff.rfl,fun q => .inl rfl,fun q => ?_,fun q => .inl rfl⟩ ?_
    (fun q => ?_) (fun q hq => ?_) (fun q hq hne => ?_) (fun q hq => ?_) h.np h.np_inj
  · by_cases hq : q=p
    · exact .inr ((hown q).mpr hq)
    · exact .inl ⟨by rw [hcontext,update_of_ne hq],by rw [hsaved,update_of_ne hq]⟩
  · refine .inl ⟨by rw [hself],?_⟩
    rw [hself]
    exact ⟨rfl,hnot⟩
  · rw [hself]
    exact (hown q).trans (by simp [Context.holds,Pc.holds,eq_comm])
  · rw [hself] at hq
    simp [Busy] at hq
  · rw [hsp] at hq
    obtain rfl : q=p := by simpa [Busy,eq_comm] using hq
    exact absurd ((hown q).mpr rfl) hne
  · obtain rfl : q=p := (hown q).mp hq
    refine ⟨fun hst => .inl ?_,fun hst => absurd hst hnot⟩
    have hk : k≠.exit := by
      obtain ⟨-,hk⟩ | hz := hat
      · exact hk
      · have hst : s.state q=.runnable ∨ s.state q=.sleeping ∨ s.state q=.used := hst
        simp [hz] at hst
    refine ⟨by rw [hcontext,hsaved,update_self,update_self],?_⟩
    rw [hsaved,update_self]
    exact .inr ⟨k,hk,rfl⟩

variable {f : Free}

theorem Inv.lockFor (hsp : (s.cpu c).regs=⟨.kstack me,.free f⟩)
    (hstep : s.lockFor c q w=some t) (hfit : w.fits s me q) : Inv t := by
  unfold Sys.lockFor at hstep
  split_ifs at hstep with hq
  cases hstep
  exact h.acquire (goes_kstack hsp rfl (by simp) rfl id fun hat => ⟨hat,hfit⟩) hq (by rw [hsp]; rfl) rfl

theorem Inv.goFree {f' : Free}
    (hsp : (s.cpu c).regs=⟨.kstack me,.free f⟩) : Inv (s.goto c (.free f')) :=
  h.move (goes_kstack hsp rfl (by simp) rfl id id) (by rw [hsp]; rfl)

theorem Inv.execFree {ok : Bool}
    (hsp : (s.cpu c).regs=⟨.kstack me,.free f⟩) (hstep : s.execFree c me ok f=some t) : Inv t := by
  cases f with
  | outside => cases hstep
  | sleep chan => exact h.lockFor hsp hstep rfl
  | exit => exact h.lockFor hsp hstep rfl
  | wakeup chan i =>
    simp only [Sys.execFree] at hstep
    split_ifs at hstep with hi hme
    · cases hstep
      exact h.goFree hsp
    · exact h.lockFor hsp hstep trivial
    · cases hstep
      exact h.goFree hsp
  | kill pid i =>
    simp only [Sys.execFree] at hstep
    split_ifs at hstep with hi
    · exact h.lockFor hsp hstep trivial
    · cases hstep
      exact h.goFree hsp
  | allocproc i =>
    simp only [Sys.execFree] at hstep
    split_ifs at hstep with hi
    · exact h.lockFor hsp hstep trivial
    · cases hstep
      exact h.goFree hsp
  | forkStart =>
    simp only [Sys.execFree] at hstep
    cases hnp : s.np me with
    | none => simp [hnp] at hstep
    | some np =>
      simp only [hnp] at hstep
      exact h.lockFor hsp hstep hnp
  | wait i =>
    simp only [Sys.execFree] at hstep
    split_ifs at hstep with hi hok
    · exact h.lockFor hsp hstep trivial
    · cases hstep
      exact h.goFree hsp
    · cases hstep
      exact h.goFree hsp

theorem Inv.leave {x : ProcState} {k : Return}
    (hsp : (s.cpu c).regs=⟨.kstack me,.hold me w⟩) (hrun : s.state me=.running)
    (hx : (x=.runnable ∨ x=.sleeping) ∧ k≠.exit ∨ x=.zombie) :
    Inv ((s.setState me x).goto c (.sched me k)) := by
  have hstate : (s.setState me x).state me=x := by simp [Sys.setState]
  refine h.work hsp rfl rfl (fun p hp => update_of_ne hp _ _) (fun p _ => ⟨rfl,rfl⟩) (fun p _ => rfl)
    (fun _ => rfl) ?_ rfl rfl ⟨rfl,?_⟩ (fun _ => .inr ⟨k,rfl,rfl⟩) (h.used_setState (by simp [hrun]))
    h.np_inj
  · rw [hstate]
    obtain ⟨rfl | rfl,-⟩ | rfl := hx
    · simp
    · simp
    · simp
  · rw [hstate]
    exact hx

theorem Inv.take (hsp : (s.cpu c).regs=⟨.kstack me,.hold q .allocproc⟩)
    (hrun : s.state me=.running) (hst : s.state q=.unused) :
    Inv ((Sys.setState { s with
      context := update s.context q ⟨.kstack q,.forkret⟩
      saved := update s.saved q ⟨.kstack q,.forkret⟩
      np := update s.np me (some q) } q .used).goto c (.hold q .filled)) := by
  set u : Sys κ := Sys.setState { s with
    context := update s.context q ⟨.kstack q,.forkret⟩
    saved := update s.saved q ⟨.kstack q,.forkret⟩
    np := update s.np me (some q) } q .used with hu
  have hstate : u.state q=.used := update_self q _ s.state
  have hother : ∀ p≠q, u.state p=s.state p := fun p hp => update_of_ne hp _ _
  have hnp : u.np=update s.np me (some q) := rfl
  have hme : me≠q := by
    rintro rfl
    simp [hrun] at hst
  have hfresh : ∀ p, s.np p≠some q := fun p hp => h.np_ne (by simp [hst]) hp rfl
  refine h.work hsp rfl rfl hother (fun p hp => ⟨update_of_ne hp _ _,update_of_ne hp _ _⟩)
    (fun p hp => update_of_ne hp _ _) (fun hr => ?_) (by simp [hstate]) rfl rfl
    ⟨(hother me hme).trans hrun,?_⟩ (fun _ => .inl ?_) (fun p r hr => ?_) (fun p p' r hr hr' => ?_)
  · simp [hst] at hr
  · exact update_self me _ s.np
  · have hsaved : u.saved q=⟨.kstack q,.forkret⟩ := update_self q _ s.saved
    refine ⟨(update_self q _ s.context).trans hsaved.symm,?_⟩
    rw [hsaved]
    exact .inl rfl
  · rw [hnp] at hr
    by_cases hp : p=me
    · rw [hp,update_self] at hr
      cases hr
      exact hstate
    · rw [update_of_ne hp] at hr
      exact (hother r (h.np_ne (by simp [hst]) hr)).trans (h.np p r hr)
  · rw [hnp] at hr hr'
    by_cases hp : p=me
    · by_cases hp' : p'=me
      · rw [hp,hp']
      · rw [hp,update_self] at hr
        rw [update_of_ne hp'] at hr'
        cases hr
        exact absurd hr' (hfresh p')
    · by_cases hp' : p'=me
      · rw [hp',update_self] at hr'
        rw [update_of_ne hp] at hr
        cases hr'
        exact absurd hr (hfresh p)
      · rw [update_of_ne hp] at hr
        rw [update_of_ne hp'] at hr'
        exact h.np_inj p p' r hr hr'

section Held
variable (hsp : (s.cpu c).regs=⟨.kstack me,.hold q w⟩)
include hsp

theorem Inv.goUnlock : Inv (s.goto c (.unlock q f)) :=
  h.move (goes_kstack hsp rfl (by simp) rfl id fun hat => hat.1) (by rw [hsp]; rfl)

section Change
variable (hrun : s.state me=.running)
include hrun

/-- A process gives another slot a new state, with `q->lock`, and goes on to release it. -/
theorem Inv.change {x : ProcState} {np : Slot → Option Slot}
    (hst : s.state q≠.running) (hx : x=.unused ∨ x=.runnable)
    (hpark : x=.runnable → s.state q=.sleeping ∨ s.state q=.used)
    (hnp : ∀ p≠me, np p=s.np p) (hsome : ∀ p r, np p=some r → s.np p=some r ∧ r≠q) :
    Inv ((Sys.setState { s with np := np } q x).goto c (.unlock q f)) := by
  have hlock : s.lock q=some c := (h.lock q c).mpr (by rw [hsp]; rfl)
  have hstate : (Sys.setState { s with np := np } q x).state q=x := by simp [Sys.setState]
  have hother : ∀ p≠q, (Sys.setState { s with np := np } q x).state p=s.state p :=
    fun p hp => update_of_ne hp _ _
  have hme : me≠q := by
    rintro rfl
    exact hst hrun
  refine h.work hsp rfl rfl hother (fun p _ => ⟨rfl,rfl⟩) hnp (fun hr => absurd hr hst) ?_ rfl rfl
    ((hother me hme).trans hrun) (fun hw => .inl ?_) (fun p r hr => ?_) (fun p p' r hr hr' => ?_)
  · rw [hstate]
    rcases hx with rfl | rfl
    · simp
    · simp
  · rw [hstate] at hw
    obtain rfl : x=.runnable := hx.resolve_left (by rintro rfl; simp at hw)
    exact h.parked hlock (by simp [hsp]) (.inr (hpark rfl))
  · obtain ⟨hpr,hrq⟩ := hsome p r hr
    exact (hother r hrq).trans (h.np p r hpr)
  · exact h.np_inj p p' r (hsome p r hr).1 (hsome p' r hr').1

theorem Inv.wake (hst : s.state q=.sleeping) :
    Inv ((s.setState q .runnable).goto c (.unlock q f)) :=
  h.change hsp hrun (by simp [hst]) (.inr rfl) (fun _ => .inl hst) (fun _ _ => rfl)
    fun _ _ hr => ⟨hr,h.np_ne (by simp [hst]) hr⟩

theorem Inv.reap (hst : s.state q=.zombie) : Inv ((s.setState q .unused).goto c (.unlock q f)) :=
  h.change hsp hrun (by simp [hst]) (.inl rfl) (by simp) (fun _ _ => rfl)
    fun _ _ hr => ⟨hr,h.np_ne (by simp [hst]) hr⟩

theorem Inv.settle {x : ProcState} (hnp : s.np me=some q) (hx : x=.unused ∨ x=.runnable) :
    Inv ((Sys.setState { s with np := update s.np me none } q x).goto c (.unlock q f)) := by
  have hused : s.state q=.used := h.np me q hnp
  refine h.change hsp hrun (by simp [hused]) hx (fun _ => .inr hused) (fun p hp => update_of_ne hp _ _)
    fun p r hr => ?_
  have hp : p≠me := by
    rintro rfl
    simp at hr
  rw [update_of_ne hp] at hr
  refine ⟨hr,?_⟩
  rintro rfl
  exact hp (h.np_inj p me r hr hnp)

end Change

theorem Inv.execHold (ok : Bool) : Inv (s.execHold c me q ok w) := by
  obtain ⟨-,-,hrun,hfit⟩ := (h.cpu c).atProc hsp
  cases w with
  | yield f =>
    obtain rfl : q=me := hfit
    exact h.leave hsp hrun (.inl ⟨.inl rfl,by simp⟩)
  | sleep chan =>
    obtain rfl : q=me := hfit
    exact (h.ignore (update s.chan q chan) s.pid s.killed s.nextpid).leave hsp hrun
      (.inl ⟨.inr rfl,by simp⟩)
  | exit =>
    obtain rfl : q=me := hfit
    exact h.leave hsp hrun (.inr rfl)
  | wakeup chan =>
    simp only [Sys.execHold]
    split_ifs with hst
    · exact h.wake hsp hrun hst.1
    · exact h.goUnlock hsp
  | kill pid =>
    have hkilled := h.ignore s.chan s.pid (update s.killed q true) s.nextpid
    simp only [Sys.execHold]
    split_ifs with hpid hst
    · exact hkilled.wake hsp hrun hst
    · exact hkilled.goUnlock hsp
    · exact h.goUnlock hsp
  | allocproc =>
    simp only [Sys.execHold]
    split_ifs with hst
    · exact (h.ignore s.chan (update s.pid q s.nextpid) s.killed (s.nextpid+1)).take hsp hrun hst
    · exact h.goUnlock hsp
  | filled =>
    simp only [Sys.execHold]
    split_ifs with hok
    · exact h.goUnlock hsp
    · exact (h.ignore (update s.chan q 0) (update s.pid q 0) (update s.killed q false) s.nextpid).settle
        hsp hrun hfit (.inl rfl)
  | forkStart => exact h.settle hsp hrun hfit (.inr rfl)
  | wait =>
    simp only [Sys.execHold]
    split_ifs with hst hok
    · exact (h.ignore (update s.chan q 0) (update s.pid q 0) (update s.killed q false) s.nextpid).reap
        hsp hrun hst
    · exact h.goUnlock hsp
    · exact h.goUnlock hsp

end Held

variable {ok : Bool}

theorem Inv.scan {i : Nat} (hsp : (s.cpu c).regs=⟨.boot c,.scan i⟩)
    (hstep : s.exec c ok=some t) : Inv t := by
  simp only [Sys.exec,hsp] at hstep
  split_ifs at hstep with hi hq
  · cases hstep
    exact h.acquire (goes_boot hsp rfl (by simp) rfl id) hq (by rw [hsp]; rfl) rfl
  · cases hstep
    exact h.move (goes_boot hsp rfl (by simp) rfl id) (by rw [hsp]; rfl)

theorem Inv.check (hsp : (s.cpu c).regs=⟨.boot c,.check p⟩)
    (hstep : s.exec c ok=some t) : Inv t := by
  simp only [Sys.exec,hsp] at hstep
  split_ifs at hstep with hst
  · cases hstep
    exact h.pick hsp hst
  · cases hstep
    exact h.move (goes_boot hsp rfl (by simp) rfl id) (by rw [hsp]; rfl)

/-- `sched` finds `p->lock` held and the process no longer RUNNING, and does not panic. -/
theorem Inv.sched {k : Return} (hsp : (s.cpu c).regs=⟨.kstack me,.sched p k⟩)
    (hstep : s.exec c ok=some t) : Inv t := by
  obtain ⟨-,-,rfl,hat⟩ := (h.cpu c).atProc hsp
  have hlock : s.lock p=some c := (h.lock p c).mpr (by rw [hsp]; rfl)
  have hrun : s.state p≠.running := by
    obtain ⟨hst | hst,-⟩ | hst := hat
    · simp [hst]
    · simp [hst]
    · simp [hst]
  simp only [Sys.exec,hsp,hlock,hrun,ne_eq,not_true_eq_false,or_self,if_false,
    Option.some.injEq] at hstep
  subst hstep
  exact h.swtchFrom hsp hrun

theorem Inv.resumed {k : Return} (hsp : (s.cpu c).regs=⟨.kstack me,.resumed p k⟩)
    (hstep : s.exec c ok=some t) : Inv t := by
  have hdrop : ∀ f, Inv ((s.drop p).goto c (.free f)) := fun f =>
    h.drop (goes_kstack hsp rfl (by simp) rfl id fun hat => hat.2.1) (by rw [hsp]; rfl) rfl
  cases k with
  | yield f =>
    simp only [Sys.exec,hsp,Option.some.injEq] at hstep
    exact hstep ▸ hdrop f
  | sleep =>
    simp only [Sys.exec,hsp,Option.some.injEq] at hstep
    exact hstep ▸ (hdrop .outside).ignore (update s.chan p 0) s.pid s.killed s.nextpid
  | exit => exact absurd rfl ((h.cpu c).atProc hsp).2.2.2.2

theorem Inv.exec (hstep : s.exec c ok=some t) : Inv t := by
  have hcpu := h.cpu c
  cases hra : (s.cpu c).regs.ra with
  | scan i => exact h.scan (hcpu.in_scheduler hra fun _ => id) hstep
  | check p => exact h.check (hcpu.in_scheduler hra fun _ => id) hstep
  | setProc p =>
    simp only [Sys.exec,hra,Option.some.injEq] at hstep
    exact hstep ▸ h.setProc (some p) (hcpu.in_scheduler hra fun _ => id) rfl (fun q => by simp [Busy])
      fun hat => ⟨rfl,hat.2⟩
  | swtch p =>
    simp only [Sys.exec,hra,Option.some.injEq] at hstep
    exact hstep ▸ h.swtchTo (hcpu.in_scheduler hra fun _ => id)
  | clearProc p =>
    simp only [Sys.exec,hra,Option.some.injEq] at hstep
    exact hstep ▸ h.setProc none (hcpu.in_scheduler hra fun _ => id) rfl (fun q => by simp [Busy])
      fun _ => rfl
  | release p =>
    have hsp := hcpu.in_scheduler hra fun _ => id
    simp only [Sys.exec,hra,Option.some.injEq] at hstep
    exact hstep ▸ h.drop (goes_boot hsp rfl (by simp) rfl id) (by rw [hsp]; rfl) rfl
  | free f =>
    obtain ⟨me,hsp⟩ := hcpu.in_process hra id
    simp only [Sys.exec,hra,(hcpu.atProc hsp).1,Option.bind_some] at hstep
    exact h.execFree hsp hstep
  | hold q w =>
    obtain ⟨me,hsp⟩ := hcpu.in_process hra id
    simp only [Sys.exec,hra,(hcpu.atProc hsp).1,Option.bind_some,Option.some.injEq] at hstep
    exact hstep ▸ h.execHold hsp ok
  | sched p k =>
    obtain ⟨me,hsp⟩ := hcpu.in_process hra id
    exact h.sched hsp hstep
  | resumed p k =>
    obtain ⟨me,hsp⟩ := hcpu.in_process hra id
    exact h.resumed hsp hstep
  | unlock q f =>
    obtain ⟨me,hsp⟩ := hcpu.in_process hra id
    simp only [Sys.exec,hra,Option.some.injEq] at hstep
    exact hstep ▸ h.drop (goes_kstack hsp rfl (by simp) rfl id id) (by rw [hsp]; rfl) rfl
  | forkret =>
    obtain ⟨me,hsp⟩ := hcpu.in_process hra id
    simp only [Sys.exec,hra,(hcpu.atProc hsp).1,Option.bind_some,Option.some.injEq] at hstep
    exact hstep ▸ h.drop (goes_kstack hsp rfl (by simp) rfl id id) (by rw [hsp]; rfl) rfl
  | panicked => simp [Sys.exec,hra] at hstep

theorem Inv.step {l : Label κ} (hstep : step s l=some t) : Inv t := by
  cases l with
  | exec c ok => exact h.exec hstep
  | call c f =>
    simp only [Scheduler.step] at hstep
    split_ifs at hstep with hcall
    cases hstep
    obtain ⟨me,hsp⟩ := (h.cpu c).in_process hcall.1 id
    exact h.goFree hsp
  | yield c =>
    simp only [Scheduler.step] at hstep
    split at hstep
    next f hra =>
      obtain ⟨me,hsp⟩ := (h.cpu c).in_process hra id
      rw [((h.cpu c).atProc hsp).1,Option.bind_some] at hstep
      exact h.lockFor hsp hstep rfl
    next => cases hstep

end Steps

section Result
variable [DecidableEq κ]

def migrates : List (Label Bool) :=
  List.replicate 5 (.exec false true)++[.yield false]++List.replicate 4 (.exec false true) ++
    List.replicate 5 (.exec true true)

def migrated : Sys Bool := (run step migrates (start fun p => p=initproc)).get (by decide +kernel)

end Result

end Xv6.Scheduler
