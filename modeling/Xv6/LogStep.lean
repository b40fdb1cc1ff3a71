import Xv6.LogCommit

/-! Every step of the machine keeps the invariant, from the start on, and is to
the store it implements the event it stands for, or nothing. -/
namespace Xv6.Log
open Function Xv6.BufferCache Xv6.RedoLog
variable {P : Type*} [DecidableEq P] [Fintype P]
variable {M : Mount P} {s t : Sys P} {l : Label P}

theorem boot_inv {disk : Nat → Data} (hdisk : M.Fits (M.head disk)) : Inv M (boot M disk) := by
  refine ⟨hdisk,fits_nil M,by simp [boot,openOps],fun q => ?_,_,_,
    .busy (p := M.initproc) (k := .readHead) ?_,
    (Bio.binit_coherent M.dev_ne disk).of_iff (fun _ => Iff.rfl) (by simp [Point.scratch])⟩
  · refine ⟨fun _ => ⟨?_,?_⟩,?_,?_,?_⟩
    · simp [boot,Bio.binit,Bio.refs,Call.refs]
    · simp [boot,Bio.binit]
    · simp [boot]
    · simp [boot]
    · simp only [boot]
      split
      · exact rfl
      · trivial
  · exact {
      pc := by simp [boot]
      alone := fun q j hj => by
        by_contra hq
        simp [boot,hq] at hj
      down := fun _ q hq => by simp [boot,hq]
      noOp := fun _ => rfl
      up := rfl
      committing := rfl
      cache := by simp [Point.Using,boot,Bio.Keeping,Bio.binit]
      loaded := trivial
      achieved := rfl }

theorem Inv.step (h : Inv M s) (hok : Bracketed M s l) (hs : step M s l=some t) :
    Shows M ((M.store s).replay (s.event l)) t := by
  cases l with
  | crash =>
    cases hs
    exact ⟨boot_inv h.head,fun x _ => ⟨rfl,rfl⟩⟩
  | request p r =>
    simp only [Log.step] at hs
    split at hs
    next hready =>
      obtain ⟨-,hup,hfs,hi⟩ := hready
      cases hs
      have hnot (j : Point) : s.pc p≠.log j := by simp [hfs]
      cases r with
      | bread dev x =>
        obtain ⟨rfl,hx⟩ := hok
        exact (h.bread hup hfs hi hx).shows
      | modify b d => exact h.modify hfs d hok.1 hok.2
      | logWrite b => exact Silent.shows (h.goto hup hnot (by simp) hok)
      | brelse b => exact (h.brelse hup hfs hi hok.1 hok.2).shows
      | beginOp => exact Silent.shows (h.goto hup hnot (by simp) hok)
      | endOp => exact Silent.shows (h.goto hup hnot (by simp) ⟨hok.2,hi,hok.1⟩)
    next => cases hs
  | run p =>
    simp only [Log.step] at hs
    split at hs
    next =>
      unfold Sys.run at hs
      split at hs
      next hi =>
        have hev (hpc : ∀ k, s.pc p≠.log k) : s.event (.run p)=[] := by
          refine if_neg fun hc => ?_
          obtain ⟨q,b,hq,hk,-⟩ := commits_iff.mp hc
          cases hq
          exact hpc _ hk
        cases hpc : s.pc p with
        | fs | asleep => simp [hpc] at hs
        | beginOp =>
          simp only [hpc,Option.some.injEq] at hs
          exact hs ▸ (h.beginOp hpc).quiet (hev (by simp [hpc]))
        | logWrite b =>
          simp only [hpc,Option.some.injEq] at hs
          exact hs ▸ (h.logWrite hpc).quiet (hev (by simp [hpc]))
        | endOp =>
          simp only [hpc,Option.some.injEq] at hs
          exact hs ▸ (h.endOp hpc).quiet (hev (by simp [hpc]))
        | log k =>
          simp only [hpc] at hs
          exact h.logStep hi hpc hs
      next hi =>
        have hev : s.event (.run p)=[] := by
          refine if_neg fun hc => ?_
          obtain ⟨q,b,hq,-,hidle,-⟩ := commits_iff.mp hc
          cases hq
          exact hi hidle
        obtain ⟨r,hr,rfl⟩ := Option.map_eq_some_iff.mp hs
        cases r with
        | error m => exact (h.panic m).quiet hev
        | ok bio => exact (h.advance hr).quiet hev
    next => cases hs

theorem Inv.commits (h : Inv M s) (hc : s.commits l=true) : s.up=true ∧ ∀ p, s.op p=false := by
  obtain ⟨p,b,-,hk,-⟩ := commits_iff.mp hc
  obtain ⟨hb,-⟩ := h.busy hk
  exact ⟨by simpa [Point.recovering] using hb.up,hb.noOp⟩

theorem Inv.durable (h : Inv M s) (hok : Bracketed M s l) (hs : Log.step M s l=some t) {x : Nat}
    (hx : M.Home x) : M.recovered t.bio.disk x =
      if s.commits l then s.bio.contents M.dev x else M.recovered s.bio.disk x := by
  refine ((h.step hok hs).2 x hx).2.trans ?_
  cases hc : s.commits l with
  | true =>
    obtain ⟨p,b,rfl,-⟩ := commits_iff.mp hc
    simp [Sys.event,hc,Store.replay,Store.apply,Mount.store,(h.commits hc).1]
  | false =>
    cases l with
    | request p r => cases r <;> rfl
    | run p => simp [Sys.event,hc,Store.replay,Mount.store]
    | crash => rfl

theorem Inv.settled (h : Inv M s) (hup : s.up=true) (hcom : s.committing=false) (x : Nat) :
    s.bio.disk x=M.recovered s.bio.disk x := by
  obtain ⟨_,_,hph,-⟩ := h.phase
  cases hph with
  | @busy p k hb =>
    have hr := hb.up
    have hc := hb.committing
    simp_all
  | quiet hq => exact (recovered_of_head_nil hq.head).symm

end Xv6.Log
