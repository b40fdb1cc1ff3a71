import Xv6.LogStep

/-! Recovery left alone completes: the first process never panics or waits in
`recover_from_log`, and each of its steps brings it closer to the end. -/
namespace Xv6.Log
open Function Xv6.Machine Xv6.BufferCache
variable {P : Type*} [DecidableEq P] [Fintype P]
variable {M : Mount P} {s t : Sys P} {k : Point}

structure Recovering (M : Mount P) (s : Sys P) (k : Point) : Prop where
  inv : Inv M s
  pc : s.pc M.initproc=.log k
  recovering : k.recovering=true
  calm : s.panicked=none
  others : ∀ q, q≠M.initproc → s.bio.call q=.idle ∧ s.bio.held q=[]

def Point.left (n : Nat) : Point → Nat
  | .finish _ => 1
  | .writeHead _ (.written _) => 2
  | .writeHead _ (.write _) => 3
  | .writeHead _ .reading => 4
  | .writeHead _ .start => 5
  | .clear _ => 6
  | .copy _ tail .test => 6*(n-tail)+7
  | .copy _ tail .first => 6*(n-tail)+6
  | .copy _ tail (.second _) => 6*(n-tail)+5
  | .copy _ tail (.write _ _) => 6*(n-tail)+4
  | .copy _ tail (.written _ _) => 6*(n-tail)+3
  | .copy _ tail (.release _) => 6*(n-tail)+2
  | .readHeadBuf => 6*n+8
  | .readHead => 6*n+9
  | .commit => 0

def callLeft : Call → Nat
  | .idle => 0
  | .fill _ | .unref _ => 1
  | .acquiresleep _ | .releasesleep _ => 2
  | .bget _ _ => 3

def Mount.left (M : Mount P) (s : Sys P) (k : Point) : Nat :=
  4*k.left (M.head s.bio.disk).length+callLeft (s.bio.call M.initproc)

omit [DecidableEq P] [Fintype P] in
theorem Busy.fetching {p : P} (h : Busy M s p k) (hlh : M.Fits s.lh) {d x : Nat} {b : Buf}
    (hc : s.bio.call p=.bget d x ∨ s.bio.call p=.acquiresleep b) :
    (s.bio.held p).length ≤ 1 ∧ (s.bio.call p=.acquiresleep b → b∉s.bio.held p) := by
  have hkeep {rest : List Buf} (hk : s.bio.Keeping p rest) : False := by
    rcases hc with hc | hc <;> simp [Bio.Keeping,hc] at hk
  have hempty {y : Nat} (hf : s.bio.Fetching p y []) : s.bio.held p=[] := by
    rcases hc with hc | hc
    · exact (by simpa [Bio.Fetching,hc] using hf : _ ∧ _).2
    · exact (by simpa [Bio.Fetching,hc] using hf : _ ∧ _).2
  have hcache := h.cache
  have hach := h.achieved
  cases k with
  | readHead | commit | clear r | finish r => exact (hkeep hcache).elim
  | readHeadBuf => simp [hempty hcache]
  | writeHead u st =>
    cases st with
    | start => exact (hkeep hcache).elim
    | write c | written c => exact (hkeep hcache.1).elim
    | reading => simp [hempty hcache]
  | copy c tail st =>
    cases st with
    | test | release c => exact (hkeep hcache).elim
    | write l d | written l d => exact (hkeep hcache.1).elim
    | first => simp [hempty hcache]
    | second l =>
      obtain ⟨hf,hl⟩ := hcache
      have hx := entry_ne_slot hlh (getD_of_lt hach.1) hach.1
      rcases hc with hc | hc
      · obtain ⟨-,hheld⟩ : _ ∧ s.bio.held p=[l] := by simpa [Bio.Fetching,hc] using hf
        simp [hheld,hc]
      · obtain ⟨hb,hheld⟩ : s.bio.blockno b=s.lh.getD tail 0 ∧ s.bio.held p=[l] := by
          simpa [Bio.Fetching,hc] using hf
        refine ⟨by simp [hheld],fun _ hmem => hx ?_⟩
        obtain rfl : b=l := by simpa [hheld] using hmem
        exact hb.symm.trans hl

omit [Fintype P] in
theorem callLeft_advanced {s t : Bio P} {p : P} (h : Bio.Advanced s p t) :
    callLeft (t.call p) < callLeft (s.call p) := by
  cases h with
  | hit hc hd hx | recycle hc hfree hx | acquiresleep hc hl | releasesleep hc =>
    simp [Bio.setCall,hc,callLeft]
  | @fill b hc => cases hv : s.valid b <;> simp [Bio.fill,hv,hc,callLeft]
  | unref hc => simp [Bio.unref,Bio.setCall,hc,callLeft]

def Nearer (M : Mount P) (s : Sys P) (k : Point) : Prop :=
  ∃ t, Log.step M s (.run M.initproc)=some t ∧
    ((t.up=true ∧ t.committing=false) ∨
      ∃ k', Recovering M t k' ∧ M.left t k' < M.left s k)

section Recovery
variable (h : Recovering M s k)
include h

theorem Recovering.busy : Busy M s M.initproc k ∧ s.bio.Coherent M.dev [] (· ∈ k.scratch) := by
  obtain ⟨hb,hcoh⟩ := h.inv.busy h.pc
  refine ⟨hb,hcoh.of_iff (fun x => ?_) fun _ => Iff.rfl⟩
  have hrec := h.recovering
  cases k with
  | readHead | readHeadBuf | clear r | finish r => simp [Point.pinned]
  | commit => simp [Point.recovering] at hrec
  | writeHead u st =>
    cases u with
    | commit => simp [Point.recovering] at hrec
    | erase r => simp [Point.pinned]
  | copy c tail st =>
    cases c with
    | writeLog => simp [Point.recovering] at hrec
    | installTrans r =>
      obtain rfl : r=true := hrec
      simp [Point.pinned]

theorem Recovering.free_lock {b : Buf}
    (hc : s.bio.call M.initproc=.acquiresleep b) : s.bio.lock b=none := by
  obtain ⟨hb,hcoh⟩ := h.busy
  cases hl : s.bio.lock b with
  | none => rfl
  | some q =>
    have hcount := hcoh.lock b q
    rw [if_pos hl] at hcount
    have hmem : b∈s.bio.locks q := List.count_pos_iff.mp (by omega)
    by_cases hq : q=M.initproc
    · subst hq
      have hheld : b∈s.bio.held M.initproc := by simpa [Bio.locks,hc,Call.locks] using hmem
      exact absurd hheld ((hb.fetching h.inv.lh (d := 0) (x := 0) (.inr hc)).2 hc)
    · simp [Bio.locks,h.others q hq,Call.locks] at hmem

theorem Recovering.free_buffer {d x : Nat}
    (hc : s.bio.call M.initproc=.bget d x) : s.bio.victim≠none := by
  obtain ⟨hb,hcoh⟩ := h.busy
  intro hn
  have hlen : (s.bio.held M.initproc).length ≤ 1 :=
    (hb.fetching h.inv.lh (b := ⟨0,by decide⟩) (.inl hc)).1
  obtain ⟨b,hfree⟩ : ∃ b, b∉s.bio.held M.initproc := by
    by_contra hall
    simp only [not_exists,not_not] at hall
    have hle : (List.finRange nbuf).length ≤ (s.bio.held M.initproc).length :=
      (List.nodup_finRange nbuf).length_le_of_subset fun b _ => hall b
    simp [nbuf] at hle
    omega
  refine hcoh.victim_none hn b ?_
  rw [hcoh.refcnt b,if_neg (by simp),Nat.add_zero]
  refine Finset.sum_eq_zero fun q _ => List.count_eq_zero.mpr fun hmem => ?_
  by_cases hq : q=M.initproc
  · subst hq
    exact hfree (by simpa [Bio.refs,hc,Call.refs] using hmem)
  · simp [Bio.refs,h.others q hq,Call.refs] at hmem

theorem Recovering.advances (hi : s.bio.call M.initproc≠.idle) :
    ∃ bio, s.bio.advance M.initproc=some (.ok bio) := by
  obtain ⟨-,hcoh⟩ := h.busy
  unfold Bio.advance
  cases hc : s.bio.call M.initproc with
  | idle => exact absurd hc hi
  | fill b | unref b => exact ⟨_,rfl⟩
  | acquiresleep b => exact ⟨_,by simp [Bio.acquiresleep,h.free_lock hc]; rfl⟩
  | releasesleep b =>
    have hl := hcoh.lock_eq (p := M.initproc) (b := b) (by simp [Bio.locks,hc,Call.locks])
    exact ⟨_,by simp [Bio.releasesleep,Bio.holdingsleep,hl]; rfl⟩
  | bget d x =>
    simp only [Bio.bget]
    cases s.bio.lookup d x with
    | some b => exact ⟨_,rfl⟩
    | none =>
      cases hv : s.bio.victim with
      | some b => exact ⟨_,rfl⟩
      | none => exact absurd hv (h.free_buffer hc)

theorem Recovering.of_step {k' : Point}
    (hs : Log.step M s (.run M.initproc)=some t) (hpc : t.pc M.initproc=.log k')
    (hrec : k'.recovering=true) (hcalm : t.panicked=none) (hothers : ∀ q, q≠M.initproc →
      t.bio.call q=s.bio.call q ∧ t.bio.held q=s.bio.held q) : Recovering M t k' where
  inv := (h.inv.step (l := .run M.initproc) trivial hs).1
  pc := hpc
  recovering := hrec
  calm := hcalm
  others q hq := by
    rw [(hothers q hq).1,(hothers q hq).2]
    exact h.others q hq

theorem Recovering.nearer_advance (hi : s.bio.call M.initproc≠.idle) : Nearer M s k := by
  obtain ⟨bio,hadv⟩ := h.advances hi
  obtain ⟨-,hcoh⟩ := h.busy
  have hadv' := hcoh.advanced hadv
  have hframe := hcoh.frame hadv'
  have hs : Log.step M s (.run M.initproc)=some { s with bio := bio } := by
    simp [Log.step,h.calm,Sys.run,hi,hadv]
  refine ⟨_,hs,.inr ⟨k,?_,?_⟩⟩
  · exact h.of_step hs h.pc h.recovering h.calm fun q hq => ⟨hframe.call q hq,hframe.held q hq⟩
  · have hless := callLeft_advanced hadv'
    simp only [Mount.left,hframe.disk]
    omega

theorem Recovering.step_eq (hi : s.bio.call M.initproc=.idle) :
    Log.step M s (.run M.initproc)=s.logStep M M.initproc k := by
  simp [Log.step,h.calm,Sys.run,hi,h.pc]

theorem Recovering.nearer_goto (hi : s.bio.call M.initproc=.idle)
    (k' : Point) (bio : Bio P) (lh : List Nat) (hs : s.logStep M M.initproc k =
      some ({ s with bio := bio, lh := lh }.goto M.initproc (.log k')))
    (hrec : k'.recovering=true)
    (hothers : ∀ q, q≠M.initproc → bio.call q=s.bio.call q ∧ bio.held q=s.bio.held q)
    (hleft : 4*k'.left (M.head bio.disk).length+callLeft (bio.call M.initproc) <
      4*k.left (M.head s.bio.disk).length) : Nearer M s k := by
  have hstep := (h.step_eq hi).trans hs
  refine ⟨_,hstep,.inr ⟨k',?_,?_⟩⟩
  · exact h.of_step hstep (by simp [Sys.goto]) hrec h.calm hothers
  · exact Nat.lt_of_lt_of_le hleft (Nat.le_add_right _ _)

section Steps
variable (hi : s.bio.call M.initproc=.idle)
include hi

theorem Recovering.nearer_bread (k' : Point) (x : Nat) (hs : s.logStep M M.initproc k =
      some ({ s with bio := s.bio.bread M.initproc M.dev x }.goto M.initproc (.log k')))
    (hrec : k'.recovering=true)
    (hleft : k'.left (M.head s.bio.disk).length < k.left (M.head s.bio.disk).length) :
    Nearer M s k := by
  have hframe := Bio.bread_frame M.dev s.bio M.initproc M.dev x
  refine h.nearer_goto hi k' _ s.lh hs hrec
    (fun q hq => ⟨hframe.call q hq,hframe.held q hq⟩) ?_
  simp only [Bio.bread,Bio.setCall,update_self,callLeft]
  omega

theorem Recovering.nearer_brelse (k' : Point) (b : Buf) (lh : List Nat)
    (hs : s.logStep M M.initproc k =
      some ({ s with bio := s.bio.brelse M.initproc b, lh := lh }.goto M.initproc (.log k')))
    (hrec : k'.recovering=true)
    (hleft : k'.left (M.head s.bio.disk).length < k.left (M.head s.bio.disk).length) :
    Nearer M s k := by
  have hframe := Bio.brelse_frame M.dev s.bio M.initproc b
  refine h.nearer_goto hi k' _ lh hs hrec
    (fun q hq => ⟨hframe.call q hq,hframe.held q hq⟩) ?_
  simp only [Bio.brelse,Bio.setCall,update_self,callLeft]
  omega

omit h in
theorem Recovering.nearer_copy {tail : Nat} {st : Stage}
    (h : Recovering M s (.copy (.installTrans true) tail st)) :
    Nearer M s (.copy (.installTrans true) tail st) := by
  obtain ⟨hb,hcoh⟩ := h.busy
  cases st with
  | test =>
    by_cases ht : tail < s.lh.length
    · refine h.nearer_bread hi (.copy (.installTrans true) tail .first) (M.slot tail)
        (by simp [Sys.logStep,Sys.copyStep,ht]) rfl ?_
      simp [Point.left]
    · refine h.nearer_goto hi (.clear true) s.bio s.lh
        (by simp [Sys.logStep,Sys.copyStep,ht,Copy.next]) rfl (fun _ _ => ⟨rfl,rfl⟩) ?_
      simp [Point.left,hi,callLeft]
      omega
  | first =>
    obtain ⟨l,hl,-⟩ := fetched hb.cache hi
    refine h.nearer_bread hi (.copy (.installTrans true) tail (.second l)) (s.lh.getD tail 0)
      (by simp [Sys.logStep,Sys.copyStep,hl]) rfl ?_
    simp [Point.left]
  | second l =>
    obtain ⟨d,hd,-⟩ := fetched hb.cache.1 hi
    refine h.nearer_goto hi (.copy (.installTrans true) tail (.write l d))
      (s.bio.setData d (s.bio.data l)) s.lh
      (by simp [Sys.logStep,Sys.copyStep,hd,Copy.src,Copy.dst]) rfl
      (fun _ _ => ⟨rfl,rfl⟩) ?_
    simp [Point.left,Bio.setData,hi,callLeft]
  | write l d =>
    have hp := hb.pair (.inl rfl)
    have hxs := home_ne_start (hp.homeEntry h.inv.lh)
    refine h.nearer_goto hi (.copy (.installTrans true) tail (.written l d))
      { s.bio with disk := update s.bio.disk (s.bio.blockno d) (s.bio.data d) } s.lh
      (by simp [Sys.logStep,Sys.copyStep,Copy.dst,bwrite_eq hcoh hp.memHome]) rfl
      (fun _ _ => ⟨rfl,rfl⟩) ?_
    rw [hp.home,head_update hxs]
    simp [Point.left,hi,callLeft]
  | written l d =>
    refine h.nearer_brelse hi (.copy (.installTrans true) tail (.release d)) l s.lh
      (by simp [Sys.logStep,Sys.copyStep,Copy.src,Copy.dst]) rfl ?_
    simp [Point.left]
  | release b =>
    have hhead : M.head s.bio.disk=s.lh := hb.achieved.2.1
    have ht := hb.achieved.1
    refine h.nearer_brelse hi (.copy (.installTrans true) (tail+1) .test) b s.lh
      (by simp [Sys.logStep,Sys.copyStep]) rfl ?_
    simp only [Point.left,hhead]
    omega

omit h in
theorem Recovering.nearer_writeHead {st : HeadStage}
    (h : Recovering M s (.writeHead (.erase true) st)) :
    Nearer M s (.writeHead (.erase true) st) := by
  obtain ⟨hb,hcoh⟩ := h.busy
  cases st with
  | start =>
    exact h.nearer_bread hi (.writeHead (.erase true) .reading) M.start
      (by simp [Sys.logStep,Sys.writeHeadStep]) rfl (by simp [Point.left])
  | reading =>
    obtain ⟨b,hb',-⟩ := fetched hb.cache hi
    refine h.nearer_goto hi (.writeHead (.erase true) (.write b))
      (s.bio.setData b (putHeader (s.bio.data b) s.lh)) s.lh
      (by simp [Sys.logStep,Sys.writeHeadStep,hb']) rfl (fun _ _ => ⟨rfl,rfl⟩) ?_
    simp [Point.left,Bio.setData,hi,callLeft]
  | write b =>
    obtain ⟨hkeep,-⟩ := hb.cache
    have hmem : b∈s.bio.held M.initproc := by
      have hheld : s.bio.held M.initproc=[b] := by simpa [Bio.Keeping,hi] using hkeep
      simp [hheld]
    refine h.nearer_goto hi (.writeHead (.erase true) (.written b))
      { s.bio with disk := update s.bio.disk (s.bio.blockno b) (s.bio.data b) } s.lh
      (by simp [Sys.logStep,Sys.writeHeadStep,bwrite_eq hcoh hmem]) rfl
      (fun _ _ => ⟨rfl,rfl⟩) ?_
    simp [Point.left,hi,callLeft]
  | written b =>
    exact h.nearer_brelse hi (.finish true) b s.lh
      (by simp [Sys.logStep,Sys.writeHeadStep,HeadUse.next]) rfl (by simp [Point.left])

theorem Recovering.nearer_logStep : Nearer M s k := by
  obtain ⟨hb,-⟩ := h.busy
  have hrec := h.recovering
  cases k with
  | readHead => exact h.nearer_bread hi .readHeadBuf M.start rfl rfl (by simp [Point.left])
  | readHeadBuf =>
    obtain ⟨b,hb',-⟩ := fetched hb.cache hi
    exact h.nearer_brelse hi (installTrans true) b (headerOf (s.bio.data b))
      (by simp [Sys.logStep,hb']) rfl (by simp [Point.left,installTrans])
  | commit => simp [Point.recovering] at hrec
  | clear r =>
    obtain rfl : r=true := hrec
    refine h.nearer_goto hi (writeHead (.erase true)) s.bio [] rfl rfl (fun _ _ => ⟨rfl,rfl⟩) ?_
    simp [Point.left,Log.writeHead,hi,callLeft]
  | finish r =>
    obtain rfl : r=true := hrec
    exact ⟨_,(h.step_eq hi).trans rfl,.inl ⟨rfl,hb.committing⟩⟩
  | writeHead u st =>
    cases u with
    | commit => simp [Point.recovering] at hrec
    | erase r =>
      obtain rfl : r=true := hrec
      exact h.nearer_writeHead hi
  | copy c tail st =>
    cases c with
    | writeLog => simp [Point.recovering] at hrec
    | installTrans r =>
      obtain rfl : r=true := hrec
      exact h.nearer_copy hi

end Steps

theorem Recovering.nearer : Nearer M s k := by
  by_cases hi : s.bio.call M.initproc=.idle
  · exact h.nearer_logStep hi
  · exact h.nearer_advance hi

theorem Recovering.durable (hs : Log.step M s (.run M.initproc)=some t)
    {x : Nat} (hx : M.Home x) : M.recovered t.bio.disk x=M.recovered s.bio.disk x := by
  have hno : ¬ s.commits (.run M.initproc)=true := by
    intro hc
    obtain ⟨p,b,hp,hpc,-⟩ := commits_iff.mp hc
    cases hp
    cases h.pc.symm.trans hpc
    simpa [Point.recovering] using h.recovering
  rw [h.inv.durable (l := .run M.initproc) trivial hs hx,if_neg hno]

theorem Recovering.completes :
    ∃ n u, run (Log.step M) (List.replicate n (.run M.initproc)) s=some u ∧
      u.up=true ∧ u.committing=false ∧
      ∀ x, M.Home x → u.bio.disk x=M.recovered s.bio.disk x := by
  induction hn : M.left s k using Nat.strong_induction_on generalizing s k with
  | _ m ih =>
    obtain ⟨t,hs,⟨hup,hcom⟩ | ⟨k',ht,hlt⟩⟩ := h.nearer
    · refine ⟨1,t,by simp [run,hs],hup,hcom,fun x hx => ?_⟩
      rw [(h.inv.step (l := .run M.initproc) trivial hs).1.settled hup hcom]
      exact h.durable hs hx
    · obtain ⟨n,u,hrun,hup,hcom,hdone⟩ := ih _ (hn ▸ hlt) ht rfl
      refine ⟨n+1,u,by simp [List.replicate_succ,run,hs,hrun],hup,hcom,fun x hx => ?_⟩
      exact (hdone x hx).trans (h.durable hs hx)

end Recovery

theorem boot_recovering {disk : Nat → Data} (h : M.Fits (M.head disk)) :
    Recovering M (boot M disk) .readHead where
  inv := boot_inv h
  pc := by simp [boot]
  recovering := rfl
  calm := rfl
  others _ _ := ⟨rfl,rfl⟩

end Xv6.Log
