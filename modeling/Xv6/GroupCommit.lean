import Xv6.LogCrash

/-! The group commit of `kernel/log.c`: operations that overlap share one transaction, the last of
them to end commits it, and nobody joins or writes while it does. -/
namespace Xv6.Log
open Function Xv6.Machine Xv6.BufferCache
variable {P : Type*} {M : Mount P} {s t : Sys P} {p q : P} {l : Label P}

/-- A process calls `begin_op` outside an operation, `log_write` and `end_op`
inside one. -/
def Nested (s : Sys P) : Label P → Prop
  | .request p .beginOp => s.op p=false
  | .request p (.logWrite _) | .request p .endOp => s.op p=true
  | _ => True

instance (s : Sys P) : ∀ l, Decidable (Nested s l)
  | .request p .beginOp => inferInstanceAs (Decidable (s.op p=false))
  | .request p (.logWrite _) | .request p .endOp => inferInstanceAs (Decidable (s.op p=true))
  | .request _ (.bread _ _) | .request _ (.modify _ _) | .request _ (.brelse _) | .run _ | .crash =>
      inferInstanceAs (Decidable True)

/-- The points from the reset of `log.lh.n` on. -/
def Point.cleared : Point → Bool
  | .writeHead (.erase _) _ | .finish _ => true
  | _ => false

def Pc.Nests (op : Bool) : Pc → Prop
  | .fs => True
  | .beginOp | .asleep | .log _ => op=false
  | .logWrite _ | .endOp => op=true

/-- The log recovers, commits, or is open to operations. In a recovery nothing is
said of the header, which is what the disk holds. -/
inductive Mode (M : Mount P) (s : Sys P) : Prop
  | recovering (k : Point) (hpc : s.pc M.initproc=.log k) (hk : k.recovering=true)
      (hothers : ∀ q, q≠M.initproc → s.pc q=.fs) (hup : s.up=false)
      (hcom : s.committing=false) (hop : ∀ q, s.op q=false)
      (hcl : k.cleared=true → s.lh=[])
  | committing (p : P) (k : Point) (hpc : s.pc p=.log k) (hk : k.recovering=false)
      (hothers : ∀ q, q≠p → ∀ j, s.pc q≠.log j) (hup : s.up=true)
      (hcom : s.committing=true) (hop : ∀ q, s.op q=false)
      (hcl : k.cleared=true → s.lh=[]) (hnodup : s.lh.Nodup)
  | accepting (hpc : ∀ q j, s.pc q≠.log j) (hup : s.up=true) (hcom : s.committing=false)
      (hempty : s.outstanding=0 → s.lh=[]) (hnodup : s.lh.Nodup)
      (hfull : ∀ q, s.pc q=.asleep →
        (logSize : Int) < s.lh.length+(s.outstanding+1)*maxOpBlocks)

structure Group [Fintype P] (M : Mount P) (s : Sys P) : Prop where
  outstanding : s.outstanding=openOps s.op
  nests : ∀ p, (s.pc p).Nests (s.op p)
  calm : s.panicked≠some .logCommitting
  mode : Mode M s

theorem eq_of_log {j k : Point} (hq : s.pc q=.log j) (hp : s.pc p=.log k)
    (hothers : ∀ r, r≠q → ∀ i, s.pc r≠.log i) : p=q ∧ j=k := by
  obtain rfl : p=q := by
    by_contra hne
    exact hothers p hne k hp
  exact ⟨rfl,by simpa [hp] using hq.symm⟩

theorem wakeup_pc (s : Sys P) (q : P) :
    s.wakeup.pc q = if s.pc q=.asleep then .beginOp else s.pc q := rfl

theorem nests_wakeup {op : Bool} (h : (s.pc q).Nests op) : (s.wakeup.pc q).Nests op := by
  rw [wakeup_pc]
  split
  next ha =>
    rw [ha] at h
    exact h
  next => exact h

theorem wakeup_ne_asleep (s : Sys P) (q : P) : s.wakeup.pc q≠.asleep := by
  rw [wakeup_pc]
  split
  · simp
  · assumption

theorem wakeup_ne_log {j : Point} (h : s.pc q≠.log j) : s.wakeup.pc q≠.log j := by
  rw [wakeup_pc]
  split
  · simp
  · exact h

section Facts
variable [Fintype P] {k : Point} (h : Group M s)
include h

theorem Group.congr (hpc : t.pc=s.pc) (hop : t.op=s.op)
    (hout : t.outstanding=s.outstanding) (hcom : t.committing=s.committing) (hlh : t.lh=s.lh)
    (hup : t.up=s.up) (hcalm : t.panicked≠some .logCommitting) : Group M t := by
  refine ⟨by rw [hout,hop,h.outstanding],by simpa only [hpc,hop] using h.nests,hcalm,?_⟩
  cases h.mode with
  | recovering k h1 h2 h3 h4 h5 h6 h7 =>
    exact .recovering k (by rwa [hpc]) h2 (by rwa [hpc]) (by rwa [hup]) (by rwa [hcom]) (by rwa [hop])
      (by rwa [hlh])
  | committing p k h1 h2 h3 h4 h5 h6 h7 h8 =>
    exact .committing p k (by rwa [hpc]) h2 (by rwa [hpc]) (by rwa [hup]) (by rwa [hcom])
      (by rwa [hop]) (by rwa [hlh]) (by rwa [hlh])
  | accepting h1 h2 h3 h4 h5 h6 =>
    exact .accepting (by rwa [hpc]) (by rwa [hup]) (by rwa [hcom]) (by rwa [hout,hlh]) (by rwa [hlh])
      (by rwa [hpc,hlh,hout])

theorem Group.up_of_pc (hnot : ∀ j, s.pc p≠.log j) (hfs : s.pc p≠.fs) : s.up=true := by
  cases h.mode with
  | recovering k hpc _ hothers =>
    by_cases hp : p=M.initproc
    · exact absurd (hp ▸ hpc) (hnot k)
    · exact absurd (hothers p hp) hfs
  | committing _ _ _ _ _ hup | accepting _ hup => exact hup

theorem Group.commit (hup : s.up=true) (hpc : s.pc p=.log k) :
    s.committing=true ∧ s.outstanding=0 ∧ ∀ q, s.op q=false := by
  cases h.mode with
  | recovering _ _ _ _ hdown => cases hup.symm.trans hdown
  | committing _ _ _ _ _ _ hcom hno =>
    refine ⟨hcom,?_,hno⟩
    simp [h.outstanding,openOps,hno]
  | accepting hidle => exact absurd hpc (hidle p k)

theorem Group.of_log (hpc : s.pc p=.log k) :
    (s.up && !s.committing)=false ∧ (k.cleared=true → s.lh=[]) := by
  cases h.mode with
  | recovering j hj hr hothers hup hcom hno hnil =>
    obtain ⟨rfl,rfl⟩ := eq_of_log hj hpc fun r hr i => by simp [hothers r hr]
    exact ⟨by simp [hup],hnil⟩
  | committing q j hj hr hothers hup hcom hno hnil =>
    obtain ⟨rfl,rfl⟩ := eq_of_log hj hpc hothers
    exact ⟨by simp [hcom],hnil⟩
  | accepting hidle => exact absurd hpc (hidle p k)

theorem Group.no_op (hpc : s.pc p=.log k) (q : P) : s.op q=false := by
  cases h.mode with
  | recovering _ _ _ _ _ _ hno | committing _ _ _ _ _ _ _ hno => exact hno q
  | accepting hidle => exact absurd hpc (hidle p k)

theorem Group.of_op (hop : s.op p=true) : s.up=true ∧ s.committing=false := by
  cases h.mode with
  | recovering _ _ _ _ _ _ hno | committing _ _ _ _ _ _ _ hno =>
    cases hop.symm.trans (hno p)
  | accepting _ hup hcom => exact ⟨hup,hcom⟩

theorem Group.outstanding_pos (hop : s.op p=true) : 0 < s.outstanding := by
  have hpos := openOps_nonneg s.op
  have hne : openOps s.op≠0 := fun h0 => by simp [openOps_eq_zero h0 p] at hop
  rw [h.outstanding]
  omega

theorem Group.empty (hup : s.up=true) (hcom : s.committing=false)
    (hout : s.outstanding=0) : s.lh=[] := by
  cases h.mode with
  | recovering _ _ _ _ hdown => cases hup.symm.trans hdown
  | committing _ _ _ _ _ _ hc => cases hc.symm.trans hcom
  | accepting _ _ _ hempty => exact hempty hout

end Facts

structure Aside (p : P) (s t : Bio P) : Prop where
  dev : t.dev=s.dev
  blockno : t.blockno=s.blockno
  call : ∀ q, q≠p → t.call q=s.call q
  held : ∀ q, q≠p → t.held q=s.held q

theorem Aside.refl (p : P) (s : Bio P) : Aside p s s := ⟨rfl,rfl,fun _ _ => rfl,fun _ _ => rfl⟩

theorem Aside.setData (p : P) (s : Bio P) (b : Buf) (d : Data) : Aside p s (s.setData b d) :=
  ⟨rfl,rfl,fun _ _ => rfl,fun _ _ => rfl⟩

variable [DecidableEq P]

theorem Aside.bread (p : P) (s : Bio P) (d x : Nat) : Aside p s (s.bread p d x) :=
  ⟨rfl,rfl,fun q hq => by simp [Bio.bread,Bio.setCall,hq],fun _ _ => rfl⟩

theorem Aside.brelse (p : P) (s : Bio P) (b : Buf) : Aside p s (s.brelse p b) :=
  ⟨rfl,rfl,fun q hq => by simp [Bio.brelse,Bio.setCall,hq],
    fun q hq => by simp [Bio.brelse,Bio.setCall,hq]⟩

inductive Change (M : Mount P) (s : Sys P) : Label P → Sys P → Prop
  | request (p : P) (r : Request) (hup : s.up=true) (hfs : s.pc p=.fs) :
      Change M s (.request p r) (s.request p r)
  | cache (p : P) (bio : Bio P) (hi : s.bio.call p≠.idle)
      (hadv : s.bio.advance p=some (.ok bio)) : Change M s (.run p) { s with bio := bio }
  | panic (p : P) (m : Panic) (hp : s.bio.call p≠.idle ∨ ∃ k, s.pc p=.log k)
      (hm : m=.bgetNoBuffers ∨ m=.bwrite ∨ m=.brelse) : Change M s (.run p) (s.panic m)
  | beginOp (p : P) (hpc : s.pc p=.beginOp) (hi : s.bio.call p=.idle) :
      Change M s (.run p) (s.beginOp p)
  | logWrite (p : P) (b : Buf) (hpc : s.pc p=.logWrite b) (hi : s.bio.call p=.idle) :
      Change M s (.run p) (s.logWrite M p b)
  | endOp (p : P) (hpc : s.pc p=.endOp) (hi : s.bio.call p=.idle) :
      Change M s (.run p) (s.endOp p)
  | log (p : P) (k k' : Point) (bio : Bio P) (lh : List Nat) (hpc : s.pc p=.log k)
      (hrec : k'.recovering=k.recovering) (hlh : k.recovering=true ∨ lh=s.lh ∨ lh=[])
      (hcl : k'.cleared=true → lh=[] ∨ k.cleared=true ∧ lh=s.lh)
      (hbio : Aside p s.bio bio) :
      Change M s (.run p) ({ s with bio := bio, lh := lh }.goto p (.log k'))
  | initialised (p : P) (hpc : s.pc p=.log (.finish true)) :
      Change M s (.run p) ({ s with up := true }.goto p .fs)
  | committed (p : P) (hpc : s.pc p=.log (.finish false)) :
      Change M s (.run p) ({ s with committing := false }.wakeup.goto p .fs)
  | crash : Change M s .crash (boot M s.bio.disk)

theorem Change.goto {k : Point} (hpc : s.pc p=.log k) {bio : Bio P} (hbio : Aside p s.bio bio)
    (k' : Point) (hrec : k'.recovering=k.recovering) (hcl : k'.cleared=true → k.cleared=true) :
    Change M s (.run p) ({ s with bio := bio }.goto p (.log k')) :=
  .log p k k' bio s.lh hpc hrec (.inr (.inl rfl)) (fun h => .inr ⟨hcl h,rfl⟩) hbio

theorem Change.bwrite {k : Point} (hpc : s.pc p=.log k) (b : Buf) (k' : Point)
    (hrec : k'.recovering=k.recovering) (hcl : k'.cleared=true → k.cleared=true) :
    Change M s (.run p) (s.bwrite p b k') := by
  unfold Sys.bwrite Bio.bwrite
  split
  next bio hbio =>
    refine .goto hpc ?_ k' hrec hcl
    split at hbio <;> cases hbio
    exact ⟨rfl,rfl,fun _ _ => rfl,fun _ _ => rfl⟩
  next m hm =>
    refine .panic p m (.inr ⟨k,hpc⟩) (.inr (.inl ?_))
    split at hm
    · cases hm
    · exact (Except.error.inj hm).symm

theorem copyStep_change {c : Copy} {tail : Nat} {st : Stage} (hpc : s.pc p=.log (.copy c tail st))
    (hs : s.copyStep M p c tail st=some t) : Change M s (.run p) t := by
  have hrec {tail' : Nat} {st' : Stage} :
      (Point.copy c tail' st').recovering=(Point.copy c tail st).recovering := by cases c <;> rfl
  cases st with
  | test =>
    simp only [Sys.copyStep] at hs
    split at hs <;> cases hs
    · exact .goto hpc (.bread ..) _ hrec (by simp [Point.cleared])
    · refine .goto hpc (.refl p s.bio) _ (by cases c <;> rfl) ?_
      cases c <;> simp [Point.cleared,Copy.next,writeHead]
  | first =>
    obtain ⟨b,-,rfl⟩ := Option.map_eq_some_iff.mp hs
    exact .goto hpc (.bread ..) _ hrec (by simp [Point.cleared])
  | second l =>
    obtain ⟨b,-,rfl⟩ := Option.map_eq_some_iff.mp hs
    exact .goto hpc (.setData ..) _ hrec (by simp [Point.cleared])
  | write l d =>
    cases hs
    exact .bwrite hpc _ _ hrec (by simp [Point.cleared])
  | written l d =>
    cases hs
    refine .goto hpc ?_ _ hrec (by simp [Point.cleared])
    split
    · obtain ⟨h1,h2,h3,h4⟩ := Aside.brelse p (s.bio.bunpin d) (c.src l d)
      exact ⟨h1,h2,h3,h4⟩
    · exact .brelse ..
  | release b =>
    cases hs
    exact .goto hpc (.brelse ..) _ hrec (by simp [Point.cleared])

theorem writeHeadStep_change {u : HeadUse} {st : HeadStage} (hpc : s.pc p=.log (.writeHead u st))
    (hs : s.writeHeadStep M p u st=some t) : Change M s (.run p) t := by
  have hrec {st' : HeadStage} :
      (Point.writeHead u st').recovering=(Point.writeHead u st).recovering := by cases u <;> rfl
  have hcl {st' : HeadStage} :
      (Point.writeHead u st').cleared=true → (Point.writeHead u st).cleared=true := by
    cases u <;> simp [Point.cleared]
  cases st with
  | start =>
    cases hs
    exact .goto hpc (.bread ..) _ hrec hcl
  | reading =>
    obtain ⟨b,-,rfl⟩ := Option.map_eq_some_iff.mp hs
    exact .goto hpc (.setData ..) _ hrec hcl
  | write b =>
    cases hs
    exact .bwrite hpc _ _ hrec hcl
  | written b =>
    cases hs
    refine .goto hpc (.brelse ..) _ (by cases u <;> rfl) ?_
    cases u <;> simp [Point.cleared,HeadUse.next,installTrans]

theorem logStep_change {k : Point} (hpc : s.pc p=.log k) (hs : s.logStep M p k=some t) :
    Change M s (.run p) t := by
  cases k with
  | readHead =>
    cases hs
    exact .goto hpc (.bread ..) _ rfl (by simp [Point.cleared])
  | readHeadBuf =>
    obtain ⟨b,-,rfl⟩ := Option.map_eq_some_iff.mp hs
    exact .log p _ _ _ _ hpc rfl (.inl rfl) (by simp [Point.cleared,installTrans]) (.brelse ..)
  | commit =>
    cases hs
    by_cases hn : 0 < s.lh.length
    · rw [if_pos hn]
      exact .goto hpc (.refl p s.bio) _ rfl (by simp [Point.cleared,writeLog])
    · rw [if_neg hn]
      refine .log p _ _ s.bio s.lh hpc rfl (.inr (.inl rfl)) (fun _ => .inl ?_) (.refl p s.bio)
      simpa using hn
  | copy c tail st => exact copyStep_change hpc hs
  | clear r =>
    cases hs
    exact .log p _ _ s.bio [] hpc rfl (.inr (.inr rfl)) (fun _ => .inl rfl) (.refl p s.bio)
  | writeHead u st => exact writeHeadStep_change hpc hs
  | finish r =>
    cases r with
    | true =>
      cases hs
      exact .initialised p hpc
    | false =>
      cases hs
      exact .committed p hpc

theorem advance_error {bio : Bio P} {m : Panic} (h : bio.advance p=some (.error m)) :
    m=.bgetNoBuffers ∨ m=.bwrite ∨ m=.brelse := by
  unfold Bio.advance at h
  split at h
  next => cases h
  next d x _ =>
    have hget : bio.bget p d x=.error m := Option.some.inj h
    unfold Bio.bget at hget
    split at hget
    next => cases hget
    next =>
      split at hget <;> cases hget
      exact .inl rfl
  next b _ =>
    obtain ⟨_,_,h⟩ := Option.map_eq_some_iff.mp h
    cases h
  next b _ => cases h
  next b _ =>
    have hrel : bio.releasesleep p b=.error m := Option.some.inj h
    unfold Bio.releasesleep at hrel
    split at hrel <;> cases hrel
    exact .inr (.inr rfl)
  next b _ => cases h

theorem step_change (hs : step M s l=some t) : Change M s l t := by
  cases l with
  | crash =>
    cases hs
    exact .crash
  | request p r =>
    simp only [step] at hs
    split at hs
    next h =>
      cases hs
      exact .request p r h.2.1 h.2.2.1
    next => cases hs
  | run p =>
    simp only [step] at hs
    split at hs
    next =>
      unfold Sys.run at hs
      split at hs
      next hi =>
        cases hpc : s.pc p with
        | fs | asleep => simp [hpc] at hs
        | beginOp =>
          simp only [hpc,Option.some.injEq] at hs
          exact hs ▸ .beginOp p hpc hi
        | logWrite b =>
          simp only [hpc,Option.some.injEq] at hs
          exact hs ▸ .logWrite p b hpc hi
        | endOp =>
          simp only [hpc,Option.some.injEq] at hs
          exact hs ▸ .endOp p hpc hi
        | log k =>
          simp only [hpc] at hs
          exact logStep_change hpc hs
      next hi =>
        obtain ⟨r,hr,rfl⟩ := Option.map_eq_some_iff.mp hs
        cases r with
        | ok bio => exact .cache p bio hi hr
        | error m => exact .panic p m (.inl hi) (advance_error hr)
    next => cases hs

theorem goto_pc (s : Sys P) (p q : P) (k : Pc) : (s.goto p k).pc q = if q=p then k else s.pc q := by
  simp [Sys.goto,update_apply]

theorem nests_goto {k : Pc} (h : ∀ q, (s.pc q).Nests (s.op q))
    (hk : k.Nests (s.op p)) (q : P) : ((s.goto p k).pc q).Nests (s.op q) := by
  rw [goto_pc]
  split
  next hq => exact hq ▸ hk
  next => exact h q

section Keeps
variable [Fintype P]

theorem boot_group (M : Mount P) (disk : Nat → Data) : Group M (boot M disk) where
  outstanding := by simp [boot,openOps]
  nests q := by
    simp only [boot]
    split
    · exact rfl
    · trivial
  calm := by simp [boot]
  mode := .recovering .readHead (by simp [boot]) rfl (fun q hq => by simp [boot,hq]) rfl rfl
    (fun _ => rfl) (by simp [Point.cleared])

section Steps
variable (h : Group M s)
include h

theorem Group.move (hup : s.up=true) (hnot : ∀ j, s.pc p≠.log j) {k : Pc}
    (hk : ∀ j, k≠.log j) (hnest : k.Nests (s.op p)) (hfull : k=.asleep → s.committing=true ∨
      (logSize : Int) < s.lh.length+(s.outstanding+1)*maxOpBlocks) : Group M (s.goto p k) := by
  refine ⟨h.outstanding,nests_goto h.nests hnest,h.calm,?_⟩
  cases h.mode with
  | recovering _ _ _ _ hdown => cases hup.symm.trans hdown
  | committing q j hpc hj hothers hup hcom hop hcl hnodup =>
    have hqp : q≠p := fun e => hnot j (e ▸ hpc)
    refine .committing q j (by simpa [goto_pc,hqp] using hpc) hj (fun a ha i => ?_) hup hcom hop
      hcl hnodup
    rw [goto_pc]
    split
    · exact hk i
    · exact hothers a ha i
  | accepting hpc hup hcom hempty hnodup hasleep =>
    refine .accepting (fun a i => ?_) hup hcom hempty hnodup fun a ha => ?_
    · rw [goto_pc]
      split
      · exact hk i
      · exact hpc a i
    · rw [goto_pc] at ha
      split at ha
      · exact (hfull ha).resolve_left (by simp [hcom])
      · exact hasleep a ha

theorem Group.request (hup : s.up=true) (hfs : s.pc p=.fs) {r : Request}
    (hok : Nested s (.request p r)) : Group M (s.request p r) := by
  have hnot (j : Point) : s.pc p≠.log j := by simp [hfs]
  cases r with
  | bread d x | modify b d | brelse b => exact h.congr rfl rfl rfl rfl rfl rfl h.calm
  | logWrite b | beginOp | endOp => exact h.move hup hnot (by simp) hok (by simp)

theorem Group.beginOp (hpc : s.pc p=.beginOp) : Group M (s.beginOp p) := by
  have hnot (j : Point) : s.pc p≠.log j := by simp [hpc]
  have hop : s.op p=false := by simpa [hpc,Pc.Nests] using h.nests p
  have hup := h.up_of_pc hnot (by simp [hpc])
  unfold Sys.beginOp
  split_ifs with hcom hfull
  · exact h.move hup hnot (by simp) hop fun _ => .inl hcom
  · exact h.move hup hnot (by simp) hop fun _ => .inr hfull
  have hsum := openOps_update s.op (p := p) (v := true) hop
  refine ⟨by simpa [Sys.goto,h.outstanding] using hsum.symm,fun q => ?_,h.calm,?_⟩
  · simp only [Sys.goto,update_apply]
    split
    · trivial
    · exact h.nests q
  cases h.mode with
  | recovering _ _ _ _ hdown => cases hup.symm.trans hdown
  | committing _ _ _ _ _ _ hc => exact absurd hc hcom
  | accepting hidle hup hcom hempty hnodup hasleep =>
    have hpos : 0 ≤ s.outstanding := h.outstanding ▸ openOps_nonneg s.op
    refine .accepting (fun q j => ?_) hup hcom (fun hz => ?_) hnodup fun q hq => ?_
    · rw [goto_pc]
      split
      · simp
      · exact hidle q j
    · simp only [Sys.goto] at hz
      omega
    · rw [goto_pc] at hq
      split at hq
      · cases hq
      · have hlt := hasleep q hq
        omega

theorem Group.logWrite {b : Buf} (hpc : s.pc p=.logWrite b) : Group M (s.logWrite M p b) := by
  have hnot (j : Point) : s.pc p≠.log j := by simp [hpc]
  have hop : s.op p=true := by simpa [hpc,Pc.Nests] using h.nests p
  have hup := h.up_of_pc hnot (by simp [hpc])
  unfold Sys.logWrite
  split_ifs with hbig hout
  · exact h.congr rfl rfl rfl rfl rfl rfl (by simp [Sys.panic])
  · exact h.congr rfl rfl rfl rfl rfl rfl (by simp [Sys.panic])
  have hlog : Group M { s with logged := update s.logged p (b :: s.logged p) } :=
    h.congr rfl rfl rfl rfl rfl rfl h.calm
  dsimp only
  split_ifs with hmem
  · exact hlog.move hup hnot (by simp) trivial (by simp)
  refine ⟨h.outstanding,nests_goto h.nests trivial,h.calm,?_⟩
  cases h.mode with
  | recovering _ _ _ _ hdown => cases hup.symm.trans hdown
  | committing _ _ _ _ _ _ _ hno => cases hop.symm.trans (hno p)
  | accepting hidle hup hcom hempty hnodup hasleep =>
    refine .accepting (fun q j => ?_) hup hcom (fun hz => ?_) ?_ fun q hq => ?_
    · rw [goto_pc]
      split
      · simp
      · exact hidle q j
    · exact absurd hz (by simp only [Sys.goto]; omega)
    · exact List.nodup_append.mpr ⟨hnodup,by simp,fun x hx y hy => by
        rw [List.mem_singleton.mp hy]
        exact fun e => hmem (e ▸ hx)⟩
    · rw [goto_pc] at hq
      split at hq
      · cases hq
      · have hlt := hasleep q hq
        simp only [Sys.goto,List.length_append,List.length_singleton]
        push_cast
        omega

theorem Group.endOp (hpc : s.pc p=.endOp) : Group M (s.endOp p) := by
  have hnot (j : Point) : s.pc p≠.log j := by simp [hpc]
  have hop : s.op p=true := by simpa [hpc,Pc.Nests] using h.nests p
  have hup := h.up_of_pc hnot (by simp [hpc])
  have hsum := openOps_update s.op (p := p) (v := false) hop
  have hout : s.outstanding-1=openOps (update s.op p false) := by
    rw [h.outstanding,hsum]
    simp
    omega
  cases h.mode with
  | recovering _ _ _ _ hdown => cases hup.symm.trans hdown
  | committing _ _ _ _ _ _ _ hno => cases hop.symm.trans (hno p)
  | accepting hidle hup hcom hempty hnodup hasleep =>
    have hnests (q : P) (hq : q≠p) : (s.pc q).Nests (update s.op p false q) := by
      simpa [hq] using h.nests q
    simp only [Sys.endOp,hcom,Bool.false_eq_true,if_false]
    split_ifs with hz
    · have hnone (q : P) : update s.op p false q=false := openOps_eq_zero (hout ▸ hz) q
      refine ⟨hout,fun q => ?_,h.calm,.committing p .commit (by simp [goto_pc]) rfl
        (fun q hq j => ?_) hup rfl hnone (by simp [Point.cleared]) hnodup⟩
      · rw [goto_pc]
        split
        next hq => exact hnone q
        next hq => exact hnests q hq
      · rw [goto_pc,if_neg hq]
        exact hidle q j
    · refine ⟨hout,fun q => ?_,h.calm,.accepting (fun q j => ?_) hup rfl (fun h0 => absurd h0 hz)
        hnodup fun q hq => ?_⟩
      · rw [goto_pc]
        split
        next => trivial
        next hq => exact nests_wakeup (hnests q hq)
      · rw [goto_pc]
        split
        · simp
        · exact wakeup_ne_log (hidle q j)
      · rw [goto_pc] at hq
        split at hq
        · cases hq
        · exact absurd hq (wakeup_ne_asleep _ q)

theorem Group.log {k k' : Point} {bio : Bio P} {lh : List Nat}
    (hpc : s.pc p=.log k) (hrec : k'.recovering=k.recovering)
    (hlh : k.recovering=true ∨ lh=s.lh ∨ lh=[])
    (hcl : k'.cleared=true → lh=[] ∨ k.cleared=true ∧ lh=s.lh) :
    Group M ({ s with bio := bio, lh := lh }.goto p (.log k')) := by
  have hop : s.op p=false := by simpa [hpc,Pc.Nests] using h.nests p
  refine ⟨h.outstanding,nests_goto h.nests hop,h.calm,?_⟩
  cases h.mode with
  | recovering j hj hr hothers hup hcom hno hnil =>
    obtain ⟨rfl,rfl⟩ := eq_of_log hj hpc fun r hr i => by simp [hothers r hr]
    refine .recovering k' (by simp [goto_pc]) (hrec.trans hr) (fun q hq => ?_) hup hcom hno
      fun hc => ?_
    · rw [goto_pc,if_neg hq]
      exact hothers q hq
    · exact (hcl hc).elim id fun hkeep => hkeep.2.trans (hnil hkeep.1)
  | committing q j hj hr hothers hup hcom hno hnil hnodup =>
    obtain ⟨rfl,rfl⟩ := eq_of_log hj hpc hothers
    refine .committing p k' (by simp [goto_pc]) (hrec.trans hr) (fun q hq i => ?_) hup hcom hno
      (fun hc => ?_) ?_
    · rw [goto_pc,if_neg hq]
      exact hothers q hq i
    · exact (hcl hc).elim id fun hkeep => hkeep.2.trans (hnil hkeep.1)
    · obtain rfl | rfl := hlh.resolve_left (by simp [hr])
      · exact hnodup
      · exact List.nodup_nil
  | accepting hidle => exact absurd hpc (hidle p k)

theorem Group.initialised (hpc : s.pc p=.log (.finish true)) :
    Group M ({ s with up := true }.goto p .fs) := by
  refine ⟨h.outstanding,nests_goto h.nests trivial,h.calm,?_⟩
  cases h.mode with
  | recovering j hj hr hothers hup hcom hno hnil =>
    obtain ⟨rfl,rfl⟩ := eq_of_log hj hpc fun r hr i => by simp [hothers r hr]
    have hlh : s.lh=[] := hnil rfl
    have hfs (q : P) : ({ s with up := true }.goto M.initproc .fs).pc q=.fs := by
      rw [goto_pc]
      split
      · rfl
      · exact hothers q ‹_›
    exact .accepting (by simp [hfs]) rfl hcom (fun _ => hlh) (by simp [Sys.goto,hlh]) (by simp [hfs])
  | committing q j hj hr hothers =>
    obtain ⟨rfl,rfl⟩ := eq_of_log hj hpc hothers
    simp [Point.recovering] at hr
  | accepting hidle => exact absurd hpc (hidle p _)

theorem Group.committed (hpc : s.pc p=.log (.finish false)) :
    Group M ({ s with committing := false }.wakeup.goto p .fs) := by
  refine ⟨h.outstanding,fun q => ?_,h.calm,?_⟩
  · rw [goto_pc]
    split
    · trivial
    · exact nests_wakeup (h.nests q)
  cases h.mode with
  | recovering j hj hr hothers =>
    obtain ⟨rfl,rfl⟩ := eq_of_log hj hpc fun r hr i => by simp [hothers r hr]
    simp [Point.recovering] at hr
  | committing q j hj hr hothers hup hcom hno hnil =>
    obtain ⟨rfl,rfl⟩ := eq_of_log hj hpc hothers
    have hlh : s.lh=[] := hnil rfl
    refine .accepting (fun q i => ?_) hup rfl (fun _ => hlh) (by simp [Sys.goto,Sys.wakeup,hlh])
      fun q hq => ?_
    · rw [goto_pc]
      split
      · simp
      · exact wakeup_ne_log (hothers q ‹_› i)
    · rw [goto_pc] at hq
      split at hq
      · cases hq
      · exact absurd hq (wakeup_ne_asleep _ q)
  | accepting hidle => exact absurd hpc (hidle p _)

theorem Group.step (hok : Nested s l) (hs : Log.step M s l=some t) : Group M t := by
  cases step_change hs with
  | request p r hup hfs => exact h.request hup hfs hok
  | cache p bio hi => exact h.congr rfl rfl rfl rfl rfl rfl h.calm
  | panic p m hp hm =>
    refine h.congr rfl rfl rfl rfl rfl rfl ?_
    obtain rfl | rfl | rfl := hm <;> simp [Sys.panic]
  | beginOp p hpc hi => exact h.beginOp hpc
  | logWrite p b hpc hi => exact h.logWrite hpc
  | endOp p hpc hi => exact h.endOp hpc
  | log p k k' bio lh hpc hrec hlh hcl => exact h.log hpc hrec hlh hcl
  | initialised p hpc => exact h.initialised hpc
  | committed p hpc => exact h.committed hpc
  | crash => exact boot_group M s.bio.disk

theorem Group.not_joined (hcom : s.committing=true)
    (hq : s.pc q=.beginOp) (hs : Log.step M s (.run q)=some t) :
    t.op q=false ∧ t.outstanding=s.outstanding := by
  have hop : s.op q=false := by simpa [hq,Pc.Nests] using h.nests q
  cases step_change hs with
  | cache _ bio hi | panic _ m hp hm => exact ⟨hop,rfl⟩
  | beginOp => simp [Sys.beginOp,hcom,Sys.goto,hop]
  | logWrite _ b hpc | endOp _ hpc | log _ k k' bio lh hpc | initialised _ hpc | committed _ hpc =>
    simp [hq] at hpc

end Steps

/-- In every reachable state: a commit runs only while no operation is under way, and until it has
finished nobody writes to the log or joins; between transactions the log is empty; its blocks are
distinct; and nobody sleeps in `begin_op` who could go on. -/
theorem log_group_commit (M : Mount P) (disk : Nat → Data) (ls : List (Label P)) (t : Sys P)
    (hok : Along (Log.step M) (fun _ s l => Nested s l) [] (boot M disk) ls)
    (hrun : Machine.run (Log.step M) ls (boot M disk)=some t) :
    t.panicked≠some .logCommitting ∧ (t.up=true →
      (∀ p k, t.pc p=.log k → t.outstanding=0 ∧ (∀ q b, t.pc q≠.logWrite b) ∧
        (∀ q b, ¬ Nested t (.request q (.logWrite b))) ∧
        ∀ q u, t.pc q=.beginOp → Log.step M t (.run q)=some u →
          u.op q=false ∧ u.outstanding=0) ∧
      (t.outstanding=0 → t.committing=false → t.lh=[]) ∧ t.lh.Nodup ∧
      ∀ p, t.pc p=.asleep → ¬ (t.committing=false ∧
        (t.lh.length : Int)+(t.outstanding+1)*maxOpBlocks ≤ logSize)) := by
  have h : Group M t := run_induction (I := fun _ s => Group M s)
    (fun _ _ l _ h hok hs => h.step (l := l) hok hs) (boot_group M disk) hok hrun
  refine ⟨h.calm,fun hup => ⟨fun p k hpc => ?_,?_⟩⟩
  · obtain ⟨hcom,hout,hno⟩ := h.commit hup hpc
    refine ⟨hout,fun q b hq => ?_,fun q b hop => ?_,fun q u hq hs => ?_⟩
    · have hop : t.op q=true := by simpa [hq,Pc.Nests] using h.nests q
      cases hop.symm.trans (hno q)
    · exact absurd (Eq.trans (Eq.symm hop) (hno q)) (by simp)
    · obtain ⟨hop,hsame⟩ := h.not_joined hcom hq hs
      exact ⟨hop,hsame.trans hout⟩
  · cases h.mode with
    | recovering _ _ _ _ hdown => cases hup.symm.trans hdown
    | committing _ _ _ _ _ _ hcom _ _ hnodup => simp [hcom,hnodup]
    | accepting _ _ hcom hempty hnodup hfull =>
      refine ⟨fun hz _ => hempty hz,hnodup,fun p hp hroom => ?_⟩
      have hlt := hfull p hp
      omega

end Keeps

def writer : Fin 2 := Fin.last 1

def sleepsAtCommit : List (Label (Fin 2)) :=
  let reader := mkfsMount.initproc
  turns 19 reader++oneWrite++[.run writer, .request reader .beginOp, .run reader]

def sleepsAtCommitEnd : Sys (Fin 2) :=
  (Machine.run (Log.step mkfsMount) sleepsAtCommit (boot mkfsMount blankDisk)).get
    (by decide +kernel)

theorem sleepsAtCommit_open : sleepsAtCommitEnd.pc 0=.asleep ∧ sleepsAtCommitEnd.lh=[40] ∧
    sleepsAtCommitEnd.outstanding=0 := by
  refine ⟨by decide +kernel,by decide +kernel,?_⟩
  exact (((log_group_commit mkfsMount blankDisk sleepsAtCommit sleepsAtCommitEnd (by decide +kernel)
    (Option.some_get _).symm).2 (by decide +kernel)).1 1 .commit (by decide +kernel)).1

end Xv6.Log
