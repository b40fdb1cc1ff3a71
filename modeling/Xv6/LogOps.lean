import Xv6.LogPhase

/-! The steps of processes outside the log's code keep the invariant: their calls
of `bread` and `brelse`, their changes to buffers, and the critical sections of
`begin_op`, `log_write` and `end_op`. -/
namespace Xv6.Log
open Function Xv6.BufferCache
variable {P : Type*} {M : Mount P} {s t : Sys P} {p q : P} {k : Point}

theorem Point.Achieved.congr (h : k.Achieved M s) (hdisk : t.bio.disk=s.bio.disk)
    (hc : ∀ x, t.bio.contents M.dev x=s.bio.contents M.dev x) (hlh : t.lh=s.lh) :
    k.Achieved M t := by
  unfold Point.Achieved Copy.Progress Saved at h ⊢
  simpa only [hdisk,hc,hlh] using h

theorem Point.Using.stands (h : k.Using M s p) (hst : Bio.Stands M.dev s.bio t.bio p)
    (hlh : t.lh=s.lh) : k.Using M t p := by
  have hmem {rest : List Buf} (hk : s.bio.Keeping p rest) {b : Buf} (hb : b∈rest) :
      t.bio.blockno b=s.bio.blockno b := hst.blockno b (hk.1 ▸ hb)
  cases k with
  | readHead | commit | clear r | finish r => exact hst.keeping _ h
  | readHeadBuf => exact hst.fetching _ _ h
  | writeHead u st =>
    cases st with
    | start => exact hst.keeping _ h
    | reading => exact hst.fetching _ _ h
    | write b | written b => exact ⟨hst.keeping _ h.1,(hmem h.1 (by simp)).trans h.2⟩
  | copy c tail st =>
    cases st with
    | test | release b => exact hst.keeping _ h
    | first => exact hst.fetching _ _ h
    | second l =>
      refine ⟨by simpa only [hlh] using hst.fetching _ _ h.1,?_⟩
      exact (hst.blockno l (h.1.mem_held (by simp))).trans h.2
    | write l d | written l d =>
      refine ⟨hst.keeping _ h.1,(hmem h.1 (by simp)).trans h.2.1,?_⟩
      rw [hmem h.1 (by simp),hlh]
      exact h.2.2

theorem Point.Using.scratch (h : k.Using M s p) {b : Buf} (hb : b∈k.scratch) : b∈s.bio.held p := by
  cases k with
  | readHead | commit | clear r | finish r | readHeadBuf => simp [Point.scratch] at hb
  | writeHead u st =>
    cases st with
    | start | reading | written c => simp [Point.scratch] at hb
    | write c => exact h.1.1 ▸ hb
  | copy c tail st =>
    cases st with
    | test | release c | first | second l | written l d => simp [Point.scratch] at hb
    | write l d =>
      rw [h.1.1]
      cases c <;> simp_all [Point.scratch,Copy.dst]

theorem Point.Loaded.stands (h : k.Loaded M s) (hu : k.Using M s p)
    (hst : Bio.Stands M.dev s.bio t.bio p) (hlh : t.lh=s.lh) : k.Loaded M t := by
  have hmem {rest : List Buf} (hk : s.bio.Keeping p rest) {b : Buf} (hb : b∈rest) :
      b∈s.bio.held p := hk.1 ▸ hb
  cases k with
  | readHead | commit | clear r | finish r | readHeadBuf => trivial
  | writeHead u st =>
    cases st with
    | start | reading | written b => trivial
    | write b =>
      have hb := hmem hu.1 (b := b) (by simp)
      simp only [Loaded,hst.data b hb,hlh]
      exact h
  | copy c tail st =>
    cases st with
    | test | release b | first | second l => cases c <;> trivial
    | write l d =>
      have hl := hmem hu.1 (b := l) (by simp)
      have hd := hmem hu.1 (b := d) (by simp)
      simp only [Loaded,hst.data l hl,hst.data d hd,hst.disk]
      exact h
    | written l d =>
      have hd := hmem hu.1 (b := d) (by simp)
      cases c with
      | writeLog => trivial
      | installTrans r =>
        cases r with
        | true => trivial
        | false =>
          simp only [Loaded,hst.data d hd,hst.blockno d hd,hst.disk]
          exact h

theorem Busy.stands (h : Busy M s p k) (hst : Bio.Stands M.dev s.bio t.bio p) (hlh : t.lh=s.lh)
    (hpc : ∀ q j, t.pc q=.log j ↔ s.pc q=.log j) (hdown : t.up=false → t.pc=s.pc)
    (hop : ∀ q, t.op q=false) (hup : t.up=s.up) (hcom : t.committing=s.committing) :
    Busy M t p k where
  pc := (hpc p k).mpr h.pc
  alone q j hj := h.alone q j ((hpc q j).mp hj)
  down hd q hq := hdown hd ▸ h.down (hup ▸ hd) q hq
  noOp := hop
  up := hup.trans h.up
  committing := hcom.trans h.committing
  cache := h.cache.stands hst hlh
  loaded := h.loaded.stands h.cache hst hlh
  achieved := h.achieved.congr hst.disk hst.contents hlh

theorem Client.stands (h : Client M s q) (hst : Bio.Stands M.dev s.bio t.bio q)
    (hpc : t.pc q=s.pc q ∨ s.pc q=.asleep ∧ t.pc q=.beginOp) (hop : t.op q=s.op q)
    (hmod : t.modified q=s.modified q) (hlog : t.logged q=s.logged q)
    (hlh : ∀ x∈s.lh, x∈t.lh) : Client M t q where
  within hk := hst.within _ (h.within fun j hj => hk j (by
    rcases hpc with hpc | ⟨ha,-⟩
    · exact hpc.trans hj
    · simp [ha] at hj))
  modified b hb := by
    have hm := h.modified b (hmod ▸ hb)
    exact ⟨hst.held b hm.1,hop.trans hm.2⟩
  logged b hb := by
    have hl := h.logged b (hlog ▸ hb)
    refine ⟨hst.held b hl.1,hop.trans hl.2.1,hlh _ ?_⟩
    rw [hst.blockno b hl.1]
    exact hl.2.2
  bracket := by
    have hb := h.bracket
    rcases hpc with hpc | ⟨ha,hbegin⟩
    · rw [hpc]
      cases hk : s.pc q with
      | fs => trivial
      | beginOp | asleep | log k =>
        rw [hk] at hb
        exact hop.trans hb
      | logWrite b =>
        rw [hk] at hb
        exact ⟨hst.held b hb.1,hop.trans hb.2⟩
      | endOp =>
        rw [hk] at hb
        have hi := hst.idle hb.2.1
        exact ⟨hi.2.trans hb.1,hi.1,hop.trans hb.2.2⟩
    · rw [ha] at hb
      rw [hbegin]
      exact hop.trans hb

theorem store_eq (hup : t.up=s.up) (hdisk : t.bio.disk=s.bio.disk)
    (hc : ∀ x, t.bio.contents M.dev x=s.bio.contents M.dev x) : M.store t=M.store s := by
  have hcon : t.bio.contents M.dev=s.bio.contents M.dev := funext hc
  simp only [Mount.store,hup,hdisk,hcon]

theorem store_agree (hup : t.up=s.up)
    (hvol : s.up=true → ∀ x, M.Home x → t.bio.contents M.dev x=s.bio.contents M.dev x)
    (hdur : ∀ x, M.Home x → M.recovered t.bio.disk x=M.recovered s.bio.disk x) :
    (M.store t).Agree M.Home (M.store s) := by
  refine fun x hx => ⟨?_,hdur x hx⟩
  cases hs : s.up with
  | true => simpa [Mount.store,hup,hs] using hvol hs x hx
  | false => simpa [Mount.store,hup,hs] using hdur x hx

variable [DecidableEq P] [Fintype P]

/-- A step that keeps the invariant, and that is none to the store. -/
structure Silent (M : Mount P) (s t : Sys P) : Prop where
  inv : Inv M t
  store : M.store t=M.store s

/-- A step that keeps the invariant and brings the home blocks of the store to `σ`. -/
structure Shows (M : Mount P) (σ : RedoLog.Store Nat Data) (t : Sys P) : Prop where
  inv : Inv M t
  agree : (M.store t).Agree M.Home σ

theorem Silent.shows (h : Silent M s t) : Shows M (M.store s) t := ⟨h.inv,h.store ▸ .refl _ _⟩

theorem Shows.quiet {l : Label P} (h : Shows M (M.store s) t) (he : s.event l=[]) :
    Shows M ((M.store s).replay (s.event l)) t := by
  rw [he]
  exact h

theorem Silent.quiet {l : Label P} (h : Silent M s t) (he : s.event l=[]) :
    Shows M ((M.store s).replay (s.event l)) t := h.shows.quiet he

theorem openOps_update (op : P → Bool) {v : Bool} (hp : op p = !v) :
    openOps (update op p v)=openOps op + if v then 1 else -1 := by
  have hsum := sum_frame (p := p) (f := fun q => if op q then (1 : Int) else 0)
    (g := fun q => if update op p v q then (1 : Int) else 0) (fun q hq => by simp [hq])
  unfold openOps
  cases v <;> simp_all
  omega

omit [DecidableEq P] in
theorem openOps_nonneg (op : P → Bool) : 0 ≤ openOps op :=
  Finset.sum_nonneg fun p _ => by split <;> omega

omit [DecidableEq P] in
theorem openOps_eq_zero {op : P → Bool} (h : openOps op=0) (p : P) : op p=false := by
  have hall := (Finset.sum_eq_zero_iff_of_nonneg (f := fun p => if op p then (1 : Int) else 0)
    (fun p _ => by split <;> omega)).mp h p (Finset.mem_univ p)
  simpa using hall

variable (h : Inv M s)
include h

theorem Inv.busy (hk : s.pc p=.log k) :
    Busy M s p k ∧ s.bio.Coherent M.dev (k.pinned s.lh) (· ∈ k.scratch) := by
  obtain ⟨pinned,scratch,hph,hcoh⟩ := h.phase
  cases hph with
  | @busy q j hb =>
    obtain rfl := hb.alone p k hk
    obtain rfl : j=k := by simpa [hb.pc] using hk
    exact ⟨hb,hcoh⟩
  | quiet hq => exact absurd hk (hq.pc p k)

theorem Inv.quiet (hop : s.op p=true) : Quiet M s ∧
    s.bio.Coherent M.dev s.lh fun b => ∃ q, b∈s.modified q ∧ b∉s.logged q := by
  obtain ⟨pinned,scratch,hph,hcoh⟩ := h.phase
  cases hph with
  | busy hb => simp [hb.noOp p] at hop
  | quiet hq => exact ⟨hq,hcoh⟩

omit h in
theorem Inv.of_quiet (hq : Quiet M t) (hlh : M.Fits t.lh)
    (hout : t.outstanding=openOps t.op) (hclient : ∀ p, Client M t p)
    (hcoh : t.bio.Coherent M.dev t.lh fun b => ∃ q, b∈t.modified q ∧ b∉t.logged q) : Inv M t :=
  ⟨hq.head ▸ fits_nil M,hlh,hout,hclient,_,_,.quiet hq,hcoh⟩

theorem Inv.advance {bio : Bio P} (hadv : s.bio.advance p=some (.ok bio)) :
    Silent M s { s with bio := bio } := by
  obtain ⟨pinned,scratch,hph,hcoh⟩ := h.phase
  have hadv' := hcoh.advanced hadv
  have hst := hcoh.stands hadv'
  refine ⟨⟨?_,h.lh,h.outstanding,fun q => ?_,pinned,scratch,?_,hcoh.advance hadv'⟩,
    store_eq rfl (hst p).disk (hst p).contents⟩
  · exact (hst p).disk ▸ h.head
  · exact (h.client q).stands (hst q) (.inl rfl) rfl rfl rfl fun _ hx => hx
  · cases hph with
    | @busy q k hb =>
      exact .busy (hb.stands (hst q) rfl (fun _ _ => Iff.rfl) (fun _ => rfl) hb.noOp rfl rfl)
    | quiet hq => exact .quiet { hq with head := (hst p).disk ▸ hq.head }

theorem Inv.client_move (hup : s.up=true) (hnot : ∀ j, s.pc p≠.log j)
    (hnot' : ∀ j, t.pc p≠.log j) (hframe : Bio.Frame M.dev s.bio t.bio p)
    (hpc : ∀ q, q≠p → t.pc q=s.pc q) (hmod : ∀ q, q≠p → t.modified q=s.modified q)
    (hlog : ∀ q, q≠p → t.logged q=s.logged q)
    (hsame : t.lh=s.lh ∧ t.op=s.op ∧ t.outstanding=s.outstanding ∧ t.up=s.up ∧
      t.committing=s.committing) (hmark : ∀ b, (∃ q, b∈t.modified q ∧ b∉t.logged q) ↔
      ∃ q, b∈s.modified q ∧ b∉s.logged q) (hclient : Client M t p)
    (hcoh : ∀ pinned scratch, Phase M s pinned scratch → s.bio.Coherent M.dev pinned scratch →
      t.bio.Coherent M.dev pinned scratch) : Silent M s t := by
  obtain ⟨pinned,scratch,hph,hc⟩ := h.phase
  obtain ⟨hlh,hop,hout,htup,hcom⟩ := hsame
  have hc' := hcoh _ _ hph hc
  have hlogpc (q : P) (j : Point) : t.pc q=.log j ↔ s.pc q=.log j := by
    by_cases hq : q=p
    · subst hq
      exact ⟨fun hj => absurd hj (hnot' j),fun hj => absurd hj (hnot j)⟩
    · rw [hpc q hq]
  refine ⟨⟨hframe.disk ▸ h.head,hlh ▸ h.lh,?_,fun q => ?_,?_⟩,
    store_eq htup hframe.disk hframe.contents⟩
  · rw [hout,hop]
    exact h.outstanding
  · by_cases hq : q=p
    · exact hq ▸ hclient
    · exact (h.client q).stands (hframe.stands hc hq) (.inl (hpc q hq)) (congrFun hop q)
        (hmod q hq) (hlog q hq) fun x hx => hlh ▸ hx
  · cases hph with
    | @busy q k hb =>
      have hq : q≠p := fun hq => hnot k (hq ▸ hb.pc)
      have hb' : Busy M t q k := hb.stands (hframe.stands hc hq) hlh hlogpc
        (fun hd => absurd hup (by simp [← htup,hd])) (fun r => hop ▸ hb.noOp r) htup hcom
      exact ⟨_,_,.busy hb',hlh ▸ hc'⟩
    | quiet hq =>
      have hq' : Quiet M t := {
        pc := fun q j hj => hq.pc q j ((hlogpc q j).mp hj)
        up := htup.trans hq.up
        committing := hcom.trans hq.committing
        head := hframe.disk ▸ hq.head }
      exact ⟨_,_,.quiet hq',(hlh ▸ hc').of_iff (fun _ => Iff.rfl) hmark⟩

theorem Inv.goto (hup : s.up=true) {k : Pc} (hnot : ∀ j, s.pc p≠.log j)
    (hk : ∀ j, k≠.log j) (hb : k.Bracket s p) : Silent M s (s.goto p k) := by
  have hc := h.client p
  refine h.client_move (p := p) hup hnot (fun j => by simpa [Sys.goto] using hk j) (.refl _ _ _)
    (fun q hq => by simp [Sys.goto,hq]) (fun _ _ => rfl) (fun _ _ => rfl)
    ⟨rfl,rfl,rfl,rfl,rfl⟩ (fun _ => Iff.rfl) ?_ (fun _ _ _ hcoh => hcoh)
  exact {
    within := fun _ => hc.within hnot
    modified := hc.modified
    logged := hc.logged
    bracket := by
      simp only [Sys.goto,update_self]
      cases k with
      | fs => trivial
      | beginOp | asleep | logWrite b | endOp => exact hb
      | log j => exact absurd rfl (hk j) }

theorem Inv.bread (hup : s.up=true) (hfs : s.pc p=.fs)
    (hi : s.bio.call p=.idle) {x : Nat} (hx : M.Home x) :
    Silent M s { s with bio := s.bio.bread p M.dev x } := by
  have hc := h.client p
  refine h.client_move (p := p) hup (by simp [hfs]) (by simp [hfs]) (Bio.bread_frame _ _ _ _ _)
    (fun _ _ => rfl) (fun _ _ => rfl) (fun _ _ => rfl) ⟨rfl,rfl,rfl,rfl,rfl⟩ (fun _ => Iff.rfl) ?_
    (fun _ _ _ hcoh => hcoh.bread hi x)
  have hw := hc.within (by simp [hfs])
  exact {
    within := fun _ => by
      refine ⟨fun b hb => ?_,fun d y hy => ?_⟩
      · refine hw.1 b ?_
        simpa [Bio.refs,Bio.bread,Bio.setCall,Call.refs,hi] using hb
      · obtain ⟨-,rfl⟩ : M.dev=d ∧ x=y := by simpa [Bio.bread,Bio.setCall] using hy
        exact hx
    modified := hc.modified
    logged := hc.logged
    bracket := by
      rw [hfs]
      trivial }

theorem Inv.brelse (hup : s.up=true) (hfs : s.pc p=.fs)
    (hi : s.bio.call p=.idle) {b : Buf} (hb : b∈s.bio.held p)
    (hlogged : b∈s.modified p → b∈s.logged p) : Silent M s (s.request p (.brelse b)) := by
  have hc := h.client p
  have hw := hc.within (by simp [hfs])
  have hheld {c : Buf} (hcb : c≠b) (hcp : c∈s.bio.held p) :
      c∈(s.request p (.brelse b)).bio.held p := by
    simpa [Sys.request,Bio.brelse,Bio.setCall] using (List.mem_erase_of_ne hcb).mpr hcp
  have hfree : ¬∃ q, b∈s.modified q ∧ b∉s.logged q := by
    rintro ⟨q,hm,hl⟩
    obtain ⟨_,_,_,hcoh⟩ := h.phase
    obtain rfl := hcoh.held_unique hb ((h.client q).modified b hm).1
    exact hl (hlogged hm)
  refine h.client_move (p := p) hup (by simp [hfs]) (by simp [Sys.request,hfs])
    (Bio.brelse_frame _ _ _ _) (fun _ _ => rfl) (fun q hq => by simp [Sys.request,hq])
    (fun q hq => by simp [Sys.request,hq]) ⟨rfl,rfl,rfl,rfl,rfl⟩ (fun c => ?_) ?_ ?_
  · by_cases hcb : c=b
    · subst hcb
      refine ⟨?_,fun hs => absurd hs hfree⟩
      rintro ⟨q,hm,hl⟩
      by_cases hq : q=p
      · subst hq
        simp [Sys.request] at hm
      · exact ⟨q,by simpa [Sys.request,hq] using hm,by simpa [Sys.request,hq] using hl⟩
    · refine exists_congr fun q => ?_
      by_cases hq : q=p
      · subst hq
        simp [Sys.request,hcb]
      · simp [Sys.request,hq]
  · exact {
      within := fun _ => by
        refine ⟨fun c hcr => hw.1 c ?_,fun d y hy => ?_⟩
        · have hcr' : c∈b :: (s.bio.held p).erase b := by
            simpa [Bio.refs,Sys.request,Bio.brelse,Bio.setCall,Call.refs] using hcr
          exact Bio.mem_refs_of_held ((List.perm_cons_erase hb).mem_iff.mpr hcr')
        · simp [Sys.request,Bio.brelse,Bio.setCall] at hy
      modified := fun c hcm => by
        obtain ⟨hm,hcb⟩ : c∈s.modified p ∧ c≠b := by simpa [Sys.request] using hcm
        exact ⟨hheld hcb (hc.modified c hm).1,(hc.modified c hm).2⟩
      logged := fun c hcl => by
        obtain ⟨hl,hcb⟩ : c∈s.logged p ∧ c≠b := by simpa [Sys.request] using hcl
        exact ⟨hheld hcb (hc.logged c hl).1,(hc.logged c hl).2⟩
      bracket := by
        simp only [Sys.request,hfs]
        trivial }
  · intro pinned scratch hph hcoh
    refine hcoh.brelse hi hb ?_
    cases hph with
    | @busy q k hbusy =>
      intro hs
      obtain rfl := hcoh.held_unique hb (hbusy.cache.scratch hs)
      simpa [hfs] using hbusy.pc
    | quiet hq => exact hfree

theorem Inv.modify (hfs : s.pc p=.fs) {b : Buf} (d : Data) (hb : b∈s.bio.held p)
    (hop : s.op p=true) :
    Shows M ((M.store s).replay [.write (s.bio.blockno b) d]) (s.request p (.modify b d)) := by
  obtain ⟨hq,hcoh⟩ := h.quiet hop
  have hc := h.client p
  have hmod (q : P) (c : Buf) : c∈(s.request p (.modify b d)).modified q ↔
      c∈s.modified q ∨ q=p ∧ c=b := by
    by_cases hqp : q=p
    · subst hqp
      simp [Sys.request,or_comm]
    · simp [Sys.request,hqp]
  refine ⟨.of_quiet ⟨hq.pc,hq.up,hq.committing,hq.head⟩ h.lh h.outstanding (fun q => ?_) ?_,
    fun x _ => ⟨?_,rfl⟩⟩
  · have hcq := h.client q
    refine ⟨hcq.within,fun c hcm => ?_,hcq.logged,hcq.bracket⟩
    rcases (hmod q c).mp hcm with hm | ⟨rfl,rfl⟩
    · exact hcq.modified c hm
    · exact ⟨hb,hop⟩
  · refine hcoh.setData _ hb d ?_ (fun c => ?_) (fun c => ?_)
    · by_cases hl : b∈s.logged p
      · exact .inr (hc.logged b hl).2.2
      · exact .inl ⟨p,(hmod p b).mpr (.inr ⟨rfl,rfl⟩),hl⟩
    · rintro ⟨q,hm,hl⟩
      exact ⟨q,(hmod q c).mpr (.inl hm),hl⟩
    · rintro ⟨q,hm,hl⟩
      rcases (hmod q c).mp hm with hm | ⟨-,rfl⟩
      · exact .inl ⟨q,hm,hl⟩
      · exact .inr rfl
  · have hcon := hcoh.contents_setData hb d x
    simpa [Mount.store,Sys.request,hq.up,RedoLog.Store.replay,RedoLog.Store.apply] using hcon

theorem Inv.beginOp (hpc : s.pc p=.beginOp) : Silent M s (s.beginOp p) := by
  have hnot (j : Point) : s.pc p≠.log j := by simp [hpc]
  have hop : s.op p=false := by simpa [hpc,Pc.Bracket] using (h.client p).bracket
  obtain ⟨pinned,scratch,hph,hcoh⟩ := h.phase
  have hup : s.up=true := by
    cases hph with
    | @busy q k hb =>
      by_contra hd
      have hq : p≠q := fun hq => hnot k (hq ▸ hb.pc)
      simp [hb.down (by simpa using hd) p hq] at hpc
    | quiet hq => exact hq.up
  have hsleep := h.goto hup hnot (k := .asleep) (by simp) hop
  unfold Sys.beginOp
  split
  · exact hsleep
  split
  · exact hsleep
  next hcom _ =>
    cases hph with
    | @busy q k hb =>
      have hrec : k.recovering=false := by simpa [hup] using hb.up
      exact absurd (hb.committing.trans (by simp [hrec])) hcom
    | quiet hq =>
      refine ⟨.of_quiet ⟨fun q j => ?_,hq.up,hq.committing,hq.head⟩ h.lh ?_ (fun q => ?_) hcoh,
        store_eq rfl rfl fun _ => rfl⟩
      · by_cases hqp : q=p
        · simp [Sys.goto,hqp]
        · simpa [Sys.goto,hqp] using hq.pc q j
      · have hops := openOps_update s.op (v := true) hop
        have hout := h.outstanding
        simp only [Sys.goto,if_true] at hops ⊢
        omega
      · by_cases hqp : q=p
        · subst hqp
          have hcq := h.client q
          exact ⟨fun _ => hcq.within hnot,fun b hb => ⟨(hcq.modified b hb).1,by simp [Sys.goto]⟩,
            fun b hb => ⟨(hcq.logged b hb).1,by simp [Sys.goto],(hcq.logged b hb).2.2⟩,
            by simp [Sys.goto,Pc.Bracket]⟩
        · exact (h.client q).stands (.refl _ _ _) (.inl (by simp [Sys.goto,hqp]))
            (by simp [Sys.goto,hqp]) rfl rfl fun _ hx => hx

theorem Inv.join {b : Buf} (hpc : s.pc p=.logWrite b) {bio : Bio P} {lh : List Nat}
    (hst : ∀ q, Bio.Stands M.dev s.bio bio q) (hin : s.bio.blockno b∈lh)
    (hsub : ∀ x∈s.lh, x∈lh) (hfits : M.Fits lh)
    (hcoh : bio.Coherent M.dev lh fun c => ∃ q, c∈s.modified q ∧ c∉s.logged q) :
    Inv M ({ s with
      bio := bio, lh := lh, logged := update s.logged p (b :: s.logged p) }.goto p .fs) := by
  obtain ⟨hb,hop⟩ : b∈s.bio.held p ∧ s.op p=true := by
    simpa [hpc,Pc.Bracket] using (h.client p).bracket
  obtain ⟨hq,-⟩ := h.quiet hop
  have hlog (q : P) (c : Buf) : c∈update s.logged p (b :: s.logged p) q ↔
      c∈s.logged q ∨ q=p ∧ c=b := by
    by_cases hqp : q=p
    · subst hqp
      simp [or_comm]
    · simp [hqp]
  have hbin : bio.blockno b∈lh := by
    rw [(hst p).blockno b hb]
    exact hin
  refine .of_quiet ⟨fun q j => ?_,hq.up,hq.committing,(hst p).disk ▸ hq.head⟩ hfits h.outstanding
    (fun q => ?_) (hcoh.unmark (fun c => ?_) (fun c => ?_))
  · by_cases hqp : q=p
    · simp [Sys.goto,hqp]
    · simpa [Sys.goto,hqp] using hq.pc q j
  · by_cases hqp : q=p
    · subst hqp
      have hcq := h.client q
      refine ⟨fun _ => (hst q).within _ (hcq.within (hq.pc q)),
        fun c hc => ⟨(hst q).held c (hcq.modified c hc).1,hop⟩,fun c hc => ?_,
        by simp [Sys.goto,Pc.Bracket]⟩
      rcases (hlog q c).mp hc with hc | ⟨-,rfl⟩
      · obtain ⟨hheld,-,hno⟩ := hcq.logged c hc
        exact ⟨(hst q).held c hheld,hop,hsub _ ((hst q).blockno c hheld ▸ hno)⟩
      · exact ⟨(hst q).held c hb,hop,hbin⟩
    · exact (h.client q).stands (hst q) (.inl (by simp [Sys.goto,hqp])) rfl rfl
        (by simp [Sys.goto,hqp]) hsub
  · rintro ⟨q,hm,hl⟩
    by_cases hcb : c=b
    · exact .inr (hcb ▸ hbin)
    · refine .inl ⟨q,hm,fun hl' => ?_⟩
      rcases (hlog q c).mp hl' with hl' | ⟨-,hcb'⟩
      · exact hl hl'
      · exact hcb hcb'
  · rintro ⟨q,hm,hl⟩
    exact ⟨q,hm,fun hl' => hl ((hlog q c).mpr (.inl hl'))⟩

theorem Inv.panic (m : Panic) : Silent M s (s.panic m) := by
  refine ⟨⟨h.head,h.lh,h.outstanding,fun q => ?_,?_⟩,rfl⟩
  · exact (h.client q).stands (.refl _ _ _) (.inl rfl) rfl rfl rfl fun _ hx => hx
  · obtain ⟨pinned,scratch,hph,hcoh⟩ := h.phase
    refine ⟨pinned,scratch,?_,hcoh⟩
    cases hph with
    | busy hb =>
      exact .busy (hb.stands (.refl _ _ _) rfl (fun _ _ => Iff.rfl) (fun _ => rfl) hb.noOp rfl rfl)
    | quiet hq => exact .quiet ⟨hq.pc,hq.up,hq.committing,hq.head⟩

theorem Inv.logWrite {b : Buf} (hpc : s.pc p=.logWrite b) : Silent M s (s.logWrite M p b) := by
  obtain ⟨hb,hop⟩ : b∈s.bio.held p ∧ s.op p=true := by
    simpa [hpc,Pc.Bracket] using (h.client p).bracket
  obtain ⟨hq,hcoh⟩ := h.quiet hop
  have hhome : M.Home (s.bio.blockno b) :=
    ((h.client p).within (hq.pc p)).1 b (Bio.mem_refs_of_held hb)
  unfold Sys.logWrite
  split
  · exact h.panic _
  split
  · exact h.panic _
  next hroom _ =>
    dsimp only
    split
    next hin =>
      exact ⟨h.join hpc (.refl _ _) hin (fun _ hx => hx) h.lh hcoh,store_eq rfl rfl fun _ => rfl⟩
    next hnew =>
      have hfits : M.Fits (s.lh++[s.bio.blockno b]) := by
        refine ⟨?_,fun x hx => ?_,?_,?_⟩
        · exact List.nodup_append.mpr ⟨h.lh.nodup,by simp,by
            simpa using fun x hx (hxb : x=s.bio.blockno b) => hnew (hxb ▸ hx)⟩
        · rcases List.mem_append.mp hx with hx | hx
          · exact h.lh.home x hx
          · exact List.mem_singleton.mp hx ▸ hhome
        · simp only [List.length_append,List.length_singleton]
          omega
        · simp only [List.length_append,List.length_singleton]
          omega
      exact ⟨h.join hpc (Bio.bpin_stands _ _) (by simp) (by simp +contextual) hfits
        (hcoh.bpin hb hnew (by simp)),store_eq rfl rfl fun _ => rfl⟩

theorem Inv.endOp (hpc : s.pc p=.endOp) : Silent M s (s.endOp p) := by
  obtain ⟨hheld,hi,hop⟩ : s.bio.held p=[] ∧ s.bio.call p=.idle ∧ s.op p=true := by
    simpa [hpc,Pc.Bracket] using (h.client p).bracket
  obtain ⟨hq,hcoh⟩ := h.quiet hop
  have hcp := h.client p
  have hops : s.outstanding-1=openOps (update s.op p false) := by
    rw [openOps_update _ (by simpa using hop),h.outstanding]
    simp
    omega
  have hmod : s.modified p=[] := List.eq_nil_iff_forall_not_mem.mpr fun b hb => by
    simpa [hheld] using (hcp.modified b hb).1
  have hlog : s.logged p=[] := List.eq_nil_iff_forall_not_mem.mpr fun b hb => by
    simpa [hheld] using (hcp.logged b hb).1
  have hself {t : Sys P} (hbio : t.bio=s.bio) (hlh : t.lh=s.lh) (hm : t.modified=s.modified)
      (hl : t.logged=s.logged) (hb : (t.pc p).Bracket t p) : Client M t p := by
    refine ⟨fun _ => ?_,fun b hb => ?_,fun b hb => ?_,hb⟩
    · rw [hbio]
      exact hcp.within (hq.pc p)
    · simp [hm,hmod] at hb
    · simp [hl,hlog] at hb
  have hother {q : P} (hqp : q≠p) : update s.op p false q=s.op q := by simp [hqp]
  unfold Sys.endOp
  rw [if_neg (by simp [hq.committing])]
  split
  next hlast =>
    have hnone := openOps_eq_zero (hops.symm.trans hlast)
    refine ⟨⟨h.head,h.lh,hops,fun q => ?_,s.lh,(· ∈ Point.commit.scratch),?_,?_⟩,
      store_eq rfl rfl fun _ => rfl⟩
    · by_cases hqp : q=p
      · subst hqp
        exact hself rfl rfl rfl rfl (by simp [Sys.goto,Pc.Bracket])
      · exact (h.client q).stands (.refl _ _ _) (.inl (by simp [Sys.goto,hqp])) (hother hqp) rfl rfl
          fun _ hx => hx
    · refine .busy (p := p) (k := .commit) {
        pc := by simp [Sys.goto]
        alone := fun q j hj => ?_
        down := fun hd => absurd hq.up (by simpa [Sys.goto] using hd)
        noOp := hnone
        up := hq.up
        committing := rfl
        cache := ⟨hheld,by simp [Sys.goto,hi]⟩
        loaded := trivial
        achieved := hq.head }
      by_contra hqp
      exact hq.pc q j (by simpa [Sys.goto,hqp] using hj)
    · refine hcoh.of_iff (fun _ => Iff.rfl) fun b => ⟨fun hb => by simp [Point.scratch] at hb,?_⟩
      rintro ⟨q,hm,-⟩
      have hqop := ((h.client q).modified b hm).2
      by_cases hqp : q=p
      · subst hqp
        simp [hmod] at hm
      · have := hnone q
        simp [hqp,hqop] at this
  next hmore =>
    have hpcs (q : P) (hqp : q≠p) : (({ s with
          outstanding := s.outstanding-1, op := update s.op p false }.wakeup).goto p .fs).pc q =
        if s.pc q=.asleep then .beginOp else s.pc q := by simp [Sys.goto,Sys.wakeup,hqp]
    refine ⟨.of_quiet ⟨fun q j => ?_,hq.up,hq.committing,hq.head⟩ h.lh hops (fun q => ?_) hcoh,
      store_eq rfl rfl fun _ => rfl⟩
    · by_cases hqp : q=p
      · simp [Sys.goto,hqp]
      · rw [hpcs q hqp]
        split
        · simp
        · exact hq.pc q j
    · by_cases hqp : q=p
      · subst hqp
        exact hself rfl rfl rfl rfl (by simp [Sys.goto,Pc.Bracket])
      · refine (h.client q).stands (.refl _ _ _) ?_ (hother hqp) rfl rfl fun _ hx => hx
        rw [hpcs q hqp]
        split
        next ha => exact .inr ⟨ha,rfl⟩
        · exact .inl rfl

end Xv6.Log
