import Xv6.LogOps

/-! The steps of `commit` and `recover_from_log` keep the invariant. Only one of
them changes what a crash would leave, the write of the header by which a
transaction is committed. -/
namespace Xv6.Log
open Function Xv6.BufferCache
variable {P : Type*} {M : Mount P} {s t : Sys P} {p : P} {k k' : Point} {lh : List Nat} {b d l : Buf}
variable {rest : List Buf} {x tail : Nat} {c : Copy} {r : Bool} {u : HeadUse}

theorem Point.mem_of_pinned (hx : x∈k.pinned lh) : x∈lh := by
  unfold Point.pinned at hx
  split at hx
  · exact hx
  · exact hx
  · exact hx
  · exact List.mem_of_mem_drop hx
  · exact List.mem_of_mem_drop hx
  all_goals simp at hx

structure Pair (M : Mount P) (s : Sys P) (p : P) (tail x : Nat) (l d : Buf) : Prop where
  held : s.bio.held p=[d,l]
  log : s.bio.blockno l=M.slot tail
  home : s.bio.blockno d=x
  entry : s.lh[tail]?=some x

section Pair
variable (hp : Pair M s p tail x l d)
include hp

theorem Pair.memLog : l∈s.bio.held p := by simp [hp.held]

theorem Pair.memHome : d∈s.bio.held p := by simp [hp.held]

theorem Pair.lt : tail < s.lh.length :=
  (List.getElem?_eq_some_iff.mp hp.entry).1

theorem Pair.memEntry : x∈s.lh := List.mem_of_getElem? hp.entry

theorem Pair.homeEntry (hf : M.Fits s.lh) : M.Home x :=
  hf.home x hp.memEntry

theorem Pair.ne (hf : M.Fits s.lh) : l≠d := fun hld =>
  home_ne_slot (hp.homeEntry hf) (hf.slot hp.lt) (by rw [← hp.home,← hld,hp.log])

end Pair

theorem entry_ne_slot (hf : M.Fits s.lh) {i : Nat} {y : Nat} (hy : s.lh[i]?=some y)
    (ht : tail < s.lh.length) : y≠M.slot tail :=
  home_ne_slot (hf.home y (List.mem_of_getElem? hy)) (hf.slot ht)

theorem entry_inj (hf : M.Fits s.lh) {i j : Nat} {y : Nat} (hi : s.lh[i]?=some y)
    (hj : s.lh[j]?=some y) : i=j := by
  obtain ⟨hilt,rfl⟩ := List.getElem?_eq_some_iff.mp hi
  obtain ⟨hjlt,hij⟩ := List.getElem?_eq_some_iff.mp hj
  exact (hf.nodup.getElem_inj_iff.mp hij).symm

theorem getD_of_lt (ht : tail < s.lh.length) : s.lh[tail]?=some (s.lh.getD tail 0) := by
  simp [ht]

theorem Busy.pair {st : Stage} (hb : Busy M s p (.copy c tail st))
    (hst : st=.write l d ∨ st=.written l d) : Pair M s p tail (s.lh.getD tail 0) l d := by
  rcases hst with rfl | rfl
  · exact ⟨hb.cache.1.1,hb.cache.2.1,hb.cache.2.2,getD_of_lt hb.achieved.1⟩
  · exact ⟨hb.cache.1.1,hb.cache.2.1,hb.cache.2.2,getD_of_lt hb.achieved.1⟩

theorem fetched (hf : s.bio.Fetching p x rest)
    (hi : s.bio.call p=.idle) : ∃ b, s.bio.held p=b::rest ∧ s.bio.blockno b=x := by
  simpa [Bio.Fetching,hi] using hf

section Steps
variable [DecidableEq P]

theorem keeping_of_brelse (hr : (s.bio.held p).erase b=rest) : (s.bio.brelse p b).Keeping p rest := by
  simp [Bio.Keeping,Bio.brelse,Bio.setCall,hr]

theorem fetching_of_bread (hr : s.bio.held p=rest) : (s.bio.bread p M.dev x).Fetching p x rest := by
  simp [Bio.Fetching,Bio.bread,Bio.setCall,hr]

variable [Fintype P]

theorem bwrite_eq {pinned : List Nat} {scratch : Buf → Prop}
    (hcoh : s.bio.Coherent M.dev pinned scratch) (hb : b∈s.bio.held p) (k' : Point) :
    s.bwrite p b k' = { s with
      bio := { s.bio with
        disk := update s.bio.disk (s.bio.blockno b) (s.bio.data b) } }.goto p (.log k') := by
  have hl : s.bio.holdingsleep p b=true := by
    simp [Bio.holdingsleep,hcoh.lock_eq (Bio.mem_locks_of_held hb)]
  simp [Sys.bwrite,Bio.bwrite,hl]

variable (h : Inv M s)
include h

theorem Inv.log_move (k' : Point) (bio : Bio P) (lh : List Nat)
    (hk : s.pc p=.log k) (hcall : ∀ q, q≠p → bio.call q=s.bio.call q)
    (hheld : ∀ q, q≠p → bio.held q=s.bio.held q) (hno : bio.blockno=s.bio.blockno)
    (hrec : k'.recovering=k.recovering) (hlh : M.Fits lh) (hhead : M.Fits (M.head bio.disk))
    (hcoh : bio.Coherent M.dev (k'.pinned lh) (· ∈ k'.scratch))
    (hcache : k'.Using M { s with bio := bio, lh := lh } p)
    (hloaded : k'.Loaded M { s with bio := bio, lh := lh })
    (hachieved : k'.Achieved M { s with bio := bio, lh := lh }) :
    Inv M ({ s with bio := bio, lh := lh }.goto p (.log k')) := by
  obtain ⟨hb,-⟩ := h.busy hk
  have hother (q : P) (hq : q≠p) (j : Point) : s.pc q≠.log j := fun hj => hq (hb.alone q j hj)
  have hmod (q : P) (b : Buf) : b∉s.modified q := fun hm => by
    simpa [hb.noOp q] using ((h.client q).modified b hm).2
  have hlog (q : P) (b : Buf) : b∉s.logged q := fun hl => by
    simpa [hb.noOp q] using ((h.client q).logged b hl).2.1
  refine ⟨hhead,hlh,h.outstanding,fun q => ?_,_,_,.busy (p := p) (k := k') ?_,hcoh⟩
  · refine ⟨fun hnot => ?_,fun b hm => absurd hm (hmod q b),fun b hl => absurd hl (hlog q b),?_⟩
    · have hq : q≠p := fun hq => hnot k' (by simp [Sys.goto,hq])
      have hw := (h.client q).within (hother q hq)
      refine ⟨fun b hbr => ?_,fun d x hx => hw.2 d x ((hcall q hq).symm.trans hx)⟩
      have hbs : b∈s.bio.refs q := by
        simpa [Bio.refs,Sys.goto,hcall q hq,hheld q hq] using hbr
      simpa [Sys.goto,hno] using hw.1 b hbs
    · by_cases hq : q=p
      · simpa [Sys.goto,hq,Pc.Bracket] using hb.noOp p
      · have hbr := (h.client q).bracket
        simp only [Sys.goto,ne_eq,hq,not_false_eq_true,update_of_ne]
        cases hpc : s.pc q with
        | fs => trivial
        | beginOp | asleep | log j => exact hb.noOp q
        | logWrite b => simp [hpc,Pc.Bracket,hb.noOp q] at hbr
        | endOp => simp [hpc,Pc.Bracket,hb.noOp q] at hbr
  · exact {
      pc := by simp [Sys.goto]
      alone := fun q j hj => by
        by_contra hq
        exact hother q hq j (by simpa [Sys.goto,hq] using hj)
      down := fun hd q hq => by
        simpa [Sys.goto,hq] using hb.down hd q hq
      noOp := hb.noOp
      up := by simpa [Sys.goto,hrec] using hb.up
      committing := by simpa [Sys.goto,hrec] using hb.committing
      cache := hcache
      loaded := hloaded
      achieved := hachieved }

theorem Inv.log_goto (hk : s.pc p=.log k) (hrec : k'.recovering=k.recovering)
    (hpin : ∀ y, y∈k'.pinned s.lh ↔ y∈k.pinned s.lh) (hscr : ∀ b, b∈k'.scratch ↔ b∈k.scratch)
    (hcache : k'.Using M s p) (hloaded : k'.Loaded M s) (hachieved : k'.Achieved M s) :
    Silent M s (s.goto p (.log k')) := by
  obtain ⟨-,hcoh⟩ := h.busy hk
  exact ⟨h.log_move _ s.bio s.lh hk (fun _ _ => rfl) (fun _ _ => rfl) rfl hrec h.lh
    h.head (hcoh.of_iff hpin hscr) hcache hloaded hachieved,store_eq rfl rfl fun _ => rfl⟩

theorem Inv.clear (hk : s.pc p=.log (.clear r)) :
    Silent M s ({ s with lh := [] }.goto p (.log (writeHead (.erase r)))) := by
  obtain ⟨hb,hcoh⟩ := h.busy hk
  obtain ⟨hhead,hin,-⟩ := hb.achieved
  refine ⟨?_,store_eq rfl rfl fun _ => rfl⟩
  exact h.log_move (writeHead (.erase r)) s.bio _ hk (fun _ _ => rfl) (fun _ _ => rfl)
    rfl rfl (fits_nil M) h.head hcoh hb.cache trivial ⟨rfl,hhead ▸ hin⟩

variable (hi : s.bio.call p=.idle)
include hi

theorem Inv.log_bread (hk : s.pc p=.log k) (x : Nat)
    (hrec : k'.recovering=k.recovering) (hpin : ∀ y, y∈k'.pinned s.lh ↔ y∈k.pinned s.lh)
    (hscr : ∀ b, b∈k'.scratch ↔ b∈k.scratch)
    (hcache : k'.Using M { s with bio := s.bio.bread p M.dev x } p)
    (hloaded : k'.Loaded M { s with bio := s.bio.bread p M.dev x }) (hachieved : k'.Achieved M s) :
    Silent M s ({ s with bio := s.bio.bread p M.dev x }.goto p (.log k')) := by
  have hframe := Bio.bread_frame M.dev s.bio p M.dev x
  obtain ⟨-,hcoh⟩ := h.busy hk
  refine ⟨?_,store_eq rfl rfl fun _ => rfl⟩
  exact h.log_move _ _ s.lh hk hframe.call hframe.held rfl hrec h.lh h.head
    ((hcoh.bread hi x).of_iff hpin hscr) hcache hloaded (hachieved.congr rfl (fun _ => rfl) rfl)

theorem Inv.log_brelse (hk : s.pc p=.log k)
    (hb : b∈s.bio.held p) (hns : b∉k.scratch) (hrec : k'.recovering=k.recovering)
    (hpin : ∀ y, y∈k'.pinned s.lh ↔ y∈k.pinned s.lh) (hscr : ∀ b, b∈k'.scratch ↔ b∈k.scratch)
    (hcache : k'.Using M { s with bio := s.bio.brelse p b } p)
    (hloaded : k'.Loaded M { s with bio := s.bio.brelse p b }) (hachieved : k'.Achieved M s) :
    Silent M s ({ s with bio := s.bio.brelse p b }.goto p (.log k')) := by
  have hframe := Bio.brelse_frame M.dev s.bio p b
  obtain ⟨-,hcoh⟩ := h.busy hk
  refine ⟨?_,store_eq rfl rfl fun _ => rfl⟩
  exact h.log_move _ _ s.lh hk hframe.call hframe.held rfl hrec h.lh h.head
    ((hcoh.brelse hi hb hns).of_iff hpin hscr) hcache hloaded
    (hachieved.congr rfl (fun _ => rfl) rfl)

theorem Inv.copy_test (hk : s.pc p=.log (.copy c tail .test))
    (hs : s.copyStep M p c tail .test=some t) : Silent M s t := by
  obtain ⟨hb,-⟩ := h.busy hk
  have hheld : s.bio.held p=[] := hb.cache.1
  by_cases ht : tail < s.lh.length
  · simp only [Sys.copyStep,ht,if_true,Option.some.injEq] at hs
    subst hs
    refine h.log_bread hi hk _ ?_ ?_ (fun _ => Iff.rfl) (fetching_of_bread hheld) ?_
      ⟨ht,hb.achieved⟩
    · cases c <;> rfl
    · rcases c with - | ⟨- | -⟩ <;> exact fun _ => Iff.rfl
    · rcases c with - | ⟨- | -⟩ <;> trivial
  · simp only [Sys.copyStep,ht,if_false,Option.some.injEq] at hs
    subst hs
    have hend : s.lh.length ≤ tail := by omega
    cases c with
    | writeLog =>
      refine h.log_goto hk rfl (fun _ => Iff.rfl) (fun _ => Iff.rfl) hb.cache trivial ?_
      exact ⟨hb.achieved.1,fun i x hi => hb.achieved.2 i x (by omega)⟩
    | installTrans r =>
      refine h.log_goto hk rfl ?_ (fun _ => Iff.rfl) hb.cache trivial ?_
      · cases r <;> simp [Copy.next,Point.pinned,List.drop_eq_nil_of_le hend]
      · obtain ⟨hhead,hin,hsaved⟩ := hb.achieved
        exact ⟨hhead,fun i x hi => hin i x (by omega),hsaved⟩

theorem Inv.copy_first (hk : s.pc p=.log (.copy c tail .first))
    (hs : s.copyStep M p c tail .first=some t) : Silent M s t := by
  obtain ⟨hb,-⟩ := h.busy hk
  obtain ⟨l,hheld,hl⟩ := fetched hb.cache hi
  simp only [Sys.copyStep,hheld,List.head?_cons,Option.map_some,Option.some.injEq] at hs
  subst hs
  refine h.log_bread hi hk _ ?_ ?_ (fun _ => Iff.rfl) ⟨fetching_of_bread hheld,hl⟩ ?_ hb.achieved
  · cases c <;> rfl
  · rcases c with - | ⟨- | -⟩ <;> exact fun _ => Iff.rfl
  · rcases c with - | ⟨- | -⟩ <;> trivial

theorem Inv.copy_release (hk : s.pc p=.log (.copy c tail (.release b)))
    (hs : s.copyStep M p c tail (.release b)=some t) : Silent M s t := by
  obtain ⟨hb,-⟩ := h.busy hk
  have hheld : s.bio.held p=[b] := hb.cache.1
  simp only [Sys.copyStep,Option.some.injEq] at hs
  subst hs
  refine h.log_brelse hi hk (by simp [hheld]) (by simp [Point.scratch]) ?_ ?_ (fun _ => Iff.rfl)
    (keeping_of_brelse (by simp [hheld])) ?_ hb.achieved.2
  · cases c <;> rfl
  · rcases c with - | ⟨- | -⟩ <;> exact fun _ => Iff.rfl
  · rcases c with - | ⟨- | -⟩ <;> trivial

theorem Inv.second_writeLog (hk : s.pc p=.log (.copy .writeLog tail (.second l)))
    (hp : Pair M s p tail x l d) :
    Shows M (M.store s) ({ s with bio := s.bio.setData l (s.bio.data d) }.goto p
        (.log (.copy .writeLog tail (.write l d)))) := by
  obtain ⟨hb,hcoh⟩ := h.busy hk
  obtain ⟨ht,hhead,hsaved⟩ := hb.achieved
  have hne := hp.ne h.lh
  have hcon {y : Nat} (hy : y≠M.slot tail) :
      (s.bio.setData l (s.bio.data d)).contents M.dev y=s.bio.contents M.dev y := by
    rw [hcoh.contents_setData hp.memLog,hp.log,update_of_ne hy]
  refine ⟨h.log_move (.copy .writeLog tail (.write l d)) _ s.lh hk (fun _ _ => rfl)
    (fun _ _ => rfl) rfl rfl h.lh h.head ?_ ?_ ?_ ?_,store_agree rfl (fun _ y hy => ?_) fun _ _ => rfl⟩
  · refine hcoh.setData _ hp.memLog _ (.inl (by simp [Point.scratch,Copy.dst])) ?_ ?_
    · simp [Point.scratch]
    · simp [Point.scratch,Copy.dst]
  · exact ⟨⟨hp.held,by simp [Bio.setData,hi]⟩,hp.log,
      hp.home.trans (Option.some.inj (hp.entry.symm.trans (getD_of_lt ht)))⟩
  · refine ⟨by simp [Bio.setData,hne.symm],fun hc => absurd rfl hc⟩
  · refine ⟨ht,hhead,fun i y hi hy => ?_⟩
    rw [hcon (entry_ne_slot h.lh hy ht)]
    exact hsaved i y hi hy
  · exact hcon (home_ne_slot hy (h.lh.slot ht))

theorem Inv.second_install (hk : s.pc p=.log (.copy (.installTrans r) tail (.second l)))
    (hp : Pair M s p tail x l d) :
    Shows M (M.store s) ({ s with bio := s.bio.setData d (s.bio.data l) }.goto p
        (.log (.copy (.installTrans r) tail (.write l d)))) := by
  obtain ⟨hb,hcoh⟩ := h.busy hk
  obtain ⟨ht,hhead,hin,hsaved⟩ := hb.achieved
  have hne := hp.ne h.lh
  have hlog : s.bio.data l=s.bio.disk (M.slot tail) := by
    rw [← hp.log]
    refine hcoh.clean l (hcoh.valid p l hp.memLog) (by simp [Point.scratch]) fun hin => ?_
    exact home_ne_slot (h.lh.home _ (Point.mem_of_pinned hin)) (h.lh.slot ht) hp.log
  -- at a commit the home block already contains what the log does
  have hcon (hup : s.up=true) (y : Nat) :
      (s.bio.setData d (s.bio.data l)).contents M.dev y=s.bio.contents M.dev y := by
    have hr : r=false := by simpa [hup,Point.recovering] using hb.up
    rw [hcoh.contents_setData hp.memHome,hp.home]
    by_cases hy : y=x
    · rw [hy,update_self,hlog]
      exact hsaved hr tail x ht hp.entry
    · rw [update_of_ne hy]
  refine ⟨h.log_move (.copy (.installTrans r) tail (.write l d)) _ s.lh hk
    (fun _ _ => rfl) (fun _ _ => rfl) rfl rfl h.lh h.head ?_ ?_ ?_ ?_,
    store_agree rfl (fun hup y _ => hcon hup y) fun _ _ => rfl⟩
  · refine Bio.Coherent.of_iff (hcoh.setData (· ∈ [d]) hp.memHome _
      (.inl (by simp)) (by simp [Point.scratch]) (by simp)) ?_ fun _ => Iff.rfl
    cases r <;> exact fun _ => Iff.rfl
  · exact ⟨⟨hp.held,by simp [Bio.setData,hi]⟩,hp.log,
      hp.home.trans (Option.some.inj (hp.entry.symm.trans (getD_of_lt ht)))⟩
  · refine ⟨by simp [Bio.setData,hne],fun _ => ?_⟩
    simpa [Bio.setData] using hlog
  · refine ⟨ht,hhead,hin,fun hr i y hi hy => ?_⟩
    rw [hcon (by simp [hb.up,Point.recovering,hr])]
    exact hsaved hr i y hi hy

theorem Inv.copy_second (hk : s.pc p=.log (.copy c tail (.second l)))
    (hs : s.copyStep M p c tail (.second l)=some t) : Shows M (M.store s) t := by
  obtain ⟨hb,-⟩ := h.busy hk
  obtain ⟨d,hheld,hd⟩ := fetched hb.cache.1 hi
  simp only [Sys.copyStep,hheld,List.head?_cons,Option.map_some,Option.some.injEq] at hs
  subst hs
  have hp : Pair M s p tail (s.lh.getD tail 0) l d := ⟨hheld,hb.cache.2,hd,getD_of_lt hb.achieved.1⟩
  cases c with
  | writeLog => exact h.second_writeLog hi hk hp
  | installTrans r => exact h.second_install hi hk hp

theorem Inv.write_writeLog (hk : s.pc p=.log (.copy .writeLog tail (.write l d)))
    (hp : Pair M s p tail x l d) :
    Shows M (M.store s) (s.bwrite p l (.copy .writeLog tail (.written l d))) := by
  obtain ⟨hb,hcoh⟩ := h.busy hk
  obtain ⟨ht,hhead,hsaved⟩ := hb.achieved
  have hcon := hcoh.contents_bwrite hp.memLog
  have hdata : s.bio.data l=s.bio.contents M.dev x := by
    rw [hb.loaded.1,← hp.home,hcoh.contents_held hp.memHome]
  rw [bwrite_eq hcoh hp.memLog,hp.log]
  rw [hp.log] at hcon
  have hhead' : M.head (update s.bio.disk (M.slot tail) (s.bio.data l))=M.head s.bio.disk :=
    head_update slot_ne_start
  refine ⟨h.log_move (.copy .writeLog tail (.written l d)) _ s.lh hk (fun _ _ => rfl)
    (fun _ _ => rfl) rfl rfl h.lh (hhead' ▸ h.head) ?_ ?_ trivial ?_,
    store_agree rfl (fun _ y _ => hcon y) fun y hy => ?_⟩
  · rw [← hp.log]
    exact hcoh.bwrite _ hp.memLog (by simp [Point.scratch,Copy.dst]) (by simp [Point.scratch])
  · exact ⟨⟨hp.held,by simp [hi]⟩,hp.log,hb.cache.2.2⟩
  · refine ⟨ht,hhead'.trans hhead,fun i y hit hy => ?_⟩
    rw [hcon y]
    by_cases hi : i=tail
    · subst hi
      obtain rfl : x=y := Option.some.inj (hp.entry.symm.trans hy)
      simpa using hdata
    · have hne : M.slot i≠M.slot tail := slot_ne_slot hi
      simpa [hne] using hsaved i y (by omega) hy
  · have hys : y≠M.slot tail := home_ne_slot hy (h.lh.slot ht)
    change M.recovered (update s.bio.disk (M.slot tail) (s.bio.data l)) y=_
    rw [recovered_of_head_nil (hhead'.trans hhead),recovered_of_head_nil hhead]
    exact update_of_ne hys _ _

theorem Inv.write_install (hk : s.pc p=.log (.copy (.installTrans r) tail (.write l d)))
    (hp : Pair M s p tail x l d) :
    Shows M (M.store s) (s.bwrite p d (.copy (.installTrans r) tail (.written l d))) := by
  obtain ⟨hb,hcoh⟩ := h.busy hk
  obtain ⟨ht,hhead,hin,hsaved⟩ := hb.achieved
  have hcon := hcoh.contents_bwrite hp.memHome
  have hdata : s.bio.data d=s.bio.disk (M.slot tail) := hb.loaded.2 (by simp)
  have hxs : x≠M.start := home_ne_start (hp.homeEntry h.lh)
  rw [bwrite_eq hcoh hp.memHome,hp.home]
  rw [hp.home] at hcon
  have hhead' : M.head (update s.bio.disk x (s.bio.data d))=M.head s.bio.disk := head_update hxs
  have hslot {i : Nat} (hi : i < s.lh.length) :
      update s.bio.disk x (s.bio.data d) (M.slot i)=s.bio.disk (M.slot i) :=
    update_of_ne (home_ne_slot (hp.homeEntry h.lh) (h.lh.slot hi)).symm _ _
  refine ⟨h.log_move (.copy (.installTrans r) tail (.written l d)) _ s.lh hk
    (fun _ _ => rfl) (fun _ _ => rfl) rfl rfl h.lh (hhead' ▸ h.head) ?_ ?_ ?_ ?_,
    store_agree rfl (fun _ y _ => hcon y) fun y hy => ?_⟩
  · rw [← hp.home]
    refine Bio.Coherent.of_iff (hcoh.bwrite (· ∈ []) hp.memHome
      (by simp [Point.scratch,Copy.dst]) (by simp)) ?_ fun _ => Iff.rfl
    cases r <;> exact fun _ => Iff.rfl
  · exact ⟨⟨hp.held,by simp [hi]⟩,hp.log,hb.cache.2.2⟩
  · cases r with
    | true => trivial
    | false => simp [Point.Loaded,hp.home]
  · refine ⟨ht,hhead'.trans hhead,fun i y hit hy => ?_,fun hr i y hit hy => ?_⟩
    · simp only [hslot (Nat.lt_of_lt_of_le hit ht)]
      by_cases hi : i=tail
      · subst hi
        obtain rfl : x=y := Option.some.inj (hp.entry.symm.trans hy)
        simpa using hdata
      · have hne : y≠x := fun hyx => hi (entry_inj h.lh (hyx ▸ hy) hp.entry)
        simpa [hne] using hin i y (by omega) hy
    · simp only [hslot hit]
      rw [hcon y]
      exact hsaved hr i y hit hy
  · change M.recovered (update s.bio.disk x (s.bio.data d)) y=_
    unfold Mount.recovered
    rw [hhead',hhead]
    refine RedoLog.recovered_congr (fun i hi => hslot hi) fun hy => ?_
    exact update_of_ne (fun hyx : y=x => hy (hyx ▸ hp.memEntry)) _ _

theorem Inv.copy_write (hk : s.pc p=.log (.copy c tail (.write l d)))
    (hs : s.copyStep M p c tail (.write l d)=some t) : Shows M (M.store s) t := by
  have hp := (h.busy hk).1.pair (.inl rfl)
  simp only [Sys.copyStep,Option.some.injEq] at hs
  subst hs
  cases c with
  | writeLog => exact h.write_writeLog hi hk hp
  | installTrans r => exact h.write_install hi hk hp

theorem Inv.copy_written (hk : s.pc p=.log (.copy c tail (.written l d)))
    (hs : s.copyStep M p c tail (.written l d)=some t) : Silent M s t := by
  obtain ⟨hb,hcoh⟩ := h.busy hk
  have hp := hb.pair (.inr rfl)
  have hne := hp.ne h.lh
  simp only [Sys.copyStep,Option.some.injEq] at hs
  subst hs
  cases c with
  | writeLog =>
    exact h.log_brelse hi hk hp.memHome (by simp [Point.scratch]) rfl (fun _ => Iff.rfl)
      (fun _ => Iff.rfl) (keeping_of_brelse (by simp [hp.held,Copy.src,Copy.dst])) trivial
      hb.achieved
  | installTrans r =>
    have hrest : (s.bio.held p).erase l=[d] := by simp [hp.held,hne.symm]
    cases r with
    | true =>
      exact h.log_brelse hi hk hp.memLog (by simp [Point.scratch]) rfl (fun _ => Iff.rfl)
        (fun _ => Iff.rfl) (keeping_of_brelse hrest) trivial hb.achieved
    | false =>
      have hdrop : s.lh.drop tail=s.lh.getD tail 0 :: s.lh.drop (tail+1) := by
        simp [hp.lt]
      have hnodup : (s.lh.getD tail 0 :: s.lh.drop (tail+1)).Nodup :=
        hdrop ▸ h.lh.nodup.sublist (List.drop_sublist _ _)
      have hframe := Bio.brelse_frame M.dev (s.bio.bunpin d) p l
      have hunpin := hcoh.bunpin (s.lh.drop (tail+1)) hp.memHome
        (by simp [Point.pinned,hdrop,hp.home]) hb.loaded fun y => by
          simp only [Point.pinned,hdrop,hp.home,List.mem_cons]
          grind
      exact ⟨h.log_move (.copy (.installTrans false) tail (.release d)) _ s.lh hk
        hframe.call hframe.held rfl rfl h.lh h.head
        (hunpin.brelse hi hp.memLog (by simp [Point.scratch]))
        (keeping_of_brelse (s := { s with bio := s.bio.bunpin d }) hrest) trivial
        (hb.achieved.congr rfl (fun _ => rfl) rfl),store_eq rfl rfl fun _ => rfl⟩

theorem Inv.copyStep {st : Stage} (hk : s.pc p=.log (.copy c tail st))
    (hs : s.copyStep M p c tail st=some t) : Shows M (M.store s) t := by
  cases st with
  | test => exact (h.copy_test hi hk hs).shows
  | first => exact (h.copy_first hi hk hs).shows
  | second l => exact h.copy_second hi hk hs
  | write l d => exact h.copy_write hi hk hs
  | written l d => exact (h.copy_written hi hk hs).shows
  | release b => exact (h.copy_release hi hk hs).shows

/-! `write_head` -/

theorem Inv.head_start (hk : s.pc p=.log (.writeHead u .start)) :
    Silent M s ({ s with bio := s.bio.bread p M.dev M.start }.goto p
      (.log (.writeHead u .reading))) := by
  obtain ⟨hb,-⟩ := h.busy hk
  refine h.log_bread hi hk _ ?_ ?_ (fun _ => Iff.rfl) (fetching_of_bread hb.cache.1) trivial ?_
  · cases u <;> rfl
  · cases u <;> exact fun _ => Iff.rfl
  · cases u <;> exact hb.achieved

theorem Inv.head_reading (hk : s.pc p=.log (.writeHead u .reading))
    (hheld : s.bio.held p=[b]) (hno : s.bio.blockno b=M.start) :
    Shows M (M.store s) ({ s with bio := s.bio.setData b (putHeader (s.bio.data b) s.lh) }.goto p
        (.log (.writeHead u (.write b)))) := by
  obtain ⟨hb,hcoh⟩ := h.busy hk
  have hmem : b∈s.bio.held p := by simp [hheld]
  have hcon {y : Nat} (hy : M.Home y) :
      (s.bio.setData b (putHeader (s.bio.data b) s.lh)).contents M.dev y =
        s.bio.contents M.dev y := by
    rw [hcoh.contents_setData hmem,hno,update_of_ne (home_ne_start hy)]
  have hsaved (hs : Saved M s s.lh.length) : Saved M
      { s with bio := s.bio.setData b (putHeader (s.bio.data b) s.lh) } s.lh.length :=
    fun i y hi hy => (hs i y hi hy).trans
      (hcon (h.lh.home y (List.mem_of_getElem? hy))).symm
  have hfit : s.lh.length < blockInts := by
    have := h.lh.le
    simp only [logSize,blockInts] at *
    omega
  refine ⟨h.log_move (.writeHead u (.write b)) _ s.lh hk (fun _ _ => rfl)
    (fun _ _ => rfl) rfl ?_ h.lh h.head ?_ ⟨⟨hheld,by simp [Bio.setData,hi]⟩,hno⟩ ?_ ?_,
    store_agree rfl (fun _ y hy => hcon hy) fun _ _ => rfl⟩
  · cases u <;> rfl
  · refine Bio.Coherent.of_iff (hcoh.setData (· ∈ [b]) hmem _ (.inl (by simp))
      (by simp [Point.scratch]) (by simp)) ?_ fun _ => Iff.rfl
    cases u <;> exact fun _ => Iff.rfl
  · simpa [Point.Loaded,Bio.setData] using headerOf_putHeader (s.bio.data b) hfit
  · cases u with
    | commit => exact ⟨hb.achieved.1,hsaved hb.achieved.2⟩
    | erase r => exact hb.achieved

theorem Inv.head_commit (hk : s.pc p=.log (.writeHead .commit (.write b))) :
    Shows M ((M.store s).apply .commit) (s.bwrite p b (.writeHead .commit (.written b))) := by
  obtain ⟨hb,hcoh⟩ := h.busy hk
  obtain ⟨⟨hheld,-⟩,hno⟩ := hb.cache
  obtain ⟨hhead,hsaved⟩ := hb.achieved
  have hmem : b∈s.bio.held p := by simp [hheld]
  have hup : s.up=true := by simpa [Point.recovering] using hb.up
  have hcon := hcoh.contents_bwrite hmem
  rw [bwrite_eq hcoh hmem,hno]
  rw [hno] at hcon
  have hhead' : M.head (update s.bio.disk M.start (s.bio.data b))=s.lh := by
    have hl : headerOf (s.bio.data b)=s.lh := hb.loaded
    simpa [Mount.head] using hl
  have hslot (i : Nat) : update s.bio.disk M.start (s.bio.data b) (M.slot i) =
      s.bio.disk (M.slot i) := update_of_ne slot_ne_start _ _
  refine ⟨h.log_move (.writeHead .commit (.written b)) _ s.lh hk (fun _ _ => rfl)
    (fun _ _ => rfl) rfl rfl h.lh (hhead' ▸ h.lh) ?_ ⟨⟨hheld,by simp [hi]⟩,hno⟩ trivial ?_,
    fun y hy => ?_⟩
  · rw [← hno]
    exact hcoh.bwrite _ hmem (by simp [Point.scratch]) (by simp [Point.scratch])
  · refine ⟨hhead',fun i y hi hy => ?_⟩
    simp only [hslot]
    rw [hcon y]
    exact hsaved i y hi hy
  · have hrec : M.recovered (update s.bio.disk M.start (s.bio.data b)) y =
        s.bio.contents M.dev y := by
      unfold Mount.recovered
      rw [hhead']
      refine RedoLog.recovered_eq (fun i z hz => ?_) fun hy' => ?_
      · simp only [hslot]
        exact hsaved i z (List.getElem?_eq_some_iff.mp hz).1 hz
      · rw [update_of_ne (home_ne_start hy)]
        refine (hcoh.contents_clean (x := y) hy' fun c hc => ?_).symm
        obtain rfl : c=b := by simpa [Point.scratch] using hc
        rw [hno]
        exact (home_ne_start hy).symm
    constructor
    · simpa [Mount.store,Sys.goto,hup,RedoLog.Store.apply] using hcon y
    · simpa [Mount.store,Sys.goto,hup,RedoLog.Store.apply] using hrec

theorem Inv.head_erase (hk : s.pc p=.log (.writeHead (.erase r) (.write b))) :
    Shows M (M.store s) (s.bwrite p b (.writeHead (.erase r) (.written b))) := by
  obtain ⟨hb,hcoh⟩ := h.busy hk
  obtain ⟨⟨hheld,-⟩,hno⟩ := hb.cache
  obtain ⟨hlh,hin⟩ := hb.achieved
  have hmem : b∈s.bio.held p := by simp [hheld]
  have hcon := hcoh.contents_bwrite hmem
  rw [bwrite_eq hcoh hmem,hno]
  rw [hno] at hcon
  have hhead' : M.head (update s.bio.disk M.start (s.bio.data b))=[] := by
    have hl : headerOf (s.bio.data b)=s.lh := hb.loaded
    simpa [Mount.head,hlh] using hl
  refine ⟨h.log_move (.writeHead (.erase r) (.written b)) _ s.lh hk (fun _ _ => rfl)
    (fun _ _ => rfl) rfl rfl h.lh (hhead' ▸ fits_nil M) ?_ ⟨⟨hheld,by simp [hi]⟩,hno⟩ trivial
    ⟨hlh,hhead'⟩,store_agree rfl (fun _ y _ => hcon y) fun y hy => ?_⟩
  · rw [← hno]
    exact hcoh.bwrite _ hmem (by simp [Point.scratch]) (by simp [Point.scratch])
  · change M.recovered (update s.bio.disk M.start (s.bio.data b)) y=_
    rw [recovered_of_head_nil hhead',update_of_ne (home_ne_start hy)]
    refine (RedoLog.recovered_eq (fun i z hz => ?_) fun _ => rfl).symm
    exact (hin i z (List.getElem?_eq_some_iff.mp hz).1 hz).symm

theorem Inv.head_written (hk : s.pc p=.log (.writeHead u (.written b))) :
    Silent M s ({ s with bio := s.bio.brelse p b }.goto p (.log u.next)) := by
  obtain ⟨hb,-⟩ := h.busy hk
  have hheld : s.bio.held p=[b] := hb.cache.1.1
  have hkeep : (s.bio.brelse p b).Keeping p [] := keeping_of_brelse (by simp [hheld])
  cases u with
  | commit =>
    refine h.log_brelse hi hk (by simp [hheld]) (by simp [Point.scratch]) rfl
      (fun _ => by simp [HeadUse.next,installTrans,Point.pinned]) (fun _ => Iff.rfl) hkeep trivial
      ⟨hb.achieved.1,fun i y hi => by omega,fun _ => hb.achieved.2⟩
  | erase r =>
    exact h.log_brelse hi hk (by simp [hheld]) (by simp [Point.scratch]) rfl (fun _ => Iff.rfl)
      (fun _ => Iff.rfl) hkeep trivial hb.achieved

theorem Inv.writeHeadStep {st : HeadStage} (hk : s.pc p=.log (.writeHead u st))
    (hs : s.writeHeadStep M p u st=some t) : Shows M ((M.store s).replay (s.event (.run p))) t := by
  obtain ⟨hb,hcoh⟩ := h.busy hk
  cases st with
  | start =>
    simp only [Sys.writeHeadStep,Option.some.injEq] at hs
    exact hs ▸ (h.head_start hi hk).quiet (by simp [Sys.event,Sys.commits,hk])
  | reading =>
    obtain ⟨b,hheld,hno⟩ := fetched hb.cache hi
    simp only [Sys.writeHeadStep,hheld,List.head?_cons,Option.map_some,Option.some.injEq] at hs
    exact hs ▸ (h.head_reading hi hk hheld hno).quiet (by simp [Sys.event,Sys.commits,hk])
  | written b =>
    simp only [Sys.writeHeadStep,Option.some.injEq] at hs
    exact hs ▸ (h.head_written hi hk).quiet (by simp [Sys.event,Sys.commits,hk])
  | write b =>
    simp only [Sys.writeHeadStep,Option.some.injEq] at hs
    subst hs
    cases u with
    | erase r => exact (h.head_erase hi hk).quiet (by simp [Sys.event,Sys.commits,hk])
    | commit =>
      have hmem : b∈s.bio.held p := by
        rw [hb.cache.1.1]
        simp
      have hc : s.commits (.run p)=true := by
        simp [Sys.commits,hk,hi,Bio.holdingsleep,hcoh.lock_eq (Bio.mem_locks_of_held hmem)]
      simpa [Sys.event,hc,RedoLog.Store.replay] using h.head_commit hi hk

theorem Inv.readHeadBuf (hk : s.pc p=.log .readHeadBuf)
    (hheld : s.bio.held p=[b]) (hno : s.bio.blockno b=M.start) :
    Silent M s ({ s with lh := headerOf (s.bio.data b), bio := s.bio.brelse p b }.goto p
        (.log (installTrans true))) := by
  obtain ⟨hb,hcoh⟩ := h.busy hk
  have hmem : b∈s.bio.held p := by simp [hheld]
  have hframe := Bio.brelse_frame M.dev s.bio p b
  have hhead : headerOf (s.bio.data b)=M.head s.bio.disk := by
    rw [hcoh.clean b (hcoh.valid p b hmem) (by simp [Point.scratch]) (by simp [Point.pinned]),hno]
    rfl
  rw [hhead]
  refine ⟨?_,store_eq rfl rfl fun _ => rfl⟩
  exact h.log_move (installTrans true) _ _ hk hframe.call hframe.held rfl rfl h.head h.head
    (hcoh.brelse hi hmem (by simp [Point.scratch])) (keeping_of_brelse (by simp [hheld])) trivial
    ⟨rfl,fun i y hi => by omega,fun hr => absurd hr (by simp)⟩

theorem Inv.leave (hk : s.pc p=.log (.finish r))
    (hbio : t.bio=s.bio) (hlh : t.lh=s.lh) (hop : t.op=s.op) (hout : t.outstanding=s.outstanding)
    (hmod : t.modified=s.modified) (hlog : t.logged=s.logged) (hup : t.up=true)
    (hcom : t.committing=false) (hp : t.pc p=.fs)
    (hpc : ∀ q, q≠p → t.pc q=s.pc q ∨ s.pc q=.asleep ∧ t.pc q=.beginOp) :
    Shows M (M.store s) t := by
  obtain ⟨hb,hcoh⟩ := h.busy hk
  obtain ⟨hnil,hhead⟩ := hb.achieved
  have hheld : s.bio.held p=[] := hb.cache.1
  have hnomod (q : P) (b : Buf) : b∉s.modified q := fun hm => by
    simpa [hb.noOp q] using ((h.client q).modified b hm).2
  have hnolog (q : P) (b : Buf) : b∉s.logged q := fun hl => by
    simpa [hb.noOp q] using ((h.client q).logged b hl).2.1
  have hclean (x : Nat) : s.bio.contents M.dev x=s.bio.disk x :=
    hcoh.contents_clean (by simp [Point.pinned]) (by simp [Point.scratch])
  refine ⟨.of_quiet ⟨fun q j hj => ?_,hup,hcom,hbio ▸ hhead⟩ (hlh ▸ h.lh) ?_ (fun q => ?_) ?_,
    fun x _ => ⟨?_,?_⟩⟩
  · by_cases hq : q=p
    · simp [hq,hp] at hj
    · rcases hpc q hq with hsame | ⟨-,hbegin⟩
      · exact hq (hb.alone q j (hsame ▸ hj))
      · simp [hbegin] at hj
  · rw [hout,hop]
    exact h.outstanding
  · by_cases hq : q=p
    · subst hq
      refine ⟨fun _ => ?_,fun b hm => absurd (hmod ▸ hm) (hnomod q b),
        fun b hl => absurd (hlog ▸ hl) (hnolog q b),by simp [hp,Pc.Bracket]⟩
      rw [hbio]
      exact ⟨by simp [Bio.refs,hi,Call.refs,hheld],by simp [hi]⟩
    · exact (h.client q).stands (hbio ▸ .refl _ _ _) (hpc q hq) (congrFun hop q) (congrFun hmod q)
        (congrFun hlog q) fun x hx => hlh ▸ hx
  · rw [hbio,hlh,hnil]
    refine hcoh.of_iff (fun _ => Iff.rfl) fun b => ⟨?_,fun hb => by simp [Point.scratch] at hb⟩
    rintro ⟨q,hm,-⟩
    exact absurd (hmod ▸ hm) (hnomod q b)
  · have hrec := recovered_of_head_nil (x := x) hhead
    simp only [Mount.store,hup,if_true,hbio]
    split
    · rfl
    · rw [hclean,hrec]
  · simp only [Mount.store,hbio]

theorem Inv.logStep (hk : s.pc p=.log k) (hs : s.logStep M p k=some t) :
    Shows M ((M.store s).replay (s.event (.run p))) t := by
  by_cases hw : ∃ u st, k=.writeHead u st
  · obtain ⟨u,st,rfl⟩ := hw
    exact h.writeHeadStep hi hk hs
  have he : s.event (.run p)=[] := by
    refine if_neg fun hc => hw ?_
    obtain ⟨q,b,hq,hpc,-⟩ := commits_iff.mp hc
    cases hq
    exact ⟨_,_,Pc.log.inj (hk.symm.trans hpc)⟩
  obtain ⟨hb,hcoh⟩ := h.busy hk
  cases k with
  | readHead =>
    simp only [Sys.logStep,Option.some.injEq] at hs
    exact hs ▸ Silent.quiet (h.log_bread hi hk _ rfl (fun _ => Iff.rfl) (fun _ => Iff.rfl)
      (fetching_of_bread hb.cache.1) trivial hb.achieved) he
  | readHeadBuf =>
    obtain ⟨b,hheld,hno⟩ := fetched hb.cache hi
    simp only [Sys.logStep,hheld,List.head?_cons,Option.map_some,Option.some.injEq] at hs
    exact hs ▸ (h.readHeadBuf hi hk hheld hno).quiet he
  | commit =>
    simp only [Sys.logStep,Option.some.injEq] at hs
    subst hs
    split
    next hn =>
      exact Silent.quiet (h.log_goto hk rfl (fun _ => Iff.rfl) (fun _ => Iff.rfl) hb.cache trivial
        ⟨hb.achieved,fun i y hi => by omega⟩) he
    next hn =>
      have hnil : s.lh=[] := List.length_eq_zero_iff.mp (by omega)
      exact Silent.quiet (h.log_goto hk rfl (by simp [Point.pinned,hnil]) (fun _ => Iff.rfl) hb.cache
        trivial ⟨hnil,hb.achieved⟩) he
  | copy c tail st => exact (h.copyStep hi hk hs).quiet he
  | clear r =>
    simp only [Sys.logStep,Option.some.injEq] at hs
    exact hs ▸ (h.clear hk).quiet he
  | writeHead u st => exact absurd ⟨u,st,rfl⟩ hw
  | finish r =>
    cases r with
    | true =>
      simp only [Sys.logStep,Option.some.injEq] at hs
      subst hs
      refine Shows.quiet (h.leave hi hk rfl rfl rfl rfl rfl rfl rfl
        (by simpa [Sys.goto,Point.recovering] using hb.committing) (by simp [Sys.goto])
        fun q hq => .inl (by simp [Sys.goto,hq])) he
    | false =>
      simp only [Sys.logStep,Option.some.injEq] at hs
      subst hs
      refine Shows.quiet (h.leave hi hk rfl rfl rfl rfl rfl rfl
        (by simpa [Sys.goto,Sys.wakeup,Point.recovering] using hb.up) rfl (by simp [Sys.goto])
        fun q hq => ?_) he
      by_cases ha : s.pc q=.asleep
      · exact .inr ⟨ha,by simp [Sys.goto,Sys.wakeup,hq,ha]⟩
      · exact .inl (by simp [Sys.goto,Sys.wakeup,hq,ha])

end Steps

end Xv6.Log
