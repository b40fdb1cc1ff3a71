import Xv6.GroupCommit

/-! The cache and the log together are a plain block store: a process that reads
a block finds what the last process that had it left there, whatever was evicted,
committed and installed in between. -/
namespace Xv6.Log
open Function Xv6.Machine Xv6.BufferCache Xv6.RedoLog
variable {P : Type*} [DecidableEq P]
variable {M : Mount P} {s t : Sys P} {p : P} {l : Label P} {ls : List (Label P)}

/-- What a step leaves in the blocks of the devices: a process that gives a buffer
back leaves its data, a crash what recovery makes of the disk. -/
def leaves (M : Mount P) (d : Nat → Nat → Data) (s : Sys P) : Label P → Nat → Nat → Data
  | .request _ (.brelse b) =>
      fun dev x => if dev=s.bio.dev b ∧ x=s.bio.blockno b then s.bio.data b else d dev x
  | .crash => fun _ => M.recovered s.bio.disk
  | .request _ _ | .run _ => d

def left (M : Mount P) (d : Nat → Nat → Data) : Sys P → List (Label P) → Nat → Nat → Data
  | _, [] => d
  | s, l :: ls =>
      match Log.step M s l with
      | none => d
      | some t => left M (leaves M d s l) t ls

theorem Change.modified (h : Change M s l t) (hcrash : l≠.crash)
    (hmod : ∀ p b d, l≠.request p (.modify b d)) (hrel : ∀ p b, l≠.request p (.brelse b)) :
    t.modified=s.modified := by
  cases h with
  | request p r =>
    cases r with
    | modify b d => exact absurd rfl (hmod p b d)
    | brelse b => exact absurd rfl (hrel p b)
    | bread | logWrite | beginOp | endOp => rfl
  | cache | panic | log | initialised | committed => rfl
  | beginOp p =>
    unfold Sys.beginOp
    split_ifs <;> rfl
  | logWrite p b =>
    simp only [Sys.logWrite]
    split_ifs <;> rfl
  | endOp p =>
    simp only [Sys.endOp]
    split_ifs <;> rfl
  | crash => exact absurd rfl hcrash

theorem Change.keys (h : Change M s l t) (hcrash : l≠.crash) :
    (t.bio.dev=s.bio.dev ∧ t.bio.blockno=s.bio.blockno) ∨ ∃ q, s.bio.advance q=some (.ok t.bio) := by
  cases h with
  | request p r => exact .inl (by cases r <;> exact ⟨rfl,rfl⟩)
  | cache p bio hi hadv => exact .inr ⟨p,hadv⟩
  | panic | initialised | committed => exact .inl ⟨rfl,rfl⟩
  | log p k k' bio lh hpc hrec hlh hcl hbio => exact .inl ⟨hbio.dev,hbio.blockno⟩
  | beginOp p =>
    unfold Sys.beginOp
    split_ifs <;> exact .inl ⟨rfl,rfl⟩
  | logWrite p b =>
    simp only [Sys.logWrite]
    split_ifs <;> exact .inl ⟨rfl,rfl⟩
  | endOp p =>
    simp only [Sys.endOp]
    split_ifs <;> exact .inl ⟨rfl,rfl⟩
  | crash => exact absurd rfl hcrash

theorem Change.bystander (h : Change M s l t) (hcrash : l≠.crash) (hreq : ∀ r, l≠.request p r)
    (hfs : s.pc p=.fs) : t.pc p=.fs ∧ t.modified p=s.modified p ∧
      ((∃ q, s.bio.advance q=some (.ok t.bio)) ∨
        t.bio.blockno=s.bio.blockno ∧ t.bio.call p=s.bio.call p ∧ t.bio.held p=s.bio.held p) := by
  have hgoto {u : Sys P} {q : P} {k : Pc} (hq : s.pc q≠.fs) (hu : u.pc p=.fs) :
      (u.goto q k).pc p=.fs := by
    rw [goto_pc,if_neg fun e => hq (by rw [← e,hfs])]
    exact hu
  cases h with
  | request q r =>
    have hqp : p≠q := fun e => hreq r (by rw [e])
    cases r with
    | bread | brelse | modify =>
      exact ⟨hfs,by simp [Sys.request,hqp],.inr ⟨rfl,by simp [Sys.request,Bio.bread,Bio.brelse,
        Bio.setData,Bio.setCall,hqp],by simp [Sys.request,Bio.bread,Bio.brelse,Bio.setData,
        Bio.setCall,hqp]⟩⟩
    | logWrite | beginOp | endOp =>
      exact ⟨by simp [Sys.request,goto_pc,hqp,hfs],rfl,.inr ⟨rfl,rfl,rfl⟩⟩
  | cache q bio hi hadv => exact ⟨hfs,rfl,.inl ⟨q,hadv⟩⟩
  | panic => exact ⟨hfs,rfl,.inr ⟨rfl,rfl,rfl⟩⟩
  | beginOp q hpc =>
    have hq : s.pc q≠.fs := by simp [hpc]
    unfold Sys.beginOp
    split_ifs <;> exact ⟨hgoto hq hfs,rfl,.inr ⟨rfl,rfl,rfl⟩⟩
  | logWrite q b hpc =>
    have hq : s.pc q≠.fs := by simp [hpc]
    simp only [Sys.logWrite]
    split_ifs
    · exact ⟨hfs,rfl,.inr ⟨rfl,rfl,rfl⟩⟩
    · exact ⟨hfs,rfl,.inr ⟨rfl,rfl,rfl⟩⟩
    · exact ⟨hgoto hq hfs,rfl,.inr ⟨rfl,rfl,rfl⟩⟩
    · exact ⟨hgoto hq hfs,rfl,.inr ⟨rfl,rfl,rfl⟩⟩
  | endOp q hpc =>
    have hq : s.pc q≠.fs := by simp [hpc]
    simp only [Sys.endOp]
    split_ifs
    · exact ⟨hfs,rfl,.inr ⟨rfl,rfl,rfl⟩⟩
    · exact ⟨hgoto hq hfs,rfl,.inr ⟨rfl,rfl,rfl⟩⟩
    · exact ⟨hgoto hq (by simp [wakeup_pc,hfs]),rfl,.inr ⟨rfl,rfl,rfl⟩⟩
  | log q k k' bio lh hpc hrec hlh hcl hbio =>
    have hq : s.pc q≠.fs := by simp [hpc]
    have hqp : p≠q := fun e => hq (by rw [← e,hfs])
    exact ⟨hgoto hq hfs,rfl,.inr ⟨hbio.blockno,hbio.call p hqp,hbio.held p hqp⟩⟩
  | initialised q hpc => exact ⟨hgoto (by simp [hpc]) hfs,rfl,.inr ⟨rfl,rfl,rfl⟩⟩
  | committed q hpc =>
    exact ⟨hgoto (by simp [hpc]) (by simp [wakeup_pc,hfs]),rfl,.inr ⟨rfl,rfl,rfl⟩⟩
  | crash => exact absurd rfl hcrash

theorem Change.up (h : Change M s l t) (hcrash : l≠.crash) (hup : s.up=true) : t.up=true := by
  cases h with
  | request p r => cases r <;> exact hup
  | cache | panic | log | committed => exact hup
  | initialised => rfl
  | beginOp p =>
    unfold Sys.beginOp
    split_ifs <;> exact hup
  | logWrite p b =>
    simp only [Sys.logWrite]
    split_ifs <;> exact hup
  | endOp p =>
    simp only [Sys.endOp]
    split_ifs <;> exact hup
  | crash => exact absurd rfl hcrash

section Store
variable [Fintype P] {d : Nat → Nat → Data}

structure Current (M : Mount P) (s : Sys P) (d : Nat → Nat → Data) : Prop where
  inv : Inv M s
  volatile : ∀ x, M.Home x → (∀ p, ∀ b∈s.modified p, s.bio.blockno b≠x) →
    (M.store s).volatile x=d M.dev x
  dev : ∀ b, s.bio.dev b=0 ∨ s.bio.dev b=M.dev

theorem boot_current {disk : Nat → Data} (h : M.Fits (M.head disk)) :
    Current M (boot M disk) fun _ => M.recovered disk :=
  ⟨boot_inv h,fun _ _ _ => rfl,fun _ => .inl rfl⟩

theorem Inv.blockno_held (h : Inv M s) (hch : Change M s l t) (hcrash : l≠.crash) {q : P}
    {b : Buf} (hb : b∈s.bio.held q) : t.bio.blockno b=s.bio.blockno b := by
  obtain ⟨_,_,-,hcoh⟩ := h.phase
  obtain ⟨-,hno⟩ | ⟨r,hadv⟩ := hch.keys hcrash
  · rw [hno]
  · exact (hcoh.frame (hcoh.advanced hadv)).blockno b (hcoh.refcnt_pos (Bio.mem_refs_of_held hb))

theorem Inv.dev_zero_or (h : Inv M s) (hch : Change M s l t)
    (hdev : ∀ b, s.bio.dev b=0 ∨ s.bio.dev b=M.dev) (b : Buf) :
    t.bio.dev b=0 ∨ t.bio.dev b=M.dev := by
  by_cases hcrash : l=.crash
  · subst hcrash
    cases hch
    exact .inl rfl
  obtain ⟨_,_,-,hcoh⟩ := h.phase
  obtain ⟨hsame,-⟩ | ⟨r,hadv⟩ := hch.keys hcrash
  · rw [hsame]
    exact hdev b
  · obtain hb | hb := hcoh.advanced_dev (hcoh.advanced hadv) b
    · rw [hb]
      exact hdev b
    · exact .inr hb

theorem Current.same (h : Current M s d) (hok : Bracketed M s l) (hs : Log.step M s l=some t)
    (hmod : t.modified=s.modified) (hcrash : l≠.crash)
    (hev : ((M.store s).replay (s.event l)).volatile=(M.store s).volatile) : Current M t d := by
  obtain ⟨hinv,hagree⟩ := h.inv.step hok hs
  refine ⟨hinv,fun x hx hclean => ?_,h.inv.dev_zero_or (step_change hs) h.dev⟩
  rw [(hagree x hx).1,hev]
  refine h.volatile x hx fun p b hb => ?_
  rw [← h.inv.blockno_held (step_change hs) hcrash ((h.inv.client p).modified b hb).1]
  exact hclean p b (hmod ▸ hb)

theorem Current.step (h : Current M s d) (hok : Bracketed M s l) (hs : Log.step M s l=some t) :
    Current M t (leaves M d s l) := by
  have hsame (hmod : ∀ p b d, l≠.request p (.modify b d))
      (hrel : ∀ p b, l≠.request p (.brelse b)) (hcrash : l≠.crash) : Current M t d := by
    refine h.same hok hs ((step_change hs).modified hcrash hmod hrel) hcrash ?_
    cases l with
    | crash => exact absurd rfl hcrash
    | request p r =>
      cases r with
      | modify b d => exact absurd rfl (hmod p b d)
      | bread | logWrite | brelse | beginOp | endOp => rfl
    | run p =>
      simp only [Sys.event]
      split <;> rfl
  cases l with
  | crash =>
    cases hs
    exact boot_current h.inv.head
  | run p => exact hsame (by simp) (by simp) (by simp)
  | request p r =>
    cases r with
    | bread | logWrite | beginOp | endOp => exact hsame (by simp) (by simp) (by simp)
    | modify b v =>
      obtain ⟨hinv,hagree⟩ := h.inv.step hok hs
      have hdev := h.inv.dev_zero_or (step_change hs) h.dev
      cases step_change hs with
      | request _ _ hup hfs =>
        refine ⟨hinv,fun x hx hclean => ?_,hdev⟩
        have hne : x≠s.bio.blockno b := Ne.symm (hclean p b (by simp [Sys.request]))
        rw [(hagree x hx).1]
        simp only [Sys.event,Store.replay,List.foldl_cons,List.foldl_nil,Store.apply,
          update_of_ne hne]
        refine h.volatile x hx fun q c hc => hclean q c ?_
        by_cases hq : q=p
        · subst hq
          simp [Sys.request,hc]
        · simpa [Sys.request,hq] using hc
    | brelse b =>
      obtain ⟨hinv,hagree⟩ := h.inv.step hok hs
      have hdev := h.inv.dev_zero_or (step_change hs) h.dev
      obtain ⟨_,_,-,hcoh⟩ := h.inv.phase
      cases step_change hs with
      | request _ _ hup hfs =>
        refine ⟨hinv,fun x hx hclean => ?_,hdev⟩
        change (M.store s).volatile x=_
        by_cases hxb : x=s.bio.blockno b
        · subst hxb
          have hdevb := hcoh.dev_eq (Bio.mem_refs_of_held hok.1)
          simpa [Mount.store,hup,leaves,hdevb] using hcoh.contents_held hok.1
        · simp only [leaves,hxb,and_false,if_false]
          refine h.volatile x hx fun q c hc => ?_
          by_cases hcb : c=b
          · exact fun e => hxb (by rw [← e,hcb])
          · refine hclean q c ?_
            by_cases hq : q=p
            · subst hq
              simp [Sys.request,hc,hcb]
            · simpa [Sys.request,hq] using hc

theorem Current.run (h : Current M s d) {past : List (Label P)}
    (hok : Along (Log.step M) (fun _ u l => Bracketed M u l) past s ls)
    (hrun : Machine.run (Log.step M) ls s=some t) : Current M t (left M d s ls) := by
  induction ls generalizing past s d with
  | nil =>
    cases hrun
    exact h
  | cons l ls ih =>
    obtain ⟨u,hu,hls⟩ := run_cons.mp hrun
    simp only [left,hu]
    exact ih (h.step hok.1 hu) (hok.2 u hu) hls

structure Waiting (M : Mount P) (p : P) (x : Nat) (rest changed : List Buf) (s : Sys P) : Prop where
  inv : Inv M s
  up : s.up=true
  pc : s.pc p=.fs
  fetching : s.bio.Fetching p x rest
  modified : s.modified p=changed

variable {changed rest : List Buf} {x : Nat}

theorem Waiting.step (h : Waiting M p x rest changed s)
    (hok : Bracketed M s l) (hcrash : l≠.crash) (hreq : ∀ r, l≠.request p r)
    (hs : Log.step M s l=some t) : Waiting M p x rest changed t := by
  obtain ⟨hpc,hmod,hbio⟩ := (step_change hs).bystander hcrash hreq h.pc
  refine ⟨(h.inv.step hok hs).1,(step_change hs).up hcrash h.up,hpc,?_,hmod.trans h.modified⟩
  obtain ⟨q,hadv⟩ | ⟨hno,hcall,hheld⟩ := hbio
  · obtain ⟨_,_,-,hcoh⟩ := h.inv.phase
    exact hcoh.fetching (hcoh.advanced hadv) h.fetching
  · simpa only [Bio.Fetching,hno,hcall,hheld] using h.fetching

theorem Waiting.run (h : Waiting M p x rest changed s)
    {past : List (Label P)} (hlabels : ∀ l∈ls, l≠.crash ∧ ∀ r, l≠.request p r)
    (hok : Along (Log.step M) (fun _ u l => Bracketed M u l) past s ls)
    (hrun : Machine.run (Log.step M) ls s=some t) : Waiting M p x rest changed t := by
  induction ls generalizing past s with
  | nil =>
    cases hrun
    exact h
  | cons l ls ih =>
    obtain ⟨u,hu,hls⟩ := run_cons.mp hrun
    obtain ⟨hcrash,hreq⟩ := hlabels l (by simp)
    exact ih (h.step hok.1 hcrash hreq hu) (fun k hk => hlabels k (by simp [hk])) (hok.2 u hu) hls

theorem Inv.waiting (h : Inv M s) {dev : Nat} (hok : Bracketed M s (.request p (.bread dev x)))
    (hs : Log.step M s (.request p (.bread dev x))=some t) :
    Waiting M p x (s.bio.held p) (s.modified p) t := by
  have hinv := (h.step hok hs).1
  cases step_change hs with
  | request _ _ hup hfs =>
    exact ⟨hinv,hup,hfs,by simp [Sys.request,Bio.bread,Bio.Fetching,Bio.setCall],rfl⟩

theorem Waiting.returned (h : Waiting M p x rest changed s)
    (hcur : Current M s d) (hx : M.Home x) (hsub : ∀ b∈changed, b∈rest)
    (hi : s.bio.call p=.idle) : ∃ b, s.bio.held p=b::rest ∧ s.bio.dev b=M.dev ∧
      s.bio.blockno b=x ∧ s.bio.data b=d M.dev x := by
  obtain ⟨b,hheld,hno⟩ : ∃ b, s.bio.held p=b::rest ∧ s.bio.blockno b=x := by
    simpa [Bio.Fetching,hi] using h.fetching
  obtain ⟨_,_,-,hcoh⟩ := h.inv.phase
  have hb : b∈s.bio.held p := by simp [hheld]
  have hdev := hcoh.dev_eq (Bio.mem_refs_of_held hb)
  refine ⟨b,hheld,hdev,hno,?_⟩
  have hvol := hcur.volatile x hx fun q c hc hcx => ?_
  · rw [← hvol,← hno]
    simpa [Mount.store,h.up] using (hcoh.contents_held hb).symm
  · have hcq := ((h.inv.client q).modified c hc).1
    obtain rfl : c=b := hcoh.unique c b (hcoh.dev_eq (Bio.mem_refs_of_held hcq)) hdev
      (hcx.trans hno.symm)
    obtain rfl := hcoh.held_unique hb hcq
    have hnot : c∉rest := by
      have hcount := hcoh.lock c p
      simp only [Bio.locks,hi,Call.locks,hheld,List.nil_append,List.count_cons_self] at hcount
      intro hmem
      have := List.count_pos_iff.mpr hmem
      split at hcount <;> omega
    exact hnot (hsub c (h.modified ▸ hc))

/-- In every run of `Bracketed` processes `bread` returns the block asked for, with what the last
process that had it left in it; no two buffers have the same block; and the buffers form one ring. -/
theorem cache_is_block_store (M : Mount P) (disk : Nat → Data) (hdisk : M.Fits (M.head disk))
    (ls : List (Label P)) (t : Sys P)
    (hok : Along (Log.step M) (fun _ s l => Bracketed M s l) [] (boot M disk) ls)
    (hrun : Machine.run (Log.step M) ls (boot M disk)=some t) :
    (∀ u p dev x v s, ls=u++.request p (.bread dev x) :: v →
      Machine.run (Log.step M) u (boot M disk)=some s →
      (∀ l∈v, l≠.crash ∧ ∀ r, l≠.request p r) → t.bio.call p=.idle →
      ∃ b, t.bio.held p=b :: s.bio.held p ∧ t.bio.dev b=dev ∧ t.bio.blockno b=x ∧
        t.bio.data b=left M (fun _ => M.recovered disk) (boot M disk) ls dev x) ∧
    (∀ b c, t.bio.dev b≠0 → t.bio.dev b=t.bio.dev c → t.bio.blockno b=t.bio.blockno c →
      b=c) ∧
    ∃ order, t.bio.links.Forms order ∧ order.Nodup ∧ ∀ b, b∈order := by
  have hcur := (boot_current hdisk).run hok hrun
  obtain ⟨_,_,-,hcoh⟩ := hcur.inv.phase
  refine ⟨?_,fun b c hb hdev hno => ?_,?_⟩
  · rintro u p dev x v s rfl hu hv hi
    obtain ⟨hpre,hpost⟩ := along_append.mp hok
    obtain ⟨⟨rfl,hx⟩,hrest⟩ := hpost s hu
    obtain ⟨w,hw,hlater⟩ := run_append_some.mp hrun
    obtain rfl : s=w := Option.some.inj (hu.symm.trans hw)
    obtain ⟨r,hr,hlater⟩ := run_cons.mp hlater
    have hinv := ((boot_inv hdisk).run hpre hu).1
    have hwait : Waiting M p x (s.bio.held p) (s.modified p) t := by
      refine (hinv.waiting ⟨rfl,hx⟩ hr).run ?_ (hrest r hr) hlater
      exact hv
    exact hwait.returned hcur hx (fun b hb => ((hinv.client p).modified b hb).1) hi
  · have hb' := (hcur.dev b).resolve_left hb
    exact hcoh.unique b c hb' (hdev ▸ hb') hno
  · obtain ⟨order,hforms,hall⟩ := hcoh.ring
    exact ⟨order,hforms,hforms.nodup,hall⟩

end Store

def readBack : List (Label (Fin 2)) :=
  let reader := mkfsMount.initproc
  (turns 19 reader++oneWrite++turns 25 writer)++.request reader (.bread 1 40) ::
    turns 3 reader

def readBackEnd : Sys (Fin 2) :=
  (Machine.run (Log.step mkfsMount) readBack (boot mkfsMount blankDisk)).get (by decide +kernel)

theorem readBack_left : ∃ b, readBackEnd.bio.held 0=[b] ∧ readBackEnd.bio.data b ⟨0,by decide⟩=7 := by
  obtain ⟨b,hheld,-,-,hdata⟩ := (cache_is_block_store mkfsMount blankDisk blankDisk_fits readBack
    readBackEnd (by decide +kernel) (Option.some_get _).symm).1 (turns 19 0++oneWrite++turns 25 1)
    0 1 40 (turns 3 0) _ rfl (Option.some_get (by decide +kernel)).symm (by simp [turns])
    (by decide +kernel)
  refine ⟨b,hheld.trans ?_,?_⟩
  · have hnone : ((Machine.run (Log.step mkfsMount) (turns 19 0++oneWrite++turns 25 1)
        (boot mkfsMount blankDisk)).get (by decide +kernel)).bio.held 0=[] := by decide +kernel
    rw [hnone]
  · rw [hdata]
    decide +kernel

def nthBuf (i : Nat) : Buf := ⟨i%nbuf,Nat.mod_lt _ (by decide)⟩

def writeBlock (i x v : Nat) : List (Label (Fin 2)) :=
  .request writer (.bread 1 x) :: turns 3 writer++.request writer (.modify (nthBuf i) fun _ => v) ::
    .request writer (.logWrite (nthBuf i)) :: .run writer :: .request writer (.brelse (nthBuf i)) ::
    turns 2 writer

/-- A process reads block 40 of a second device. The writer commits a write to block
40 of the first one, and when the buffer has been recycled the other process reads
the block of the second device again. -/
def secondDevice : List (Label (Fin 2)) :=
  let reader := mkfsMount.initproc
  turns 19 reader++.request reader (.bread 2 40) :: turns 3 reader ++
    .request reader (.brelse (nthBuf 1)) :: turns 2 reader ++
    .request writer .beginOp :: .run writer :: writeBlock 2 40 7++.request writer .endOp ::
    turns 56 writer ++
    (List.range 27).flatMap (fun j => .request reader (.bread 1 (100+j)) :: turns 3 reader) ++
    .request reader (.bread 2 40) :: turns 3 reader

def secondDeviceEnd : Sys (Fin 2) :=
  (Machine.run (Log.step mkfsMount) secondDevice (boot mkfsMount blankDisk)).get (by decide +kernel)

/-- The writer writes to a block of the log itself and to block 40, and the other
process reads block 40 after the commit. -/
def writesLogBlock : List (Label (Fin 2)) :=
  let reader := mkfsMount.initproc
  turns 19 reader++.request writer .beginOp :: .run writer :: writeBlock 1 4 7 ++
    writeBlock 2 40 9++.request writer .endOp :: turns 88 writer ++
    .request reader (.bread 1 40) :: turns 3 reader

def writesLogBlockEnd : Sys (Fin 2) :=
  (Machine.run (Log.step mkfsMount) writesLogBlock (boot mkfsMount blankDisk)).get
    (by decide +kernel)

/-- Buffers that were never used have the same block number in them; a block of a
device that is not the log's is not what its last holder left; and neither is a
block after a write to the log's own blocks. -/
theorem not_plain_store :
    ((boot mkfsMount blankDisk).bio.dev ⟨0,by decide⟩=(boot mkfsMount blankDisk).bio.dev ⟨1,by decide⟩ ∧
      (boot mkfsMount blankDisk).bio.blockno ⟨0,by decide⟩ =
        (boot mkfsMount blankDisk).bio.blockno ⟨1,by decide⟩) ∧
    ((secondDeviceEnd.bio.held 0).head?=some ⟨3,by decide⟩ ∧
      secondDeviceEnd.bio.dev ⟨3,by decide⟩=2 ∧ secondDeviceEnd.bio.blockno ⟨3,by decide⟩=40 ∧
      secondDeviceEnd.bio.data ⟨3,by decide⟩ ⟨0,by decide⟩=7 ∧
      left mkfsMount (fun _ => blankDisk) (boot mkfsMount blankDisk) secondDevice 2 40
        ⟨0,by decide⟩=0) ∧
    ((writesLogBlockEnd.bio.held 0).head?=some ⟨2,by decide⟩ ∧
      writesLogBlockEnd.bio.dev ⟨2,by decide⟩=1 ∧
      writesLogBlockEnd.bio.blockno ⟨2,by decide⟩=40 ∧
      writesLogBlockEnd.bio.data ⟨2,by decide⟩ ⟨0,by decide⟩=7 ∧
      left mkfsMount (fun _ => blankDisk) (boot mkfsMount blankDisk) writesLogBlock 1 40
        ⟨0,by decide⟩=9) :=
  ⟨by decide,by decide +kernel,by decide +kernel⟩

end Xv6.Log
