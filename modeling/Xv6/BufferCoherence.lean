import Xv6.BufferCache
import Mathlib.Algebra.Order.BigOperators.Group.Finset

/-! What holds of the buffer cache between any two of its steps, so that no step of `bread` or
`brelse` changes what a block contains. -/
namespace Xv6.BufferCache
open Function Xv6.Ring
variable {P : Type*}

theorem sum_frame {α : Type*} [AddCommMonoid α] [Fintype P] {f g : P → α} {p : P}
    (h : ∀ q, q≠p → g q=f q) : ∑ q, g q+f p = ∑ q, f q+g p := by
  classical
  have hrest : ∑ q∈Finset.univ.erase p, g q = ∑ q∈Finset.univ.erase p, f q :=
    Finset.sum_congr rfl fun q hq => h q (Finset.ne_of_mem_erase hq)
  rw [← Finset.add_sum_erase Finset.univ g (Finset.mem_univ p),
    ← Finset.add_sum_erase Finset.univ f (Finset.mem_univ p),hrest,add_right_comm,add_comm (g p),
    add_right_comm]

def Call.refs : Call → List Buf
  | .idle | .bget _ _ => []
  | .acquiresleep b | .fill b | .releasesleep b | .unref b => [b]

def Call.locks : Call → List Buf
  | .fill b | .releasesleep b => [b]
  | .idle | .bget _ _ | .acquiresleep _ | .unref _ => []

namespace Bio

def refs (s : Bio P) (p : P) : List Buf := (s.call p).refs++s.held p

def locks (s : Bio P) (p : P) : List Buf := (s.call p).locks++s.held p

theorem mem_refs_of_held {s : Bio P} {p : P} {b : Buf} (h : b∈s.held p) : b∈s.refs p :=
  List.mem_append_right _ h

theorem mem_locks_of_held {s : Bio P} {p : P} {b : Buf} (h : b∈s.held p) : b∈s.locks p :=
  List.mem_append_right _ h

section Raw
variable {dev : Nat} {s t : Bio P} {b : Buf}

theorem lookup_some {d x : Nat} (h : s.lookup d x=some b) : s.dev b=d ∧ s.blockno b=x := by
  simpa using walk_test h

theorem victim_some (h : s.victim=some b) : s.refcnt b=0 := by
  simpa using walk_test h

theorem contents_of_valid (hu : ∀ b c, s.dev b=dev → s.dev c=dev → s.blockno b=s.blockno c → b=c)
    (hv : s.valid b=true) (hd : s.dev b=dev) : s.contents dev (s.blockno b)=s.data b := by
  unfold contents
  cases hf : (List.finRange nbuf).find?
      (fun c => s.valid c && s.dev c == dev && s.blockno c == s.blockno b) with
  | none =>
    have := List.find?_eq_none.mp hf b (List.mem_finRange b)
    simp [hv,hd] at this
  | some c =>
    have hc := List.find?_some hf
    simp only [Bool.and_eq_true,beq_iff_eq] at hc
    rw [hu c b hc.1.2 hd hc.2]

theorem contents_of_clean {x : Nat} (hclean : ∀ b, s.valid b=true → s.dev b=dev →
    s.blockno b=x → s.data b=s.disk x) : s.contents dev x=s.disk x := by
  unfold contents
  cases hf : (List.finRange nbuf).find?
      (fun c => s.valid c && s.dev c == dev && s.blockno c == x) with
  | none => rfl
  | some c =>
    have hc := List.find?_some hf
    simp only [Bool.and_eq_true,beq_iff_eq] at hc
    exact hclean c hc.1.1 hc.1.2 hc.2

theorem contents_congr {x : Nat} (hv : t.valid=s.valid) (hd : t.dev=s.dev)
    (hb : t.blockno=s.blockno) (hdata : t.data=s.data) (hdisk : t.disk x=s.disk x) :
    t.contents dev x=s.contents dev x := by
  simp only [contents,hv,hd,hb,hdata,hdisk]

theorem contents_swap (hs : ∀ b c, s.dev b=dev → s.dev c=dev → s.blockno b=s.blockno c → b=c)
    (ht : ∀ b c, t.dev b=dev → t.dev c=dev → t.blockno b=t.blockno c → b=c) (hdisk : t.disk=s.disk)
    (hother : ∀ c, c≠b → t.valid c=s.valid c ∧ t.dev c=s.dev c ∧
      t.blockno c=s.blockno c ∧ t.data c=s.data c)
    (hbs : s.valid b=true → s.data b=s.disk (s.blockno b))
    (hbt : t.valid b=true → t.data b=t.disk (t.blockno b)) (x : Nat) :
    t.contents dev x=s.contents dev x := by
  by_cases hc : ∃ c, c≠b ∧ s.valid c=true ∧ s.dev c=dev ∧ s.blockno c=x
  · obtain ⟨c,hcb,hv,hd,rfl⟩ := hc
    obtain ⟨hv',hd',hno',hdata'⟩ := hother c hcb
    rw [contents_of_valid hs hv hd,← hno',← hdata']
    exact contents_of_valid ht (hv'.trans hv) (hd'.trans hd)
  · have hsx : s.contents dev x=s.disk x := contents_of_clean fun c hv hd hno => by
      by_cases hcb : c=b
      · subst hcb hno
        exact hbs hv
      · exact absurd ⟨c,hcb,hv,hd,hno⟩ hc
    have htx : t.contents dev x=t.disk x := contents_of_clean fun c hv hd hno => by
      by_cases hcb : c=b
      · subst hcb hno
        exact hbt hv
      · obtain ⟨hv',hd',hno',-⟩ := hother c hcb
        exact absurd ⟨c,hcb,hv' ▸ hv,hd' ▸ hd,hno' ▸ hno⟩ hc
    rw [hsx,htx,hdisk]

end Raw

section SetCall
variable [DecidableEq P] {dev : Nat} {s : Bio P} {p q : P}

@[simp] theorem setCall_refs_self (s : Bio P) (p : P) (c : Call) :
    (s.setCall p c).refs p=c.refs++s.held p := by simp [refs,setCall]

theorem setCall_refs_of_ne (c : Call) (hq : q≠p) : (s.setCall p c).refs q=s.refs q := by
  simp [refs,setCall,hq]

theorem setCall_locks (c : Call) (hc : c.locks=(s.call p).locks) (q : P) :
    (s.setCall p c).locks q=s.locks q := by
  by_cases hq : q=p
  · simp [locks,setCall,hq,hc]
  · simp [locks,setCall,hq]

theorem setCall_asked {c : Call} (hask : ∀ q d x, s.call q=.bget d x → d=dev)
    (hc : ∀ d x, c=.bget d x → d=dev) (q : P) (d x : Nat)
    (h : (s.setCall p c).call q=.bget d x) : d=dev := by
  by_cases hq : q=p
  · subst hq
    exact hc d x (by simpa [setCall] using h)
  · exact hask q d x (by simpa [setCall,hq] using h)

end SetCall

variable [DecidableEq P] [Fintype P]

/-- `pinned` are the blocks of the log's transaction that `bpin` keeps in the
cache, `scratch` the buffers whose holder may have changed them since it got them. -/
structure Coherent (dev : Nat) (s : Bio P) (pinned : List Nat) (scratch : Buf → Prop) : Prop where
  ring : ∃ l, s.links.Forms l ∧ ∀ b, b∈l
  unused : ∀ b, s.dev b≠dev → s.valid b=false ∧ s.refcnt b=0
  unique : ∀ b c, s.dev b=dev → s.dev c=dev → s.blockno b=s.blockno c → b=c
  refcnt : ∀ b, s.refcnt b =
    ∑ p, (s.refs p).count b + if s.dev b=dev ∧ s.blockno b∈pinned then 1 else 0
  lock : ∀ b p, (s.locks p).count b = if s.lock b=some p then 1 else 0
  valid : ∀ p, ∀ b∈s.held p, s.valid b=true
  cached : ∀ x∈pinned, ∃ b, s.dev b=dev ∧ s.blockno b=x
  clean : ∀ b, s.valid b=true → ¬scratch b → s.blockno b∉pinned →
    s.data b=s.disk (s.blockno b)
  scratch_held : ∀ b, scratch b → ∃ p, b∈s.held p
  asked : ∀ p d x, s.call p=.bget d x → d=dev

section Facts
variable {dev : Nat} {s t : Bio P} {pinned : List Nat} {scratch : Buf → Prop} {p q : P} {b : Buf}

theorem binit_coherent (hdev : dev≠0) (disk : Nat → Data) :
    (binit disk : Bio P).Coherent dev [] (fun _ => False) where
  ring := by
    refine ⟨_,Links.empty_forms.foldl_link (by simpa using List.nodup_finRange nbuf),?_⟩
    simp
  unused b hb := ⟨rfl,rfl⟩
  unique b c hb := absurd hb.symm hdev
  refcnt b := by simp [binit,refs,Call.refs]
  lock b p := by simp [binit,locks,Call.locks]
  valid p b hb := by simp [binit] at hb
  cached x hx := by simp at hx
  clean b hv := by simp [binit] at hv
  scratch_held b hb := hb.elim
  asked p d x h := by simp [binit] at h

variable (h : s.Coherent dev pinned scratch)
include h

theorem Coherent.refcnt_pos (hb : b∈s.refs p) : 0 < s.refcnt b := by
  have hle : (s.refs p).count b ≤ ∑ q, (s.refs q).count b :=
    Finset.single_le_sum (f := fun q => (s.refs q).count b) (fun _ _ => Nat.zero_le _)
      (Finset.mem_univ p)
  have hpos := List.count_pos_iff.mpr hb
  have := h.refcnt b
  omega

theorem Coherent.dev_eq (hb : b∈s.refs p) : s.dev b=dev := by
  by_contra hd
  have hpos := h.refcnt_pos hb
  have := (h.unused b hd).2
  omega

theorem Coherent.lock_eq (hb : b∈s.locks p) : s.lock b=some p := by
  by_contra hl
  have hcount := h.lock b p
  rw [if_neg hl] at hcount
  exact List.count_eq_zero.mp hcount hb

theorem Coherent.held_unique (hp : b∈s.held p) (hq : b∈s.held q) : p=q := by
  have hpb := h.lock_eq (mem_locks_of_held hp)
  have hqb := h.lock_eq (mem_locks_of_held hq)
  simpa [hpb] using hqb

theorem Coherent.free_clean (hfree : s.refcnt b=0)
    (hv : s.valid b=true) : s.data b=s.disk (s.blockno b) := by
  have hdev : s.dev b=dev := by
    by_contra hd
    simp [(h.unused b hd).1] at hv
  refine h.clean b hv (fun hs => ?_) (fun hp => ?_)
  · obtain ⟨p,hb⟩ := h.scratch_held b hs
    have := h.refcnt_pos (mem_refs_of_held hb)
    omega
  · have := h.refcnt b
    rw [if_pos ⟨hdev,hp⟩] at this
    omega

theorem Coherent.of_iff {pinned' : List Nat} {scratch' : Buf → Prop}
    (hp : ∀ x, x∈pinned' ↔ x∈pinned)
    (hs : ∀ b, scratch' b ↔ scratch b) : s.Coherent dev pinned' scratch' :=
  { h with
    refcnt := fun b => by simpa only [hp] using h.refcnt b
    cached := fun x hx => h.cached x ((hp x).mp hx)
    clean := fun b hv hns hnp => h.clean b hv (mt (hs b).mpr hns) (mt (hp _).mpr hnp)
    scratch_held := fun b hb => h.scratch_held b ((hs b).mp hb) }

theorem Coherent.lookup_none {d x : Nat}
    (hn : s.lookup d x=none) (b : Buf) : ¬(s.dev b=d ∧ s.blockno b=x) := by
  obtain ⟨l,hl,hall⟩ := h.ring
  have hlen : l.length ≤ nbuf := by simpa using hl.nodup.length_le_card
  rw [lookup,hl.walk_next _ hlen,List.find?_eq_none] at hn
  simpa using hn b (hall b)

theorem Coherent.victim_none (hn : s.victim=none) (b : Buf) : s.refcnt b≠0 := by
  obtain ⟨l,hl,hall⟩ := h.ring
  have hlen : l.length ≤ nbuf := by simpa using hl.nodup.length_le_card
  rw [victim,hl.walk_prev _ hlen,List.find?_eq_none] at hn
  simpa using hn b (by simpa using hall b)

theorem Coherent.contents_held (hb : b∈s.held p) : s.contents dev (s.blockno b)=s.data b :=
  contents_of_valid h.unique (h.valid p b hb) (h.dev_eq (mem_refs_of_held hb))

theorem Coherent.contents_clean {x : Nat} (hx : x∉pinned)
    (hs : ∀ b, scratch b → s.blockno b≠x) : s.contents dev x=s.disk x := by
  refine contents_of_clean fun b hv _ hb => ?_
  subst hb
  exact h.clean b hv (fun hb => hs b hb rfl) hx

/-! The steps of the cache keep it coherent. -/

theorem Coherent.refcnt_move (p : P) (hq : ∀ q, q≠p → t.refs q=s.refs q) (hd : t.dev b=s.dev b)
    (hb : t.blockno b=s.blockno b)
    (hc : t.refcnt b+(s.refs p).count b=s.refcnt b+(t.refs p).count b) :
    t.refcnt b = ∑ q, (t.refs q).count b + if t.dev b=dev ∧ t.blockno b∈pinned then 1 else 0 := by
  have hframe := sum_frame (f := fun q => (s.refs q).count b) (g := fun q => (t.refs q).count b)
    fun q hqp => by rw [hq q hqp]
  have hs := h.refcnt b
  rw [hd,hb]
  omega

theorem Coherent.bread (hi : s.call p=.idle) (x : Nat) :
    (s.bread p dev x).Coherent dev pinned scratch :=
  { h with
    refcnt := fun b => h.refcnt_move p (fun _ hq => setCall_refs_of_ne _ hq) rfl rfl
      (by simp [Bio.bread,refs,hi,setCall,Call.refs])
    lock := fun b q => by
      rw [Bio.bread,setCall_locks _ (by simp [hi,Call.locks])]
      exact h.lock b q
    asked := setCall_asked h.asked (by simp +contextual) }

theorem Coherent.brelse (hi : s.call p=.idle)
    (hb : b∈s.held p) (hs : ¬scratch b) : (s.brelse p b).Coherent dev pinned scratch := by
  have hcount (c : Buf) : ([b]++(s.held p).erase b).count c=(s.held p).count c :=
    (List.perm_cons_erase hb).symm.count_eq c
  exact { h with
    refcnt := fun c => h.refcnt_move p (fun q hq => by simp [Bio.brelse,refs,setCall,hq]) rfl rfl
      (by
        have := hcount c
        simp only [Bio.brelse,refs,hi,setCall,update_self,Call.refs,List.nil_append]
        omega)
    lock := fun c q => by
      refine Eq.trans ?_ (h.lock c q)
      by_cases hq : q=p
      · subst hq
        simpa [Bio.brelse,locks,hi,setCall,Call.locks] using hcount c
      · simp [Bio.brelse,locks,setCall,hq]
    valid := fun q c hc => by
      by_cases hq : q=p
      · subst hq
        exact h.valid q c (List.mem_of_mem_erase (by simpa [Bio.brelse,setCall] using hc))
      · exact h.valid q c (by simpa [Bio.brelse,setCall,hq] using hc)
    scratch_held := fun c hc => by
      obtain ⟨q,hq⟩ := h.scratch_held c hc
      refine ⟨q,?_⟩
      by_cases hqp : q=p
      · subst hqp
        have hcb : c≠b := fun hcb => hs (hcb ▸ hc)
        simpa [Bio.brelse,setCall] using (List.mem_erase_of_ne hcb).mpr hq
      · simpa [Bio.brelse,setCall,hqp] using hq
    asked := setCall_asked h.asked (by simp) }

theorem Coherent.bget_hit {d x : Nat} (hc : s.call p=.bget d x) (hd : s.dev b=dev) :
    ({ s with refcnt := update s.refcnt b (s.refcnt b+1) }.setCall p
      (.acquiresleep b)).Coherent dev pinned scratch :=
  { h with
    unused := fun c hcd => by
      have hcb : c≠b := fun hcb => hcd (hcb ▸ hd)
      simpa [setCall,hcb] using h.unused c hcd
    refcnt := fun c => h.refcnt_move p (fun q hq => by simp [refs,setCall,hq]) rfl rfl (by
      by_cases hcb : c=b
      · subst hcb
        simp [refs,hc,Call.refs,setCall]
        omega
      · simp [refs,hc,Call.refs,setCall,hcb,Ne.symm hcb])
    lock := fun c q => by
      rw [setCall_locks _ (by simp [hc,Call.locks])]
      exact h.lock c q
    asked := setCall_asked h.asked (by simp) }

theorem Coherent.bget_recycle {x : Nat} (hc : s.call p=.bget dev x) (hfree : s.refcnt b=0)
    (hx : ∀ c, ¬(s.dev c=dev ∧ s.blockno c=x)) :
    ({ s with
      dev := update s.dev b dev
      blockno := update s.blockno b x
      valid := update s.valid b false
      refcnt := update s.refcnt b 1 }.setCall p (.acquiresleep b)).Coherent dev pinned scratch := by
  have hxp : x∉pinned := fun hxp => by
    obtain ⟨c,hcd⟩ := h.cached x hxp
    exact hx c hcd
  have hunpinned : ¬(s.dev b=dev ∧ s.blockno b∈pinned) := fun hp => by
    have := h.refcnt b
    rw [if_pos hp] at this
    omega
  have hidle (q : P) : b∉s.refs q := fun hb => by
    have := h.refcnt_pos hb
    omega
  exact { h with
    unused := fun c hcd => by
      by_cases hcb : c=b
      · exact absurd (by simp [setCall,hcb]) hcd
      · simpa [setCall,hcb] using h.unused c (by simpa [setCall,hcb] using hcd)
    unique := fun c c' hd hd' hno => by
      by_cases hcb : c=b <;> by_cases hcb' : c'=b
      · rw [hcb,hcb']
      · simp [setCall,hcb,hcb'] at hd' hno
        exact absurd ⟨hd',hno.symm⟩ (hx c')
      · simp [setCall,hcb,hcb'] at hd hno
        exact absurd ⟨hd,hno⟩ (hx c)
      · simp [setCall,hcb,hcb'] at hd hd' hno
        exact h.unique c c' hd hd' hno
    refcnt := fun c => by
      by_cases hcb : c=b
      · subst hcb
        have hs := h.refcnt c
        have hframe := sum_frame (p := p) (f := fun q => (s.refs q).count c)
          (g := fun q => ((Bio.setCall { s with
            dev := update s.dev c dev
            blockno := update s.blockno c x
            valid := update s.valid c false
            refcnt := update s.refcnt c 1 } p (.acquiresleep c)).refs q).count c)
          (fun q hq => by simp [refs,setCall,hq])
        have hzero : (s.refs p).count c=0 := List.count_eq_zero.mpr (hidle p)
        have hone : (s.held p).count c=0 := List.count_eq_zero.mpr fun hh =>
          hidle p (mem_refs_of_held hh)
        rw [if_neg (by simp [setCall,hxp])]
        simp only [setCall_refs_self,Call.refs,List.count_append,hone] at hframe
        simp only [List.count_singleton_self] at hframe
        simp only [setCall,update_self] at hframe ⊢
        omega
      · refine h.refcnt_move p (fun q hq => by simp [refs,setCall,hq])
          (by simp [setCall,hcb]) (by simp [setCall,hcb]) ?_
        simp [refs,hc,Call.refs,setCall,hcb,Ne.symm hcb]
    lock := fun c q => by
      rw [setCall_locks _ (by simp [hc,Call.locks])]
      exact h.lock c q
    valid := fun q c hq => by
      have hcb : c≠b := fun hcb => hidle q (hcb ▸ mem_refs_of_held hq)
      simpa [setCall,hcb] using h.valid q c hq
    cached := fun y hy => by
      obtain ⟨c,hd,hno⟩ := h.cached y hy
      have hcb : c≠b := fun hcb => hunpinned ⟨hcb ▸ hd,hcb ▸ hno ▸ hy⟩
      exact ⟨c,by simpa [setCall,hcb] using hd,by simpa [setCall,hcb] using hno⟩
    clean := fun c hv hns hnp => by
      have hcb : c≠b := fun hcb => by simp [setCall,hcb] at hv
      simp only [setCall,ne_eq,hcb,not_false_eq_true,update_of_ne] at hv hnp ⊢
      exact h.clean c hv hns hnp
    asked := setCall_asked h.asked (by simp) }

theorem Coherent.acquiresleep (hc : s.call p=.acquiresleep b) (hl : s.lock b=none) :
    ({ s with lock := update s.lock b (some p) }.setCall p (.fill b)).Coherent
      dev pinned scratch :=
  { h with
    refcnt := fun c => h.refcnt_move p (fun q hq => by simp [refs,setCall,hq]) rfl rfl
      (by simp [refs,hc,Call.refs,setCall])
    lock := fun c q => by
      have hcq := h.lock c q
      by_cases hq : q=p
      · subst hq
        by_cases hcb : c=b
        · subst hcb
          simp_all [locks,setCall,Call.locks]
        · simp_all [locks,setCall,Call.locks,Ne.symm hcb]
      · by_cases hcb : c=b
        · subst hcb
          simp_all [locks,setCall,Ne.symm hq]
        · simpa [locks,setCall,hq,hcb] using hcq
    asked := setCall_asked h.asked (by simp) }

theorem Coherent.fill (hc : s.call p=.fill b) : (s.fill p b).Coherent dev pinned scratch := by
  have hdev : s.dev b=dev := h.dev_eq (p := p) (by simp [refs,hc,Call.refs])
  have hrefs (c : Buf) (q : P) : ((s.fill p b).refs q).count c=(s.refs q).count c := by
    by_cases hq : q=p
    · subst hq
      cases hv : s.valid b <;> simp [Bio.fill,hv,refs,hc,Call.refs]
    · cases hv : s.valid b <;> simp [Bio.fill,hv,refs,hq]
  have hlocks (c : Buf) (q : P) : ((s.fill p b).locks q).count c=(s.locks q).count c := by
    by_cases hq : q=p
    · subst hq
      cases hv : s.valid b <;> simp [Bio.fill,hv,locks,hc,Call.locks]
    · cases hv : s.valid b <;> simp [Bio.fill,hv,locks,hq]
  have hvalid (c : Buf) : (s.fill p b).valid c=(decide (c=b) || s.valid c) := by
    by_cases hcb : c=b
    · cases hv : s.valid b <;> simp [Bio.fill,hv,hcb]
    · cases hv : s.valid b <;> simp [Bio.fill,hv,hcb]
  have hkey : (s.fill p b).dev=s.dev ∧ (s.fill p b).blockno=s.blockno ∧
      (s.fill p b).refcnt=s.refcnt ∧ (s.fill p b).lock=s.lock ∧
      (s.fill p b).links=s.links ∧ (s.fill p b).disk=s.disk := by
    cases hv : s.valid b <;> simp [Bio.fill,hv]
  obtain ⟨hd,hno,hr,hl,hk,hdisk⟩ := hkey
  exact {
    ring := hk ▸ h.ring
    unused := fun c hcd => by
      rw [hd] at hcd
      have hcb : c≠b := fun hcb => hcd (hcb ▸ hdev)
      simpa [hvalid,hcb,hr] using h.unused c hcd
    unique := by simpa only [hd,hno] using h.unique
    refcnt := fun c => by simpa only [hrefs,hd,hno,hr] using h.refcnt c
    lock := fun c q => by simpa only [hlocks,hl] using h.lock c q
    valid := fun q c hcq => by
      by_cases hcb : c=b
      · simp [hvalid,hcb]
      · have hold : c∈s.held q := by
          by_cases hq : q=p
          · subst hq
            cases hv : s.valid b <;> simpa [Bio.fill,hv,hcb] using hcq
          · cases hv : s.valid b <;> simpa [Bio.fill,hv,hq] using hcq
        simp [hvalid,h.valid q c hold]
    cached := by simpa only [hd,hno] using h.cached
    clean := fun c hcv hns hnp => by
      rw [hno] at hnp ⊢
      rw [hdisk]
      by_cases hcb : c=b
      · subst hcb
        cases hv : s.valid c with
        | true => simpa [Bio.fill,hv] using h.clean c hv hns hnp
        | false => simp [Bio.fill,hv]
      · have hcs : s.valid c=true := by simpa [hvalid,hcb] using hcv
        have hdata : (s.fill p b).data c=s.data c := by
          cases hv : s.valid b <;> simp [Bio.fill,hv,hcb]
        rw [hdata]
        exact h.clean c hcs hns hnp
    scratch_held := fun c hcs => by
      obtain ⟨q,hq⟩ := h.scratch_held c hcs
      refine ⟨q,?_⟩
      by_cases hqp : q=p
      · subst hqp
        cases hv : s.valid b <;> simp [Bio.fill,hv,hq]
      · cases hv : s.valid b <;> simpa [Bio.fill,hv,hqp] using hq
    asked := fun q d x hq => by
      by_cases hqp : q=p
      · subst hqp
        cases hv : s.valid b <;> simp [Bio.fill,hv] at hq
      · refine h.asked q d x ?_
        cases hv : s.valid b <;> simpa [Bio.fill,hv,hqp] using hq }

theorem Coherent.releasesleep (hc : s.call p=.releasesleep b) :
    ({ s with lock := update s.lock b none }.setCall p (.unref b)).Coherent dev pinned scratch := by
  have hl : s.lock b=some p := h.lock_eq (by simp [locks,hc,Call.locks])
  exact { h with
    refcnt := fun c => h.refcnt_move p (fun q hq => by simp [refs,setCall,hq]) rfl rfl
      (by simp [refs,hc,Call.refs,setCall])
    lock := fun c q => by
      have hcq := h.lock c q
      by_cases hq : q=p
      · subst hq
        by_cases hcb : c=b
        · subst hcb
          simpa [locks,hc,setCall,Call.locks,hl] using hcq
        · simpa [locks,hc,setCall,Call.locks,hcb,Ne.symm hcb] using hcq
      · by_cases hcb : c=b
        · subst hcb
          simpa [locks,setCall,hq,hl,Ne.symm hq] using hcq
        · simpa [locks,setCall,hq,hcb] using hcq
    asked := setCall_asked h.asked (by simp) }

theorem Coherent.unref (hc : s.call p=.unref b) : (s.unref p b).Coherent dev pinned scratch := by
  have hpos : 0 < s.refcnt b := h.refcnt_pos (p := p) (by simp [refs,hc,Call.refs])
  exact { h with
    ring := by
      obtain ⟨l,hl,hall⟩ := h.ring
      by_cases hz : s.refcnt b-1=0
      · obtain ⟨l',hl',hmem⟩ := hl.move (hall b)
        exact ⟨l',by simpa [Bio.unref,setCall,hz] using hl',fun c => (hmem c).mpr (hall c)⟩
      · exact ⟨l,by simpa [Bio.unref,setCall,hz] using hl,hall⟩
    unused := fun c hcd => by
      have hcs := h.unused c hcd
      have hcb : c≠b := fun hcb => by
        subst hcb
        omega
      simpa [Bio.unref,setCall,hcb] using hcs
    refcnt := fun c => h.refcnt_move p (fun q hq => by simp [Bio.unref,refs,setCall,hq]) rfl rfl
      (by
        by_cases hcb : c=b
        · subst hcb
          simp [Bio.unref,refs,hc,Call.refs,setCall]
          omega
        · simp [Bio.unref,refs,hc,Call.refs,setCall,hcb,Ne.symm hcb])
    lock := fun c q => by
      rw [Bio.unref,setCall_locks _ (by simp [hc,Call.locks])]
      exact h.lock c q
    asked := setCall_asked h.asked (by simp) }

/-! What processes do with the buffers they hold. -/

theorem Coherent.setData (scratch' : Buf → Prop)
    (hb : b∈s.held p) (d : Data) (hmark : scratch' b ∨ s.blockno b∈pinned)
    (hkeep : ∀ c, scratch c → scratch' c) (hsub : ∀ c, scratch' c → scratch c ∨ c=b) :
    (s.setData b d).Coherent dev pinned scratch' :=
  { h with
    clean := fun c hv hns hnp => by
      have hcb : c≠b := fun hcb => by
        subst hcb
        exact hmark.elim hns hnp
      simpa [Bio.setData,hcb] using h.clean c hv (mt (hkeep c) hns) hnp
    scratch_held := fun c hc => (hsub c hc).elim (h.scratch_held c) fun hcb => ⟨p,hcb ▸ hb⟩ }

theorem Coherent.bwrite (scratch' : Buf → Prop)
    (hb : b∈s.held p) (hkeep : ∀ c, scratch c → c≠b → scratch' c)
    (hsub : ∀ c, scratch' c → scratch c) :
    ({ s with disk := update s.disk (s.blockno b) (s.data b) } : Bio P).Coherent
      dev pinned scratch' :=
  { h with
    clean := fun c hv hns hnp => by
      by_cases hcb : c=b
      · simp [hcb]
      · have hcd : s.dev c=dev := by
          by_contra hcd
          simp [(h.unused c hcd).1] at hv
        have hno : s.blockno c≠s.blockno b := fun hno =>
          hcb (h.unique c b hcd (h.dev_eq (mem_refs_of_held hb)) hno)
        simpa [hno] using h.clean c hv (fun hs => hns (hkeep c hs hcb)) hnp
    scratch_held := fun c hc => h.scratch_held c (hsub c hc) }

theorem Coherent.unmark {scratch' : Buf → Prop}
    (hkeep : ∀ c, scratch c → scratch' c ∨ s.blockno c∈pinned)
    (hsub : ∀ c, scratch' c → scratch c) : s.Coherent dev pinned scratch' :=
  { h with
    clean := fun c hv hns hnp => h.clean c hv (fun hs => (hkeep c hs).elim hns hnp) hnp
    scratch_held := fun c hc => h.scratch_held c (hsub c hc) }

theorem Coherent.pinned_other {pinned' : List Nat} {c : Buf} (hdev : s.dev b=dev) (hcb : c≠b)
    (hp : ∀ x, x≠s.blockno b → (x∈pinned' ↔ x∈pinned)) :
    (s.dev c=dev ∧ s.blockno c∈pinned') ↔ (s.dev c=dev ∧ s.blockno c∈pinned) :=
  and_congr_right fun hcd => hp _ fun hno => hcb (h.unique c b hcd hdev hno)

theorem Coherent.bpin {pinned' : List Nat} (hb : b∈s.held p)
    (hn : s.blockno b∉pinned) (hp : ∀ x, x∈pinned' ↔ x∈pinned ∨ x=s.blockno b) :
    (s.bpin b).Coherent dev pinned' scratch := by
  have hdev := h.dev_eq (mem_refs_of_held hb)
  exact { h with
    unused := fun c hcd => by
      have hcb : c≠b := fun hcb => hcd (hcb ▸ hdev)
      simpa [Bio.bpin,hcb] using h.unused c hcd
    refcnt := fun c => by
      have hc := h.refcnt c
      by_cases hcb : c=b
      · subst hcb
        rw [if_neg (by simp [hn])] at hc
        rw [if_pos ⟨hdev,(hp _).mpr (.inr rfl)⟩]
        simp only [Bio.bpin,update_self]
        change s.refcnt c+1 = ∑ q, (s.refs q).count c+1
        omega
      · have hiff := h.pinned_other hdev hcb fun x hx => (hp x).trans (or_iff_left hx)
        simp only [Bio.bpin,ne_eq,hcb,not_false_eq_true,update_of_ne,hiff]
        exact hc
    cached := fun x hx => ((hp x).mp hx).elim (h.cached x) fun hx => ⟨b,hdev,hx.symm⟩
    clean := fun c hv hns hnp => h.clean c hv hns fun hcp => hnp ((hp _).mpr (.inl hcp)) }

theorem Coherent.bunpin (pinned' : List Nat)
    (hb : b∈s.held p) (hin : s.blockno b∈pinned) (hclean : s.data b=s.disk (s.blockno b))
    (hp : ∀ x, x∈pinned' ↔ x∈pinned ∧ x≠s.blockno b) :
    (s.bunpin b).Coherent dev pinned' scratch := by
  have hdev := h.dev_eq (mem_refs_of_held hb)
  exact { h with
    unused := fun c hcd => by
      have hcb : c≠b := fun hcb => hcd (hcb ▸ hdev)
      simpa [Bio.bunpin,hcb] using h.unused c hcd
    refcnt := fun c => by
      have hc := h.refcnt c
      by_cases hcb : c=b
      · subst hcb
        rw [if_pos ⟨hdev,hin⟩] at hc
        rw [if_neg (by simp [Bio.bunpin,hp])]
        simp only [Bio.bunpin,update_self]
        change s.refcnt c-1 = ∑ q, (s.refs q).count c+0
        omega
      · have hiff := h.pinned_other hdev hcb fun x hx => (hp x).trans (and_iff_left hx)
        simp only [Bio.bunpin,ne_eq,hcb,not_false_eq_true,update_of_ne,hiff]
        exact hc
    cached := fun x hx => h.cached x ((hp x).mp hx).1
    clean := fun c hv hns hnp => by
      by_cases hcb : c=b
      · subst hcb
        exact hclean
      · have hcd : s.dev c=dev := by
          by_contra hcd
          have := (h.unused c hcd).1
          exact absurd hv (by simp [Bio.bunpin,this])
        refine h.clean c hv hns fun hcp => hnp ((hp _).mpr ⟨hcp,fun hno => ?_⟩)
        exact hcb (h.unique c b hcd hdev hno) }

theorem Coherent.contents_setData (hb : b∈s.held p) (d : Data) (x : Nat) :
    (s.setData b d).contents dev x=update (s.contents dev) (s.blockno b) d x := by
  by_cases hx : x=s.blockno b
  · subst hx
    refine (contents_of_valid (s := s.setData b d) h.unique (h.valid p b hb)
      (h.dev_eq (mem_refs_of_held hb))).trans ?_
    simp [Bio.setData]
  · rw [update_of_ne hx]
    by_cases hc : ∃ c, s.valid c=true ∧ s.dev c=dev ∧ s.blockno c=x
    · obtain ⟨c,hv,hd,rfl⟩ := hc
      have hcb : c≠b := fun hcb => hx (by rw [hcb])
      rw [contents_of_valid h.unique hv hd]
      refine (contents_of_valid (s := s.setData b d) h.unique hv hd).trans ?_
      simp [Bio.setData,hcb]
    · rw [contents_of_clean fun c hv hd hno => absurd ⟨c,hv,hd,hno⟩ hc]
      exact contents_of_clean (s := s.setData b d)
        fun c hv hd hno => absurd ⟨c,hv,hd,hno⟩ hc

theorem Coherent.contents_bwrite (hb : b∈s.held p)
    (x : Nat) : ({ s with disk := update s.disk (s.blockno b) (s.data b) } : Bio P).contents dev x =
      s.contents dev x := by
  by_cases hx : x=s.blockno b
  · subst hx
    rw [h.contents_held hb]
    exact contents_of_valid
      (s := { s with disk := update s.disk (s.blockno b) (s.data b) }) h.unique
      (h.valid p b hb) (h.dev_eq (mem_refs_of_held hb))
  · exact contents_congr rfl rfl rfl rfl (update_of_ne hx _ _)

end Facts
end Bio
end Xv6.BufferCache
