import Xv6.BufferCoherence

/-! The steps of `bread` and `brelse`, taken together: what one of them can do,
what it leaves as it was, and where it brings the process that takes it. -/
namespace Xv6.BufferCache.Bio
open Function
variable {P : Type*} {dev x : Nat} {s t : Bio P} {p q : P} {b : Buf} {rest : List Buf}

/-! Where a process stands in its use of the cache. -/

/-- Process `p` is fetching block `x`, or has just been given its buffer, with
the buffers `rest` in hand. -/
def Fetching (s : Bio P) (p : P) (x : Nat) (rest : List Buf) : Prop :=
  match s.call p with
  | .bget _ y => y=x ∧ s.held p=rest
  | .acquiresleep b | .fill b => s.blockno b=x ∧ s.held p=rest
  | .idle => ∃ b, s.held p=b :: rest ∧ s.blockno b=x
  | .releasesleep _ | .unref _ => False

def Keeping (s : Bio P) (p : P) (rest : List Buf) : Prop :=
  s.held p=rest ∧
    match s.call p with
    | .idle | .releasesleep _ | .unref _ => True
    | .bget _ _ | .acquiresleep _ | .fill _ => False

def Within (s : Bio P) (p : P) (H : Nat → Prop) : Prop :=
  (∀ b∈s.refs p, H (s.blockno b)) ∧ ∀ d x, s.call p=.bget d x → H x

structure Frame (dev : Nat) (s t : Bio P) (p : P) : Prop where
  disk : t.disk=s.disk
  contents : ∀ x, t.contents dev x=s.contents dev x
  blockno : ∀ b, 0 < s.refcnt b → t.blockno b=s.blockno b
  data : ∀ b, 0 < s.refcnt b → s.valid b=true → t.data b=s.data b
  call : ∀ q, q≠p → t.call q=s.call q
  held : ∀ q, q≠p → t.held q=s.held q

theorem Frame.refl (dev : Nat) (s : Bio P) (p : P) : Frame dev s s p :=
  ⟨rfl,fun _ => rfl,fun _ _ => rfl,fun _ _ _ => rfl,fun _ _ => rfl,fun _ _ => rfl⟩

theorem Frame.refs (h : Frame dev s t p) (hq : q≠p) : t.refs q=s.refs q := by
  simp [Bio.refs,h.call q hq,h.held q hq]

theorem Fetching.mem_held (hf : s.Fetching p x rest) (hb : b∈rest) : b∈s.held p := by
  unfold Fetching at hf
  cases hc : s.call p with
  | idle =>
    simp only [hc] at hf
    obtain ⟨c,hc,-⟩ := hf
    simp [hc,hb]
  | bget d y | acquiresleep c | fill c =>
    simp only [hc] at hf
    exact hf.2 ▸ hb
  | releasesleep c | unref c => simp [hc] at hf

theorem Frame.keeping (hf : Frame dev s t q) (hp : p≠q)
    (hk : s.Keeping p rest) : t.Keeping p rest := by
  simpa only [Keeping,hf.call p hp,hf.held p hp] using hk

/-- Process `p` stands where it stood, or further on in its own call: it has the
buffers it had, with the same blocks and data in them. -/
structure Stands (dev : Nat) (s t : Bio P) (p : P) : Prop where
  disk : t.disk=s.disk
  contents : ∀ x, t.contents dev x=s.contents dev x
  blockno : ∀ b∈s.held p, t.blockno b=s.blockno b
  data : ∀ b∈s.held p, t.data b=s.data b
  held : ∀ b∈s.held p, b∈t.held p
  idle : s.call p=.idle → t.call p=.idle ∧ t.held p=s.held p
  fetching : ∀ x rest, s.Fetching p x rest → t.Fetching p x rest
  keeping : ∀ rest, s.Keeping p rest → t.Keeping p rest
  within : ∀ H, s.Within p H → t.Within p H

theorem Stands.refl (dev : Nat) (s : Bio P) (p : P) : Stands dev s s p :=
  ⟨rfl,fun _ => rfl,fun _ _ => rfl,fun _ _ => rfl,fun _ hb => hb,fun hi => ⟨hi,rfl⟩,
    fun _ _ hf => hf,fun _ hk => hk,fun _ hw => hw⟩

theorem bpin_stands (s : Bio P) (b : Buf) (p : P) : Stands dev s (s.bpin b) p :=
  ⟨rfl,fun _ => rfl,fun _ _ => rfl,fun _ _ => rfl,fun _ hb => hb,fun hi => ⟨hi,rfl⟩,
    fun _ _ hf => hf,fun _ hk => hk,fun _ hw => hw⟩

/-! The steps. -/

variable [DecidableEq P]

inductive Advanced (s : Bio P) (p : P) : Bio P → Prop
  | hit {d x : Nat} {b : Buf} (hc : s.call p=.bget d x) (hd : s.dev b=d)
      (hx : s.blockno b=x) : Advanced s p
        ({ s with refcnt := update s.refcnt b (s.refcnt b+1) }.setCall p (.acquiresleep b))
  | recycle {d x : Nat} {b : Buf} (hc : s.call p=.bget d x) (hfree : s.refcnt b=0)
      (hx : ∀ c, ¬(s.dev c=d ∧ s.blockno c=x)) : Advanced s p
        ({ s with
          dev := update s.dev b d
          blockno := update s.blockno b x
          valid := update s.valid b false
          refcnt := update s.refcnt b 1 }.setCall p (.acquiresleep b))
  | acquiresleep {b : Buf} (hc : s.call p=.acquiresleep b) (hl : s.lock b=none) :
      Advanced s p ({ s with lock := update s.lock b (some p) }.setCall p (.fill b))
  | fill {b : Buf} (hc : s.call p=.fill b) : Advanced s p (s.fill p b)
  | releasesleep {b : Buf} (hc : s.call p=.releasesleep b) :
      Advanced s p ({ s with lock := update s.lock b none }.setCall p (.unref b))
  | unref {b : Buf} (hc : s.call p=.unref b) : Advanced s p (s.unref p b)

theorem Advanced.mem_held (hadv : Advanced s p t) (hb : b∈s.held q) : b∈t.held q := by
  cases hadv with
  | hit hc hd hx | recycle hc hfree hx | acquiresleep hc hl | releasesleep hc | unref hc => exact hb
  | @fill c hc =>
    by_cases hq : q=p
    · subst hq
      cases hv : s.valid c <;> simp [Bio.fill,hv,hb]
    · cases hv : s.valid c <;> simpa [Bio.fill,hv,hq] using hb

theorem Advanced.call_ne (hadv : Advanced s p t) : s.call p≠.idle := by
  cases hadv with
  | hit hc hd hx | recycle hc hfree hx | acquiresleep hc hl | fill hc | releasesleep hc
  | unref hc => simp [hc]

theorem bread_frame (dev : Nat) (s : Bio P) (p : P) (d x : Nat) : Frame dev s (s.bread p d x) p :=
  ⟨rfl,fun _ => rfl,fun _ _ => rfl,fun _ _ _ => rfl,
    fun q hq => by simp [Bio.bread,setCall,hq],fun _ _ => rfl⟩

theorem brelse_frame (dev : Nat) (s : Bio P) (p : P) (b : Buf) : Frame dev s (s.brelse p b) p :=
  ⟨rfl,fun _ => rfl,fun _ _ => rfl,fun _ _ _ => rfl,
    fun q hq => by simp [Bio.brelse,setCall,hq],fun q hq => by simp [Bio.brelse,setCall,hq]⟩

section Kept
variable [Fintype P] {pinned : List Nat} {scratch : Buf → Prop} (h : s.Coherent dev pinned scratch)
include h

theorem Coherent.advanced (hadv : s.advance p=some (.ok t)) : Advanced s p t := by
  unfold advance at hadv
  cases hc : s.call p with
  | idle => simp [hc] at hadv
  | bget d x =>
    simp only [hc,Option.some.injEq,bget] at hadv
    cases hl : s.lookup d x with
    | some b =>
      obtain ⟨hd,hx⟩ := lookup_some hl
      simp only [hl,Except.ok.injEq] at hadv
      exact hadv ▸ .hit hc hd hx
    | none =>
      cases hv : s.victim with
      | none => simp [hl,hv] at hadv
      | some b =>
        simp only [hl,hv,Except.ok.injEq] at hadv
        exact hadv ▸ .recycle hc (victim_some hv) (h.lookup_none hl)
  | acquiresleep b =>
    by_cases hl : s.lock b=none
    · simp only [hc,Bio.acquiresleep,hl,if_true,Option.map_some,Option.some.injEq,
        Except.ok.injEq] at hadv
      exact hadv ▸ .acquiresleep hc hl
    · simp [hc,Bio.acquiresleep,hl] at hadv
  | fill b =>
    simp only [hc,Option.some.injEq,Except.ok.injEq] at hadv
    exact hadv ▸ .fill hc
  | releasesleep b =>
    cases hh : s.holdingsleep p b with
    | false => simp [hc,Bio.releasesleep,hh] at hadv
    | true =>
      simp only [hc,Bio.releasesleep,hh,if_true,Option.some.injEq,Except.ok.injEq] at hadv
      exact hadv ▸ .releasesleep hc
  | unref b =>
    simp only [hc,Option.some.injEq,Except.ok.injEq] at hadv
    exact hadv ▸ .unref hc

theorem Coherent.advance (hadv : Advanced s p t) : t.Coherent dev pinned scratch := by
  cases hadv with
  | hit hc hd hx => exact h.bget_hit hc (hd.trans (h.asked p _ _ hc))
  | recycle hc hfree hx =>
    obtain rfl := h.asked p _ _ hc
    exact h.bget_recycle hc hfree hx
  | acquiresleep hc hl => exact h.acquiresleep hc hl
  | fill hc => exact h.fill hc
  | releasesleep hc => exact h.releasesleep hc
  | unref hc => exact h.unref hc

theorem Coherent.advanced_dev (hadv : Advanced s p t)
    (b : Buf) : t.dev b=s.dev b ∨ t.dev b=dev := by
  cases hadv with
  | hit hc hd hx | acquiresleep hc hl | releasesleep hc | unref hc => exact .inl rfl
  | @fill c hc => cases hv : s.valid c <;> simp [Bio.fill,hv]
  | @recycle d x c hc hfree hx =>
    obtain rfl := h.asked p _ _ hc
    by_cases hb : b=c
    · exact .inr (by simp [setCall,hb])
    · exact .inl (by simp [setCall,hb])

theorem Coherent.frame (hadv : Advanced s p t) : Frame dev s t p := by
  have ht := h.advance hadv
  cases hadv with
  | hit hc hd hx | acquiresleep hc hl | releasesleep hc =>
    exact ⟨rfl,fun _ => rfl,fun _ _ => rfl,fun _ _ _ => rfl,
      fun q hq => by simp [setCall,hq],fun _ _ => rfl⟩
  | @recycle d x b hc hfree hx =>
    have hne {c : Buf} (hpos : 0 < s.refcnt c) : c≠b := fun hcb => by
      subst hcb
      omega
    refine ⟨rfl,?_,fun c hpos => by simp [setCall,hne hpos],fun _ _ _ => rfl,
      fun q hq => by simp [setCall,hq],fun _ _ => rfl⟩
    refine contents_swap (b := b) h.unique ht.unique rfl (fun c hcb => ?_) (h.free_clean hfree) ?_
    · simp [setCall,hcb]
    · simp [setCall]
  | @fill b hc =>
    cases hv : s.valid b with
    | true =>
      simp only [Bio.fill,hv,if_true] at ht ⊢
      exact ⟨rfl,fun _ => rfl,fun _ _ => rfl,fun _ _ _ => rfl,fun q hq => by simp [hq],
        fun q hq => by simp [hq]⟩
    | false =>
      have hne {c : Buf} (hvc : s.valid c=true) : c≠b := fun hcb => by simp [hcb,hv] at hvc
      simp only [Bio.fill,hv,Bool.false_eq_true,if_false] at ht ⊢
      refine ⟨rfl,?_,fun _ _ => rfl,fun c _ hvc => by simp [hne hvc],fun q hq => by simp [hq],
        fun q hq => by simp [hq]⟩
      refine contents_swap (b := b) h.unique ht.unique rfl (fun c hcb => ?_) ?_ ?_
      · simp [hcb]
      · simp [hv]
      · simp
  | unref hc =>
    exact ⟨rfl,fun _ => rfl,fun _ _ => rfl,fun _ _ _ => rfl,
      fun q hq => by simp [Bio.unref,setCall,hq],fun _ _ => rfl⟩

/-! A process stands where it stood when another one moves, -/

theorem Frame.fetching (hf : Frame dev s t q) (hp : p≠q) (hfetch : s.Fetching p x rest) :
    t.Fetching p x rest := by
  have hkey (b : Buf) (hb : b∈s.refs p) : t.blockno b=s.blockno b :=
    hf.blockno b (h.refcnt_pos hb)
  unfold Fetching at hfetch ⊢
  rw [hf.call p hp,hf.held p hp]
  cases hc : s.call p with
  | idle =>
    simp only [hc] at hfetch ⊢
    obtain ⟨b,hb,hx⟩ := hfetch
    exact ⟨b,hb,by rw [hkey b (mem_refs_of_held (by simp [hb])),hx]⟩
  | bget d y => simpa [hc] using hfetch
  | acquiresleep b | fill b =>
    simp only [hc] at hfetch ⊢
    exact ⟨by rw [hkey b (by simp [Bio.refs,hc,Call.refs]),hfetch.1],hfetch.2⟩
  | releasesleep b | unref b => simp [hc] at hfetch

theorem Frame.within (hf : Frame dev s t q) (hp : p≠q)
    {H : Nat → Prop} (hw : s.Within p H) : t.Within p H := by
  refine ⟨fun b hb => ?_,fun d x hx => hw.2 d x (hf.call p hp ▸ hx)⟩
  rw [hf.refs hp] at hb
  rw [hf.blockno b (h.refcnt_pos hb)]
  exact hw.1 b hb

/-! and moves on in its own steps. -/

theorem Coherent.fetching (hadv : Advanced s q t) (hf : s.Fetching p x rest) :
    t.Fetching p x rest := by
  by_cases hp : p=q
  · subst hp
    cases hadv with
    | hit hc hd hx =>
      simp only [Fetching,hc] at hf
      exact (by simp [Fetching,setCall,hx,hf])
    | recycle hc hfree hx =>
      simp only [Fetching,hc] at hf
      exact (by simp [Fetching,setCall,hf])
    | acquiresleep hc hl => simpa [Fetching,setCall,hc] using hf
    | @fill b hc =>
      simp only [Fetching,hc] at hf
      cases hv : s.valid b <;> simp [Fetching,Bio.fill,hv,hf]
    | releasesleep hc | unref hc => simp [Fetching,hc] at hf
  · exact (h.frame hadv).fetching h hp hf

theorem Coherent.keeping (hadv : Advanced s q t) (hk : s.Keeping p rest) : t.Keeping p rest := by
  by_cases hp : p=q
  · subst hp
    cases hadv with
    | hit hc hd hx | recycle hc hfree hx | acquiresleep hc hl | fill hc => simp [Keeping,hc] at hk
    | releasesleep hc => simpa [Keeping,setCall,hc] using hk
    | unref hc => simpa [Keeping,Bio.unref,setCall,hc] using hk
  · exact (h.frame hadv).keeping hp hk

theorem Coherent.within (hadv : Advanced s q t)
    {H : Nat → Prop} (hw : s.Within p H) : t.Within p H := by
  have hframe := h.frame hadv
  by_cases hp : p=q
  · subst hp
    have hold (b : Buf) (hb : b∈s.refs p) : H (t.blockno b) := by
      rw [hframe.blockno b (h.refcnt_pos hb)]
      exact hw.1 b hb
    refine ⟨fun b hb => ?_,fun d x hx => ?_⟩
    · cases hadv with
      | @hit d x c hc hd hx =>
        simp only [setCall_refs_self,Call.refs,List.cons_append,List.mem_cons] at hb
        rcases hb with rfl | hb
        · exact hx ▸ hw.2 d x hc
        · exact hold b (mem_refs_of_held hb)
      | @recycle d x c hc hfree hx =>
        simp only [setCall_refs_self,Call.refs,List.cons_append,List.mem_cons] at hb
        rcases hb with rfl | hb
        · simpa [setCall] using hw.2 d x hc
        · exact hold b (mem_refs_of_held hb)
      | acquiresleep hc hl | releasesleep hc =>
        exact hold b (by simpa [refs,hc,Call.refs,setCall] using hb)
      | @fill c hc =>
        refine hold b ?_
        cases hv : s.valid c <;> simpa [refs,hc,Call.refs,Bio.fill,hv] using hb
      | @unref c hc =>
        exact hold b (List.mem_append_right _ (by simpa [refs,Bio.unref,setCall,Call.refs] using hb))
    · cases hadv with
      | @fill c hc => cases hv : s.valid c <;> simp [Bio.fill,hv] at hx
      | hit hc hd hx' | recycle hc hfree hx' | acquiresleep hc hl | releasesleep hc =>
        simp [setCall] at hx
      | unref hc => simp [Bio.unref,setCall] at hx
  · exact hframe.within h hp hw

theorem Frame.stands (hf : Frame dev s t q) (hp : p≠q) : Stands dev s t p where
  disk := hf.disk
  contents := hf.contents
  blockno b hb := hf.blockno b (h.refcnt_pos (mem_refs_of_held hb))
  data b hb := hf.data b (h.refcnt_pos (mem_refs_of_held hb)) (h.valid p b hb)
  held _ hb := hf.held p hp ▸ hb
  idle hi := ⟨(hf.call p hp).trans hi,hf.held p hp⟩
  fetching _ _ hfetch := hf.fetching h hp hfetch
  keeping _ hk := hf.keeping hp hk
  within _ hw := hf.within h hp hw

theorem Coherent.stands (hadv : Advanced s q t) (p : P) : Stands dev s t p where
  disk := (h.frame hadv).disk
  contents := (h.frame hadv).contents
  blockno b hb := (h.frame hadv).blockno b (h.refcnt_pos (mem_refs_of_held hb))
  data b hb := (h.frame hadv).data b (h.refcnt_pos (mem_refs_of_held hb)) (h.valid p b hb)
  held _ hb := hadv.mem_held hb
  idle hi := by
    have hp : p≠q := fun hp => hadv.call_ne (hp ▸ hi)
    exact ⟨((h.frame hadv).call p hp).trans hi,(h.frame hadv).held p hp⟩
  fetching _ _ hfetch := h.fetching hadv hfetch
  keeping _ hk := h.keeping hadv hk
  within _ hw := h.within hadv hw

end Kept

end Xv6.BufferCache.Bio
