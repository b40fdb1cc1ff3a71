import Xv6.VirtioInvariant
import Mathlib.Tactic.Abel

/-! The statements of `virtio_disk_rw` keep the invariant. Most of them write only what the
call owns; those that do not take or give back descriptors, take or give up the lock, or
make the request. -/
namespace Xv6.Virtio
open Function Xv6.Machine Xv6.RingIndex
open Xv6.Proc (Slot)
variable {s t : Sys} {p q : Slot} {c : Chain} {k : Pc} {r : Request}

variable {desc' : Nat → Desc} {ops' : Nat → BlkReq} {info' : Nat → Info} {busy' : Buf → Bool}
  {ring' : Nat → Nat} {free' : Nat → Bool} {lock' : Option Holder} {sleeping' : Slot → Option Chan}

theorem Inv.builtAt (h : Inv s) (hpc : s.pc p=k) : s.Built p k := hpc ▸ h.built p

theorem Inv.nodupAt (h : Inv s) (hpc : s.pc p=k) : k.descs.Nodup := hpc ▸ h.nodup p

theorem ne_idle_update (hpi : s.pc p≠.idle) : update s.pc p k q≠.idle → s.pc q≠.idle := by
  by_cases hq : q=p
  · rw [hq]
    exact fun _ => hpi
  · rw [update_of_ne hq]
    exact id

theorem Inv.owns_turn (h : Inv s) (hnodup : k.descs.Nodup)
    (howned : ∀ d∈k.descs, d < num ∧ free' d=false)
    (hothers : ∀ q, q≠p → ∀ d∈(s.pc q).descs, d∉k.descs ∧ free' d=false)
    (hused : ∀ d < num, free' d=false → d∈k.descs ∨ s.free d=false ∧ d∉(s.pc p).descs) :
    Owned free' fun q => (update s.pc p k q).descs := by
  refine ⟨?_,?_,fun q q' hqq => ?_,fun d hd hf => ?_⟩
  · exact (forall_update_iff s.pc fun _ k => k.descs.Nodup).mpr ⟨hnodup,fun q _ => h.nodup q⟩
  · exact (forall_update_iff s.pc fun _ k => ∀ d∈k.descs, d < num ∧ free' d=false).mpr
      ⟨howned,fun q hq d hd => ⟨(h.owned q d hd).1,(hothers q hq d hd).2⟩⟩
  · by_cases hq : q=p
    · rw [hq,update_self,update_of_ne (hq ▸ hqq.symm)]
      exact fun d hd hd' => (hothers q' (hq ▸ hqq.symm) d hd').1 hd
    · rw [update_of_ne hq]
      by_cases hq' : q'=p
      · rw [hq',update_self]
        exact fun d hd => (hothers q hq d hd).1
      · rw [update_of_ne hq']
        exact h.apart q q' hqq
  · rcases hused d hd hf with hk | ⟨hfree,hp⟩
    · exact ⟨p,by rwa [update_self]⟩
    · obtain ⟨q,hq⟩ := h.owns.used d hd hfree
      have hqp : q≠p := by
        rintro rfl
        exact hp hq
      exact ⟨q,by rwa [update_of_ne hqp]⟩

/-- A step of a call that leaves alone what the other calls own: their descriptors, their
buffers and the entries of the rings. -/
theorem Inv.turn (h : Inv s) (hpi : s.pc p≠.idle) (hnodup : k.descs.Nodup)
    (howned : ∀ d∈k.descs, d < num ∧ free' d=false)
    (hothers : ∀ q, q≠p → ∀ d∈(s.pc q).descs, d∉k.descs ∧ free' d=false)
    (hused : ∀ d < num, free' d=false → d∈k.descs ∨ s.free d=false ∧ d∉(s.pc p).descs)
    (hmem : ∀ q, q≠p → ∀ d∈(s.pc q).descs,
      desc' d=s.desc d ∧ ops' d=s.ops d ∧ info' d=s.info d)
    (hbusy : ∀ b≠(s.call p).b, busy' b=s.busy b)
    (hrw : ∀ q, (update s.pc p k q).holds=true ↔ lock'=some (.rw q))
    (hintr : ∀ c, (s.intr c).holds=true ↔ lock'=some (.intr c))
    (hw : ∀ c, (s.pc p).waits=some c → s.busy (s.call p).b=true →
      k.waits=some c ∧ busy' (s.call p).b=true ∧ info' c.idx0=s.info c.idx0)
    (havail : Holds ring' num s.taken (s.queue.map Request.head))
    (hindex : ∀ q c, update s.pc p k q=.index c → ring' (s.availIdx%num)=c.idx0)
    (hbuilt : Sys.Built { s with
      desc := desc', ops := ops', info := info', busy := busy', availRing := ring' } p k) :
    Inv { s with
      desc := desc', ops := ops', info := info', busy := busy', availRing := ring'
      free := free', lock := lock', sleeping := sleeping', pc := update s.pc p k } := by
  have hbusy' : ∀ q, q≠p → s.pc q≠.idle → busy' (s.call q).b=s.busy (s.call q).b :=
    fun q hq hqi => hbusy _ (h.bufs q p hq hqi hpi)
  exact { h with
    owns := h.owns_turn hnodup howned hothers hused
    bufs := fun q q' hqq hq hq' => h.bufs q q' hqq (ne_idle_update hpi hq) (ne_idle_update hpi hq')
    built := by
      refine (forall_update_iff s.pc fun q => Sys.Built _ q).mpr ⟨hbuilt,fun q hq => ?_⟩
      refine Agrees.built (s := s) ⟨rfl,rfl,?_,?_,?_,hbusy' q hq,?_,fun _ hr => hr⟩ (h.built q)
      · exact fun d hd => (hmem q hq d hd).1
      · exact fun d hd => (hmem q hq d hd).2.1
      · exact fun d hd => congrArg Info.b (hmem q hq d hd).2.2
      · exact fun c _ _ hr => hr
    lockRw := hrw
    lockIntr := hintr
    waiter := fun r hr => by
      obtain ⟨q,c,hqw,hreq,hb⟩ := h.waiter r hr
      refine ⟨q,c,?_,hreq,?_⟩
      · change (update s.pc p k q).waits=some c
        by_cases hq : q=p
        · subst hq
          rw [update_self,(hw c hqw hb).1]
        · rw [update_of_ne hq,hqw]
      · change busy' (s.call q).b=true
        by_cases hq : q=p
        · subst hq
          exact (hw c hqw hb).2.1
        · rw [hbusy' q hq (ne_idle_of_waits hqw),hb]
    zero := fun r hr => by
      have hout : r∈s.outstanding := mem_outstanding.mpr (.inr (.inr hr))
      obtain ⟨q,c,hqw,hreq,hb⟩ := h.waiter r hout
      have hinfo : info' c.idx0=s.info c.idx0 := by
        by_cases hq : q=p
        · subst hq
          exact (hw c hqw hb).2.2
        · exact (hmem q hq _ (mem_descs_of_waits hqw)).2.2
      have hzero := h.zero r hr
      rw [hreq] at hzero ⊢
      change (info' c.idx0).status=0
      rw [hinfo]
      exact hzero
    avail := havail
    indexed := hindex }

variable {k₀ : Pc}

theorem used_of_same {ds : List Nat} (hdescs : ds=(s.pc p).descs) (d : Nat)
    (hf : s.free d=false) : d∈ds ∨ s.free d=false ∧ d∉(s.pc p).descs := by
  rw [hdescs]
  by_cases hd : d∈(s.pc p).descs
  · exact .inl hd
  · exact .inr ⟨hf,hd⟩

theorem Inv.rw_keep (h : Inv s) (hpc : s.pc p=k₀) (hp : k₀.holds=true) (hk : k.holds=true)
    (q : Slot) : (update s.pc p k q).holds=true ↔ s.lock=some (.rw q) := by
  by_cases hq : q=p
  · rw [hq,update_self]
    exact ⟨fun _ => (h.lockRw p).mp (by rw [hpc,hp]),fun _ => hk⟩
  · rw [update_of_ne hq]
    exact h.lockRw q

theorem Inv.indexed_keep (h : Inv s) (hk : ∀ c, k≠.index c) (q : Slot) (c : Chain)
    (hq : update s.pc p k q=.index c) : s.availRing (s.availIdx%num)=c.idx0 := by
  by_cases hqp : q=p
  · rw [hqp,update_self] at hq
    exact absurd hq (hk c)
  · rw [update_of_ne hqp] at hq
    exact h.indexed q c hq

theorem Inv.local (h : Inv s) (hpc : s.pc p=k₀) (hp : k₀.holds=true) (hk : k.holds=true)
    (hdescs : k.descs=k₀.descs) (hw : ∀ c, k₀.waits=some c → s.busy (s.call p).b=false)
    (hmem : ∀ d∉k₀.descs, desc' d=s.desc d ∧ ops' d=s.ops d ∧ info' d=s.info d)
    (hbusy : ∀ b≠(s.call p).b, busy' b=s.busy b)
    (havail : Holds ring' num s.taken (s.queue.map Request.head))
    (hindex : ∀ c, k=.index c → ring' (s.availIdx%num)=c.idx0)
    (hbuilt : Sys.Built { s with
      desc := desc', ops := ops', info := info', busy := busy', availRing := ring' } p k) :
    Inv ({ s with
      desc := desc', ops := ops', info := info', busy := busy', availRing := ring' }.goto p k) := by
  subst hpc
  refine h.turn (k := k) (ne_idle_of_holds hp) (hdescs ▸ h.nodup p) (hdescs ▸ h.owned p)
    (fun q hq d hd => ⟨hdescs ▸ h.apart q p hq d hd,(h.owned q d hd).2⟩)
    (fun d _ => used_of_same hdescs d) (fun q hq d hd => hmem d (h.apart q p hq d hd)) hbusy
    (h.rw_keep rfl hp hk) h.lockIntr
    (fun c hc hb => absurd ((hw c hc).symm.trans hb) Bool.false_ne_true)
    havail (fun q c => ?_) hbuilt
  by_cases hq : q=p
  · rw [hq,update_self]
    exact hindex c
  · rw [update_of_ne hq]
    intro hqc
    exact absurd (h.holder_ne (p := q) (by rw [hqc]; rfl) hp) hq

theorem Inv.rw_acquire (h : Inv s) (hlock : s.lock=none) (hk : k.holds=true) :
    (∀ q, (update s.pc p k q).holds=true ↔ some (Holder.rw p)=some (.rw q)) ∧
      ∀ c, (s.intr c).holds=true ↔ some (Holder.rw p)=some (.intr c) := by
  refine ⟨fun q => ?_,fun c => ?_⟩
  · by_cases hq : q=p
    · simp [hq,hk]
    · rw [update_of_ne hq,h.lockRw q,hlock]
      simp [Ne.symm hq]
  · rw [h.lockIntr c,hlock]
    simp

theorem Inv.rw_release (h : Inv s) (hpc : s.pc p=k₀) (hp : k₀.holds=true) (hk : k.holds=false) :
    (∀ q, (update s.pc p k q).holds=true ↔ (none : Option Holder)=some (.rw q)) ∧
      ∀ c, (s.intr c).holds=true ↔ (none : Option Holder)=some (.intr c) := by
  have hlock := (h.lockRw p).mp (by rw [hpc,hp])
  refine ⟨fun q => ?_,fun c => ?_⟩
  · by_cases hq : q=p
    · simp [hq,hk]
    · rw [update_of_ne hq,h.lockRw q,hlock]
      simp [Ne.symm hq]
  · rw [h.lockIntr c,hlock]
    simp

theorem Inv.relock (h : Inv s) (hpc : s.pc p=k₀) (hpi : k₀≠.idle) (hdescs : k.descs=k₀.descs)
    (hwaits : k.waits=k₀.waits) (hk : ∀ c, k≠.index c)
    (hlock : (∀ q, (update s.pc p k q).holds=true ↔ lock'=some (.rw q)) ∧
      ∀ c, (s.intr c).holds=true ↔ lock'=some (.intr c)) (hbuilt : s.Built p k) :
    Inv ({ s with lock := lock', sleeping := sleeping' }.goto p k) := by
  subst hpc
  exact h.turn (k := k) hpi (hdescs ▸ h.nodup p) (hdescs ▸ h.owned p)
    (fun q hq d hd => ⟨hdescs ▸ h.apart q p hq d hd,(h.owned q d hd).2⟩)
    (fun d _ => used_of_same hdescs d) (fun q hq d hd => ⟨rfl,rfl,rfl⟩) (fun b _ => rfl) hlock.1
    hlock.2 (fun c hc hb => ⟨hwaits.trans hc,hb,rfl⟩) h.avail (h.indexed_keep hk) hbuilt

def Sys.patch (s : Sys) (desc' : Nat → Desc) (free' : Nat → Bool)
    (sleeping' : Slot → Option Chan) : Sys :=
  { s with desc := desc', free := free', sleeping := sleeping' }

theorem allocDesc_spec {i : Nat} (h : s.allocDesc=some (t, i)) :
    i < num ∧ s.free i=true ∧ t=s.patch s.desc (update s.free i false) s.sleeping := by
  obtain ⟨j,hj,heq⟩ := Option.map_eq_some_iff.mp h
  cases heq
  exact ⟨List.mem_range.mp (List.mem_of_find?_eq_some hj),List.find?_some hj,rfl⟩

theorem freeDesc_ok {i : Nat} (hi : i < num) (hf : s.free i=false) :
    ∃ sleeping', s.freeDesc i =
      .ok (s.patch (update s.desc i ⟨.null,0,0,0⟩) (update s.free i true) sleeping') := by
  rw [Sys.freeDesc,if_neg (by omega),hf]
  exact ⟨_,rfl⟩

/-- `alloc3_desc` does not panic. It takes three descriptors that were free, or none: then
descriptors that were free may have been cleared. -/
theorem alloc3Desc_spec (s : Sys) :
    (∃ c : Chain, c.descs.Nodup ∧ (∀ d∈c.descs, d < num ∧ s.free d=true) ∧
      s.alloc3Desc=.ok (s.patch s.desc (fun d => if d∈c.descs then false else s.free d)
        s.sleeping, some c)) ∨
    ∃ desc' sleeping', (∀ d, s.free d=false → desc' d=s.desc d) ∧
      s.alloc3Desc=.ok (s.patch desc' s.free sleeping', none) := by
  unfold Sys.alloc3Desc
  cases h0 : s.allocDesc with
  | none => exact .inr ⟨s.desc,s.sleeping,fun d _ => rfl,rfl⟩
  | some x =>
  obtain ⟨s1,i⟩ := x
  obtain ⟨hi,hif,hs1⟩ := allocDesc_spec h0
  have hs1i : s1.free i=false := by rw [hs1]; exact update_self _ _ _
  dsimp only
  cases h1 : s1.allocDesc with
  | none =>
    obtain ⟨z,hz⟩ := freeDesc_ok hi hs1i
    refine .inr ⟨update s.desc i ⟨.null,0,0,0⟩,z,fun d hd => ?_,?_⟩
    · exact update_of_ne (fun hdi => by simp [hdi,hif] at hd) _ _
    · have hfree : update (update s.free i false) i true=s.free := by
        rw [update_idem,← hif,update_eq_self]
      rw [hz]
      simp [hs1,Sys.patch,hfree,bind,Except.bind]
  | some x =>
  obtain ⟨s2,j⟩ := x
  obtain ⟨hj,hjf,hs2⟩ := allocDesc_spec h1
  have hji : j≠i := by
    rintro rfl
    exact Bool.false_ne_true (hs1i.symm.trans hjf)
  have hjf' : s.free j=true := by simpa [hs1,Sys.patch,hji] using hjf
  dsimp only
  cases h2 : s2.allocDesc with
  | none =>
    have hs2i : s2.free i=false := by simp [hs2,hs1,Sys.patch,Ne.symm hji]
    obtain ⟨z,hz⟩ := freeDesc_ok hi hs2i
    obtain ⟨z',hz'⟩ := freeDesc_ok (i := j) (s := s2.patch (update s2.desc i ⟨.null,0,0,0⟩)
      (update s2.free i true) z) hj (by simp [hs2,Sys.patch,hji])
    refine .inr ⟨update (update s.desc i ⟨.null,0,0,0⟩) j ⟨.null,0,0,0⟩,z',fun d hd => ?_,?_⟩
    · rw [update_of_ne (fun hdj => by simp [hdj,hjf'] at hd),
        update_of_ne (fun hdi => by simp [hdi,hif] at hd)]
    · have hfree : update (update (update (update s.free i false) j false) i true) j true =
          s.free := by
        funext d
        by_cases hdj : d=j
        · simp [hdj,hjf']
        · by_cases hdi : d=i
          · simp [hdi,Ne.symm hji,hif]
          · simp [hdi,hdj]
      rw [hz]
      simp only [bind,Except.bind]
      rw [hz']
      simp [hs1,hs2,Sys.patch,hfree]
  | some x =>
  obtain ⟨s3,k⟩ := x
  obtain ⟨hk,hkf,hs3⟩ := allocDesc_spec h2
  have hkj : k≠j := by
    rintro rfl
    simp [hs2,Sys.patch] at hkf
  have hki : k≠i := by
    rintro rfl
    simp [hs2,hs1,Sys.patch,hkj] at hkf
  have hkf' : s.free k=true := by simpa [hs2,hs1,Sys.patch,hkj,hki] using hkf
  refine .inl ⟨⟨i,j,k⟩,?_,?_,?_⟩
  · simp [Chain.descs,Ne.symm hji,Ne.symm hki,Ne.symm hkj]
  · simp [Chain.descs,hi,hj,hk,hif,hjf',hkf']
  · have hfree : update (update (update s.free i false) j false) k false =
        fun d => if d∈(⟨i,j,k⟩ : Chain).descs then false else s.free d := by
      funext d
      simp only [update_apply,Chain.descs,List.mem_cons,List.not_mem_nil,or_false]
      grind
    simp [hs3,hs2,hs1,Sys.patch,hfree]

theorem uint16_mod_num (n : Nat) : uint16 n%num=n%num := Nat.mod_mod_of_dvd n (by decide)

theorem uint16_succ (n : Nat) : uint16 (uint16 n+1)=uint16 (n+1) := Nat.mod_add_mod n 65536 1

theorem Inv.head_ne (h : Inv s) (hw : (s.pc p).waits=none) {d : Nat} (hd : d∈(s.pc p).descs)
    (hr : r∈s.outstanding) : r.head≠d := by
  obtain ⟨q,c,hqw,rfl,-⟩ := h.waiter r hr
  rintro rfl
  have hqp : q≠p := by
    rintro rfl
    cases hw.symm.trans hqw
  exact h.apart q p hqp _ (mem_descs_of_waits hqw) hd

theorem Inv.queue_lt (h : Inv s) (hw : (s.pc p).waits=none) {d : Nat}
    (hd : d∈(s.pc p).descs) : s.queue.length < num := by
  have hcard := h.card_lt_num (h.owned p d hd).1 fun r hr => h.head_ne hw hd hr
  rw [card_outstanding] at hcard
  omega

def Sys.push (s : Sys) (p : Slot) (r : Request) : Sys :=
  { s with
    availIdx := uint16 (s.availIdx+1)
    serial := update s.serial p r.serial
    queue := s.queue++[r] }

theorem requests_push : (s.push p r).requests=r ::ₘ s.requests := by
  rw [← Multiset.singleton_add]
  simp only [Sys.requests,Sys.outstanding,Sys.push,← Multiset.coe_add,Multiset.coe_singleton]
  abel

theorem mem_outstanding_push {r' : Request} :
    r'∈(s.push p r).outstanding ↔ r'∈s.outstanding ∨ r'=r := by
  simp only [mem_outstanding,Sys.push,List.mem_append,List.mem_singleton]
  tauto

theorem request_push (h : q≠p) : (s.push p r).request q c=s.request q c := by
  simp [Sys.push,Sys.request,h]

theorem Inv.push (h : Inv s) (hpc : s.pc p=.index c) (hserial : r.serial=s.taken+s.queue.length)
    (hr : r=(s.push p r).request p c) : Inv ((s.push p r).goto p (.wait c)) := by
  obtain ⟨hl,hrec,hbusy⟩ := h.builtAt hpc
  have hp : (s.pc p).holds=true := by rw [hpc]; rfl
  have hpi := ne_idle_of_holds hp
  have hslot : s.availIdx%num=(s.taken+(s.queue.map Request.head).length)%num := by
    rw [h.availIdx,uint16_mod_num,List.length_map]
  exact { h with
    owns := h.owns_update (by rw [hpc]; rfl)
    bufs := fun q q' hqq hq hq' => h.bufs q q' hqq (ne_idle_update hpi hq) (ne_idle_update hpi hq')
    built := by
      have hmem : (s.push p r).request p c∈(s.push p r).outstanding :=
        mem_outstanding_push.mpr (.inr hr.symm)
      refine (forall_update_iff s.pc fun q => Sys.Built ((s.push p r).goto p (.wait c)) q).mpr
        ⟨⟨hl,hrec,.inl ⟨hbusy,hmem⟩⟩,fun q hq => ?_⟩
      exact Agrees.built (s := s) ⟨rfl,update_of_ne hq _ _,fun _ _ => rfl,fun _ _ => rfl,fun _ _ => rfl,
        fun _ => rfl,fun _ _ _ hr' => (mem_outstanding_push (p := p)).mpr (.inl hr'),fun _ hr => hr⟩
        (h.built q)
    lockRw := h.rw_keep hpc rfl rfl
    waiter := fun r' hr' => by
      rcases (mem_outstanding_push (p := p)).mp hr' with hold | rfl
      · obtain ⟨q,c',hqw,hreq,hqb⟩ := h.waiter r' hold
        have hq : q≠p := by
          rintro rfl
          rw [hpc] at hqw
          cases hqw
        refine ⟨q,c',?_,hreq.trans (request_push hq).symm,hqb⟩
        change (update s.pc p (.wait c) q).waits=some c'
        rw [update_of_ne hq,hqw]
      · refine ⟨p,c,?_,hr,hbusy⟩
        change (update s.pc p (.wait c) p).waits=some c
        rw [update_self]
        rfl
    serials := by
      change ((s.push p r).requests.map _).Nodup
      rw [requests_push,Multiset.map_cons,Multiset.nodup_cons]
      refine ⟨fun hmem => ?_,h.serials⟩
      obtain ⟨r',hr',heq⟩ := Multiset.mem_map.mp hmem
      have := h.serial_lt r' hr'
      omega
    serial_lt := fun r' hr' => by
      change r'.serial < s.taken+(s.queue++[r]).length
      rw [List.length_append,List.length_singleton]
      have hmem : r'∈(s.push p r).requests := hr'
      rw [requests_push,Multiset.mem_cons] at hmem
      rcases hmem with rfl | hold
      · omega
      · have := h.serial_lt r' hold
        omega
    queued := fun i r' hi => by
      change (s.queue++[r])[i]?=some r' at hi
      rw [List.getElem?_append] at hi
      split at hi
      · exact h.queued i r' hi
      · obtain ⟨hlt,hval⟩ := List.getElem?_eq_some_iff.mp hi
        simp only [List.length_singleton] at hlt
        obtain rfl : r=r' := by simpa using hval
        change r.serial=s.taken+i
        omega
    avail := by
      change Holds s.availRing num s.taken ((s.queue++[r]).map Request.head)
      rw [List.map_append]
      refine h.avail.push ?_
      rw [← hslot,h.indexed p c hpc,hr]
      rfl
    availIdx := by
      change uint16 (s.availIdx+1)=uint16 (s.taken+(s.queue++[r]).length)
      rw [h.availIdx,uint16_succ,List.length_append,List.length_singleton]
      rfl
    indexed := fun q c' => by
      change update s.pc p (.wait c) q=.index c' → _
      by_cases hq : q=p
      · rw [hq,update_self]
        exact fun hkc => absurd hkc (by simp)
      · rw [update_of_ne hq]
        intro hqc
        exact absurd (h.holder_ne (p := q) (by rw [hqc]; rfl) hp) hq }

theorem Inv.freed (h : Inv s) (hpc : s.pc p=k₀) (hp : k₀.holds=true) (hk : k.holds=true)
    (hpw : k₀.waits=none) (hkx : ∀ c, k≠.index c) {i : Nat} (hdescs : k₀.descs=i::k.descs)
    (hbuilt : Sys.Built { s with desc := update s.desc i ⟨.null,0,0,0⟩ } p k) :
    Inv ((s.patch (update s.desc i ⟨.null,0,0,0⟩) (update s.free i true) sleeping').goto p k) := by
  subst hpc
  obtain ⟨hik,hnd⟩ := List.nodup_cons.mp (hdescs ▸ h.nodup p)
  have hi : ∀ q, q≠p → ∀ d∈(s.pc q).descs, d≠i ∧ d∉k.descs := by
    intro q hq d hd
    have := h.apart q p hq d hd
    rw [hdescs,List.mem_cons,not_or] at this
    exact this
  refine h.turn (k := k) (ne_idle_of_holds hp) hnd (fun d hd => ?_) (fun q hq d hd => ?_)
    (fun d hd hf => ?_) (fun q hq d hd => ⟨update_of_ne (hi q hq d hd).1 _ _,rfl,rfl⟩)
    (fun b _ => rfl) (h.rw_keep rfl hp hk) h.lockIntr
    (fun c hc => absurd (hpw.symm.trans hc) (by simp)) h.avail (h.indexed_keep hkx) hbuilt
  · have hown := h.owned p d (by rw [hdescs]; exact List.mem_cons_of_mem i hd)
    have hdi : d≠i := by
      rintro rfl
      exact hik hd
    exact ⟨hown.1,(update_of_ne hdi _ _).trans hown.2⟩
  · exact ⟨(hi q hq d hd).2,(update_of_ne (hi q hq d hd).1 _ _).trans (h.owned q d hd).2⟩
  · change update s.free i true d=false at hf
    by_cases hdi : d=i
    · simp [hdi] at hf
    · rw [update_of_ne hdi] at hf
      by_cases hdk : d∈k.descs
      · exact .inl hdk
      · exact .inr ⟨hf,by simp [hdescs,hdi,hdk]⟩

theorem Inv.allocated (h : Inv s) (hpc : s.pc p=.alloc) (hnd : c.descs.Nodup)
    (hfree : ∀ d∈c.descs, d < num ∧ s.free d=true) :
    Inv ((s.patch s.desc (fun d => if d∈c.descs then false else s.free d) s.sleeping).goto p
      (.header c)) := by
  have hnew : ∀ q, ∀ d∈(s.pc q).descs, d∉c.descs := by
    intro q d hd hdc
    exact Bool.false_ne_true ((h.owned q d hd).2.symm.trans (hfree d hdc).2)
  refine h.turn (k := .header c) (by simp [hpc]) hnd
    (fun d hd => ⟨(hfree d hd).1,if_pos hd⟩)
    (fun q hq d hd => ⟨hnew q d hd,(if_neg (hnew q d hd)).trans (h.owned q d hd).2⟩)
    (fun d hd hf => ?_) (fun q hq d hd => ⟨rfl,rfl,rfl⟩) (fun b _ => rfl) (h.rw_keep hpc rfl rfl)
    h.lockIntr (fun c hc => absurd hc (by simp [hpc,Pc.waits])) h.avail
    (h.indexed_keep (by simp)) trivial
  by_cases hdc : d∈c.descs
  · exact .inl hdc
  · exact .inr ⟨(if_neg hdc).symm.trans hf,by simp [hpc,Pc.descs]⟩

theorem Inv.patched (h : Inv s) (hdesc : ∀ d, s.free d=false → desc' d=s.desc d) :
    Inv (s.patch desc' s.free sleeping') :=
  { h with
    built := fun q =>
      Agrees.built (s := s) ⟨rfl,rfl,fun d hd => hdesc d (h.owned q d hd).2,fun _ _ => rfl,
        fun _ _ => rfl,fun _ => rfl,fun _ _ _ hr => hr,fun _ hr => hr⟩ (h.built q) }

theorem Inv.freeing (h : Inv s) {i : Nat} (hpc : s.pc p=.freeing c i)
    (hs : s.advance p=some t) : Inv t := by
  obtain ⟨hnd,hdone,hrest⟩ := h.builtAt hpc
  obtain ⟨h0,h1,h2⟩ := descs_freeing hnd
  have hne := hnd
  simp only [Chain.descs,List.nodup_cons,List.mem_cons,not_or,List.not_mem_nil] at hne
  obtain ⟨⟨h01,h02,-⟩,⟨h12,-⟩,-⟩ := hne
  have hi : i∈(s.pc p).descs := by
    rw [hpc]
    rcases hrest with ⟨rfl,-⟩ | ⟨rfl,-⟩ | ⟨rfl,-⟩
    · simp [h0,Chain.descs]
    · simp [h1]
    · simp [h2]
  obtain ⟨z,hz⟩ := freeDesc_ok (h.owned p i hi).1 (h.owned p i hi).2
  simp only [Sys.advance,hpc,hz] at hs
  cases hs
  rcases hrest with ⟨rfl,hh,hd,hst⟩ | ⟨rfl,hd,hst⟩ | ⟨rfl,hst⟩
  · rw [hh.1,if_pos (show descNext &&& descNext≠0 by decide)]
    refine h.freed (k := .freeing c c.idx1) hpc rfl rfl rfl (by simp) (by rw [h0,h1]; rfl)
      ⟨hnd,hdone,.inr (.inl ⟨rfl,?_,?_⟩)⟩
    · exact (update_of_ne (Ne.symm h01) _ _).trans hd
    · exact (update_of_ne (Ne.symm h02) _ _).trans hst
  · have hflags : (s.desc c.idx1).flags &&& descNext≠0 := by
      rw [hd]
      change ((if (s.call p).write then 0 else descWrite) ||| descNext) &&& descNext≠0
      cases (s.call p).write
      · decide
      · decide
    rw [if_pos hflags,hd]
    refine h.freed (k := .freeing c c.idx2) hpc rfl rfl rfl (by simp) (by rw [h1,h2])
      ⟨hnd,hdone,.inr (.inr ⟨rfl,?_⟩)⟩
    exact (update_of_ne (Ne.symm h12) _ _).trans hst
  · rw [hst,if_neg (show ¬descWrite &&& descNext≠0 by decide)]
    exact h.freed (k := .release c) hpc rfl rfl rfl (by simp) (by rw [h2]; rfl) hdone

section Places
variable (h : Inv s) (hs : s.advance p=some t)
include h hs

theorem Inv.alloc (hpc : s.pc p=.alloc) : Inv t := by
  simp only [Sys.advance,hpc] at hs
  rcases alloc3Desc_spec s with ⟨c,hnd,hfree,heq⟩ | ⟨desc',z,hdesc,heq⟩
  · rw [heq] at hs
    cases hs
    exact h.allocated hpc hnd hfree
  · rw [heq] at hs
    cases hs
    have h' : Inv (s.patch desc' s.free z) := h.patched hdesc
    exact h'.relock (k := .acquire) hpc (by simp) rfl rfl (by simp) (h'.rw_release hpc rfl rfl) trivial

theorem Inv.header (hpc : s.pc p=.header c) : Inv t := by
  simp only [Sys.advance,hpc] at hs
  cases hs
  refine h.local (k := .data c) hpc rfl rfl rfl (by simp [Pc.waits]) (fun d hd => ?_) (fun b _ => rfl)
    h.avail (by simp) ⟨update_self _ _ _,update_self _ _ _⟩
  simp only [Pc.descs,Chain.descs,List.mem_cons,not_or] at hd
  exact ⟨update_of_ne hd.1 _ _,update_of_ne hd.1 _ _,rfl⟩

theorem Inv.data (hpc : s.pc p=.data c) : Inv t := by
  obtain ⟨hdesc,hop⟩ := h.builtAt hpc
  have hn := h.nodupAt hpc
  simp only [Sys.advance,hpc] at hs
  cases hs
  refine h.local (k := .status c) hpc rfl rfl rfl (by simp [Pc.waits]) (fun d hd => ?_)
    (fun b _ => rfl) h.avail (by simp) ⟨⟨?_,hop⟩,update_self _ _ _⟩
  · simp only [Pc.descs,Chain.descs,List.mem_cons,not_or] at hd
    exact ⟨update_of_ne hd.2.1 _ _,rfl,rfl⟩
  · exact (update_of_ne (by simp_all [Pc.descs,Chain.descs]) _ _).trans hdesc

theorem Inv.status (hpc : s.pc p=.status c) : Inv t := by
  obtain ⟨⟨hdesc,hop⟩,hdata⟩ := h.builtAt hpc
  have hn := h.nodupAt hpc
  simp only [Pc.descs,Chain.descs,List.nodup_cons,List.mem_cons,not_or,List.not_mem_nil] at hn
  obtain ⟨⟨h01,h02,-⟩,⟨h12,-⟩,-⟩ := hn
  simp only [Sys.advance,hpc] at hs
  cases hs
  refine h.local (k := .record c) hpc rfl rfl rfl (by simp [Pc.waits]) (fun d hd => ?_)
    (fun b _ => rfl) h.avail (by simp)
    ⟨⟨(update_of_ne h02 _ _).trans hdesc,hop⟩,(update_of_ne h12 _ _).trans hdata,update_self _ _ _⟩
  simp only [Pc.descs,Chain.descs,List.mem_cons,not_or] at hd
  exact ⟨update_of_ne hd.2.2.1 _ _,rfl,update_of_ne hd.1 _ _⟩

theorem Inv.record (hpc : s.pc p=.record c) : Inv t := by
  simp only [Sys.advance,hpc] at hs
  cases hs
  refine h.local (k := .ring c) hpc rfl rfl rfl (by simp [Pc.waits]) (fun d hd => ?_)
    (fun b hne => update_of_ne hne _ _) h.avail (by simp) ⟨h.builtAt hpc,?_,update_self _ _ _⟩
  · simp only [Pc.descs,Chain.descs,List.mem_cons,not_or] at hd
    exact ⟨rfl,rfl,update_of_ne hd.1 _ _⟩
  · change (update s.info c.idx0 _ c.idx0).b=_
    rw [update_self]

/-- The entry of the avail ring that is written next is free. -/
theorem Inv.ring (hpc : s.pc p=.ring c) : Inv t := by
  have hlen : s.queue.length < num :=
    h.queue_lt (d := c.idx0) (by rw [hpc]; rfl) (by simp [hpc,Pc.descs,Chain.descs])
  simp only [Sys.advance,hpc] at hs
  cases hs
  refine h.local (k := .index c) hpc rfl rfl rfl (by simp [Pc.waits]) (fun d hd => ⟨rfl,rfl,rfl⟩)
    (fun b _ => rfl) ?_ (fun c' hc' => ?_) (h.builtAt hpc)
  · rw [h.availIdx,uint16_mod_num]
    simpa using h.avail.write (by simpa using hlen) c.idx0
  · cases hc'
    exact update_self _ _ _

theorem Inv.wait (hpc : s.pc p=.wait c) : Inv t := by
  have hb := h.builtAt hpc
  simp only [Sys.advance,hpc] at hs
  split at hs
  next =>
    cases hs
    exact h.relock (k := .reacquire c) hpc (by simp) rfl rfl (by simp) (h.rw_release hpc rfl rfl) hb
  next hbusy =>
    cases hs
    have hdone : s.request p c∈s.done := by
      rcases hb.2.2 with ⟨htrue,-⟩ | ⟨-,hdone⟩
      · exact absurd htrue hbusy
      · exact hdone
    exact h.local (k := .clear c) hpc rfl rfl rfl (fun _ _ => by simpa using hbusy)
      (fun d hd => ⟨rfl,rfl,rfl⟩) (fun b _ => rfl) h.avail (by simp) ⟨hb.1,hdone⟩

theorem Inv.clear (hpc : s.pc p=.clear c) : Inv t := by
  obtain ⟨hl,hdone⟩ := h.builtAt hpc
  have hn : c.descs.Nodup := h.nodupAt hpc
  simp only [Sys.advance,hpc] at hs
  cases hs
  refine h.local (k := .freeing c c.idx0) hpc rfl rfl (descs_freeing hn).1 (by simp [Pc.waits])
    (fun d hd => ?_) (fun b _ => rfl) h.avail (by simp) ⟨hn,hdone,.inl ⟨rfl,hl⟩⟩
  simp only [Pc.descs,Chain.descs,List.mem_cons,not_or] at hd
  exact ⟨rfl,rfl,update_of_ne hd.1 _ _⟩

end Places

theorem Inv.acquire (h : Inv s) (hpc : s.pc p=k₀) (hpi : k₀≠.idle) (hdescs : k.descs=k₀.descs)
    (hwaits : k.waits=k₀.waits) (hk : k.holds=true) (hkx : ∀ c, k≠.index c) (hbuilt : s.Built p k)
    (hs : (if s.lock=none then some ({ s with lock := some (.rw p) }.goto p k) else none)=some t) :
    Inv t := by
  split_ifs at hs with hlock
  cases hs
  exact h.relock hpc hpi hdescs hwaits hkx (h.rw_acquire hlock hk) hbuilt

theorem Inv.advance (h : Inv s) (hs : s.advance p=some t) : Inv t := by
  cases hpc : s.pc p with
  | idle => simp [Sys.advance,hpc] at hs
  | acquire =>
    simp only [Sys.advance,hpc] at hs
    exact h.acquire (k := .alloc) hpc (by simp) rfl rfl rfl (by simp) trivial hs
  | alloc => exact h.alloc hs hpc
  | header c => exact h.header hs hpc
  | data c => exact h.data hs hpc
  | status c => exact h.status hs hpc
  | record c => exact h.record hs hpc
  | ring c => exact h.ring hs hpc
  | index c =>
    simp only [Sys.advance,hpc] at hs
    cases hs
    exact h.push (r := ⟨s.taken+s.queue.length,c.idx0,(s.call p).op,(s.call p).b,c.idx0⟩) hpc rfl
      (by simp [Sys.request,Sys.push])
  | wait c => exact h.wait hs hpc
  | reacquire c =>
    have hb := h.builtAt hpc
    simp only [Sys.advance,hpc] at hs
    exact h.acquire (k := .wait c) hpc (by simp) rfl rfl rfl (by simp) hb hs
  | clear c => exact h.clear hs hpc
  | freeing c i => exact h.freeing hpc hs
  | release c =>
    simp only [Sys.advance,hpc] at hs
    cases hs
    exact h.relock (k := .idle) hpc (by simp) rfl rfl (by simp) (h.rw_release hpc rfl rfl) trivial

end Xv6.Virtio
