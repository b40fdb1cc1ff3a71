import Xv6.VirtioDriver

/-! The handler and the device keep the invariant, and what it says about whole runs. -/
namespace Xv6.Virtio
open Function Xv6.Machine Xv6.RingIndex
open Xv6.Proc (Slot)
variable {s t : Sys} {p q : Slot} {c : Chain} {k : Pc} {r : Request}

section Handler
variable {n : Cpu} {j : IntrPc} {lock' : Option Holder}

theorem looking_of_not_holds (h : j.holds=false) : s.Looking j := by
  cases j with
  | read | complete id => cases h
  | idle | acquire | test | release => trivial

theorem Inv.intr_keep (h : Inv s) (hn : (s.intr n).holds=true) (hj : j.holds=true) (m : Cpu) :
    (update s.intr n j m).holds=true ↔ s.lock=some (.intr m) := by
  by_cases hm : m=n
  · rw [hm,update_self]
    exact ⟨fun _ => (h.lockIntr n).mp hn,fun _ => hj⟩
  · rw [update_of_ne hm]
    exact h.lockIntr m

theorem Inv.looking_others (h : Inv s) (hn : (s.intr n).holds=true) (hj : t.Looking j)
    (m : Cpu) : t.Looking (update s.intr n j m) := by
  by_cases hm : m=n
  · rw [hm,update_self]
    exact hj
  · rw [update_of_ne hm]
    refine looking_of_not_holds ?_
    by_contra hholds
    have hlock := (h.lockIntr m).mp (by simpa using hholds)
    rw [(h.lockIntr n).mp hn] at hlock
    cases hlock
    exact hm rfl

theorem Inv.intrGoto (h : Inv s) (hrw : ∀ q, (s.pc q).holds=true ↔ lock'=some (.rw q))
    (hintr : ∀ m, (update s.intr n j m).holds=true ↔ lock'=some (.intr m))
    (hlook : s.Looking j) : Inv ({ s with lock := lock' }.intrGoto n j) :=
  { h with
    lockRw := hrw
    lockIntr := hintr
    looking := fun m => by
      change s.Looking (update s.intr n j m)
      by_cases hm : m=n
      · rw [hm,update_self]
        exact hlook
      · rw [update_of_ne hm]
        exact h.looking m }

def Sys.seen (s : Sys) (b : Buf) (r : Request) (rest : List Request)
    (sleeping' : Slot → Option Chan) : Sys :=
  { s with
    busy := update s.busy b false
    seenIdx := uint16 (s.seenIdx+1)
    news := rest
    done := s.done++[r]
    sleeping := sleeping' }

variable {rest : List Request} {z : Slot → Option Chan}

theorem outstanding_seen {b : Buf}
    (hnews : s.news=r::rest) : s.outstanding=r ::ₘ (s.seen b r rest z).outstanding := by
  simp only [Sys.outstanding,Sys.seen,hnews,← Multiset.cons_coe,← Multiset.singleton_add]
  abel

theorem requests_seen {b : Buf}
    (hnews : s.news=r::rest) : (s.seen b r rest z).requests=s.requests := by
  rw [Sys.requests,Sys.requests,outstanding_seen (b := b) (z := z) hnews,
    ← Multiset.singleton_add]
  simp only [Sys.seen,← Multiset.coe_add,Multiset.coe_singleton]
  abel

theorem Inv.seen (h : Inv s) (hn : (s.intr n).holds=true)
    (hnews : s.news=r::rest) (hw : (s.pc p).waits=some c) (hr : r=s.request p c) :
    Inv ((s.seen (s.call p).b r rest z).intrGoto n .test) := by
  have hnodup := h.outstanding_nodup
  rw [outstanding_seen (b := (s.call p).b) (z := z) hnews,Multiset.nodup_cons] at hnodup
  have hold : ∀ r'∈(s.seen (s.call p).b r rest z).outstanding, r'∈s.outstanding := by
    intro r' hr'
    rw [outstanding_seen (b := (s.call p).b) (z := z) hnews]
    exact Multiset.mem_cons_of_mem hr'
  have hbusy : ∀ q, q≠p → s.pc q≠.idle →
      update s.busy (s.call p).b false (s.call q).b=s.busy (s.call q).b :=
    fun q hq hqi => update_of_ne (h.bufs q p hq hqi (ne_idle_of_waits hw)) _ _
  exact { h with
    built := fun q => by
      change Sys.Built _ q (s.pc q)
      by_cases hq : q=p
      · rw [hq]
        obtain ⟨hl,hrec,-⟩ := (built_of_waits hw).mp (h.built p)
        have hdone : s.request p c∈s.done++[r] := by simp [hr]
        exact (built_of_waits hw).mpr ⟨hl,hrec,.inr ⟨update_self _ _ _,hdone⟩⟩
      · refine Agrees.built (s := s) ⟨rfl,rfl,fun _ _ => rfl,fun _ _ => rfl,fun _ _ => rfl,hbusy q hq,
          ?_,List.subset_append_left _ _⟩ (h.built q)
        intro c' hqw _ hmem
        rw [outstanding_seen (b := (s.call p).b) (z := z) hnews,Multiset.mem_cons] at hmem
        refine hmem.resolve_left fun heq => h.apart q p hq _ (mem_descs_of_waits hqw) ?_
        rw [show c'.idx0=c.idx0 from congrArg Request.head (heq.trans hr)]
        exact mem_descs_of_waits hw
    lockIntr := h.intr_keep hn rfl
    waiter := fun r' hr' => by
      obtain ⟨q,c',hqw,hreq,hb⟩ := h.waiter r' (hold r' hr')
      have hq : q≠p := by
        rintro rfl
        rw [Option.some.inj (hqw.symm.trans hw),← hr] at hreq
        rw [hreq] at hr'
        exact hnodup.1 hr'
      exact ⟨q,c',hqw,hreq,(hbusy q hq (ne_idle_of_waits hqw)).trans hb⟩
    serials := by
      change ((s.seen (s.call p).b r rest z).requests.map _).Nodup
      rw [requests_seen hnews]
      exact h.serials
    serial_lt := fun r' hr' => by
      have hmem : r'∈(s.seen (s.call p).b r rest z).requests := hr'
      rw [requests_seen hnews] at hmem
      exact h.serial_lt r' hmem
    zero := fun r' hr' => h.zero r' (hr'.imp_right (Or.imp_right fun hmem => by
      rw [hnews]
      exact List.mem_cons_of_mem r hmem))
    news := by
      change Holds s.usedRing num (s.done++[r]).length (rest.map Request.head)
      have := h.news
      rw [hnews,List.map_cons] at this
      rw [List.length_append]
      exact this.tail
    usedIdx := by
      change s.usedIdx=uint16 ((s.done++[r]).length+rest.length)
      rw [h.usedIdx,hnews,List.length_append,List.length_cons,List.length_singleton]
      congr 1
      omega
    seenIdx := by
      change uint16 (s.seenIdx+1)=uint16 (s.done++[r]).length
      rw [h.seenIdx,uint16_succ,List.length_append,List.length_singleton]
    looking := h.looking_others hn trivial }

theorem Inv.handle (h : Inv s) (hs : s.handle n=some t) : Inv t := by
  cases hpc : s.intr n with
  | idle => simp [Sys.handle,hpc] at hs
  | acquire =>
    simp only [Sys.handle,hpc] at hs
    split at hs
    · rename_i hlock
      cases hs
      refine h.intrGoto (fun q => ?_) (fun m => ?_) trivial
      · rw [h.lockRw q,hlock]
        simp
      · by_cases hm : m=n
        · rw [hm,update_self]
          exact ⟨fun _ => rfl,fun _ => rfl⟩
        · rw [update_of_ne hm,h.lockIntr m,hlock]
          simp [Ne.symm hm]
    · cases hs
  | test =>
    have hn : (s.intr n).holds=true := by rw [hpc]; rfl
    simp only [Sys.handle,hpc] at hs
    cases hs
    split
    · rename_i hne
      refine h.intrGoto h.lockRw (h.intr_keep hn rfl) fun hnil => hne ?_
      rw [h.seenIdx,h.usedIdx,hnil]
      rfl
    · exact h.intrGoto h.lockRw (h.intr_keep hn rfl) trivial
  | read =>
    have hn : (s.intr n).holds=true := by rw [hpc]; rfl
    have hlook := h.looking n
    rw [hpc] at hlook
    simp only [Sys.handle,hpc] at hs
    cases hs
    refine h.intrGoto h.lockRw (h.intr_keep hn rfl) ?_
    obtain ⟨r,rest,hnews⟩ := List.exists_cons_of_ne_nil hlook
    have hhead := h.news
    rw [hnews,List.map_cons] at hhead
    refine ⟨r,rest,hnews,?_⟩
    rw [h.seenIdx,uint16_mod_num,hhead.head]
  | complete id =>
    have hn : (s.intr n).holds=true := by rw [hpc]; rfl
    have hlook := h.looking n
    rw [hpc] at hlook
    obtain ⟨r,rest,hnews,rfl⟩ := hlook
    have hmem : r∈s.news := by simp [hnews]
    have hzero := h.zero r (.inr (.inr hmem))
    obtain ⟨p,c,hw,hr,hb⟩ := h.waiter r (mem_outstanding.mpr (by simp [hmem]))
    obtain ⟨-,hrec,-⟩ := (built_of_waits hw).mp (h.built p)
    have hbuf : (s.info r.head).b=some (s.call p).b := by
      rw [hr]
      exact hrec
    simp only [Sys.handle,hpc,hzero,hbuf,hnews,ne_eq,not_true,if_false] at hs
    cases hs
    exact h.seen hn hnews hw hr
  | release =>
    have hn : (s.intr n).holds=true := by rw [hpc]; rfl
    have hlock := (h.lockIntr n).mp hn
    simp only [Sys.handle,hpc] at hs
    cases hs
    refine h.intrGoto (fun q => ?_) (fun m => ?_) trivial
    · rw [h.lockRw q,hlock]
      simp
    · by_cases hm : m=n
      · rw [hm,update_self]
        simp [IntrPc.holds]
      · rw [update_of_ne hm,h.lockIntr m,hlock]
        simp [Ne.symm hm]

end Handler

theorem Inv.built_device (h : Inv s) (hdesc : t.desc=s.desc) (hops : t.ops=s.ops)
    (hinfo : ∀ d, (t.info d).b=(s.info d).b) (hbusy : t.busy=s.busy) (hcall : t.call=s.call)
    (hserial : t.serial=s.serial) (hdone : t.done=s.done) (hout : t.outstanding=s.outstanding)
    (q : Slot) : t.Built q (s.pc q) :=
  Agrees.built ⟨congrFun hcall q,congrFun hserial q,fun d _ => congrFun hdesc d,
    fun d _ => congrFun hops d,fun d _ => hinfo d,fun _ => congrFun hbusy _,
    fun _ _ _ hr => hout ▸ hr,hdone ▸ List.Subset.refl _⟩ (h.built q)

theorem Sys.Linked.requestAt (h : s.Linked p c) : s.requestAt (s.serial p) c.idx0 =
    some (s.request p c) := by
  obtain ⟨⟨hdesc,hop⟩,hdata,hstatus⟩ := h
  rw [Sys.Data] at hdata
  rw [Sys.Status] at hstatus
  have hflags : (if (s.call p).write then 0 else descWrite) ||| descNext =
      (if (s.call p).op.type=blkOut then 0 else descWrite) ||| descNext := by
    cases hw : (s.call p).write
    · simp [Call.op,hw,blkIn,blkOut]
    · simp [Call.op,hw]
  simp only [Sys.requestAt,hdesc,hdata,hstatus,hop]
  rw [if_pos ⟨trivial,trivial,hflags⟩]
  rfl

theorem Inv.take (h : Inv s) {rest : List Request} (hqueue : s.queue=r::rest) :
    s.requestAt s.taken (s.availRing (s.taken%num))=some r ∧
      Inv { s with taken := s.taken+1, queue := rest, inflight := r::s.inflight } := by
  have hserial : r.serial=s.taken := h.queued 0 r (by simp [hqueue])
  have havail := h.avail
  rw [hqueue,List.map_cons] at havail
  obtain ⟨p,c,hw,hr,-⟩ := h.waiter r (mem_outstanding.mpr (by simp [hqueue]))
  refine ⟨?_,?_⟩
  · have hl := ((built_of_waits hw).mp (h.built p)).1.requestAt
    rw [havail.head,← hserial,hr]
    exact hl
  · have hout : Sys.outstanding { s with
        taken := s.taken+1, queue := rest, inflight := r::s.inflight } = s.outstanding := by
      simp only [Sys.outstanding,hqueue,← Multiset.cons_coe,← Multiset.singleton_add]
      abel
    exact { h with
      built := h.built_device rfl rfl (fun _ => rfl) rfl rfl rfl rfl hout
      waiter := hout ▸ h.waiter
      serials := by
        rw [Sys.requests,hout]
        exact h.serials
      serial_lt := fun r' hr' => by
        rw [Sys.requests,hout] at hr'
        have := h.serial_lt r' hr'
        rw [hqueue,List.length_cons] at this
        change r'.serial < s.taken+1+rest.length
        omega
      queued := fun i r' hi => by
        have := h.queued (i+1) r' (by simpa [hqueue] using hi)
        change r'.serial=s.taken+1+i
        omega
      avail := havail.tail
      availIdx := by
        change s.availIdx=uint16 (s.taken+1+rest.length)
        rw [h.availIdx,hqueue,List.length_cons]
        congr 1
        omega }

theorem Inv.write (h : Inv s) (hr : r∈s.inflight) : Inv { s with
    info := update s.info r.status ⟨(s.info r.status).b,0⟩
    inflight := s.inflight.erase r
    written := r::s.written } := by
  obtain ⟨p,c,-,hreq,-⟩ := h.waiter r (mem_outstanding.mpr (by simp [hr]))
  have hstatus : r.status=r.head := by
    rw [hreq]
    rfl
  have hout : Sys.outstanding { s with
      info := update s.info r.status ⟨(s.info r.status).b,0⟩
      inflight := s.inflight.erase r
      written := r::s.written } = s.outstanding := by
    have herase : (s.inflight : Multiset Request) = {r}+(s.inflight.erase r : List Request) := by
      exact Multiset.coe_eq_coe.mpr (List.perm_cons_erase hr)
    simp only [Sys.outstanding]
    rw [herase,← Multiset.cons_coe,← Multiset.singleton_add]
    abel
  exact { h with
    built := h.built_device rfl rfl (fun d => by
      change (update s.info r.status _ d).b=_
      by_cases hd : d=r.status
      · rw [hd,update_self]
      · rw [update_of_ne hd]) rfl rfl rfl rfl hout
    waiter := hout ▸ h.waiter
    serials := by
      rw [Sys.requests,hout]
      exact h.serials
    serial_lt := fun r' hr' => by
      rw [Sys.requests,hout] at hr'
      exact h.serial_lt r' hr'
    zero := fun r' hr' => by
      change (update s.info r.status _ r'.head).status=0
      by_cases hhead : r'.head=r.status
      · rw [hhead,update_self]
      · rw [update_of_ne hhead]
        refine h.zero r' (hr'.imp_left fun hmem => (List.mem_cons.mp hmem).resolve_left ?_)
        rintro rfl
        exact hhead hstatus.symm }

theorem Inv.append (h : Inv s) (hnone : s.appending=none) (hr : r∈s.written) : Inv { s with
    usedRing := update s.usedRing (s.usedIdx%num) r.head
    written := s.written.erase r
    appending := some r } := by
  have hout : Sys.outstanding { s with
      usedRing := update s.usedRing (s.usedIdx%num) r.head
      written := s.written.erase r
      appending := some r } = s.outstanding := by
    have herase : (s.written : Multiset Request) = {r}+(s.written.erase r : List Request) := by
      exact Multiset.coe_eq_coe.mpr (List.perm_cons_erase hr)
    simp only [Sys.outstanding,hnone,Option.toList_none,Option.toList_some]
    rw [herase,Multiset.coe_nil,Multiset.coe_singleton]
    abel
  have hslot : s.usedIdx%num=(s.done.length+(s.news.map Request.head).length)%num := by
    rw [h.usedIdx,uint16_mod_num,List.length_map]
  have hlen : (s.news.map Request.head).length < num := by
    have hcard := h.card_le_num
    have hpos := List.length_pos_of_mem hr
    rw [card_outstanding] at hcard
    rw [List.length_map]
    omega
  exact { h with
    built := h.built_device rfl rfl (fun _ => rfl) rfl rfl rfl rfl hout
    waiter := hout ▸ h.waiter
    serials := by
      rw [Sys.requests,hout]
      exact h.serials
    serial_lt := fun r' hr' => by
      rw [Sys.requests,hout] at hr'
      exact h.serial_lt r' hr'
    zero := fun r' hr' => by
      refine h.zero r' ?_
      rcases hr' with hmem | hmem | hmem
      · exact .inl (List.mem_of_mem_erase hmem)
      · cases hmem
        exact .inl hr
      · exact .inr (.inr hmem)
    news := by
      rw [hslot]
      exact h.news.write hlen r.head
    appended := fun r' hr' => by
      cases hr'
      exact update_self _ _ _ }

theorem Inv.publish (h : Inv s) (hr : s.appending=some r) :
    Inv { s with usedIdx := uint16 (s.usedIdx+1), appending := none, news := s.news++[r] } := by
  have hout : Sys.outstanding { s with
      usedIdx := uint16 (s.usedIdx+1)
      appending := none
      news := s.news++[r] } = s.outstanding := by
    simp only [Sys.outstanding,hr,Option.toList_none,Option.toList_some,← Multiset.coe_add]
    abel
  have hslot : s.usedIdx%num=(s.done.length+(s.news.map Request.head).length)%num := by
    rw [h.usedIdx,uint16_mod_num,List.length_map]
  exact { h with
    built := h.built_device rfl rfl (fun _ => rfl) rfl rfl rfl rfl hout
    waiter := hout ▸ h.waiter
    serials := by
      rw [Sys.requests,hout]
      exact h.serials
    serial_lt := fun r' hr' => by
      rw [Sys.requests,hout] at hr'
      exact h.serial_lt r' hr'
    zero := fun r' hr' => by
      refine h.zero r' ?_
      rcases hr' with hmem | hmem | hmem
      · exact .inl hmem
      · cases hmem
      · rcases List.mem_append.mp hmem with hold | hnew
        · exact .inr (.inr hold)
        · rw [List.mem_singleton.mp hnew]
          exact .inr (.inl hr)
    news := by
      rw [List.map_append]
      exact h.news.push (hslot ▸ h.appended r hr)
    usedIdx := by
      rw [h.usedIdx,uint16_succ,List.length_append,List.length_singleton]
      rfl
    appended := fun r' hr' => by cases hr'
    looking := fun m => by
      have hlook := h.looking m
      cases hpc : s.intr m with
      | read => exact List.append_ne_nil_of_right_ne_nil _ (by simp)
      | complete id =>
        rw [hpc] at hlook
        obtain ⟨r',rest,hnews,hid⟩ := hlook
        exact ⟨r',rest++[r],by simp [hnews],hid⟩
      | idle | acquire | test | release => trivial }

theorem Inv.device (h : Inv s) {d : DeviceStep} (hs : s.device d=some t) : Inv t := by
  cases d with
  | take =>
    simp only [Sys.device] at hs
    split at hs
    · cases hs
    rename_i hne
    cases hqueue : s.queue with
    | nil =>
      rw [h.availIdx,hqueue] at hne
      exact absurd rfl hne
    | cons r rest =>
      obtain ⟨hreq,hinv⟩ := h.take hqueue
      rw [hreq,hqueue] at hs
      cases hs
      exact hinv
  | write r =>
    simp only [Sys.device] at hs
    split at hs
    · rename_i hr
      cases hs
      exact h.write hr
    · cases hs
  | append r =>
    simp only [Sys.device] at hs
    split at hs
    · rename_i hr
      cases hs
      exact h.append hr.1 hr.2
    · cases hs
  | publish =>
    simp only [Sys.device] at hs
    cases hr : s.appending with
    | none =>
      rw [hr] at hs
      cases hs
    | some r =>
      rw [hr] at hs
      cases hs
      exact h.publish hr

section Run
variable {l : Label} {ls : List Label}

theorem inv_start : Inv start where
  fault := rfl
  owns :=
    { nodup := fun _ => List.nodup_nil
      owned := fun _ d hd => absurd hd (by simp [start,Pc.descs])
      apart := fun _ _ _ d hd => absurd hd (by simp [start,Pc.descs])
      used := fun d hd hf => absurd hf (by simp [start,hd]) }
  bufs := fun p _ _ hp => absurd rfl hp
  built := fun _ => trivial
  lockRw := fun _ => by simp [start,Pc.holds]
  lockIntr := fun _ => by simp [start,IntrPc.holds]
  waiter := fun r hr => absurd hr (by simp [start,Sys.outstanding])
  serials := by simp [start,Sys.requests,Sys.outstanding]
  serial_lt := fun r hr => absurd hr (by simp [start,Sys.requests,Sys.outstanding])
  queued := fun i r hi => by simp [start] at hi
  zero := fun r hr => by simp [start] at hr
  avail := holds_nil
  availIdx := rfl
  indexed := fun p c hp => by simp [start] at hp
  news := holds_nil
  usedIdx := rfl
  seenIdx := rfl
  appended := fun r hr => by simp [start] at hr
  looking := fun _ => trivial

theorem Inv.call (h : Inv s) {a : Call} (hp : s.pc p=.idle)
    (hb : ∀ q, s.pc q≠.idle → (s.call q).b≠a.b) :
    Inv ({ s with call := update s.call p a }.goto p .acquire) := by
  have hother : ∀ q c, (s.pc q).waits=some c → q≠p := by
    rintro q c hq rfl
    simp [hp,Pc.waits] at hq
  exact { h with
    owns := h.owns_update (by rw [hp]; rfl)
    bufs := fun q q' hqq => by
      change update s.pc p .acquire q≠.idle → update s.pc p .acquire q'≠.idle →
        (update s.call p a q).b≠(update s.call p a q').b
      by_cases hq : q=p
      · rw [hq,update_self,update_self,update_of_ne (hq ▸ hqq.symm),update_of_ne (hq ▸ hqq.symm)]
        exact fun _ hq' => (hb q' hq').symm
      · rw [update_of_ne hq,update_of_ne hq]
        by_cases hq' : q'=p
        · rw [hq',update_self,update_self]
          exact fun hq _ => hb q hq
        · rw [update_of_ne hq',update_of_ne hq']
          exact h.bufs q q' hqq
    built := fun q => by
      change Sys.Built _ q (update s.pc p .acquire q)
      by_cases hq : q=p
      · rw [hq,update_self]
        trivial
      · rw [update_of_ne hq]
        exact Agrees.built (s := s) ⟨update_of_ne hq _ _,rfl,fun _ _ => rfl,fun _ _ => rfl,
          fun _ _ => rfl,fun _ => rfl,fun _ _ _ hr => hr,fun _ hr => hr⟩ (h.built q)
    lockRw := fun q => by
      change (update s.pc p .acquire q).holds=true ↔ s.lock=some (.rw q)
      by_cases hq : q=p
      · rw [hq,update_self,← h.lockRw p,hp]
        rfl
      · rw [update_of_ne hq]
        exact h.lockRw q
    waiter := fun r hr => by
      obtain ⟨q,c,hqw,hreq,hqb⟩ := h.waiter r hr
      have hq := hother q c hqw
      refine ⟨q,c,?_,?_,?_⟩
      · change (update s.pc p .acquire q).waits=some c
        rwa [update_of_ne hq]
      · rw [hreq,Sys.request,Sys.request]
        simp [Sys.goto,hq]
      · change s.busy (update s.call p a q).b=true
        rwa [update_of_ne hq]
    indexed := h.indexed_keep (by simp) }

theorem Inv.step (h : Inv s) (hs : step s l=some t) : Inv t := by
  unfold Virtio.step at hs
  rw [if_neg (by simp [h.fault])] at hs
  cases l with
  | call p a =>
    dsimp only at hs
    split at hs
    · rename_i hidle
      cases hs
      exact h.call hidle.1 hidle.2
    · cases hs
  | run p =>
    dsimp only at hs
    split at hs
    · exact h.advance hs
    · cases hs
  | kill p =>
    cases hs
    exact { h with }
  | interrupt n =>
    dsimp only at hs
    split at hs
    · rename_i hidle
      cases hs
      refine h.intrGoto h.lockRw (fun m => ?_) trivial
      by_cases hm : m=n
      · rw [hm,update_self,← h.lockIntr n,hidle]
        rfl
      · rw [update_of_ne hm]
        exact h.lockIntr m
    · cases hs
  | handle n => exact h.handle hs
  | device d => exact h.device hs

theorem run_inv (hrun : run Virtio.step ls start=some s) : Inv s :=
  run_invariant (fun _ _ _ hinv hs => Inv.step hinv hs) inv_start hrun

/-- The descriptors of the calls in flight are triples that are linked, not free and
apart from each other, every unfinished request has such a call, and the other
descriptors are free. -/
structure Sys.Apart (s : Sys) : Prop where
  triple : ∀ p c, s.pc p=.reacquire c →
    c.descs.Nodup ∧ s.Linked p c ∧ ∀ d∈c.descs, d < num ∧ s.free d=false
  disjoint : ∀ p q c c', p≠q → s.pc p=.reacquire c → s.pc q=.reacquire c' →
    c.descs.Disjoint c'.descs
  owner : ∀ r∈s.outstanding, ∃ p c, s.pc p=.reacquire c ∧ r=s.request p c
  free : ∀ d < num, (∀ p c, s.pc p=.reacquire c → d∉c.descs) → s.free d=true

theorem reacquire_of_descs {d : Nat} (h : k.holds=false) (hd : d∈k.descs) :
    ∃ c, k=.reacquire c := by
  cases k with
  | reacquire c => exact ⟨c,rfl⟩
  | idle | acquire => cases hd
  | _ => cases h

theorem Inv.apart_of_unlocked (h : Inv s) (hlock : s.lock=none) : s.Apart := by
  have hholds : ∀ p, (s.pc p).holds=false := by
    intro p
    by_contra hp
    exact absurd (hlock.symm.trans ((h.lockRw p).mp (by simpa using hp))) (by simp)
  have hdescs : ∀ p c, s.pc p=.reacquire c → (s.pc p).descs=c.descs := by
    intro p c hp
    rw [hp]
    rfl
  refine ⟨fun p c hp => ?_,fun p q c c' hpq hp hq d hd => ?_,fun r hr => ?_,fun d hd hnone => ?_⟩
  · have hb := h.built p
    rw [hp] at hb
    exact ⟨hdescs p c hp ▸ h.nodup p,hb.1,hdescs p c hp ▸ h.owned p⟩
  · exact hdescs q c' hq ▸ h.apart p q hpq d (hdescs p c hp ▸ hd)
  · obtain ⟨p,c,hw,hreq,-⟩ := h.waiter r hr
    obtain ⟨c',hc'⟩ := reacquire_of_descs (hholds p) (mem_descs_of_waits hw)
    rw [hc'] at hw
    exact ⟨p,c,hc'.trans (congrArg Pc.reacquire (Option.some.inj hw)),hreq⟩
  · by_contra hf
    obtain ⟨p,hp⟩ := h.owns.used d hd (by simpa using hf)
    obtain ⟨c,hc⟩ := reacquire_of_descs (hholds p) hp
    exact hnone p c hc (hdescs p c hc ▸ hp)

def Pc.finished : Pc → Option Chain
  | .clear c | .freeing c _ | .release c => some c
  | _ => none

theorem Inv.done_of_finished (h : Inv s) (hp : (s.pc p).finished=some c) :
    s.request p c∈s.done := by
  have hb := h.built p
  cases hpc : s.pc p with
  | clear c' =>
    rw [hpc] at hb hp
    cases hp
    exact hb.2
  | freeing c' i =>
    rw [hpc] at hb hp
    cases hp
    exact hb.2.1
  | release c' =>
    rw [hpc] at hb hp
    cases hp
    exact hb
  | _ => simp [hpc,Pc.finished] at hp

theorem Inv.busy_of_outstanding (h : Inv s) (hw : (s.pc p).waits=some c)
    (hr : s.request p c∈s.outstanding) : s.busy (s.call p).b=true := by
  obtain ⟨q,c',hqw,hreq,hb⟩ := h.waiter _ hr
  have hhead : c.idx0=c'.idx0 := congrArg Request.head hreq
  obtain rfl : p=q := by
    by_contra hpq
    exact h.apart p q hpq _ (mem_descs_of_waits hw) (hhead ▸ mem_descs_of_waits hqw)
  exact hb

theorem advance_rings (hs : s.advance p=some t) : t.usedRing=s.usedRing ∧
    (t.availRing=s.availRing ∨
      ∃ c, s.pc p=.ring c ∧ t.availRing=update s.availRing (s.availIdx%num) c.idx0) := by
  cases hpc : s.pc p with
  | ring c =>
    simp only [Sys.advance,hpc] at hs
    cases hs
    exact ⟨rfl,.inr ⟨c,rfl,rfl⟩⟩
  | alloc =>
    simp only [Sys.advance,hpc] at hs
    rcases alloc3Desc_spec s with ⟨c,-,-,heq⟩ | ⟨desc',z,-,heq⟩
    · rw [heq] at hs
      cases hs
      exact ⟨rfl,.inl rfl⟩
    · rw [heq] at hs
      cases hs
      exact ⟨rfl,.inl rfl⟩
  | freeing c i =>
    simp only [Sys.advance,hpc,Sys.freeDesc] at hs
    split_ifs at hs
    all_goals
      cases hs
      exact ⟨rfl,.inl rfl⟩
  | idle => simp [Sys.advance,hpc] at hs
  | acquire | wait c | reacquire c =>
    simp only [Sys.advance,hpc] at hs
    split_ifs at hs
    all_goals
      cases hs
      exact ⟨rfl,.inl rfl⟩
  | header c | data c | status c | record c | index c | clear c | release c =>
    simp only [Sys.advance,hpc] at hs
    cases hs
    exact ⟨rfl,.inl rfl⟩

theorem handle_rings {n : Cpu} (hs : s.handle n=some t) :
    t.usedRing=s.usedRing ∧ t.availRing=s.availRing := by
  cases hpc : s.intr n with
  | idle => simp [Sys.handle,hpc] at hs
  | acquire =>
    simp only [Sys.handle,hpc] at hs
    split_ifs at hs
    cases hs
    exact ⟨rfl,rfl⟩
  | test | read | release =>
    simp only [Sys.handle,hpc] at hs
    cases hs
    exact ⟨rfl,rfl⟩
  | complete id =>
    simp only [Sys.handle,hpc] at hs
    split at hs
    · cases hs
      exact ⟨rfl,rfl⟩
    · split at hs
      all_goals
        cases hs
        exact ⟨rfl,rfl⟩

/-- No step overwrites an entry of a ring that the other side has not consumed. -/
def Sys.Kept (s t : Sys) : Prop :=
  (∀ i < s.queue.length,
    t.availRing ((s.taken+i)%num)=s.availRing ((s.taken+i)%num)) ∧
  ∀ i < s.news.length,
    t.usedRing ((s.done.length+i)%num)=s.usedRing ((s.done.length+i)%num)

theorem kept_of_eq (hu : t.usedRing=s.usedRing) (ha : t.availRing=s.availRing) : s.Kept t :=
  ⟨fun _ _ => by rw [ha],fun _ _ => by rw [hu]⟩

theorem Inv.kept (h : Inv s) (hs : Virtio.step s l=some t) : s.Kept t := by
  unfold Virtio.step at hs
  rw [if_neg (by simp [h.fault])] at hs
  cases l with
  | call p a =>
    dsimp only at hs
    split_ifs at hs
    cases hs
    exact kept_of_eq rfl rfl
  | run p =>
    dsimp only at hs
    split_ifs at hs
    obtain ⟨hused,havail | ⟨c,hpc,havail⟩⟩ := advance_rings hs
    · exact kept_of_eq hused havail
    · refine ⟨fun i hi => ?_,fun i _ => by rw [hused]⟩
      have hlen : s.queue.length < num :=
        h.queue_lt (d := c.idx0) (by rw [hpc]; rfl) (by simp [hpc,Pc.descs,Chain.descs])
      rw [havail,h.availIdx,uint16_mod_num,update_of_ne (slot_ne (by omega) (by omega))]
  | kill p =>
    cases hs
    exact kept_of_eq rfl rfl
  | interrupt n =>
    dsimp only at hs
    split_ifs at hs
    cases hs
    exact kept_of_eq rfl rfl
  | handle n => exact kept_of_eq (handle_rings hs).1 (handle_rings hs).2
  | device d =>
    cases d with
    | take =>
      simp only [Sys.device] at hs
      split at hs
      · cases hs
      · split at hs
        all_goals
          cases hs
          exact kept_of_eq rfl rfl
    | write r =>
      simp only [Sys.device] at hs
      split_ifs at hs
      cases hs
      exact kept_of_eq rfl rfl
    | append r =>
      simp only [Sys.device] at hs
      split_ifs at hs
      rename_i hr
      cases hs
      refine ⟨fun i _ => rfl,fun i hi => ?_⟩
      have hcard := h.card_le_num
      have hpos := List.length_pos_of_mem hr.2
      rw [card_outstanding] at hcard
      change update s.usedRing (s.usedIdx%num) r.head _ = _
      rw [h.usedIdx,uint16_mod_num,update_of_ne (slot_ne (by omega) (by omega))]
    | publish =>
      simp only [Sys.device] at hs
      split at hs
      · cases hs
      · cases hs
        exact kept_of_eq rfl rfl

theorem Inv.indices (h : Inv s) : (s.seenIdx=s.usedIdx ↔ s.news=[]) ∧
    (uint16 s.taken=s.availIdx ↔ s.queue=[]) := by
  have hcard := h.card_le_num
  rw [card_outstanding,num] at hcard
  rw [h.seenIdx,h.usedIdx,h.availIdx,← List.length_eq_zero_iff,← List.length_eq_zero_iff]
  exact ⟨counter_eq_iff (by omega),counter_eq_iff (by omega)⟩

/-- In every reachable state: nothing panics; the descriptors are accounted for whenever the lock is
free; a call that has left its waiting loop has seen its own request come back; no entry of a ring
is overwritten before it is consumed; and the indices can be compared after any number of rounds. -/
theorem virtio_disk_protocol (hrun : run Virtio.step ls start=some s) :
    s.fault=none ∧ (s.lock=none → s.Apart) ∧ (s.requests.map Request.serial).Nodup ∧
      (∀ p c, (s.pc p).finished=some c → s.request p c∈s.done) ∧
      (∀ p c, (s.pc p).waits=some c → s.request p c∈s.outstanding →
        s.busy (s.call p).b=true) ∧
      (∀ l t, Virtio.step s l=some t → s.Kept t) ∧
      (s.seenIdx=s.usedIdx ↔ s.news=[]) ∧ (uint16 s.taken=s.availIdx ↔ s.queue=[]) := by
  have h := run_inv hrun
  exact ⟨h.fault,h.apart_of_unlocked,h.serials,fun p c => h.done_of_finished,
    fun p c => h.busy_of_outstanding,fun l t => h.kept,h.indices⟩

def swapped : List Label :=
  [.call Proc.initproc ⟨3,10,true⟩, .call (Fin.last 63) ⟨4,20,false⟩] ++
    List.replicate 9 (.run Proc.initproc)++List.replicate 9 (.run (Fin.last 63)) ++
    [.device .take, .device .take, .device (.write ⟨1,3,⟨0,0,40⟩,4,3⟩),
      .device (.append ⟨1,3,⟨0,0,40⟩,4,3⟩), .device .publish, .interrupt (Fin.last 7)] ++
    List.replicate 6 (.handle (Fin.last 7))++List.replicate 6 (.run (Fin.last 63))

def swappedEnd : Sys := (run Virtio.step swapped start).get (by decide +kernel)

theorem swapped_returns_own : swappedEnd.pc (Fin.last 63)=.release ⟨3,4,5⟩ ∧
    (⟨1,3,⟨0,0,40⟩,4,3⟩ : Request)∈swappedEnd.done ∧ swappedEnd.busy 3=true := by
  have hrun : run Virtio.step swapped start=some swappedEnd := (Option.some_get _).symm
  have hpc : swappedEnd.pc (Fin.last 63)=.release ⟨3,4,5⟩ := by decide +kernel
  obtain ⟨-,-,-,hdone,-⟩ := virtio_disk_protocol hrun
  refine ⟨hpc,?_,by decide +kernel⟩
  have hreq : swappedEnd.request (Fin.last 63) ⟨3,4,5⟩=⟨1,3,⟨0,0,40⟩,4,3⟩ := by decide +kernel
  rw [← hreq]
  exact hdone _ _ (by rw [hpc]; rfl)

end Run

end Xv6.Virtio
