import Xv6.RingIndex
import Xv6.VirtioDisk
import Mathlib.Algebra.Order.Group.Multiset
import Mathlib.Data.Finset.Card

/-! The protocol of the disk driver over whole runs. There are at most as many unfinished requests as
descriptors, so the rings never fill. -/
namespace Xv6.Virtio
open Function Xv6.Machine Xv6.RingIndex
open Xv6.Proc (Slot)

def Pc.descs : Pc → List Nat
  | .header c | .data c | .status c | .record c | .ring c | .index c => c.descs
  | .wait c | .reacquire c | .clear c => c.descs
  | .freeing c i => c.descs.dropWhile (· ≠ i)
  | .idle | .acquire | .alloc | .release _ => []

def Pc.holds : Pc → Bool
  | .idle | .acquire | .reacquire _ => false
  | _ => true

def IntrPc.holds : IntrPc → Bool
  | .idle | .acquire => false
  | _ => true

def Pc.waits : Pc → Option Chain
  | .wait c | .reacquire c => some c
  | _ => none

def Sys.request (s : Sys) (p : Slot) (c : Chain) : Request :=
  ⟨s.serial p,c.idx0,(s.call p).op,(s.call p).b,c.idx0⟩

def Sys.outstanding (s : Sys) : Multiset Request :=
  s.queue+s.inflight+s.written+s.appending.toList+s.news

def Sys.requests (s : Sys) : Multiset Request := s.outstanding+s.done

def Sys.Header (s : Sys) (p : Slot) (c : Chain) : Prop :=
  s.desc c.idx0=⟨.op c.idx0,16,descNext,c.idx1⟩ ∧ s.ops c.idx0=(s.call p).op

def Sys.Data (s : Sys) (p : Slot) (c : Chain) : Prop :=
  s.desc c.idx1=⟨.data (s.call p).b,bsize,
    (if (s.call p).write then 0 else descWrite) ||| descNext,c.idx2⟩

def Sys.Status (s : Sys) (c : Chain) : Prop :=
  s.desc c.idx2=⟨.status c.idx0,1,descWrite,0⟩

/-- The three descriptors make up the request of the call. -/
def Sys.Linked (s : Sys) (p : Slot) (c : Chain) : Prop := s.Header p c ∧ s.Data p c ∧ s.Status c

def Sys.Recorded (s : Sys) (p : Slot) (c : Chain) : Prop := (s.info c.idx0).b=some (s.call p).b

def Sys.Pending (s : Sys) (p : Slot) (c : Chain) : Prop :=
  s.busy (s.call p).b=true ∧ s.request p c∈s.outstanding ∨
    s.busy (s.call p).b=false ∧ s.request p c∈s.done

/-- What a call has written, and what has become of its request, at each place. -/
def Sys.Built (s : Sys) (p : Slot) : Pc → Prop
  | .idle | .acquire | .alloc | .header _ => True
  | .data c => s.Header p c
  | .status c => s.Header p c ∧ s.Data p c
  | .record c => s.Linked p c
  | .ring c | .index c => s.Linked p c ∧ s.Recorded p c ∧ s.busy (s.call p).b=true
  | .wait c | .reacquire c => s.Linked p c ∧ s.Recorded p c ∧ s.Pending p c
  | .clear c => s.Linked p c ∧ s.request p c∈s.done
  | .freeing c i => c.descs.Nodup ∧ s.request p c∈s.done ∧
      (i=c.idx0 ∧ s.Linked p c ∨ i=c.idx1 ∧ s.Data p c ∧ s.Status c ∨ i=c.idx2 ∧ s.Status c)
  | .release c => s.request p c∈s.done

def Sys.Looking (s : Sys) : IntrPc → Prop
  | .read => s.news≠[]
  | .complete id => ∃ r rest, s.news=r :: rest ∧ r.head=id
  | _ => True

structure Owned (free : Nat → Bool) (descs : Slot → List Nat) : Prop where
  nodup : ∀ p, (descs p).Nodup
  owned : ∀ p, ∀ d∈descs p, d < num ∧ free d=false
  apart : ∀ p q, p≠q → ∀ d∈descs p, d∉descs q
  used : ∀ d < num, free d=false → ∃ p, d∈descs p

structure Inv (s : Sys) : Prop where
  fault : s.fault=none
  owns : Owned s.free fun p => (s.pc p).descs
  bufs : ∀ p q, p≠q → s.pc p≠.idle → s.pc q≠.idle → (s.call p).b≠(s.call q).b
  built : ∀ p, s.Built p (s.pc p)
  lockRw : ∀ p, (s.pc p).holds=true ↔ s.lock=some (.rw p)
  lockIntr : ∀ c, (s.intr c).holds=true ↔ s.lock=some (.intr c)
  waiter : ∀ r∈s.outstanding, ∃ p c, (s.pc p).waits=some c ∧ r=s.request p c ∧
    s.busy (s.call p).b=true
  serials : (s.requests.map Request.serial).Nodup
  serial_lt : ∀ r∈s.requests, r.serial < s.taken+s.queue.length
  queued : ∀ i r, s.queue[i]?=some r → r.serial=s.taken+i
  zero : ∀ r, r∈s.written ∨ s.appending=some r ∨ r∈s.news → (s.info r.head).status=0
  avail : Holds s.availRing num s.taken (s.queue.map Request.head)
  availIdx : s.availIdx=uint16 (s.taken+s.queue.length)
  indexed : ∀ p c, s.pc p=.index c → s.availRing (s.availIdx%num)=c.idx0
  news : Holds s.usedRing num s.done.length (s.news.map Request.head)
  usedIdx : s.usedIdx=uint16 (s.done.length+s.news.length)
  seenIdx : s.seenIdx=uint16 s.done.length
  appended : ∀ r, s.appending=some r → s.usedRing (s.usedIdx%num)=r.head
  looking : ∀ c, s.Looking (s.intr c)

variable {s t : Sys} {p q : Slot} {c : Chain} {k : Pc} {r : Request}

theorem Inv.nodup (h : Inv s) (p : Slot) : (s.pc p).descs.Nodup := h.owns.nodup p

theorem Inv.owned (h : Inv s) (p : Slot) : ∀ d∈(s.pc p).descs, d < num ∧ s.free d=false :=
  h.owns.owned p

theorem Inv.apart (h : Inv s) (p q : Slot) (hpq : p≠q) : ∀ d∈(s.pc p).descs, d∉(s.pc q).descs :=
  h.owns.apart p q hpq

theorem Inv.owns_update (h : Inv s) (hdescs : k.descs=(s.pc p).descs) :
    Owned s.free fun q => (update s.pc p k q).descs := by
  have heq : (fun q => (update s.pc p k q).descs) = fun q => (s.pc q).descs := by
    funext q
    by_cases hq : q=p
    · rw [hq,update_self,hdescs]
    · rw [update_of_ne hq]
  rw [heq]
  exact h.owns

theorem mem_descs_of_waits (h : k.waits=some c) : c.idx0∈k.descs := by
  cases k <;> simp_all [Pc.waits,Pc.descs,Chain.descs]

theorem built_of_waits (h : k.waits=some c) :
    s.Built p k ↔ s.Linked p c ∧ s.Recorded p c ∧ s.Pending p c := by
  cases k <;> simp_all [Pc.waits,Sys.Built]

theorem ne_idle_of_waits (h : k.waits=some c) : k≠.idle := by
  rintro rfl
  cases h

theorem ne_idle_of_holds (h : k.holds=true) : k≠.idle := by
  rintro rfl
  cases h

structure Agrees (s t : Sys) (q : Slot) : Prop where
  call : t.call q=s.call q
  serial : t.serial q=s.serial q
  desc : ∀ d∈(s.pc q).descs, t.desc d=s.desc d
  ops : ∀ d∈(s.pc q).descs, t.ops d=s.ops d
  info : ∀ d∈(s.pc q).descs, (t.info d).b=(s.info d).b
  busy : s.pc q≠.idle → t.busy (s.call q).b=s.busy (s.call q).b
  outstanding : ∀ c, (s.pc q).waits=some c → s.busy (s.call q).b=true →
    s.request q c∈s.outstanding → s.request q c∈t.outstanding
  done : s.done ⊆ t.done

theorem descs_freeing (h : c.descs.Nodup) : (Pc.freeing c c.idx0).descs=c.descs ∧
    (Pc.freeing c c.idx1).descs=[c.idx1, c.idx2] ∧ (Pc.freeing c c.idx2).descs=[c.idx2] := by
  simp only [Chain.descs,List.nodup_cons,List.mem_cons,not_or,List.not_mem_nil] at h
  obtain ⟨⟨h01,h02,-⟩,⟨h12,-⟩,-⟩ := h
  simp [Pc.descs,Chain.descs,List.dropWhile,h01,h02,h12]

section Agree
variable (h : Agrees s t q)
include h

theorem Agrees.request (c : Chain) : t.request q c=s.request q c := by
  rw [Sys.request,h.call,h.serial,Sys.request]

theorem Agrees.header (hc : c.idx0∈(s.pc q).descs) (hh : s.Header q c) : t.Header q c := by
  rw [Sys.Header,h.desc _ hc,h.ops _ hc,h.call]
  exact hh

theorem Agrees.data (hc : c.idx1∈(s.pc q).descs) (hd : s.Data q c) : t.Data q c := by
  rw [Sys.Data,h.desc _ hc,h.call]
  exact hd

theorem Agrees.status (hc : c.idx2∈(s.pc q).descs) (hs : s.Status c) : t.Status c := by
  rw [Sys.Status,h.desc _ hc]
  exact hs

theorem Agrees.linked (hc : (s.pc q).descs=c.descs) (hl : s.Linked q c) : t.Linked q c :=
  ⟨h.header (by simp [hc,Chain.descs]) hl.1,h.data (by simp [hc,Chain.descs]) hl.2.1,
    h.status (by simp [hc,Chain.descs]) hl.2.2⟩

theorem Agrees.recorded (hc : (s.pc q).descs=c.descs) (hr : s.Recorded q c) : t.Recorded q c := by
  rw [Sys.Recorded,h.info _ (by simp [hc,Chain.descs]),h.call]
  exact hr

theorem Agrees.pending (hw : (s.pc q).waits=some c) (hp : s.Pending q c) : t.Pending q c := by
  rw [Sys.Pending,h.request,h.call,h.busy (ne_idle_of_waits hw)]
  exact hp.imp (fun hb => ⟨hb.1,h.outstanding c hw hb.1 hb.2⟩) fun hb => ⟨hb.1,h.done hb.2⟩

theorem Agrees.built (hb : s.Built q (s.pc q)) : t.Built q (s.pc q) := by
  cases hpc : s.pc q with
  | idle | acquire | alloc | header c => trivial
  | data c =>
    rw [hpc] at hb
    exact h.header (by simp [hpc,Pc.descs,Chain.descs]) hb
  | status c =>
    rw [hpc] at hb
    exact ⟨h.header (by simp [hpc,Pc.descs,Chain.descs]) hb.1,
      h.data (by simp [hpc,Pc.descs,Chain.descs]) hb.2⟩
  | record c =>
    rw [hpc] at hb
    exact h.linked (by rw [hpc,Pc.descs]) hb
  | ring c | index c =>
    rw [hpc] at hb
    refine ⟨h.linked (by rw [hpc,Pc.descs]) hb.1,h.recorded (by rw [hpc,Pc.descs]) hb.2.1,?_⟩
    rw [h.call,h.busy (by simp [hpc])]
    exact hb.2.2
  | wait c | reacquire c =>
    rw [hpc] at hb
    exact ⟨h.linked (by rw [hpc,Pc.descs]) hb.1,h.recorded (by rw [hpc,Pc.descs]) hb.2.1,
      h.pending (by rw [hpc,Pc.waits]) hb.2.2⟩
  | clear c =>
    rw [hpc] at hb
    refine ⟨h.linked (by rw [hpc,Pc.descs]) hb.1,?_⟩
    rw [h.request]
    exact h.done hb.2
  | freeing c i =>
    rw [hpc] at hb
    obtain ⟨hn,hdone,hrest⟩ := hb
    refine ⟨hn,by rw [h.request]; exact h.done hdone,?_⟩
    obtain ⟨h0,h1,h2⟩ := descs_freeing hn
    rcases hrest with ⟨rfl,hl⟩ | ⟨rfl,hd,hs⟩ | ⟨rfl,hs⟩
    · exact .inl ⟨rfl,h.linked (by rw [hpc,h0]) hl⟩
    · exact .inr (.inl ⟨rfl,h.data (by simp [hpc,h1]) hd,h.status (by simp [hpc,h1]) hs⟩)
    · exact .inr (.inr ⟨rfl,h.status (by simp [hpc,h2]) hs⟩)
  | release c =>
    rw [hpc] at hb
    rw [Sys.Built,h.request]
    exact h.done hb

end Agree

theorem mem_outstanding : r∈s.outstanding ↔
    r∈s.queue ∨ r∈s.inflight ∨ r∈s.written ∨ s.appending=some r ∨ r∈s.news := by
  simp [Sys.outstanding]

theorem Inv.head_inj (h : Inv s) {r r' : Request} (hr : r∈s.outstanding)
    (hr' : r'∈s.outstanding) (heq : r.head=r'.head) : r=r' := by
  obtain ⟨p,c,hw,rfl,-⟩ := h.waiter r hr
  obtain ⟨q,c',hw',rfl,-⟩ := h.waiter r' hr'
  have hmem : c.idx0∈(s.pc q).descs := by
    rw [show c.idx0=c'.idx0 from heq]
    exact mem_descs_of_waits hw'
  obtain rfl : p=q := by
    by_contra hpq
    exact h.apart p q hpq c.idx0 (mem_descs_of_waits hw) hmem
  rw [Option.some.inj (hw.symm.trans hw')]

theorem Inv.outstanding_nodup (h : Inv s) : s.outstanding.Nodup :=
  (Multiset.nodup_add.mp (Multiset.Nodup.of_map _ h.serials)).1

theorem Inv.head_lt (h : Inv s) (hr : r∈s.outstanding) : r.head < num := by
  obtain ⟨p,c,hw,rfl,-⟩ := h.waiter r hr
  exact (h.owned p _ (mem_descs_of_waits hw)).1

theorem Inv.card_le (h : Inv s) {F : Finset Nat} (hF : ∀ r∈s.outstanding, r.head∈F) :
    s.outstanding.card ≤ F.card := by
  have hn : (s.outstanding.map Request.head).Nodup :=
    h.outstanding_nodup.map_on fun r hr r' hr' => h.head_inj hr hr'
  have hsub : (s.outstanding.map Request.head).toFinset ⊆ F := by
    intro d hd
    obtain ⟨r,hr,rfl⟩ := Multiset.mem_map.mp (Multiset.mem_toFinset.mp hd)
    exact hF r hr
  have hcard := Finset.card_le_card hsub
  rwa [Multiset.toFinset_card_of_nodup hn,Multiset.card_map] at hcard

theorem Inv.card_le_num (h : Inv s) : s.outstanding.card ≤ num := by
  have := h.card_le fun r hr => Finset.mem_range.mpr (h.head_lt hr)
  rwa [Finset.card_range] at this

theorem Inv.card_lt_num (h : Inv s) {d : Nat} (hd : d < num)
    (hhead : ∀ r∈s.outstanding, r.head≠d) : s.outstanding.card < num := by
  have hcard := h.card_le fun r hr =>
    Finset.mem_erase.mpr ⟨hhead r hr,Finset.mem_range.mpr (h.head_lt hr)⟩
  rw [Finset.card_erase_of_mem (Finset.mem_range.mpr hd),Finset.card_range] at hcard
  omega

theorem card_outstanding : s.outstanding.card=s.queue.length+s.inflight.length +
    s.written.length+s.appending.toList.length+s.news.length := by
  simp [Sys.outstanding,Nat.add_assoc]

theorem Inv.holder_ne (h : Inv s) (hp : (s.pc p).holds=true) (hq : (s.pc q).holds=true) : p=q := by
  have heq := ((h.lockRw p).mp hp).symm.trans ((h.lockRw q).mp hq)
  cases heq
  rfl

end Xv6.Virtio
