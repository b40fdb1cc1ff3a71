import Xv6.Machine
import Mathlib.Data.List.Nodup

/-! Linearizability of concurrent histories. An operation is named by the position of its call. Every
history of the machine in which an operation takes effect in one step is linearizable. -/
namespace Xv6.AtomicObject
open Function Xv6.Machine
variable {P Op Res S : Type*}

inductive Event (P Op Res : Type*) where
  | call (p : P) (op : Op)
  | ret (p : P) (v : Res)

/-- The call at `i` returns `v` at `j`. -/
def Returns (h : List (Event P Op Res)) (i j : Nat) (v : Res) : Prop :=
  ∃ p op, h[i]?=some (.call p op) ∧ h[j]?=some (.ret p v) ∧ i < j ∧
    ∀ k w, i < k → k < j → h[k]?≠some (.ret p w)

/-- The call at `i` has returned before the call at `j` is made. -/
def Precedes (h : List (Event P Op Res)) (i j : Nat) : Prop :=
  ∃ k v, Returns h i k v ∧ k < j

/-- Operations carried out one after another on a sequential object, which is
given by the states `obj s op v` after operation `op` with result `v`. -/
def replay (obj : S → Op → Res → Option S) (h : List (Event P Op Res)) :
    S → List (Nat × Res) → Option S
  | s, [] => some s
  | s, (i,v) :: rest =>
      match h[i]? with
      | some (.call _ op) => (obj s op v).bind fun t => replay obj h t rest
      | _ => none

/-- A sequential order of operations of the history, with their results: every
operation that has returned is in it with the result it returned, one that is
still pending may be, and no operation comes before one that precedes it. -/
structure Linearization (obj : S → Op → Res → Option S) (s : S) (h : List (Event P Op Res))
    (lin : List (Nat × Res)) : Prop where
  nodup : (lin.map Prod.fst).Nodup
  calls : ∀ x∈lin, ∃ p op, h[x.1]?=some (.call p op)
  complete : ∀ i j v, Returns h i j v → (i,v)∈lin
  order : lin.Pairwise fun a b => ¬ Precedes h b.1 a.1
  legal : (replay obj h s lin).isSome=true

def Linearizable (obj : S → Op → Res → Option S) (s : S) (h : List (Event P Op Res)) : Prop :=
  ∃ lin, Linearization obj s h lin

inductive Action (P Op Res : Type*) where
  | call (p : P) (op : Op)
  | commit (p : P) (v : Res)
  | ret (p : P) (v : Res)

inductive Status (Op Res : Type*) where
  | idle
  | pending (op : Op)
  | done (v : Res)

/-- The atomic object: the state of the sequential object and, for each process,
whether its operation has taken effect. -/
structure Atomic (P Op Res S : Type*) where
  state : S
  status : P → Status Op Res

section
variable [DecidableEq P] [DecidableEq Res]

def Atomic.step (obj : S → Op → Res → Option S) (a : Atomic P Op Res S) :
    Action P Op Res → Option (Atomic P Op Res S)
  | .call p op =>
      match a.status p with
      | .idle => some { a with status := update a.status p (.pending op) }
      | _ => none
  | .commit p v =>
      match a.status p with
      | .pending op => (obj a.state op v).map fun s => ⟨s,update a.status p (.done v)⟩
      | _ => none
  | .ret p v =>
      match a.status p with
      | .done w => if w=v then some { a with status := update a.status p .idle } else none
      | _ => none

variable {a b : Atomic P Op Res S} {p : P} {obj : S → Op → Res → Option S}

theorem step_call {op : Op} : a.step obj (.call p op)=some b ↔
      a.status p=.idle ∧ b = { a with status := update a.status p (.pending op) } := by
  cases h : a.status p <;> simp [Atomic.step,h,eq_comm]

theorem step_commit {v : Res} : a.step obj (.commit p v)=some b ↔ ∃ op s, a.status p=.pending op ∧
      obj a.state op v=some s ∧ b=⟨s,update a.status p (.done v)⟩ := by
  cases h : a.status p <;> simp [Atomic.step,h,eq_comm]

theorem step_ret {v : Res} : a.step obj (.ret p v)=some b ↔
      a.status p=.done v ∧ b = { a with status := update a.status p .idle } := by
  cases h : a.status p with
  | done w =>
    by_cases hw : w=v
    · simp [Atomic.step,h,hw,eq_comm]
    · simp [Atomic.step,h,hw]
  | _ => simp [Atomic.step,h]

end

def Action.event : Action P Op Res → Option (Event P Op Res)
  | .call p op => some (.call p op)
  | .ret p v => some (.ret p v)
  | .commit _ _ => none

def history (as : List (Action P Op Res)) : List (Event P Op Res) := as.filterMap Action.event

theorem history_append (as bs : List (Action P Op Res)) :
    history (as++bs)=history as++history bs := by
  simp [history]

theorem history_snoc (as : List (Action P Op Res)) (x : Action P Op Res) :
    history (as++[x])=history as++x.event.toList := by
  cases h : x.event <;> simp [history,h]

def Open (h : List (Event P Op Res)) (p : P) (i : Nat) : Prop :=
  (∃ op, h[i]?=some (.call p op)) ∧ ∀ k v, i < k → h[k]?≠some (.ret p v)

variable {i : Nat}

theorem getElem?_snoc {α : Type*} {h : List α} {e x : α} :
    (h++[e])[i]?=some x ↔ h[i]?=some x ∨ i=h.length ∧ e=x := by
  obtain hlt | heq | hgt := Nat.lt_trichotomy i h.length
  · have hne : i≠h.length := by omega
    simp [List.getElem?_append_left hlt,hne]
  · simp [heq]
  · have hne : i≠h.length := by omega
    have h1 : h[i]?=none := List.getElem?_eq_none_iff.mpr (by omega)
    have h2 : (h++[e])[i]?=none := List.getElem?_eq_none_iff.mpr (by simp; omega)
    simp [h1,h2,hne]

theorem lt_of_getElem? {α : Type*} {h : List α} {x : α} (hx : h[i]?=some x) : i < h.length :=
  (List.getElem?_eq_some_iff.mp hx).1

variable {h : List (Event P Op Res)} {p : P}

theorem open_call {q : P} {op : Op} :
    Open (h++[.call p op]) q i ↔ Open h q i ∨ q=p ∧ i=h.length := by
  constructor
  · rintro ⟨⟨op',hc⟩,hk⟩
    obtain hc | ⟨hi,he⟩ := getElem?_snoc.mp hc
    · exact .inl ⟨⟨op',hc⟩,fun k v hlt hr => hk k v hlt (getElem?_snoc.mpr (.inl hr))⟩
    · cases he
      exact .inr ⟨rfl,hi⟩
  · rintro (⟨⟨op',hc⟩,hk⟩ | ⟨rfl,rfl⟩)
    · refine ⟨⟨op',getElem?_snoc.mpr (.inl hc)⟩,fun k v hlt hr => ?_⟩
      obtain hr | ⟨-,he⟩ := getElem?_snoc.mp hr
      · exact hk k v hlt hr
      · cases he
    · refine ⟨⟨op,getElem?_snoc.mpr (.inr ⟨rfl,rfl⟩)⟩,fun k v hlt hr => ?_⟩
      obtain hr | ⟨hk,-⟩ := getElem?_snoc.mp hr
      · exact absurd (lt_of_getElem? hr) (by omega)
      · omega

variable {v : Res}

theorem open_ret {q : P} : Open (h++[.ret p v]) q i ↔ Open h q i ∧ q≠p := by
  constructor
  · rintro ⟨⟨op',hi⟩,hk⟩
    obtain hc | ⟨-,he⟩ := getElem?_snoc.mp hi
    · refine ⟨⟨⟨op',hc⟩,fun k w hlt hr => hk k w hlt (getElem?_snoc.mpr (.inl hr))⟩,?_⟩
      rintro rfl
      exact hk h.length v (lt_of_getElem? hc) (getElem?_snoc.mpr (.inr ⟨rfl,rfl⟩))
    · cases he
  · rintro ⟨⟨⟨op',hc⟩,hk⟩,hqp⟩
    refine ⟨⟨op',getElem?_snoc.mpr (.inl hc)⟩,fun k w hlt hr => ?_⟩
    obtain hr | ⟨-,he⟩ := getElem?_snoc.mp hr
    · exact hk k w hlt hr
    · cases he
      exact hqp rfl

variable {j : Nat}

theorem Returns.lt (hr : Returns h i j v) : j < h.length := by
  obtain ⟨p,op,-,hj,-⟩ := hr
  exact lt_of_getElem? hj

variable {e : Event P Op Res}

theorem Returns.of_snoc (hr : Returns (h++[e]) i j v) :
    Returns h i j v ∨ ∃ p, j=h.length ∧ e=.ret p v ∧ Open h p i := by
  obtain ⟨p,op,hi,hj,hij,hk⟩ := hr
  have hbefore : ∀ k w, i < k → k < j → h[k]?≠some (.ret p w) :=
    fun k w hik hkj hr => hk k w hik hkj (getElem?_snoc.mpr (.inl hr))
  obtain hj | ⟨hj,he⟩ := getElem?_snoc.mp hj
  · have hi' : h[i]?=some (.call p op) := by
      obtain hi | ⟨hi,-⟩ := getElem?_snoc.mp hi
      · exact hi
      · exact absurd (lt_of_getElem? hj) (by omega)
    exact .inl ⟨p,op,hi',hj,hij,hbefore⟩
  · have hi' : h[i]?=some (.call p op) := by
      obtain hi | ⟨hi,-⟩ := getElem?_snoc.mp hi
      · exact hi
      · omega
    refine .inr ⟨p,hj,he,⟨op,hi'⟩,fun k w hik hr => ?_⟩
    exact hbefore k w hik (hj ▸ lt_of_getElem? hr) hr

theorem Open.not_precedes (ho : Open h p i) : ¬ Precedes h i j := by
  rintro ⟨k,v,⟨q,op,hi,hk,hik,-⟩,-⟩
  obtain ⟨⟨op',hi'⟩,hno⟩ := ho
  rw [hi] at hi'
  cases hi'
  exact hno k v hik hk

theorem Precedes.of_snoc (hj : j < h.length) (hp : Precedes (h++[e]) i j) : Precedes h i j := by
  obtain ⟨k,v,hr,hkj⟩ := hp
  obtain hr | ⟨p,hk,-⟩ := hr.of_snoc
  · exact ⟨k,v,hr,hkj⟩
  · omega

variable {lin : List (Nat × Res)} {obj : S → Op → Res → Option S}

theorem replay_snoc_history (hc : ∀ x∈lin, ∃ p op, h[x.1]?=some (.call p op)) (s : S) :
    replay obj (h++[e]) s lin=replay obj h s lin := by
  induction lin generalizing s with
  | nil => rfl
  | cons x lin ih =>
    obtain ⟨i,v⟩ := x
    obtain ⟨p,op,hi⟩ := hc (i,v) (by simp)
    have hi' : (h++[e])[i]?=some (.call p op) := getElem?_snoc.mpr (.inl hi)
    simp only [replay,hi,hi']
    congr 1
    funext t
    exact ih (fun y hy => hc y (by simp [hy])) t

variable {s : S}

theorem replay_snoc {op : Op} {t : S} (hi : h[i]?=some (.call p op))
    (hs : replay obj h s lin=some t) : replay obj h s (lin++[(i,v)])=obj t op v := by
  induction lin generalizing s with
  | nil =>
    cases hs
    simp [replay,hi]
  | cons x lin ih =>
    obtain ⟨j,w⟩ := x
    simp only [replay,List.cons_append] at hs ⊢
    cases hj : h[j]? with
    | none => simp [hj] at hs
    | some e =>
      cases e with
      | ret q u => simp [hj] at hs
      | call q op' =>
        simp only [hj] at hs ⊢
        obtain ⟨u,hu,hrest⟩ := Option.bind_eq_some_iff.mp hs
        rw [hu,Option.bind_some]
        exact ih hrest

inductive Agrees (h : List (Event P Op Res)) (lin : List (Nat × Res)) (p : P) :
    Status Op Res → Prop
  | idle (ho : ∀ i, ¬ Open h p i) : Agrees h lin p .idle
  | pending (op : Op) (i : Nat) (hi : h[i]?=some (.call p op)) (ho : ∀ j, Open h p j ↔ j=i)
      (hnew : i∉lin.map Prod.fst) : Agrees h lin p (.pending op)
  | done (v : Res) (i : Nat) (ho : ∀ j, Open h p j ↔ j=i) (hmem : (i,v)∈lin) :
      Agrees h lin p (.done v)

theorem Agrees.congr {h' : List (Event P Op Res)} {lin' : List (Nat × Res)}
    {st : Status Op Res} (hag : Agrees h lin p st) (ho : ∀ i, Open h' p i ↔ Open h p i)
    (hc : ∀ (i : Nat) e, h[i]?=some e → h'[i]?=some e) (hl : ∀ x∈lin, x∈lin')
    (hn : ∀ i, Open h p i → i∉lin.map Prod.fst → i∉lin'.map Prod.fst) : Agrees h' lin' p st := by
  cases hag with
  | idle hno => exact .idle fun i hi => hno i ((ho i).mp hi)
  | pending op i hi hop hnew =>
    exact .pending op i (hc i _ hi) (fun j => (ho j).trans (hop j)) (hn i ((hop i).mpr rfl) hnew)
  | done v i hop hmem => exact .done v i (fun j => (ho j).trans (hop j)) (hl _ hmem)

structure Tracks (obj : S → Op → Res → Option S) (s : S) (h : List (Event P Op Res))
    (lin : List (Nat × Res)) (a : Atomic P Op Res S) : Prop extends Linearization obj s h lin where
  state : replay obj h s lin=some a.state
  agrees : ∀ p, Agrees h lin p (a.status p)

variable {a b : Atomic P Op Res S}

section Steps
variable (ht : Tracks obj s h lin a)
include ht

theorem Tracks.lt {x : Nat × Res} (hx : x∈lin) : x.1 < h.length := by
  obtain ⟨p,op,hp⟩ := ht.calls x hx
  exact lt_of_getElem? hp

theorem Tracks.snoc (hs : b.state=a.state) (hret : ∀ p i v, e=.ret p v → Open h p i → (i,v)∈lin)
    (hag : ∀ p, Agrees (h++[e]) lin p (b.status p)) : Tracks obj s (h++[e]) lin b where
  nodup := ht.nodup
  calls x hx := by
    obtain ⟨p,op,hp⟩ := ht.calls x hx
    exact ⟨p,op,getElem?_snoc.mpr (.inl hp)⟩
  complete i j v hr := by
    obtain hr | ⟨p,-,he,hop⟩ := hr.of_snoc
    · exact ht.complete i j v hr
    · exact hret p i v he hop
  order := ht.order.imp_of_mem fun hx _ hxy hp => hxy (hp.of_snoc (ht.lt hx))
  legal := by rw [replay_snoc_history ht.calls]; exact ht.legal
  state := by rw [replay_snoc_history ht.calls,ht.state,hs]
  agrees := hag

variable [DecidableEq P] [DecidableEq Res]

theorem Tracks.call {op : Op}
    (hstep : a.step obj (.call p op)=some b) : Tracks obj s (h++[.call p op]) lin b := by
  obtain ⟨hidle,rfl⟩ := step_call.mp hstep
  refine ht.snoc rfl nofun fun q => ?_
  have hag := ht.agrees q
  by_cases hq : q=p
  · subst hq
    rw [hidle] at hag
    cases hag with
    | idle ho =>
      simp only [update_self]
      refine .pending op h.length (getElem?_snoc.mpr (.inr ⟨rfl,rfl⟩)) (fun j => ?_) ?_
      · simp [open_call,ho j]
      · intro hmem
        obtain ⟨x,hx,he⟩ := List.mem_map.mp hmem
        exact absurd (ht.lt hx) (by omega)
  · simp only [update_of_ne hq]
    exact hag.congr (fun i => by simp [open_call,hq]) (fun i e hi => getElem?_snoc.mpr (.inl hi))
      (fun _ hx => hx) fun _ _ hn => hn

theorem Tracks.ret (hstep : a.step obj (.ret p v)=some b) : Tracks obj s (h++[.ret p v]) lin b := by
  obtain ⟨hdone,rfl⟩ := step_ret.mp hstep
  have hp := ht.agrees p
  rw [hdone] at hp
  cases hp with
  | done _ i hop hmem =>
    refine ht.snoc rfl ?_ fun q => ?_
    · rintro q j w ⟨⟩ hj
      exact (hop j).mp hj ▸ hmem
    · have hag := ht.agrees q
      by_cases hq : q=p
      · subst hq
        simp only [update_self]
        exact .idle fun j hj => (open_ret.mp hj).2 rfl
      · simp only [update_of_ne hq]
        exact hag.congr (fun i => by simp [open_ret,hq])
          (fun i e hi => getElem?_snoc.mpr (.inl hi)) (fun _ hx => hx) fun _ _ hn => hn

theorem Tracks.commit
    (hstep : a.step obj (.commit p v)=some b) : ∃ lin', Tracks obj s h lin' b := by
  obtain ⟨op,t,hpend,hobj,rfl⟩ := step_commit.mp hstep
  have hp := ht.agrees p
  rw [hpend] at hp
  cases hp with
  | pending _ i hi hop hnew =>
    have hopen : Open h p i := (hop i).mpr rfl
    have hstate : replay obj h s (lin++[(i,v)])=some t := (replay_snoc hi ht.state).trans hobj
    refine ⟨lin++[(i,v)],⟨?_,?_,?_,?_,by simp [hstate]⟩,hstate,fun q => ?_⟩
    · rw [List.map_append]
      exact ht.nodup.append (by simp) (by simpa using hnew)
    · intro x hx
      obtain hx | hx := List.mem_append.mp hx
      · exact ht.calls x hx
      · obtain rfl := List.mem_singleton.mp hx
        exact ⟨p,op,hi⟩
    · intro j k w hr
      exact List.mem_append.mpr (.inl (ht.complete j k w hr))
    · refine List.pairwise_append.mpr ⟨ht.order,by simp,fun x hx y hy => ?_⟩
      obtain rfl := List.mem_singleton.mp hy
      exact hopen.not_precedes
    · have hag := ht.agrees q
      by_cases hq : q=p
      · subst hq
        simp only [update_self]
        exact .done v i hop (by simp)
      · simp only [update_of_ne hq]
        refine hag.congr (fun _ => Iff.rfl) (fun _ _ hj => hj) (fun x hx => by simp [hx]) ?_
        intro j hj hn
        have hne : j≠i := by
          rintro rfl
          obtain ⟨⟨op',hj⟩,-⟩ := hj
          rw [hi] at hj
          cases hj
          exact hq rfl
        simpa [hne] using hn

end Steps

variable [DecidableEq P] [DecidableEq Res]

theorem Tracks.next {as : List (Action P Op Res)} {x : Action P Op Res}
    (ht : ∃ lin, Tracks obj s (history as) lin a) (hstep : a.step obj x=some b) :
    ∃ lin, Tracks obj s (history (as++[x])) lin b := by
  obtain ⟨lin,ht⟩ := ht
  cases x with
  | call p op => exact ⟨lin,by simpa [history_snoc,Action.event] using ht.call hstep⟩
  | ret p v => exact ⟨lin,by simpa [history_snoc,Action.event] using ht.ret hstep⟩
  | commit p v => simpa [history_snoc,Action.event] using ht.commit hstep

theorem linearizable_of_atomic {as : List (Action P Op Res)}
    (hrun : run (Atomic.step obj) as ⟨s,fun _ => .idle⟩=some a) :
    Linearizable obj s (history as) := by
  have h0 : Tracks (P := P) obj s [] [] ⟨s,fun _ => .idle⟩ :=
    ⟨⟨by simp,by simp,fun i j v hr => by simpa using hr.lt,.nil,rfl⟩,rfl,
      fun p => .idle fun i hi => by simpa using hi.1⟩
  obtain ⟨lin,ht⟩ := run_history (I := fun as a => ∃ lin, Tracks obj s (history as) lin a)
    (fun _ _ _ _ hi hs => Tracks.next hi hs) ⟨[],h0⟩ hrun
  exact ⟨lin,ht.toLinearization⟩

end Xv6.AtomicObject
