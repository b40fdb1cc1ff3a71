import Xv6.AtomicObject
import Xv6.PetersonSim
import Mathlib.Data.Finset.Image
import Mathlib.Data.List.Pairwise

/-! The lock table under concurrent `petersonlock_create` and `petersonlock_destroy` calls, against an
atomic set of active ids. -/
namespace Xv6.LockTable
open Function Xv6.Machine Xv6.AtomicObject Xv6.PetersonSim
open Xv6.PetersonLock hiding step_call step_ret
variable {P : Type*}

def ids : Finset Int := (Finset.range maxPetersonLocks.toNat).image fun i : Nat => (i : Int)

/-- The atomic set of active ids: create inserts an id that is not in the set, or
fails if none is left; destroy removes its id if it is in the set. -/
def idSet (σ : Finset Int) : Syscall → Int → Option (Finset Int)
  | .create, v =>
      if v∈ids ∧ v∉σ then some (insert v σ)
      else if v = -1 ∧ ids ⊆ σ then some σ else none
  | .destroy lockId, v =>
      if lockId∈σ then (if v=0 then some (σ.erase lockId) else none)
      else if v = -1 then some σ else none
  | _, _ => none

def activeIds (m : Mem) : Finset Int := ids.filter fun i => m (activeAddr i)≠0

def event : Label P → Option (Event P Syscall Int)
  | .call p c => some (.call p c)
  | .ret p _ v => some (.ret p v)
  | .access _ => none

def tableHistory (ls : List (Label P)) : List (Event P Syscall Int) := ls.filterMap event

def TableCalls : Label P → Prop
  | .call _ (.acquire _ _) | .call _ (.release _ _) => False
  | _ => True

instance TableCalls.decidable : ∀ l : Label P, Decidable (TableCalls l)
  | .call _ .create | .call _ (.destroy _) | .ret _ _ _ | .access _ =>
      inferInstanceAs (Decidable True)
  | .call _ (.acquire _ _) | .call _ (.release _ _) => inferInstanceAs (Decidable False)

/-- A destroy clears a slot that is still active, and a create fails at the last
slot only when no slot is free. -/
def Tidy (s : Sys P) : Label P → Prop
  | .access p =>
      (∀ i∈ids, s.pc p=.destroyClear i → s.mem (activeAddr i)≠0) ∧
      (s.pc p=.createTas 14 → s.mem (activeAddr 14)≠0 → ∀ i∈ids, s.mem (activeAddr i)≠0)
  | _ => True

instance Tidy.decidable (s : Sys P) : ∀ l, Decidable (Tidy s l)
  | .access p => inferInstanceAs (Decidable (
      (∀ i∈ids, s.pc p=.destroyClear i → s.mem (activeAddr i)≠0) ∧
      (s.pc p=.createTas 14 → s.mem (activeAddr 14)≠0 → ∀ i∈ids, s.mem (activeAddr i)≠0)))
  | .call _ _ | .ret _ _ _ => inferInstanceAs (Decidable True)

def statusOf : Pc → Status Syscall Int
  | .createTas _ => .pending .create
  | .createFlag0 i | .createFlag1 i | .createTurn i => .done i
  | .destroyCheck lockId | .destroyClear lockId => .pending (.destroy lockId)
  | .ret _ v => .done v
  | _ => .idle

def TablePc : Pc → Prop
  | .user | .ret _ _ => True
  | .createTas i | .createFlag0 i | .createFlag1 i | .createTurn i
  | .destroyCheck i | .destroyClear i => i∈ids
  | _ => False

def abs (s : Sys P) : Atomic P Syscall Int (Finset Int) where
  state := activeIds s.mem
  status p := statusOf (s.pc p)

variable {i : Int}

theorem mem_ids : i∈ids ↔ 0 ≤ i ∧ i<15 := by
  simp only [ids,Finset.mem_image,Finset.mem_range,maxPetersonLocks]
  constructor
  · rintro ⟨n,hn,rfl⟩
    exact ⟨by omega,by omega⟩
  · rintro ⟨h0,h15⟩
    exact ⟨i.toNat,by omega,by omega⟩

variable {m : Mem}

theorem mem_activeIds : i∈activeIds m ↔ i∈ids ∧ m (activeAddr i)≠0 := by
  simp [activeIds]

theorem outOfRange_iff : outOfRange i=true ↔ i∉ids := by
  simp only [outOfRange,Bool.or_eq_true,decide_eq_true_eq,mem_ids]
  simp only [maxPetersonLocks]
  omega

theorem activeIds_congr {m' : Mem} (h : ∀ i∈ids, m' (activeAddr i)=0 ↔ m (activeAddr i)=0) :
    activeIds m'=activeIds m := by
  ext i
  rw [mem_activeIds,mem_activeIds]
  exact and_congr_right fun hi => not_congr (h i hi)

theorem activeIds_insert (hi : i∈ids) :
    activeIds (update m (activeAddr i) 1)=insert i (activeIds m) := by
  ext j
  by_cases hj : j=i
  · simp [hj,mem_activeIds,hi]
  · simp [hj,mem_activeIds]

theorem activeIds_erase (m : Mem) (i : Int) :
    activeIds (update m (activeAddr i) 0)=(activeIds m).erase i := by
  ext j
  by_cases hj : j=i
  · simp [hj,mem_activeIds]
  · simp [hj,mem_activeIds]

section
variable [DecidableEq P]

theorem abs_setPc (s : Sys P) (m : Mem) (p : P) (pc : Pc) :
    abs ((s.setMem m).setPc p pc)=⟨activeIds m,update (abs s).status p (statusOf pc)⟩ := by
  have hstatus : (abs ((s.setMem m).setPc p pc)).status =
      update (abs s).status p (statusOf pc) := by
    funext q
    by_cases hq : q=p <;> simp [hq,abs]
  rw [← hstatus]
  rfl

variable {σ : Finset Int} {i : Int}

theorem idSet_create (hi : i∈ids) (hn : i∉σ) : idSet σ .create i=some (insert i σ) := by
  simp [idSet,hi,hn]

theorem idSet_full (h : ids⊆σ) : idSet σ .create (-1)=some σ := by
  have hneg : (-1 : Int)∉ids := by decide
  simp [idSet,hneg,h]

theorem idSet_destroy (hi : i∈σ) : idSet σ (.destroy i) 0=some (σ.erase i) := by
  simp [idSet,hi]

theorem idSet_absent (hi : i∉σ) : idSet σ (.destroy i) (-1)=some σ := by
  simp [idSet,hi]

def Simulates (s t : Sys P) (l : Label P) : Prop :=
  ∃ as, run (Atomic.step idSet) as (abs s)=some (abs t) ∧ history as=(event l).toList

variable {p : P} {s : Sys P}

theorem silent_access {pc : Pc} (hst : statusOf pc=statusOf (s.pc p))
    (hm : activeIds m=activeIds s.mem) : Simulates s ((s.setMem m).setPc p pc) (.access p) := by
  refine ⟨[],?_,rfl⟩
  have hsame : update (abs s).status p (statusOf pc)=(abs s).status := by
    rw [hst]
    exact update_eq_self p _
  rw [abs_setPc,hsame,hm]
  rfl

variable {c : Syscall}

theorem commit_access {pc : Pc} {v : Int} (hs : statusOf (s.pc p)=.pending c)
    (hpc : statusOf pc=.done v) (hobj : idSet (activeIds s.mem) c v=some (activeIds m)) :
    Simulates s ((s.setMem m).setPc p pc) (.access p) := by
  have hstep : (abs s).step idSet (.commit p v)=some (abs ((s.setMem m).setPc p pc)) := by
    rw [abs_setPc,hpc]
    exact step_commit.mpr ⟨c,_,hs,hobj,rfl⟩
  exact ⟨[.commit p v],by simp [run,hstep],rfl⟩

variable {t : Sys P}

theorem simulates_createTas (hs : s.pc p=.createTas i) (hi : i∈ids) (htidy : Tidy s (.access p))
    (hstep : step s (.access p)=some t) : Simulates s t (.access p) ∧ TablePc (t.pc p) := by
  obtain ⟨a,ha,rfl⟩ := step_access.mp hstep
  rw [hs] at ha ⊢
  cases ha
  simp only [Sys.setPc_pc,if_true]
  by_cases hv : s.mem (activeAddr i)=0
  · have hnext : (Pc.createTas i).next (Access.value s.mem (.testAndSet (activeAddr i) 1)) =
        .createFlag0 i := by simp [Pc.next,Access.value,hv]
    rw [hnext]
    refine ⟨commit_access (by rw [hs]; rfl) rfl ?_,hi⟩
    rw [idSet_create hi (by simp [mem_activeIds,hv])]
    exact congrArg some (activeIds_insert hi).symm
  · -- the slot is taken, and the test-and-set leaves it so
    have hsame : activeIds (Access.perform s.mem (.testAndSet (activeAddr i) 1)) =
        activeIds s.mem := by
      have hmem : i∈activeIds s.mem := mem_activeIds.mpr ⟨hi,hv⟩
      exact (activeIds_insert hi).trans (Finset.insert_eq_self.mpr hmem)
    by_cases hlast : i+1 < maxPetersonLocks
    · have hnext : (Pc.createTas i).next (Access.value s.mem (.testAndSet (activeAddr i) 1)) =
          .createTas (i+1) := by simp [Pc.next,Access.value,hv,hlast]
      rw [hnext]
      refine ⟨silent_access (by rw [hs]; rfl) hsame,?_⟩
      have hi' := mem_ids.mp hi
      exact mem_ids.mpr ⟨by omega,hlast⟩
    · have hnext : (Pc.createTas i).next (Access.value s.mem (.testAndSet (activeAddr i) 1)) =
          .ret .create (-1) := by simp [Pc.next,Access.value,hv,hlast]
      rw [hnext]
      refine ⟨commit_access (by rw [hs]; rfl) rfl ?_,trivial⟩
      have hi14 : i=14 := by
        have hi' := mem_ids.mp hi
        simp only [maxPetersonLocks] at hlast
        omega
      have hfull : ids ⊆ activeIds s.mem := by
        intro j hj
        subst hi14
        exact mem_activeIds.mpr ⟨hj,htidy.2 hs hv j hj⟩
      rw [hsame]
      exact idSet_full hfull

theorem simulates_destroy (hs : s.pc p=.destroyCheck i ∨ s.pc p=.destroyClear i) (hi : i∈ids)
    (htidy : Tidy s (.access p)) (hstep : step s (.access p)=some t) :
    Simulates s t (.access p) ∧ TablePc (t.pc p) := by
  obtain ⟨a,ha,rfl⟩ := step_access.mp hstep
  simp only [Sys.setPc_pc,if_true]
  obtain hs | hs := hs
  · rw [hs] at ha ⊢
    cases ha
    by_cases hv : s.mem (activeAddr i)=0
    · have hnext : (Pc.destroyCheck i).next (Access.value s.mem (.load (activeAddr i))) =
          .ret (.destroy i) (-1) := by simp [Pc.next,Access.value,hv]
      rw [hnext]
      exact ⟨commit_access (by rw [hs]; rfl) rfl (idSet_absent (by simp [mem_activeIds,hv])),trivial⟩
    · have hnext : (Pc.destroyCheck i).next (Access.value s.mem (.load (activeAddr i))) =
          .destroyClear i := by simp [Pc.next,Access.value,hv]
      rw [hnext]
      exact ⟨silent_access (by rw [hs]; rfl) rfl,hi⟩
  · rw [hs] at ha ⊢
    cases ha
    refine ⟨commit_access (by rw [hs]; rfl) rfl ?_,trivial⟩
    rw [idSet_destroy (mem_activeIds.mpr ⟨hi,htidy.1 i hi hs⟩)]
    exact congrArg some (activeIds_erase s.mem i).symm

theorem simulates_init
    (hs : s.pc p=.createFlag0 i ∨ s.pc p=.createFlag1 i ∨ s.pc p=.createTurn i) (hi : i∈ids)
    (hstep : step s (.access p)=some t) : Simulates s t (.access p) ∧ TablePc (t.pc p) := by
  obtain ⟨a,ha,rfl⟩ := step_access.mp hstep
  simp only [Sys.setPc_pc,if_true]
  have hsame : ∀ x, (∀ j, activeAddr j≠x) → ∀ v, activeIds (update s.mem x v)=activeIds s.mem :=
    fun x hx v => activeIds_congr fun j _ => by simp [hx j]
  obtain hs | hs | hs := hs
  · rw [hs] at ha ⊢
    cases ha
    exact ⟨silent_access (by rw [hs]; rfl) (hsame _ (fun j => activeAddr_ne_flagAddr j i false) 0),hi⟩
  · rw [hs] at ha ⊢
    cases ha
    exact ⟨silent_access (by rw [hs]; rfl) (hsame _ (fun j => activeAddr_ne_flagAddr j i true) 0),hi⟩
  · rw [hs] at ha ⊢
    cases ha
    exact ⟨silent_access (by rw [hs]; rfl) (hsame _ (fun j => activeAddr_ne_turnAddr j i) 0),trivial⟩

theorem simulates_call (hc : TableCalls (.call p c))
    (hstep : step s (.call p c)=some t) : Simulates s t (.call p c) ∧ TablePc (t.pc p) := by
  obtain ⟨hp,rfl⟩ := PetersonLock.step_call.mp hstep
  have hidle : (abs s).status p=.idle := by simp [abs,hp,statusOf]
  have habs : ∀ pc, abs (s.setPc p pc) =
      ⟨activeIds s.mem,update (abs s).status p (statusOf pc)⟩ := fun pc => abs_setPc s s.mem p pc
  have hcall : ∀ op, (abs s).step idSet (.call p op) =
      some ⟨activeIds s.mem,update (abs s).status p (.pending op)⟩ :=
    fun op => AtomicObject.step_call.mpr ⟨hidle,rfl⟩
  cases c with
  | create =>
    refine ⟨⟨[.call p .create],?_,rfl⟩,by simp [Syscall.entry,TablePc,mem_ids]⟩
    simp [run,hcall,habs,Syscall.entry,statusOf]
  | destroy i =>
    by_cases hr : outOfRange i=true
    · refine ⟨⟨[.call p (.destroy i), .commit p (-1)],?_,rfl⟩,by simp [Syscall.entry,hr,TablePc]⟩
      have hcommit : Atomic.step idSet
          ⟨activeIds s.mem,update (abs s).status p (.pending (.destroy i))⟩ (.commit p (-1)) =
          some (abs (s.setPc p (.ret (.destroy i) (-1)))) := by
        refine step_commit.mpr ⟨.destroy i,activeIds s.mem,by simp,idSet_absent ?_,?_⟩
        · exact fun hmem => outOfRange_iff.mp hr (mem_activeIds.mp hmem).1
        · simp [habs,statusOf]
      simp [run,hcall,hcommit,Syscall.entry,hr]
    · have hi : i∈ids := by
        by_contra hn
        exact hr (outOfRange_iff.mpr hn)
      refine ⟨⟨[.call p (.destroy i)],?_,rfl⟩,by simpa [Syscall.entry,hr,TablePc] using hi⟩
      simp [run,hcall,habs,Syscall.entry,hr,statusOf]
  | acquire | release => exact hc.elim

theorem simulates_ret {v : Int}
    (hstep : step s (.ret p c v)=some t) : Simulates s t (.ret p c v) ∧ TablePc (t.pc p) := by
  obtain ⟨hp,rfl⟩ := PetersonLock.step_ret.mp hstep
  have hret : (abs s).step idSet (.ret p v)=some (abs (s.setPc p .user)) := by
    refine AtomicObject.step_ret.mpr ⟨by simp [abs,hp,statusOf],?_⟩
    exact abs_setPc s s.mem p .user
  exact ⟨⟨[.ret p v],by simp [run,hret],rfl⟩,by simp [TablePc]⟩

theorem simulates_step {l : Label P} (hpc : ∀ p, TablePc (s.pc p)) (hc : TableCalls l)
    (htidy : Tidy s l) (hstep : step s l=some t) : Simulates s t l ∧ ∀ p, TablePc (t.pc p) := by
  have hown : Simulates s t l ∧ TablePc (t.pc l.proc) := by
    cases l with
    | call p c => exact simulates_call hc hstep
    | ret p c v => exact simulates_ret hstep
    | access p =>
      have hp := hpc p
      cases hs : s.pc p with
      | createTas i => exact simulates_createTas hs (by simpa [hs,TablePc] using hp) htidy hstep
      | createFlag0 i => exact simulates_init (.inl hs) (by simpa [hs,TablePc] using hp) hstep
      | createFlag1 i =>
        exact simulates_init (.inr (.inl hs)) (by simpa [hs,TablePc] using hp) hstep
      | createTurn i =>
        exact simulates_init (.inr (.inr hs)) (by simpa [hs,TablePc] using hp) hstep
      | destroyCheck i =>
        exact simulates_destroy (.inl hs) (by simpa [hs,TablePc] using hp) htidy hstep
      | destroyClear i =>
        exact simulates_destroy (.inr hs) (by simpa [hs,TablePc] using hp) htidy hstep
      | user | ret c v => simp [step,hs,Pc.access] at hstep
      | _ => simp [hs,TablePc] at hp
  refine ⟨hown.1,fun p => ?_⟩
  by_cases hp : p=l.proc
  · exact hp ▸ hown.2
  · rw [step_pc_other hstep hp]
    exact hpc p

/-- The lock table is linearizable in every run in which no destroy clears a slot
that another destroy has cleared and no create fails while a slot is free. -/
theorem lock_table_linearizable {s t : Sys P} {ls : List (Label P)} (hidle : ∀ p, s.pc p=.user)
    (huse : Along step (fun _ u l => TableCalls l ∧ Tidy u l) [] s ls)
    (hrun : run step ls s=some t) : Linearizable idSet (activeIds s.mem) (tableHistory ls) := by
  have habs : abs s=⟨activeIds s.mem,fun _ => .idle⟩ := by simp [abs,hidle,statusOf]
  have hsim : ∃ as, run (Atomic.step idSet) as (abs s)=some (abs t) ∧
      history as=tableHistory ls := by
    refine (run_induction (I := fun past u => (∃ as, run (Atomic.step idSet) as (abs s) =
      some (abs u) ∧ history as=tableHistory past) ∧ ∀ p, TablePc (u.pc p)) ?_ ?_ huse hrun).1
    · rintro past u l v ⟨⟨as,has,hhist⟩,hpc⟩ hok hstep
      obtain ⟨⟨bs,hbs,hbhist⟩,hpc'⟩ := simulates_step hpc hok.1 hok.2 hstep
      refine ⟨⟨as++bs,run_append_some.mpr ⟨_,has,hbs⟩,?_⟩,hpc'⟩
      rw [history_append,hhist,hbhist]
      cases he : event l <;> simp [tableHistory,he]
    · exact ⟨⟨[],rfl,rfl⟩,fun p => by simp [hidle,TablePc]⟩
  obtain ⟨as,has,hhist⟩ := hsim
  rw [habs] at has
  rw [← hhist]
  exact linearizable_of_atomic has

end

def createThenDestroy : List (Label Bool) :=
  [.call false .create, .access false, .call true (.destroy 0), .access true, .access false,
    .access true, .access false, .ret true (.destroy 0) 0, .access false, .ret false .create 0]

def emptyTable : Sys Bool := ⟨fun _ => 0,fun _ => .user⟩

theorem createThenDestroy_linearizable :
    Linearizable idSet (activeIds emptyTable.mem) (tableHistory createThenDestroy) := by
  have hrun : (run step createThenDestroy emptyTable).isSome=true := by decide +kernel
  exact lock_table_linearizable (fun _ => rfl) (by decide +kernel) (Option.some_get hrun).symm

/-- If all operations destroy the same id, at most one of them succeeds. -/
theorem destroys_once {h : List (Event P Syscall Int)} {lockId : Int}
    (hall : ∀ (i : Nat) p c, h[i]?=some (.call p c) → c=.destroy lockId)
    (lin : List (Nat × Int)) : ∀ σ, (replay idSet h σ lin).isSome=true →
      (lockId∉σ → ∀ x∈lin, x.2≠0) ∧ lin.Pairwise fun x y => ¬ (x.2=0 ∧ y.2=0) := by
  induction lin with
  | nil => simp
  | cons x lin ih =>
    intro σ hrep
    obtain ⟨i,v⟩ := x
    cases hi : h[i]? with
    | none => simp [replay,hi] at hrep
    | some e =>
      cases e with
      | ret p w => simp [replay,hi] at hrep
      | call p c =>
        obtain rfl := hall i p c hi
        simp only [replay,hi,idSet] at hrep
        by_cases hmem : lockId∈σ
        · -- this destroy succeeds, so no later one does
          have hv : v=0 := by
            by_contra hv
            simp [hmem,hv] at hrep
          obtain ⟨hnone,hpair⟩ := ih (σ.erase lockId) (by simpa [hmem,hv] using hrep)
          refine ⟨fun hn => absurd hmem hn,List.pairwise_cons.mpr ⟨fun y hy hxy => ?_,hpair⟩⟩
          exact hnone (by simp) y hy hxy.2
        · have hv : v = -1 := by
            by_contra hv
            simp [hmem,hv] at hrep
          obtain ⟨hnone,hpair⟩ := ih σ (by simpa [hmem,hv] using hrep)
          refine ⟨fun hn y hy => ?_,List.pairwise_cons.mpr ⟨fun y hy hxy => ?_,hpair⟩⟩
          · obtain rfl | hy := List.mem_cons.mp hy
            · simp [hv]
            · exact hnone hn y hy
          · simp [hv] at hxy

/-- Lock 0 has been created before. -/
def oneLock : Sys Bool := ⟨fun a => if a=activeAddr 0 then 1 else 0,fun _ => .user⟩

/-- Both processes find the lock active before one of them clears it. -/
def destroyedTwice : List (Label Bool) :=
  [.call false (.destroy 0), .call true (.destroy 0), .access false, .access true,
    .access false, .access true, .ret false (.destroy 0) 0, .ret true (.destroy 0) 0]

theorem destroyedTwice_not_linearizable : (run step destroyedTwice oneLock).isSome=true ∧
      ¬ Linearizable idSet (activeIds oneLock.mem) (tableHistory destroyedTwice) := by
  refine ⟨by decide +kernel,?_⟩
  rintro ⟨lin,hlin⟩
  have hret0 : (0,0)∈lin := by
    refine hlin.complete 0 2 0 ⟨false,_,rfl,rfl,by omega,fun k w h0 h2 => ?_⟩
    obtain rfl : k=1 := by omega
    exact nofun
  have hret1 : (1,0)∈lin := by
    refine hlin.complete 1 3 0 ⟨true,_,rfl,rfl,by omega,fun k w h1 h3 => ?_⟩
    obtain rfl : k=2 := by omega
    exact nofun
  have hall : ∀ (i : Nat) p c, ([.call false (.destroy 0), .call true (.destroy 0), .ret false 0,
      .ret true 0] : List (Event Bool Syscall Int))[i]?=some (.call p c) → c=.destroy 0 := by
    intro i p c hi
    match i with
    | 0 | 1 =>
      cases hi
      rfl
    | 2 | 3 | _ + 4 => cases hi
  have hpair := (destroys_once hall lin _ hlin.legal).2
  have hsymm : Std.Symm fun x y : Nat × Int => ¬ (x.2=0 ∧ y.2=0) :=
    ⟨fun _ _ hxy hyx => hxy hyx.symm⟩
  exact hpair.forall hret0 hret1 (by simp) ⟨rfl,rfl⟩

end Xv6.LockTable
