import Xv6.PetersonSim
import Xv6.Tournament
import Mathlib.Data.List.Nodup
import Mathlib.Order.Basic
import Mathlib.Data.Nat.Init

/-! What `tournament_create` does to the lock table, whatever the table was. -/
namespace Xv6.TournamentCreate
open Function Xv6.Machine Xv6.PetersonSim Xv6.Tournament
open Xv6.PetersonLock hiding step

def freeBelow (m : Mem) (b : Nat) : List Int :=
  ((List.range b).filter fun i : Nat => m (activeAddr i) == 0).map fun i : Nat => (i : Int)

structure Taken (m0 m : Mem) (b : Nat) : Prop where
  below : ∀ i : Nat, i < b → m (activeAddr i)≠0
  above : ∀ i : Nat, b ≤ i → (m (activeAddr i)=0 ↔ m0 (activeAddr i)=0)

def Fresh (m : Mem) (ids : List Int) : Prop :=
  ∀ id∈ids, (∀ r, m (flagAddr id (bit r))=0) ∧ m (turnAddr id)=0

@[simp] theorem update_active (m : Mem) (i j : Nat) (v : Int) :
    update m (activeAddr j) v (activeAddr i) = if i=j then v else m (activeAddr i) := by
  by_cases h : i=j
  · simp [h]
  · have hne : activeAddr i≠activeAddr j := by
      simp only [activeAddr]
      omega
    simp [h,hne]

theorem inRange_natCast {i : Nat} (h : i<15) : outOfRange (i : Int)=false := by
  have h0 : ¬ (i : Int)<0 := by omega
  have h15 : ¬ (15 : Int) ≤ i := by omega
  simp [outOfRange,maxPetersonLocks,h0,h15]

theorem freeBelow_succ (m : Mem) (b : Nat) :
    freeBelow m (b+1)=freeBelow m b ++ if m (activeAddr b)=0 then [(b : Int)] else [] := by
  by_cases h : m (activeAddr b)=0 <;> simp [freeBelow,List.range_succ,h]

variable {m : Mem} {b : Nat}

theorem mem_freeBelow {id : Int} :
    id∈freeBelow m b ↔ ∃ i : Nat, i < b ∧ m (activeAddr i)=0 ∧ (i : Int)=id := by
  simp only [freeBelow,List.mem_map,List.mem_filter,List.mem_range,beq_iff_eq,and_assoc]

theorem nodup_freeBelow (m : Mem) (b : Nat) : (freeBelow m b).Nodup := by
  have hinj : Injective fun i : Nat => (i : Int) := fun i j h => Int.ofNat.inj h
  exact (List.nodup_range.filter _).map hinj

variable {j : Nat}

theorem freeBelow_skip (hbj : b ≤ j)
    (h : ∀ i : Nat, b ≤ i → i < j → m (activeAddr i)≠0) : freeBelow m j=freeBelow m b := by
  induction j, hbj using Nat.le_induction with
  | base => rfl
  | succ j hbj ih =>
    rw [freeBelow_succ,if_neg (h j hbj j.lt_succ_self),List.append_nil]
    exact ih fun i hi hij => h i hi (by omega)

theorem freeBelow_mono {c : Nat} (h : b ≤ c) : (freeBelow m b).length ≤ (freeBelow m c).length := by
  induction c, h using Nat.le_induction with
  | base => exact Nat.le_refl _
  | succ c _ ih =>
    rw [freeBelow_succ,List.length_append]
    omega

structure WonSlot (m0 m : Mem) (ids : List Int) (j : Nat) : Prop where
  lt : j < 15
  free : m0 (activeAddr j)=0
  ids_eq : ids=freeBelow m0 j
  taken : Taken m0 m (j+1)
  fresh : Fresh m ids

inductive Scan (m0 m : Mem) (ids : List Int) : Pc → Prop
  | tas (b j : Nat) (hb : b ≤ 15) (hj : j < 15) (hids : ids=freeBelow m0 b)
      (ht : Taken m0 m b) (hf : Fresh m ids) (hseen : ∀ i : Nat, i < j → m (activeAddr i)≠0) :
      Scan m0 m ids (.createTas j)
  | flag0 (j : Nat) (hw : WonSlot m0 m ids j) : Scan m0 m ids (.createFlag0 j)
  | flag1 (j : Nat) (hw : WonSlot m0 m ids j) (h0 : m (flagAddr j (bit false))=0) :
      Scan m0 m ids (.createFlag1 j)
  | turn (j : Nat) (hw : WonSlot m0 m ids j) (h0 : ∀ r, m (flagAddr j (bit r))=0) :
      Scan m0 m ids (.createTurn j)
  | found (j : Nat) (hw : WonSlot m0 m ids j) (h0 : ∀ r, m (flagAddr j (bit r))=0)
      (ht : m (turnAddr j)=0) : Scan m0 m ids (.ret .create j)
  | full (hids : ids=freeBelow m0 15) (ht : Taken m0 m 15) : Scan m0 m ids (.ret .create (-1))

variable {m0 : Mem}

theorem Taken.congr {m' : Mem} (h : Taken m0 m b)
    (hm : ∀ i : Nat, m' (activeAddr i)=m (activeAddr i)) : Taken m0 m' b where
  below i hi := by
    rw [hm]
    exact h.below i hi
  above i hi := by
    rw [hm]
    exact h.above i hi

theorem Taken.retake (h : Taken m0 m b) (hj : m (activeAddr j)≠0) :
    Taken m0 (update m (activeAddr j) 1) b where
  below i hi := by
    by_cases hij : i=j
    · simp [hij]
    · simpa [hij] using h.below i hi
  above i hi := by
    by_cases hij : i=j
    · subst hij
      simpa [hj] using h.above i hi
    · simpa [hij] using h.above i hi

theorem Taken.take (h : Taken m0 m b) (hbj : b ≤ j)
    (hseen : ∀ i : Nat, i < j → m (activeAddr i)≠0) :
    Taken m0 (update m (activeAddr j) 1) (j+1) where
  below i hi := by
    by_cases hij : i=j
    · simp [hij]
    · simpa [hij] using hseen i (by omega)
  above i hi := by
    have hij : i≠j := by omega
    simpa [hij] using h.above i (by omega)

theorem Taken.skip (h : Taken m0 m b) (hbj : b ≤ j)
    (hseen : ∀ i : Nat, i < j → m (activeAddr i)≠0) : freeBelow m0 j=freeBelow m0 b :=
  freeBelow_skip hbj fun i hi hij => mt (h.above i hi).mpr (hseen i hij)

variable {ids : List Int}

theorem Fresh.active (h : Fresh m ids) (i v : Int) : Fresh (update m (activeAddr i) v) ids := fun id hid => by
  simpa using h id hid

theorem Fresh.store (h : Fresh m ids) (x : Int) : Fresh (update m x 0) ids := fun id hid => by
  obtain ⟨hf,ht⟩ := h id hid
  refine ⟨fun r => ?_,?_⟩
  · rw [update_apply]
    split_ifs <;> simp [hf]
  · rw [update_apply]
    split_ifs <;> simp [ht]

theorem WonSlot.store (h : WonSlot m0 m ids j) {x : Int}
    (hx : ∀ i : Nat, activeAddr i≠x) : WonSlot m0 (update m x 0) ids j where
  lt := h.lt
  free := h.free
  ids_eq := h.ids_eq
  taken := h.taken.congr fun i => by simp [hx i]
  fresh := h.fresh.store x

variable {a : Access}

theorem scan_access {pc : Pc} (h : Scan m0 m ids pc) (ha : pc.access=some a) :
    Scan m0 (a.perform m) ids (pc.next (a.value m)) := by
  cases h with
  | tas b j hb hj hids ht hf hseen =>
    cases ha
    by_cases hv : m (activeAddr j)=0
    · have hbj : b ≤ j := by
        by_contra hlt
        exact ht.below j (by omega) hv
      simp only [Access.perform,Access.value,Pc.next,hv,if_true]
      exact .flag0 j ⟨hj,(ht.above j hbj).mp hv,hids.trans (ht.skip hbj hseen).symm,
        ht.take hbj hseen,hf.active j 1⟩
    · have hseen' : ∀ i : Nat, i < j+1 → update m (activeAddr j) 1 (activeAddr i)≠0 := by
        intro i hi
        by_cases hij : i=j
        · simp [hij]
        · simpa [hij] using hseen i (by omega)
      by_cases hlast : j+1<15
      · have hmax : (j : Int)+1 < maxPetersonLocks := by
          simp only [maxPetersonLocks]
          omega
        simp only [Access.perform,Access.value,Pc.next,hv,if_false,hmax,if_true]
        exact .tas b (j+1) hb hlast hids (ht.retake hv) (hf.active j 1) hseen'
      · obtain rfl : j=14 := by omega
        have hmax : ¬ ((14 : Nat) : Int)+1 < maxPetersonLocks := by decide
        simp only [Access.perform,Access.value,Pc.next,hv,if_false,hmax]
        have hall : ∀ i : Nat, i<15 → update m (activeAddr (14 : Nat)) 1 (activeAddr i)≠0 :=
          hseen'
        refine .full (hids.trans ((ht.retake hv).skip hb hall).symm) ⟨hall,fun i hi => ?_⟩
        exact (ht.retake hv).above i (by omega)
  | flag0 j hw =>
    cases ha
    exact .flag1 j (hw.store fun i => activeAddr_ne_flagAddr i j false) (by
      simp [Access.perform,bit])
  | flag1 j hw h0 =>
    cases ha
    refine .turn j (hw.store fun i => activeAddr_ne_flagAddr i j true) ?_
    rintro (_ | _)
    · have hne : flagAddr j (bit false)≠flagAddr j 1 := by
        simp only [flagAddr,bit]
        omega
      simpa [Access.perform,hne] using h0
    · simp [Access.perform,bit]
  | turn j hw h0 =>
    cases ha
    refine .found j (hw.store fun i => activeAddr_ne_turnAddr i j) (fun r => ?_) ?_
    · simpa [Access.perform] using h0 r
    · simp [Access.perform]
  | found | full => cases ha

structure Undone (m0 m : Mem) (ids : List Int) (j : Nat) : Prop where
  own : ∀ k id, ids[k]?=some id → (m (activeAddr id)=0 ↔ k < j)
  others : ∀ i : Nat, (i : Int)∉ids → (m (activeAddr i)=0 ↔ m0 (activeAddr i)=0)

inductive Undo (m0 m : Mem) (ids : List Int) (j : Nat) : Pc → Prop
  | check (id : Int) (hid : ids[j]?=some id) (hu : Undone m0 m ids j) :
      Undo m0 m ids j (.destroyCheck id)
  | clear (id : Int) (hid : ids[j]?=some id) (hu : Undone m0 m ids j) :
      Undo m0 m ids j (.destroyClear id)
  | done (id v : Int) (hu : Undone m0 m ids (j+1)) (hj : j+1 ≤ ids.length) :
      Undo m0 m ids j (.ret (.destroy id) v)

theorem undone_of_full (ht : Taken m0 m 15) :
    Undone m0 m (freeBelow m0 15) 0 where
  own k id hid := by
    obtain ⟨i,hi,-,rfl⟩ := mem_freeBelow.mp (List.mem_of_getElem? hid)
    simpa using ht.below i hi
  others i hi := by
    by_cases hlt : i<15
    · have h0 : m0 (activeAddr i)≠0 := fun h => hi (mem_freeBelow.mpr ⟨i,hlt,h,rfl⟩)
      simp [h0,ht.below i hlt]
    · exact ht.above i (by omega)

theorem Undone.clear {id : Int} (h : Undone m0 m ids j)
    (hnd : ids.Nodup) (hid : ids[j]?=some id) :
    Undone m0 (update m (activeAddr id) 0) ids (j+1) where
  own k x hx := by
    by_cases hk : k=j
    · subst hk
      obtain rfl : id=x := by simpa [hid] using hx
      simp
    · have hne : x≠id := by
        rintro rfl
        obtain ⟨hj,hjx⟩ := List.getElem?_eq_some_iff.mp hid
        obtain ⟨hk',hkx⟩ := List.getElem?_eq_some_iff.mp hx
        exact hk ((hnd.getElem_inj_iff).mp (hkx.trans hjx.symm))
      have hlt : k < j ↔ k < j+1 := by omega
      rw [update_of_ne (by simpa using hne),h.own k x hx,hlt]
  others i hi := by
    have hne : (i : Int)≠id := by
      rintro rfl
      exact hi (List.mem_of_getElem? hid)
    rw [update_of_ne (by simpa using hne)]
    exact h.others i hi

theorem undo_access {pc : Pc} (hnd : ids.Nodup) (h : Undo m0 m ids j pc) (ha : pc.access=some a) :
    Undo m0 (a.perform m) ids j (pc.next (a.value m)) := by
  cases h with
  | check id hid hu =>
    cases ha
    have hact : m (activeAddr id)≠0 := by
      rw [Ne,hu.own j id hid]
      omega
    simpa [Access.perform,Access.value,Pc.next,hact] using Undo.clear id hid hu
  | clear id hid hu =>
    cases ha
    exact .done id 0 (hu.clear hnd hid) (List.getElem?_eq_some_iff.mp hid).1
  | done => cases ha

theorem Undone.all (h : Undone m0 m (freeBelow m0 15) (freeBelow m0 15).length)
    (i : Nat) : m (activeAddr i)=0 ↔ m0 (activeAddr i)=0 := by
  by_cases hi : (i : Int)∈freeBelow m0 15
  · obtain ⟨k,hk⟩ := List.getElem?_of_mem hi
    obtain ⟨i',-,h0,he⟩ := mem_freeBelow.mp hi
    have hlt : k<(freeBelow m0 15).length := (List.getElem?_eq_some_iff.mp hk).1
    rw [he] at h0
    simp [(h.own k i hk).mpr hlt,h0]
  · exact h.others i hi

def Alone (s : Tour) : Prop := ∀ p, p≠0 → s.user p=.unborn ∧ s.kern.pc p=.user

structure Creating (processes : Int) (m0 : Mem) (ids : List Int) (s : Tour) : Prop where
  user : s.user 0=.creating
  lockIds : s.lockIds=some ids
  more : (ids.length : Int) < processes-1
  scan : Scan m0 s.kern.mem ids (s.kern.pc 0)
  alone : Alone s

/-- Inside `tournament_create`, from the first create call to its end. -/
inductive Setup (processes : Int) (m0 : Mem) (s : Tour) : Prop
  | creating (ids : List Int) (h : Creating processes m0 ids s)
  | rollback (j : Nat) (hu : s.user 0=.rollback j) (hids : s.lockIds=some (freeBelow m0 15))
      (hfew : ((freeBelow m0 15).length : Int) < processes-1)
      (hpc : Undo m0 s.kern.mem (freeBelow m0 15) j (s.kern.pc 0)) (hal : Alone s)
  | refused (hu : s.user 0=.exited) (hfew : ((freeBelow m0 15).length : Int) < processes-1)
      (hm : ∀ i : Nat, s.kern.mem (activeAddr i)=0 ↔ m0 (activeAddr i)=0)
      (hpc : s.kern.pc 0=.user) (hal : Alone s)

structure Built (processes : Int) (m0 : Mem) (ids : List Int) (s : Tour) : Prop where
  user : s.user 0=.forking 1
  lockIds : s.lockIds=some ids
  length : (ids.length : Int)=processes-1
  slots : ∃ b ≤ 15, ids=freeBelow m0 b ∧ Taken m0 s.kern.mem b
  fresh : Fresh s.kern.mem ids
  pc : s.kern.pc 0=.user
  alone : Alone s

variable {s : Tour}

theorem Alone.at (h : Alone s) (u : UserPc) (pc : Pc) : Alone (s.at 0 u pc) := by
  intro p hp
  simpa [hp] using h p hp

def InSetup : UserPc → Prop
  | .creating | .rollback _ | .exited => True
  | _ => False

variable {e : Event} {processes : Int} {t : Tour}

theorem Alone.only (h : Alone s) (hu : InSetup (s.user 0)) (hstep : step processes s e=some t) :
    e=.access 0 ∨ e=.sysret 0 := by
  have huser : ∀ p, s.user p=.unborn ∨ InSetup (s.user p) := by
    intro p
    by_cases hp : p=0
    · exact .inr (hp ▸ hu)
    · exact .inl (h p hp).1
  cases e with
  | malloc ok | fork ok => cases hp : s.user 0 <;> simp_all [step,InSetup]
  | acquire p | release p | exit p =>
    have hup := huser p
    cases hp : s.user p <;> simp_all [step,InSetup]
  | access p =>
    by_cases hp : p=0
    · exact .inl (by rw [hp])
    · simp [step,PetersonLock.step,(h p hp).2,Pc.access] at hstep
  | sysret p =>
    by_cases hp : p=0
    · exact .inr (by rw [hp])
    · simp [step,(h p hp).2] at hstep

theorem Alone.access (h : Alone s) (a : Access) : Alone (s.access 0 a) := by
  intro p hp
  simpa [hp] using h p hp

theorem Creating.access
    (h : Creating processes m0 ids s) (ha : (s.kern.pc 0).access=some a) :
    Creating processes m0 ids (s.access 0 a) where
  user := h.user
  lockIds := h.lockIds
  more := h.more
  scan := by simpa using scan_access h.scan ha
  alone := h.alone.access a

theorem Setup.access (h : Setup processes m0 s)
    (hstep : step processes s (.access 0)=some t) : Setup processes m0 t := by
  obtain ⟨a,ha,rfl⟩ := Tournament.step_access.mp hstep
  cases h with
  | creating ids h => exact .creating ids (h.access ha)
  | rollback j hu hids hfew hpc hal =>
    refine .rollback j hu hids hfew ?_ (hal.access a)
    simpa using undo_access (nodup_freeBelow m0 15) hpc ha
  | refused hu hfew hm hpc hal => simp [hpc,Pc.access] at ha

theorem createNext_setup (hb : b≤15) (hids : ids=freeBelow m0 b) (ht : Taken m0 s.kern.mem b)
    (hf : Fresh s.kern.mem ids) (hal : Alone s) (hpc : s.kern.pc 0=.user)
    (hlen : (ids.length : Int) ≤ processes-1) (h1 : 1 < processes)
    (h : createNext processes s ids=some t) :
    (Creating processes m0 ids t ∧ t.kern.pc 0=.createTas 0) ∨ Built processes m0 ids t := by
  rw [createNext] at h
  split_ifs at h with hmore
  · obtain ⟨-,rfl⟩ := call_eq_some.mp h
    refine .inl ⟨⟨by simp,rfl,hmore,?_,?_⟩,by simp [Syscall.entry]⟩
    · have hseen : ∀ i : Nat, i<0 → s.kern.mem (activeAddr i)≠0 := by
        intro i hi
        omega
      simpa [Syscall.entry] using Scan.tas b 0 hb (by omega) hids ht hf hseen
    · exact Alone.at (s := { s with lockIds := some ids }) hal _ _
  · cases h
    refine .inr ⟨by simp,rfl,by omega,⟨b,hb,hids,ht⟩,hf,hpc,?_⟩
    intro p hp
    simpa [hp] using hal p hp

theorem rollbackNext_setup (hids : s.lockIds=some (freeBelow m0 15))
    (hfew : ((freeBelow m0 15).length : Int) < processes-1)
    (hu : Undone m0 s.kern.mem (freeBelow m0 15) j) (hj : j≤(freeBelow m0 15).length)
    (hal : Alone s) (hpc : s.kern.pc 0=.user) (h : rollbackNext s (freeBelow m0 15) j=some t) :
    Setup processes m0 t := by
  rw [rollbackNext] at h
  cases hid : (freeBelow m0 15)[j]? with
  | some id =>
    rw [hid] at h
    obtain ⟨-,rfl⟩ := call_eq_some.mp h
    obtain ⟨i,hi,-,rfl⟩ := mem_freeBelow.mp (List.mem_of_getElem? hid)
    refine .rollback j (by simp) hids hfew ?_ (hal.at _ _)
    simpa [Syscall.entry,inRange_natCast hi] using Undo.check (i : Int) hid hu
  | none =>
    rw [hid] at h
    cases h
    have hlen : j=(freeBelow m0 15).length := by
      have := List.getElem?_eq_none_iff.mp hid
      omega
    refine .refused (by simp) hfew (fun i => ?_) hpc ?_
    · exact (hlen ▸ hu).all i
    · intro p hp
      simpa [hp] using hal p hp

theorem Alone.returned (h : Alone s) : Alone { s with kern := s.kern.setPc 0 .user } := by
  intro p hp
  simpa [hp] using h p hp

theorem WonSlot.fresh_snoc (h : WonSlot m0 m ids j) (h0 : ∀ r, m (flagAddr j (bit r))=0)
    (ht : m (turnAddr j)=0) : Fresh m (ids++[(j : Int)]) := by
  intro id hid
  cases List.mem_append.mp hid with
  | inl hmem => exact h.fresh id hmem
  | inr hmem =>
    obtain rfl := List.mem_singleton.mp hmem
    exact ⟨h0,ht⟩

theorem Creating.found {v : Int}
    (h : Creating processes m0 ids s) (h1 : 1 < processes) (hv : 0 ≤ v)
    (hpc : s.kern.pc 0=.ret .create v) (hstep : step processes s (.sysret 0)=some t) :
    (Creating processes m0 (ids++[v]) t ∧ t.kern.pc 0=.createTas 0) ∨
      Built processes m0 (ids++[v]) t := by
  obtain ⟨c,v',hpc',hres⟩ := Tournament.step_sysret.mp hstep
  rw [hpc] at hpc'
  cases hpc'
  have hscan := h.scan
  have hget : s.lockIds.getD []=ids := by simp [h.lockIds]
  simp only [resume,h.user,hget] at hres
  rw [hpc] at hscan
  cases hscan with
  | found j hw h0 ht =>
    have hids : ids++[(j : Int)]=freeBelow m0 (j+1) := by
      rw [freeBelow_succ,if_pos hw.free,hw.ids_eq]
    have hlen : (((ids++[(j : Int)]).length : Nat) : Int) ≤ processes-1 := by
      have := h.more
      simp only [List.length_append,List.length_singleton]
      omega
    exact createNext_setup (s := { s with kern := s.kern.setPc 0 .user })
      (by have := hw.lt; omega) hids hw.taken (hw.fresh_snoc h0 ht) h.alone.returned (by simp)
      hlen h1 hres
  | full => omega

theorem Setup.sysret (h : Setup processes m0 s)
    (h1 : 1 < processes) (hstep : step processes s (.sysret 0)=some t) :
    Setup processes m0 t ∨ ∃ ids, Built processes m0 ids t := by
  obtain ⟨c,v,hpc,hres⟩ := Tournament.step_sysret.mp hstep
  cases h with
  | creating ids h =>
    have hscan := h.scan
    rw [hpc] at hscan
    cases hscan with
    | found j hw h0 ht =>
      obtain ⟨hc,-⟩ | hb := h.found h1 (by omega) hpc hstep
      · exact .inl (.creating _ hc)
      · exact .inr ⟨_,hb⟩
    | full hall ht =>
      subst hall
      have hget : s.lockIds.getD []=freeBelow m0 15 := by simp [h.lockIds]
      simp only [resume,h.user,hget] at hres
      exact .inl (rollbackNext_setup (s := { s with kern := s.kern.setPc 0 .user }) h.lockIds h.more
        (undone_of_full ht) (Nat.zero_le _) h.alone.returned (by simp) hres)
  | rollback j hu hids hfew hundo hal =>
    rw [hpc] at hundo
    have hget : s.lockIds.getD []=freeBelow m0 15 := by simp [hids]
    simp only [resume,hu,hget] at hres
    cases hundo with
    | done id v hu' hj =>
      exact .inl (rollbackNext_setup (s := { s with kern := s.kern.setPc 0 .user }) hids hfew hu' hj
        hal.returned (by simp) hres)
  | refused hu hfew hm hpc' hal => simp [hpc'] at hpc

theorem Setup.event (h : Setup processes m0 s) (hstep : step processes s e=some t) :
    e=.access 0 ∨ e=.sysret 0 := by
  cases h with
  | creating _ h =>
    refine h.alone.only ?_ hstep
    rw [h.user]
    trivial
  | rollback _ hu _ _ _ hal | refused hu _ _ _ hal =>
    refine hal.only ?_ hstep
    rw [hu]
    trivial

theorem Setup.next
    (h : Setup processes m0 s) (h1 : 1 < processes) (hstep : step processes s e=some t) :
    Setup processes m0 t ∨ ∃ ids, Built processes m0 ids t := by
  obtain rfl | rfl := h.event hstep
  · exact .inl (h.access hstep)
  · exact h.sysret h1 hstep

/-- How far a run of the program has come. `R` holds from the moment on that the
locks are created. -/
inductive Progress (processes : Int) (m0 : Mem) (R : Tour → Prop) : List Event → Tour → Prop
  | initial : Progress processes m0 R [] (init processes m0)
  | noMemory : Progress processes m0 R [.malloc false] ((init processes m0).goto 0 .exited)
  | setup (past : List Event) (s : Tour) (hs : start processes=.mallocing)
      (hm : Event.malloc false∉past) (h : Setup processes m0 s) : Progress processes m0 R past s
  | running (past : List Event) (s : Tour) (hs : start processes=.mallocing)
      (hm : Event.malloc false∉past) (h : R s) : Progress processes m0 R past s

theorem start_cases (processes : Int) :
    start processes=.exited ∨ start processes=.mallocing ∧ 1 < processes := by
  simp only [start]
  split_ifs with h ha
  · exact .inl rfl
  · exact .inr ⟨rfl,by omega⟩
  · exact .inl rfl

theorem one_lt_of_start (h : start processes=.mallocing) : 1 < processes := by
  simpa [h] using start_cases processes

theorem alone_init (processes : Int) (m0 : Mem) : Alone (init processes m0) := by
  intro p hp
  simp [init,hp]

theorem Alone.stuck (h : Alone s)
    (hu : s.user 0=.exited) (hpc : s.kern.pc 0=.user) : step processes s e=none := by
  cases hstep : step processes s e with
  | none => rfl
  | some t =>
    obtain rfl | rfl := h.only (by rw [hu]; trivial) hstep
    · simp [step,PetersonLock.step,hpc,Pc.access] at hstep
    · simp [step,hpc] at hstep

theorem init_next (h : step processes (init processes m0) e=some t) :
    start processes=.mallocing ∧ (e=.malloc false ∧ t=(init processes m0).goto 0 .exited ∨
        e=.malloc true ∧ createNext processes (init processes m0) []=some t) := by
  obtain hs | ⟨hs,-⟩ := start_cases processes
  · rw [(alone_init processes m0).stuck (by simp [init,hs]) rfl] at h
    cases h
  · refine ⟨hs,?_⟩
    have huser : ∀ p, (init processes m0).user p=.mallocing ∨
        (init processes m0).user p=.unborn := by
      intro p
      by_cases hp : p=0 <;> simp [init,hp,hs]
    have hpc : ∀ p, (init processes m0).kern.pc p=.user := fun p => rfl
    cases e with
    | malloc ok =>
      have h0 : (init processes m0).user 0=.mallocing := by simp [init,hs]
      cases ok with
      | false => exact .inl ⟨rfl,by simpa [step,h0] using h.symm⟩
      | true => exact .inr ⟨rfl,by simpa [step,h0] using h⟩
    | fork ok => simp [step,init,hs] at h
    | acquire p | release p | exit p =>
      cases huser p with
      | inl hu | inr hu => simp [step,hu] at h
    | access p => simp [step,PetersonLock.step,hpc p,Pc.access] at h
    | sysret p => simp [step,hpc p] at h

theorem first_create (hs : start processes=.mallocing)
    (h : createNext processes (init processes m0) []=some t) :
    (Creating processes m0 [] t ∧ t.kern.pc 0=.createTas 0) ∨ Built processes m0 [] t := by
  have h1 := one_lt_of_start hs
  have htaken : Taken m0 m0 0 := ⟨fun i hi => by omega,fun i _ => Iff.rfl⟩
  have hfresh : Fresh m0 [] := by simp [Fresh]
  have hlen : ((([] : List Int).length : Nat) : Int) ≤ processes-1 := by
    simpa using Int.le_of_lt h1
  exact createNext_setup (b := 0) (by omega) rfl htaken hfresh (alone_init processes m0) rfl hlen
    h1 h

variable {R : Tour → Prop}

theorem Progress.next {past : List Event}
    (hbuilt : ∀ ids s, start processes=.mallocing → Built processes m0 ids s → R s)
    (hR : ∀ s e t, R s → step processes s e=some t → R t ∧ ∀ ok, e≠.malloc ok)
    (h : Progress processes m0 R past s) (hstep : step processes s e=some t) :
    Progress processes m0 R (past++[e]) t := by
  cases h with
  | initial =>
    obtain ⟨hs,⟨rfl,rfl⟩ | ⟨rfl,hnext⟩⟩ := init_next hstep
    · exact .noMemory
    · obtain ⟨hc,-⟩ | hb := first_create hs hnext
      · exact .setup _ _ hs (by simp) (.creating _ hc)
      · exact .running _ _ hs (by simp) (hbuilt _ _ hs hb)
  | noMemory =>
    have hal : Alone ((init processes m0).goto 0 .exited) := by
      intro p hp
      simp [init,hp]
    rw [hal.stuck (by simp) rfl] at hstep
    cases hstep
  | setup _ _ hs hm h =>
    have h1 := one_lt_of_start hs
    have hm' : Event.malloc false∉past++[e] := by
      obtain rfl | rfl := h.event hstep <;> simpa using hm
    obtain hset | ⟨ids,hb⟩ := h.next h1 hstep
    · exact .setup _ _ hs hm' hset
    · exact .running _ _ hs hm' (hbuilt ids _ hs hb)
  | running _ _ hs hm h =>
    obtain ⟨ht,he⟩ := hR _ _ _ h hstep
    refine .running _ _ hs ?_ ht
    simpa [hm] using (he false).symm

theorem progress_run {ls : List Event}
    (hbuilt : ∀ ids s, start processes=.mallocing → Built processes m0 ids s → R s)
    (hR : ∀ s e t, R s → step processes s e=some t → R t ∧ ∀ ok, e≠.malloc ok)
    (hrun : run (step processes) ls (init processes m0)=some s) :
    Progress processes m0 R ls s :=
  run_history (fun _ _ _ _ h hstep => h.next hbuilt hR hstep) .initial hrun

def InTournament : UserPc → Prop
  | .acquiring _ | .unwinding _ | .critical | .releasing _ => True
  | _ => False

theorem Progress.created {past : List Event} {p : Nat} (h : Progress processes m0 R past s)
    (hp : InTournament (s.user p)) :
    R s := by
  have hout : Alone s → ¬ InTournament (s.user 0) → False := by
    intro hal h0
    by_cases hp0 : p=0
    · exact h0 (hp0 ▸ hp)
    · rw [(hal p hp0).1] at hp
      exact hp
  cases h with
  | running _ _ _ _ hR => exact hR
  | initial =>
    refine (hout (alone_init processes m0) ?_).elim
    obtain hs | ⟨hs,-⟩ := start_cases processes <;> simp [init,hs,InTournament]
  | noMemory =>
    refine (hout (fun q hq => ?_) (by simp [InTournament])).elim
    simp [init,hq]
  | setup _ _ _ _ hset =>
    cases hset with
    | creating _ h => exact (hout h.alone (by simp [h.user,InTournament])).elim
    | rollback _ hu _ _ _ hal | refused hu _ _ _ hal =>
      exact (hout hal (by simp [hu,InTournament])).elim

end Xv6.TournamentCreate
