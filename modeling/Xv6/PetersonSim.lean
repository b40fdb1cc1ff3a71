import Xv6.PetersonCell
import Xv6.PetersonLock

/-! The kernel's code on one lock, in roles 0 and 1, simulated by a Peterson
cell: what the accesses of an acquire or a release do to the cell, and that the
accesses on every other lock leave it alone. -/
namespace Xv6.PetersonSim
open Function Xv6.PetersonLock Xv6.PetersonCell
variable {α : Type*}

def bit : Bool → Int
  | false => 0
  | true => 1

@[simp] theorem bit_inj {r r' : Bool} : bit r=bit r' ↔ r=r' := by
  cases r <;> cases r' <;> decide

@[simp] theorem other_bit (r : Bool) : other (bit r)=bit (!r) := by
  cases r <;> decide

theorem bit_cases (r : Bool) : bit r=0 ∨ bit r=1 := by
  cases r <;> simp [bit]

@[simp] theorem flagAddr_eq_flagAddr {i j : Int} {q r : Bool} :
    flagAddr i (bit q)=flagAddr j (bit r) ↔ i=j ∧ q=r := by
  cases q <;> cases r <;> simp [flagAddr,bit] <;> omega
@[simp] theorem flagAddr_ne_turnAddr (i j : Int) (q : Bool) : flagAddr i (bit q)≠turnAddr j := by
  rcases bit_cases q with h | h <;> simp only [flagAddr,turnAddr,h] <;> omega
@[simp] theorem flagAddr_ne_activeAddr (i j : Int) (q : Bool) :
    flagAddr i (bit q)≠activeAddr j := by
  rcases bit_cases q with h | h <;> simp only [flagAddr,activeAddr,h] <;> omega
@[simp] theorem turnAddr_ne_flagAddr (i j : Int) (q : Bool) : turnAddr i≠flagAddr j (bit q) :=
  (flagAddr_ne_turnAddr j i q).symm
@[simp] theorem activeAddr_ne_flagAddr (i j : Int) (q : Bool) :
    activeAddr i≠flagAddr j (bit q) := (flagAddr_ne_activeAddr j i q).symm
@[simp] theorem turnAddr_ne_activeAddr (i j : Int) : turnAddr i≠activeAddr j := by
  simp only [turnAddr,activeAddr]
  omega
@[simp] theorem activeAddr_ne_turnAddr (i j : Int) : activeAddr i≠turnAddr j :=
  (turnAddr_ne_activeAddr j i).symm
@[simp] theorem turnAddr_inj {i j : Int} : turnAddr i=turnAddr j ↔ i=j := by
  simp only [turnAddr]
  omega
@[simp] theorem activeAddr_inj {i j : Int} : activeAddr i=activeAddr j ↔ i=j := by
  simp only [activeAddr]
  omega

theorem perform_apply (a : Access) (m : Mem) {x : Int} (h : x≠a.addr) : a.perform m x=m x := by
  cases a <;> simp_all [Access.perform,Access.addr]

def cellAt (m : Mem) (lockId : Int) (phase : α → Phase) : Cell α where
  flag r := m (flagAddr lockId (bit r)) != 0
  turn := m (turnAddr lockId) == 1
  phase := phase

def TurnBit (m : Mem) (lockId : Int) : Prop := m (turnAddr lockId)=0 ∨ m (turnAddr lockId)=1

inductive InCall (lockId : Int) (r : Bool) : Pc → Prop
  | acquireCheck : InCall lockId r (.acquireCheck lockId (bit r))
  | acquireFlag : InCall lockId r (.acquireFlag lockId (bit r))
  | acquireTurn : InCall lockId r (.acquireTurn lockId (bit r))
  | waitFlag : InCall lockId r (.waitFlag lockId (bit r))
  | waitTurn : InCall lockId r (.waitTurn lockId (bit r))
  | acquired : InCall lockId r (.ret (.acquire lockId (bit r)) 0)
  | releaseCheck : InCall lockId r (.releaseCheck lockId (bit r))
  | releaseFlag : InCall lockId r (.releaseFlag lockId (bit r))
  | released : InCall lockId r (.ret (.release lockId (bit r)) 0)

def phaseOf : Pc → Phase
  | .acquireCheck _ _ | .acquireFlag _ _ => .flagging
  | .acquireTurn _ _ => .turning
  | .waitFlag _ _ => .testFlag
  | .waitTurn _ _ => .testTurn
  | .ret (.acquire _ _) _ | .releaseCheck _ _ | .releaseFlag _ _ => .inside
  | _ => .out

theorem inCall_next {lockId : Int} {r : Bool} {pc : Pc} {a : Access} {m : Mem}
    (h : InCall lockId r pc) (ha : pc.access=some a) (hact : m (activeAddr lockId)≠0) :
    InCall lockId r (pc.next (a.value m)) := by
  cases h with
  | acquireCheck =>
    cases ha
    simpa [Pc.next,Access.value,hact] using InCall.acquireFlag
  | acquireFlag => exact .acquireTurn
  | acquireTurn => exact .waitFlag
  | waitFlag =>
    cases ha
    by_cases hv : m (flagAddr lockId (bit !r))=0
    · simpa [Pc.next,Access.value,hv] using InCall.acquired
    · simpa [Pc.next,Access.value,hv] using InCall.waitTurn
  | waitTurn =>
    cases ha
    by_cases hv : m (turnAddr lockId)=bit !r
    · simpa [Pc.next,Access.value,hv] using InCall.waitFlag
    · simpa [Pc.next,Access.value,hv] using InCall.acquired
  | releaseCheck =>
    cases ha
    simpa [Pc.next,Access.value,hact] using InCall.releaseFlag
  | releaseFlag => exact .released
  | acquired => cases ha
  | released => cases ha

theorem cellAt_congr {m m' : Mem} {lockId : Int} (phase : α → Phase)
    (hf : ∀ r, m' (flagAddr lockId (bit r))=m (flagAddr lockId (bit r)))
    (ht : m' (turnAddr lockId)=m (turnAddr lockId)) :
    cellAt m' lockId phase=cellAt m lockId phase := by
  simp [cellAt,hf,ht]

theorem cellAt_store_flag (m : Mem) (lockId : Int) (r : Bool) (v : Int) (phase : α → Phase) :
    cellAt (update m (flagAddr lockId (bit r)) v) lockId phase =
      (cellAt m lockId phase).setFlag r (v != 0) := by
  ext q
  · by_cases h : q=r <;> simp [cellAt,h]
  · simp [cellAt]
  · rfl

theorem cellAt_store_turn (m : Mem) (lockId : Int) (r : Bool) (phase : α → Phase) :
    cellAt (update m (turnAddr lockId) (bit r)) lockId phase=(cellAt m lockId phase).setTurn r := by
  ext q
  · simp [cellAt]
  · cases r <;> simp [cellAt,bit]
  · rfl

theorem turnBit_access {lockId : Int} {r : Bool} {pc : Pc} {a : Access} {m : Mem}
    (h : InCall lockId r pc) (ha : pc.access=some a) (ht : TurnBit m lockId) :
    TurnBit (a.perform m) lockId := by
  cases h <;> cases ha <;> simp_all [TurnBit,Access.perform,bit_cases]

section
variable [DecidableEq α]

theorem cellAt_update (m : Mem) (lockId : Int) (phase : α → Phase) (x : α) (ph : Phase) :
    cellAt m lockId (update phase x ph)=(cellAt m lockId phase).move x ph := rfl

theorem cellAt_update_self {m : Mem} {lockId : Int} {phase : α → Phase} {x : α} {ph : Phase}
    (h : phase x=ph) : cellAt m lockId (update phase x ph)=cellAt m lockId phase := by
  rw [← h,update_eq_self]

theorem inv_access {role : α → Bool} {lockId : Int} {x : α} {pc : Pc} {a : Access} {m : Mem}
    {phase : α → Phase} (h : InCall lockId (role x) pc) (ha : pc.access=some a)
    (hact : m (activeAddr lockId)≠0) (ht : TurnBit m lockId) (hx : phase x=phaseOf pc)
    (hi : Inv role (cellAt m lockId phase)) :
    Inv role (cellAt (a.perform m) lockId (update phase x (phaseOf (pc.next (a.value m))))) := by
  cases h with
  | acquireCheck =>
    cases ha
    simp only [Access.perform,Access.value,Pc.next,hact,if_false,phaseOf] at hx ⊢
    rwa [cellAt_update_self hx]
  | acquireFlag =>
    cases ha
    simp only [Access.perform,Pc.next,phaseOf,cellAt_update,cellAt_store_flag]
    exact hi.step (.raise hx)
  | acquireTurn =>
    cases ha
    simp only [Access.perform,Pc.next,phaseOf,cellAt_update,other_bit,cellAt_store_turn]
    exact hi.step (.yieldTurn hx)
  | waitFlag =>
    cases ha
    by_cases hv : m (flagAddr lockId (bit !role x))=0
    · simp only [Access.perform,Access.value,Pc.next,other_bit,hv,if_true,phaseOf,
        cellAt_update]
      exact hi.step (.flagDown hx (by simp [cellAt,hv]))
    · simp only [Access.perform,Access.value,Pc.next,other_bit,hv,if_false,phaseOf,
        cellAt_update]
      exact hi.step (.flagUp hx (by simp [cellAt,hv]))
  | waitTurn =>
    cases ha
    by_cases hv : m (turnAddr lockId)=bit !role x
    · have haway : (cellAt m lockId phase).turn = !role x := by
        cases hr : role x <;> simp [cellAt,hv,hr,bit]
      simp only [Access.perform,Access.value,Pc.next,other_bit,hv,if_true,phaseOf,
        cellAt_update]
      exact hi.step (.turnAway hx haway)
    · have hmine : (cellAt m lockId phase).turn=role x := by
        rcases ht with ht | ht <;> cases hr : role x <;> simp_all [cellAt,bit]
      simp only [Access.perform,Access.value,Pc.next,other_bit,hv,if_false,phaseOf,
        cellAt_update]
      exact hi.step (.turnMine hx hmine)
  | releaseCheck =>
    cases ha
    simp only [Access.perform,Access.value,Pc.next,hact,if_false,phaseOf] at hx ⊢
    rwa [cellAt_update_self hx]
  | releaseFlag =>
    cases ha
    simp only [Access.perform,Pc.next,phaseOf,cellAt_update,cellAt_store_flag]
    exact hi.step (.leave hx)
  | acquired => cases ha
  | released => cases ha

end

end Xv6.PetersonSim
