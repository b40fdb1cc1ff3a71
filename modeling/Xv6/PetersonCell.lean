import Mathlib.Logic.Function.Basic

/-! Peterson's algorithm for two roles, over any set of agents. Several agents
may share a role over time; an agent enters only when its role is free. The
flag and the turn are read in two separate steps. -/
namespace Xv6.PetersonCell
open Function
variable {α : Type*}

/-- Where an agent stands: about to raise its flag, about to give the turn
away, about to read the other flag, about to read the turn, past the loop. -/
inductive Phase where
  | out | flagging | turning | testFlag | testTurn | inside
  deriving DecidableEq

def Phase.flagged : Phase → Bool
  | .out | .flagging => false
  | .turning | .testFlag | .testTurn | .inside => true

def Phase.turned : Phase → Bool
  | .testFlag | .testTurn | .inside => true
  | .out | .flagging | .turning => false

theorem Phase.flagged_of_turned {ph : Phase} (h : ph.turned=true) : ph.flagged=true := by
  cases ph <;> simp_all [Phase.turned,Phase.flagged]

@[ext] structure Cell (α : Type*) where
  flag : Bool → Bool
  turn : Bool
  phase : α → Phase

def Cell.setFlag (c : Cell α) (r v : Bool) : Cell α :=
  { c with flag := update c.flag r v }

def Cell.setTurn (c : Cell α) (t : Bool) : Cell α :=
  { c with turn := t }

def Cell.move [DecidableEq α] (c : Cell α) (a : α) (ph : Phase) : Cell α :=
  { c with phase := update c.phase a ph }

@[simp, grind =] theorem Cell.setFlag_phase (c : Cell α) (r v : Bool) (x : α) :
    (c.setFlag r v).phase x=c.phase x := rfl
@[simp, grind =] theorem Cell.setFlag_flag (c : Cell α) (r v q : Bool) :
    (c.setFlag r v).flag q = if q=r then v else c.flag q := by
  simp [Cell.setFlag,update_apply]
@[simp, grind =] theorem Cell.setFlag_turn (c : Cell α) (r v : Bool) :
    (c.setFlag r v).turn=c.turn := rfl
@[simp, grind =] theorem Cell.setTurn_phase (c : Cell α) (t : Bool) (x : α) :
    (c.setTurn t).phase x=c.phase x := rfl
@[simp, grind =] theorem Cell.setTurn_flag (c : Cell α) (t r : Bool) :
    (c.setTurn t).flag r=c.flag r := rfl
@[simp, grind =] theorem Cell.setTurn_turn (c : Cell α) (t : Bool) : (c.setTurn t).turn=t := rfl

section
variable [DecidableEq α]

@[simp, grind =] theorem Cell.move_phase (c : Cell α) (a : α) (ph : Phase) (x : α) :
    (c.move a ph).phase x = if x=a then ph else c.phase x := by
  simp [Cell.move,update_apply]
@[simp, grind =] theorem Cell.move_flag (c : Cell α) (a : α) (ph : Phase) (r : Bool) :
    (c.move a ph).flag r=c.flag r := rfl
@[simp, grind =] theorem Cell.move_turn (c : Cell α) (a : α) (ph : Phase) :
    (c.move a ph).turn=c.turn := rfl

inductive Step (role : α → Bool) (c : Cell α) (a : α) : Cell α → Prop
  | enter (h : c.phase a=.out) (hfree : ∀ b, role b=role a → c.phase b=.out) :
      Step role c a (c.move a .flagging)
  | raise (h : c.phase a=.flagging) :
      Step role c a ((c.setFlag (role a) true).move a .turning)
  | yieldTurn (h : c.phase a=.turning) :
      Step role c a ((c.setTurn (!role a)).move a .testFlag)
  | flagUp (h : c.phase a=.testFlag) (hf : c.flag (!role a)=true) :
      Step role c a (c.move a .testTurn)
  | flagDown (h : c.phase a=.testFlag) (hf : c.flag (!role a)=false) :
      Step role c a (c.move a .inside)
  | turnAway (h : c.phase a=.testTurn) (ht : c.turn = !role a) :
      Step role c a (c.move a .testFlag)
  | turnMine (h : c.phase a=.testTurn) (ht : c.turn=role a) :
      Step role c a (c.move a .inside)
  | leave (h : c.phase a=.inside) :
      Step role c a ((c.setFlag (role a) false).move a .out)

/-- What every reachable cell satisfies. A flag is up exactly while an agent of
that role is past raising it, and an agent inside has the turn as soon as the
other side has given it away. -/
structure Inv (role : α → Bool) (c : Cell α) : Prop where
  unique : ∀ a b, role a=role b → c.phase a≠.out → c.phase b≠.out → a=b
  flag_set : ∀ a, (c.phase a).flagged=true → c.flag (role a)=true
  flag_owner : ∀ r, c.flag r=true → ∃ a, role a=r ∧ (c.phase a).flagged=true
  turn_inside : ∀ a b, role a≠role b → c.phase a=.inside →
    (c.phase b).turned=true → c.turn=role a

variable {c : Cell α} {a : α} {role : α → Bool}

variable (hi : Inv role c)
include hi

theorem Inv.enter (h : c.phase a=.out) (hfree : ∀ b, role b=role a → c.phase b=.out) :
    Inv role (c.move a .flagging) where
  unique x y hr hx hy := by
    have hu := hi.unique x y hr
    grind
  flag_set x hx := by
    have hs := hi.flag_set x
    grind [Phase.flagged]
  flag_owner r hr := by
    obtain ⟨x,hx,hp⟩ := hi.flag_owner r hr
    have hxa : x≠a := by
      intro he
      simp [he,h,Phase.flagged] at hp
    exact ⟨x,hx,by simpa [hxa] using hp⟩
  turn_inside x y hr hx hy := by
    have ht := hi.turn_inside x y hr
    grind [Phase.turned]

theorem Inv.raise
    (h : c.phase a=.flagging) : Inv role ((c.setFlag (role a) true).move a .turning) where
  unique x y hr hx hy := by
    have hu := hi.unique x y hr
    grind
  flag_set x hx := by
    have hs := hi.flag_set x
    grind
  flag_owner r hr := by
    by_cases hra : r=role a
    · exact ⟨a,hra.symm,by simp [Phase.flagged]⟩
    · obtain ⟨x,hx,hp⟩ := hi.flag_owner r (by simpa [hra] using hr)
      have hxa : x≠a := fun he => hra (by rw [← hx,he])
      exact ⟨x,hx,by simpa [hxa] using hp⟩
  turn_inside x y hr hx hy := by
    have ht := hi.turn_inside x y hr
    grind [Phase.turned]

theorem Inv.yieldTurn
    (h : c.phase a=.turning) : Inv role ((c.setTurn (!role a)).move a .testFlag) where
  unique x y hr hx hy := by
    have hu := hi.unique x y hr
    grind
  flag_set x hx := by
    have hs := hi.flag_set x
    grind [Phase.flagged]
  flag_owner r hr := by
    obtain ⟨x,hx,hp⟩ := hi.flag_owner r hr
    refine ⟨x,hx,?_⟩
    grind [Phase.flagged]
  turn_inside x y hr hx hy := by
    have hux := hi.unique x a
    grind [Phase.turned]

theorem Inv.advance (h : c.phase a=.testFlag ∨ c.phase a=.testTurn) (ph : Phase)
    (hph : ph.turned=true)
    (hin : ph=.inside → ∀ b, role b≠role a → (c.phase b).turned=true → c.turn=role a) :
    Inv role (c.move a ph) where
  unique x y hr hx hy := by
    have hu := hi.unique x y hr
    grind
  flag_set x hx := by
    have hs := hi.flag_set x
    grind [Phase.flagged]
  flag_owner r hr := by
    obtain ⟨x,hx,hp⟩ := hi.flag_owner r hr
    refine ⟨x,hx,?_⟩
    grind [Phase.flagged_of_turned]
  turn_inside x y hr hx hy := by
    have ht := hi.turn_inside x y hr
    grind [Phase.turned]

theorem Inv.leave (h : c.phase a=.inside) : Inv role ((c.setFlag (role a) false).move a .out) where
  unique x y hr hx hy := by
    have hu := hi.unique x y hr
    grind
  flag_set x hx := by
    have hs := hi.flag_set x
    have hu := hi.unique x a
    grind [Phase.flagged]
  flag_owner r hr := by
    have hra : r≠role a := by
      intro he
      simp [he] at hr
    obtain ⟨x,hx,hp⟩ := hi.flag_owner r (by simpa [hra] using hr)
    have hxa : x≠a := fun he => hra (by rw [← hx,he])
    exact ⟨x,hx,by simpa [hxa] using hp⟩
  turn_inside x y hr hx hy := by
    have ht := hi.turn_inside x y hr
    grind [Phase.turned]

theorem Inv.step {d : Cell α} (h : Step role c a d) : Inv role d := by
  cases h with
  | enter h hfree => exact hi.enter h hfree
  | raise h => exact hi.raise h
  | yieldTurn h => exact hi.yieldTurn h
  | flagUp h hf => exact hi.advance (Or.inl h) .testTurn rfl (by simp)
  | turnAway h ht => exact hi.advance (Or.inr h) .testFlag rfl (by simp)
  | turnMine h ht => exact hi.advance (Or.inr h) .inside rfl (fun _ _ _ _ => ht)
  | flagDown h hf =>
    refine hi.advance (Or.inl h) .inside rfl ?_
    -- the other flag is down, so nobody of the other role has raised it
    intro _ b hb hbt
    have hfb := hi.flag_set b (Phase.flagged_of_turned hbt)
    rw [Bool.eq_not.mpr hb,hf] at hfb
    exact absurd hfb (by simp)
  | leave h => exact hi.leave h

end

theorem Inv.of_idle {role : α → Bool} {c : Cell α} (hout : ∀ a, c.phase a=.out)
    (hflag : ∀ r, c.flag r=false) : Inv role c where
  unique a b _ ha := absurd (hout a) ha
  flag_set a ha := by simp [hout a,Phase.flagged] at ha
  flag_owner r hr := by simp [hflag r] at hr
  turn_inside a b _ ha := by simp [hout a] at ha

theorem Inv.exclusive {role : α → Bool} {c : Cell α} (hi : Inv role c) {a b : α}
    (ha : c.phase a=.inside) (hb : c.phase b=.inside) : a=b := by
  by_cases hr : role a=role b
  · exact hi.unique a b hr (by simp [ha]) (by simp [hb])
  · have hta := hi.turn_inside a b hr ha (by simp [hb,Phase.turned])
    have htb := hi.turn_inside b a (Ne.symm hr) hb (by simp [ha,Phase.turned])
    exact absurd (hta.symm.trans htb) hr

end Xv6.PetersonCell
