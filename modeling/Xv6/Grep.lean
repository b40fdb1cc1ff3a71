import Mathlib.Tactic.Common

/-! The matcher of `user/grep.c` and the language of its patterns. Strings are lists of bytes
without their 0. -/
namespace Xv6.Grep
variable {c t : UInt8} {re text : List UInt8}

def hat : UInt8 := 94
def star : UInt8 := 42
def dollar : UInt8 := 36
def dot : UInt8 := 46

mutual

def matchhere (re text : List UInt8) : Bool :=
  match re with
  | [] => true
  | c :: re =>
    if re.head?=some star then matchstar c re.tail text
    else if c=dollar ∧ re=[] then text=[]
    else
      match text with
      | [] => false
      | t :: text => if c=dot ∨ c=t then matchhere re text else false
termination_by (re.length, text.length, 0)

def matchstar (c : UInt8) (re text : List UInt8) : Bool :=
  if matchhere re text then true
  else
    match text with
    | [] => false
    | t :: text => if t=c ∨ c=dot then matchstar c re text else false
termination_by (re.length, text.length, 1)

end

def matchFrom (re : List UInt8) : List UInt8 → Bool
  | [] => matchhere re []
  | t :: text => if matchhere re (t :: text) then true else matchFrom re text

def match_ (re text : List UInt8) : Bool :=
  if re.head?=some hat then matchhere re.tail text else matchFrom re text

inductive Item where
  | char (c : UInt8)
  | star (c : UInt8)
deriving DecidableEq, Repr

/-- A pattern: whether it starts with `^`, its items, and whether it ends with `$`. -/
structure Pattern where
  atStart : Bool
  items : List Item
  atEnd : Bool
deriving DecidableEq, Repr

/-- The items, and whether an end anchor follows them. -/
def parseItems : List UInt8 → List Item × Bool
  | [] => ([], false)
  | [c] => if c=dollar then ([], true) else ([.char c], false)
  | c :: d :: re =>
    if d=star then (.star c :: (parseItems re).1, (parseItems re).2)
    else (.char c :: (parseItems (d :: re)).1, (parseItems (d :: re)).2)

def parsePattern (re : List UInt8) : Pattern :=
  if re.head?=some hat then ⟨true,(parseItems re.tail).1,(parseItems re.tail).2⟩
  else ⟨false,(parseItems re).1,(parseItems re).2⟩

/-- `.` stands for any character. -/
def Accepts (c t : UInt8) : Prop := c=dot ∨ c=t

def Item.Lang : Item → List UInt8 → Prop
  | .char c, w => ∃ t, w=[t] ∧ Accepts c t
  | .star c, w => ∀ t∈w, Accepts c t

def Lang : List Item → List UInt8 → Prop
  | [], w => w=[]
  | item :: items, w => ∃ u v, w=u++v ∧ item.Lang u ∧ Lang items v

/-- Some part of the text is in the language, from the start and to the end where the pattern is
anchored. -/
def Pattern.Matches (p : Pattern) (text : List UInt8) : Prop :=
  ∃ u w v, text=u++w++v ∧ (p.atStart=true → u=[]) ∧ (p.atEnd=true → v=[]) ∧
    Lang p.items w

def Starts (items : List Item × Bool) (text : List UInt8) : Prop :=
  ∃ w v, text=w++v ∧ (items.2=true → v=[]) ∧ Lang items.1 w

theorem starts_nil : Starts ([], false) text := ⟨[],text,rfl,nofun,rfl⟩

theorem starts_end : Starts ([], true) text ↔ text=[] := by
  constructor
  · rintro ⟨w,v,rfl,hv,rfl⟩
    exact hv rfl
  · rintro rfl
    exact ⟨[],[],rfl,fun _ => rfl,rfl⟩

theorem starts_char {items : List Item} {e : Bool} : Starts (.char c :: items, e) text ↔
    ∃ t rest, text=t::rest ∧ Accepts c t ∧ Starts (items, e) rest := by
  constructor
  · rintro ⟨w,v,rfl,hv,u,u',rfl,⟨t,rfl,ht⟩,hlang⟩
    exact ⟨t,u'++v,rfl,ht,u',v,rfl,hv,hlang⟩
  · rintro ⟨t,rest,rfl,ht,w,v,rfl,hv,hlang⟩
    exact ⟨t::w,v,rfl,hv,[t],w,rfl,⟨t,rfl,ht⟩,hlang⟩

theorem starts_star {items : List Item} {e : Bool} : Starts (.star c :: items, e) text ↔
    ∃ u rest, text=u++rest ∧ (∀ t∈u, Accepts c t) ∧ Starts (items, e) rest := by
  constructor
  · rintro ⟨w,v,rfl,hv,u,u',rfl,hu,hlang⟩
    exact ⟨u,u'++v,List.append_assoc ..,hu,u',v,rfl,hv,hlang⟩
  · rintro ⟨u,rest,rfl,hu,w,v,rfl,hv,hlang⟩
    exact ⟨u++w,v,(List.append_assoc ..).symm,hv,u,w,rfl,hu,hlang⟩

theorem matchstar_iff {P : List UInt8 → Prop} (hre : ∀ text, matchhere re text=true ↔ P text) :
    matchstar c re text=true ↔ ∃ u rest, text=u++rest ∧ (∀ t∈u, Accepts c t) ∧ P rest := by
  have hstop : ∀ {text}, P text → ∃ u rest, text=u++rest ∧ (∀ t∈u, Accepts c t) ∧ P rest :=
    fun {text} hP => ⟨[],text,rfl,nofun,hP⟩
  induction text with
  | nil =>
    rw [matchstar]
    constructor
    · intro h
      exact hstop ((hre []).mp (by simpa using h))
    · rintro ⟨u,rest,hnil,-,hP⟩
      obtain ⟨rfl,rfl⟩ := List.append_eq_nil_iff.mp hnil.symm
      rw [if_pos ((hre []).mpr hP)]
  | cons t text ih =>
    rw [matchstar]
    by_cases hm : matchhere re (t::text)=true
    · rw [if_pos hm]
      exact ⟨fun _ => hstop ((hre _).mp hm),fun _ => rfl⟩
    · rw [if_neg hm]
      have hfirst : (∃ u rest, t::text=u++rest ∧ (∀ x∈u, Accepts c x) ∧ P rest) ↔
          Accepts c t ∧ ∃ u rest, text=u++rest ∧ (∀ x∈u, Accepts c x) ∧ P rest := by
        constructor
        · rintro ⟨_ | ⟨x,u⟩,rest,heq,hu,hP⟩
          · exact absurd ((hre _).mpr (heq ▸ hP)) hm
          · obtain ⟨rfl,rfl⟩ := List.cons.inj heq
            obtain ⟨hx,hu⟩ := List.forall_mem_cons.mp hu
            exact ⟨hx,u,rest,rfl,hu,hP⟩
        · rintro ⟨ht,u,rest,rfl,hu,hP⟩
          exact ⟨t::u,rest,rfl,List.forall_mem_cons.mpr ⟨ht,hu⟩,hP⟩
      have haccepts : (t=c ∨ c=dot) ↔ Accepts c t := or_comm.trans (or_congr_right eq_comm)
      rw [hfirst]
      refine Iff.trans ?_ (and_congr haccepts ih)
      simp

theorem matchhere_cons (c : UInt8) (re text : List UInt8) : matchhere (c::re) text =
    if re.head?=some star then matchstar c re.tail text
    else if c=dollar ∧ re=[] then decide (text=[])
    else match text with
      | [] => false
      | t::text => if c=dot ∨ c=t then matchhere re text else false := by
  rw [matchhere.eq_def]

theorem matchhere_char {P : List UInt8 → Prop} (hstar : re.head?≠some star)
    (hend : ¬(c=dollar ∧ re=[])) (hre : ∀ text, matchhere re text=true ↔ P text) :
    matchhere (c::re) text=true ↔ ∃ t rest, text=t::rest ∧ Accepts c t ∧ P rest := by
  rw [matchhere_cons,if_neg hstar,if_neg hend]
  cases text with
  | nil => simp
  | cons t text =>
    simp only [List.cons.injEq,← hre]
    constructor
    · intro h
      by_cases hc : c=dot ∨ c=t
      · exact ⟨t,text,⟨rfl,rfl⟩,hc,by simpa [hc] using h⟩
      · simp [hc] at h
    · rintro ⟨_,_,⟨rfl,rfl⟩,hc,h⟩
      exact (if_pos hc).trans h

theorem matchhere_iff : matchhere re text=true ↔ Starts (parseItems re) text := by
  fun_induction parseItems re generalizing text with
  | case1 =>
    rw [matchhere.eq_def]
    exact ⟨fun _ => starts_nil,fun _ => rfl⟩
  | case2 =>
    rw [matchhere_cons,starts_end]
    simp
  | case3 c hc =>
    have hnil : ∀ text, matchhere [] text=true ↔ Starts ([], false) text := by
      intro text
      rw [matchhere.eq_def]
      exact ⟨fun _ => starts_nil,fun _ => rfl⟩
    exact (matchhere_char (by simp) (fun h => hc h.1) hnil).trans starts_char.symm
  | case4 c re ih =>
    rw [matchhere_cons,if_pos (by simp),starts_star]
    exact matchstar_iff fun _ => ih
  | case5 c d re hd ih =>
    have hrest : ∀ text, matchhere (d::re) text=true ↔ Starts (parseItems (d::re)) text :=
      fun _ => ih
    exact (matchhere_char (by simpa using hd) (by simp) hrest).trans starts_char.symm

theorem matchFrom_iff : matchFrom re text=true ↔
    ∃ u rest, text=u++rest ∧ Starts (parseItems re) rest := by
  induction text with
  | nil =>
    rw [matchFrom,matchhere_iff]
    constructor
    · exact fun h => ⟨[],[],rfl,h⟩
    · rintro ⟨u,rest,hnil,h⟩
      obtain ⟨rfl,rfl⟩ := List.append_eq_nil_iff.mp hnil.symm
      exact h
  | cons t text ih =>
    rw [matchFrom]
    constructor
    · intro h
      by_cases hm : matchhere re (t::text)=true
      · exact ⟨[],t::text,rfl,matchhere_iff.mp hm⟩
      · rw [if_neg hm,ih] at h
        obtain ⟨u,rest,rfl,h⟩ := h
        exact ⟨t::u,rest,rfl,h⟩
    · rintro ⟨_ | ⟨x,u⟩,rest,heq,h⟩
      · rw [if_pos (matchhere_iff.mpr (heq ▸ h))]
      · obtain ⟨rfl,rfl⟩ := List.cons.inj heq
        rw [ih.mpr ⟨u,rest,rfl,h⟩,ite_self]

/-- **The matcher implements the pattern language.** For every pattern and every text, `match` says
whether some part of the text is in the language of the pattern, starting and ending where
the pattern is anchored. -/
theorem match_iff_matches (re text : List UInt8) :
    match_ re text=true ↔ (parsePattern re).Matches text := by
  unfold match_ parsePattern
  split
  · rw [matchhere_iff]
    constructor
    · rintro ⟨w,v,rfl,hv,hlang⟩
      exact ⟨[],w,v,rfl,fun _ => rfl,hv,hlang⟩
    · rintro ⟨u,w,v,rfl,hu,hv,hlang⟩
      obtain rfl := hu rfl
      exact ⟨w,v,rfl,hv,hlang⟩
  · rw [matchFrom_iff]
    constructor
    · rintro ⟨u,rest,rfl,w,v,rfl,hv,hlang⟩
      exact ⟨u,w,v,(List.append_assoc ..).symm,nofun,hv,hlang⟩
    · rintro ⟨u,w,v,rfl,-,hv,hlang⟩
      exact ⟨u,w++v,List.append_assoc ..,w,v,rfl,hv,hlang⟩
end Xv6.Grep
