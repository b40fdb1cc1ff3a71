import Mathlib.Data.Option.Basic

/-! Runs of a machine whose step is a partial function of a label, and the two
induction rules every invariant of such a machine is derived from. -/
namespace Xv6.Machine
variable {σ ℓ : Type*} {step : σ → ℓ → Option σ}

def run (step : σ → ℓ → Option σ) : List ℓ → σ → Option σ
  | [], s => some s
  | l :: ls, s => (step s l).bind (run step ls)

variable {ls : List ℓ} {s t : σ}

theorem run_cons {l : ℓ} :
    run step (l::ls) s=some t ↔ ∃ u, step s l=some u ∧ run step ls u=some t := by
  simp [run,Option.bind_eq_some_iff]

theorem run_append (u v : List ℓ) (s : σ) :
    run step (u++v) s=(run step u s).bind (run step v) := by
  induction u generalizing s with
  | nil => rfl
  | cons l u ih =>
    simp only [List.cons_append,run]
    cases step s l with
    | none => rfl
    | some t => simpa using ih t

theorem run_append_some {u v : List ℓ} :
    run step (u++v) s=some t ↔ ∃ w, run step u s=some w ∧ run step v w=some t := by
  simp [run_append,Option.bind_eq_some_iff]

/-- Some run leads from one state to the other. -/
def Reaches (step : σ → ℓ → Option σ) (s t : σ) : Prop := ∃ ls, run step ls s=some t

theorem Reaches.refl (s : σ) : Reaches step s s := ⟨[],rfl⟩

theorem Reaches.single {l : ℓ} (h : step s l=some t) : Reaches step s t := ⟨[l],by simp [run,h]⟩

theorem Reaches.trans {u : σ} : Reaches step s t → Reaches step t u → Reaches step s u
  | ⟨ls,hls⟩, ⟨ls',hls'⟩ => ⟨ls++ls',run_append_some.mpr ⟨t,hls,hls'⟩⟩

/-- Every step of the run meets the condition `ok`, which may look at the labels
taken before the step, at the state before it and at its own label. -/
def Along (step : σ → ℓ → Option σ) (ok : List ℓ → σ → ℓ → Prop) :
    List ℓ → σ → List ℓ → Prop
  | _, _, [] => True
  | past, s, l :: ls => ok past s l ∧ ∀ t∈step s l, Along step ok (past++[l]) t ls

instance Along.decidable (ok : List ℓ → σ → ℓ → Prop) [∀ past s l, Decidable (ok past s l)] :
    ∀ past s ls, Decidable (Along step ok past s ls)
  | _, _, [] => inferInstanceAs (Decidable True)
  | past, s, l :: ls =>
      have := fun t => Along.decidable ok (past++[l]) t ls
      inferInstanceAs (Decidable (ok past s l ∧ ∀ t∈step s l, Along step ok (past++[l]) t ls))

variable {past : List ℓ} {ok : List ℓ → σ → ℓ → Prop}

theorem along_append {u v : List ℓ} :
    Along step ok past s (u++v) ↔
      Along step ok past s u ∧ ∀ t, run step u s=some t → Along step ok (past++u) t v := by
  induction u generalizing past s with
  | nil => simp [Along,run]
  | cons l u ih =>
    cases hs : step s l with
    | none => simp [Along,run,hs]
    | some w => simp [Along,run,hs,ih,and_assoc]

variable {I : List ℓ → σ → Prop}

/-- Induction along a run: a property of the labels taken so far and of the
state they lead to, kept by every step that meets the condition. -/
theorem run_induction
    (hstep : ∀ past u l t, I past u → ok past u l → step u l=some t → I (past++[l]) t)
    (h0 : I past s) (hok : Along step ok past s ls)
    (hrun : run step ls s=some t) : I (past++ls) t := by
  induction ls generalizing past s with
  | nil =>
    cases hrun
    simpa using h0
  | cons l ls ih =>
    obtain ⟨u,hu,hls⟩ := run_cons.mp hrun
    simpa using ih (hstep past s l u h0 hok.1 hu) (hok.2 u hu) hls

theorem Along.of_forall (h : ∀ past u l, ok past u l)
    (past : List ℓ) (s : σ) (ls : List ℓ) : Along step ok past s ls := by
  induction ls generalizing past s with
  | nil => trivial
  | cons l ls ih => exact ⟨h _ _ _, fun t _ => ih _ t⟩

theorem Along.of_mem {P : ℓ → Prop} (h : ∀ l∈ls, P l) (past : List ℓ) (s : σ) :
    Along step (fun _ _ l => P l) past s ls := by
  induction ls generalizing past s with
  | nil => trivial
  | cons l ls ih => exact ⟨h l (by simp),fun t _ => ih (fun m hm => h m (by simp [hm])) _ t⟩

/-- The rule for a property of the labels and the state kept by every step. -/
theorem run_history
    (hstep : ∀ past u l t, I past u → step u l=some t → I (past++[l]) t) (h0 : I [] s)
    (hrun : run step ls s=some t) : I ls t := by
  have hall : Along step (fun _ _ _ => True) [] s ls := .of_forall (fun _ _ _ => trivial) _ _ _
  simpa using run_induction (fun past u l t h _ => hstep past u l t h) h0 hall hrun

/-- The rule for an invariant of the state alone, kept by every step. -/
theorem run_invariant {I : σ → Prop}
    (hstep : ∀ u l t, I u → step u l=some t → I t) (h0 : I s)
    (hrun : run step ls s=some t) : I t :=
  run_history (I := fun _ => I) (fun _ u l t => hstep u l t) h0 hrun

/-- A relation between the states of two machines that every step of the first keeps, with a
step of the second. -/
theorem run_simulation {τ : Type*} {step' : τ → ℓ → Option τ} {R : σ → τ → Prop}
    (hstep : ∀ u v l u', R u v → step u l=some u' → ∃ v', step' v l=some v' ∧ R u' v')
    {s' : τ} (h0 : R s s') (hrun : run step ls s=some t) :
    ∃ t', run step' ls s'=some t' ∧ R t t' := by
  induction ls generalizing s s' with
  | nil =>
    cases hrun
    exact ⟨s',rfl,h0⟩
  | cons l ls ih =>
    obtain ⟨u,hu,hls⟩ := run_cons.mp hrun
    obtain ⟨u',hu',hR⟩ := hstep s s' l u h0 hu
    obtain ⟨t',ht',hR'⟩ := ih hR hls
    exact ⟨t',run_cons.mpr ⟨u',hu',ht'⟩,hR'⟩

/-- A property of states that a step keeps exactly if it meets the condition `ok`
holds all along a run exactly if every step of the run meets it. -/
theorem forall_prefix_iff_along {good : List ℓ → σ → ℓ → Prop} {Q : σ → Prop}
    (hstep : ∀ past u l t, I past u → good past u l → step u l=some t → I (past++[l]) t)
    (hiff : ∀ past u l t, I past u → good past u l → Q u → step u l=some t → (Q t ↔ ok past u l))
    (h0 : I past s) (hq : Q s) (hgood : Along step good past s ls) (hrun : run step ls s=some t) :
    (∀ u x, u <+: ls → run step u s=some x → Q x) ↔ Along step ok past s ls := by
  induction ls generalizing past s with
  | nil =>
    refine ⟨fun _ => trivial,fun _ u x hu hx => ?_⟩
    obtain rfl := List.prefix_nil.mp hu
    cases hx
    exact hq
  | cons l ls ih =>
    obtain ⟨v,hv,hls⟩ := run_cons.mp hrun
    have hlater := fun hq => ih (hstep past s l v h0 hgood.1 hv) hq (hgood.2 v hv) hls
    have hhead := hiff past s l v h0 hgood.1 hq hv
    constructor
    · intro h
      have hqv : Q v := h [l] v (by simp) (by simp [run,hv])
      refine ⟨hhead.mp hqv,fun w hw => ?_⟩
      obtain rfl : v=w := Option.some.inj (hv.symm.trans hw)
      refine (hlater hqv).mp fun u x hu hx => h (l::u) x ?_ (run_cons.mpr ⟨v,hv,hx⟩)
      exact List.cons_prefix_cons.mpr ⟨rfl,hu⟩
    · intro h u x hu hx
      have hqv := hhead.mpr h.1
      cases u with
      | nil =>
        cases hx
        exact hq
      | cons a u =>
        obtain ⟨rfl,htail⟩ := List.cons_prefix_cons.mp hu
        obtain ⟨w,hw,hx⟩ := run_cons.mp hx
        obtain rfl : v=w := Option.some.inj (hv.symm.trans hw)
        exact (hlater hqv).mpr (h.2 v hv) u x htail hx

end Xv6.Machine
