import Deemon.Lib.Run
import Mathlib.Data.List.Forall2

/-!
# Simulation of a reference machine

A machine is a step function from a state and an operation to the next state and a result, where `none` is a step
that must not be taken. A simulation relates the states of a machine to those of a reference machine; it needs to be
proved for one step only (`trace_ends`). The steps that the simulation covers may depend on the state of the reference
(`AllSteps`).
-/

namespace Deemon.Simulation

open Deemon.Run

variable {σ τ ω ρ : Type}

/-- The states and the results after each of the operations. -/
def trace (step : σ → ω → Option (σ × ρ)) : σ → List ω → Option (List (σ × ρ))
  | _, [] => some []
  | s, op :: ops => do
    let r ← step s op
    let rs ← trace step r.1 ops
    some (r :: rs)

/-- Each operation meets `ok` in the state in which it is done. -/
def AllSteps (ok : τ → ω → Prop) (step : τ → ω → Option (τ × ρ)) : τ → List ω → Prop
  | _, [] => True
  | t, op :: ops => ok t op ∧ ∀ r, step t op = some r → AllSteps ok step r.1 ops

instance decidableAllSteps {ok : τ → ω → Prop} [∀ t op, Decidable (ok t op)] (step : τ → ω → Option (τ × ρ)) :
    ∀ t ops, Decidable (AllSteps ok step t ops)
  | _, [] => isTrue trivial
  | t, op :: ops =>
    have hrest : Decidable (∀ r, step t op = some r → AllSteps ok step r.1 ops) :=
      match step t op with
      | none => isTrue (by simp)
      | some r =>
        @decidable_of_iff _ _ ⟨fun h _ hr => Option.some.inj hr ▸ h, fun h => h r rfl⟩ (decidableAllSteps step r.1 ops)
    inferInstanceAs (Decidable (_ ∧ _))

/-- The induction rule: a simulation of one step is a simulation of all runs. -/
theorem trace_ends {step : σ → ω → Option (σ × ρ)} {step' : τ → ω → Option (τ × ρ)} {ok : τ → ω → Prop}
    (R : σ → τ → Prop)
    (hstep : ∀ s t op r', R s t → ok t op → step' t op = some r' → Ends (step s op) fun r => R r.1 r'.1 ∧ r.2 = r'.2)
    {s : σ} {t : τ} {ops : List ω} {rs' : List (τ × ρ)} (h : R s t) (hok : AllSteps ok step' t ops)
    (htrace : trace step' t ops = some rs') :
    Ends (trace step s ops) fun rs => List.Forall₂ (fun r r' => R r.1 r'.1 ∧ r.2 = r'.2) rs rs' := by
  induction ops generalizing s t rs' with
  | nil =>
    obtain rfl : [] = rs' := Option.some.inj htrace
    exact Ends.pure List.Forall₂.nil
  | cons op ops ih =>
    obtain ⟨r', hr', hrest⟩ := of_bind htrace
    obtain ⟨rest', hrest', hrs'⟩ := of_bind hrest
    obtain rfl : r' :: rest' = rs' := Option.some.inj hrs'
    refine Ends.bind (hstep s t op r' h hok.1 hr') fun r hr => ?_
    exact Ends.bind (ih hr.1 (hok.2 r' hr') hrest') fun rest hrs => Ends.pure (List.Forall₂.cons hr hrs)

/-- The induction rule for one machine: what each step preserves holds in all states of a run. -/
theorem trace_invariant {step : σ → ω → Option (σ × ρ)} {ok : σ → ω → Prop} (P : σ → Prop)
    (hstep : ∀ s op, P s → ok s op → Ends (step s op) fun r => P r.1) {s : σ} {ops : List ω} (h : P s)
    (hok : AllSteps ok step s ops) : Ends (trace step s ops) fun rs => ∀ r ∈ rs, P r.1 := by
  induction ops generalizing s with
  | nil => exact Ends.pure (by simp)
  | cons op ops ih =>
    obtain ⟨r, hr, hP⟩ := hstep s op h hok.1
    obtain ⟨rs, hrs, hall⟩ := ih hP (hok.2 r hr)
    refine ⟨r :: rs, ?_, ?_⟩
    · rw [trace, hr, some_bind, hrs]
      rfl
    · intro x hx
      rcases List.mem_cons.mp hx with rfl | hx
      · exact hP
      · exact hall x hx

/-! ### References that are relations -/

/-- The run is one that the relation `spec` allows, with states that `R` relates to those of the reference. -/
def Follows (R : σ → τ → Prop) (spec : τ → ω → τ → ρ → Prop) : τ → List ω → List (σ × ρ) → Prop
  | _, [], rs => rs = []
  | t, op :: ops, rs => ∃ r rest t', rs = r :: rest ∧ spec t op t' r.2 ∧ R r.1 t' ∧ Follows R spec t' ops rest

/-- The induction rule where the reference is a relation. -/
theorem trace_follows {step : σ → ω → Option (σ × ρ)} {spec : τ → ω → τ → ρ → Prop} {ok : σ → ω → Prop}
    (R : σ → τ → Prop)
    (hstep : ∀ s t op, R s t → ok s op → Ends (step s op) fun r => ∃ t', spec t op t' r.2 ∧ R r.1 t')
    {s : σ} {t : τ} {ops : List ω} (h : R s t) (hok : AllSteps ok step s ops) :
    Ends (trace step s ops) (Follows R spec t ops) := by
  induction ops generalizing s t with
  | nil => exact Ends.pure rfl
  | cons op ops ih =>
    obtain ⟨r, hr, t', hspec, hR⟩ := hstep s t op h hok.1
    obtain ⟨rest, hrest, hfollows⟩ := ih hR (hok.2 r hr)
    refine ⟨r :: rest, ?_, r, rest, t', rfl, hspec, hR, hfollows⟩
    rw [trace, hr, some_bind, hrest]
    rfl

/-! ### Heaps of objects

Machines whose state is a list of objects, related one by one. -/

section Heap

variable {α β : Type} {R : α → β → Prop} {l : List α} {l' : List β}

theorem forall₂_getElem? (h : List.Forall₂ R l l') {j : ℕ} {b : β} (hb : l'[j]? = some b) :
    ∃ a, l[j]? = some a ∧ R a b := by
  induction h generalizing j with
  | nil => exact absurd hb (by simp)
  | cons hab _ ih =>
    cases j with
    | zero =>
      obtain rfl := Option.some.inj hb
      exact ⟨_, rfl, hab⟩
    | succ j => exact ih hb

theorem forall₂_set (h : List.Forall₂ R l l') {a : α} {b : β} (hab : R a b) (j : ℕ) :
    List.Forall₂ R (l.set j a) (l'.set j b) := by
  induction h generalizing j with
  | nil => exact List.Forall₂.nil
  | cons hab' hrest ih =>
    cases j with
    | zero => exact List.Forall₂.cons hab hrest
    | succ j => exact List.Forall₂.cons hab' (ih j)

end Heap

end Deemon.Simulation
