import Mathlib.Algebra.Order.BigOperators.Group.Finset
import Mathlib.Data.Fintype.BigOperators

/-!
# Interleavings of parties

Finitely many parties run the same program on one shared state. A step of the program is a function of the shared state
and of the party's own place in the program; in a step of the system any of the parties makes one. `Reachable` are the
states after any number of steps. As each place in the program holds so much of a resource, `total` counts it over all
parties; a step of one party changes it by what that party takes or gives back (`total_update`).
-/

namespace Deemon.Parties

variable {ι σ τ ω : Type}

/-- The shared state and the places of the parties. -/
structure World (ι σ τ : Type) where
  shared : σ
  place : ι → τ

section Steps

variable [DecidableEq ι] {step : σ → τ → ω → Option (σ × τ)} {start w : World ι σ τ}

/-- A step of one party; `none` is a step that it cannot make. -/
inductive Steps (step : σ → τ → ω → Option (σ × τ)) (w : World ι σ τ) : World ι σ τ → Prop where
  | party (i : ι) (op : ω) {shared : σ} {place : τ} (h : step w.shared (w.place i) op = some (shared, place)) :
    Steps step w ⟨shared, Function.update w.place i place⟩

/-- The states after any number of steps. -/
inductive Reachable (step : σ → τ → ω → Option (σ × τ)) (start : World ι σ τ) : World ι σ τ → Prop where
  | start : Reachable step start start
  | step {w w' : World ι σ τ} (h : Reachable step start w) (hstep : Steps step w w') : Reachable step start w'

/-- What holds at the start and is kept by every step holds in every state. -/
theorem Reachable.invariant (h : Reachable step start w) (Inv : World ι σ τ → Prop) (hstart : Inv start)
    (hstep : ∀ w w', Inv w → Steps step w w' → Inv w') : Inv w := by
  induction h with
  | start => exact hstart
  | step _ hs ih => exact hstep _ _ ih hs

end Steps

section Total

variable [Fintype ι] {f : τ → ℕ} {place : ι → τ} {p : τ}

/-- What all parties hold together. -/
def total (f : τ → ℕ) (place : ι → τ) : ℕ := ∑ i, f (place i)

theorem le_total (f : τ → ℕ) (place : ι → τ) (i : ι) : f (place i) ≤ total f place :=
  Finset.single_le_sum (f := fun j => f (place j)) (fun _ _ => Nat.zero_le _) (Finset.mem_univ i)

theorem total_eq_zero (h : ∀ i, f (place i) = 0) : total f place = 0 := Finset.sum_eq_zero fun i _ => h i

variable [DecidableEq ι]

theorem total_update (f : τ → ℕ) (place : ι → τ) (i : ι) (p : τ) :
    total f (Function.update place i p) + f (place i) = total f place + f p := by
  have hrest : ∑ j ∈ Finset.univ.erase i, f (Function.update place i p j) = ∑ j ∈ Finset.univ.erase i, f (place j) :=
    Finset.sum_congr rfl fun j hj => by rw [Function.update_of_ne (Finset.ne_of_mem_erase hj)]
  unfold total
  rw [← Finset.add_sum_erase _ _ (Finset.mem_univ i), ← Finset.add_sum_erase _ (fun j => f (place j)) (Finset.mem_univ i),
    hrest, Function.update_self]
  omega

/-- If a step changes `a` by as much as `b` and what the party holds, then `a` remains the sum of `b` and the total. -/
theorem total_balance {a a' b b' : ℕ} {i : ι} (h : a = b + total f place)
    (hstep : a' + b + f (place i) = a + b' + f p) : a' = b' + total f (Function.update place i p) := by
  have hupdate := total_update f place i p
  omega

end Total

end Deemon.Parties
