import Mathlib

/-!
# Periods of a time line

A strictly monotone `start : ℤ → ℤ` cuts the integers into half-open periods, the `n`-th one being
`start n ≤ t < start (n + 1)`. A point lies in one period at most, and counting in a finer unit keeps its period
(`InPeriod.scale`).
-/

namespace Deemon.Periods

/-- The point `t` lies in the `n`-th of the periods that begin at `start`. -/
def InPeriod (start : ℤ → ℤ) (n t : ℤ) : Prop := start n ≤ t ∧ t < start (n + 1)

instance {start : ℤ → ℤ} {n t : ℤ} : Decidable (InPeriod start n t) := inferInstanceAs (Decidable (_ ∧ _))

variable {start : ℤ → ℤ} {n m t : ℤ}

/-- The period of a point is unique. -/
theorem InPeriod.unique (hmono : StrictMono start) (hn : InPeriod start n t) (hm : InPeriod start m t) : n = m := by
  have hnm : n < m + 1 := hmono.lt_iff_lt.mp (lt_of_le_of_lt hn.1 hm.2)
  have hmn : m < n + 1 := hmono.lt_iff_lt.mp (lt_of_le_of_lt hm.1 hn.2)
  omega

theorem InPeriod.iff_eq (hmono : StrictMono start) (hn : InPeriod start n t) : InPeriod start m t ↔ m = n := by
  constructor
  · intro hm
    exact hm.unique hmono hn
  · rintro rfl
    exact hn

theorem inPeriod_self (hmono : StrictMono start) : InPeriod start n (start n) :=
  ⟨le_rfl, hmono (lt_add_one n)⟩

/-- Counting in a unit `k` times finer keeps the period. -/
theorem InPeriod.scale {k : ℤ} (hk : 0 < k) : InPeriod (fun n => start n * k) n t ↔ InPeriod start n (t / k) := by
  unfold InPeriod
  rw [Int.le_ediv_iff_mul_le hk, Int.ediv_lt_iff_lt_mul hk]

end Deemon.Periods
