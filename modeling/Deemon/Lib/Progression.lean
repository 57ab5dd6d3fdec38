import Mathlib.Data.List.Basic
import Mathlib.Tactic.Ring
import Mathlib.Tactic.Linarith

/-!
# Progressions

The numbers from a start in steps up to, or down to, a stop that is not reached. A part of a progression is a
progression again, with the step from the same stop or from one that is earlier by whole steps.
-/

namespace Deemon.Progression

variable {start stop step x y : ℤ} {i n : ℕ}

/-- A number that does not reach the stop. -/
def Before (stop step x : ℤ) : Prop := if 0 ≤ step then x < stop else stop < x

instance : Decidable (Before stop step x) := inferInstanceAs (Decidable (if 0 ≤ step then x < stop else stop < x))

/-- How many numbers there are. -/
def count (start stop step : ℤ) : ℕ :=
  if 0 ≤ step then ((stop - start + step - 1) / step).toNat else ((start - stop - step - 1) / -step).toNat

/-- The numbers. -/
def items (start stop step : ℤ) : List ℤ := (List.range (count start stop step)).map fun i : ℕ => start + i * step

theorem before_of_pos (h : 0 < step) : Before stop step x ↔ x < stop := by rw [Before, if_pos h.le]

theorem before_of_neg (h : step < 0) : Before stop step x ↔ stop < x := by rw [Before, if_neg (by omega)]

theorem before_congr {stop' : ℤ} (h : stop - x = stop' - y) : Before stop step x ↔ Before stop' step y := by
  unfold Before
  split_ifs <;> omega

/-- The numbers that are counted are those before the stop. -/
theorem lt_count_iff (hstep : step ≠ 0) : i < count start stop step ↔ Before stop step (start + i * step) := by
  rcases lt_or_gt_of_ne hstep with hneg | hpos
  · have hpos : 0 < -step := by omega
    have hle := Int.le_ediv_iff_mul_le (a := (i : ℤ) + 1) (b := start - stop - step - 1) hpos
    have hmul : ((i : ℤ) + 1) * -step = -(i * step) - step := by ring
    rw [hmul] at hle
    rw [before_of_neg hneg, count, if_neg (by omega)]
    omega
  · have hle := Int.le_ediv_iff_mul_le (a := (i : ℤ) + 1) (b := stop - start + step - 1) hpos
    have hmul : ((i : ℤ) + 1) * step = i * step + step := by ring
    rw [hmul] at hle
    rw [before_of_pos hpos, count, if_pos hpos.le]
    omega

/-- A count is known from the numbers before the stop. -/
theorem count_eq_of (hstep : step ≠ 0) (h : ∀ i : ℕ, Before stop step (start + i * step) ↔ i < n) :
    count start stop step = n := by
  apply le_antisymm
  · by_contra hlt
    exact absurd ((h n).mp ((lt_count_iff hstep).mp (by omega))) (lt_irrefl n)
  · by_contra hlt
    exact absurd ((lt_count_iff hstep).mpr ((h _).mpr (not_le.mp hlt))) (lt_irrefl _)

theorem count_pos_iff (hstep : step ≠ 0) : 0 < count start stop step ↔ Before stop step start := by
  have h := @lt_count_iff start stop step 0 hstep
  rwa [Nat.cast_zero, zero_mul, add_zero] at h

theorem count_succ (hstep : step ≠ 0) (h : Before stop step start) :
    count start stop step = count (start + step) stop step + 1 := by
  refine count_eq_of hstep fun i => ?_
  cases i with
  | zero => simpa using h
  | succ i =>
    have hnext : start + ((i + 1 : ℕ) : ℤ) * step = start + step + i * step := by
      push_cast
      ring
    rw [hnext, ← lt_count_iff hstep, Nat.succ_lt_succ_iff]

theorem count_le (hstep : step ≠ 0) : count start stop step ≤ (stop - start).natAbs := by
  by_contra hlt
  have hbefore := (lt_count_iff hstep).mp (not_le.mp hlt)
  rcases lt_or_gt_of_ne hstep with hneg | hpos
  · have hmul := Int.mul_le_mul_of_nonneg_left (show step ≤ -1 by omega) (Int.natCast_nonneg (stop - start).natAbs)
    rw [before_of_neg hneg] at hbefore
    omega
  · have hmul := Int.mul_le_mul_of_nonneg_left (show 1 ≤ step by omega) (Int.natCast_nonneg (stop - start).natAbs)
    rw [before_of_pos hpos] at hbefore
    omega

/-- There are `n` numbers before the one after `n` steps. -/
theorem count_steps (hstep : step ≠ 0) : count start (start + n * step) step = n := by
  refine count_eq_of hstep fun i => ?_
  rcases lt_or_gt_of_ne hstep with hneg | hpos
  · rw [before_of_neg hneg, add_lt_add_iff_left, mul_lt_mul_right_of_neg hneg, Nat.cast_lt]
  · rw [before_of_pos hpos, add_lt_add_iff_left, mul_lt_mul_iff_left₀ hpos, Nat.cast_lt]

@[simp] theorem length_items : (items start stop step).length = count start stop step := by
  rw [items, List.length_map, List.length_range]

theorem getElem?_items (hi : i < count start stop step) : (items start stop step)[i]? = some (start + i * step) := by
  rw [items, List.getElem?_map, List.getElem?_range hi, Option.map_some]

theorem items_eq_cons (hstep : step ≠ 0) (h : Before stop step start) :
    items start stop step = start :: items (start + step) stop step := by
  rw [items, count_succ hstep h, List.range_succ_eq_map, List.map_cons, List.map_map, Nat.cast_zero, zero_mul, add_zero,
    items]
  congr 1
  refine List.map_congr_left fun i _ => ?_
  rw [Function.comp_apply, Nat.succ_eq_add_one]
  push_cast
  ring

theorem items_eq_nil (hstep : step ≠ 0) (h : ¬ Before stop step start) : items start stop step = [] := by
  apply List.eq_nil_of_length_eq_zero
  rw [length_items]
  exact Nat.eq_zero_of_not_pos fun hpos => h ((count_pos_iff hstep).mp hpos)

theorem mem_items_iff (hstep : step ≠ 0) :
    x ∈ items start stop step ↔ ∃ i : ℕ, x = start + i * step ∧ Before stop step x := by
  rw [items, List.mem_map]
  constructor
  · rintro ⟨i, hi, rfl⟩
    exact ⟨i, rfl, (lt_count_iff hstep).mp (List.mem_range.mp hi)⟩
  · rintro ⟨i, rfl, h⟩
    exact ⟨i, List.mem_range.mpr ((lt_count_iff hstep).mpr h), rfl⟩

/-- The numbers of a progression that goes up. -/
theorem mem_items_of_pos (hstep : 0 < step) :
    x ∈ items start stop step ↔ start ≤ x ∧ x < stop ∧ (x - start) % step = 0 := by
  rw [mem_items_iff hstep.ne']
  constructor
  · rintro ⟨i, rfl, h⟩
    have hpos : 0 ≤ (i : ℤ) * step := Int.mul_nonneg (Int.natCast_nonneg i) hstep.le
    refine ⟨by omega, (before_of_pos hstep).mp h, ?_⟩
    rw [add_sub_cancel_left]
    exact Int.mul_emod_left _ _
  · rintro ⟨hle, hlt, hmod⟩
    obtain ⟨k, hk⟩ := Int.dvd_of_emod_eq_zero hmod
    have hnonneg : 0 ≤ k := by
      by_contra hneg
      have : step * k ≤ step * -1 := Int.mul_le_mul_of_nonneg_left (by omega) hstep.le
      omega
    obtain ⟨i, rfl⟩ := Int.eq_ofNat_of_zero_le hnonneg
    exact ⟨i, by rw [mul_comm]; omega, (before_of_pos hstep).mpr hlt⟩

/-- The numbers of a progression that goes down. -/
theorem mem_items_of_neg (hstep : step < 0) :
    x ∈ items start stop step ↔ x ≤ start ∧ stop < x ∧ (start - x) % -step = 0 := by
  rw [mem_items_iff hstep.ne]
  constructor
  · rintro ⟨i, rfl, h⟩
    have hpos : 0 ≤ (i : ℤ) * -step := Int.mul_nonneg (Int.natCast_nonneg i) (by omega)
    have hmul : (i : ℤ) * -step = -(i * step) := by ring
    refine ⟨by omega, (before_of_neg hstep).mp h, ?_⟩
    rw [show start - (start + i * step) = (i : ℤ) * -step by ring]
    exact Int.mul_emod_left _ _
  · rintro ⟨hle, hlt, hmod⟩
    obtain ⟨k, hk⟩ := Int.dvd_of_emod_eq_zero hmod
    have hnonneg : 0 ≤ k := by
      by_contra hneg
      have : -step * k ≤ -step * -1 := Int.mul_le_mul_of_nonneg_left (by omega) (by omega)
      omega
    obtain ⟨i, rfl⟩ := Int.eq_ofNat_of_zero_le hnonneg
    have hmul : (i : ℤ) * step = -(-step * i) := by ring
    exact ⟨i, by omega, (before_of_neg hstep).mpr hlt⟩

/-- The numbers from position `first` to position `last`. -/
theorem items_slice (hstep : step ≠ 0) {first last : ℕ} (hlast : last ≤ count start stop step) :
    items (start + first * step) (stop - ((count start stop step - last : ℕ) : ℤ) * step) step =
      ((items start stop step).take last).drop first := by
  have hcount : count (start + first * step) (stop - ((count start stop step - last : ℕ) : ℤ) * step) step = last - first := by
    refine count_eq_of hstep fun i => ?_
    have hshift : Before (stop - ((count start stop step - last : ℕ) : ℤ) * step) step (start + first * step + i * step) ↔
        Before stop step (start + ((first + i + (count start stop step - last) : ℕ) : ℤ) * step) := by
      refine before_congr ?_
      push_cast
      ring
    rw [hshift, ← lt_count_iff hstep]
    omega
  refine List.ext_getElem? fun i => ?_
  rw [List.getElem?_drop]
  by_cases hi : i < last - first
  · rw [getElem?_items (by rwa [hcount]), List.getElem?_take_of_lt (by omega), getElem?_items (by omega)]
    congr 1
    push_cast
    ring
  · rw [List.getElem?_eq_none (by rw [length_items, hcount]; omega),
      List.getElem?_eq_none (by rw [List.length_take]; omega)]

end Deemon.Progression
