import Mathlib.Data.Int.Bitwise
import Deemon.Lib.Radix

/-!
# Bits of digit buffers

The bits of a slice in base `2 ^ w` are those of its digits (`testBit_seg`), and a number below `2 ^ n` with a sign
flag is an integer in two's complement whose bits from `n` on are the flag (`twoComp`, `testBit_twoComp`). An integer
is its bits (`testBit_ext`), and shifts move them.
-/

namespace Deemon.Bits

open Deemon.Run Deemon.Radix

/-- The integer that `n` bits `v` and a sign flag stand for. -/
def twoComp (n v : ℕ) (neg : Bool) : ℤ := v - if neg then 2 ^ n else 0

theorem testBit_twoComp {n v : ℕ} {neg : Bool} (hv : v < 2 ^ n) (i : ℕ) :
    (twoComp n v neg).testBit i = if i < n then v.testBit i else neg := by
  unfold twoComp
  cases neg with
  | false =>
    rw [if_neg (by simp), sub_zero]
    split_ifs with hi
    · rfl
    · exact Nat.testBit_eq_false_of_lt (lt_of_lt_of_le hv (Nat.pow_le_pow_right (by norm_num) (by omega)))
  | true =>
    have hneg : (v : ℤ) - 2 ^ n = Int.negSucc (2 ^ n - (v + 1)) := by
      rw [Int.negSucc_eq]
      push_cast [Nat.succ_le_of_lt hv]
      ring
    rw [if_pos rfl, hneg]
    change (!(2 ^ n - (v + 1)).testBit i) = _
    rw [Nat.testBit_two_pow_sub_succ hv]
    split_ifs with hi
    · simp [hi]
    · simp [hi]

/-- The bits of a slice are the bits of its digits. -/
theorem testBit_seg {w s n : ℕ} {l : List ℕ} (h : Below (2 ^ w) l s n) (i : ℕ) :
    (seg (2 ^ w) l s n).testBit i = if i < w * n then (cell l (s + i / w)).testBit (i % w) else false := by
  induction n with
  | zero => simp
  | succ n ih =>
    have hlow : seg (2 ^ w) l s n < 2 ^ (w * n) := by
      rw [pow_mul]
      exact seg_lt (h.mono (by omega))
    rw [seg_succ, Nat.add_comm, Nat.mul_comm, ← pow_mul, Nat.testBit_two_pow_mul_add _ hlow,
      ih (h.mono (by omega))]
    by_cases hi : i < w * n
    · rw [if_pos hi, if_pos hi, if_pos (lt_of_lt_of_le hi (Nat.mul_le_mul_left _ (by omega)))]
    · rw [if_neg hi]
      by_cases hi' : i < w * (n + 1)
      · have hdiv : i / w = n := by
          refine Nat.div_eq_of_lt_le ?_ ?_
          · rw [Nat.mul_comm]
            omega
          · rwa [Nat.mul_comm]
        have hmod : i % w = i - w * n := by
          have := Nat.div_add_mod i w
          rw [hdiv] at this
          omega
        rw [if_pos hi', hdiv, hmod]
      · rw [if_neg hi']
        refine Nat.testBit_eq_false_of_lt (lt_of_lt_of_le (h n (by omega)) (Nat.pow_le_pow_right (by norm_num) ?_))
        rw [Nat.mul_succ] at hi'
        omega

/-! ### Bits of integers -/

/-- Two integers with the same bits are equal. -/
theorem testBit_ext {x y : ℤ} (h : ∀ i, x.testBit i = y.testBit i) : x = y := by
  have hmixed : ∀ a b : ℕ, ¬∀ i, (Int.ofNat a).testBit i = (Int.negSucc b).testBit i := by
    intro a b hab
    have ha : a.testBit (a + b) = false := Nat.testBit_eq_false_of_lt (lt_of_le_of_lt (Nat.le_add_right a b) Nat.lt_two_pow_self)
    have hb : b.testBit (a + b) = false := Nat.testBit_eq_false_of_lt (lt_of_le_of_lt (Nat.le_add_left b a) Nat.lt_two_pow_self)
    have hbit : a.testBit (a + b) = !b.testBit (a + b) := hab (a + b)
    rw [ha, hb] at hbit
    cases hbit
  cases x with
  | ofNat a =>
    cases y with
    | ofNat b => exact congrArg Int.ofNat (Nat.eq_of_testBit_eq h)
    | negSucc b => exact absurd h (hmixed a b)
  | negSucc a =>
    cases y with
    | ofNat b => exact absurd (fun i => (h i).symm) (hmixed b a)
    | negSucc b => exact congrArg Int.negSucc (Nat.eq_of_testBit_eq fun i => Bool.not_inj (h i))

theorem testBit_shr (x : ℤ) (k i : ℕ) : (x >>> k).testBit i = x.testBit (k + i) := by
  cases x with
  | ofNat a => exact Nat.testBit_shiftRight a
  | negSucc a => exact congrArg (! ·) (Nat.testBit_shiftRight a)

theorem testBit_shl (x : ℤ) (k i : ℕ) : (x <<< k).testBit i = (decide (k ≤ i) && x.testBit (i - k)) := by
  cases x with
  | ofNat a => exact Nat.testBit_shiftLeft a
  | negSucc a =>
    have hlow : 2 ^ k - 1 < 2 ^ k := Nat.sub_lt (Nat.two_pow_pos k) Nat.one_pos
    have hneg : Int.negSucc a <<< k = Int.negSucc (2 ^ k * a + (2 ^ k - 1)) := by
      rw [Int.shiftLeft_eq, Int.negSucc_eq, Int.negSucc_eq]
      push_cast [Nat.one_le_two_pow]
      ring
    rw [hneg]
    change (!(2 ^ k * a + (2 ^ k - 1)).testBit i) = (decide (k ≤ i) && !a.testBit (i - k))
    rw [Nat.testBit_two_pow_mul_add _ hlow, Nat.testBit_two_pow_sub_one]
    by_cases hi : i < k
    · rw [if_pos hi, decide_eq_true hi, decide_eq_false (by omega)]
      rfl
    · rw [if_neg hi, decide_eq_true (not_lt.mp hi), Bool.true_and]

/-- The lowest bits of an integer. -/
theorem testBit_land_ones (x : ℤ) (n i : ℕ) : (x.land (2 ^ n - 1)).testBit i = (decide (i < n) && x.testBit i) := by
  have hones : ((2 : ℤ) ^ n - 1).testBit i = decide (i < n) := by
    have hcast : ((2 : ℤ) ^ n - 1) = ((2 ^ n - 1 : ℕ) : ℤ) := by push_cast [Nat.one_le_two_pow]; ring
    rw [hcast]
    exact Nat.testBit_two_pow_sub_one n i
  rw [Int.testBit_land, hones, Bool.and_comm]

theorem testBit_neg_one (i : ℕ) : (-1 : ℤ).testBit i = true := by
  change (!Nat.testBit 0 i) = true
  rw [Nat.zero_testBit, Bool.not_false]

/-- Shifting right brings an integer closer to zero, as long as it is neither 0 nor -1. -/
theorem natAbs_shr_lt {x : ℤ} {k : ℕ} (h0 : x ≠ 0) (h1 : x ≠ -1) (hk : 0 < k) : (x >>> k).natAbs < x.natAbs := by
  obtain ⟨d, rfl⟩ := Nat.exists_eq_succ_of_ne_zero hk.ne'
  rw [Int.shiftRight_eq_div_pow, pow_succ]
  have hpow : 0 < 2 ^ d := Nat.two_pow_pos d
  generalize 2 ^ d = p at hpow
  push_cast
  have hdiv := Int.mul_ediv_add_emod x (p * 2)
  have hlo := Int.emod_nonneg x (show (p * 2 : ℤ) ≠ 0 by omega)
  have hhi := Int.emod_lt_of_pos x (show (0 : ℤ) < p * 2 by omega)
  generalize x / (p * 2 : ℤ) = q at *
  generalize x % (p * 2 : ℤ) = r at *
  have hp : (1 : ℤ) ≤ p := by omega
  rcases lt_or_gt_of_ne h0 with hneg | hpos
  · have hq : x < q := by
      by_contra hge
      have hx : x ≤ -2 := by omega
      have hmul : (p : ℤ) * 2 * q ≤ p * 2 * x := mul_le_mul_of_nonneg_left (not_lt.mp hge) (by omega)
      nlinarith
    have hq' : q < 0 := by
      by_contra hge
      nlinarith
    omega
  · have hq : q < x := by
      by_contra hge
      nlinarith
    have hq' : 0 ≤ q := by
      by_contra hlt
      nlinarith
    omega

theorem natAbs_shr_le (x : ℤ) (k : ℕ) : (x >>> k).natAbs ≤ x.natAbs := by
  rcases Nat.eq_zero_or_pos k with rfl | hk
  · rw [Int.shiftRight_zero]
  · by_cases h0 : x = 0
    · rw [h0, Int.zero_shiftRight]
    · by_cases h1 : x = -1
      · have hones : (-1 : ℤ) >>> k = -1 := testBit_ext fun i => by
          rw [testBit_shr, testBit_neg_one, testBit_neg_one]
        rw [h1, hones]
      · exact (natAbs_shr_lt h0 h1 hk).le

end Deemon.Bits
