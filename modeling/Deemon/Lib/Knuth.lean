import Mathlib.Tactic.Ring
import Mathlib.Tactic.Linarith

/-!
# Trial quotients of long division

Long division in base `B` guesses each quotient digit from the top digits alone: `V`, one digit longer than the
divisor `W`, starts with the digits `vv` (two of them) and `v₂`; `W` starts with `w₁` and `w₂`; the rest of both
lies below `P`. A guess `q` is lowered while `q * (w₁ * B + w₂)` exceeds the top three digits of `V`. The guess
never gets below the quotient (`quot_mul_le`, `quot_lt_of_test`), and when the test lets it pass it is at most one
above it (`le_quot_succ`).
-/

namespace Deemon.Knuth

variable {B P V W vv v₂ vlow w₁ w₂ wlow q : ℕ}

/-- The quotient times the top digit of the divisor does not exceed the top two digits. -/
theorem quot_mul_le (hP : 0 < P) (hB : 0 < B) (hv₂ : v₂ < B) (hV : V = (vv * B + v₂) * P + vlow) (hvlow : vlow < P)
    (hW : W = (w₁ * B + w₂) * P + wlow) : V / W * w₁ ≤ vv := by
  have hmul : V / W * W ≤ V := Nat.div_mul_le_self V W
  generalize V / W = Q at hmul ⊢
  have hle : Q * w₁ * (B * P) ≤ V := by
    calc Q * w₁ * (B * P) = Q * (w₁ * B * P) := by ring
      _ ≤ Q * W := Nat.mul_le_mul_left _ (by rw [hW, Nat.add_mul]; omega)
      _ ≤ V := hmul
  have hlt : V < (vv + 1) * (B * P) := by
    have hv : (v₂ + 1) * P ≤ B * P := Nat.mul_le_mul_right _ hv₂
    rw [hV]
    linarith
  have hBP : 0 < B * P := Nat.mul_pos hB hP
  exact Nat.lt_succ_iff.mp (Nat.lt_of_mul_lt_mul_right (lt_of_le_of_lt hle hlt))

/-- Numbers that agree in size compare by their top two digits. -/
theorem top_le {x y xlow ylow : ℕ} (hylow : ylow < P) (h : x * P + xlow < y * P + ylow) : x ≤ y := by
  have hlt : x * P < (y + 1) * P := by rw [Nat.add_mul]; omega
  exact Nat.lt_succ_iff.mp (Nat.lt_of_mul_lt_mul_right hlt)

/-- The first guess is at most one above the base, when the top digit of the divisor is large. -/
theorem first_guess_le (hw₁ : B ≤ 2 * w₁) (hw₁pos : 0 < w₁) (hw₂ : w₂ < B) (htop : vv ≤ w₁ * B + w₂) :
    vv / w₁ ≤ B + 1 := by
  refine Nat.lt_succ_iff.mp ((Nat.div_lt_iff_lt_mul hw₁pos).mpr ?_)
  linarith

/-- A first guess above the base fails the test. -/
theorem first_guess_test (hw₁pos : 0 < w₁) (hv₂ : v₂ < B) (htop : vv ≤ w₁ * B + w₂) (hbig : B < vv / w₁) :
    vv * B + v₂ < vv / w₁ * (w₁ * B + w₂) := by
  have hdm := Nat.div_add_mod' vv w₁
  generalize vv / w₁ = q at hbig hdm ⊢
  generalize vv % w₁ = r at hdm
  have hq : (B + 1) * w₁ ≤ q * w₁ := Nat.mul_le_mul_right _ hbig
  have hr : r + 1 ≤ w₂ := by linarith
  have hrB : (r + 1) * B ≤ w₂ * q := Nat.mul_le_mul hr hbig.le
  have hsplit : q * (w₁ * B + w₂) = q * w₁ * B + w₂ * q := by ring
  rw [hsplit, ← hdm, Nat.add_mul]
  linarith

/-- A guess that fails the test is above the quotient. -/
theorem quot_lt_of_test (hV : V = (vv * B + v₂) * P + vlow) (hvlow : vlow < P)
    (hW : W = (w₁ * B + w₂) * P + wlow) (hWpos : 0 < W) (htest : vv * B + v₂ < q * (w₁ * B + w₂)) : V / W < q := by
  refine (Nat.div_lt_iff_lt_mul hWpos).mpr ?_
  calc V < (vv * B + v₂ + 1) * P := by rw [hV]; linarith
    _ ≤ q * (w₁ * B + w₂) * P := Nat.mul_le_mul_right _ htest
    _ = q * ((w₁ * B + w₂) * P) := by ring
    _ ≤ q * W := Nat.mul_le_mul_left _ (by omega)

/-- A guess that passes the test is at most one above the quotient. -/
theorem le_quot_succ (hV : V = (vv * B + v₂) * P + vlow) (hW : W = (w₁ * B + w₂) * P + wlow) (hwlow : wlow < P)
    (hqB : q ≤ B) (hWB : B * P ≤ W) (hWpos : 0 < W) (hpass : q * (w₁ * B + w₂) ≤ vv * B + v₂) : q ≤ V / W + 1 := by
  rcases Nat.eq_zero_or_pos q with rfl | hq
  · exact Nat.zero_le _
  have hlt : q * W < V + q * P := by
    calc q * W < q * ((w₁ * B + w₂) * P + P) := Nat.mul_lt_mul_of_pos_left (by omega) hq
      _ = q * (w₁ * B + w₂) * P + q * P := by ring
      _ ≤ (vv * B + v₂) * P + q * P := Nat.add_le_add_right (Nat.mul_le_mul_right _ hpass) _
      _ ≤ V + q * P := by omega
  have hqP : q * P ≤ W := le_trans (Nat.mul_le_mul_right _ hqB) hWB
  obtain ⟨m, rfl⟩ : ∃ m, q = m + 1 := ⟨q - 1, by omega⟩
  have hm : m * W ≤ V := by
    rw [Nat.add_mul] at hlt
    omega
  exact Nat.succ_le_succ ((Nat.le_div_iff_mul_le hWpos).mpr hm)

end Deemon.Knuth
