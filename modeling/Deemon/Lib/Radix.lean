import Deemon.Lib.Run

/-!
# The value of a slice of a digit buffer

`seg B l s n` is the number written in base `B` by the `n` cells of `l` from cell `s` on, least significant
first. The lemmas split a slice (`seg_add`), rewrite it after a write (`seg_set_out`, `seg_set_last`), bound
it (`seg_lt`, `le_seg`) and show that its digits are determined by its value (`seg_inj`).
-/

namespace Deemon.Radix

open Deemon.Run

variable {B : ℕ} {l l' : List ℕ} {s n : ℕ}

/-- The value of the cells `s, …, s + n - 1` in base `B`. -/
def seg (B : ℕ) (l : List ℕ) (s : ℕ) : ℕ → ℕ
  | 0 => 0
  | n + 1 => seg B l s n + cell l (s + n) * B ^ n

/-- The cells `s, …, s + n - 1` are digits of base `B`. -/
def Below (B : ℕ) (l : List ℕ) (s n : ℕ) : Prop := ∀ i < n, cell l (s + i) < B

@[simp] theorem seg_zero : seg B l s 0 = 0 := rfl

theorem seg_succ : seg B l s (n + 1) = seg B l s n + cell l (s + n) * B ^ n := rfl

@[simp] theorem seg_one : seg B l s 1 = cell l s := by simp [seg]

theorem seg_congr (h : ∀ i < n, cell l (s + i) = cell l' (s + i)) : seg B l s n = seg B l' s n := by
  induction n with
  | zero => rfl
  | succ n ih => rw [seg_succ, seg_succ, ih fun i hi => h i (by omega), h n (by omega)]

/-- Two slices of equal content at different places. -/
theorem seg_shift {t : ℕ} (h : ∀ i < n, cell l (s + i) = cell l' (t + i)) : seg B l s n = seg B l' t n := by
  induction n with
  | zero => rfl
  | succ n ih => rw [seg_succ, seg_succ, ih fun i hi => h i (by omega), h n (by omega)]

theorem seg_add {m : ℕ} : seg B l s (m + n) = seg B l s m + B ^ m * seg B l (s + m) n := by
  induction n with
  | zero => simp
  | succ n ih =>
    rw [← Nat.add_assoc, seg_succ, seg_succ, ih, Nat.add_assoc s m n]
    ring

theorem seg_succ_front : seg B l s (n + 1) = cell l s + B * seg B l (s + 1) n := by
  rw [Nat.add_comm n 1, seg_add, seg_one, pow_one]

theorem seg_eq_zero (h : ∀ i < n, cell l (s + i) = 0) : seg B l s n = 0 := by
  induction n with
  | zero => rfl
  | succ n ih => rw [seg_succ, ih fun i hi => h i (by omega), h n (by omega), Nat.zero_mul]

theorem Below.mono {m : ℕ} (h : Below B l s n) (hm : m ≤ n) : Below B l s m :=
  fun i hi => h i (by omega)

theorem Below.suffix {m : ℕ} (h : Below B l s (m + n)) : Below B l (s + m) n := fun i hi => by
  rw [Nat.add_assoc]
  exact h (m + i) (by omega)

theorem Below.succ (h : Below B l s n) (hn : cell l (s + n) < B) : Below B l s (n + 1) := fun i hi => by
  rcases Nat.lt_succ_iff_lt_or_eq.mp hi with hi | rfl
  · exact h i hi
  · exact hn

theorem seg_lt (h : Below B l s n) : seg B l s n < B ^ n := by
  induction n with
  | zero => simp
  | succ n ih =>
    have hseg := ih (h.mono (by omega))
    have htop : (cell l (s + n) + 1) * B ^ n ≤ B * B ^ n := Nat.mul_le_mul_right _ (h n (by omega))
    rw [seg_succ, pow_succ]
    nlinarith

theorem cell_mul_le_seg {i : ℕ} (hi : i < n) : cell l (s + i) * B ^ i ≤ seg B l s n := by
  induction n with
  | zero => omega
  | succ n ih =>
    rw [seg_succ]
    rcases Nat.lt_succ_iff_lt_or_eq.mp hi with hi | rfl
    · exact le_trans (ih hi) (Nat.le_add_right _ _)
    · exact Nat.le_add_left _ _

/-- A non-zero top digit bounds the value from below. -/
theorem le_seg (h : cell l (s + n) ≠ 0) : B ^ n ≤ seg B l s (n + 1) := by
  have htop : 1 * B ^ n ≤ cell l (s + n) * B ^ n := Nat.mul_le_mul_right _ (Nat.one_le_iff_ne_zero.mpr h)
  rw [seg_succ]
  omega

theorem seg_lt_pow_of_le {m : ℕ} (hB : 0 < B) (h : Below B l s n) (hm : n ≤ m) : seg B l s n < B ^ m :=
  lt_of_lt_of_le (seg_lt h) (Nat.pow_le_pow_right hB hm)

/-! ### Writes -/

theorem seg_set_out {i v : ℕ} (h : i < s ∨ s + n ≤ i) : seg B (l.set i v) s n = seg B l s n :=
  seg_congr fun j hj => cell_set_of_ne (by omega)

theorem seg_set_last {v : ℕ} (h : s + n < l.length) :
    seg B (l.set (s + n) v) s (n + 1) = seg B l s n + v * B ^ n := by
  rw [seg_succ, seg_set_out (Or.inr le_rfl), cell_set_self h]

/-- A write inside a slice exchanges one summand. -/
theorem seg_set_in {i v : ℕ} (hi : i < n) (h : s + i < l.length) :
    seg B (l.set (s + i) v) s n + cell l (s + i) * B ^ i = seg B l s n + v * B ^ i := by
  obtain ⟨k, rfl⟩ : ∃ k, n = i + 1 + k := ⟨n - (i + 1), by omega⟩
  have hout : seg B (l.set (s + i) v) (s + (i + 1)) k = seg B l (s + (i + 1)) k := seg_set_out (by omega)
  rw [seg_add (m := i + 1), seg_add (m := i + 1), seg_set_last h, hout, seg_succ]
  ring

/-- A slice inside a longer one is exchanged. -/
theorem seg_splice {N : ℕ} (h : SameOut l l' s n) (hN : s + n ≤ N) :
    seg B l' 0 N + B ^ s * seg B l s n = seg B l 0 N + B ^ s * seg B l' s n := by
  obtain ⟨k, rfl⟩ : ∃ k, N = s + (n + k) := ⟨N - (s + n), by omega⟩
  have hlow : seg B l' 0 s = seg B l 0 s := seg_congr fun i hi => h.out _ (by omega)
  have hhigh : seg B l' (0 + s + n) k = seg B l (0 + s + n) k := seg_congr fun i hi => h.out _ (by omega)
  rw [seg_add, seg_add (l := l), seg_add (s := 0 + s), seg_add (l := l) (s := 0 + s), hlow, hhigh, Nat.zero_add]
  ring

theorem Below.sameOut {N : ℕ} (h : Below B l 0 N) (hsame : SameOut l l' s n) (hin : Below B l' s n) :
    Below B l' 0 N := fun i hi => by
  by_cases hi' : s ≤ i ∧ i < s + n
  · obtain ⟨k, rfl⟩ : ∃ k, i = s + k := ⟨i - s, by omega⟩
    rw [Nat.zero_add]
    exact hin k (by omega)
  · rw [hsame.out _ (by omega)]
    exact h i hi

theorem Below.set_out {i v : ℕ} (h : Below B l s n) (hi : i < s ∨ s + n ≤ i) : Below B (l.set i v) s n :=
  fun j hj => by
    rw [cell_set_of_ne (by omega)]
    exact h j hj

theorem Below.set {i v : ℕ} (h : Below B l s n) (hv : v < B) : Below B (l.set i v) s n := fun j hj => by
  by_cases hij : i = s + j
  · subst hij
    by_cases hlen : s + j < l.length
    · rwa [cell_set_self hlen]
    · rw [List.set_eq_of_length_le (by omega)]
      exact h j hj
  · rw [cell_set_of_ne hij]
    exact h j hj

/-! ### Carries and borrows -/

/-- One step of a carrying loop: the low part of `x` is stored, the rest is carried on. -/
theorem seg_carry {x : ℕ} (h : s + n < l.length) :
    seg B (l.set (s + n) (x % B)) s (n + 1) + x / B * B ^ (n + 1) = seg B l s n + x * B ^ n := by
  have hx : x * B ^ n = (B * (x / B) + x % B) * B ^ n := by rw [Nat.div_add_mod]
  rw [seg_set_last h, hx]
  ring

/-- One step of a borrowing loop: `low` is the stored digit of `x - y`, `hi` the borrow it leaves. -/
theorem seg_borrow {x y low hi : ℕ} (h : s + n < l.length) (hxy : low + y = x + hi * B) :
    seg B (l.set (s + n) low) s (n + 1) + y * B ^ n = seg B l s n + x * B ^ n + hi * B ^ (n + 1) := by
  have hmul : (low + y) * B ^ n = (x + hi * B) * B ^ n := by rw [hxy]
  rw [seg_set_last h]
  linear_combination hmul

/-- Nothing is left above the slice when slice and result both have room in it. -/
theorem top_eq_zero {N x t y : ℤ} (hx : 0 ≤ x) (hxN : x < N) (hy : 0 ≤ y) (hyN : y < N) (h : x + t * N = y) :
    t = 0 := by
  by_contra hne
  rcases lt_or_gt_of_ne hne with hlt | hgt
  · have : t * N ≤ -1 * N := mul_le_mul_of_nonneg_right (by omega) (by omega)
    omega
  · have : 1 * N ≤ t * N := mul_le_mul_of_nonneg_right (by omega) (by omega)
    omega

/-! ### Digits from the value -/

theorem seg_mod (h : cell l s < B) : seg B l s (n + 1) % B = cell l s := by
  rw [seg_succ_front, Nat.add_mul_mod_self_left, Nat.mod_eq_of_lt h]

theorem seg_div (h : cell l s < B) : seg B l s (n + 1) / B = seg B l (s + 1) n := by
  rw [seg_succ_front, Nat.add_mul_div_left _ _ (by omega), Nat.div_eq_of_lt h, Nat.zero_add]

/-- The digit of place `k`, read off the value. -/
theorem cell_eq_div_mod {k N : ℕ} (h : Below B l 0 N) (hk : k < N) : cell l k = seg B l 0 N / B ^ k % B := by
  obtain ⟨m, rfl⟩ : ∃ m, N = k + (m + 1) := ⟨N - (k + 1), by omega⟩
  have hcell := h k hk
  have hlow := seg_lt (h.mono (show k ≤ k + (m + 1) by omega))
  rw [seg_add, Nat.add_mul_div_left _ _ (by omega), Nat.div_eq_of_lt hlow, Nat.zero_add, seg_mod hcell, Nat.zero_add]

theorem seg_inj {t : ℕ} (h : Below B l s n) (h' : Below B l' t n) (heq : seg B l s n = seg B l' t n) :
    ∀ i < n, cell l (s + i) = cell l' (t + i) := by
  induction n generalizing s t with
  | zero => intro i hi; omega
  | succ n ih =>
    have h0 : cell l s < B := h 0 (by omega)
    have h0' : cell l' t < B := h' 0 (by omega)
    intro i hi
    cases i with
    | zero => rw [Nat.add_zero, Nat.add_zero, ← seg_mod h0, heq, seg_mod h0']
    | succ i =>
      have hdiv : seg B l (s + 1) n = seg B l' (t + 1) n := by rw [← seg_div h0, heq, seg_div h0']
      have hl : Below B l (s + 1) n := fun j hj => by
        rw [show s + 1 + j = s + (j + 1) by omega]
        exact h (j + 1) (by omega)
      have hl' : Below B l' (t + 1) n := fun j hj => by
        rw [show t + 1 + j = t + (j + 1) by omega]
        exact h' (j + 1) (by omega)
      have := ih hl hl' hdiv i (by omega)
      rwa [show s + (i + 1) = s + 1 + i by omega, show t + (i + 1) = t + 1 + i by omega]

end Deemon.Radix
