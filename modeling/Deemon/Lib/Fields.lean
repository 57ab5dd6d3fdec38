import Deemon.Lib.Radix

/-!
# Fields of machine integers

The C casts to a machine integer of `w` bits (`sint`, `uint`), and fields of `n` bytes, the lowest byte first, in a
buffer (`getLe`, `setLe`).
-/

namespace Deemon.Fields

open Deemon.Run Deemon.Radix

variable {w n a v : ℕ} {x y : ℤ} {l l' : List ℕ}

/-! ### Casts -/

/-- `(intN_t)x`. -/
def sint (w : ℕ) (x : ℤ) : ℤ := x.bmod (2 ^ w)

/-- `(uintN_t)x`. -/
def uint (w : ℕ) (x : ℤ) : ℕ := (x % 2 ^ w).toNat

/-- The values of a signed integer of `w + 1` bits. -/
def FitsSigned (w : ℕ) (x : ℤ) : Prop := -2 ^ w ≤ x ∧ x < 2 ^ w

/-- The values of an unsigned integer of `w` bits. -/
def FitsUnsigned (w : ℕ) (x : ℤ) : Prop := 0 ≤ x ∧ x < 2 ^ w

instance : Decidable (FitsSigned w x) := inferInstanceAs (Decidable (_ ∧ _))
instance : Decidable (FitsUnsigned w x) := inferInstanceAs (Decidable (_ ∧ _))

theorem FitsSigned.mono {k : ℕ} (h : FitsSigned k x) (hk : k ≤ w) : FitsSigned w x := by
  have hpow : (2 : ℤ) ^ k ≤ 2 ^ w := pow_le_pow_right₀ (by norm_num) hk
  obtain ⟨hlo, hhi⟩ := h
  constructor <;> linarith

theorem FitsUnsigned.emod_eq {k : ℕ} (h : FitsUnsigned k x) (hk : k ≤ w) : x % 2 ^ w = x := by
  have hpow : (2 : ℤ) ^ k ≤ 2 ^ w := pow_le_pow_right₀ (by norm_num) hk
  exact Int.emod_eq_of_lt h.1 (h.2.trans_le hpow)

theorem natCast_uint : (uint w x : ℤ) = x % 2 ^ w :=
  Int.toNat_of_nonneg (Int.emod_nonneg x (by positivity))

theorem uint_lt : uint w x < 2 ^ w := by
  have hlt : (uint w x : ℤ) < 2 ^ w := by
    rw [natCast_uint]
    exact Int.emod_lt_of_pos x (by positivity)
  exact_mod_cast hlt

theorem fitsUnsigned_uint : FitsUnsigned w (uint w x) :=
  ⟨Int.natCast_nonneg _, by exact_mod_cast uint_lt⟩

theorem fitsSigned_sint : FitsSigned w (sint (w + 1) x) := by
  have hpow : (2 : ℤ) ^ (w + 1) = 2 * 2 ^ w := by ring
  have hle := @Int.le_bmod x (2 ^ (w + 1)) (by positivity)
  have hlt := @Int.bmod_lt x (2 ^ (w + 1)) (by positivity)
  push_cast at hle hlt
  rw [hpow] at hle hlt
  constructor
  · show -2 ^ w ≤ x.bmod (2 ^ (w + 1))
    omega
  · show x.bmod (2 ^ (w + 1)) < 2 ^ w
    omega

theorem sint_of_fits (h : FitsSigned w x) : sint (w + 1) x = x := by
  have hpow : (2 : ℤ) ^ (w + 1) = 2 * 2 ^ w := by ring
  refine Int.bmod_eq_of_le ?_ ?_
  · push_cast
    rw [hpow]
    have := h.1
    omega
  · push_cast
    rw [hpow]
    have := h.2
    omega

theorem sint_eq_iff : sint (w + 1) x = x ↔ FitsSigned w x :=
  ⟨fun h => h ▸ fitsSigned_sint, sint_of_fits⟩

/-- A cast of one summand is absorbed by the cast of the sum. -/
theorem sint_sint_add : sint w (sint w x + y) = sint w (x + y) := Int.bmod_add_bmod

theorem sint_uint : sint w (uint w x) = sint w x := by
  show Int.bmod (uint w x : ℤ) (2 ^ w) = Int.bmod x (2 ^ w)
  rw [natCast_uint, ← Nat.cast_ofNat (n := 2), ← Nat.cast_pow, Int.emod_bmod]

theorem uint_sint : uint w (sint w x) = uint w x := by
  have hmod : sint w x % 2 ^ w = x % 2 ^ w := by
    have h := @Int.bmod_emod x (2 ^ w)
    push_cast at h
    exact h
  unfold uint
  rw [hmod]

/-! ### Fields -/

/-- `UNALIGNED_GETLE8`, `UNALIGNED_GETLE16` and `UNALIGNED_GETLE32`. -/
def getLe (l : List ℕ) (a n : ℕ) : Option ℕ := if a + n ≤ l.length then some (seg 256 l a n) else none

/-- `UNALIGNED_SETLE8`, `UNALIGNED_SETLE16` and `UNALIGNED_SETLE32`. -/
def setLe (l : List ℕ) (a n v : ℕ) : Option (List ℕ) := forLoop (fun i l => wr l (a + i) (v / 256 ^ i % 256)) 0 n l

theorem getLe_of_le (h : a + n ≤ l.length) : getLe l a n = some (seg 256 l a n) := if_pos h

theorem setLe_ends (h : a + n ≤ l.length) (hv : v < 256 ^ n) :
    Ends (setLe l a n v) fun l' => SameOut l l' a n ∧ Below 256 l' a n ∧ seg 256 l' a n = v := by
  have hloop : Ends (setLe l a n v) fun l' =>
      SameOut l l' a n ∧ Below 256 l' a n ∧ seg 256 l' a n = v % 256 ^ n := by
    refine forLoop_ends_zero
      (fun k l' => SameOut l l' a k ∧ Below 256 l' a k ∧ seg 256 l' a k = v % 256 ^ k) ?_ ?_
    · exact ⟨SameOut.refl, fun i hi => absurd hi (Nat.not_lt_zero i), by rw [pow_zero, Nat.mod_one]; rfl⟩
    · rintro k r hk ⟨hout, hbelow, hseg⟩
      have hlen := hout.length
      have hbyte : v / 256 ^ k % 256 < 256 := Nat.mod_lt _ (by norm_num)
      rw [wr_of_lt (by omega)]
      refine Ends.pure ⟨(hout.mono le_rfl (by omega)).trans (SameOut.set.mono (by omega) le_rfl), ?_, ?_⟩
      · refine (hbelow.set_out (Or.inr le_rfl)).succ ?_
        rw [cell_set_self (by omega)]
        exact hbyte
      · rw [seg_set_last (by omega), hseg, pow_succ, Nat.mod_mul, Nat.mul_comm]
  refine hloop.mono ?_
  rintro l' ⟨hout, hbelow, hseg⟩
  rw [Nat.mod_eq_of_lt hv] at hseg
  exact ⟨hout, hbelow, hseg⟩

end Deemon.Fields
