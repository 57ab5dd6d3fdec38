import Mathlib.Data.BitVec

/-!
# Mixing of words

The steps of multiplicative hash functions are injective: products with an odd constant, `x ^ (x >> r)`, and
rotations. A fold of injective steps tells apart two runs that differ in one place.
-/

namespace Deemon.Mixing

open Function

variable {w : ℕ}

theorem mul_injective {c d : BitVec w} (h : c * d = 1) : Injective fun x : BitVec w => x * c := by
  intro x y hxy
  have hmul : ∀ z : BitVec w, z * c * d = z := fun z => by rw [BitVec.mul_assoc, h, mul_one]
  have hxy' : x * c = y * c := hxy
  rw [← hmul x, ← hmul y, hxy']

theorem add_injective (y : BitVec w) : Injective fun x => x + y := fun _ _ h => (BitVec.add_left_inj y).mp h

theorem xor_injective (x : BitVec w) : Injective fun y => x ^^^ y := fun _ _ h => (BitVec.xor_right_inj x).mp h

theorem xor_injective' (y : BitVec w) : Injective fun x => x ^^^ y := fun _ _ h => (BitVec.xor_left_inj y).mp h

/-- A word that a shift to the right does not change is 0. -/
theorem eq_zero_of_ushiftRight {d : BitVec w} {r : ℕ} (hr : 0 < r) (h : d >>> r = d) : d = 0 := by
  have hnat : d.toNat / 2 ^ r = d.toNat := by
    rw [← Nat.shiftRight_eq_div_pow, ← BitVec.toNat_ushiftRight, h]
  have hzero : d.toNat = 0 := by
    by_contra hne
    exact absurd hnat (Nat.div_lt_self (Nat.pos_of_ne_zero hne) (Nat.one_lt_two_pow hr.ne')).ne
  exact BitVec.eq_of_toNat_eq (by rw [hzero]; rfl)

theorem xorShift_injective {r : ℕ} (hr : 0 < r) : Injective fun x : BitVec w => x ^^^ x >>> r := by
  intro x y hxy
  have hxy' : x ^^^ x >>> r = y ^^^ y >>> r := hxy
  have hdiff : (x ^^^ y) >>> r = x ^^^ y := by
    rw [BitVec.ushiftRight_xor_distrib, ← BitVec.xor_right_inj x, ← BitVec.xor_assoc, hxy', BitVec.xor_assoc,
      BitVec.xor_self, BitVec.xor_zero, ← BitVec.xor_assoc, BitVec.xor_self, BitVec.zero_xor]
  exact BitVec.xor_eq_zero_iff.mp (eq_zero_of_ushiftRight hr hdiff)

theorem rotate_injective {r : ℕ} (hr : r ≤ w) : Injective fun x : BitVec w => x <<< r ||| x >>> (w - r) := by
  intro x y hxy
  have hbit : ∀ i, (x <<< r ||| x >>> (w - r)).getLsbD i = (y <<< r ||| y >>> (w - r)).getLsbD i := fun i =>
    congrArg (fun z : BitVec w => z.getLsbD i) hxy
  simp only [BitVec.getLsbD_or, BitVec.getLsbD_shiftLeft, BitVec.getLsbD_ushiftRight] at hbit
  refine BitVec.eq_of_getLsbD_eq fun i hi => ?_
  by_cases hlow : i < w - r
  · -- the bit went up
    have h := hbit (i + r)
    have hout : w ≤ w - r + (i + r) := by omega
    simpa [BitVec.getLsbD_of_ge _ _ hout, show i + r < w by omega, show ¬i + r < r by omega] using h
  · -- the bit went around to the bottom
    have h := hbit (i - (w - r))
    have hidx : w - r + (i - (w - r)) = i := by omega
    simpa [hidx, show i - (w - r) < r by omega] using h

/-! ### Folds -/

section Fold

variable {σ κ : Type} {step : σ → κ → σ}

theorem foldl_injective (h : ∀ k, Injective fun s => step s k) (l : List κ) : Injective fun s => l.foldl step s := by
  induction l with
  | nil => exact injective_id
  | cons k l ih => exact ih.comp (h k)

/-- Two runs that differ in one place end in different states. -/
theorem foldl_ne (h : ∀ k, Injective fun s => step s k) (h' : ∀ s, Injective (step s)) {ι : Type} {f g : ι → κ}
    {l r : List ι} {i : ι} (hl : ∀ j ∈ l, f j = g j) (hi : f i ≠ g i) (hr : ∀ j ∈ r, f j = g j) (s : σ) :
    (l ++ i :: r).foldl (fun s j => step s (f j)) s ≠ (l ++ i :: r).foldl (fun s j => step s (g j)) s := by
  have hcongr : ∀ (l : List ι) (s : σ), (∀ j ∈ l, f j = g j) →
      l.foldl (fun s j => step s (f j)) s = l.foldl (fun s j => step s (g j)) s := by
    intro l
    induction l with
    | nil => exact fun s _ => rfl
    | cons j l ih =>
      intro s hl
      rw [List.foldl_cons, List.foldl_cons, hl j List.mem_cons_self]
      exact ih _ fun j hj => hl j (List.mem_cons_of_mem _ hj)
  rw [List.foldl_append, List.foldl_append, hcongr l s hl, List.foldl_cons, List.foldl_cons, hcongr r _ hr]
  exact fun heq => hi (h' _ (foldl_injective (fun j => h (g j)) r heq))

end Fold

end Deemon.Mixing
