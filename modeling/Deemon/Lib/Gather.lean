import Mathlib.Data.Nat.Count
import Mathlib.Data.Nat.Bitwise
import Mathlib.Tactic.Ring

/-!
# Gathering and scattering bits

A mask is a predicate on bit positions. Gathering moves the bit at the `k`-th position of the mask to position `k`
(`Gathers`), and scattering moves the bit at position `k` to the `k`-th position of the mask (`Scatters`). Neither the
mask nor the bits need to be finite. `gather` and `scatter` are the numbers that the positions below a bound give.
-/

namespace Deemon.Gather

/-- How many positions of the mask are below `n`. -/
def bitCount (m : ℕ → Bool) (n : ℕ) : ℕ := Nat.count (fun i => m i = true) n

/-- The bits at the positions of the mask below `n`, side by side. -/
def gather (m x : ℕ → Bool) : ℕ → ℕ
  | 0 => 0
  | n + 1 => gather m x n + if m n && x n then 2 ^ bitCount m n else 0

/-- The bits at the positions of the mask below `n`, taken from `x` in order. -/
def scatter (m x : ℕ → Bool) : ℕ → ℕ
  | 0 => 0
  | n + 1 => scatter m x n + if m n && x (bitCount m n) then 2 ^ n else 0

/-- `r` has the bits of `x` at the positions of the mask side by side, and no others. -/
structure Gathers (m x r : ℕ → Bool) : Prop where
  taken : ∀ i, m i = true → r (bitCount m i) = x i
  rest : ∀ j, (∀ i, m i = true → bitCount m i ≠ j) → r j = false

/-- `y` has the bits of `x`, in order, at the positions of the mask, and no others. -/
def Scatters (m x y : ℕ → Bool) : Prop := ∀ i, y i = (m i && x (bitCount m i))

section Count

variable {m m' : ℕ → Bool} {i j n k : ℕ}

@[simp] theorem bitCount_zero : bitCount m 0 = 0 := Nat.count_zero _

theorem bitCount_succ : bitCount m (n + 1) = bitCount m n + if m n then 1 else 0 := Nat.count_succ _ n

theorem bitCount_add (a b : ℕ) : bitCount m (a + b) = bitCount m a + bitCount (fun i => m (a + i)) b := Nat.count_add _ a b

theorem bitCount_le : bitCount m n ≤ n := Nat.count_le _

theorem bitCount_mono (h : n ≤ k) : bitCount m n ≤ bitCount m k := Nat.count_monotone _ h

theorem bitCount_lt (hi : m i = true) (h : i < n) : bitCount m i < bitCount m n := Nat.count_strict_mono hi h

theorem bitCount_congr (h : ∀ i < n, m i = m' i) : bitCount m n = bitCount m' n := by
  induction n with
  | zero => rfl
  | succ n ih =>
    rw [bitCount_succ, bitCount_succ, ih fun i hi => h i (by omega), h n (Nat.lt_succ_self n)]

theorem bitCount_eq_zero (h : ∀ i < n, m i = false) : bitCount m n = 0 :=
  Nat.count_iff_forall_not.mpr fun i hi hm => by simp [h i hi] at hm

theorem bitCount_eq_self (h : ∀ i < n, m i = true) : bitCount m n = n := Nat.count_iff_forall.mpr h

/-- Every number below the count is the count at a position of the mask. -/
theorem exists_bitCount_eq (h : j < bitCount m n) : ∃ i < n, m i = true ∧ bitCount m i = j := by
  induction n with
  | zero => exact absurd h (Nat.not_lt_zero j)
  | succ n ih =>
    rw [bitCount_succ] at h
    rcases Nat.lt_or_ge j (bitCount m n) with hlt | hge
    · obtain ⟨i, hi, hm, hj⟩ := ih hlt
      exact ⟨i, by omega, hm, hj⟩
    · split_ifs at h with hm
      · exact ⟨n, Nat.lt_succ_self n, hm, by omega⟩
      · omega

/-- A mask with all positions from `n` on counts up to every number. -/
theorem exists_bitCount_eq_of_ones (h : ∀ i, n ≤ i → m i = true) (j : ℕ) : ∃ i, m i = true ∧ bitCount m i = j := by
  have hcount : bitCount m (n + (j + 1)) = bitCount m n + (j + 1) := by
    rw [bitCount_add, bitCount_eq_self fun i _ => h (n + i) (Nat.le_add_right n i)]
  obtain ⟨i, -, hm, hj⟩ := exists_bitCount_eq (j := j) (m := m) (n := n + (j + 1)) (by omega)
  exact ⟨i, hm, hj⟩

end Count

/-! ### Gathering -/

section Gathering

variable {m m' x x' r r' : ℕ → Bool} {i j n k : ℕ}

theorem gather_lt : gather m x n < 2 ^ bitCount m n := by
  induction n with
  | zero => exact Nat.one_pos
  | succ n ih =>
    rw [gather, bitCount_succ]
    cases m n with
    | false => exact ih
    | true =>
      rw [if_pos rfl, pow_succ]
      split_ifs
      · omega
      · omega

theorem gather_congr (hm : ∀ i < n, m i = m' i) (hx : ∀ i < n, x i = x' i) : gather m x n = gather m' x' n := by
  induction n with
  | zero => rfl
  | succ n ih =>
    rw [gather, gather, ih (fun i hi => hm i (by omega)) fun i hi => hx i (by omega), hm n (Nat.lt_succ_self n),
      hx n (Nat.lt_succ_self n), bitCount_congr fun i hi => hm i (by omega)]

/-- The bits of two ranges of positions: the second one comes above the first. -/
theorem gather_add (a b : ℕ) : gather m x (a + b) =
    gather m x a + 2 ^ bitCount m a * gather (fun i => m (a + i)) (fun i => x (a + i)) b := by
  induction b with
  | zero => rfl
  | succ b ih =>
    rw [← Nat.add_assoc, gather, gather, ih, Nat.mul_add, Nat.add_assoc, bitCount_add]
    congr 2
    split_ifs with h
    · rw [pow_add]
    · rfl

/-- Positions without bits add nothing. -/
theorem gather_of_zeros (h : ∀ i < k, (m (n + i) && x (n + i)) = false) : gather m x (n + k) = gather m x n := by
  induction k with
  | zero => rfl
  | succ k ih =>
    rw [← Nat.add_assoc, gather, ih fun i hi => h i (by omega), h k (Nat.lt_succ_self k)]
    rfl

theorem gather_eq_of_zeros (hn : ∀ i, n ≤ i → (m i && x i) = false) (hk : ∀ i, k ≤ i → (m i && x i) = false) :
    gather m x n = gather m x k := by
  rcases Nat.le_total n k with hle | hle
  · obtain ⟨d, rfl⟩ := Nat.exists_eq_add_of_le hle
    exact (gather_of_zeros fun i _ => hn (n + i) (Nat.le_add_right n i)).symm
  · obtain ⟨d, rfl⟩ := Nat.exists_eq_add_of_le hle
    exact gather_of_zeros fun i _ => hk (k + i) (Nat.le_add_right k i)

/-- Positions whose bits are all set add ones. -/
theorem gather_of_ones (h : ∀ i < k, x (n + i) = true) :
    gather m x (n + k) + 2 ^ bitCount m n = gather m x n + 2 ^ bitCount m (n + k) := by
  induction k with
  | zero => rfl
  | succ k ih =>
    have hk := ih fun i hi => h i (by omega)
    rw [← Nat.add_assoc, gather, bitCount_succ, h k (Nat.lt_succ_self k)]
    cases m (n + k) with
    | false => exact hk
    | true =>
      rw [Bool.and_self, if_pos rfl, if_pos rfl, pow_succ]
      omega

theorem testBit_gather (hi : i < n) (hm : m i = true) : (gather m x n).testBit (bitCount m i) = x i := by
  induction n with
  | zero => exact absurd hi (Nat.not_lt_zero i)
  | succ n ih =>
    have hlow : gather m x n < 2 ^ bitCount m n := gather_lt
    have hsum : gather m x (n + 1) = 2 ^ bitCount m n * (if m n && x n then 1 else 0) + gather m x n := by
      rw [gather, Nat.add_comm]
      split_ifs
      · rw [Nat.mul_one]
      · rw [Nat.mul_zero]
    rw [hsum, Nat.testBit_two_pow_mul_add _ hlow]
    rcases Nat.lt_succ_iff_lt_or_eq.mp hi with hlt | rfl
    · rw [if_pos (bitCount_lt hm hlt), ih hlt]
    · rw [if_neg (lt_irrefl _), Nat.sub_self, hm, Bool.true_and]
      cases x i with
      | false => rfl
      | true => rfl

/-- Where the mask has no gaps, the bits stay where they are. -/
theorem testBit_gather_of_ones (hm : ∀ i < n, m i = true) : (gather m x n).testBit i = (decide (i < n) && x i) := by
  by_cases hi : i < n
  · have htake := testBit_gather (x := x) hi (hm i hi)
    rw [bitCount_eq_self fun j hj => hm j (hj.trans hi)] at htake
    rw [htake, decide_eq_true hi, Bool.true_and]
  · have hlt := gather_lt (m := m) (x := x) (n := n)
    rw [bitCount_eq_self hm] at hlt
    rw [decide_eq_false hi, Bool.false_and]
    exact Nat.testBit_eq_false_of_lt (lt_of_lt_of_le hlt (Nat.pow_le_pow_right Nat.two_pos (not_lt.mp hi)))

theorem testBit_gather_of_le (h : bitCount m n ≤ j) : (gather m x n).testBit j = false :=
  Nat.testBit_eq_false_of_lt (lt_of_lt_of_le gather_lt (Nat.pow_le_pow_right Nat.two_pos h))

theorem Gathers.unique (h : Gathers m x r) (h' : Gathers m x r') : r = r' := by
  funext j
  by_cases hj : ∃ i, m i = true ∧ bitCount m i = j
  · obtain ⟨i, hm, rfl⟩ := hj
    rw [h.taken i hm, h'.taken i hm]
  · have hnone : ∀ i, m i = true → bitCount m i ≠ j := fun i hm heq => hj ⟨i, hm, heq⟩
    rw [h.rest j hnone, h'.rest j hnone]

/-- Where no bits are left from `n` on, the gathered number is finite. -/
theorem gathers_of_zeros (h : ∀ i, n ≤ i → (m i && x i) = false) : Gathers m x (gather m x n).testBit := by
  refine ⟨fun i hm => ?_, fun j hj => ?_⟩
  · rcases Nat.lt_or_ge i n with hlt | hge
    · exact testBit_gather hlt hm
    · have hx := h i hge
      rw [hm, Bool.true_and] at hx
      rw [testBit_gather_of_le (bitCount_mono hge), hx]
  · rcases Nat.lt_or_ge j (bitCount m n) with hlt | hge
    · obtain ⟨i, -, hm, heq⟩ := exists_bitCount_eq hlt
      exact absurd heq (hj i hm)
    · exact testBit_gather_of_le hge

/-- Where the mask and the bits are all ones from some position on, so is the gathered number. -/
theorem gathers_of_ones (hx : ∀ i, n ≤ i → x i = true) (hm : ∀ i, k ≤ i → m i = true) :
    Gathers m x fun j => if j < bitCount m n then (gather m x n).testBit j else true := by
  refine ⟨fun i hi => ?_, fun j hj => ?_⟩
  · rcases Nat.lt_or_ge i n with hlt | hge
    · rw [if_pos (bitCount_lt hi hlt), testBit_gather hlt hi]
    · rw [if_neg (not_lt.mpr (bitCount_mono hge)), hx i hge]
  · obtain ⟨i, hi, heq⟩ := exists_bitCount_eq_of_ones hm j
    exact absurd heq (hj i hi)

/-- Behind the last gap of the mask the bits are taken as they are. -/
theorem gathers_of_mask_ones (hm : ∀ i, n ≤ i → m i = true) : Gathers m x fun j =>
    (gather m x n).testBit j || (decide (bitCount m n ≤ j) && x (n + (j - bitCount m n))) := by
  refine ⟨fun i hi => ?_, fun j hj => ?_⟩
  · rcases Nat.lt_or_ge i n with hlt | hge
    · have hcount := bitCount_lt hi hlt
      rw [testBit_gather hlt hi, decide_eq_false (by omega), Bool.false_and, Bool.or_false]
    · obtain ⟨d, rfl⟩ := Nat.exists_eq_add_of_le hge
      rw [testBit_gather_of_le (bitCount_mono hge), decide_eq_true (bitCount_mono hge), bitCount_add,
        bitCount_eq_self (fun i _ => hm (n + i) (Nat.le_add_right n i)), Nat.add_sub_cancel_left, Bool.false_or,
        Bool.true_and]
  · obtain ⟨i, hi, heq⟩ := exists_bitCount_eq_of_ones hm j
    exact absurd heq (hj i hi)

end Gathering

/-! ### Scattering -/

section Scattering

variable {m x y z : ℕ → Bool} {i n : ℕ}

theorem scatter_lt : scatter m x n < 2 ^ n := by
  induction n with
  | zero => exact Nat.one_pos
  | succ n ih =>
    rw [scatter, pow_succ]
    split_ifs
    · omega
    · omega

theorem testBit_scatter (hi : i < n) : (scatter m x n).testBit i = (m i && x (bitCount m i)) := by
  induction n with
  | zero => exact absurd hi (Nat.not_lt_zero i)
  | succ n ih =>
    have hlow : scatter m x n < 2 ^ n := scatter_lt
    have hsum : scatter m x (n + 1) = 2 ^ n * (if m n && x (bitCount m n) then 1 else 0) + scatter m x n := by
      rw [scatter, Nat.add_comm]
      split_ifs
      · rw [Nat.mul_one]
      · rw [Nat.mul_zero]
    rw [hsum, Nat.testBit_two_pow_mul_add _ hlow]
    rcases Nat.lt_succ_iff_lt_or_eq.mp hi with hlt | rfl
    · rw [if_pos hlt, ih hlt]
    · rw [if_neg (lt_irrefl _), Nat.sub_self]
      cases m i && x (bitCount m i) with
      | false => rfl
      | true => rfl

/-- Where the mask has no gaps, the bits stay where they are. -/
theorem testBit_scatter_of_ones (hm : ∀ i < n, m i = true) : (scatter m x n).testBit i = (decide (i < n) && x i) := by
  by_cases hi : i < n
  · rw [testBit_scatter hi, hm i hi, bitCount_eq_self fun j hj => hm j (hj.trans hi), decide_eq_true hi]
  · rw [decide_eq_false hi, Bool.false_and]
    exact Nat.testBit_eq_false_of_lt (lt_of_lt_of_le scatter_lt (Nat.pow_le_pow_right Nat.two_pos (not_lt.mp hi)))

theorem scatter_congr {m' x' : ℕ → Bool} (hm : ∀ i < n, m i = m' i) (hx : ∀ j < bitCount m n, x j = x' j) :
    scatter m x n = scatter m' x' n := by
  induction n with
  | zero => rfl
  | succ n ih =>
    have hn := hm n (Nat.lt_succ_self n)
    have hcount : bitCount m n = bitCount m' n := bitCount_congr fun i hi => hm i (by omega)
    rw [scatter, scatter, ih (fun i hi => hm i (by omega)) fun j hj => hx j (hj.trans_le (bitCount_mono n.le_succ)),
      ← hn, ← hcount]
    cases hbit : m n with
    | false => rfl
    | true => rw [hx _ (bitCount_lt hbit (Nat.lt_succ_self n))]

/-- The positions of two ranges: the second one goes on in `x` where the first one has stopped. -/
theorem scatter_add (a b : ℕ) : scatter m x (a + b) =
    scatter m x a + 2 ^ a * scatter (fun i => m (a + i)) (fun j => x (bitCount m a + j)) b := by
  induction b with
  | zero => rfl
  | succ b ih =>
    rw [← Nat.add_assoc, scatter, scatter, ih, Nat.mul_add, Nat.add_assoc, bitCount_add]
    congr 2
    split_ifs with h
    · rw [pow_add]
    · rfl

theorem scatter_of_zeros {k : ℕ} (h : ∀ i < k, (m (n + i) && x (bitCount m (n + i))) = false) :
    scatter m x (n + k) = scatter m x n := by
  induction k with
  | zero => rfl
  | succ k ih =>
    rw [← Nat.add_assoc, scatter, ih fun i hi => h i (by omega), h k (Nat.lt_succ_self k)]
    rfl

theorem scatter_eq_of_zeros {k : ℕ} (hn : ∀ i, n ≤ i → (m i && x (bitCount m i)) = false)
    (hk : ∀ i, k ≤ i → (m i && x (bitCount m i)) = false) : scatter m x n = scatter m x k := by
  rcases Nat.le_total n k with hle | hle
  · obtain ⟨d, rfl⟩ := Nat.exists_eq_add_of_le hle
    exact (scatter_of_zeros fun i _ => hn (n + i) (Nat.le_add_right n i)).symm
  · obtain ⟨d, rfl⟩ := Nat.exists_eq_add_of_le hle
    exact scatter_of_zeros fun i _ => hk (k + i) (Nat.le_add_right k i)

/-- Where nothing is left to place from `n` on, the scattered number is finite. -/
theorem scatters_of_zeros (h : ∀ i, n ≤ i → (m i && x (bitCount m i)) = false) :
    Scatters m x (scatter m x n).testBit := by
  intro i
  rcases Nat.lt_or_ge i n with hlt | hge
  · exact testBit_scatter hlt
  · rw [h i hge]
    exact Nat.testBit_eq_false_of_lt (lt_of_lt_of_le scatter_lt (Nat.pow_le_pow_right Nat.two_pos hge))

/-- Behind the last gap of the mask the bits are placed as they are. -/
theorem scatters_of_mask_ones (hm : ∀ i, n ≤ i → m i = true) : Scatters m x fun i =>
    (scatter m x n).testBit i || (decide (n ≤ i) && x (bitCount m n + (i - n))) := by
  intro i
  dsimp only
  rcases Nat.lt_or_ge i n with hlt | hge
  · rw [testBit_scatter hlt, decide_eq_false (by omega), Bool.false_and, Bool.or_false]
  · obtain ⟨d, rfl⟩ := Nat.exists_eq_add_of_le hge
    rw [Nat.testBit_eq_false_of_lt (lt_of_lt_of_le scatter_lt (Nat.pow_le_pow_right Nat.two_pos hge)),
      decide_eq_true hge, hm _ hge, bitCount_add, bitCount_eq_self (fun i _ => hm (n + i) (Nat.le_add_right n i)),
      Nat.add_sub_cancel_left, Bool.false_or, Bool.true_and]

theorem Scatters.unique (h : Scatters m x y) (h' : Scatters m x z) : y = z := funext fun i => by rw [h i, h' i]

/-- Gathering undoes scattering, as far as the mask has positions. -/
theorem Scatters.gathers (hy : Scatters m x y) (hz : Gathers m y z) (hm : ∀ i, n ≤ i → m i = false) :
    ∀ j, z j = (decide (j < bitCount m n) && x j) := by
  intro j
  by_cases hj : j < bitCount m n
  · obtain ⟨i, -, hi, rfl⟩ := exists_bitCount_eq hj
    rw [decide_eq_true hj, hz.taken i hi, hy i, hi]
  · rw [decide_eq_false hj, Bool.false_and]
    refine hz.rest j fun i hi heq => hj ?_
    have hlt : i < n := by
      by_contra hge
      rw [hm i (not_lt.mp hge)] at hi
      cases hi
    rw [← heq]
    exact bitCount_lt hi hlt

end Scattering

end Deemon.Gather
