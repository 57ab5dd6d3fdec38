import Deemon.Int.TryGet

/-!
# Adjacent keys

The tree with ranges for keys merges two ranges when the upper bound of one is followed by the lower bound of the other.
`int_a_plus_1_equals_b` decides this on the digits of two integers, without a sum.
-/

namespace Deemon.Collections

open Deemon.Run Deemon.Radix Deemon.Int

/-- A digit of an integer, one of those that its size counts. -/
def intDigit (x : DeeInt) (i : ℕ) : Option ℕ := if i < x.absSize then rd x.obDigit i else none

/-- The loop over the digits of the shorter operand: ones all over in `a`, zeros in `b`. -/
def carriedRound (a b : DeeInt) (i : ℕ) : Option (Step ℕ Bool) :=
  if i < a.absSize then do
    if (← intDigit a i) ≠ digitMask then some (.done false)
    else if (← intDigit b i) ≠ 0 then some (.done false)
    else some (.next (i + 1))
  else some (.done true)

/-- The loop as long as there is a carry; `none` is `goto nope`. -/
def carryRound (a b : DeeInt) (i : ℕ) : Option (Step ℕ (Option ℕ)) :=
  if a.absSize ≤ i then some (.done none)
  else do
    let d := ((← intDigit a i) + 1) &&& digitMask
    if (← intDigit b i) ≠ d then some (.done none)
    else if d ≠ 0 then some (.done (some (i + 1)))
    else some (.next (i + 1))

/-- The loop over the remaining digits, which are the same. -/
def sameRound (a b : DeeInt) (i : ℕ) : Option (Step ℕ Bool) :=
  if i < a.absSize then do
    if (← intDigit a i) ≠ (← intDigit b i) then some (.done false) else some (.next (i + 1))
  else some (.done true)

/-- `int_a_plus_1_equals_b`. -/
def intAPlus1EqualsB (a b : DeeInt) : Option Bool :=
  if a.obSize ≠ b.obSize then
    if a.obSize + 1 ≠ b.obSize then some false
    else do
      if ← loop (carriedRound a b) (a.absSize + 1) 0 then do some ((← intDigit b a.absSize) = 1)
      else some false
  else do
    match ← loop (carryRound a b) (a.absSize + 1) 0 with
    | none => some false
    | some i => loop (sameRound a b) (a.absSize + 1) i

/-- All digits read exist, nothing but a successor is called adjacent, and so is every successor of a number that is
not negative. -/
def AdjacencyExact (a b : DeeInt) : Prop :=
  Ends (intAPlus1EqualsB a b) fun r => (r = true → a.toInt + 1 = b.toInt) ∧ (0 ≤ a.toInt → a.toInt + 1 = b.toInt → r = true)

section Adjacent

variable {a b x : DeeInt} {i : ℕ}

theorem intDigit_of_lt (hx : x.WF) (hi : i < x.absSize) : intDigit x i = some (cell x.obDigit i) := by
  rw [intDigit, if_pos hi, rd_of_lt (hx.lt_length hi)]

theorem topDigits_lt_pow (hx : x.WF) (hi : i ≤ x.absSize) : topDigits x i < digitBase ^ (x.absSize - i) :=
  seg_lt fun j hj => by simpa using hx.below (i + j) (by omega)

/-- The highest digit is not zero. -/
theorem pow_le_topDigits (hx : x.Canonical) (hi : i < x.absSize) : digitBase ^ (x.absSize - i - 1) ≤ topDigits x i := by
  obtain ⟨n, hn⟩ : ∃ n, x.absSize = i + n + 1 := ⟨x.absSize - i - 1, by omega⟩
  have htop := hx.top (by omega)
  rw [topDigits, hn, show i + n + 1 - i = n + 1 by omega, Nat.add_sub_cancel, seg_succ]
  rw [hn, Nat.add_sub_cancel] at htop
  exact le_trans (Nat.le_mul_of_pos_left _ (Nat.pos_of_ne_zero htop)) (Nat.le_add_left _ _)

theorem topDigits_step (hi : i < x.absSize) (hx : x.WF) :
    ∃ d, cell x.obDigit i = d ∧ intDigit x i = some d ∧ d < digitBase ∧ topDigits x i = topDigits x (i + 1) * digitBase + d :=
  ⟨_, rfl, intDigit_of_lt hx hi, hx.cell_lt hi, topDigits_succ hi⟩

/-- With as many digits the loops decide whether the absolute value of `b` is the next one. -/
theorem sameSize_ends (ha : a.WF) (hb : b.WF) (hsize : a.absSize = b.absSize) :
    Ends (do
      match ← loop (carryRound a b) (a.absSize + 1) 0 with
      | none => some false
      | some i => loop (sameRound a b) (a.absSize + 1) i) fun r => r = true ↔ b.mag = a.mag + 1 := by
  refine Ends.bind (P := fun r => match r with
    | none => b.mag ≠ a.mag + 1
    | some i => i ≤ a.absSize ∧ (b.mag = a.mag + 1 ↔ topDigits b i = topDigits a i)) ?_ ?_
  · -- the digits in front of `i` have carried
    refine loop_ends (fun i => i ≤ a.absSize ∧ (b.mag = a.mag + 1 ↔ topDigits b i = topDigits a i + 1))
      (fun i => a.absSize - i) ⟨Nat.zero_le _, by simp⟩ (by simp) ?_
    intro i ⟨hi, hiff⟩
    unfold carryRound
    split_ifs with hend
    · obtain rfl : i = a.absSize := le_antisymm hi hend
      refine Ends.pure ?_
      show ¬b.mag = a.mag + 1
      rw [hiff, topDigits_absSize, hsize, topDigits_absSize]
      simp
    · obtain ⟨x, -, hx, hxlt, hxtop⟩ := topDigits_step (not_le.mp hend) ha
      obtain ⟨y, -, hy, hylt, hytop⟩ := topDigits_step (hsize ▸ not_le.mp hend) hb
      rw [hx, hy, some_bind, some_bind, and_digitMask]
      rw [hxtop, hytop] at hiff
      split_ifs with hne hnonzero
      · refine Ends.pure ?_
        show ¬b.mag = a.mag + 1
        rw [hiff]
        unfold digitBase at *
        omega
      · refine Ends.pure ⟨by omega, hiff.trans ?_⟩
        unfold digitBase at *
        omega
      · refine Ends.pure ⟨⟨by omega, hiff.trans ?_⟩, by dsimp only; omega⟩
        unfold digitBase at *
        omega
  · rintro (_ | i) h
    · exact Ends.pure (iff_of_false Bool.false_ne_true h)
    · obtain ⟨hi, hiff⟩ := h
      refine loop_ends (fun i => i ≤ a.absSize ∧ (b.mag = a.mag + 1 ↔ topDigits b i = topDigits a i))
        (fun i => a.absSize - i) ⟨hi, hiff⟩ (by omega) ?_
      clear hi hiff i
      intro i ⟨hi, hiff⟩
      unfold sameRound
      split_ifs with hlt
      · obtain ⟨x, -, hx, hxlt, hxtop⟩ := topDigits_step hlt ha
        obtain ⟨y, -, hy, hylt, hytop⟩ := topDigits_step (hsize ▸ hlt) hb
        rw [hx, hy, some_bind, some_bind]
        rw [hxtop, hytop] at hiff
        split_ifs with hne
        · refine Ends.pure (iff_of_false Bool.false_ne_true ?_)
          rw [hiff]
          unfold digitBase at *
          omega
        · refine Ends.pure ⟨⟨by omega, hiff.trans ?_⟩, by dsimp only; omega⟩
          unfold digitBase at *
          omega
      · obtain rfl : i = a.absSize := le_antisymm hi (not_lt.mp hlt)
        refine Ends.pure (iff_of_true rfl ?_)
        rw [hiff, topDigits_absSize, hsize, topDigits_absSize]

/-- With one digit more in `b` the loop decides it too: only ones can carry into a new digit. -/
theorem longer_ends (ha : a.WF) (hb : b.Canonical) (hsize : b.absSize = a.absSize + 1) :
    Ends (do
      if ← loop (carriedRound a b) (a.absSize + 1) 0 then do some (decide ((← intDigit b a.absSize) = 1))
      else some false) fun r => r = true ↔ b.mag = a.mag + 1 := by
  refine Ends.bind (P := fun r => match r with
    | false => b.mag ≠ a.mag + 1
    | true => b.mag = a.mag + 1 ↔ topDigits b a.absSize = 1) ?_ ?_
  · refine loop_ends (fun i => i ≤ a.absSize ∧ (b.mag = a.mag + 1 ↔ topDigits b i = topDigits a i + 1))
      (fun i => a.absSize - i) ⟨Nat.zero_le _, by simp⟩ (by simp) ?_
    intro i ⟨hi, hiff⟩
    unfold carriedRound
    split_ifs with hlt
    · obtain ⟨x, -, hx, hxlt, hxtop⟩ := topDigits_step hlt ha
      obtain ⟨y, -, hy, hylt, hytop⟩ := topDigits_step (show i < b.absSize by omega) hb.toWF
      -- the digits above stay apart without a carry
      have habove : topDigits a (i + 1) < topDigits b (i + 1) := by
        have hlow := topDigits_lt_pow ha (show i + 1 ≤ a.absSize from hlt)
        have hhigh := pow_le_topDigits hb (show i + 1 < b.absSize by omega)
        rw [show b.absSize - (i + 1) - 1 = a.absSize - (i + 1) by omega] at hhigh
        exact lt_of_lt_of_le hlow hhigh
      rw [hx, hy, some_bind]
      rw [hxtop, hytop] at hiff
      split_ifs with hones
      · refine Ends.pure ?_
        show ¬b.mag = a.mag + 1
        rw [hiff]
        unfold digitBase digitMask at *
        omega
      · rw [some_bind]
        split_ifs with hzero
        · refine Ends.pure ?_
          show ¬b.mag = a.mag + 1
          rw [hiff]
          unfold digitBase digitMask at *
          omega
        · refine Ends.pure ⟨⟨by omega, hiff.trans ?_⟩, by dsimp only; omega⟩
          unfold digitBase digitMask at *
          omega
    · obtain rfl : i = a.absSize := le_antisymm hi (not_lt.mp hlt)
      refine Ends.pure ?_
      rw [topDigits_absSize] at hiff
      exact hiff
  · rintro (_ | _) h
    · exact Ends.pure (iff_of_false Bool.false_ne_true h)
    · obtain ⟨y, -, hy, -, hytop⟩ := topDigits_step (show a.absSize < b.absSize by omega) hb.toWF
      rw [← hsize, topDigits_absSize, Nat.zero_mul, Nat.zero_add] at hytop
      rw [if_pos rfl, hy, some_bind, ← hytop]
      refine Ends.pure ?_
      rw [decide_eq_true_iff]
      exact Iff.symm h

/-- A negative operand with at least two digits stops the loop: the highest digit of the other one is not zero. -/
theorem shorter_ends (ha : a.WF) (hb : b.Canonical) (hsize : a.absSize = b.absSize + 1) (hpos : 0 < b.absSize) :
    Ends (loop (carriedRound a b) (a.absSize + 1) 0) fun r => r = false := by
  refine loop_ends (fun i => i < b.absSize) (fun i => a.absSize - i) hpos (by simp) ?_
  intro i hi
  unfold carriedRound
  rw [if_pos (by omega), intDigit_of_lt ha (by omega), some_bind, intDigit_of_lt hb.toWF hi, some_bind]
  split_ifs with hones hzero
  · exact Ends.pure rfl
  · exact Ends.pure rfl
  · refine Ends.pure ⟨?_, by dsimp only; omega⟩
    have htop := hb.top hpos
    have hne : i ≠ b.absSize - 1 := by
      rintro rfl
      exact hzero htop
    omega

/-- One digit with a minus sign against zero: the loop leaves `b` as soon as the digit is all ones. -/
theorem oneDigit_zero (ha : a.WF) (hone : a.absSize = 1) (hzero : b.absSize = 0) :
    loop (carriedRound a b) (a.absSize + 1) 0 = if a.mag = digitMask then none else some false := by
  have hmag : a.mag = cell a.obDigit 0 := by rw [DeeInt.mag, hone, seg_one]
  have hout : intDigit b 0 = none := if_neg (by omega)
  rw [hmag, loop, carriedRound, if_pos (by omega), intDigit_of_lt ha (by omega), some_bind, hout]
  by_cases hones : cell a.obDigit 0 = digitMask
  · rw [if_neg (not_not.mpr hones), if_pos hones]
    rfl
  · rw [if_pos hones, if_neg hones]
    rfl

/-- The loops read two digits of the zero that `-DIGIT_MASK` is compared with. -/
theorem intAPlus1EqualsB_eq_none (ha : a.Canonical) (hb : b.Canonical) (hmin : a.toInt = -(2 ^ 30 - 1))
    (hzero : b.toInt = 0) : intAPlus1EqualsB a b = none := by
  have hsigna := ha.toInt_neg_iff
  have habsa := DeeInt.natAbs_toInt a
  have habsb := DeeInt.natAbs_toInt b
  have hzerob := hb.mag_eq_zero_iff
  have hone := ha.absSize_le (n := 1) (by unfold digitBase; omega)
  have hpos : 0 < a.absSize := by
    by_contra h0
    have hmag := DeeInt.mag_of_absSize_zero (Nat.le_zero.mp (not_lt.mp h0))
    omega
  have hb0 : b.absSize = 0 := hzerob.mp (by omega)
  have hsizes : a.obSize = -1 ∧ b.obSize = 0 := by
    unfold DeeInt.absSize at *
    omega
  unfold intAPlus1EqualsB
  rw [hsizes.1, hsizes.2, if_pos (by decide), if_neg (by decide), oneDigit_zero ha.toWF (by omega) hb0,
    if_pos (by unfold digitMask; omega)]
  rfl

/-- The test finds the successors of numbers that are not negative, and calls nothing else adjacent. -/
theorem intAPlus1EqualsB_ends (ha : a.Canonical) (hb : b.Canonical) (hlt : a.toInt < b.toInt)
    (hread : ¬(a.toInt = -(2 ^ 30 - 1) ∧ b.toInt = 0)) :
    Ends (intAPlus1EqualsB a b) fun r => r = true ↔ 0 ≤ a.toInt ∧ a.toInt + 1 = b.toInt := by
  have hsigna := ha.toInt_neg_iff
  have hsignb := hb.toInt_neg_iff
  have habsa := DeeInt.natAbs_toInt a
  have habsb := DeeInt.natAbs_toInt b
  have hsuccsize : b.mag = a.mag + 1 → a.absSize ≤ b.absSize ∧ b.absSize ≤ a.absSize + 1 := by
    intro hsucc
    have hmaga := ha.toWF.mag_lt
    have hmagb := hb.toWF.mag_lt
    refine ⟨ha.absSize_le (by omega), hb.absSize_le ?_⟩
    rw [pow_succ]
    have hpow : 0 < digitBase ^ a.absSize := Nat.pow_pos digitBase_pos
    unfold digitBase at *
    omega
  unfold intAPlus1EqualsB
  unfold DeeInt.absSize at hsuccsize
  by_cases hsize : a.obSize = b.obSize
  · rw [if_neg (not_not.mpr hsize)]
    refine (sameSize_ends ha.toWF hb.toWF (by rw [DeeInt.absSize, DeeInt.absSize, hsize])).mono fun r hr => ?_
    rw [hr]
    omega
  by_cases hnext : a.obSize + 1 = b.obSize
  · rw [if_pos hsize, if_neg (not_not.mpr hnext)]
    by_cases hpos : 0 ≤ a.obSize
    · refine (longer_ends ha.toWF hb (by unfold DeeInt.absSize; omega)).mono fun r hr => ?_
      rw [hr]
      omega
    by_cases hone : b.obSize = 0
    · have hb0 := DeeInt.toInt_of_absSize_zero (x := b) (by unfold DeeInt.absSize; omega)
      rw [oneDigit_zero ha.toWF (by unfold DeeInt.absSize; omega) (by unfold DeeInt.absSize; omega), if_neg ?_]
      · exact Ends.pure (iff_of_false Bool.false_ne_true (by omega))
      · unfold digitMask
        omega
    · refine Ends.bind (shorter_ends ha.toWF hb (by unfold DeeInt.absSize; omega) (by unfold DeeInt.absSize; omega)) ?_
      rintro _ rfl
      exact Ends.pure (iff_of_false Bool.false_ne_true (by omega))
  · rw [if_pos hsize, if_pos hnext]
    refine Ends.pure (iff_of_false Bool.false_ne_true fun hadj => ?_)
    obtain ⟨h0, hsucc⟩ := hadj
    have hbound := hsuccsize (by omega)
    omega

/-- The test is exact for all `a` below `b`, except that it reads two digits of the zero it compares with
`-DIGIT_MASK`. -/
theorem adjacencyExact_iff (ha : a.Canonical) (hb : b.Canonical) (hlt : a.toInt < b.toInt) :
    AdjacencyExact a b ↔ ¬(a.toInt = -(2 ^ 30 - 1) ∧ b.toInt = 0) := by
  constructor
  · rintro ⟨r, hr, -⟩ ⟨hmin, hzero⟩
    rw [intAPlus1EqualsB_eq_none ha hb hmin hzero] at hr
    cases hr
  · intro hread
    refine (intAPlus1EqualsB_ends ha hb hlt hread).mono fun r hr => ?_
    exact ⟨fun h => (hr.mp h).2, fun h0 hsucc => hr.mpr ⟨h0, hsucc⟩⟩

theorem adjacencyExact_iff_carry : AdjacencyExact ⟨1, [2 ^ 30 - 1]⟩ ⟨2, [0, 1]⟩ ↔
    ¬((2 : ℤ) ^ 30 - 1 = -(2 ^ 30 - 1) ∧ (2 : ℤ) ^ 30 = 0) :=
  adjacencyExact_iff (a := ⟨1, [2 ^ 30 - 1]⟩) (b := ⟨2, [0, 1]⟩) (by decide) (by decide) (by decide)

/-- Zero has no digit that could be compared with the one of `-DIGIT_MASK`. -/
theorem adjacency_reads_behind : DeeInt.toInt ⟨-1, [2 ^ 30 - 1]⟩ < DeeInt.toInt ⟨0, [0]⟩ ∧
    intAPlus1EqualsB ⟨-1, [2 ^ 30 - 1]⟩ ⟨0, [0]⟩ = none ∧
    ¬∀ a b : DeeInt, a.Canonical → b.Canonical → a.toInt < b.toInt → AdjacencyExact a b := by
  refine ⟨by decide, by decide, fun hall => ?_⟩
  obtain ⟨r, hr, -⟩ := hall ⟨-1, [2 ^ 30 - 1]⟩ ⟨0, [0]⟩ (by decide) (by decide) (by decide)
  have hnone : intAPlus1EqualsB ⟨-1, [2 ^ 30 - 1]⟩ ⟨0, [0]⟩ = none := by decide
  rw [hnone] at hr
  cases hr

end Adjacent

end Deemon.Collections
