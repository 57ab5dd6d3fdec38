import Deemon.Int.FromBytes

/-!
# Signed machine integers from integers

`DeeInt_TryGet32Bit` puts the digits together in a word, like `DeeInt_TryGet64Bit`, and notices when a digit drops out at
its top. `DeeInt_TryAsInt32` and `DeeInt_TryAsInt64` also refuse values that are no signed ones.
-/

namespace Deemon.Int

open Deemon.Run Deemon.Radix

/-- A round of the loop over the digits, from the top down. -/
def tryGetRound (w : ℕ) (digits : List ℕ) : ℕ × ℕ → Option (Step (ℕ × ℕ) (Option ℕ))
  | (i, prev) =>
    if i = 0 then some (.done (some prev))
    else do
      let digit ← rd digits (i - 1)
      let resultValue := prev <<< digitBits % 2 ^ w ||| digit
      if resultValue >>> digitBits ≠ prev then some (.done none) else some (.next (i - 1, resultValue))

/-- `DeeInt_TryGet32Bit`: the kind and the 32 bits stored in `*result` (0 where nothing is). -/
def deeIntTryGet32Bit (self : DeeInt) : Option (IntKind × ℕ) :=
  if self.obSize = 0 then some (.unsigned, 0)
  else if self.obSize = 1 then do
    let digit ← rd self.obDigit 0
    some (.unsigned, digit)
  else if self.obSize = -1 then do
    let digit ← rd self.obDigit 0
    some (.signed, (2 ^ 32 - digit) % 2 ^ 32)
  else do
    match ← loop (tryGetRound 32 self.obDigit) (self.absSize + 1) (self.absSize, 0) with
    | none => some (if self.obSize < 0 then .negOverflow else .posOverflow, 0)
    | some resultValue =>
      if self.obSize < 0 then
        if 2 ^ 31 < resultValue then some (.negOverflow, 0) else some (.signed, (2 ^ 32 - resultValue) % 2 ^ 32)
      else some (.unsigned, resultValue)

/-- The end of `DeeInt_TryAsInt32` and `DeeInt_TryAsInt64`. -/
def asSigned (w : ℕ) : IntKind × ℕ → Option ℤ
  | (.unsigned, bits) => if 2 ^ (w - 1) - 1 < bits then none else some (castSigned w bits)
  | (.signed, bits) => some (castSigned w bits)
  | (.posOverflow, _) => none
  | (.negOverflow, _) => none

/-- `DeeInt_TryAsInt32`. -/
def deeIntTryAsInt32 (self : DeeInt) : Option (Option ℤ) := (deeIntTryGet32Bit self).map (asSigned 32)

/-- `DeeInt_TryAsInt64`. -/
def deeIntTryAsInt64 (self : DeeInt) : Option (Option ℤ) := (deeIntTryGet64Bit self).map (asSigned 64)

section TryGet

variable {w i value digit : ℕ} {n : ℤ} {r : IntKind × ℕ} {x : DeeInt}

theorem two_pow_split (hw : digitBits ≤ w) : 2 ^ w = 2 ^ (w - digitBits) * digitBase := by
  rw [digitBase, ← pow_add, Nat.sub_add_cancel hw]

/-- A digit is put below the others, unless one of them drops out at the top. -/
theorem shiftIn_digit (hw : digitBits ≤ w) (hdigit : digit < digitBase) :
    value <<< digitBits % 2 ^ w ||| digit = value % 2 ^ (w - digitBits) * digitBase + digit := by
  rw [Nat.shiftLeft_eq, two_pow_split hw, Nat.mul_mod_mul_right, Nat.mul_comm _ digitBase,
    Nat.two_pow_add_eq_or_of_lt hdigit]

theorem shiftIn_digit_shiftRight (hdigit : digit < digitBase) :
    (value % 2 ^ (w - digitBits) * digitBase + digit) >>> digitBits = value % 2 ^ (w - digitBits) := by
  rw [shiftRight_digitBits, Nat.mul_comm, Nat.mul_add_div digitBase_pos, Nat.div_eq_of_lt hdigit, Nat.add_zero]

/-- The number that the digits from `i` up spell. -/
def topDigits (x : DeeInt) (i : ℕ) : ℕ := seg digitBase x.obDigit i (x.absSize - i)

@[simp] theorem topDigits_absSize : topDigits x x.absSize = 0 := by simp [topDigits]

@[simp] theorem topDigits_zero : topDigits x 0 = x.mag := by simp [topDigits, DeeInt.mag]

theorem topDigits_succ (hi : i < x.absSize) :
    topDigits x i = topDigits x (i + 1) * digitBase + cell x.obDigit i := by
  rw [topDigits, topDigits, show x.absSize - i = x.absSize - (i + 1) + 1 by omega, seg_succ_front]
  ring

theorem topDigits_le_mag (hi : i ≤ x.absSize) : topDigits x i ≤ x.mag := by
  have hmag := @seg_add digitBase x.obDigit 0 (x.absSize - i) i
  rw [Nat.add_sub_cancel' hi, Nat.zero_add] at hmag
  calc topDigits x i ≤ digitBase ^ i * topDigits x i := Nat.le_mul_of_pos_left _ (Nat.pow_pos digitBase_pos)
    _ ≤ x.mag := by rw [DeeInt.mag, hmag, topDigits]; exact Nat.le_add_left _ _

/-- When the digits above `i` do not leave room for the one at `i`, the absolute value does not fit either. -/
theorem le_mag_of_topDigits (hw : digitBits ≤ w) (hi : i < x.absSize)
    (htop : 2 ^ (w - digitBits) ≤ topDigits x (i + 1)) : 2 ^ w ≤ x.mag := by
  calc 2 ^ w = 2 ^ (w - digitBits) * digitBase := two_pow_split hw
    _ ≤ topDigits x (i + 1) * digitBase := Nat.mul_le_mul_right _ htop
    _ ≤ topDigits x i := by rw [topDigits_succ hi]; exact Nat.le_add_right _ _
    _ ≤ x.mag := topDigits_le_mag hi.le

theorem topDigits_lt (hx : x.WF) (hw : digitBits ≤ w) (hi : i < x.absSize)
    (htop : topDigits x (i + 1) < 2 ^ (w - digitBits)) : topDigits x i < 2 ^ w := by
  have hdigit := hx.cell_lt hi
  calc topDigits x i < (topDigits x (i + 1) + 1) * digitBase := by rw [topDigits_succ hi, Nat.succ_mul]; omega
    _ ≤ 2 ^ (w - digitBits) * digitBase := Nat.mul_le_mul_right _ htop
    _ = 2 ^ w := (two_pow_split hw).symm

/-- The loop gives the absolute value if it fits the word. -/
theorem tryGet_loop (hw : digitBits ≤ w) (hx : x.WF) :
    Ends (loop (tryGetRound w x.obDigit) (x.absSize + 1) (x.absSize, 0)) fun r =>
      r = if x.mag < 2 ^ w then some x.mag else none := by
  refine loop_ends (fun s => s.1 ≤ x.absSize ∧ s.2 = topDigits x s.1 ∧ s.2 < 2 ^ w) (fun s => s.1)
    ⟨le_rfl, by simp, by positivity⟩ (Nat.lt_succ_self _) ?_
  rintro ⟨i, prev⟩ ⟨hi, hvalue, hfits⟩
  dsimp only at hi hvalue hfits
  subst hvalue
  unfold tryGetRound
  cases i with
  | zero =>
    rw [topDigits_zero] at hfits ⊢
    refine Ends.pure ?_
    show some x.mag = _
    rw [if_pos hfits]
  | succ i =>
    have hdigit := hx.cell_lt (show i < x.absSize by omega)
    dsimp only
    rw [if_neg (Nat.succ_ne_zero i), Nat.add_sub_cancel, rd_of_lt (hx.lt_length (by omega)), some_bind,
      shiftIn_digit hw hdigit, shiftIn_digit_shiftRight hdigit]
    by_cases hlost : 2 ^ (w - digitBits) ≤ topDigits x (i + 1)
    · have hne := (lt_of_lt_of_le (Nat.mod_lt (topDigits x (i + 1)) (by positivity : 0 < 2 ^ (w - digitBits))) hlost).ne
      rw [if_pos hne]
      refine Ends.pure ?_
      show none = _
      rw [if_neg (not_lt.mpr (le_mag_of_topDigits hw hi hlost))]
    · have hprev := not_le.mp hlost
      rw [Nat.mod_eq_of_lt hprev, if_neg (not_not.mpr rfl), ← topDigits_succ hi]
      exact Ends.pure ⟨⟨by dsimp only; omega, rfl, topDigits_lt hx hw hi hprev⟩, Nat.lt_succ_self i⟩

/-- The number, if it fits a signed word of `w` bits. -/
def signedOf (w : ℕ) (n : ℤ) : Option ℤ := if -2 ^ (w - 1) ≤ n ∧ n < 2 ^ (w - 1) then some n else none

/-- The way from the size and the loop to the kind and the bits. `minusDigit` is what is stored for one digit with a
minus sign. -/
theorem tryGet_ends {rounds : Option (Option ℕ)} {minusDigit : ℕ → ℕ} (hw : digitBits < w) (hx : x.Canonical)
    (hminus : ∀ digit, 0 < digit → digit < digitBase → minusDigit digit = 2 ^ w - digit)
    (hrounds : Ends rounds fun r => r = if x.mag < 2 ^ w then some x.mag else none) :
    Ends (if x.obSize = 0 then some (IntKind.unsigned, 0)
      else if x.obSize = 1 then do
        let digit ← rd x.obDigit 0
        some (.unsigned, digit)
      else if x.obSize = -1 then do
        let digit ← rd x.obDigit 0
        some (.signed, minusDigit digit)
      else do
        match ← rounds with
        | none => some (if x.obSize < 0 then .negOverflow else .posOverflow, 0)
        | some resultValue =>
          if x.obSize < 0 then
            if 2 ^ (w - 1) < resultValue then some (.negOverflow, 0) else some (.signed, (2 ^ w - resultValue) % 2 ^ w)
          else some (.unsigned, resultValue)) fun r =>
    (0 ≤ x.toInt ∧ x.toInt < 2 ^ w ∧ r = (.unsigned, x.toInt.toNat)) ∨
    (2 ^ w ≤ x.toInt ∧ r.1 = .posOverflow) ∨
    (-2 ^ (w - 1) ≤ x.toInt ∧ x.toInt < 0 ∧ r = (.signed, (x.toInt + 2 ^ w).toNat)) ∨
    (x.toInt < -2 ^ (w - 1) ∧ r.1 = .negOverflow) := by
  have hsign := hx.toInt_neg_iff
  have habs := DeeInt.natAbs_toInt x
  have hpos : x.obSize ≠ 0 → 0 < x.mag := fun hne => hx.mag_pos (by unfold DeeInt.absSize; omega)
  have hone : x.absSize = 1 → x.mag = cell x.obDigit 0 ∧ x.mag < digitBase ∧ 0 < x.obDigit.length := by
    intro hsize
    have hmag : x.mag = cell x.obDigit 0 := by rw [DeeInt.mag, hsize, seg_one]
    exact ⟨hmag, hmag ▸ hx.cell_lt (by omega), hx.lt_length (by omega)⟩
  have hdouble : 2 ^ w = 2 * 2 ^ (w - 1) := by rw [← pow_succ', Nat.sub_add_cancel (by omega)]
  have hbase : digitBase ≤ 2 ^ (w - 1) := Nat.pow_le_pow_right (by norm_num) (Nat.le_sub_one_of_lt hw)
  have hcast : (2 : ℤ) ^ (w - 1) = ((2 ^ (w - 1) : ℕ) : ℤ) := by push_cast; rfl
  have hcast' : (2 : ℤ) ^ w = ((2 ^ w : ℕ) : ℤ) := by push_cast; rfl
  simp only [hcast, hcast']
  generalize 2 ^ (w - 1) = half, 2 ^ w = full at *
  split_ifs with hzero h1 h2 hneg
  · have h := DeeInt.toInt_of_absSize_zero (x := x) (by rw [DeeInt.absSize, hzero, Int.natAbs_zero])
    have hbase_pos := digitBase_pos
    exact Ends.pure (.inl ⟨by omega, by omega, by rw [h]; rfl⟩)
  · obtain ⟨hmag, hlt, hlength⟩ := hone (by rw [DeeInt.absSize, h1]; rfl)
    rw [rd_of_lt hlength, some_bind, ← hmag]
    exact Ends.pure (.inl ⟨by omega, by omega, by rw [DeeInt.toInt_of_nonneg (by omega), Int.toNat_natCast]⟩)
  · obtain ⟨hmag, hlt, hlength⟩ := hone (by rw [DeeInt.absSize, h2]; rfl)
    have hval := DeeInt.toInt_of_neg (x := x) (by omega)
    have hmpos := hpos hzero
    rw [rd_of_lt hlength, some_bind, ← hmag, hminus _ hmpos hlt]
    refine Ends.pure (.inr (.inr (.inl ⟨by omega, by omega, Prod.ext rfl ?_⟩)))
    dsimp only
    omega
  · have hval := DeeInt.toInt_of_neg hneg
    have hmpos := hpos hzero
    refine Ends.bind hrounds fun r hr => ?_
    split_ifs at hr with hfits
    · subst hr
      dsimp only
      split_ifs with hlarge
      · exact Ends.pure (.inr (.inr (.inr ⟨by omega, rfl⟩)))
      · refine Ends.pure (.inr (.inr (.inl ⟨by omega, by omega, Prod.ext rfl ?_⟩)))
        dsimp only
        rw [Nat.mod_eq_of_lt (by omega)]
        omega
    · subst hr
      exact Ends.pure (.inr (.inr (.inr ⟨by omega, rfl⟩)))
  · have hval := DeeInt.toInt_of_nonneg (not_lt.mp hneg)
    refine Ends.bind hrounds fun r hr => ?_
    split_ifs at hr with hfits
    · subst hr
      exact Ends.pure (.inl ⟨by omega, by omega, by rw [hval, Int.toNat_natCast]⟩)
    · subst hr
      exact Ends.pure (.inr (.inl ⟨by omega, rfl⟩))

/-- `DeeInt_TryGet32Bit` says which kind of number it is, and gives its bits if it fits. -/
theorem deeIntTryGet32Bit_ends (hx : x.Canonical) : Ends (deeIntTryGet32Bit x) fun r =>
    (0 ≤ x.toInt ∧ x.toInt < 2 ^ 32 ∧ r = (.unsigned, x.toInt.toNat)) ∨
    (2 ^ 32 ≤ x.toInt ∧ r.1 = .posOverflow) ∨
    (-2 ^ 31 ≤ x.toInt ∧ x.toInt < 0 ∧ r = (.signed, (x.toInt + 2 ^ 32).toNat)) ∨
    (x.toInt < -2 ^ 31 ∧ r.1 = .negOverflow) :=
  @tryGet_ends 32 _ _ (fun digit => (2 ^ 32 - digit) % 2 ^ 32) (by norm_num) hx
    (fun digit hpos _ => Nat.mod_eq_of_lt (Nat.sub_lt (by norm_num) hpos)) (tryGet_loop (by norm_num) hx.toWF)

/-- The number itself, unless it does not fit a signed word. -/
theorem asSigned_eq (hw : 0 < w) (h : (0 ≤ n ∧ n < 2 ^ w ∧ r = (.unsigned, n.toNat)) ∨
    (2 ^ w ≤ n ∧ r.1 = .posOverflow) ∨ (-2 ^ (w - 1) ≤ n ∧ n < 0 ∧ r = (.signed, (n + 2 ^ w).toNat)) ∨
    (n < -2 ^ (w - 1) ∧ r.1 = .negOverflow)) : asSigned w r = signedOf w n := by
  obtain ⟨kind, bits⟩ := r
  have hdouble : (2 : ℤ) ^ w = 2 * 2 ^ (w - 1) := by rw [← pow_succ', Nat.sub_add_cancel hw]
  have hcast : (2 : ℤ) ^ (w - 1) = ((2 ^ (w - 1) : ℕ) : ℤ) := by push_cast; rfl
  have hpos : 0 < 2 ^ (w - 1) := by positivity
  rw [hdouble, hcast] at h
  unfold signedOf
  rw [hcast]
  rcases h with ⟨h0, h1, hr⟩ | ⟨h0, hr⟩ | ⟨h0, h1, hr⟩ | ⟨h0, hr⟩
  · obtain ⟨rfl, rfl⟩ := Prod.mk.inj hr
    unfold asSigned castSigned
    rw [hdouble, hcast]
    generalize 2 ^ (w - 1) = bound at *
    dsimp only
    by_cases hlt : n < bound
    · rw [if_neg (by omega), if_pos (by omega), if_pos (by omega), Int.toNat_of_nonneg h0]
    · rw [if_pos (by omega), if_neg (by omega)]
  · obtain rfl : kind = .posOverflow := hr
    exact (if_neg (by omega)).symm
  · obtain ⟨rfl, rfl⟩ := Prod.mk.inj hr
    unfold asSigned castSigned
    rw [hdouble, hcast]
    generalize 2 ^ (w - 1) = bound at *
    dsimp only
    rw [if_neg (by omega), if_pos (by omega)]
    congr 1
    omega
  · obtain rfl : kind = .negOverflow := hr
    exact (if_neg (by omega)).symm

theorem tryAsInt32_eq (hx : x.Canonical) : deeIntTryAsInt32 x = some (signedOf 32 x.toInt) := by
  obtain ⟨r, hr, hcases⟩ := deeIntTryGet32Bit_ends hx
  rw [deeIntTryAsInt32, hr, Option.map_some, asSigned_eq (by norm_num) hcases]

theorem tryAsInt64_eq (hx : x.Canonical) : deeIntTryAsInt64 x = some (signedOf 64 x.toInt) := by
  obtain ⟨r, hr, hcases⟩ := deeIntTryGet64Bit_ends hx
  rw [deeIntTryAsInt64, hr, Option.map_some, asSigned_eq (by norm_num) hcases]

end TryGet

end Deemon.Int
