import Deemon.Int.BitExtract
import Deemon.Int.FixedWidth

/-!
# Questions about the bits of an integer

The getters `popcount`, `ffs`, `ctz`, `ct1`, `fls`, `msb` and `bitmask` of `int`. The three that count from the low end
go over the digits of the two's complement, which for a negative number are complemented on the way with a carry; the
others want a number that is not negative.
-/

namespace Deemon.Int

open Deemon.Run Deemon.Radix Deemon.Bits Deemon.Gather DeeInt

/-! ### The getters -/

/-- The errors of the getters. -/
inductive QueryError where
  /-- `DeeRT_ErrIntegerOverflow`. -/
  | integerOverflow (error : IntegerOverflow)
  /-- `DeeRT_ErrDivideByZero`. -/
  | divideByZero (lhs rhs : ℤ)
  deriving DecidableEq, Repr

/-- What a getter gives back, an object or `NULL`, and the error it leaves raised. -/
structure Returned where
  object : Option DeeInt
  error : Option QueryError
  deriving DecidableEq, Repr

/-- `return DeeInt_NewSize(result);`. -/
def returnSize (result : ℕ) : Option Returned := do some ⟨some (← deeIntNewUInt64 result), none⟩

/-- An `IntegerOverflow` below a smallest value. -/
def raiseTooSmall (self : DeeInt) (minval : ℤ) : Option Returned :=
  some ⟨none, some (.integerOverflow ⟨self.toInt, some minval, none, false⟩)⟩

/-- `CTZ`, of a word of 32 bits that is not zero. -/
def wordCtz (w : ℕ) : Option ℕ := if w = 0 then none else some ((List.range 32).findIdx w.testBit)

/-- `CLZ`, of a word of 32 bits that is not zero. -/
def wordClz (w : ℕ) : Option ℕ := if w = 0 then none else some (31 - w.log2)

/-- `int_get_popcount`. -/
def intGetPopcount (self : DeeInt) : Option Returned :=
  if self.obSize < 0 then raiseTooSmall self 0
  else do
    returnSize (← forLoop (fun i result => do
      some (result + popcount digitBits (← rd self.obDigit i))) 0 self.absSize 0)

/-- The loops of `int_get_ffs` and `int_get_ctz`: up to the lowest digit that is not zero. -/
def ctzRound (neg : Bool) (self : DeeInt) : ℕ × ℕ × ℕ → Option (Step (ℕ × ℕ × ℕ) ℕ)
  | (i, carry, result) => do
    assert (i < self.absSize)
    let (d, carry) := twosDigit neg carry (← rd self.obDigit i)
    if d ≠ 0 then do some (.done (result + (← wordCtz d))) else some (.next (i + 1, carry, result + digitBits))

/-- `int_get_ffs`. -/
def intGetFfs (self : DeeInt) : Option Returned := do
  if 0 < self.obSize then returnSize (← loop (ctzRound false self) (self.absSize + 1) (0, 1, 1))
  else if self.obSize < 0 then returnSize (← loop (ctzRound true self) (self.absSize + 1) (0, 1, 1))
  else returnSize 0

/-- `int_get_ctz`. -/
def intGetCtz (self : DeeInt) : Option Returned := do
  if 0 < self.obSize then returnSize (← loop (ctzRound false self) (self.absSize + 1) (0, 1, 0))
  else if self.obSize < 0 then returnSize (← loop (ctzRound true self) (self.absSize + 1) (0, 1, 0))
  else some ⟨none, some (.divideByZero self.toInt self.toInt)⟩

/-- `while (d & 1) { ++result; d >>= 1; }`. -/
def countOnes (d result : ℕ) : Option ℕ :=
  loop (fun (d, result) => some (if d &&& 1 ≠ 0 then .next (d >>> 1, result + 1) else .done result)) (d + 1) (d, result)

/-- The loops of `int_get_ct1`: up to the lowest digit that is not all ones, or to the end. The carry behind the last
digit read is kept. -/
def ct1Round (neg : Bool) (self : DeeInt) : ℕ × ℕ × ℕ → Option (Step (ℕ × ℕ × ℕ) (ℕ × ℕ))
  | (i, carry, result) =>
    if i < self.absSize then do
      let (d, carry) := twosDigit neg carry (← rd self.obDigit i)
      if d ≠ digitMask then do some (.done (carry, ← countOnes d result))
      else some (.next (i + 1, carry, result + digitBits))
    else some (.done (carry, result))

/-- `int_get_ct1`. -/
def intGetCt1 (self : DeeInt) : Option Returned := do
  if 0 < self.obSize then do
    let (_, result) ← loop (ct1Round false self) (self.absSize + 1) (0, 1, 0)
    returnSize result
  else if self.obSize < 0 then do
    let (carry, result) ← loop (ct1Round true self) (self.absSize + 1) (0, 1, 0)
    -- meant for -1, but the carry is also left over when the lowest digit is zero
    if carry ≠ 0 then raiseTooSmall self 0 else returnSize result
  else returnSize 0

/-- `int_get_fls`. -/
def intGetFls (self : DeeInt) : Option Returned :=
  if self.obSize ≤ 0 then
    if self.obSize = 0 then some ⟨some deeIntNewZero, none⟩ else raiseTooSmall self 0
  else do
    let msbDigit ← rd self.obDigit (self.absSize - 1)
    returnSize ((self.absSize - 1) * digitBits + 32 - (← wordClz msbDigit))

/-- `int_get_msb`. -/
def intGetMsb (self : DeeInt) : Option Returned :=
  if self.obSize ≤ 0 then raiseTooSmall self 1
  else do
    let msbDigit ← rd self.obDigit (self.absSize - 1)
    returnSize ((self.absSize - 1) * digitBits + 31 - (← wordClz msbDigit))

/-- `int_get_bitmask`, with `held` in the variable `n_bits` before. `DeeInt_AsSize` is `DeeInt_AsUInt64`. -/
def intGetBitmask (self : DeeInt) (held : ℕ) : Option Returned := do
  let got ← deeIntAsUInt64 self
  let error := got.error.map QueryError.integerOverflow
  if got.code ≠ 0 then some ⟨none, error⟩
  else do
    let nBits := got.result.getD held
    if nBits = 0 then some ⟨some deeIntNewZero, error⟩
    else do
      let nDigits := (nBits + (digitBits - 1)) % 2 ^ 64 / digitBits
      let result := deeIntAlloc nDigits
      let digits ← fillCells result.obDigit 0 digitMask ((nDigits + 2 ^ 64 - 1) % 2 ^ 64)
      let lastDigitBits := digitBits - (nDigits * digitBits - nBits)
      let digits ← wr digits (nDigits - 1) (1 <<< lastDigitBits - 1)
      some ⟨some ⟨nDigits, digits⟩, error⟩

/-! ### What they are asked for -/

/-- The lowest bit `b` of the two's complement is at `n`. -/
def LowestBit (b : Bool) (x : ℤ) (n : ℕ) : Prop := (∀ i < n, x.testBit i = !b) ∧ x.testBit n = b

/-- The highest set bit is at `n`. -/
def HighestBit (x : ℤ) (n : ℕ) : Prop := x.testBit n = true ∧ ∀ i, n < i → x.testBit i = false

/-- A canonical integer is given back, and no error is raised. -/
def Answers (run : Option Returned) (n : ℤ) : Prop :=
  Ends run fun r => ∃ z : DeeInt, r = ⟨some z, none⟩ ∧ z.Canonical ∧ z.toInt = n

/-- `NULL` is given back, with an error. -/
def Raises (run : Option Returned) : Prop := Ends run fun r => r.object = none ∧ r.error.isSome

/-- The getters follow the two's complement of the number, and raise errors outside their domains. -/
structure FollowsBits (v : DeeInt) : Prop where
  popcount_neg : v.toInt < 0 → Raises (intGetPopcount v)
  popcount : 0 ≤ v.toInt → Answers (intGetPopcount v) (bitCount v.toInt.testBit v.toInt.natAbs.size)
  ffs_zero : v.toInt = 0 → Answers (intGetFfs v) 0
  ffs : v.toInt ≠ 0 → ∃ n, LowestBit true v.toInt n ∧ Answers (intGetFfs v) (n + 1)
  ctz_zero : v.toInt = 0 → Raises (intGetCtz v)
  ctz : v.toInt ≠ 0 → ∃ n, LowestBit true v.toInt n ∧ Answers (intGetCtz v) n
  ct1_minusOne : v.toInt = -1 → Raises (intGetCt1 v)
  ct1 : v.toInt ≠ -1 → ∃ n, LowestBit false v.toInt n ∧ Answers (intGetCt1 v) n
  fls_neg : v.toInt < 0 → Raises (intGetFls v)
  fls_zero : v.toInt = 0 → Answers (intGetFls v) 0
  fls : 0 < v.toInt → ∃ n, HighestBit v.toInt n ∧ Answers (intGetFls v) (n + 1)
  msb_raises : v.toInt ≤ 0 → Raises (intGetMsb v)
  msb : 0 < v.toInt → ∃ n, HighestBit v.toInt n ∧ Answers (intGetMsb v) n
  bitmask_raises : v.toInt < 0 ∨ 2 ^ 64 ≤ v.toInt → ∀ held < 2 ^ 64, Raises (intGetBitmask v held)
  bitmask : 0 ≤ v.toInt → v.toInt < 2 ^ 64 → ∀ held < 2 ^ 64, Answers (intGetBitmask v held) (2 ^ v.toInt.toNat - 1)

/-! ### Bits of one digit -/

section OneDigit

variable {x : ℤ} {b : Bool} {v : DeeInt} {d i k w : ℕ}

theorem returnSize_answers (n : ℕ) : Answers (returnSize n) n :=
  Ends.bind (newUnsigned_ends n) fun z hz => Ends.pure ⟨z, rfl, hz.1, hz.2⟩

theorem raiseTooSmall_raises (minval : ℤ) : Raises (raiseTooSmall v minval) := Ends.pure ⟨rfl, rfl⟩

/-- Nothing is given back and left out at the same time. -/
theorem Answers.not_raises {run : Option Returned} {n : ℤ} (h : Answers run n) : ¬Raises run := by
  rintro ⟨r, hr, hobject, -⟩
  obtain ⟨r', hr', z, hz, -⟩ := h
  obtain rfl : r = r' := Option.some.inj (hr.symm.trans hr')
  rw [hz] at hobject
  cases hobject

/-- `CTZ` is the position of the lowest set bit. -/
theorem wordCtz_ends (h0 : w ≠ 0) (hw : w < 2 ^ 32) :
    Ends (wordCtz w) fun k => (∀ j < k, w.testBit j = false) ∧ w.testBit k = true := by
  obtain ⟨m, hm⟩ := Nat.exists_testBit_of_ne_zero h0
  have hlt : m < 32 := by
    by_contra hge
    rw [Nat.testBit_eq_false_of_lt (lt_of_lt_of_le hw (Nat.pow_le_pow_right (by norm_num) (not_lt.mp hge)))] at hm
    cases hm
  have hfound : (List.range 32).findIdx w.testBit < (List.range 32).length :=
    List.findIdx_lt_length_of_exists ⟨m, List.mem_range.mpr hlt, hm⟩
  unfold wordCtz
  rw [if_neg h0]
  refine Ends.pure ⟨fun j hj => ?_, ?_⟩
  · have hnot := List.not_of_lt_findIdx hj
    rwa [List.getElem_range] at hnot
  · have hget := List.findIdx_getElem (w := hfound)
    rwa [List.getElem_range] at hget

/-- The position of the lowest bit `b`, from its digit. -/
theorem LowestBit.of_digit (hbelow : ∀ j < digitBits * i, x.testBit j = !b) (hd : DigitOf x i d) (hk : k < digitBits)
    (hlow : ∀ j < k, d.testBit j = !b) (hbit : d.testBit k = b) : LowestBit b x (digitBits * i + k) := by
  constructor
  · intro j hj
    by_cases hfar : j < digitBits * i
    · exact hbelow j hfar
    · have hj' := hd.testBit (j - digitBits * i) (by omega)
      rw [Nat.add_sub_cancel' (not_lt.mp hfar)] at hj'
      rw [← hj', hlow _ (by omega)]
  · rw [← hd.testBit k hk, hbit]

/-- A whole digit of the other bit. -/
theorem below_succ (hbelow : ∀ j < digitBits * i, x.testBit j = !b) (hd : DigitOf x i d)
    (hall : ∀ j < digitBits, d.testBit j = !b) : ∀ j < digitBits * (i + 1), x.testBit j = !b := by
  intro j hj
  by_cases hfar : j < digitBits * i
  · exact hbelow j hfar
  · rw [Nat.mul_succ] at hj
    have hj' := hd.testBit (j - digitBits * i) (by omega)
    rw [Nat.add_sub_cancel' (not_lt.mp hfar)] at hj'
    rw [← hj', hall _ (by omega)]

theorem digitMask_testBit (j : ℕ) : digitMask.testBit j = decide (j < digitBits) := Nat.testBit_two_pow_sub_one 30 j

/-- The loop counts the ones at the low end of the digit. -/
theorem countOnes_ends (result : ℕ) : Ends (countOnes d result) fun r =>
    ∃ k, r = result + k ∧ (∀ j < k, d.testBit j = true) ∧ d.testBit k = false := by
  refine loop_ends (fun s => ∃ k, s = (d >>> k, result + k) ∧ ∀ j < k, d.testBit j = true) (fun s => s.1)
    ⟨0, rfl, by simp⟩ (Nat.lt_succ_self d) ?_
  rintro _ ⟨k, rfl, hones⟩
  dsimp only
  by_cases hbit : d.testBit k = true
  · rw [if_pos (and_one_ne_zero.mpr (testBit_shiftRight_zero.trans hbit))]
    refine Ends.pure ⟨⟨k + 1, by rw [Nat.shiftRight_add]; rfl, fun j hj => ?_⟩, ?_⟩
    · rcases Nat.lt_succ_iff_lt_or_eq.mp hj with hlt | rfl
      · exact hones j hlt
      · exact hbit
    · refine shiftRight_one_lt fun hzero => ?_
      rw [testBit_of_shiftRight_eq_zero hzero le_rfl] at hbit
      cases hbit
  · rw [if_neg (mt and_one_ne_zero.mp fun h => hbit (testBit_shiftRight_zero.symm.trans h))]
    exact Ends.pure ⟨k, rfl, hones, Bool.not_eq_true _ ▸ hbit⟩

/-- A digit that is not all ones has a zero. -/
theorem ones_lt_digitBits (hd : d < digitBase) (hne : d ≠ digitMask) (hones : ∀ j < k, d.testBit j = true) :
    k < digitBits := by
  by_contra hge
  refine hne (Nat.eq_of_testBit_eq fun j => ?_)
  rw [digitMask_testBit]
  by_cases hj : j < digitBits
  · rw [decide_eq_true hj, hones j (by omega)]
  · rw [decide_eq_false hj]
    exact Nat.testBit_eq_false_of_lt (lt_of_lt_of_le hd (Nat.pow_le_pow_right (by norm_num) (not_lt.mp hj)))

theorem twosDigit_one_eq_zero {neg : Bool} (hd : d < digitBase) :
    (twosDigit neg 1 d).1 = 0 ↔ d = 0 := by
  cases neg with
  | false => exact Iff.rfl
  | true =>
    simp only [twosDigit, if_true, xor_digitMask hd, and_digitMask]
    unfold digitBase digitMask at *
    omega

theorem twosDigit_one_zero (neg : Bool) : twosDigit neg 1 0 = (0, 1) := by cases neg <;> decide

end OneDigit

/-! ### The scans -/

section Scans

variable {v : DeeInt}

theorem decide_neg_of_pos {n : ℤ} (h : 0 ≤ n) : decide (n < 0) = false := decide_eq_false (not_lt.mpr h)

section Queries

variable (hv : v.Canonical)
include hv

/-- The scan for a digit that is not zero finds the lowest set bit. -/
theorem ctzLoop_ends (hne : v.toInt ≠ 0) (start : ℕ) :
    Ends (loop (ctzRound (decide (v.obSize < 0)) v) (v.absSize + 1) (0, 1, start)) fun r =>
      ∃ n, r = start + n ∧ LowestBit true v.toInt n := by
  -- the digits in front are zero, so the carry is still one
  refine loop_ends (fun s => s.1 ≤ v.absSize ∧ s.2 = (1, start + digitBits * s.1) ∧
    seg digitBase v.obDigit 0 s.1 = 0 ∧ ∀ j < digitBits * s.1, v.toInt.testBit j = !true)
    (fun s => v.absSize - s.1) ⟨Nat.zero_le _, by simp, by simp, by simp⟩ (by simp) ?_
  rintro ⟨i, carry, result⟩ ⟨hi, hstate, hseg, hbelow⟩
  dsimp only at hi hstate hseg hbelow
  obtain ⟨rfl, rfl⟩ := Prod.mk.inj hstate
  have hlt : i < v.absSize := by
    refine lt_of_le_of_ne hi fun heq => hne ?_
    have hmag : v.mag = 0 := by rw [mag, ← heq, hseg]
    have habs := natAbs_toInt v
    omega
  have hcell := hv.cell_lt hlt
  have hcarry : v.obSize < 0 → 1 = twosCarry v.obDigit i := fun _ => by rw [twosCarry, if_pos hseg]
  obtain ⟨hdigit, -⟩ := twosDigit_spec hv hlt hcarry
  unfold ctzRound
  dsimp only
  rw [assert_of hlt, some_bind, rd_of_lt (hv.lt_length hlt), some_bind]
  by_cases hzero : cell v.obDigit i = 0
  · rw [hzero, twosDigit_one_zero] at hdigit ⊢
    rw [if_neg (by simp)]
    refine Ends.pure ⟨⟨hlt, ?_, ?_, ?_⟩, by dsimp only; omega⟩
    · rw [Nat.mul_succ, Nat.add_assoc]
    · rw [seg_succ, hseg, Nat.zero_add, Nat.zero_add, hzero, Nat.zero_mul]
    · exact below_succ hbelow hdigit fun j _ => Nat.zero_testBit j
  · have hd : (twosDigit (decide (v.obSize < 0)) 1 (cell v.obDigit i)).1 ≠ 0 := mt (twosDigit_one_eq_zero hcell).mp hzero
    rw [if_pos hd]
    refine Ends.bind (wordCtz_ends hd (hdigit.lt.trans (by norm_num [digitBase]))) fun k hlowest => ?_
    obtain ⟨hlow, hbit⟩ := hlowest
    have hk : k < digitBits := by
      by_contra hge
      rw [Nat.testBit_eq_false_of_lt (lt_of_lt_of_le hdigit.lt (Nat.pow_le_pow_right (by norm_num) (not_lt.mp hge)))] at hbit
      cases hbit
    exact Ends.pure ⟨digitBits * i + k, Nat.add_assoc _ _ _, LowestBit.of_digit hbelow hdigit hk hlow hbit⟩

/-- The two getters that look for the lowest set bit differ in where they start to count. -/
theorem ctzGetter_ends (hne : v.toInt ≠ 0) (start : ℕ) (zero : Option Returned) :
    ∃ n, LowestBit true v.toInt n ∧ Answers (do
      if 0 < v.obSize then returnSize (← loop (ctzRound false v) (v.absSize + 1) (0, 1, start))
      else if v.obSize < 0 then returnSize (← loop (ctzRound true v) (v.absSize + 1) (0, 1, start))
      else zero) (start + n : ℕ) := by
  have hzero : v.obSize ≠ 0 := fun h => hne (toInt_of_absSize_zero (by rw [absSize, h]; rfl))
  obtain ⟨r, hr, n, rfl, hlowest⟩ := ctzLoop_ends hv hne start
  refine ⟨n, hlowest, ?_⟩
  by_cases hpos : 0 < v.obSize
  · rw [if_pos hpos]
    rw [decide_neg_of_pos hpos.le] at hr
    rw [hr, some_bind]
    exact returnSize_answers _
  · have hneg : v.obSize < 0 := by omega
    rw [if_neg hpos, if_pos hneg]
    rw [decide_eq_true hneg] at hr
    rw [hr, some_bind]
    exact returnSize_answers _

/-- What `int_get_ct1` leaves its loop with: the carry says whether the lowest digit of a negative number is zero, and
the lowest zero is found unless all bits are ones. -/
theorem ct1Loop_ends :
    Ends (loop (ct1Round (decide (v.obSize < 0)) v) (v.absSize + 1) (0, 1, 0)) fun (carry, result) =>
      (v.toInt ≠ -1 → LowestBit false v.toInt result) ∧ (v.obSize < 0 → (carry ≠ 0 ↔ cell v.obDigit 0 = 0)) := by
  refine loop_ends (fun s => s.1 ≤ v.absSize ∧ s.2.2 = digitBits * s.1 ∧
    (v.obSize < 0 → s.2.1 = twosCarry v.obDigit s.1) ∧ ∀ j < digitBits * s.1, v.toInt.testBit j = !false)
    (fun s => v.absSize - s.1) ⟨Nat.zero_le _, by simp, by simp [twosCarry], by simp⟩ (by simp) ?_
  rintro ⟨i, carry, result⟩ ⟨hi, hresult, hcarry, hbelow⟩
  dsimp only at hi hresult hcarry hbelow
  subst hresult
  -- a zero as the lowest digit ends the loop in the first round
  have hfirst : v.obSize < 0 → 0 < i → cell v.obDigit 0 ≠ 0 := by
    intro hneg hpos hzero
    have hcarry : v.obSize < 0 → 1 = twosCarry v.obDigit 0 := fun _ => by simp [twosCarry]
    have hdigit := (twosDigit_spec hv (by omega) hcarry).1
    rw [hzero, twosDigit_one_zero] at hdigit
    have hbit := hdigit.testBit 0 (by norm_num [digitBits])
    rw [Nat.zero_testBit, Nat.mul_zero, Nat.zero_add, hbelow 0 (Nat.mul_pos (by norm_num [digitBits]) hpos)] at hbit
    cases hbit
  unfold ct1Round
  dsimp only
  by_cases hlt : i < v.absSize
  · obtain ⟨hdigit, hnext⟩ := twosDigit_spec hv hlt hcarry
    rw [if_pos hlt, rd_of_lt (hv.lt_length hlt), some_bind]
    by_cases hmask : (twosDigit (decide (v.obSize < 0)) carry (cell v.obDigit i)).1 = digitMask
    · rw [if_neg (not_not.mpr hmask)]
      rw [hmask] at hdigit
      refine Ends.pure ⟨⟨hlt, (Nat.mul_succ _ _).symm, hnext, below_succ hbelow hdigit fun j hj => ?_⟩, by dsimp only; omega⟩
      rw [digitMask_testBit, decide_eq_true hj]
      rfl
    · rw [if_pos hmask]
      refine Ends.bind (countOnes_ends _) ?_
      rintro _ ⟨k, rfl, hones, hbit⟩
      refine Ends.pure ⟨fun _ => LowestBit.of_digit hbelow hdigit (ones_lt_digitBits hdigit.lt hmask hones) hones hbit, ?_⟩
      intro hneg
      have hcarry_iff : twosCarry v.obDigit (i + 1) ≠ 0 ↔ seg digitBase v.obDigit 0 (i + 1) = 0 := by
        unfold twosCarry
        split_ifs with h <;> simp [h]
      rw [hnext hneg, hcarry_iff, seg_succ_front, Nat.add_eq_zero_iff]
      refine ⟨fun h => h.1, fun h => ⟨h, ?_⟩⟩
      obtain rfl : i = 0 := by
        by_contra hpos
        exact hfirst hneg (Nat.pos_of_ne_zero hpos) h
      rw [seg_zero, Nat.mul_zero]
  · rw [if_neg hlt]
    obtain rfl : i = v.absSize := by omega
    refine Ends.pure ⟨fun hne => ⟨hbelow, ?_⟩, fun hneg => ?_⟩
    · rw [testBit_behind hv le_rfl]
      refine decide_eq_false fun hneg => hne (testBit_ext fun j => ?_)
      rw [testBit_neg_one]
      by_cases hj : j < digitBits * v.absSize
      · exact hbelow j hj
      · rw [testBit_behind hv (not_lt.mp hj), decide_eq_true hneg]
    · have hmag : 0 < v.mag := hv.mag_pos (by unfold absSize; omega)
      have hpos : 0 < v.absSize := by unfold absSize; omega
      rw [hcarry hneg]
      have hne : seg digitBase v.obDigit 0 v.absSize ≠ 0 := hmag.ne'
      rw [twosCarry, if_neg hne]
      exact iff_of_false (not_not.mpr rfl) (hfirst hneg hpos)

/-- The highest set bit is the one of the highest digit, which is not zero. -/
theorem topDigit_highest (hpos : 0 < v.obSize) :
    ∃ d, rd v.obDigit (v.absSize - 1) = some d ∧ wordClz d = some (31 - d.log2) ∧ d.log2 < digitBits ∧
      HighestBit v.toInt ((v.absSize - 1) * digitBits + d.log2) := by
  obtain ⟨m, hm⟩ : ∃ m, v.absSize = m + 1 := ⟨v.absSize - 1, by unfold absSize; omega⟩
  have htop := hv.top (by omega)
  have hdigit := digitOf_cell hv hpos.le (i := m) (by omega)
  rw [hm, Nat.add_sub_cancel] at htop ⊢
  have hlog : (cell v.obDigit m).log2 < digitBits := (Nat.log2_lt htop).mpr hdigit.lt
  refine ⟨cell v.obDigit m, rd_of_lt (hv.lt_length (by omega)), if_neg htop, hlog, ?_, fun j hj => ?_⟩
  · rw [Nat.mul_comm, ← hdigit.testBit _ hlog, Nat.testBit_log2 htop]
  · by_cases hbehind : digitBits * v.absSize ≤ j
    · rw [testBit_behind hv hbehind, decide_neg_of_pos hpos.le]
    · rw [hm, Nat.mul_succ] at hbehind
      rw [Nat.mul_comm] at hj
      have hbit := hdigit.testBit (j - digitBits * m) (by omega)
      rw [Nat.add_sub_cancel' (by omega)] at hbit
      rw [← hbit]
      exact Nat.testBit_lt_two_pow (lt_of_lt_of_le (Nat.lt_log2_self) (Nat.pow_le_pow_right (by norm_num) (by omega)))

theorem intGetFfs_answers (hne : v.toInt ≠ 0) :
    ∃ n : ℕ, LowestBit true v.toInt n ∧ Answers (intGetFfs v) (n + 1) := by
  obtain ⟨n, hn, hanswers⟩ := ctzGetter_ends hv hne 1 (returnSize 0)
  have hsum : (n : ℤ) + 1 = ((1 + n : ℕ) : ℤ) := by push_cast; ring
  refine ⟨n, hn, ?_⟩
  rw [hsum]
  exact hanswers

theorem intGetCtz_answers (hne : v.toInt ≠ 0) : ∃ n : ℕ, LowestBit true v.toInt n ∧ Answers (intGetCtz v) n := by
  obtain ⟨n, hn, hanswers⟩ := ctzGetter_ends hv hne 0 (some ⟨none, some (.divideByZero v.toInt v.toInt)⟩)
  rw [Nat.zero_add] at hanswers
  exact ⟨n, hn, hanswers⟩

theorem intGetFls_answers (hpos : 0 < v.obSize) : ∃ n : ℕ, HighestBit v.toInt n ∧ Answers (intGetFls v) (n + 1) := by
  obtain ⟨d, hd, hclz, hlog, hhighest⟩ := topDigit_highest hv hpos
  have hsum : (v.absSize - 1) * digitBits + 32 - (31 - d.log2) = (v.absSize - 1) * digitBits + d.log2 + 1 := by
    unfold digitBits at *
    omega
  refine ⟨_, hhighest, ?_⟩
  unfold intGetFls
  rw [if_neg (by omega), hd, some_bind, hclz, some_bind, hsum]
  exact_mod_cast returnSize_answers ((v.absSize - 1) * digitBits + d.log2 + 1)

theorem intGetMsb_answers (hpos : 0 < v.obSize) : ∃ n : ℕ, HighestBit v.toInt n ∧ Answers (intGetMsb v) n := by
  obtain ⟨d, hd, hclz, hlog, hhighest⟩ := topDigit_highest hv hpos
  have hsum : (v.absSize - 1) * digitBits + 31 - (31 - d.log2) = (v.absSize - 1) * digitBits + d.log2 := by
    unfold digitBits at *
    omega
  refine ⟨_, hhighest, ?_⟩
  unfold intGetMsb
  rw [if_neg (by omega), hd, some_bind, hclz, some_bind, hsum]
  exact returnSize_answers _

theorem intGetPopcount_answers (hpos : 0 ≤ v.obSize) :
    Answers (intGetPopcount v) (bitCount v.toInt.testBit v.toInt.natAbs.size) := by
  have hsize : v.toInt.natAbs.size ≤ digitBits * v.absSize := by
    rw [natAbs_toInt, Nat.size_le, pow_mul]
    exact hv.mag_lt
  have hcount : bitCount v.toInt.testBit (digitBits * v.absSize) = bitCount v.toInt.testBit v.toInt.natAbs.size := by
    obtain ⟨k, hk⟩ := Nat.exists_eq_add_of_le hsize
    have hrest : bitCount (fun i => v.toInt.testBit (v.toInt.natAbs.size + i)) k = 0 := by
      refine bitCount_eq_zero fun i _ => ?_
      rw [natAbs_toInt, toInt_of_nonneg hpos]
      exact Nat.testBit_eq_false_of_lt
        (lt_of_lt_of_le (Nat.lt_size_self _) (Nat.pow_le_pow_right (by norm_num) (Nat.le_add_right _ i)))
    rw [hk, bitCount_add, hrest, Nat.add_zero]
  unfold intGetPopcount
  rw [if_neg (not_lt.mpr hpos)]
  refine Ends.bind (countBits_ends hv.len fun i hi => digitOf_cell hv hpos hi) fun n hn => ?_
  rw [← hcount, ← hn]
  exact returnSize_answers n

end Queries

end Scans

/-! ### The bit mask -/

section Bitmask

variable {v : DeeInt} {held n : ℕ} {l : List ℕ}

theorem seg_digitMask (h : ∀ i < n, cell l i = digitMask) : seg digitBase l 0 n + 1 = digitBase ^ n := by
  induction n with
  | zero => rfl
  | succ n ih =>
    have hprev := ih fun i hi => h i (Nat.lt_succ_of_lt hi)
    rw [seg_succ, Nat.zero_add, h n (Nat.lt_succ_self n), pow_succ, ← hprev]
    unfold digitBase digitMask
    ring

/-- Digits of ones with the rest of the ones on top are the mask. -/
theorem ones_toInt {bits : ℕ} (hlen : n < l.length) (hmask : ∀ i < n, cell l i = digitMask)
    (htop : cell l n = 2 ^ bits - 1) (h0 : 0 < bits) (hbits : bits ≤ digitBits) :
    DeeInt.Canonical ⟨n + 1, l⟩ ∧ DeeInt.toInt ⟨n + 1, l⟩ = 2 ^ (digitBits * n + bits) - 1 := by
  have hsize : DeeInt.absSize ⟨n + 1, l⟩ = n + 1 := rfl
  have hpow : 2 ^ bits ≤ digitBase := Nat.pow_le_pow_right (by norm_num) hbits
  have htwo : 2 ≤ 2 ^ bits := by
    calc 2 = 2 ^ 1 := rfl
      _ ≤ 2 ^ bits := Nat.pow_le_pow_right (by norm_num) h0
  refine ⟨⟨⟨by rw [hsize]; exact hlen, fun i hi => ?_⟩, fun _ => ?_⟩, ?_⟩
  · rw [hsize] at hi
    rw [Nat.zero_add]
    rcases Nat.lt_succ_iff_lt_or_eq.mp hi with hlt | rfl
    · rw [hmask i hlt]
      unfold digitMask digitBase
      omega
    · rw [htop]
      omega
  · rw [hsize, Nat.add_sub_cancel, htop]
    omega
  · have hmag : DeeInt.mag ⟨n + 1, l⟩ + 1 = 2 ^ (digitBits * n + bits) := by
      rw [mag, hsize, seg_succ, Nat.zero_add, htop, pow_add, pow_mul, show 2 ^ digitBits = digitBase from rfl,
        Nat.add_right_comm, seg_digitMask hmask, Nat.sub_mul, one_mul, Nat.mul_comm (digitBase ^ n)]
      have hle : digitBase ^ n ≤ 2 ^ bits * digitBase ^ n := Nat.le_mul_of_pos_left _ (by omega)
      omega
    rw [toInt_of_nonneg (by dsimp only; omega)]
    have hcast := congrArg (Nat.cast (R := ℤ)) hmag
    push_cast at hcast
    linarith

theorem fillCells_nil (hn : n ≠ 0) : fillCells [] 0 digitMask n = none := by
  cases n with
  | zero => exact absurd rfl hn
  | succ n => rfl

/-- What `DeeInt_AsSize` says of a size. -/
theorem asSize_of_fits (hv : v.Canonical) (h0 : 0 ≤ v.toInt) (h1 : v.toInt < 2 ^ 64) :
    deeIntAsUInt64 v = some ⟨0, some v.toInt.toNat, none⟩ := by
  obtain ⟨out, hout, hasked⟩ := asUInt_ends hv .w64
  have hfits : Fits 64 v.toInt := ⟨le_trans (by norm_num) h0, h1⟩
  rw [show deeIntAsUInt64 v = Width.asUInt .w64 v from rfl, hout, (hasked.1 hfits).success h0 h1]
  rw [show Width.w64.bits = 64 from rfl, wordOf_of_nonneg h0 h1]

/-- The digits are those of the mask, as long as their number does not wrap around to zero. -/
theorem intGetBitmask_answers (hv : v.Canonical) (h0 : 0 ≤ v.toInt) (h1 : v.toInt < 2 ^ 64 - 29) :
    Answers (intGetBitmask v held) (2 ^ v.toInt.toNat - 1) := by
  unfold intGetBitmask
  rw [asSize_of_fits hv h0 (by omega), some_bind]
  dsimp only [Option.getD_some, Option.map_none]
  rw [if_neg (by simp)]
  obtain ⟨bits, hbits⟩ := Int.eq_ofNat_of_zero_le h0
  rw [hbits, Int.toNat_natCast]
  by_cases hzero : bits = 0
  · rw [if_pos hzero, hzero]
    exact Ends.pure ⟨deeIntNewZero, rfl, deeIntNewZero_canonical.1, deeIntNewZero_canonical.2⟩
  · rw [if_neg hzero]
    obtain ⟨n, r, hn, hr, rfl⟩ : ∃ n r, r < digitBits ∧ (bits + (digitBits - 1)) % 2 ^ 64 / digitBits = n + 1 ∧
        bits = digitBits * n + (r + 1) := by
      unfold digitBits
      refine ⟨(bits - 1) / 30, (bits - 1) % 30, Nat.mod_lt _ (by norm_num), ?_, ?_⟩ <;> omega
    have hcount : (n + 1 + 2 ^ 64 - 1) % 2 ^ 64 = n := by
      unfold digitBits at hbits
      omega
    have hlast : digitBits - ((n + 1) * digitBits - (digitBits * n + (r + 1))) = r + 1 := by
      rw [Nat.succ_mul, Nat.mul_comm n]
      omega
    rw [hr, hcount, hlast, Nat.add_sub_cancel]
    refine Ends.bind (fillCells_ends (by simp)) fun l ⟨hout, hcells⟩ => ?_
    have hlen : n < l.length := by simp [hout.length]
    rw [wr_of_lt hlen, some_bind, Nat.one_shiftLeft]
    have hlen' : n < (l.set n (2 ^ (r + 1) - 1)).length := by simpa using hlen
    obtain ⟨hcanonical, hvalue⟩ := ones_toInt hlen'
      (fun i hi => by rw [cell_set_of_ne hi.ne', ← Nat.zero_add i, hcells i hi]) (cell_set_self hlen) (Nat.succ_pos r) hn
    exact Ends.pure ⟨_, rfl, hcanonical, hvalue⟩

/-- Below zero `DeeInt_AsSize` fails. -/
theorem intGetBitmask_raises (hv : v.Canonical) (hlow : -2 ^ 63 ≤ v.toInt) (hneg : v.toInt < 0) :
    Raises (intGetBitmask v held) := by
  obtain ⟨out, hout, hasked⟩ := asUInt_ends hv .w64
  have hfits : Fits 64 v.toInt := ⟨hlow, hneg.trans (by norm_num)⟩
  obtain ⟨hcode, herror⟩ := (hasked.1 hfits).failure fun hin => by omega
  unfold intGetBitmask
  rw [show deeIntAsUInt64 v = Width.asUInt .w64 v from rfl, hout, some_bind]
  dsimp only
  rw [hcode, if_pos (by norm_num)]
  exact Ends.pure ⟨rfl, by simpa using herror⟩

/-- When `DeeInt_AsSize` returns 0 something is given back, unless the filling goes wrong. -/
theorem intGetBitmask_not_raises {out : WordResult} (hout : deeIntAsUInt64 v = some out) (hcode : out.code = 0) :
    ¬Raises (intGetBitmask v held) := by
  rintro ⟨r, hr, hobject, -⟩
  unfold intGetBitmask at hr
  rw [hout, some_bind] at hr
  dsimp only at hr
  rw [hcode, if_neg (by simp)] at hr
  split_ifs at hr with hzero
  · obtain rfl := Option.some.inj hr
    cases hobject
  · obtain ⟨digits, -, hr⟩ := of_bind hr
    obtain ⟨digits', -, hr⟩ := of_bind hr
    obtain rfl := Option.some.inj hr
    cases hobject

/-- The number of digits wraps around to zero, and all of the memory would be filled. -/
theorem intGetBitmask_fault (hv : v.Canonical) (h0 : 2 ^ 64 - 29 ≤ v.toInt) (h1 : v.toInt < 2 ^ 64) :
    intGetBitmask v held = none := by
  unfold intGetBitmask
  rw [asSize_of_fits hv (by omega) h1, some_bind]
  dsimp only [Option.getD_some, Option.map_none]
  have hwrap : (v.toInt.toNat + (digitBits - 1)) % 2 ^ 64 / digitBits = 0 := by
    unfold digitBits
    omega
  rw [if_neg (by simp), if_neg (by omega), hwrap, show (deeIntAlloc 0).obDigit = [] from rfl,
    fillCells_nil (by norm_num)]
  rfl

end Bitmask

/-! ### When the getters follow the bits -/

section Follows

variable {v : DeeInt}

theorem lowestDigit_eq_zero_iff (hv : v.Canonical) (hsize : 0 < v.absSize) :
    cell v.obDigit 0 = 0 ↔ (2 : ℤ) ^ 30 ∣ v.toInt := by
  obtain ⟨n, hn⟩ := Nat.exists_eq_succ_of_ne_zero hsize.ne'
  have hmod : v.mag % digitBase = cell v.obDigit 0 := by
    rw [mag, hn]
    exact seg_mod (hv.cell_lt hsize)
  have hcast : (2 : ℤ) ^ 30 = ((digitBase : ℕ) : ℤ) := rfl
  rw [hcast, Int.natCast_dvd, natAbs_toInt, Nat.dvd_iff_mod_eq_zero, hmod]

theorem intGetCt1_neg (hv : v.Canonical) (hneg : v.obSize < 0) :
    ((2 : ℤ) ^ 30 ∣ v.toInt → Raises (intGetCt1 v)) ∧ (¬(2 : ℤ) ^ 30 ∣ v.toInt →
      ∃ n : ℕ, (v.toInt ≠ -1 → LowestBit false v.toInt n) ∧ Answers (intGetCt1 v) n) := by
  obtain ⟨⟨carry, result⟩, hrun, hlowest, hcarry⟩ := ct1Loop_ends hv
  rw [decide_eq_true hneg] at hrun
  rw [← lowestDigit_eq_zero_iff hv (by unfold absSize; omega), ← hcarry hneg]
  have hget : intGetCt1 v = if carry ≠ 0 then raiseTooSmall v 0 else returnSize result := by
    unfold intGetCt1
    rw [if_neg (by omega), if_pos hneg, hrun, some_bind]
  constructor
  · intro hne
    rw [hget, if_pos hne]
    exact raiseTooSmall_raises 0
  · intro hzero
    rw [hget, if_neg hzero]
    exact ⟨result, hlowest, returnSize_answers result⟩

theorem intGetCt1_nonneg (hv : v.Canonical) (hpos : 0 ≤ v.toInt) :
    ∃ n : ℕ, LowestBit false v.toInt n ∧ Answers (intGetCt1 v) n := by
  have hsign := hv.toInt_neg_iff
  by_cases hzero : v.obSize = 0
  · have hval : v.toInt = 0 := toInt_of_absSize_zero (by rw [absSize, hzero]; rfl)
    refine ⟨0, ⟨fun i hi => absurd hi (Nat.not_lt_zero i), by rw [hval]; rfl⟩, ?_⟩
    unfold intGetCt1
    rw [if_neg (by omega), if_neg (by omega)]
    exact returnSize_answers 0
  · obtain ⟨⟨carry, result⟩, hrun, hlowest, -⟩ := ct1Loop_ends hv
    rw [decide_neg_of_pos (by omega)] at hrun
    refine ⟨result, hlowest (by omega), ?_⟩
    unfold intGetCt1
    rw [if_pos (by omega), hrun, some_bind]
    exact returnSize_answers result

/-- The getters follow the bits of every number but these: -1, where `ct1` gives back 30, the negative multiples of a
whole digit, where `ct1` raises the error meant for -1, and the numbers that `bitmask` cannot take. -/
theorem followsBits_iff (hv : v.Canonical) : FollowsBits v ↔
    v.toInt ≠ -1 ∧ ¬(v.toInt < 0 ∧ 2 ^ 30 ∣ v.toInt) ∧ -2 ^ 63 ≤ v.toInt ∧ v.toInt < 2 ^ 64 - 29 := by
  have hsign := hv.toInt_neg_iff
  have hzero_iff : v.toInt = 0 ↔ v.obSize = 0 := by
    rw [← Int.natAbs_eq_zero, natAbs_toInt, hv.mag_eq_zero_iff, absSize, Int.natAbs_eq_zero]
  constructor
  · intro h
    refine ⟨fun hone => ?_, fun hmul => ?_, ?_, ?_⟩
    · have hnot : ¬(2 : ℤ) ^ 30 ∣ v.toInt := by
        rw [hone]
        norm_num
      obtain ⟨n, -, hanswers⟩ := (intGetCt1_neg hv (by omega)).2 hnot
      exact hanswers.not_raises (h.ct1_minusOne hone)
    · obtain ⟨hneg, hdvd⟩ := hmul
      have hone : v.toInt ≠ -1 := by
        intro hone
        rw [hone] at hdvd
        norm_num at hdvd
      obtain ⟨n, -, hanswers⟩ := h.ct1 hone
      exact hanswers.not_raises ((intGetCt1_neg hv (by omega)).1 hdvd)
    · by_contra hlow
      obtain ⟨out, hout, hasked⟩ := asUInt_ends hv .w64
      have hcode := (hasked.2 fun hfits => hlow hfits.1).1
      exact intGetBitmask_not_raises hout hcode (h.bitmask_raises (.inl (by omega)) 0 (by norm_num))
    · by_contra hhigh
      by_cases hfits : v.toInt < 2 ^ 64
      · obtain ⟨r, hr, -⟩ := h.bitmask (by omega) hfits 0 (by norm_num)
        rw [intGetBitmask_fault hv (by omega) hfits] at hr
        cases hr
      · obtain ⟨out, hout, hasked⟩ := asUInt_ends hv .w64
        have hcode := (hasked.2 fun hin => hfits hin.2).1
        exact intGetBitmask_not_raises hout hcode (h.bitmask_raises (.inr (by omega)) 0 (by norm_num))
  · rintro ⟨hone, hmul, hlow, hhigh⟩
    refine
      { popcount_neg := fun hneg => ?_
        popcount := fun hpos => intGetPopcount_answers hv (by omega)
        ffs_zero := fun hzero => ?_
        ffs := fun hne => ?_
        ctz_zero := fun hzero => ?_
        ctz := fun hne => ?_
        ct1_minusOne := fun h => absurd h hone
        ct1 := fun _ => ?_
        fls_neg := fun hneg => ?_
        fls_zero := fun hzero => ?_
        fls := fun hpos => ?_
        msb_raises := fun hnot => ?_
        msb := fun hpos => ?_
        bitmask_raises := fun hout held _ => intGetBitmask_raises hv hlow (by omega)
        bitmask := fun hpos _ held _ => intGetBitmask_answers hv hpos hhigh }
    · unfold intGetPopcount
      rw [if_pos (hsign.mp hneg)]
      exact raiseTooSmall_raises 0
    · unfold intGetFfs
      rw [if_neg (by omega), if_neg (by omega)]
      exact returnSize_answers 0
    · exact intGetFfs_answers hv hne
    · unfold intGetCtz
      rw [if_neg (by omega), if_neg (by omega)]
      exact Ends.pure ⟨rfl, rfl⟩
    · exact intGetCtz_answers hv hne
    · by_cases hneg : v.obSize < 0
      · obtain ⟨n, hn, hanswers⟩ := (intGetCt1_neg hv hneg).2 fun hdvd => hmul ⟨hsign.mpr hneg, hdvd⟩
        exact ⟨n, hn hone, hanswers⟩
      · exact intGetCt1_nonneg hv (by omega)
    · unfold intGetFls
      rw [if_pos (by omega), if_neg (by omega)]
      exact raiseTooSmall_raises 0
    · unfold intGetFls
      rw [if_pos (by omega), if_pos (hzero_iff.mp hzero)]
      exact Ends.pure ⟨deeIntNewZero, rfl, deeIntNewZero_canonical.1, deeIntNewZero_canonical.2⟩
    · exact intGetFls_answers hv (by omega)
    · unfold intGetMsb
      rw [if_pos (by omega)]
      exact raiseTooSmall_raises 1
    · exact intGetMsb_answers hv (by omega)

theorem followsBits_iff_minusTwo : FollowsBits ⟨-1, [2]⟩ ↔
    (-2 : ℤ) ≠ -1 ∧ ¬((-2 : ℤ) < 0 ∧ 2 ^ 30 ∣ (-2 : ℤ)) ∧ (-2 : ℤ) ^ 63 ≤ -2 ∧ (-2 : ℤ) < 2 ^ 64 - 29 :=
  followsBits_iff (v := ⟨-1, [2]⟩) (by decide)

/-- `(-1).ct1` is 30, and `(-1073741824).ct1` raises the error. -/
theorem ct1_fails : intGetCt1 ⟨-1, [1]⟩ = some ⟨some ⟨1, [30]⟩, none⟩ ∧
    intGetCt1 ⟨-2, [0, 1]⟩ = some ⟨none, some (.integerOverflow ⟨-1073741824, some 0, none, false⟩)⟩ ∧
    ¬∀ v : DeeInt, v.Canonical → FollowsBits v := by
  refine ⟨by decide, by decide, fun hall => ?_⟩
  have hraises := (hall ⟨-1, [1]⟩ (by decide)).ct1_minusOne (by decide)
  have hrun : intGetCt1 ⟨-1, [1]⟩ = some ⟨some ⟨1, [30]⟩, none⟩ := by decide
  obtain ⟨r, hr, hobject, -⟩ := hraises
  obtain rfl := Option.some.inj (hrun.symm.trans hr)
  cases hobject

end Follows

end Deemon.Int
