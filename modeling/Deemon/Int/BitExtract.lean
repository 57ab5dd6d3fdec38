import Deemon.Int.Bitwise
import Deemon.Int.ToBytes
import Deemon.Lib.Gather

/-!
# Extracting and depositing bits

`int_pext` packs the bits of an integer at the set positions of a mask, and `int_pdep` spreads the low bits of an
integer over them. The mask and the integer may be negative for `int_pext`: then their digits are complemented on the
way, with a carry of their own, and the infinitely many positions of a negative mask end in a copy of the rest.
-/

namespace Deemon.Int

open Deemon.Run Deemon.Radix Deemon.Bits Deemon.Gather DeeInt

/-! ### Words -/

/-- `PEXT`. -/
def pext (value mask : ℕ) : Option ℕ :=
  loop (fun (value, mask, result, shift) =>
    if value ≠ 0 ∧ mask ≠ 0 then
      some (.next (if mask &&& 1 ≠ 0 then (value >>> 1, mask >>> 1, result ||| (value &&& 1) <<< shift, shift + 1)
        else (value >>> 1, mask >>> 1, result, shift)))
    else some (.done result)) (mask + 1) (value, mask, 0, 0)

/-- `PDEP`. -/
def pdep (value mask : ℕ) : Option ℕ :=
  loop (fun (value, mask, result, shift) =>
    if mask ≠ 0 then
      some (.next (if mask &&& 1 ≠ 0 then (value >>> 1, mask >>> 1, result ||| (value &&& 1) <<< shift, shift + 1)
        else (value, mask >>> 1, result, shift + 1)))
    else some (.done result)) (mask + 1) (value, mask, 0, 0)

/-! ### The result of an extraction -/

/-- The digits of the result, and where its next bit goes. -/
structure BitBuffer where
  resultIndex : ℕ
  resultShift : ℕ
  obDigit : List ℕ

/-- One round of the loop that appends bits. -/
def appendRound : BitBuffer × ℕ × ℕ → Option (Step (BitBuffer × ℕ × ℕ) BitBuffer)
  | (r, v, n) => do
    let nCopy := min (digitBits - r.resultShift) n
    let addend := (v &&& (1 <<< nCopy - 1)) <<< r.resultShift
    let digit ← rd r.obDigit r.resultIndex
    let digits ← wr r.obDigit r.resultIndex (digit ||| addend)
    if n - nCopy = 0 then do
      assert (r.resultShift + nCopy ≤ digitBits)
      some (.done ⟨r.resultIndex, r.resultShift + nCopy, digits⟩)
    else do
      assert (r.resultShift + nCopy = digitBits)
      some (.next (⟨r.resultIndex + 1, 0, digits⟩, v >>> nCopy, n - nCopy))

/-- The loop that appends `n` bits `v`. -/
def appendBits (r : BitBuffer) (v n : ℕ) : Option BitBuffer := loop appendRound (n + 2) (r, v, n)

/-- `CEILDIV(nbits, DIGIT_BITS)`. -/
def ceilDigits (nbits : ℕ) : ℕ := (nbits + (digitBits - 1)) / digitBits

/-- A result of zero bits. -/
def emptyBuffer (digits : ℕ) : BitBuffer := ⟨0, 0, List.replicate digits 0⟩

/-! ### `int_pext` -/

/-- `int_pext_impl`. -/
def intPextImpl (self mask : List ℕ) (commonSize : ℕ) : Option DeeInt := do
  let resultNbits ← forLoop (fun i n => do some (n + popcount digitBits (← rd mask i))) 0 commonSize 0
  let resultDigits := ceilDigits resultNbits
  let r ← forLoop (fun i r => do
    let m ← rd mask i
    if m = 0 then some r
    else do
      let v ← pext (← rd self i) m
      let n := popcount digitBits m
      assert (0 < n)
      assert (n ≤ digitBits)
      appendBits r v n) 0 commonSize (emptyBuffer resultDigits)
  intNormalize ⟨resultDigits, r.obDigit⟩

/-- A digit of an operand: `carry += d ^ DIGIT_MASK; d = carry & DIGIT_MASK; carry >>= DIGIT_BITS` for a negative
one. -/
def twosDigit (neg : Bool) (carry d : ℕ) : ℕ × ℕ :=
  if neg then ((carry + (d ^^^ digitMask)) &&& digitMask, (carry + (d ^^^ digitMask)) >>> digitBits) else (d, carry)

/-- `result_nbits` for a negative mask; `none` is the special case that returns `self`. -/
def negMaskNbits (selfNeg : Bool) (selfSize commonSize : ℕ) (mask : DeeInt) : Option (Option ℕ) := do
  let maskCommonSize := if selfNeg then commonSize else mask.absSize
  let (maskCarry, nbits) ← forLoop (fun i (carry, nbits) => do
    let (d, carry) := twosDigit true carry (← rd mask.obDigit i)
    some (carry, nbits + popcount digitBits d)) 0 maskCommonSize (1, 0)
  assert (maskCarry = 0 ∨ maskCarry = 1)
  let nbits := nbits + maskCarry
  if nbits = 0 then some none
  else
    let nbits := if maskCommonSize < selfSize then nbits + (selfSize - maskCommonSize) * digitBits else nbits
    some (some (if selfNeg then nbits + 1 else nbits))

/-- One round of the main loop of `int_pext_ex_impl`, on both carries and the result. -/
def pextRound (selfNeg maskNeg : Bool) (self mask : List ℕ) (i : ℕ) :
    ℕ × ℕ × BitBuffer → Option (ℕ × ℕ × BitBuffer)
  | (maskCarry, selfCarry, r) => do
    let (m, maskCarry) := twosDigit maskNeg maskCarry (← rd mask i)
    if m = 0 then
      if selfNeg then do
        let (_, selfCarry) := twosDigit true selfCarry (← rd self i)
        some (maskCarry, selfCarry, r)
      else some (maskCarry, selfCarry, r)
    else do
      let (v, selfCarry) := twosDigit selfNeg selfCarry (← rd self i)
      let v ← pext v m
      let n := popcount digitBits m
      assert (0 < n)
      let r ← appendBits r v n
      some (maskCarry, selfCarry, r)

/-- The digits of `self` behind a negative mask: they are copied as they are. -/
def appendRest (selfNeg : Bool) (self : List ℕ) (commonSize selfSize selfCarry : ℕ) (r : BitBuffer) :
    Option BitBuffer :=
  if commonSize < selfSize then
    if selfNeg = false ∧ r.resultShift = 0 then do
      let digits ← copyCells r.obDigit r.resultIndex self commonSize (selfSize - commonSize)
      some ⟨r.resultIndex + (selfSize - commonSize), r.resultShift, digits⟩
    else do
      let (_, r) ← forLoop (fun i (selfCarry, r) => do
        let (v, selfCarry) := twosDigit selfNeg selfCarry (← rd self i)
        let r ← appendBits r v digitBits
        some (selfCarry, r)) commonSize (selfSize - commonSize) (selfCarry, r)
      some r
  else some r

/-- The sign of a negative result. -/
def negateBuffer (resultNbits resultDigits : ℕ) (r : BitBuffer) : Option DeeInt := do
  assert (r.resultShift ≤ digitBits)
  let (index, shift) := if r.resultShift = digitBits then (r.resultIndex + 1, 0) else (r.resultIndex, r.resultShift)
  assert (index + 1 = resultDigits)
  assert (shift + index * digitBits ≤ resultNbits)
  let lastmask := (digitMask <<< shift) &&& digitMask
  let digits ← wr r.obDigit index ((← rd r.obDigit index) ||| lastmask)
  let digits ← vComplement digits digits resultDigits
  intNormalize ⟨-resultDigits, digits⟩

/-- The whole digits of ones, and the last one. -/
def appendOnes (index remainingBits : ℕ) (digits : List ℕ) : Option (List ℕ) := do
  let nDigits := remainingBits / digitBits
  let digits ← (if digitBits ≤ remainingBits then fillCells digits index digitMask nDigits else some digits)
  let (index, remainingBits) := if digitBits ≤ remainingBits then (index + nDigits, remainingBits - nDigits * digitBits)
    else (index, remainingBits)
  if remainingBits ≠ 0 then wr digits index (1 <<< remainingBits - 1) else some digits

/-- The ones of a negative `self` behind its digits. -/
def fillOnes (resultNbits : ℕ) (r : BitBuffer) : Option (List ℕ) := do
  assert (r.resultShift + r.resultIndex * digitBits ≤ resultNbits)
  let remainingBits := resultNbits - (r.resultShift + r.resultIndex * digitBits)
  let (index, shift) := if digitBits ≤ r.resultShift then (r.resultIndex + 1, r.resultShift - digitBits)
    else (r.resultIndex, r.resultShift)
  if shift ≠ 0 then do
    let firstBits := min (digitBits - shift) remainingBits
    let digits ← wr r.obDigit index ((← rd r.obDigit index) ||| (1 <<< firstBits - 1) <<< shift)
    if remainingBits - firstBits = 0 then some digits
    else appendOnes (index + 1) (remainingBits - firstBits) digits
  else appendOnes index remainingBits r.obDigit

/-- `int_pext_ex_impl` from the allocation of the result on. -/
def pextSized (self mask : DeeInt) (resultNbits : ℕ) : Option DeeInt := do
  let selfNeg := decide (self.obSize < 0)
  let maskNeg := decide (mask.obSize < 0)
  let commonSize := min self.absSize mask.absSize
  let resultDigits := ceilDigits resultNbits
  let (_, selfCarry, r) ← forLoop (pextRound selfNeg maskNeg self.obDigit mask.obDigit) 0 commonSize
    (1, 1, emptyBuffer resultDigits)
  if maskNeg then do
    let r ← appendRest selfNeg self.obDigit commonSize self.absSize selfCarry r
    if selfNeg then negateBuffer resultNbits resultDigits r else intNormalize ⟨resultDigits, r.obDigit⟩
  else if selfNeg ∧ commonSize < mask.absSize then do
    intNormalize ⟨resultDigits, ← fillOnes resultNbits r⟩
  else intNormalize ⟨resultDigits, r.obDigit⟩

/-- `int_pext_ex_impl`. -/
def intPextExImpl (self mask : DeeInt) : Option DeeInt := do
  if mask.obSize < 0 then do
    let nbits ← negMaskNbits (decide (self.obSize < 0)) self.absSize (min self.absSize mask.absSize) mask
    match nbits with
    | none => some self
    | some resultNbits => pextSized self mask resultNbits
  else do
    let resultNbits ← forLoop (fun i n => do some (n + popcount digitBits (← rd mask.obDigit i))) 0 mask.absSize 0
    pextSized self mask resultNbits

/-- `int_pext`. -/
def intPext (self mask : DeeInt) : Option DeeInt :=
  if 0 ≤ self.obSize ∧ 0 ≤ mask.obSize then
    intPextImpl self.obDigit mask.obDigit (min self.absSize mask.absSize)
  else intPextExImpl self mask

/-! ### `int_pdep` -/

/-- One round of the loop of `int_pdep_impl`, which ends with how many digits it has stored. -/
def pdepRound (self : List ℕ) (commonSize : ℕ) (mask : List ℕ) (maskSize : ℕ) :
    ℕ × ℕ × ℕ × List ℕ → Option (Step (ℕ × ℕ × ℕ × List ℕ) (ℕ × List ℕ))
  | (i, selfIndex, selfShift, digits) =>
    if i < maskSize ∧ selfIndex < commonSize then do
      let m ← rd mask i
      if m ≠ 0 then do
        let nbits := popcount digitBits m
        let v := (← rd self selfIndex) >>> selfShift
        if digitBits ≤ selfShift + nbits then do
          let selfShift := selfShift + nbits - digitBits
          -- the bits of the next digit, shifted in a 32-bit word
          let v ← (if selfIndex + 1 < commonSize then do
            some (v ||| (← rd self (selfIndex + 1)) <<< (nbits - selfShift) % 2 ^ 32) else some v)
          let digits ← wr digits i (← pdep v m)
          some (.next (i + 1, selfIndex + 1, selfShift, digits))
        else do
          let digits ← wr digits i (← pdep v m)
          some (.next (i + 1, selfIndex, selfShift + nbits, digits))
      else do
        let digits ← wr digits i 0
        some (.next (i + 1, selfIndex, selfShift, digits))
    else some (.done (i, digits))

/-- `int_pdep_impl`. -/
def intPdepImpl (self : List ℕ) (commonSize : ℕ) (mask : List ℕ) (maskSize : ℕ) : Option DeeInt := do
  let (n, digits) ← loop (pdepRound self commonSize mask maskSize) (maskSize + 1)
    (0, 0, 0, (deeIntAlloc maskSize).obDigit)
  intNormalize ⟨n, digits⟩

/-- `int_pdep`, without a result where `int_pdep_ex_impl` is not implemented. -/
def intPdep (self mask : DeeInt) : Option DeeInt :=
  if 0 ≤ self.obSize ∧ 0 ≤ mask.obSize then
    intPdepImpl self.obDigit (min self.absSize mask.absSize) mask.obDigit mask.absSize
  else none

/-! ### What words give -/

section Words

variable {value mask n k b s : ℕ}

theorem or_shiftLeft_bit (hs : n < 2 ^ s) : n ||| (value &&& 1) <<< s = n + if value.testBit 0 then 2 ^ s else 0 := by
  rw [Nat.or_comm, ← Nat.shiftLeft_add_eq_or_of_lt hs, Nat.and_one_is_mod, Nat.shiftLeft_eq, Nat.add_comm,
    Nat.testBit_zero]
  rcases Nat.mod_two_eq_zero_or_one value with h | h
  · rw [h]
    simp
  · rw [h]
    simp

theorem and_one_ne_zero : mask &&& 1 ≠ 0 ↔ mask.testBit 0 = true := by
  rw [Nat.and_one_is_mod, Nat.testBit_zero, decide_eq_true_eq]
  omega

theorem testBit_shiftRight_zero : (mask >>> k).testBit 0 = mask.testBit k := by
  rw [Nat.testBit_shiftRight, Nat.add_zero]

/-- The rest of a word is zero where no bits are left. -/
theorem testBit_of_shiftRight_eq_zero (h : mask >>> k = 0) {i : ℕ} (hi : k ≤ i) : mask.testBit i = false := by
  obtain ⟨d, rfl⟩ := Nat.exists_eq_add_of_le hi
  rw [← Nat.testBit_shiftRight, h, Nat.zero_testBit]

theorem shiftRight_one_lt (h : mask ≠ 0) : mask >>> 1 < mask := by
  rw [Nat.shiftRight_eq_div_pow, pow_one]
  omega

theorem pext_ends (hn : mask < 2 ^ n) :
    Ends (pext value mask) fun r => r = gather mask.testBit value.testBit n := by
  unfold pext
  refine loop_ends (fun s => ∃ k, s = (value >>> k, mask >>> k, gather mask.testBit value.testBit k,
    bitCount mask.testBit k)) (fun s => s.2.1) ⟨0, rfl⟩ (Nat.lt_succ_self mask) ?_
  rintro _ ⟨k, rfl⟩
  dsimp only
  by_cases hgo : value >>> k ≠ 0 ∧ mask >>> k ≠ 0
  · rw [if_pos hgo]
    have hlt := shiftRight_one_lt hgo.2
    rw [or_shiftLeft_bit gather_lt, testBit_shiftRight_zero]
    by_cases hm : mask >>> k &&& 1 ≠ 0
    · rw [if_pos hm]
      rw [and_one_ne_zero, testBit_shiftRight_zero] at hm
      refine Ends.pure ⟨⟨k + 1, ?_⟩, hlt⟩
      rw [gather, bitCount_succ, hm, Bool.true_and, if_pos rfl, Nat.shiftRight_add, Nat.shiftRight_add]
    · rw [if_neg hm]
      rw [and_one_ne_zero, testBit_shiftRight_zero, Bool.not_eq_true] at hm
      refine Ends.pure ⟨⟨k + 1, ?_⟩, hlt⟩
      rw [gather, bitCount_succ, hm, Bool.false_and, if_neg Bool.false_ne_true, if_neg Bool.false_ne_true,
        Nat.shiftRight_add, Nat.shiftRight_add]
      rfl
  · rw [if_neg hgo]
    refine Ends.pure (gather_eq_of_zeros (fun i hi => ?_) fun i hi => ?_)
    · rcases not_and_or.mp hgo with hv | hm
      · rw [testBit_of_shiftRight_eq_zero (not_not.mp hv) hi, Bool.and_false]
      · rw [testBit_of_shiftRight_eq_zero (not_not.mp hm) hi, Bool.false_and]
    · rw [Nat.testBit_eq_false_of_lt (lt_of_lt_of_le hn (Nat.pow_le_pow_right Nat.two_pos hi)), Bool.false_and]

theorem pdep_ends (hn : mask < 2 ^ n) :
    Ends (pdep value mask) fun r => r = scatter mask.testBit value.testBit n := by
  unfold pdep
  refine loop_ends (fun s => ∃ k, s = (value >>> bitCount mask.testBit k, mask >>> k,
    scatter mask.testBit value.testBit k, k)) (fun s => s.2.1) ⟨0, rfl⟩ (Nat.lt_succ_self mask) ?_
  rintro _ ⟨k, rfl⟩
  dsimp only
  by_cases hgo : mask >>> k ≠ 0
  · rw [if_pos hgo]
    have hlt := shiftRight_one_lt hgo
    rw [or_shiftLeft_bit scatter_lt, testBit_shiftRight_zero]
    by_cases hm : mask >>> k &&& 1 ≠ 0
    · rw [if_pos hm]
      rw [and_one_ne_zero, testBit_shiftRight_zero] at hm
      refine Ends.pure ⟨⟨k + 1, ?_⟩, hlt⟩
      rw [scatter, bitCount_succ, hm, Bool.true_and, if_pos rfl, Nat.shiftRight_add, Nat.shiftRight_add]
    · rw [if_neg hm]
      rw [and_one_ne_zero, testBit_shiftRight_zero, Bool.not_eq_true] at hm
      refine Ends.pure ⟨⟨k + 1, ?_⟩, hlt⟩
      rw [scatter, bitCount_succ, hm, Bool.false_and, if_neg Bool.false_ne_true, if_neg Bool.false_ne_true,
        Nat.shiftRight_add]
      rfl
  · rw [if_neg hgo]
    refine Ends.pure (scatter_eq_of_zeros (fun i hi => ?_) fun i hi => ?_)
    · rw [testBit_of_shiftRight_eq_zero (not_not.mp hgo) hi, Bool.false_and]
    · rw [Nat.testBit_eq_false_of_lt (lt_of_lt_of_le hn (Nat.pow_le_pow_right Nat.two_pos hi)), Bool.false_and]

/-- `POPCOUNT` counts the set bits. -/
theorem popcount_eq_bitCount (x : ℕ) : popcount n x = bitCount x.testBit n := by
  induction n generalizing x with
  | zero => rfl
  | succ n ih =>
    rw [popcount, ih, Nat.add_comm n 1, bitCount_add, bitCount_succ, bitCount_zero, Nat.zero_add, Nat.testBit_zero]
    have hrest : bitCount (x / 2).testBit n = bitCount (fun i => x.testBit (1 + i)) n :=
      bitCount_congr fun i _ => by rw [Nat.add_comm, Nat.testBit_succ]
    rw [hrest]
    congr 1
    rcases Nat.mod_two_eq_zero_or_one x with h | h
    · rw [h]
      rfl
    · rw [h]
      rfl

end Words

/-! ### Appending bits -/

/-- The buffer holds the `T` bits `V`, with zeros behind them. -/
structure Filled (len V T : ℕ) (r : BitBuffer) : Prop where
  length : r.obDigit.length = len
  pos : T = digitBits * r.resultIndex + r.resultShift
  shift : r.resultShift ≤ digitBits
  below : Below digitBase r.obDigit 0 len
  value : seg digitBase r.obDigit 0 len = V
  bound : V < 2 ^ T

section Append

variable {len V T v n w : ℕ} {r : BitBuffer}

theorem Filled.empty (len : ℕ) : Filled len 0 0 (emptyBuffer len) := by
  have hcell : ∀ i < len, cell (List.replicate len 0) (0 + i) = 0 := fun i hi => by
    rw [Nat.zero_add, cell_replicate hi]
  refine ⟨List.length_replicate, rfl, Nat.zero_le _, fun i hi => ?_, seg_eq_zero hcell, Nat.one_pos⟩
  unfold emptyBuffer
  rw [hcell i hi]
  exact digitBase_pos

/-- The digit that is being filled has nothing above the shift. -/
theorem Filled.cell_lt (h : Filled len V T r) (hlt : r.resultIndex < len) :
    cell r.obDigit r.resultIndex < 2 ^ r.resultShift := by
  rw [cell_eq_div_mod h.below hlt, h.value]
  refine lt_of_le_of_lt (Nat.mod_le _ _) (Nat.div_lt_of_lt_mul ?_)
  rw [← two_pow_digitBits, ← pow_add, ← h.pos]
  exact h.bound

/-- Bits that fit behind the shift. -/
theorem Filled.orDigit (h : Filled len V T r) (hlt : r.resultIndex < len) (hn : r.resultShift + n ≤ digitBits)
    (hw : w < 2 ^ n) : Filled len (V + w * 2 ^ T) (T + n) ⟨r.resultIndex, r.resultShift + n,
      r.obDigit.set r.resultIndex (cell r.obDigit r.resultIndex ||| w <<< r.resultShift)⟩ := by
  have hcell := h.cell_lt hlt
  have hor : cell r.obDigit r.resultIndex ||| w <<< r.resultShift =
      cell r.obDigit r.resultIndex + w * 2 ^ r.resultShift := by
    rw [Nat.or_comm, ← Nat.shiftLeft_add_eq_or_of_lt hcell, Nat.shiftLeft_eq, Nat.add_comm]
  have hdigit : cell r.obDigit r.resultIndex + w * 2 ^ r.resultShift < digitBase := by
    calc cell r.obDigit r.resultIndex + w * 2 ^ r.resultShift
        < 2 ^ r.resultShift + w * 2 ^ r.resultShift := Nat.add_lt_add_right hcell _
      _ = (w + 1) * 2 ^ r.resultShift := by ring
      _ ≤ 2 ^ n * 2 ^ r.resultShift := Nat.mul_le_mul_right _ hw
      _ = 2 ^ (r.resultShift + n) := by rw [← pow_add, Nat.add_comm]
      _ ≤ digitBase := Nat.pow_le_pow_right Nat.two_pos hn
  have hT : digitBase ^ r.resultIndex * 2 ^ r.resultShift = 2 ^ T := by
    rw [← two_pow_digitBits, ← pow_add, ← h.pos]
  rw [hor]
  refine ⟨?_, ?_, hn, h.below.set hdigit, ?_, ?_⟩
  · rw [List.length_set, h.length]
  · rw [h.pos, Nat.add_assoc]
  · have hset := seg_set_in (B := digitBase) (l := r.obDigit) (s := 0) (n := len)
      (v := cell r.obDigit r.resultIndex + w * 2 ^ r.resultShift) hlt (by rw [h.length]; omega)
    rw [Nat.zero_add, h.value] at hset
    have hsum : (cell r.obDigit r.resultIndex + w * 2 ^ r.resultShift) * digitBase ^ r.resultIndex =
        cell r.obDigit r.resultIndex * digitBase ^ r.resultIndex + w * 2 ^ T := by
      rw [← hT]
      ring
    rw [hsum] at hset
    dsimp only
    omega
  · calc V + w * 2 ^ T < 2 ^ T + w * 2 ^ T := Nat.add_lt_add_right h.bound _
      _ = (w + 1) * 2 ^ T := by ring
      _ ≤ 2 ^ n * 2 ^ T := Nat.mul_le_mul_right _ hw
      _ = 2 ^ (T + n) := by rw [← pow_add, Nat.add_comm]

/-- The position behind a full digit. -/
theorem Filled.carryDigit (h : Filled len V T r) (hfull : r.resultShift = digitBits) :
    Filled len V T ⟨r.resultIndex + 1, 0, r.obDigit⟩ := by
  refine ⟨h.length, ?_, Nat.zero_le _, h.below, h.value, h.bound⟩
  rw [h.pos, hfull, Nat.mul_succ]
  rfl

theorem Filled.index_lt (h : Filled len V T r) (hn : 0 < n) (hroom : T + n ≤ digitBits * len) : r.resultIndex < len := by
  have hpos := h.pos
  by_contra hge
  have hmul := Nat.mul_le_mul_left digitBits (not_lt.mp hge)
  omega

/-- Appending bits that the buffer has room for. -/
theorem appendBits_ends (h : Filled len V T r) (hv : v < 2 ^ n) (hn : 0 < n) (hroom : T + n ≤ digitBits * len) :
    Ends (appendBits r v n) fun r' => Filled len (V + v * 2 ^ T) (T + n) r' ∧ 0 < r'.resultShift := by
  unfold appendBits
  refine loop_ends (fun s => 0 < s.2.2 ∧ s.2.1 < 2 ^ s.2.2 ∧ ∃ V' T', Filled len V' T' s.1 ∧ T' + s.2.2 = T + n ∧
      V' + s.2.1 * 2 ^ T' = V + v * 2 ^ T)
    (fun s => s.2.2 + if s.1.resultShift = digitBits then 1 else 0) ⟨hn, hv, V, T, h, rfl, rfl⟩ ?_ ?_
  · dsimp only
    split_ifs
    · omega
    · omega
  rintro ⟨r, u, k⟩ ⟨hk, hu, V', T', h', hT, hV⟩
  dsimp only at hk hu h' hT hV ⊢
  have hshift := h'.shift
  have hlt := h'.index_lt hk (by omega)
  unfold appendRound
  dsimp only
  generalize hcopy : min (digitBits - r.resultShift) k = c
  have hor := h'.orDigit (n := c) (w := u % 2 ^ c) hlt (by omega) (Nat.mod_lt _ (Nat.two_pow_pos c))
  have hsplit : V' + u % 2 ^ c * 2 ^ T' + u / 2 ^ c * 2 ^ (T' + c) = V + v * 2 ^ T := by
    rw [← hV, pow_add]
    nth_rewrite 3 [← Nat.mod_add_div u (2 ^ c)]
    ring
  rw [rd_of_lt (by rw [h'.length]; exact hlt), some_bind, wr_of_lt (by rw [h'.length]; exact hlt), some_bind,
    Nat.one_shiftLeft, Nat.and_two_pow_sub_one_eq_mod]
  by_cases hlast : k - c = 0
  · rw [if_pos hlast, assert_of (by omega), some_bind]
    have hck : c = k := by omega
    subst hck
    refine Ends.pure ⟨?_, by dsimp only; omega⟩
    rw [Nat.div_eq_of_lt hu, Nat.zero_mul, Nat.add_zero] at hsplit
    rw [hT, hsplit] at hor
    exact hor
  · have hfull : r.resultShift + c = digitBits := by omega
    rw [if_neg hlast, assert_of hfull, some_bind]
    refine Ends.pure ⟨⟨by dsimp only; omega, ?_, _, _, hor.carryDigit hfull, by dsimp only; omega, ?_⟩, ?_⟩
    · dsimp only
      rw [Nat.shiftRight_eq_div_pow]
      refine Nat.div_lt_of_lt_mul ?_
      rw [← pow_add, show c + (k - c) = k by omega]
      exact hu
    · dsimp only
      rw [Nat.shiftRight_eq_div_pow]
      exact hsplit
    · dsimp only
      rw [if_neg (by decide)]
      split_ifs with hstart
      · omega
      · omega

end Append

/-! ### The digits of an operand -/

/-- `d` has the bits of an integer at the position of a digit. -/
structure DigitOf (x : ℤ) (i d : ℕ) : Prop where
  lt : d < digitBase
  testBit : ∀ j < digitBits, d.testBit j = x.testBit (digitBits * i + j)

/-- The carry in front of digit `i`: one as long as the digits are zero. -/
def twosCarry (a : List ℕ) (i : ℕ) : ℕ := if seg digitBase a 0 i = 0 then 1 else 0

section Digits

variable {a : DeeInt} {i k carry : ℕ}

theorem testBit_place {M j : ℕ} (hj : j < digitBits) : (M / digitBase ^ i % digitBase).testBit j =
    M.testBit (digitBits * i + j) := by
  rw [Nat.testBit_mod_two_pow, ← two_pow_digitBits, Nat.testBit_div_two_pow, decide_eq_true hj, Bool.true_and,
    Nat.add_comm]

theorem testBit_neg {M : ℕ} (hM : 0 < M) : (-(M : ℤ)).testBit k = !(M - 1).testBit k := by
  obtain ⟨n, rfl⟩ := Nat.exists_eq_succ_of_ne_zero hM.ne'
  rfl

/-- The complemented digit is the digit of the predecessor, inverted. -/
theorem complemented_digit (ha : a.WF) (hmag : 0 < a.mag) (hi : i < a.absSize) :
    (twosCarry a.obDigit i + (digitMask - cell a.obDigit i)) % digitBase + (a.mag - 1) / digitBase ^ i % digitBase + 1 =
      digitBase := by
  obtain ⟨n, hn⟩ : ∃ n, a.absSize = i + (n + 1) := ⟨a.absSize - (i + 1), by omega⟩
  have hcell := ha.cell_lt hi
  have hsplit : a.mag = seg digitBase a.obDigit 0 i +
      digitBase ^ i * (cell a.obDigit i + digitBase * seg digitBase a.obDigit (i + 1) n) := by
    rw [mag, hn, seg_add, Nat.zero_add, seg_succ_front]
  have hlow := seg_lt (ha.below.mono hi.le)
  unfold twosCarry
  generalize seg digitBase a.obDigit (i + 1) n = H at hsplit
  generalize hL : seg digitBase a.obDigit 0 i = L at hsplit hlow
  generalize cell a.obDigit i = x at *
  have hpow : 0 < digitBase ^ i := Nat.pow_pos digitBase_pos
  split_ifs with hzero
  · -- the digits in front are zero: the predecessor borrows from this one
    rw [hzero, Nat.zero_add] at hsplit
    have hq : 0 < x + digitBase * H := by
      refine Nat.pos_of_ne_zero fun h0 => ?_
      rw [h0, Nat.mul_zero] at hsplit
      omega
    have hdiv : (a.mag - 1) / digitBase ^ i = x + digitBase * H - 1 := by
      have hborrow := Nat.mul_sub_div 0 _ _ (Nat.mul_pos hpow hq)
      rwa [Nat.zero_div, Nat.zero_add, ← hsplit] at hborrow
    rw [hdiv]
    unfold digitBase digitMask at *
    omega
  · have hdiv : (a.mag - 1) / digitBase ^ i = x + digitBase * H := by
      rw [hsplit, show L + digitBase ^ i * (x + digitBase * H) - 1 = L - 1 + digitBase ^ i * (x + digitBase * H) by omega,
        Nat.add_mul_div_left _ _ hpow, Nat.div_eq_of_lt (by omega), Nat.zero_add]
    rw [hdiv]
    unfold digitBase digitMask at *
    omega

/-- Reading a digit of an operand. -/
theorem twosDigit_spec (ha : a.Canonical) (hi : i < a.absSize)
    (hcarry : a.obSize < 0 → carry = twosCarry a.obDigit i) :
    DigitOf a.toInt i (twosDigit (decide (a.obSize < 0)) carry (cell a.obDigit i)).1 ∧
      (a.obSize < 0 → (twosDigit (decide (a.obSize < 0)) carry (cell a.obDigit i)).2 = twosCarry a.obDigit (i + 1)) := by
  have hcell := ha.cell_lt hi
  unfold twosDigit
  by_cases hneg : a.obSize < 0
  · have hmag := ha.mag_pos (by omega)
    have hsum := complemented_digit ha.toWF hmag hi
    rw [decide_eq_true hneg, if_pos rfl, hcarry hneg, xor_digitMask hcell]
    dsimp only
    rw [and_digitMask, shiftRight_digitBits]
    refine ⟨⟨Nat.mod_lt _ digitBase_pos, fun j hj => ?_⟩, fun _ => ?_⟩
    · have hlt : (a.mag - 1) / digitBase ^ i % digitBase < 2 ^ 30 := Nat.mod_lt _ digitBase_pos
      rw [show (twosCarry a.obDigit i + (digitMask - cell a.obDigit i)) % digitBase =
        2 ^ 30 - ((a.mag - 1) / digitBase ^ i % digitBase + 1) by unfold digitBase at *; omega,
        Nat.testBit_two_pow_sub_succ hlt, decide_eq_true hj, Bool.true_and, testBit_place hj, toInt_of_neg hneg,
        testBit_neg hmag]
    · have hsucc : seg digitBase a.obDigit 0 (i + 1) = 0 ↔
          seg digitBase a.obDigit 0 i = 0 ∧ cell a.obDigit i = 0 := by
        have hpow : 0 < digitBase ^ i := Nat.pow_pos digitBase_pos
        rw [seg_succ, Nat.zero_add, Nat.add_eq_zero_iff, Nat.mul_eq_zero, or_iff_left hpow.ne']
      unfold twosCarry
      simp only [hsucc]
      by_cases hzero : seg digitBase a.obDigit 0 i = 0
      · simp only [hzero, true_and, if_true]
        split_ifs with hx
        · rw [hx]
          unfold digitBase digitMask
          omega
        · unfold digitBase digitMask at *
          omega
      · simp only [hzero, false_and, if_false]
        unfold digitBase digitMask at *
        omega
  · rw [decide_eq_false hneg, if_neg Bool.false_ne_true]
    refine ⟨⟨hcell, fun j hj => ?_⟩, fun h => absurd h hneg⟩
    dsimp only
    rw [toInt_of_nonneg (by omega), cell_eq_div_mod ha.below hi, testBit_place hj]
    rfl

/-- Behind the digits there are copies of the sign. -/
theorem testBit_behind (ha : a.Canonical) (hk : digitBits * a.absSize ≤ k) :
    a.toInt.testBit k = decide (a.obSize < 0) := by
  obtain ⟨d, -, hd⟩ := bitwiseOperand_ends ha
  rw [hd.testBit, if_neg (not_lt.mpr hk)]

theorem digitOf_cell (ha : a.Canonical) (hpos : 0 ≤ a.obSize) (hi : i < a.absSize) :
    DigitOf a.toInt i (cell a.obDigit i) := by
  have h := (@twosDigit_spec a i 0 ha hi fun hneg => absurd hneg (by omega)).1
  rwa [decide_eq_false (by omega)] at h

end Digits

/-! ### Digit by digit -/

/-- The buffer holds what the positions of the first `i` digits of the mask give. -/
structure Gathered (M X : ℤ) (len i : ℕ) (r : BitBuffer) : Prop where
  filled : Filled len (gather M.testBit X.testBit (digitBits * i)) (bitCount M.testBit (digitBits * i)) r
  started : bitCount M.testBit (digitBits * i) = 0 ∨ 0 < r.resultShift

section Gathering

variable {M X : ℤ} {len i k d v : ℕ} {r : BitBuffer} {l : List ℕ}

theorem Gathered.empty (M X : ℤ) (len : ℕ) : Gathered M X len 0 (emptyBuffer len) := by
  refine ⟨?_, .inl ?_⟩
  · rw [Nat.mul_zero, bitCount_zero]
    exact Filled.empty len
  · rw [Nat.mul_zero, bitCount_zero]

theorem DigitOf.bitCount (h : DigitOf M i d) : Gather.bitCount M.testBit (digitBits * (i + 1)) =
    Gather.bitCount M.testBit (digitBits * i) + popcount digitBits d := by
  rw [Nat.mul_succ, bitCount_add, popcount_eq_bitCount]
  congr 1
  exact bitCount_congr fun j hj => (h.testBit j hj).symm

theorem DigitOf.gather (hm : DigitOf M i d) (hx : DigitOf X i v) :
    Gather.gather M.testBit X.testBit (digitBits * (i + 1)) = Gather.gather M.testBit X.testBit (digitBits * i) +
      Gather.gather d.testBit v.testBit digitBits * 2 ^ Gather.bitCount M.testBit (digitBits * i) := by
  rw [Nat.mul_succ, gather_add, Nat.mul_comm (2 ^ _)]
  congr 2
  exact gather_congr (fun j hj => (hm.testBit j hj).symm) fun j hj => (hx.testBit j hj).symm

theorem Gathered.skip (h : Gathered M X len i r) (hm : DigitOf M i 0) : Gathered M X len (i + 1) r := by
  have hnone : ∀ j < digitBits, (M.testBit (digitBits * i + j) && X.testBit (digitBits * i + j)) = false := by
    intro j hj
    rw [← hm.testBit j hj, Nat.zero_testBit, Bool.false_and]
  have hcount : bitCount M.testBit (digitBits * (i + 1)) = bitCount M.testBit (digitBits * i) := by
    rw [hm.bitCount, popcount_eq_bitCount, bitCount_eq_zero fun j _ => Nat.zero_testBit j, Nat.add_zero]
  refine ⟨?_, ?_⟩
  · rw [hcount, Nat.mul_succ, gather_of_zeros hnone]
    exact h.filled
  · rw [hcount]
    exact h.started

theorem popcount_le (x : ℕ) : popcount digitBits x ≤ digitBits := by
  rw [popcount_eq_bitCount]
  exact bitCount_le

/-- A digit of the mask that is not zero appends its bits. -/
theorem Gathered.append (h : Gathered M X len i r) (hm : DigitOf M i d) (hx : DigitOf X i v) (hd : d ≠ 0)
    (hroom : Gather.bitCount M.testBit (digitBits * (i + 1)) ≤ digitBits * len) :
    0 < popcount digitBits d ∧ Ends (pext v d) fun w => Ends (appendBits r w (popcount digitBits d))
      (Gathered M X len (i + 1)) := by
  have hpos : 0 < popcount digitBits d := Nat.pos_of_ne_zero fun h0 => hd ((popcount_eq_zero hm.lt).mp h0)
  refine ⟨hpos, (pext_ends hm.lt).mono ?_⟩
  rintro _ rfl
  have hlt : Gather.gather d.testBit v.testBit digitBits < 2 ^ popcount digitBits d := by
    rw [popcount_eq_bitCount]
    exact gather_lt
  rw [hm.bitCount] at hroom
  refine (appendBits_ends h.filled hlt hpos hroom).mono ?_
  rintro r' ⟨hfilled, hshift⟩
  refine ⟨?_, .inr hshift⟩
  rw [hm.bitCount, hm.gather hx]
  exact hfilled

/-- The digits of the mask are counted. -/
theorem countBits_ends (hlen : k ≤ l.length) (hm : ∀ i < k, DigitOf M i (cell l i)) :
    Ends (forLoop (fun i n => do some (n + popcount digitBits (← rd l i))) 0 k 0) fun n =>
      n = Gather.bitCount M.testBit (digitBits * k) := by
  refine forLoop_ends_zero (fun i n => n = Gather.bitCount M.testBit (digitBits * i)) ?_ ?_
  · rw [Nat.mul_zero, bitCount_zero]
  · rintro i _ hi rfl
    rw [rd_of_lt (by omega), some_bind]
    exact Ends.pure (hm i hi).bitCount.symm

theorem le_ceilDigits (n : ℕ) : n ≤ digitBits * ceilDigits n := by
  unfold ceilDigits digitBits
  omega

/-- A result that is not negative. -/
theorem Filled.normalize {V T : ℕ} (h : Filled len V T r) :
    Ends (intNormalize ⟨len, r.obDigit⟩) fun z => z.Canonical ∧ z.toInt = V := by
  have hnorm := intNormalize_pos h.length.ge h.below
  rwa [h.value] at hnorm

end Gathering

/-! ### Operands that are not negative -/

section Impl

variable {self mask : DeeInt} {k : ℕ}

/-- No bits are left behind the shorter of two operands that are not negative. -/
theorem none_behind (hself : self.Canonical) (hmask : mask.Canonical) (hx : 0 ≤ self.obSize) (hm : 0 ≤ mask.obSize)
    (hk : digitBits * min self.absSize mask.absSize ≤ k) : (mask.toInt.testBit k && self.toInt.testBit k) = false := by
  rcases Nat.le_total self.absSize mask.absSize with hle | hle
  · rw [Nat.min_eq_left hle] at hk
    rw [testBit_behind hself hk, decide_eq_false (by omega), Bool.and_false]
  · rw [Nat.min_eq_right hle] at hk
    rw [testBit_behind hmask hk, decide_eq_false (by omega), Bool.false_and]

theorem intPextImpl_ends (hself : self.Canonical) (hmask : mask.Canonical) (hx : 0 ≤ self.obSize)
    (hm : 0 ≤ mask.obSize) :
    Ends (intPextImpl self.obDigit mask.obDigit (min self.absSize mask.absSize)) fun r => r.Canonical ∧
      Gathers mask.toInt.testBit self.toInt.testBit r.toInt.testBit := by
  have hselflen := hself.len
  have hmasklen := hmask.len
  unfold intPextImpl
  refine Ends.bind (countBits_ends (M := mask.toInt) (by omega) fun i hi => digitOf_cell hmask hm (by omega)) ?_
  rintro _ rfl
  have hroom := le_ceilDigits (bitCount mask.toInt.testBit (digitBits * min self.absSize mask.absSize))
  generalize ceilDigits (bitCount mask.toInt.testBit (digitBits * min self.absSize mask.absSize)) = len at *
  refine Ends.bind (forLoop_ends_zero (Gathered mask.toInt self.toInt len) (Gathered.empty _ _ len) ?_) ?_
  · intro i r hi h
    have hdm := digitOf_cell hmask hm (i := i) (by omega)
    have hdx := digitOf_cell hself hx (i := i) (by omega)
    rw [rd_of_lt (by omega), some_bind]
    by_cases hd : cell mask.obDigit i = 0
    · rw [if_pos hd]
      rw [hd] at hdm
      exact Ends.pure (h.skip hdm)
    · rw [if_neg hd, rd_of_lt (by omega), some_bind]
      obtain ⟨hpos, happend⟩ := h.append hdm hdx hd
        ((bitCount_mono (Nat.mul_le_mul_left _ (by omega))).trans hroom)
      refine Ends.bind happend fun w hw => ?_
      dsimp only
      rw [assert_of hpos, some_bind, assert_of (popcount_le _), some_bind]
      exact hw
  · intro r h
    refine h.filled.normalize.mono fun z hz => ⟨hz.1, ?_⟩
    rw [hz.2]
    exact gathers_of_zeros fun i hi => none_behind hself hmask hx hm hi

end Impl

/-! ### Negative operands -/

section Negative

variable {self mask : DeeInt} {i len : ℕ} {r : BitBuffer}

/-- A negative integer carries in front of its lowest set bit, and no longer behind it. -/
theorem carry_or_count (ha : mask.Canonical) (hneg : mask.obSize < 0) (hi : i ≤ mask.absSize) :
    (twosCarry mask.obDigit i = 1 ∧ bitCount mask.toInt.testBit (digitBits * i) = 0) ∨
      (twosCarry mask.obDigit i = 0 ∧ 0 < bitCount mask.toInt.testBit (digitBits * i)) := by
  induction i with
  | zero =>
    refine .inl ⟨rfl, ?_⟩
    rw [Nat.mul_zero, bitCount_zero]
  | succ i ih =>
    have hcell := ha.cell_lt hi
    obtain ⟨hd, hnext⟩ := twosDigit_spec ha hi fun _ => rfl
    have hpop := popcount_eq_zero hd.lt
    rw [← hnext hneg, hd.bitCount]
    rw [decide_eq_true hneg, twosDigit, if_pos rfl, xor_digitMask hcell, and_digitMask, shiftRight_digitBits] at *
    dsimp only at hpop ⊢
    rcases ih (by omega) with ⟨hc, hcount⟩ | ⟨hc, hcount⟩
    · rw [hc] at hpop ⊢
      rw [hcount]
      by_cases hx : cell mask.obDigit i = 0
      · refine .inl ⟨?_, ?_⟩
        · rw [hx]
          rfl
        · rw [Nat.zero_add, hpop, hx]
          rfl
      · refine .inr ⟨?_, ?_⟩
        · unfold digitBase digitMask at *
          omega
        · rw [Nat.zero_add, Nat.pos_iff_ne_zero, Ne, hpop]
          unfold digitBase digitMask at *
          omega
    · rw [hc]
      refine .inr ⟨?_, by omega⟩
      unfold digitBase digitMask at *
      omega

/-- A negative mask has a set bit in its digits. -/
theorem count_pos (ha : mask.Canonical) (hneg : mask.obSize < 0) :
    0 < bitCount mask.toInt.testBit (digitBits * mask.absSize) := by
  have hmag := ha.mag_pos (by unfold absSize; omega)
  rcases carry_or_count ha hneg le_rfl with ⟨hc, -⟩ | ⟨-, hpos⟩
  · unfold twosCarry at hc
    rw [if_neg (show seg digitBase mask.obDigit 0 mask.absSize ≠ 0 from hmag.ne')] at hc
    cases hc
  · exact hpos

/-- Behind the digits of a negative mask all positions count. -/
theorem bitCount_behind (ha : mask.Canonical) (hneg : mask.obSize < 0) (hi : mask.absSize ≤ i) :
    bitCount mask.toInt.testBit (digitBits * i) =
      bitCount mask.toInt.testBit (digitBits * mask.absSize) + digitBits * (i - mask.absSize) := by
  obtain ⟨d, rfl⟩ := Nat.exists_eq_add_of_le hi
  rw [Nat.add_sub_cancel_left, Nat.mul_add, bitCount_add]
  congr 1
  exact bitCount_eq_self fun j _ => by rw [testBit_behind ha (Nat.le_add_right _ j), decide_eq_true hneg]

/-- The size of the result for a negative mask: the special case without bits is never taken. -/
theorem negMaskNbits_ends (hmask : mask.Canonical) (hneg : mask.obSize < 0) :
    Ends (negMaskNbits (decide (self.obSize < 0)) self.absSize (min self.absSize mask.absSize) mask) fun o => ∃ n,
      o = some n ∧ bitCount mask.toInt.testBit (digitBits * self.absSize) ≤ n ∧
      (self.obSize < 0 → ceilDigits n = bitCount mask.toInt.testBit (digitBits * self.absSize) / digitBits + 1) := by
  have hlen := hmask.len
  unfold negMaskNbits
  dsimp only
  generalize hcommon : (if decide (self.obSize < 0) = true then min self.absSize mask.absSize else mask.absSize) = k
  have hk : k ≤ mask.absSize := by
    split_ifs at hcommon
    · omega
    · omega
  have hshort : k < self.absSize → k = mask.absSize := by
    split_ifs at hcommon
    · omega
    · omega
  have hlong : self.obSize < 0 → k ≤ self.absSize := fun hx => by
    rw [decide_eq_true hx, if_pos rfl] at hcommon
    omega
  refine Ends.bind (P := fun s => s = (twosCarry mask.obDigit k, bitCount mask.toInt.testBit (digitBits * k)))
    (forLoop_ends_zero (fun i s => s = (twosCarry mask.obDigit i, bitCount mask.toInt.testBit (digitBits * i))) ?_ ?_) ?_
  · rw [Nat.mul_zero, bitCount_zero]
    rfl
  · rintro i _ hi rfl
    obtain ⟨hd, hnext⟩ := twosDigit_spec hmask (show i < mask.absSize by omega) fun _ => rfl
    rw [decide_eq_true hneg] at hd hnext
    dsimp only
    rw [rd_of_lt (by omega), some_bind]
    refine Ends.pure ?_
    rw [hnext hneg, hd.bitCount]
  · rintro _ rfl
    dsimp only
    have hcarry := carry_or_count hmask hneg hk
    rw [assert_of (by omega), some_bind, if_neg (by omega)]
    refine Ends.pure ⟨_, rfl, ?_⟩
    by_cases hlt : k < self.absSize
    · obtain rfl := hshort hlt
      have hpos := count_pos hmask hneg
      rw [if_pos hlt, bitCount_behind hmask hneg hlt.le, Nat.mul_comm digitBits (self.absSize - _)]
      unfold ceilDigits digitBits at *
      split_ifs with hx
      · omega
      · rw [decide_eq_true_eq] at hx
        omega
    · have hmono : bitCount mask.toInt.testBit (digitBits * self.absSize) ≤
          bitCount mask.toInt.testBit (digitBits * k) := bitCount_mono (Nat.mul_le_mul_left _ (by omega))
      rw [if_neg hlt]
      by_cases hx : self.obSize < 0
      · obtain rfl : self.absSize = k := by
          have := hlong hx
          omega
        rw [decide_eq_true hx, if_pos rfl]
        unfold ceilDigits digitBits at *
        omega
      · rw [decide_eq_false hx, if_neg Bool.false_ne_true]
        exact ⟨by omega, fun h => absurd h hx⟩

/-- What the main loop keeps: both carries, and what the buffer holds. -/
structure Extracted (x m : DeeInt) (len i : ℕ) (s : ℕ × ℕ × BitBuffer) : Prop where
  maskCarry : m.obSize < 0 → s.1 = twosCarry m.obDigit i
  selfCarry : x.obSize < 0 → s.2.1 = twosCarry x.obDigit i
  gathered : Gathered m.toInt x.toInt len i s.2.2

theorem pextRound_ends {s : ℕ × ℕ × BitBuffer} (hself : self.Canonical) (hmask : mask.Canonical)
    (hi : i < min self.absSize mask.absSize)
    (hroom : bitCount mask.toInt.testBit (digitBits * (i + 1)) ≤ digitBits * len) (h : Extracted self mask len i s) :
    Ends (pextRound (decide (self.obSize < 0)) (decide (mask.obSize < 0)) self.obDigit mask.obDigit i s)
      (Extracted self mask len (i + 1)) := by
  obtain ⟨maskCarry, selfCarry, r⟩ := s
  obtain ⟨hmc, hsc, hr⟩ := h
  dsimp only at hmc hsc hr
  have hselflen := hself.len
  have hmasklen := hmask.len
  obtain ⟨hdm, hnextm⟩ := twosDigit_spec hmask (show i < mask.absSize by omega) hmc
  obtain ⟨hdx, hnextx⟩ := twosDigit_spec hself (show i < self.absSize by omega) hsc
  unfold pextRound
  dsimp only
  rw [rd_of_lt (by omega), some_bind]
  generalize twosDigit (decide (mask.obSize < 0)) maskCarry (cell mask.obDigit i) = m at hdm hnextm ⊢
  obtain ⟨m, maskCarry'⟩ := m
  dsimp only at hdm hnextm ⊢
  by_cases hm : m = 0
  · subst hm
    rw [if_pos rfl]
    by_cases hx : self.obSize < 0
    · rw [decide_eq_true hx] at hnextx ⊢
      rw [if_pos rfl, rd_of_lt (by omega), some_bind]
      exact Ends.pure ⟨hnextm, hnextx, hr.skip hdm⟩
    · rw [decide_eq_false hx, if_neg Bool.false_ne_true]
      exact Ends.pure ⟨hnextm, fun h => absurd h hx, hr.skip hdm⟩
  · rw [if_neg hm, rd_of_lt (by omega), some_bind]
    generalize twosDigit (decide (self.obSize < 0)) selfCarry (cell self.obDigit i) = v at hdx hnextx ⊢
    obtain ⟨v, selfCarry'⟩ := v
    dsimp only at hdx hnextx ⊢
    obtain ⟨hpos, happend⟩ := hr.append hdm hdx hm hroom
    refine Ends.bind happend fun w hw => ?_
    rw [assert_of hpos, some_bind]
    exact Ends.bind hw fun r' hr' => Ends.pure ⟨hnextm, hnextx, hr'⟩

/-- A digit of ones takes the digit behind it as it is. -/
theorem gather_digitMask {v : ℕ} (hv : v < digitBase) : gather digitMask.testBit v.testBit digitBits = v := by
  have hones : ∀ i < digitBits, digitMask.testBit i = true := fun i hi => by
    unfold digitMask
    rw [Nat.testBit_two_pow_sub_one, decide_eq_true hi]
  refine Nat.eq_of_testBit_eq fun i => ?_
  rw [testBit_gather_of_ones hones]
  by_cases hi : i < digitBits
  · rw [decide_eq_true hi, Bool.true_and]
  · rw [decide_eq_false hi, Bool.false_and]
    exact (Nat.testBit_eq_false_of_lt (lt_of_lt_of_le hv (Nat.pow_le_pow_right Nat.two_pos (not_lt.mp hi)))).symm

theorem digitOf_ones (ha : mask.Canonical) (hneg : mask.obSize < 0) (hi : mask.absSize ≤ i) :
    DigitOf mask.toInt i digitMask := by
  refine ⟨by decide, fun j hj => ?_⟩
  have hle := Nat.mul_le_mul_left digitBits hi
  rw [testBit_behind ha (by omega), decide_eq_true hneg]
  unfold digitMask
  rw [Nat.testBit_two_pow_sub_one, decide_eq_true hj]

/-- The digits of `self` behind a negative mask are taken as they are; the buffer is never at the start of a digit, so
the copy of whole digits is not reached. -/
theorem appendRest_ends {selfCarry : ℕ} (hself : self.Canonical) (hmask : mask.Canonical) (hneg : mask.obSize < 0)
    (hroom : bitCount mask.toInt.testBit (digitBits * self.absSize) ≤ digitBits * len)
    (hcarry : self.obSize < 0 → selfCarry = twosCarry self.obDigit (min self.absSize mask.absSize))
    (h : Gathered mask.toInt self.toInt len (min self.absSize mask.absSize) r) :
    Ends (appendRest (decide (self.obSize < 0)) self.obDigit (min self.absSize mask.absSize) self.absSize selfCarry r)
      (Gathered mask.toInt self.toInt len self.absSize) := by
  have hselflen := hself.len
  unfold appendRest
  by_cases hlt : min self.absSize mask.absSize < self.absSize
  · have hmin : min self.absSize mask.absSize = mask.absSize := by omega
    rw [hmin] at h hcarry hlt ⊢
    have hshift : r.resultShift ≠ 0 := by
      rcases h.started with h0 | hpos
      · have := count_pos hmask hneg
        omega
      · exact hpos.ne'
    rw [if_pos hlt, if_neg fun hcopy => hshift hcopy.2]
    have hloop := forLoop_ends (n := self.absSize - mask.absSize) (a := mask.absSize)
      (f := fun i (s : ℕ × BitBuffer) => do
        let (v, selfCarry) := twosDigit (decide (self.obSize < 0)) s.1 (← rd self.obDigit i)
        let r ← appendBits s.2 v digitBits
        some (selfCarry, r))
      (fun i s => (self.obSize < 0 → s.1 = twosCarry self.obDigit i) ∧ Gathered mask.toInt self.toInt len i s.2)
      (s := (selfCarry, r)) ⟨hcarry, h⟩ ?_
    · rw [Nat.add_sub_cancel' hlt.le] at hloop
      exact Ends.bind hloop fun s hs => Ends.pure hs.2
    · rintro i ⟨c, r⟩ hlo hhi ⟨hc, hr⟩
      dsimp only at hc hr ⊢
      obtain ⟨hdx, hnextx⟩ := twosDigit_spec hself (show i < self.absSize by omega) hc
      have hdm := digitOf_ones hmask hneg hlo
      have hpop : popcount digitBits digitMask = digitBits := by decide
      have hcount := hdm.bitCount
      have hgather := hdm.gather hdx
      rw [hpop] at hcount
      rw [gather_digitMask hdx.lt] at hgather
      rw [rd_of_lt (by omega), some_bind]
      refine Ends.bind (appendBits_ends hr.filled hdx.lt (by decide) ?_) ?_
      · rw [← hcount]
        exact (bitCount_mono (Nat.mul_le_mul_left _ (by omega))).trans hroom
      · rintro r' ⟨hfilled, hpos⟩
        refine Ends.pure ⟨hnextx, ?_, .inr hpos⟩
        rw [hcount, hgather]
        exact hfilled
  · have hmin : min self.absSize mask.absSize = self.absSize := by omega
    rw [if_neg hlt]
    rw [hmin] at h
    exact Ends.pure h

/-- The ones from a position of a digit on. -/
theorem lastmask_eq {s : ℕ} (hs : s ≤ digitBits) :
    (digitMask <<< s) &&& digitMask = (2 ^ (digitBits - s) - 1) <<< s := by
  have hprod : 2 ^ s * 2 ^ (digitBits - s) = digitBase := by
    rw [← pow_add, Nat.add_sub_cancel' hs]
  have hmask : digitMask = 2 ^ s * 2 ^ (digitBits - s) - 1 := by
    rw [hprod]
  rw [and_digitMask, Nat.shiftLeft_eq, Nat.shiftLeft_eq, hmask, ← hprod]
  obtain ⟨a, ha⟩ := Nat.exists_eq_succ_of_ne_zero (Nat.two_pow_pos s).ne'
  obtain ⟨b, hb⟩ := Nat.exists_eq_succ_of_ne_zero (Nat.two_pow_pos (digitBits - s)).ne'
  rw [ha, hb, Nat.succ_sub_one]
  have hsub : (a + 1) * (b + 1) - 1 = a * b + a + b := by
    have : (a + 1) * (b + 1) = a * b + a + b + 1 := by ring
    omega
  have hsplit : (a * b + a + b) * (a + 1) = (a + 1) * (b + 1) * a + b * (a + 1) := by ring
  rw [Nat.succ_eq_add_one, Nat.succ_eq_add_one, hsub, hsplit, Nat.mul_add_mod, Nat.mod_eq_of_lt]
  calc b * (a + 1) < (b + 1) * (a + 1) := Nat.mul_lt_mul_of_pos_right b.lt_succ_self a.succ_pos
    _ = (a + 1) * (b + 1) := Nat.mul_comm _ _

/-- A negative result: the complement takes back the ones above the bits. -/
theorem negateBuffer_ends {V T nbits : ℕ} (h : Filled len V T r) (hlen : len = T / digitBits + 1) (hnbits : T ≤ nbits) :
    Ends (negateBuffer nbits len r) fun z => z.Canonical ∧ z.toInt = twoComp T V true := by
  obtain ⟨index, shift, hindex, hshift, h'⟩ : ∃ index shift, (if r.resultShift = digitBits then (r.resultIndex + 1, 0)
      else (r.resultIndex, r.resultShift)) = (index, shift) ∧ shift < digitBits ∧
      Filled len V T ⟨index, shift, r.obDigit⟩ := by
    by_cases hfull : r.resultShift = digitBits
    · exact ⟨_, _, if_pos hfull, by decide, h.carryDigit hfull⟩
    · exact ⟨_, _, if_neg hfull, lt_of_le_of_ne h.shift hfull, h⟩
  have hpos : T = digitBits * index + shift := h'.pos
  have hlast : index + 1 = len := by
    rw [hlen, hpos, Nat.mul_add_div (by decide), Nat.div_eq_of_lt hshift, Nat.add_zero]
  have hrest : T + (digitBits - shift) = digitBits * len := by
    rw [← hlast, hpos, Nat.mul_succ]
    omega
  have hor := h'.orDigit (n := digitBits - shift) (w := 2 ^ (digitBits - shift) - 1) (by dsimp only; omega)
    (by dsimp only; omega) (Nat.sub_lt (Nat.two_pow_pos _) Nat.one_pos)
  have hindexlt : index < r.obDigit.length := by
    rw [h.length]
    omega
  dsimp only at hor
  have hones : (2 ^ (digitBits - shift) - 1) * 2 ^ T + 2 ^ T = 2 ^ (digitBits * len) := by
    rw [← hrest, pow_add, Nat.mul_comm (2 ^ T), ← Nat.succ_mul, Nat.succ_eq_add_one, Nat.sub_add_cancel Nat.one_le_two_pow]
  have hlt : 2 ^ T < 2 ^ (digitBits * len) := Nat.pow_lt_pow_right (by decide) (by omega)
  unfold negateBuffer
  rw [assert_of h.shift, some_bind, hindex]
  dsimp only
  rw [assert_of hlast, some_bind, assert_of (by rw [Nat.mul_comm]; omega), some_bind, rd_of_lt hindexlt, some_bind,
    lastmask_eq hshift.le, wr_of_lt hindexlt, some_bind]
  refine Ends.bind (vComplement_ends hor.below hor.length.ge hor.length.ge (by rw [hor.value]; omega)) ?_
  rintro d ⟨hout, hbelow, hsum⟩
  rw [hor.value, ← two_pow_digitBits] at hsum
  have hnorm := intNormalize_neg (by rw [hout.length]; exact hor.length.ge) hbelow
  refine hnorm.mono fun z hz => ⟨hz.1, ?_⟩
  rw [hz.2, twoComp, if_pos rfl]
  have hseg : seg digitBase d 0 len + V = 2 ^ T := by omega
  have hcast : (seg digitBase d 0 len : ℤ) + V = 2 ^ T := by exact_mod_cast hseg
  linarith

end Negative

/-! ### Ones behind a negative integer -/

section Ones

variable {len V T index n a b R nbits : ℕ} {digits : List ℕ} {r : BitBuffer}

theorem ones_add : V + (2 ^ a - 1) * 2 ^ T + (2 ^ b - 1) * 2 ^ (T + a) = V + (2 ^ (a + b) - 1) * 2 ^ T := by
  obtain ⟨x, hx⟩ := Nat.exists_eq_succ_of_ne_zero (Nat.two_pow_pos a).ne'
  obtain ⟨y, hy⟩ := Nat.exists_eq_succ_of_ne_zero (Nat.two_pow_pos b).ne'
  have hprod : (x + 1) * (y + 1) - 1 = x + (x + 1) * y := by
    have : (x + 1) * (y + 1) = x + (x + 1) * y + 1 := by ring
    omega
  rw [pow_add, pow_add, hx, hy, Nat.succ_eq_add_one, Nat.succ_eq_add_one, Nat.add_sub_cancel, Nat.add_sub_cancel, hprod]
  ring

/-- Ones in a digit that holds nothing yet. -/
theorem Filled.ones (h : Filled len V T ⟨index, 0, digits⟩) (hlt : index < len) (hn : n ≤ digitBits) :
    Filled len (V + (2 ^ n - 1) * 2 ^ T) (T + n) ⟨index, n, digits.set index (2 ^ n - 1)⟩ := by
  have hcell : cell digits index = 0 := by
    have hlt' : cell digits index < 2 ^ 0 := h.cell_lt hlt
    omega
  have hor := h.orDigit (n := n) (w := 2 ^ n - 1) hlt (by dsimp only; omega)
    (Nat.sub_lt (Nat.two_pow_pos n) Nat.one_pos)
  dsimp only at hor
  rwa [hcell, Nat.zero_or, Nat.shiftLeft_zero, Nat.zero_add] at hor

theorem appendDigitsOfOnes_ends (h : Filled len V T ⟨index, 0, digits⟩) (hroom : T + digitBits * n ≤ digitBits * len) :
    Ends (fillCells digits index digitMask n) fun d =>
      Filled len (V + (2 ^ (digitBits * n) - 1) * 2 ^ T) (T + digitBits * n) ⟨index + n, 0, d⟩ := by
  have hpos : T = digitBits * index + 0 := h.pos
  refine forLoop_ends_zero (fun k d =>
    Filled len (V + (2 ^ (digitBits * k) - 1) * 2 ^ T) (T + digitBits * k) ⟨index + k, 0, d⟩) ?_ ?_
  · rw [Nat.mul_zero, pow_zero, Nat.sub_self, Nat.zero_mul]
    exact h
  · intro k d hk h'
    have hlt : index + k < len := by
      unfold digitBits at *
      omega
    have hlen : d.length = len := h'.length
    rw [wr_of_lt (by rw [hlen]; exact hlt)]
    have hones := (h'.ones hlt le_rfl).carryDigit rfl
    rw [ones_add, Nat.add_assoc, ← Nat.mul_succ] at hones
    exact Ends.pure hones

theorem appendOnes_ends (h : Filled len V T ⟨index, 0, digits⟩) (hroom : T + R ≤ digitBits * len) :
    Ends (appendOnes index R digits) fun d => ∃ r, r.obDigit = d ∧ Filled len (V + (2 ^ R - 1) * 2 ^ T) (T + R) r := by
  have hpos : T = digitBits * index + 0 := h.pos
  have hdiv : digitBits * (R / digitBits) + R % digitBits = R := Nat.div_add_mod R digitBits
  have hfill : (if digitBits ≤ R then fillCells digits index digitMask (R / digitBits) else some digits) =
      fillCells digits index digitMask (R / digitBits) := by
    split_ifs with hle
    · rfl
    · rw [Nat.div_eq_of_lt (by omega)]
      rfl
  have hpair : (if digitBits ≤ R then (index + R / digitBits, R - R / digitBits * digitBits) else (index, R)) =
      (index + R / digitBits, R % digitBits) := by
    split_ifs with hle
    · rw [Nat.mul_comm, Nat.mod_eq_sub]
    · rw [Nat.div_eq_of_lt (by omega), Nat.mod_eq_of_lt (by omega)]
      rfl
  unfold appendOnes
  dsimp only
  rw [hfill, hpair]
  refine Ends.bind (appendDigitsOfOnes_ends h (by omega)) fun d hd => ?_
  by_cases hrest : R % digitBits = 0
  · rw [if_neg (not_not.mpr hrest)]
    rw [hrest, Nat.add_zero] at hdiv
    rw [hdiv] at hd
    exact Ends.pure ⟨_, rfl, hd⟩
  · have hlt : index + R / digitBits < len := by
      unfold digitBits at *
      omega
    have hlen : d.length = len := hd.length
    rw [if_pos hrest, Nat.one_shiftLeft, wr_of_lt (by rw [hlen]; exact hlt)]
    have hones := hd.ones hlt (Nat.mod_lt R (by decide)).le
    rw [ones_add, Nat.add_assoc, hdiv] at hones
    exact Ends.pure ⟨_, rfl, hones⟩

theorem fillOnes_ends (h : Filled len V T r) (hle : T ≤ nbits) (hroom : nbits ≤ digitBits * len) :
    Ends (fillOnes nbits r) fun d => ∃ r', r'.obDigit = d ∧
      Filled len (V + (2 ^ (nbits - T) - 1) * 2 ^ T) nbits r' := by
  obtain ⟨index, shift, hindex, hshift, h'⟩ : ∃ index shift, (if digitBits ≤ r.resultShift then
      (r.resultIndex + 1, r.resultShift - digitBits) else (r.resultIndex, r.resultShift)) = (index, shift) ∧
      shift < digitBits ∧ Filled len V T ⟨index, shift, r.obDigit⟩ := by
    by_cases hfull : digitBits ≤ r.resultShift
    · have heq : r.resultShift = digitBits := le_antisymm h.shift hfull
      refine ⟨_, _, if_pos hfull, ?_, ?_⟩
      · rw [heq]
        decide
      · rw [heq]
        exact h.carryDigit heq
    · exact ⟨_, _, if_neg hfull, not_le.mp hfull, h⟩
  have hpos : T = r.resultShift + r.resultIndex * digitBits := by
    rw [Nat.add_comm, Nat.mul_comm]
    exact h.pos
  have hpos' : T = digitBits * index + shift := h'.pos
  unfold fillOnes
  rw [← hpos, assert_of hle, some_bind, hindex]
  dsimp only
  by_cases hs : shift = 0
  · subst hs
    rw [if_neg (not_not.mpr rfl)]
    have hend := appendOnes_ends h' (R := nbits - T) (by omega)
    rwa [Nat.add_sub_cancel' hle] at hend
  · have hlt : index < len := by
      unfold digitBits at *
      omega
    rw [if_pos hs, rd_of_lt (by rw [h.length]; exact hlt), some_bind, wr_of_lt (by rw [h.length]; exact hlt), some_bind,
      Nat.one_shiftLeft]
    generalize hfirst : min (digitBits - shift) (nbits - T) = first
    have hor := h'.orDigit (n := first) (w := 2 ^ first - 1) hlt (by dsimp only; omega)
      (Nat.sub_lt (Nat.two_pow_pos first) Nat.one_pos)
    dsimp only at hor
    by_cases hlast : nbits - T - first = 0
    · rw [if_pos hlast]
      obtain rfl : first = nbits - T := by omega
      rw [Nat.add_sub_cancel' hle] at hor
      exact Ends.pure ⟨_, rfl, hor⟩
    · rw [if_neg hlast]
      have hend := appendOnes_ends (hor.carryDigit (by dsimp only; omega)) (R := nbits - T - first) (by omega)
      rwa [ones_add, show first + (nbits - T - first) = nbits - T by omega,
        show T + first + (nbits - T - first) = nbits by omega] at hend

end Ones

/-! ### Any signs -/

section Signs

variable {self mask : DeeInt} {nbits : ℕ}

section Pext

variable (hself : self.Canonical) (hmask : mask.Canonical)
include hself hmask

/-- The loop over the digits that both operands have. -/
theorem pextLoop_ends
    (hroom : bitCount mask.toInt.testBit (digitBits * min self.absSize mask.absSize) ≤ digitBits * ceilDigits nbits) :
    Ends (forLoop (pextRound (decide (self.obSize < 0)) (decide (mask.obSize < 0)) self.obDigit mask.obDigit) 0
      (min self.absSize mask.absSize) (1, 1, emptyBuffer (ceilDigits nbits)))
      (Extracted self mask (ceilDigits nbits) (min self.absSize mask.absSize)) := by
  refine forLoop_ends_zero (Extracted self mask (ceilDigits nbits)) ⟨fun _ => rfl, fun _ => rfl, Gathered.empty _ _ _⟩ ?_
  intro i s hi h
  exact pextRound_ends hself hmask hi ((bitCount_mono (Nat.mul_le_mul_left _ hi)).trans hroom) h

theorem pextSized_neg_ends (hneg : mask.obSize < 0)
    (hcount : bitCount mask.toInt.testBit (digitBits * self.absSize) ≤ nbits)
    (hsize : self.obSize < 0 → ceilDigits nbits = bitCount mask.toInt.testBit (digitBits * self.absSize) / digitBits + 1) :
    Ends (pextSized self mask nbits) fun r => r.Canonical ∧
      Gathers mask.toInt.testBit self.toInt.testBit r.toInt.testBit := by
  have hroom := hcount.trans (le_ceilDigits nbits)
  unfold pextSized
  dsimp only
  refine Ends.bind (pextLoop_ends hself hmask
    ((bitCount_mono (Nat.mul_le_mul_left _ (Nat.min_le_left _ _))).trans hroom)) ?_
  rintro ⟨maskCarry, selfCarry, r⟩ h
  dsimp only
  rw [if_pos (decide_eq_true hneg)]
  refine Ends.bind (appendRest_ends hself hmask hneg hroom h.selfCarry h.gathered) fun r' hr' => ?_
  by_cases hx : self.obSize < 0
  · rw [if_pos (decide_eq_true hx)]
    refine (negateBuffer_ends hr'.filled (hsize hx) hcount).mono fun z hz => ⟨hz.1, ?_⟩
    have hbits := gathers_of_ones (m := mask.toInt.testBit) (x := self.toInt.testBit) (n := digitBits * self.absSize)
      (k := digitBits * mask.absSize) (fun i hi => by rw [testBit_behind hself hi, decide_eq_true hx])
      (fun i hi => by rw [testBit_behind hmask hi, decide_eq_true hneg])
    rw [hz.2, show (twoComp _ _ true).testBit = _ from funext (testBit_twoComp gather_lt)]
    exact hbits
  · rw [if_neg (by rw [decide_eq_true_eq]; exact hx)]
    refine hr'.filled.normalize.mono fun z hz => ⟨hz.1, ?_⟩
    rw [hz.2]
    exact gathers_of_zeros fun i hi => by rw [testBit_behind hself hi, decide_eq_false hx, Bool.and_false]

theorem pextSized_nonneg_ends (hpos : 0 ≤ mask.obSize)
    (hcount : nbits = bitCount mask.toInt.testBit (digitBits * mask.absSize)) :
    Ends (pextSized self mask nbits) fun r => r.Canonical ∧
      Gathers mask.toInt.testBit self.toInt.testBit r.toInt.testBit := by
  have hroom := le_ceilDigits nbits
  have hmono : bitCount mask.toInt.testBit (digitBits * min self.absSize mask.absSize) ≤ nbits := by
    rw [hcount]
    exact bitCount_mono (Nat.mul_le_mul_left _ (Nat.min_le_right _ _))
  unfold pextSized
  dsimp only
  refine Ends.bind (pextLoop_ends hself hmask (hmono.trans hroom)) ?_
  rintro ⟨maskCarry, selfCarry, r⟩ h
  dsimp only
  rw [if_neg (by rw [decide_eq_true_eq]; omega)]
  by_cases hx : self.obSize < 0 ∧ min self.absSize mask.absSize < mask.absSize
  · rw [if_pos ⟨decide_eq_true hx.1, hx.2⟩]
    refine Ends.bind (fillOnes_ends h.gathered.filled hmono hroom) ?_
    rintro _ ⟨r', rfl, hr'⟩
    refine hr'.normalize.mono fun z hz => ⟨hz.1, ?_⟩
    have hmin : min self.absSize mask.absSize = self.absSize := by omega
    have hsize : digitBits * mask.absSize = digitBits * self.absSize + digitBits * (mask.absSize - self.absSize) := by
      rw [← Nat.mul_add, Nat.add_sub_cancel' (by omega)]
    have hones := gather_of_ones (m := mask.toInt.testBit) (x := self.toInt.testBit) (n := digitBits * self.absSize)
      (k := digitBits * (mask.absSize - self.absSize))
      fun i _ => by rw [testBit_behind hself (Nat.le_add_right _ i), decide_eq_true hx.1]
    rw [← hsize, ← hcount] at hones
    rw [hmin] at hz hmono
    have hval : z.toInt = (gather mask.toInt.testBit self.toInt.testBit (digitBits * mask.absSize) : ℕ) := by
      rw [hz.2]
      congr 1
      have hpow : (2 ^ (nbits - bitCount mask.toInt.testBit (digitBits * self.absSize)) - 1) *
          2 ^ bitCount mask.toInt.testBit (digitBits * self.absSize) +
          2 ^ bitCount mask.toInt.testBit (digitBits * self.absSize) = 2 ^ nbits := by
        rw [← Nat.succ_mul, Nat.succ_eq_add_one, Nat.sub_add_cancel Nat.one_le_two_pow, ← pow_add,
          Nat.sub_add_cancel hmono]
      omega
    rw [hval]
    exact gathers_of_zeros fun i hi => by rw [testBit_behind hmask hi, decide_eq_false (by omega), Bool.false_and]
  · rw [if_neg (by rw [decide_eq_true_eq]; exact hx)]
    refine h.gathered.filled.normalize.mono fun z hz => ⟨hz.1, ?_⟩
    rw [hz.2]
    refine gathers_of_zeros fun i hi => ?_
    by_cases hneg : self.obSize < 0
    · have hmin : min self.absSize mask.absSize = mask.absSize := by
        have hnot := fun hlt => hx ⟨hneg, hlt⟩
        omega
      rw [hmin] at hi
      rw [testBit_behind hmask hi, decide_eq_false (by omega), Bool.false_and]
    · exact none_behind hself hmask (by omega) hpos hi

/-- `int_pext` gathers the bits of `self` at the positions of `mask`. -/
theorem intPext_ends :
    Ends (intPext self mask) fun r => r.Canonical ∧
      Gathers mask.toInt.testBit self.toInt.testBit r.toInt.testBit := by
  have hmasklen := hmask.len
  unfold intPext
  by_cases hboth : 0 ≤ self.obSize ∧ 0 ≤ mask.obSize
  · rw [if_pos hboth]
    exact intPextImpl_ends hself hmask hboth.1 hboth.2
  · rw [if_neg hboth]
    unfold intPextExImpl
    by_cases hneg : mask.obSize < 0
    · rw [if_pos hneg]
      refine Ends.bind (negMaskNbits_ends hmask hneg) ?_
      rintro _ ⟨n, rfl, hcount, hsize⟩
      exact pextSized_neg_ends hself hmask hneg hcount hsize
    · rw [if_neg hneg]
      refine Ends.bind (countBits_ends (M := mask.toInt) hmasklen fun i hi => digitOf_cell hmask (by omega) hi) ?_
      intro n hn
      exact pextSized_nonneg_ends hself hmask (by omega) hn

end Pext

end Signs

/-! ### Depositing -/

/-- The first `i` digits of the result hold the deposited bits, and the two counters say where `self` is read next. -/
structure Deposited (x m : DeeInt) (i selfIndex selfShift : ℕ) (digits : List ℕ) : Prop where
  length : digits.length = m.absSize
  pos : digitBits * selfIndex + selfShift = bitCount m.toInt.testBit (digitBits * i)
  shift : selfShift < digitBits
  below : Below digitBase digits 0 i
  value : seg digitBase digits 0 i = scatter m.toInt.testBit x.toInt.testBit (digitBits * i)

section Depositing

variable {self mask : DeeInt} {i selfIndex selfShift d v : ℕ} {digits : List ℕ}

/-- A digit that is deposited from the right bits. -/
theorem Deposited.store (h : Deposited self mask i selfIndex selfShift digits) (hi : i < mask.absSize)
    (hm : DigitOf mask.toInt i d) (hv : ∀ j < popcount digitBits d,
      v.testBit j = self.toInt.testBit (digitBits * selfIndex + selfShift + j)) :
    Below digitBase (digits.set i (scatter d.testBit v.testBit digitBits)) 0 (i + 1) ∧
      seg digitBase (digits.set i (scatter d.testBit v.testBit digitBits)) 0 (i + 1) =
        scatter mask.toInt.testBit self.toInt.testBit (digitBits * (i + 1)) := by
  have hlen : 0 + i < digits.length := by
    rw [h.length]
    omega
  have hset := seg_set_last (B := digitBase) (v := scatter d.testBit v.testBit digitBits) hlen
  have hbelow := h.below.set_out (v := scatter d.testBit v.testBit digitBits) (i := i) (by omega)
  rw [Nat.zero_add] at hset hlen
  refine ⟨hbelow.succ ?_, ?_⟩
  · rw [Nat.zero_add, cell_set_self hlen]
    exact scatter_lt
  · have hcongr : scatter (fun j => mask.toInt.testBit (digitBits * i + j))
        (fun j => self.toInt.testBit (bitCount mask.toInt.testBit (digitBits * i) + j)) digitBits =
        scatter d.testBit v.testBit digitBits := by
      refine (scatter_congr (fun j hj => hm.testBit j hj) fun j hj => ?_).symm
      rw [← popcount_eq_bitCount] at hj
      rw [hv j hj, h.pos]
    rw [hset, h.value, Nat.mul_succ, scatter_add, hcongr, two_pow_digitBits, Nat.mul_comm (digitBase ^ i)]

/-- The bits of `self` that are left in the digit that is read. -/
theorem testBit_rest (hself : self.Canonical) (hpos : 0 ≤ self.obSize) (hi : selfIndex < self.absSize) (j : ℕ) :
    (cell self.obDigit selfIndex >>> selfShift).testBit j =
      (decide (selfShift + j < digitBits) && self.toInt.testBit (digitBits * selfIndex + selfShift + j)) := by
  have hd := digitOf_cell hself hpos hi
  rw [Nat.testBit_shiftRight]
  by_cases hj : selfShift + j < digitBits
  · rw [hd.testBit _ hj, decide_eq_true hj, Bool.true_and, Nat.add_assoc]
  · rw [decide_eq_false hj, Bool.false_and]
    exact Nat.testBit_eq_false_of_lt (lt_of_lt_of_le hd.lt (Nat.pow_le_pow_right Nat.two_pos (not_lt.mp hj)))

/-- The bits of the next digit come in behind them. -/
theorem testBit_joined (hself : self.Canonical) (hpos : 0 ≤ self.obSize) (hi : selfIndex + 1 < self.absSize)
    (hs : selfShift < digitBits) {j : ℕ} (hj : j < digitBits) :
    (cell self.obDigit selfIndex >>> selfShift |||
      cell self.obDigit (selfIndex + 1) <<< (digitBits - selfShift) % 2 ^ 32).testBit j =
      self.toInt.testBit (digitBits * selfIndex + selfShift + j) := by
  have hd := digitOf_cell hself hpos hi
  rw [Nat.testBit_or, testBit_rest hself hpos (by omega), Nat.testBit_mod_two_pow, Nat.testBit_shiftLeft,
    decide_eq_true (show j < 32 by unfold digitBits at hj; omega), Bool.true_and]
  by_cases hlow : selfShift + j < digitBits
  · rw [decide_eq_true hlow, decide_eq_false (by omega), Bool.true_and, Bool.false_and, Bool.or_false]
  · rw [decide_eq_false hlow, decide_eq_true (by omega), Bool.false_and, Bool.true_and, Bool.false_or,
      hd.testBit _ (by omega), Nat.mul_succ]
    congr 1
    omega

/-- Where no digit of `self` is left, no bit is left for the positions of the mask. -/
theorem none_left (hself : self.Canonical) (hmask : mask.Canonical) (hx : 0 ≤ self.obSize) (hm : 0 ≤ mask.obSize)
    {j : ℕ} (hj : digitBits * min self.absSize mask.absSize ≤ bitCount mask.toInt.testBit j) :
    (mask.toInt.testBit j && self.toInt.testBit (bitCount mask.toInt.testBit j)) = false := by
  rcases Nat.le_total self.absSize mask.absSize with hle | hle
  · rw [Nat.min_eq_left hle] at hj
    rw [testBit_behind hself hj, decide_eq_false (by omega), Bool.and_false]
  · rw [Nat.min_eq_right hle] at hj
    rw [testBit_behind hmask (hj.trans bitCount_le), decide_eq_false (by omega), Bool.false_and]

/-- The word that a digit of the mask is filled from, where the bits of one digit of `self` run out. -/
theorem joinedWord_ends (hself : self.Canonical) (hx : 0 ≤ self.obSize)
    (h : Deposited self mask i selfIndex selfShift digits) (hi : i < mask.absSize) (hm : DigitOf mask.toInt i d)
    (hindex : selfIndex < min self.absSize mask.absSize) (hwrap : digitBits ≤ selfShift + popcount digitBits d) :
    Ends (if selfIndex + 1 < min self.absSize mask.absSize then do
        some (cell self.obDigit selfIndex >>> selfShift ||| (← rd self.obDigit (selfIndex + 1)) <<<
          (popcount digitBits d - (selfShift + popcount digitBits d - digitBits)) % 2 ^ 32)
      else some (cell self.obDigit selfIndex >>> selfShift)) fun v => ∀ j < popcount digitBits d,
      v.testBit j = self.toInt.testBit (digitBits * selfIndex + selfShift + j) := by
  have hselflen := hself.len
  have hpop := popcount_le d
  have hs := h.shift
  by_cases hnext : selfIndex + 1 < min self.absSize mask.absSize
  · rw [if_pos hnext, rd_of_lt (by omega), some_bind,
      show popcount digitBits d - (selfShift + popcount digitBits d - digitBits) = digitBits - selfShift by omega]
    exact Ends.pure fun j hj => testBit_joined hself hx (by omega) hs (by omega)
  · rw [if_neg hnext]
    refine Ends.pure fun j hj => ?_
    rw [testBit_rest hself hx (by omega)]
    by_cases hlow : selfShift + j < digitBits
    · rw [decide_eq_true hlow, Bool.true_and]
    · rw [decide_eq_false hlow, Bool.false_and]
      -- the mask has no more positions than the digits that are left have bits
      have hcount : bitCount mask.toInt.testBit (digitBits * (i + 1)) ≤ digitBits * (i + 1) := bitCount_le
      have hlast := Nat.mul_le_mul_left digitBits (show i + 1 ≤ mask.absSize from hi)
      have hpos := h.pos
      rw [hm.bitCount] at hcount
      have hend : digitBits * (selfIndex + 1) ≤ digitBits * selfIndex + selfShift + j := by
        rw [Nat.mul_succ]
        omega
      have hsize : selfIndex + 1 = self.absSize := by
        by_contra hne
        have hmin : selfIndex + 1 = mask.absSize := by omega
        rw [← hmin] at hlast
        omega
      rw [hsize] at hend
      rw [testBit_behind hself hend, decide_eq_false (by omega)]

theorem scatter_zero (x : ℕ → Bool) (n : ℕ) : scatter (Nat.testBit 0) x n = 0 := by
  have h := scatter_of_zeros (m := Nat.testBit 0) (x := x) (n := 0) (k := n) fun i _ => by
    rw [Nat.zero_testBit, Bool.false_and]
  rwa [Nat.zero_add] at h

theorem pdepLoop_ends (hself : self.Canonical) (hmask : mask.Canonical) (hx : 0 ≤ self.obSize) (hm : 0 ≤ mask.obSize) :
    Ends (loop (pdepRound self.obDigit (min self.absSize mask.absSize) mask.obDigit mask.absSize) (mask.absSize + 1)
      (0, 0, 0, (deeIntAlloc mask.absSize).obDigit)) fun r => r.1 ≤ r.2.length ∧ Below digitBase r.2 0 r.1 ∧
      seg digitBase r.2 0 r.1 = scatter mask.toInt.testBit self.toInt.testBit (digitBits * mask.absSize) := by
  have hselflen := hself.len
  have hmasklen := hmask.len
  refine loop_ends (fun s => s.1 ≤ mask.absSize ∧ Deposited self mask s.1 s.2.1 s.2.2.1 s.2.2.2)
    (fun s => mask.absSize - s.1) ⟨Nat.zero_le _, deeIntAlloc_obDigit_length _, ?_, Nat.succ_pos 29, ?_, ?_⟩ (by omega) ?_
  · dsimp only
    rw [Nat.mul_zero, bitCount_zero]
  · exact fun i hi => absurd hi (Nat.not_lt_zero i)
  · dsimp only
    rw [Nat.mul_zero]
    rfl
  rintro ⟨i, selfIndex, selfShift, digits⟩ ⟨hi, h⟩
  dsimp only at hi h
  have hlen := h.length
  have hs := h.shift
  unfold pdepRound
  dsimp only
  by_cases hgo : i < mask.absSize ∧ selfIndex < min self.absSize mask.absSize
  · have hd := digitOf_cell hmask hm hgo.1
    rw [if_pos hgo, rd_of_lt (by omega), some_bind]
    generalize cell mask.obDigit i = d at hd ⊢
    have hpop := popcount_le d
    by_cases hzero : d ≠ 0
    · rw [if_pos hzero, rd_of_lt (by omega), some_bind]
      by_cases hwrap : digitBits ≤ selfShift + popcount digitBits d
      · rw [if_pos hwrap]
        refine Ends.bind (joinedWord_ends hself hx h hgo.1 hd hgo.2 hwrap) fun v hv => ?_
        refine Ends.bind (pdep_ends hd.lt) ?_
        rintro _ rfl
        obtain ⟨hbelow, hvalue⟩ := h.store hgo.1 hd hv
        rw [wr_of_lt (by omega), some_bind]
        refine Ends.pure ⟨⟨hgo.1, ?_, ?_, by dsimp only; omega, hbelow, hvalue⟩, by dsimp only; omega⟩
        · rw [List.length_set, hlen]
        · dsimp only
          rw [hd.bitCount, ← h.pos, Nat.mul_succ]
          omega
      · rw [if_neg hwrap]
        have hv : ∀ j < popcount digitBits d, (cell self.obDigit selfIndex >>> selfShift).testBit j =
            self.toInt.testBit (digitBits * selfIndex + selfShift + j) := fun j hj => by
          rw [testBit_rest hself hx (by omega), decide_eq_true (by omega), Bool.true_and]
        refine Ends.bind (pdep_ends hd.lt) ?_
        rintro _ rfl
        obtain ⟨hbelow, hvalue⟩ := h.store hgo.1 hd hv
        rw [wr_of_lt (by omega), some_bind]
        refine Ends.pure ⟨⟨hgo.1, ?_, ?_, by dsimp only; omega, hbelow, hvalue⟩, by dsimp only; omega⟩
        · rw [List.length_set, hlen]
        · dsimp only
          rw [hd.bitCount, ← h.pos, Nat.add_assoc]
    · rw [if_neg hzero, wr_of_lt (by omega), some_bind]
      obtain rfl : d = 0 := not_not.mp hzero
      obtain ⟨hbelow, hvalue⟩ := h.store (v := 0) hgo.1 hd fun j hj => absurd hj (by
        rw [popcount_eq_bitCount, bitCount_eq_zero fun j _ => Nat.zero_testBit j]
        exact Nat.not_lt_zero j)
      rw [scatter_zero] at hbelow hvalue
      refine Ends.pure ⟨⟨hgo.1, ?_, ?_, hs, hbelow, hvalue⟩, by dsimp only; omega⟩
      · rw [List.length_set, hlen]
      · dsimp only
        rw [hd.bitCount, ← h.pos, popcount_eq_bitCount, bitCount_eq_zero fun j _ => Nat.zero_testBit j, Nat.add_zero]
  · rw [if_neg hgo]
    refine Ends.pure ⟨by dsimp only; omega, h.below, ?_⟩
    dsimp only
    rw [h.value]
    rcases Nat.eq_or_lt_of_le hi with rfl | hlt
    · rfl
    · have hindex : min self.absSize mask.absSize ≤ selfIndex := by
        have hnot := fun hlt' => hgo ⟨hlt, hlt'⟩
        omega
      have hleft := Nat.mul_le_mul_left digitBits hindex
      have hpos := h.pos
      refine scatter_eq_of_zeros (fun j hj => none_left hself hmask hx hm ?_) fun j hj => ?_
      · have hmono : bitCount mask.toInt.testBit (digitBits * i) ≤ bitCount mask.toInt.testBit j := bitCount_mono hj
        omega
      · rw [testBit_behind hmask hj, decide_eq_false (by omega), Bool.false_and]

/-- `int_pdep` scatters the bits of `self` to the positions of `mask`. -/
theorem intPdep_ends (hself : self.Canonical) (hmask : mask.Canonical) (hx : 0 ≤ self.toInt) (hm : 0 ≤ mask.toInt) :
    Ends (intPdep self mask) fun r => r.Canonical ∧ 0 ≤ r.toInt ∧
      Scatters mask.toInt.testBit self.toInt.testBit r.toInt.testBit := by
  have hx' : 0 ≤ self.obSize := not_lt.mp fun h => absurd (hself.toInt_neg_iff.mpr h) (not_lt.mpr hx)
  have hm' : 0 ≤ mask.obSize := not_lt.mp fun h => absurd (hmask.toInt_neg_iff.mpr h) (not_lt.mpr hm)
  unfold intPdep intPdepImpl
  rw [if_pos ⟨hx', hm'⟩]
  refine Ends.bind (pdepLoop_ends hself hmask hx' hm') ?_
  rintro ⟨n, digits⟩ ⟨hlen, hbelow, hvalue⟩
  dsimp only at hlen hbelow hvalue ⊢
  refine (intNormalize_pos hlen hbelow).mono fun z hz => ?_
  rw [hz.2, hvalue]
  refine ⟨hz.1, Int.natCast_nonneg _, scatters_of_zeros fun i hi => ?_⟩
  rw [testBit_behind hmask hi, decide_eq_false (by omega), Bool.false_and]

end Depositing

end Deemon.Int
