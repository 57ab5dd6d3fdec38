import Deemon.Int.AddSub

/-!
# Operands of one machine word

`DeeInt_AddSDigit`, `DeeInt_AddUInt32`, `DeeInt_SubSDigit` and `DeeInt_SubUInt32` of `int_logic.c` take their second
operand as a machine integer. It has one digit or two, and the first operand has at least two by the time that the
loops run, so that a carry or a borrow of the low digits only has to travel through the rest (`addTail`, `subTail`).

When the operand and the magnitude have two digits each, the larger one has to be found first. `x_sub_int2` puts the
digits together and compares the values, `x_sub_revint2` compares the low digits.
-/

namespace Deemon.Int

open Deemon.Run Deemon.Radix DeeInt

/-! ### Magnitudes and words -/

/-- The rest of `x_sub_int`, `x_sub_int2` and `x_sub_revint`: the borrow goes through the other digits. -/
def subTail (sign : ℤ) (a : DeeInt) (k : ℕ) (r : ℕ × List ℕ) : Option DeeInt := do
  let (borrow, digits) ← forLoop (fun i (borrow, digits) => do subRound borrowSub digits i borrow (← rd a.obDigit i) 0)
    k (a.absSize - k) r
  assert (borrow = 0)
  intNormalize ⟨a.absSize * sign, digits⟩

/-- `x_add_int`. -/
def xAddInt (a : DeeInt) (b : ℕ) : Option DeeInt := do
  assert (2 ≤ a.absSize)
  let z := deeIntAlloc (a.absSize + 1)
  let r ← addRound 32 z.obDigit 0 0 ((← rd a.obDigit 0) + b)
  addTail a 1 r

/-- `x_add_int2`. -/
def xAddInt2 (a : DeeInt) (b : ℕ) : Option DeeInt := do
  assert (2 ≤ a.absSize)
  let z := deeIntAlloc (a.absSize + 1)
  let (carry, digits) ← addRound 32 z.obDigit 0 0 ((← rd a.obDigit 0) + (b &&& digitMask))
  let r ← addRound 32 digits 1 carry ((← rd a.obDigit 1) + (b >>> digitBits &&& digitMask))
  addTail a 2 r

/-- `x_sub_revint`: the operand minus the magnitude of `b`. -/
def xSubRevint (a : ℕ) (b : DeeInt) : Option DeeInt := do
  assert (2 ≤ b.absSize)
  let z := deeIntAlloc b.absSize
  let r ← subRound borrowSub z.obDigit 0 0 (← rd b.obDigit 0) a
  subTail (-1) b 1 r

/-- `x_sub_int`: the magnitude of `a` minus the operand. -/
def xSubInt (a : DeeInt) (b : ℕ) : Option DeeInt := do
  assert (2 ≤ a.absSize)
  let z := deeIntAlloc a.absSize
  let r ← subRound borrowSub z.obDigit 0 0 (← rd a.obDigit 0) b
  subTail 1 a 1 r

/-- The results of `x_sub_int2` for a magnitude of two digits. -/
def ofTwoDigits (sign : ℤ) (v : ℕ) : DeeInt :=
  if v ≤ digitMask then ⟨sign, (deeIntAlloc 1).obDigit.set 0 v⟩
  else ⟨2 * sign, ((deeIntAlloc 2).obDigit.set 0 (v &&& digitMask)).set 1 (v >>> digitBits &&& digitMask)⟩

/-- `x_sub_int2`. -/
def xSubInt2 (a : DeeInt) (b : ℕ) : Option DeeInt := do
  assert (2 ≤ a.absSize)
  if a.absSize = 2 then do
    let aValue := (← rd a.obDigit 1) <<< digitBits ||| (← rd a.obDigit 0)
    if aValue = b then some deeIntNewZero
    else if aValue < b then some (ofTwoDigits (-1) (b - aValue))
    else some (ofTwoDigits 1 (aValue - b))
  else do
    let z := deeIntAlloc a.absSize
    let (borrow, digits) ← subRound borrowSub z.obDigit 0 0 (← rd a.obDigit 0) (b &&& digitMask)
    let r ← subRound borrowSub digits 1 borrow (← rd a.obDigit 1) (b >>> digitBits &&& digitMask)
    subTail 1 a 2 r

/-- `x_sub_revint2`. -/
def xSubRevint2 (a : ℕ) (b : DeeInt) : Option DeeInt := do
  assert (2 ≤ b.absSize)
  let reversed := do some (negSize (← xSubInt2 b a))
  if 2 < b.absSize then reversed
  else do
    assert (2 = b.absSize)
    let b0 ← rd b.obDigit 0
    let b1 ← rd b.obDigit 1
    if a &&& digitMask = b0 ∧ a >>> digitBits &&& digitMask = b1 then some deeIntNewZero
    else if a &&& digitMask = b0 ∧ a >>> digitBits &&& digitMask < b1 then reversed
    else if a &&& digitMask < b0 then reversed
    else do
      let z := deeIntAlloc 2
      let (borrow, digits) ← subRound borrowSub z.obDigit 0 0 (a &&& digitMask) b0
      let (borrow, digits) ← subRound borrowSub digits 1 borrow (a >>> digitBits &&& digitMask) b1
      assert (borrow = 0)
      intNormalize ⟨2, digits⟩

/-! ### The operations -/

/-- `DeeInt_AddSDigit`. -/
def deeIntAddSDigit (a : DeeInt) (b : ℤ) : Option DeeInt :=
  if b = 0 then some a
  else if a.absSize ≤ 1 then do
    deeIntNewInt32 (← sfits 32 ((← mediumValue a) + b))
  else if a.obSize < 0 then
    if b < 0 then do
      let z ← xAddInt a b.natAbs
      some (if z.obSize ≠ 0 then negSize z else z)
    else
      xSubRevint b.natAbs a
  else if b < 0 then
    xSubInt a b.natAbs
  else
    xAddInt a b.natAbs

/-- `DeeInt_AddUInt32`. -/
def deeIntAddUInt32 (a : DeeInt) (b : ℕ) : Option DeeInt :=
  if b = 0 then some a
  else if a.absSize ≤ 1 then do
    deeIntNewInt64 (← sfits 64 ((← mediumValue a) + b))
  else if a.obSize < 0 then
    if b ≤ digitMask then xSubRevint b a
    else xSubRevint2 b a
  else if b ≤ digitMask then
    xAddInt a b
  else
    xAddInt2 a b

/-- `DeeInt_SubSDigit`. -/
def deeIntSubSDigit (a : DeeInt) (b : ℤ) : Option DeeInt :=
  if a.absSize ≤ 1 then do
    deeIntNewInt32 (← sfits 32 ((← mediumValue a) - b))
  else if a.obSize < 0 then do
    let z ← if b < 0 then xSubInt a b.natAbs else xAddInt a b.natAbs
    some (negSize z)
  else if b < 0 then
    xAddInt a b.natAbs
  else
    xSubInt a b.natAbs

/-- `DeeInt_SubUInt32`. -/
def deeIntSubUInt32 (a : DeeInt) (b : ℕ) : Option DeeInt :=
  if a.absSize ≤ 1 then do
    deeIntNewInt64 (← sfits 64 ((← mediumValue a) - b))
  else if a.obSize < 0 then do
    let z ← if b ≤ digitMask then xAddInt a b else xAddInt2 a b
    some (negSize z)
  else if b ≤ digitMask then
    xSubInt a b
  else
    xSubInt2 a b

/-- An operation with a machine integer gives the canonical integer that the general operation gives. -/
def AgreesWith (m : Option DeeInt) (op : DeeInt → Option DeeInt) (b : ℤ) : Prop :=
  ∃ c z w, deeIntNewInt64 b = some c ∧ m = some z ∧ op c = some w ∧ z.Canonical ∧ w.Canonical ∧ z.toInt = w.toInt

/-- The four operations, with a digit `s` that has a sign and a word `u`. -/
structure SmallOperandsAgree (a : DeeInt) (s : ℤ) (u : ℕ) : Prop where
  addSDigit : AgreesWith (deeIntAddSDigit a s) (intAdd a) s
  addUInt32 : AgreesWith (deeIntAddUInt32 a u) (intAdd a) u
  subSDigit : AgreesWith (deeIntSubSDigit a s) (intSub a) s
  subUInt32 : AgreesWith (deeIntSubUInt32 a u) (intSub a) u

/-- A negative integer and a word of two digits each, of which the low ones and the high ones compare differently. -/
def DigitsCross (a : DeeInt) (u : ℕ) : Prop :=
  a.obSize = -2 ∧ cell a.obDigit 0 < u % digitBase ∧ 0 < u / digitBase ∧ u / digitBase < cell a.obDigit 1

/-! ### What the loops leave -/

section Tails

variable {a : DeeInt} {k b : ℕ} {r : ℕ × List ℕ}

theorem subTail_ends {sign : ℤ} (ha : a.WF) (hsign : sign = 1 ∨ sign = -1) (hk : k ≤ a.absSize) (hb : b ≤ a.mag)
    (hr : Borrowed a.absSize 0 k (seg digitBase a.obDigit 0 k) b r) :
    Ends (subTail sign a k r) fun z => z.Canonical ∧ z.toInt = sign * ((a.mag : ℤ) - b) := by
  unfold subTail
  refine Ends.bind (borrowLoop_ends ha hk le_rfl hb hr) ?_
  rintro ⟨borrow, digits⟩ ⟨hzero, hlen, hbelow, hdiff⟩
  dsimp only at hzero hlen hbelow hdiff ⊢
  rw [assert_of hzero, some_bind]
  rcases hsign with rfl | rfl
  · rw [mul_one, one_mul]
    exact hdiff ▸ intNormalize_pos hlen.ge hbelow
  · rw [mul_neg_one, neg_one_mul]
    exact hdiff ▸ intNormalize_neg hlen.ge hbelow

end Tails

section Words

variable {a : DeeInt} {b : ℕ}

theorem Carried.alloc {n : ℕ} : Carried n 0 0 0 (0, (deeIntAlloc n).obDigit) := by
  have h := @Carried.zero (deeIntAlloc n).obDigit 0
  rwa [deeIntAlloc_obDigit_length] at h

theorem Borrowed.alloc {n : ℕ} : Borrowed n 0 0 0 0 (0, (deeIntAlloc n).obDigit) := by
  have h := @Borrowed.zero (deeIntAlloc n).obDigit 0
  rwa [deeIntAlloc_obDigit_length] at h

theorem lt_mag_of_two_le (ha : a.Canonical) (hsize : 2 ≤ a.absSize) : digitBase ≤ a.mag := by
  obtain ⟨n, hn⟩ : ∃ n, a.absSize = n + 1 := ⟨a.absSize - 1, by omega⟩
  have hle := ha.le_mag hn
  have hpow := Nat.pow_le_pow_right digitBase_pos (show 1 ≤ n by omega)
  rw [pow_one] at hpow
  exact le_trans hpow hle

theorem xAddInt_ends (ha : a.WF) (hsize : 2 ≤ a.absSize) (hb : b < digitBase) :
    Ends (xAddInt a b) fun z => z.Canonical ∧ z.toInt = a.mag + b := by
  have hx := ha.cell_lt (i := 0) (by omega)
  unfold xAddInt
  rw [assert_of hsize, some_bind, rd_of_lt (ha.lt_length (by omega)), some_bind]
  refine Ends.bind (addRound_ends Carried.alloc
    (show 0 + 0 < a.absSize + 1 by omega) (by unfold digitBase at *; omega)) ?_
  rintro r ⟨hr, hcarry, -⟩
  refine addTail_ends ha (by omega) (by unfold digitBase at *; omega) ?_
  rw [seg_one]
  simpa using hr

theorem xAddInt2_ends (ha : a.WF) (hsize : 2 ≤ a.absSize) (hb : b < 2 ^ 32) :
    Ends (xAddInt2 a b) fun z => z.Canonical ∧ z.toInt = a.mag + b := by
  have hx := ha.cell_lt (i := 0) (by omega)
  have hy := ha.cell_lt (i := 1) (by omega)
  have hsplit : b % digitBase + b / digitBase * digitBase = b := by
    rw [Nat.mul_comm]
    exact Nat.mod_add_div b digitBase
  have hhigh : b / digitBase % digitBase = b / digitBase := Nat.mod_eq_of_lt (by unfold digitBase; omega)
  unfold xAddInt2
  rw [assert_of hsize, some_bind, rd_of_lt (ha.lt_length (by omega)), some_bind, and_digitMask]
  refine Ends.bind (addRound_ends Carried.alloc
    (show 0 + 0 < a.absSize + 1 by omega) (by unfold digitBase at *; omega)) ?_
  rintro ⟨carry, digits⟩ ⟨hr, hcarry, -⟩
  dsimp only at hcarry ⊢
  rw [rd_of_lt (ha.lt_length (by omega)), some_bind, and_digitMask, shiftRight_digitBits, hhigh]
  refine Ends.bind (addRound_ends (s := 0) hr (show 0 + (0 + 1) < a.absSize + 1 by omega)
    (by unfold digitBase at *; omega)) ?_
  rintro r ⟨hr', hcarry', -⟩
  refine addTail_ends ha (by omega) (by unfold digitBase at *; omega) ?_
  rw [seg_succ, seg_one, ← hsplit]
  convert hr' using 1
  simp only [Nat.zero_add, pow_zero, pow_one, mul_one]
  ring

theorem xSubInt_ends (ha : a.Canonical) (hsize : 2 ≤ a.absSize) (hb : b < digitBase) :
    Ends (xSubInt a b) fun z => z.Canonical ∧ z.toInt = (a.mag : ℤ) - b := by
  have hmag := lt_mag_of_two_le ha hsize
  unfold xSubInt
  rw [assert_of hsize, some_bind, rd_of_lt (ha.lt_length (by omega)), some_bind]
  refine Ends.bind (subRound_ends Borrowed.alloc
    (show 0 + 0 < a.absSize by omega) (ha.cell_lt (by omega)) hb) ?_
  rintro r ⟨hr, -⟩
  refine (subTail_ends (b := b) ha.toWF (.inl rfl) (by omega) (by omega) ?_).mono fun z hz => ?_
  · rw [seg_one]
    simpa using hr
  · rwa [one_mul] at hz

theorem xSubRevint_ends (ha : a.Canonical) (hsize : 2 ≤ a.absSize) (hb : b < digitBase) :
    Ends (xSubRevint b a) fun z => z.Canonical ∧ z.toInt = (b : ℤ) - a.mag := by
  have hmag := lt_mag_of_two_le ha hsize
  unfold xSubRevint
  rw [assert_of hsize, some_bind, rd_of_lt (ha.lt_length (by omega)), some_bind]
  refine Ends.bind (subRound_ends Borrowed.alloc
    (show 0 + 0 < a.absSize by omega) (ha.cell_lt (by omega)) hb) ?_
  rintro r ⟨hr, -⟩
  refine (subTail_ends (b := b) ha.toWF (.inr rfl) (by omega) (by omega) ?_).mono fun z hz => ?_
  · rw [seg_one]
    simpa using hr
  · rwa [neg_one_mul, neg_sub] at hz

theorem ofTwoDigits_canonical (sign : ℤ) {v : ℕ} (hsign : sign = 1 ∨ sign = -1) (hpos : 0 < v)
    (hv : v < digitBase * digitBase) : (ofTwoDigits sign v).Canonical ∧ (ofTwoDigits sign v).toInt = sign * v := by
  unfold ofTwoDigits
  by_cases hone : v ≤ digitMask
  · rw [if_pos hone]
    exact oneDigit_canonical (l := []) hsign hpos (lt_of_le_of_lt hone (by decide))
  · rw [if_neg hone, and_digitMask, and_digitMask, shiftRight_digitBits,
      Nat.mod_eq_of_lt (Nat.div_lt_of_lt_mul hv)]
    have hdigits : ((deeIntAlloc 2).obDigit.set 0 (v % digitBase)).set 1 (v / digitBase) =
      [v % digitBase, v / digitBase] := rfl
    have habs : DeeInt.absSize ⟨2 * sign, [v % digitBase, v / digitBase]⟩ = 2 := by
      rcases hsign with rfl | rfl <;> rfl
    have hmag : DeeInt.mag ⟨2 * sign, [v % digitBase, v / digitBase]⟩ = v := by
      rw [DeeInt.mag, habs, seg_succ, seg_one]
      show v % digitBase + v / digitBase * digitBase ^ 1 = v
      rw [pow_one, Nat.mul_comm]
      exact Nat.mod_add_div v digitBase
    rw [hdigits]
    refine ⟨DeeInt.WF.canonical ⟨by rw [habs]; rfl, ?_⟩ fun n hn => ?_, ?_⟩
    · rw [habs]
      intro i hi
      have hlow : v % digitBase < digitBase := Nat.mod_lt _ digitBase_pos
      have hhigh : v / digitBase < digitBase := Nat.div_lt_of_lt_mul hv
      obtain rfl | rfl : i = 0 ∨ i = 1 := by omega
      · exact hlow
      · exact hhigh
    · obtain rfl : n = 1 := by omega
      rw [hmag, pow_one]
      unfold digitMask at hone
      unfold digitBase
      omega
    · rcases hsign with rfl | rfl
      · rw [DeeInt.toInt_of_nonneg (by norm_num), hmag, one_mul]
      · rw [DeeInt.toInt_of_neg (by norm_num), hmag, neg_one_mul]

/-- The digits of a magnitude of two digits, put together. -/
theorem mag_of_two (hsize : a.absSize = 2) : a.mag = cell a.obDigit 0 + cell a.obDigit 1 * digitBase := by
  rw [DeeInt.mag, hsize, seg_succ, seg_one, pow_one, Nat.zero_add]

theorem or_of_two (ha : a.WF) (hsize : a.absSize = 2) :
    cell a.obDigit 1 <<< digitBits ||| cell a.obDigit 0 = a.mag := by
  rw [← Nat.shiftLeft_add_eq_or_of_lt (ha.cell_lt (by omega)), mag_of_two hsize, Nat.shiftLeft_eq, Nat.add_comm]

/-- The two low digits of a word, subtracted from two digits. -/
theorem subTwo_ends {n x y : ℕ} (hn : 2 ≤ n) (hx : x < digitBase * digitBase) (hy : y < digitBase * digitBase) :
    Ends (subRound borrowSub (deeIntAlloc n).obDigit 0 0 (x % digitBase) (y % digitBase) >>= fun r =>
      subRound borrowSub r.2 1 r.1 (x / digitBase) (y / digitBase)) (Borrowed n 0 2 x y) := by
  refine Ends.bind (subRound_ends Borrowed.alloc (show 0 + 0 < n by omega) (Nat.mod_lt _ digitBase_pos)
    (Nat.mod_lt _ digitBase_pos)) ?_
  rintro ⟨borrow, digits⟩ ⟨hr, -⟩
  have hround := subRound_ends (s := 0) hr (show 0 + (0 + 1) < n by omega) (Nat.div_lt_of_lt_mul hx)
    (Nat.div_lt_of_lt_mul hy)
  refine hround.mono ?_
  rintro r ⟨hr', -⟩
  convert hr' using 1
  · simp only [Nat.zero_add, pow_zero, pow_one, mul_one]
    rw [Nat.mul_comm]
    exact (Nat.mod_add_div x digitBase).symm
  · simp only [Nat.zero_add, pow_zero, pow_one, mul_one]
    rw [Nat.mul_comm]
    exact (Nat.mod_add_div y digitBase).symm

/-- The two low digits of a magnitude as a number. -/
theorem seg_two (ha : a.WF) (hsize : 2 ≤ a.absSize) :
    seg digitBase a.obDigit 0 2 < digitBase * digitBase ∧
      seg digitBase a.obDigit 0 2 % digitBase = cell a.obDigit 0 ∧
      seg digitBase a.obDigit 0 2 / digitBase = cell a.obDigit 1 := by
  have hx := ha.cell_lt (i := 0) (by omega)
  have hlt := seg_lt (ha.below.mono hsize)
  rw [pow_two] at hlt
  refine ⟨hlt, seg_mod hx, ?_⟩
  rw [seg_div hx, seg_one]

theorem xSubInt2_ends (ha : a.Canonical) (hsize : 2 ≤ a.absSize) (hb : b < 2 ^ 32) :
    Ends (xSubInt2 a b) fun z => z.Canonical ∧ z.toInt = (a.mag : ℤ) - b := by
  have hwide : b < digitBase * digitBase := by
    unfold digitBase
    omega
  unfold xSubInt2
  rw [assert_of hsize, some_bind]
  by_cases htwo : a.absSize = 2
  · have hmag := ha.mag_lt
    rw [htwo, pow_two] at hmag
    rw [if_pos htwo, rd_of_lt (ha.lt_length (by omega)), some_bind, rd_of_lt (ha.lt_length (by omega)), some_bind,
      or_of_two ha.toWF htwo]
    dsimp only
    rcases lt_trichotomy a.mag b with hlt | heq | hgt
    · rw [if_neg hlt.ne, if_pos hlt]
      obtain ⟨hz, hval⟩ := ofTwoDigits_canonical (-1) (.inr rfl) (show 0 < b - a.mag by omega) (by omega)
      exact Ends.pure ⟨hz, by rw [hval]; omega⟩
    · rw [if_pos heq]
      exact Ends.pure ⟨deeIntNewZero_canonical.1, by rw [deeIntNewZero_canonical.2]; omega⟩
    · rw [if_neg hgt.ne', if_neg hgt.not_gt]
      obtain ⟨hz, hval⟩ := ofTwoDigits_canonical 1 (.inl rfl) (show 0 < a.mag - b by omega) (by omega)
      exact Ends.pure ⟨hz, by rw [hval]; omega⟩
  · have hlarge : b ≤ a.mag := by
      obtain ⟨n, hn⟩ : ∃ n, a.absSize = n + 1 := ⟨a.absSize - 1, by omega⟩
      have hpow := Nat.pow_le_pow_right digitBase_pos (show 2 ≤ n by omega)
      have := ha.le_mag hn
      rw [pow_two] at hpow
      omega
    obtain ⟨hlow, hmod, hdiv⟩ := seg_two ha.toWF hsize
    have hdown := subTwo_ends hsize hlow hwide
    rw [hmod, hdiv] at hdown
    obtain ⟨r, hr, hrow⟩ := hdown
    obtain ⟨s, hs, hrest⟩ := of_bind hr
    rw [if_neg htwo, rd_of_lt (ha.lt_length (by omega)), some_bind, and_digitMask, hs, some_bind]
    dsimp only
    rw [rd_of_lt (ha.lt_length (by omega)), some_bind, and_digitMask, shiftRight_digitBits,
      Nat.mod_eq_of_lt (Nat.div_lt_of_lt_mul hwide), hrest, some_bind]
    refine (subTail_ends (b := b) ha.toWF (.inl rfl) hsize hlarge hrow).mono fun z hz => ?_
    rwa [one_mul] at hz

/-- `x_sub_revint2` when the digits are of two digits each and the low digit of the word is not the smaller one. -/
theorem xSubRevint2_low (ha : a.Canonical) (hsize : a.absSize = 2) (hb : b < 2 ^ 32)
    (hlow : cell a.obDigit 0 < b % digitBase ∨ cell a.obDigit 0 = b % digitBase ∧ cell a.obDigit 1 < b / digitBase) :
    ∃ r, Borrowed 2 0 2 b a.mag r ∧ xSubRevint2 b a = (do
      assert (r.1 = 0)
      intNormalize ⟨2, r.2⟩) := by
  have hwide : b < digitBase * digitBase := by
    unfold digitBase
    omega
  have hmag := ha.mag_lt
  rw [hsize, pow_two] at hmag
  obtain ⟨-, hmod, hdiv⟩ := seg_two ha.toWF hsize.ge
  have hseg : a.mag = seg digitBase a.obDigit 0 2 := by rw [DeeInt.mag, hsize]
  rw [← hseg] at hmod hdiv
  have hdown := subTwo_ends le_rfl hwide hmag
  rw [hmod, hdiv] at hdown
  obtain ⟨r, hr, hrow⟩ := hdown
  obtain ⟨s, hs, hrest⟩ := of_bind hr
  refine ⟨r, hrow, ?_⟩
  unfold xSubRevint2
  rw [assert_of hsize.ge, some_bind, if_neg (by omega), assert_of hsize.symm, some_bind,
    rd_of_lt (ha.lt_length (by omega)), some_bind, rd_of_lt (ha.lt_length (by omega)), some_bind, and_digitMask,
    and_digitMask, shiftRight_digitBits, Nat.mod_eq_of_lt (Nat.div_lt_of_lt_mul hwide), if_neg (by omega),
    if_neg (by omega), if_neg (by omega)]
  change (subRound borrowSub (deeIntAlloc 2).obDigit 0 0 (b % digitBase) (cell a.obDigit 0) >>= _) = _
  rw [hs, some_bind]
  dsimp only
  rw [hrest, some_bind]

theorem xSubRevint2_ends (ha : a.Canonical) (hsize : 2 ≤ a.absSize) (hb : b < 2 ^ 32)
    (hcross : a.absSize = 2 → ¬(cell a.obDigit 0 < b % digitBase ∧ b / digitBase < cell a.obDigit 1)) :
    Ends (xSubRevint2 b a) fun z => z.Canonical ∧ z.toInt = (b : ℤ) - a.mag := by
  have hrev : Ends (do some (negSize (← xSubInt2 a b))) fun z => z.Canonical ∧ z.toInt = (b : ℤ) - a.mag := by
    refine Ends.bind (xSubInt2_ends ha hsize hb) fun z hz => Ends.pure ⟨hz.1.neg, ?_⟩
    rw [negSize, toInt_neg, hz.2, neg_sub]
  by_cases htwo : a.absSize = 2
  · have hwide : b < digitBase * digitBase := by
      unfold digitBase
      omega
    have hmag := mag_of_two htwo
    have hb' : b % digitBase + b / digitBase * digitBase = b := by
      rw [Nat.mul_comm]
      exact Nat.mod_add_div b digitBase
    by_cases hlow : cell a.obDigit 0 < b % digitBase ∨
        cell a.obDigit 0 = b % digitBase ∧ cell a.obDigit 1 < b / digitBase
    · obtain ⟨r, ⟨hlen, hbelow, hborrow, hval⟩, hrun⟩ := xSubRevint2_low ha htwo hb hlow
      have hle : a.mag ≤ b := by
        have hcell := ha.cell_lt (i := 0) (by omega)
        have hnot := hcross htwo
        have hhigh : cell a.obDigit 1 ≤ b / digitBase := by
          by_contra hgt
          rcases hlow with hlt | ⟨-, hlt⟩
          · exact hnot ⟨hlt, by omega⟩
          · omega
        have hmul : cell a.obDigit 1 * digitBase ≤ b / digitBase * digitBase := Nat.mul_le_mul_right _ hhigh
        omega
      have hzero : r.1 = 0 := by
        by_contra hne
        obtain h1 : r.1 = 1 := by omega
        have := seg_lt hbelow
        rw [h1] at hval
        omega
      rw [hrun, assert_of hzero, some_bind]
      refine (intNormalize_pos hlen.ge hbelow).mono fun z hz => ⟨hz.1, ?_⟩
      have hzval := hz.2
      rw [hzero] at hval
      omega
    · unfold xSubRevint2
      rw [assert_of hsize, some_bind, if_neg (by omega), assert_of htwo.symm, some_bind,
        rd_of_lt (ha.lt_length (by omega)), some_bind, rd_of_lt (ha.lt_length (by omega)), some_bind, and_digitMask,
        and_digitMask, shiftRight_digitBits, Nat.mod_eq_of_lt (Nat.div_lt_of_lt_mul hwide)]
      by_cases heq : b % digitBase = cell a.obDigit 0 ∧ b / digitBase = cell a.obDigit 1
      · rw [if_pos heq]
        refine Ends.pure ⟨deeIntNewZero_canonical.1, ?_⟩
        rw [deeIntNewZero_canonical.2, hmag, ← heq.1, ← heq.2, hb', sub_self]
      · rw [if_neg heq]
        by_cases hhigh : b % digitBase = cell a.obDigit 0 ∧ b / digitBase < cell a.obDigit 1
        · rw [if_pos hhigh]
          exact hrev
        · rw [if_neg hhigh, if_pos (by omega)]
          exact hrev
  · unfold xSubRevint2
    rw [assert_of hsize, some_bind, if_pos (by omega)]
    exact hrev

/-- With crossed digits the difference is taken the wrong way around, and the last borrow remains. -/
theorem xSubRevint2_none (ha : a.Canonical) (hsize : a.absSize = 2) (hb : b < 2 ^ 32)
    (hlow : cell a.obDigit 0 < b % digitBase) (hhigh : b / digitBase < cell a.obDigit 1) : xSubRevint2 b a = none := by
  obtain ⟨r, ⟨hlen, hbelow, hborrow, hval⟩, hrun⟩ := xSubRevint2_low ha hsize hb (.inl hlow)
  have hgt : b < a.mag := by
    have hmod := Nat.mod_lt b digitBase_pos
    have hb' : b % digitBase + b / digitBase * digitBase = b := by
      rw [Nat.mul_comm]
      exact Nat.mod_add_div b digitBase
    have hmul : (b / digitBase + 1) * digitBase ≤ cell a.obDigit 1 * digitBase := Nat.mul_le_mul_right _ hhigh
    rw [mag_of_two hsize]
    rw [Nat.add_mul, Nat.one_mul] at hmul
    omega
  have hne : r.1 ≠ 0 := by
    intro hzero
    rw [hzero] at hval
    omega
  rw [hrun, assert, if_neg hne]
  rfl

end Words

/-! ### Agreement -/

section Agreement

variable {a : DeeInt} {m : Option DeeInt} {b s : ℤ} {u : ℕ}

theorem AgreesWith.add (ha : a.Canonical) (hm : Ends m fun z => z.Canonical ∧ z.toInt = a.toInt + b) :
    AgreesWith m (intAdd a) b := by
  obtain ⟨c, hc, hcanon, hcval⟩ := newSigned_ends b
  obtain ⟨z, hz, hzcanon, hzval⟩ := hm
  obtain ⟨w, hw, hwcanon, hwval⟩ := intAdd_ends ha hcanon
  exact ⟨c, z, w, hc, hz, hw, hzcanon, hwcanon, by rw [hzval, hwval, hcval]⟩

theorem AgreesWith.sub (ha : a.Canonical) (hm : Ends m fun z => z.Canonical ∧ z.toInt = a.toInt - b) :
    AgreesWith m (intSub a) b := by
  obtain ⟨c, hc, hcanon, hcval⟩ := newSigned_ends b
  obtain ⟨z, hz, hzcanon, hzval⟩ := hm
  obtain ⟨w, hw, hwcanon, hwval⟩ := intSub_ends ha hcanon
  exact ⟨c, z, w, hc, hz, hw, hzcanon, hwcanon, by rw [hzval, hwval, hcval]⟩

theorem deeIntAddSDigit_ends (ha : a.Canonical) (hs : s.natAbs ≤ digitMask) :
    Ends (deeIntAddSDigit a s) fun z => z.Canonical ∧ z.toInt = a.toInt + s := by
  have hdigit : s.natAbs < digitBase := lt_of_le_of_lt hs (by decide)
  unfold deeIntAddSDigit
  split_ifs with hzero hsmall hneg hsneg hsneg
  · exact Ends.pure ⟨ha, by rw [hzero, add_zero]⟩
  · obtain ⟨hval, hlo, hhi⟩ := mediumValue_eq ha hsmall
    rw [hval, some_bind, sfits_of (by unfold digitBase at *; omega)]
    exact newSigned_ends _
  · refine Ends.bind (xAddInt_ends ha.toWF (by omega) hdigit) ?_
    rintro z ⟨hz, hval⟩
    rw [toInt_of_neg hneg]
    split_ifs with hsize
    · refine Ends.pure ⟨hz.neg, ?_⟩
      rw [negSize, toInt_neg, hval]
      omega
    · have hmag := lt_mag_of_two_le ha (by omega)
      rw [toInt_of_absSize_zero (by unfold absSize; omega)] at hval
      unfold digitBase at hmag
      omega
  · refine (xSubRevint_ends ha (by omega) hdigit).mono fun z hz => ⟨hz.1, ?_⟩
    rw [hz.2, toInt_of_neg hneg]
    omega
  · refine (xSubInt_ends ha (by omega) hdigit).mono fun z hz => ⟨hz.1, ?_⟩
    rw [hz.2, toInt_of_nonneg (by omega)]
    omega
  · refine (xAddInt_ends ha.toWF (by omega) hdigit).mono fun z hz => ⟨hz.1, ?_⟩
    rw [hz.2, toInt_of_nonneg (by omega)]
    omega

theorem deeIntSubSDigit_ends (ha : a.Canonical) (hs : s.natAbs ≤ digitMask) :
    Ends (deeIntSubSDigit a s) fun z => z.Canonical ∧ z.toInt = a.toInt - s := by
  have hdigit : s.natAbs < digitBase := lt_of_le_of_lt hs (by decide)
  unfold deeIntSubSDigit
  split_ifs with hsmall hneg hsneg hsneg
  · obtain ⟨hval, hlo, hhi⟩ := mediumValue_eq ha hsmall
    rw [hval, some_bind, sfits_of (by unfold digitBase at *; omega)]
    exact newSigned_ends _
  · refine Ends.bind (xSubInt_ends ha (by omega) hdigit) fun z hz => Ends.pure ⟨hz.1.neg, ?_⟩
    rw [negSize, toInt_neg, hz.2, toInt_of_neg hneg]
    omega
  · refine Ends.bind (xAddInt_ends ha.toWF (by omega) hdigit) fun z hz => Ends.pure ⟨hz.1.neg, ?_⟩
    rw [negSize, toInt_neg, hz.2, toInt_of_neg hneg]
    omega
  · refine (xAddInt_ends ha.toWF (by omega) hdigit).mono fun z hz => ⟨hz.1, ?_⟩
    rw [hz.2, toInt_of_nonneg (by omega)]
    omega
  · refine (xSubInt_ends ha (by omega) hdigit).mono fun z hz => ⟨hz.1, ?_⟩
    rw [hz.2, toInt_of_nonneg (by omega)]
    omega

theorem deeIntSubUInt32_ends (ha : a.Canonical) (hu : u < 2 ^ 32) :
    Ends (deeIntSubUInt32 a u) fun z => z.Canonical ∧ z.toInt = a.toInt - u := by
  unfold deeIntSubUInt32
  split_ifs with hsmall hneg hone hone
  · obtain ⟨hval, hlo, hhi⟩ := mediumValue_eq ha hsmall
    rw [hval, some_bind, sfits_of (by unfold digitBase at *; omega)]
    exact newSigned_ends _
  · refine Ends.bind (xAddInt_ends ha.toWF (by omega) (by unfold digitBase digitMask at *; omega)) fun z hz =>
      Ends.pure ⟨hz.1.neg, ?_⟩
    rw [negSize, toInt_neg, hz.2, toInt_of_neg hneg]
    ring
  · refine Ends.bind (xAddInt2_ends ha.toWF (by omega) hu) fun z hz => Ends.pure ⟨hz.1.neg, ?_⟩
    rw [negSize, toInt_neg, hz.2, toInt_of_neg hneg]
    ring
  · refine (xSubInt_ends ha (by omega) (by unfold digitBase digitMask at *; omega)).mono fun z hz => ⟨hz.1, ?_⟩
    rw [hz.2, toInt_of_nonneg (by omega)]
  · refine (xSubInt2_ends ha (by omega) hu).mono fun z hz => ⟨hz.1, ?_⟩
    rw [hz.2, toInt_of_nonneg (by omega)]

theorem deeIntAddUInt32_ends (ha : a.Canonical) (hu : u < 2 ^ 32) (hcross : ¬DigitsCross a u) :
    Ends (deeIntAddUInt32 a u) fun z => z.Canonical ∧ z.toInt = a.toInt + u := by
  unfold deeIntAddUInt32
  split_ifs with hzero hsmall hneg hone hone
  · exact Ends.pure ⟨ha, by rw [hzero]; simp⟩
  · obtain ⟨hval, hlo, hhi⟩ := mediumValue_eq ha hsmall
    rw [hval, some_bind, sfits_of (by unfold digitBase at *; omega)]
    exact newSigned_ends _
  · refine (xSubRevint_ends ha (by omega) (by unfold digitBase digitMask at *; omega)).mono fun z hz => ⟨hz.1, ?_⟩
    rw [hz.2, toInt_of_neg hneg]
    ring
  · refine (xSubRevint2_ends ha (by omega) hu fun hsize hdigits => hcross ⟨?_, hdigits.1, ?_, hdigits.2⟩).mono
      fun z hz => ⟨hz.1, ?_⟩
    · unfold absSize at hsize
      omega
    · exact Nat.div_pos (by unfold digitBase digitMask at *; omega) digitBase_pos
    · rw [hz.2, toInt_of_neg hneg]
      ring
  · refine (xAddInt_ends ha.toWF (by omega) (by unfold digitBase digitMask at *; omega)).mono fun z hz => ⟨hz.1, ?_⟩
    rw [hz.2, toInt_of_nonneg (by omega)]
  · refine (xAddInt2_ends ha.toWF (by omega) hu).mono fun z hz => ⟨hz.1, ?_⟩
    rw [hz.2, toInt_of_nonneg (by omega)]

theorem deeIntAddUInt32_none (ha : a.Canonical) (hu : u < 2 ^ 32) (hcross : DigitsCross a u) :
    deeIntAddUInt32 a u = none := by
  obtain ⟨hsize, hlow, hpos, hhigh⟩ := hcross
  have habs : a.absSize = 2 := by
    unfold absSize
    omega
  have htwo : ¬u ≤ digitMask := by
    intro hle
    rw [Nat.div_eq_of_lt (by unfold digitBase digitMask at *; omega)] at hpos
    exact lt_irrefl 0 hpos
  unfold deeIntAddUInt32
  rw [if_neg (by omega), if_neg (by omega), if_pos (by omega), if_neg htwo]
  exact xSubRevint2_none ha habs hu hlow hhigh

/-- The operations agree with the general ones unless digits cross in an addition. -/
theorem smallOperandsAgree_iff (ha : a.Canonical) (hs : s.natAbs ≤ digitMask) (hu : u < 2 ^ 32) :
    SmallOperandsAgree a s u ↔ ¬DigitsCross a u := by
  constructor
  · rintro ⟨-, ⟨c, z, w, -, hz, -⟩, -, -⟩ hcross
    rw [deeIntAddUInt32_none ha hu hcross] at hz
    cases hz
  · intro hcross
    exact ⟨.add ha (deeIntAddSDigit_ends ha hs), .add ha (deeIntAddUInt32_ends ha hu hcross),
      .sub ha (deeIntSubSDigit_ends ha hs), .sub ha (deeIntSubUInt32_ends ha hu)⟩

theorem smallOperandsAgree_iff_longer : SmallOperandsAgree ⟨-3, [1, 2, 3]⟩ (-5) (2 ^ 31) ↔
    ¬DigitsCross ⟨-3, [1, 2, 3]⟩ (2 ^ 31) :=
  smallOperandsAgree_iff (by decide) (by decide) (by decide)

/-- `-2 ^ 31` plus `2 ^ 30 + 1`. -/
theorem smallOperandsAgree_fails : ¬SmallOperandsAgree ⟨-2, [0, 2]⟩ 0 (2 ^ 30 + 1) := by
  rintro ⟨-, ⟨c, z, w, -, hz, -⟩, -, -⟩
  have hnone : deeIntAddUInt32 ⟨-2, [0, 2]⟩ (2 ^ 30 + 1) = none := by decide
  rw [hnone] at hz
  cases hz

end Agreement

end Deemon.Int
