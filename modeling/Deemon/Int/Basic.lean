import Deemon.Lib.Radix

/-!
# Integer objects

`DeeIntObject` as `int.h` lays it out for 64-bit hosts: a signed digit count `ob_size` and the 30-bit digits
`ob_digit`, least significant first. `DeeInt.toInt` is the number an object stands for, and
`DeeInt.Canonical` is the form every integer of the runtime has: digits below `2 ^ 30`, no leading zero digit,
no digit at all for zero. A number has one canonical form (`Canonical.ext_cells`).

The second half is the code that all of `int_logic.c` and `int.c` shares: allocation, normalisation
(`int_normalize`) and the constructors from machine integers (`DeeInt_New*`).
-/

namespace Deemon.Int

open Deemon.Run Deemon.Radix

/-- `Dee_DIGIT_BITS`. -/
abbrev digitBits : ℕ := 30

/-- `Dee_DIGIT_BASE`. -/
abbrev digitBase : ℕ := 2 ^ 30

/-- `Dee_DIGIT_MASK`. -/
abbrev digitMask : ℕ := 2 ^ 30 - 1

theorem and_digitMask (x : ℕ) : x &&& digitMask = x % digitBase := Nat.and_two_pow_sub_one_eq_mod x 30

theorem shiftRight_digitBits (x : ℕ) : x >>> digitBits = x / digitBase := Nat.shiftRight_eq_div_pow x 30

theorem digitBase_pos : 0 < digitBase := by norm_num

/-- `DeeIntObject`. `obDigit` is the whole allocation; only the first `ABS(ob_size)` digits count. -/
structure DeeInt where
  obSize : ℤ
  obDigit : List ℕ
  deriving DecidableEq, Repr

namespace DeeInt

/-- `ABS(self->ob_size)`. -/
def absSize (x : DeeInt) : ℕ := x.obSize.natAbs

/-- The absolute value. -/
def mag (x : DeeInt) : ℕ := seg digitBase x.obDigit 0 x.absSize

/-- The number an object stands for. -/
def toInt (x : DeeInt) : ℤ := if x.obSize < 0 then -(x.mag : ℤ) else x.mag

/-- The counted digits are there and are digits. -/
structure WF (x : DeeInt) : Prop where
  len : x.absSize ≤ x.obDigit.length
  below : Below digitBase x.obDigit 0 x.absSize

/-- The form of every integer outside the functions that build one. -/
structure Canonical (x : DeeInt) : Prop extends WF x where
  top : 0 < x.absSize → cell x.obDigit (x.absSize - 1) ≠ 0

instance (x : DeeInt) : Decidable (WF x) :=
  decidable_of_iff (x.absSize ≤ x.obDigit.length ∧ ∀ i < x.absSize, cell x.obDigit (0 + i) < digitBase)
    ⟨fun h => ⟨h.1, h.2⟩, fun h => ⟨h.len, h.below⟩⟩

instance (x : DeeInt) : Decidable (Canonical x) :=
  decidable_of_iff (WF x ∧ (0 < x.absSize → cell x.obDigit (x.absSize - 1) ≠ 0))
    ⟨fun h => ⟨h.1, h.2⟩, fun h => ⟨h.toWF, h.top⟩⟩

variable {x y : DeeInt}

theorem WF.cell_lt (h : x.WF) {i : ℕ} (hi : i < x.absSize) : cell x.obDigit i < digitBase := by
  have := h.below i hi
  rwa [Nat.zero_add] at this

theorem WF.lt_length (h : x.WF) {i : ℕ} (hi : i < x.absSize) : i < x.obDigit.length :=
  lt_of_lt_of_le hi h.len

theorem WF.mag_lt (h : x.WF) : x.mag < digitBase ^ x.absSize := seg_lt h.below

theorem natAbs_toInt (x : DeeInt) : x.toInt.natAbs = x.mag := by
  unfold toInt
  split <;> simp

theorem toInt_of_nonneg (h : 0 ≤ x.obSize) : x.toInt = x.mag := if_neg (by omega)

theorem toInt_of_neg (h : x.obSize < 0) : x.toInt = -(x.mag : ℤ) := if_pos h

theorem mag_of_absSize_zero (h : x.absSize = 0) : x.mag = 0 := by rw [mag, h, seg_zero]

theorem toInt_of_absSize_zero (h : x.absSize = 0) : x.toInt = 0 := by
  have hmag := mag_of_absSize_zero h
  unfold toInt
  split <;> simp [hmag]

/-- The top digit of a canonical integer bounds it from below. -/
theorem Canonical.le_mag (h : x.Canonical) {n : ℕ} (hn : x.absSize = n + 1) : digitBase ^ n ≤ x.mag := by
  rw [mag, hn]
  have htop := h.top (by omega)
  rw [hn, Nat.add_sub_cancel] at htop
  exact le_seg (by rwa [Nat.zero_add])

theorem Canonical.mag_pos (h : x.Canonical) (hx : 0 < x.absSize) : 0 < x.mag := by
  obtain ⟨n, hn⟩ : ∃ n, x.absSize = n + 1 := ⟨x.absSize - 1, by omega⟩
  exact lt_of_lt_of_le (by positivity) (h.le_mag hn)

theorem Canonical.mag_eq_zero_iff (h : x.Canonical) : x.mag = 0 ↔ x.absSize = 0 := by
  refine ⟨fun hmag => ?_, mag_of_absSize_zero⟩
  by_contra hne
  have := h.mag_pos (by omega)
  omega

theorem Canonical.toInt_neg_iff (h : x.Canonical) : x.toInt < 0 ↔ x.obSize < 0 := by
  constructor
  · intro hneg
    by_contra hsize
    rw [toInt_of_nonneg (by omega)] at hneg
    omega
  · intro hsize
    have := h.mag_pos (by unfold absSize; omega)
    rw [toInt_of_neg hsize]
    omega

/-- A canonical integer below `2 ^ (30 * n)` has at most `n` digits. -/
theorem Canonical.absSize_le (h : x.Canonical) {n : ℕ} (hn : x.mag < digitBase ^ n) : x.absSize ≤ n := by
  by_contra hlt
  obtain ⟨k, hk⟩ : ∃ k, x.absSize = k + 1 := ⟨x.absSize - 1, by omega⟩
  have hle := h.le_mag hk
  have hpow : digitBase ^ n ≤ digitBase ^ k := Nat.pow_le_pow_right digitBase_pos (by omega)
  omega

theorem Canonical.absSize_eq (hx : x.Canonical) (hy : y.Canonical) (h : x.mag = y.mag) :
    x.absSize = y.absSize := by
  have h1 : x.absSize ≤ y.absSize := hx.absSize_le (by rw [h]; exact hy.mag_lt)
  have h2 : y.absSize ≤ x.absSize := hy.absSize_le (by rw [← h]; exact hx.mag_lt)
  omega

theorem Canonical.obSize_eq (hx : x.Canonical) (hy : y.Canonical) (h : x.toInt = y.toInt) :
    x.obSize = y.obSize := by
  have hmag : x.mag = y.mag := by rw [← natAbs_toInt, h, natAbs_toInt]
  have habs := hx.absSize_eq hy hmag
  have hsign : x.obSize < 0 ↔ y.obSize < 0 := by rw [← hx.toInt_neg_iff, h, hy.toInt_neg_iff]
  unfold absSize at habs
  omega

/-- A number has one canonical form: equal numbers have the same size and the same counted digits. -/
theorem Canonical.ext_cells (hx : x.Canonical) (hy : y.Canonical) (h : x.toInt = y.toInt) :
    x.obSize = y.obSize ∧ ∀ i < x.absSize, cell x.obDigit i = cell y.obDigit i := by
  have hsize := hx.obSize_eq hy h
  have habs : x.absSize = y.absSize := by rw [absSize, absSize, hsize]
  refine ⟨hsize, fun i hi => ?_⟩
  have hmag : seg digitBase x.obDigit 0 x.absSize = seg digitBase y.obDigit 0 x.absSize := by
    have : x.mag = y.mag := by rw [← natAbs_toInt, h, natAbs_toInt]
    rw [mag, mag, ← habs] at this
    exact this
  have := seg_inj hx.below (habs ▸ hy.below) hmag i hi
  rwa [Nat.zero_add] at this

/-- A well-formed integer with a large enough value has no leading zero digit. -/
theorem WF.canonical (h : x.WF) (hmag : ∀ n, x.absSize = n + 1 → digitBase ^ n ≤ x.mag) : x.Canonical := by
  refine ⟨h, fun hpos hzero => ?_⟩
  obtain ⟨n, hn⟩ : ∃ n, x.absSize = n + 1 := ⟨x.absSize - 1, by omega⟩
  have hle := hmag n hn
  rw [hn, Nat.add_sub_cancel] at hzero
  have hlt := seg_lt (h.below.mono (m := n) (by omega))
  rw [mag, hn, seg_succ, Nat.zero_add, hzero] at hle
  omega

/-- Changing the sign of a canonical integer. -/
theorem Canonical.neg (h : x.Canonical) : Canonical ⟨-x.obSize, x.obDigit⟩ := by
  have habs : absSize ⟨-x.obSize, x.obDigit⟩ = x.absSize := Int.natAbs_neg _
  exact ⟨⟨habs ▸ h.len, habs ▸ h.below⟩, habs ▸ h.top⟩

theorem toInt_neg (x : DeeInt) : toInt ⟨-x.obSize, x.obDigit⟩ = -x.toInt := by
  have hmag : mag ⟨-x.obSize, x.obDigit⟩ = x.mag := by simp [mag, absSize]
  unfold toInt
  rw [hmag]
  rcases lt_trichotomy x.obSize 0 with h | h | h
  · rw [if_neg (by simpa using by omega), if_pos h, neg_neg]
  · have h0 : x.mag = 0 := mag_of_absSize_zero (by simp [absSize, h])
    simp [h0]
  · rw [if_pos (by simpa using h), if_neg (by omega)]

end DeeInt

/-! ### Allocation and normalisation -/

/-- The content of digits that nothing has written yet (the fill pattern of debug builds). -/
def uninit : ℕ := 0xdfdfdfdf

/-- `DeeInt_Alloc(n_digits)`. -/
def deeIntAlloc (nDigits : ℕ) : DeeInt := ⟨nDigits, List.replicate nDigits uninit⟩

@[simp] theorem deeIntAlloc_obDigit_length (n : ℕ) : (deeIntAlloc n).obDigit.length = n := by
  simp [deeIntAlloc]

@[simp] theorem deeIntAlloc_obSize (n : ℕ) : (deeIntAlloc n).obSize = n := rfl

/-- `int_normalize`: drops leading zero digits. -/
def intNormalize (v : DeeInt) : Option DeeInt := do
  let j := v.absSize
  let i ← loop (fun i => if 0 < i then do
      let d ← rd v.obDigit (i - 1)
      some (if d = 0 then .next (i - 1) else .done i)
    else some (.done i)) (j + 1) j
  if i ≠ j then
    some { v with obSize := if v.obSize < 0 then -(i : ℤ) else i }
  else
    some v

theorem intNormalize_ends {v : DeeInt} (hv : v.WF) :
    Ends (intNormalize v) fun z => z.Canonical ∧ z.toInt = v.toInt ∧ z.obDigit = v.obDigit ∧
      z.absSize ≤ v.absSize := by
  unfold intNormalize
  refine Ends.bind (P := fun i => i ≤ v.absSize ∧ seg digitBase v.obDigit 0 i = v.mag ∧
    (0 < i → cell v.obDigit (i - 1) ≠ 0)) ?_ ?_
  · refine loop_ends (fun i => i ≤ v.absSize ∧ seg digitBase v.obDigit 0 i = v.mag) id ⟨le_rfl, rfl⟩
      (by simp) fun i ⟨hi, hseg⟩ => ?_
    split_ifs with hpos
    · rw [rd_of_lt (hv.lt_length (by omega))]
      refine Ends.pure ?_
      obtain ⟨k, rfl⟩ : ∃ k, i = k + 1 := ⟨i - 1, by omega⟩
      rw [Nat.add_sub_cancel]
      split_ifs with hzero
      · refine ⟨⟨by omega, ?_⟩, by simp⟩
        rw [← hseg, seg_succ, Nat.zero_add, hzero, Nat.zero_mul, Nat.add_zero]
      · exact ⟨hi, hseg, fun _ => hzero⟩
    · exact Ends.pure ⟨hi, hseg, fun h => absurd h hpos⟩
  · rintro i ⟨hi, hseg, htop⟩
    split_ifs with hne hneg
    · have habs : DeeInt.absSize ⟨-(i : ℤ), v.obDigit⟩ = i := by simp [DeeInt.absSize]
      refine Ends.pure ⟨⟨⟨?_, ?_⟩, ?_⟩, ?_, rfl, ?_⟩
      · rw [habs]
        exact le_trans hi hv.len
      · rw [habs]
        exact hv.below.mono hi
      · rw [habs]
        exact htop
      · rw [DeeInt.toInt_of_neg hneg, ← hseg]
        unfold DeeInt.toInt DeeInt.mag
        rw [habs]
        rcases Nat.eq_zero_or_pos i with rfl | hpos
        · simp
        · rw [if_pos (show -(i : ℤ) < 0 by omega)]
      · rw [habs]
        exact hi
    · have habs : DeeInt.absSize ⟨(i : ℤ), v.obDigit⟩ = i := by simp [DeeInt.absSize]
      refine Ends.pure ⟨⟨⟨?_, ?_⟩, ?_⟩, ?_, rfl, ?_⟩
      · rw [habs]
        exact le_trans hi hv.len
      · rw [habs]
        exact hv.below.mono hi
      · rw [habs]
        exact htop
      · rw [DeeInt.toInt_of_nonneg (x := v) (by omega), ← hseg, DeeInt.toInt_of_nonneg (by simp), DeeInt.mag, habs]
      · rw [habs]
        exact hi
    · have hi' : i = v.absSize := by simpa using hne
      subst hi'
      exact Ends.pure ⟨⟨hv, htop⟩, rfl, rfl, le_rfl⟩

theorem intNormalize_pos {n : ℕ} {l : List ℕ} (hlen : n ≤ l.length) (hbelow : Below digitBase l 0 n) :
    Ends (intNormalize ⟨n, l⟩) fun z => z.Canonical ∧ z.toInt = seg digitBase l 0 n :=
  (intNormalize_ends (v := ⟨n, l⟩) ⟨hlen, hbelow⟩).mono fun _ ⟨hz, hval, _⟩ =>
    ⟨hz, hval.trans (DeeInt.toInt_of_nonneg (Int.natCast_nonneg n))⟩

theorem intNormalize_neg {n : ℕ} {l : List ℕ} (hlen : n ≤ l.length) (hbelow : Below digitBase l 0 n) :
    Ends (intNormalize ⟨-n, l⟩) fun z => z.Canonical ∧ z.toInt = -(seg digitBase l 0 n : ℤ) := by
  have habs : DeeInt.absSize ⟨-(n : ℤ), l⟩ = n := by simp [DeeInt.absSize]
  refine (intNormalize_ends (v := ⟨-n, l⟩) ⟨?_, ?_⟩).mono fun z ⟨hz, hval, _⟩ => ⟨hz, hval.trans ?_⟩
  · rwa [habs]
  · rwa [habs]
  · have h := DeeInt.toInt_neg ⟨n, l⟩
    rwa [DeeInt.toInt_of_nonneg (x := ⟨n, l⟩) (Int.natCast_nonneg n)] at h

/-! ### Integers from machine words -/

/-- A value that must fit a signed machine word of `w` bits. -/
def sfits (w : ℕ) (x : ℤ) : Option ℤ := if -2 ^ (w - 1) ≤ x ∧ x < 2 ^ (w - 1) then some x else none

theorem sfits_of {w : ℕ} {x : ℤ} (h : -2 ^ (w - 1) ≤ x ∧ x < 2 ^ (w - 1)) : sfits w x = some x := if_pos h

/-- The statically allocated object `DeeInt_8bit + val`. -/
def deeInt8bit (val : ℤ) : DeeInt := ⟨val.sign, [val.natAbs]⟩

/-- `DeeInt_NewZero()`. -/
def deeIntNewZero : DeeInt := deeInt8bit 0

/-- The `req_digits` loop of the constructors: how many digits a value takes. -/
def reqDigits (absVal : ℕ) : Option ℕ :=
  loop (fun (iter, req) => some (if iter = 0 then .done req else .next (iter >>> digitBits, req + 1)))
    (absVal + 1) (absVal, 0)

/-- The digit loop of the constructors: stores a value that takes several digits. -/
def newDigits (sign : ℤ) (absVal : ℕ) : Option DeeInt := do
  let req ← reqDigits absVal
  assert (0 < req)
  let digits ← loop (fun (val, i, z) => if val = 0 then some (.done z) else do
      let z ← wr z i (val &&& digitMask)
      some (.next (val >>> digitBits, i + 1, z))) (absVal + 1) (absVal, 0, (deeIntAlloc req).obDigit)
  some ⟨req * sign, digits⟩

/-- The constructors from a signed word: `DeeInt_8bit`, one digit, or several. -/
def newSigned (val : ℤ) : Option DeeInt :=
  if -128 ≤ val ∧ val ≤ 255 then some (deeInt8bit val)
  else
    let sign : ℤ := if val < 0 then -1 else 1
    if val.natAbs >>> digitBits = 0 then some ⟨sign, (deeIntAlloc 1).obDigit.set 0 val.natAbs⟩
    else newDigits sign val.natAbs

/-- The constructors from an unsigned word. -/
def newUnsigned (val : ℕ) : Option DeeInt :=
  if val ≤ 0xff then some (deeInt8bit val)
  else if val >>> digitBits = 0 then some ⟨1, (deeIntAlloc 1).obDigit.set 0 val⟩
  else newDigits 1 val

/-- `DeeInt_NewInt8`. -/
def deeIntNewInt8 (val : ℤ) : Option DeeInt := some (deeInt8bit val)

/-- `DeeInt_NewUInt8`. -/
def deeIntNewUInt8 (val : ℕ) : Option DeeInt := some (deeInt8bit val)

/-- `DeeInt_NewInt16`: a 16-bit value is never longer than one digit. -/
def deeIntNewInt16 (val : ℤ) : Option DeeInt :=
  if -128 ≤ val ∧ val ≤ 255 then some (deeInt8bit val)
  else some ⟨if val ≤ 0 then -1 else 1, (deeIntAlloc 1).obDigit.set 0 val.natAbs⟩

/-- `DeeInt_NewUInt16`. -/
def deeIntNewUInt16 (val : ℕ) : Option DeeInt :=
  if val ≤ 0xff then some (deeInt8bit val) else some ⟨1, (deeIntAlloc 1).obDigit.set 0 val⟩

/-- `DeeInt_NewInt32`, also `DeeInt_NewMedian` and `DeeInt_NewSDigit`. -/
def deeIntNewInt32 (val : ℤ) : Option DeeInt := newSigned val

/-- `DeeInt_NewUInt32`, also `DeeInt_NewDigit`. -/
def deeIntNewUInt32 (val : ℕ) : Option DeeInt := newUnsigned val

/-- `DeeInt_NewInt64`, also `DeeInt_NewSTwoDigits`. -/
def deeIntNewInt64 (val : ℤ) : Option DeeInt := newSigned val

/-- `DeeInt_NewUInt64`, also `DeeInt_NewTwoDigits`. -/
def deeIntNewUInt64 (val : ℕ) : Option DeeInt := newUnsigned val

/-- `DeeInt_NewInt128`. -/
def deeIntNewInt128 (val : ℤ) : Option DeeInt :=
  if -2 ^ 63 ≤ val ∧ val < 2 ^ 63 then deeIntNewInt64 val
  else newDigits (if val < 0 then -1 else 1) val.natAbs

/-- `DeeInt_NewUInt128`. -/
def deeIntNewUInt128 (val : ℕ) : Option DeeInt :=
  if val < 2 ^ 64 then deeIntNewUInt64 val else newDigits 1 val

/-- `MEDIUM_VALUE(x)`. -/
def mediumValue (x : DeeInt) : Option ℤ := do
  assert (-1 ≤ x.obSize ∧ x.obSize ≤ 1)
  if x.obSize < 0 then
    some (-((← rd x.obDigit 0) : ℤ))
  else if x.obSize = 0 then
    some 0
  else
    some ((← rd x.obDigit 0) : ℤ)

theorem reqDigits_ends {absVal : ℕ} : Ends (reqDigits absVal) fun req =>
    absVal < digitBase ^ req ∧ ∀ n, req = n + 1 → digitBase ^ n ≤ absVal := by
  unfold reqDigits
  refine loop_ends (fun s => s.1 = absVal / digitBase ^ s.2 ∧ ∀ n, s.2 = n + 1 → digitBase ^ n ≤ absVal)
    (fun s => s.1) ⟨by simp, by simp⟩ (by simp) ?_
  rintro ⟨iter, req⟩ ⟨hiter, hreq⟩
  dsimp only at hiter hreq ⊢
  split_ifs with hzero
  · exact Ends.pure ⟨(Nat.div_eq_zero_iff_lt (by positivity)).mp (by omega), hreq⟩
  · refine Ends.pure ⟨⟨?_, fun n hn => ?_⟩, ?_⟩
    · rw [shiftRight_digitBits, hiter, Nat.div_div_eq_div_mul, pow_succ]
    · obtain rfl : req = n := by simpa using hn
      by_contra hlt
      exact hzero (by rw [hiter, Nat.div_eq_of_lt (by omega)])
    · rw [shiftRight_digitBits]
      exact Nat.div_lt_self (by omega) (by norm_num)

theorem newDigits_ends {sign : ℤ} {absVal : ℕ} (hsign : sign = 1 ∨ sign = -1) (hval : 0 < absVal) :
    Ends (newDigits sign absVal) fun z => z.Canonical ∧ z.toInt = sign * absVal := by
  unfold newDigits
  refine Ends.bind reqDigits_ends fun req ⟨hlt, hle⟩ => ?_
  have hreq : 0 < req := by
    rcases Nat.eq_zero_or_pos req with rfl | h
    · simp at hlt
      omega
    · exact h
  rw [assert_of hreq]
  refine Ends.bind (P := fun z => z.length = req ∧ seg digitBase z 0 req = absVal ∧
    Below digitBase z 0 req) ?_ ?_
  · refine loop_ends (fun s => s.1 = absVal / digitBase ^ s.2.1 ∧ s.2.1 ≤ req ∧ s.2.2.length = req ∧
      seg digitBase s.2.2 0 s.2.1 = absVal % digitBase ^ s.2.1 ∧ Below digitBase s.2.2 0 s.2.1)
      (fun s => s.1) ⟨by simp, by simp, by simp, by simp [Nat.mod_one], fun i hi => by simp at hi⟩
      (by simp) ?_
    rintro ⟨val, i, z⟩ ⟨hdiv, hi, hlen, hseg, hbelow⟩
    dsimp only at hdiv hi hlen hseg hbelow ⊢
    split_ifs with hzero
    · have hfull : absVal < digitBase ^ i := (Nat.div_eq_zero_iff_lt (by positivity)).mp (by omega)
      obtain ⟨n, rfl⟩ : ∃ n, req = n + 1 := ⟨req - 1, by omega⟩
      have hall : i = n + 1 := by
        by_contra hne
        have := Nat.pow_le_pow_right digitBase_pos (show i ≤ n by omega)
        have := hle n rfl
        omega
      subst hall
      exact Ends.pure ⟨hlen, by rw [hseg, Nat.mod_eq_of_lt hlt], hbelow⟩
    · have hroom : i < req := by
        by_contra hge
        have := Nat.pow_le_pow_right digitBase_pos (show req ≤ i by omega)
        exact hzero (by rw [hdiv, Nat.div_eq_of_lt (by omega)])
      rw [wr_of_lt (by omega), and_digitMask, shiftRight_digitBits]
      have hset := seg_set_last (B := digitBase) (l := z) (s := 0) (n := i) (v := val % digitBase) (by omega)
      rw [Nat.zero_add] at hset
      refine Ends.pure ⟨⟨?_, hroom, by simpa using hlen, ?_, ?_⟩, Nat.div_lt_self (by omega) (by norm_num)⟩
      · rw [hdiv, Nat.div_div_eq_div_mul, pow_succ]
      · rw [hset, hseg, hdiv, Nat.mul_comm, ← Nat.mod_mul, pow_succ]
      · refine (hbelow.set (Nat.mod_lt _ digitBase_pos)).succ ?_
        rw [Nat.zero_add, cell_set_self (by omega)]
        exact Nat.mod_lt _ digitBase_pos
  · rintro z ⟨hlen, hseg, hbelow⟩
    have habs : DeeInt.absSize ⟨req * sign, z⟩ = req := by
      rcases hsign with rfl | rfl <;> simp [DeeInt.absSize]
    have hmag : DeeInt.mag ⟨req * sign, z⟩ = absVal := by rw [DeeInt.mag, habs, hseg]
    refine Ends.pure ⟨DeeInt.WF.canonical ⟨by rw [habs]; exact hlen.ge, by rw [habs]; exact hbelow⟩
      fun n hn => ?_, ?_⟩
    · rw [hmag]
      exact hle n (by rw [← hn, habs])
    · rcases hsign with rfl | rfl
      · rw [DeeInt.toInt_of_nonneg (by simp), hmag, one_mul]
      · rw [DeeInt.toInt_of_neg (by simpa using hreq), hmag, neg_one_mul]

/-- An object of one digit. -/
theorem oneDigit_canonical {s : ℤ} {d : ℕ} {l : List ℕ} (hs : s = 1 ∨ s = -1) (hpos : 0 < d)
    (hd : d < digitBase) : DeeInt.Canonical ⟨s, d :: l⟩ ∧ DeeInt.toInt ⟨s, d :: l⟩ = s * d := by
  have habs : DeeInt.absSize ⟨s, d :: l⟩ = 1 := by rcases hs with rfl | rfl <;> rfl
  have hcell : cell (d :: l) 0 = d := rfl
  have hmag : DeeInt.mag ⟨s, d :: l⟩ = d := by rw [DeeInt.mag, habs, seg_one, hcell]
  refine ⟨⟨⟨by rw [habs]; simp, ?_⟩, ?_⟩, ?_⟩
  · rw [habs]
    intro i hi
    obtain rfl : i = 0 := by omega
    exact hd
  · rw [habs]
    intro _
    rw [hcell]
    omega
  · rcases hs with rfl | rfl
    · rw [DeeInt.toInt_of_nonneg (by simp), hmag, one_mul]
    · rw [DeeInt.toInt_of_neg (by simp), hmag, neg_one_mul]

theorem deeInt8bit_canonical {val : ℤ} (hlo : -digitBase < val) (hhi : val < digitBase) :
    (deeInt8bit val).Canonical ∧ (deeInt8bit val).toInt = val := by
  rcases lt_trichotomy val 0 with h | rfl | h
  · have := oneDigit_canonical (s := -1) (d := val.natAbs) (l := []) (Or.inr rfl) (by omega) (by omega)
    rw [deeInt8bit, Int.sign_eq_neg_one_of_neg h]
    exact ⟨this.1, by rw [this.2]; omega⟩
  · decide
  · have := oneDigit_canonical (s := 1) (d := val.natAbs) (l := []) (Or.inl rfl) (by omega) (by omega)
    rw [deeInt8bit, Int.sign_eq_one_of_pos h]
    exact ⟨this.1, by rw [this.2]; omega⟩

theorem deeIntNewZero_canonical : deeIntNewZero.Canonical ∧ deeIntNewZero.toInt = 0 := by decide

theorem newSigned_ends (val : ℤ) : Ends (newSigned val) fun z => z.Canonical ∧ z.toInt = val := by
  unfold newSigned
  split_ifs with hsmall hone hone
  · exact Ends.pure (deeInt8bit_canonical (by norm_num; omega) (by norm_num; omega))
  · have hlt : val.natAbs < digitBase :=
      (Nat.div_eq_zero_iff_lt digitBase_pos).mp (by rwa [← shiftRight_digitBits])
    have := oneDigit_canonical (s := -1) (l := []) (Or.inr rfl) (show 0 < val.natAbs by omega) hlt
    exact Ends.pure ⟨this.1, by rw [show (deeIntAlloc 1).obDigit.set 0 val.natAbs = [val.natAbs] from rfl, this.2]; omega⟩
  · refine (newDigits_ends (Or.inr rfl) (by omega)).mono fun z hz => ⟨hz.1, by rw [hz.2]; omega⟩
  · have hlt : val.natAbs < digitBase :=
      (Nat.div_eq_zero_iff_lt digitBase_pos).mp (by rwa [← shiftRight_digitBits])
    have := oneDigit_canonical (s := 1) (l := []) (Or.inl rfl) (show 0 < val.natAbs by omega) hlt
    exact Ends.pure ⟨this.1, by rw [show (deeIntAlloc 1).obDigit.set 0 val.natAbs = [val.natAbs] from rfl, this.2]; omega⟩
  · refine (newDigits_ends (Or.inl rfl) (by omega)).mono fun z hz => ⟨hz.1, by rw [hz.2]; omega⟩

theorem newUnsigned_ends (val : ℕ) : Ends (newUnsigned val) fun z => z.Canonical ∧ z.toInt = val := by
  unfold newUnsigned
  split_ifs with hsmall hone
  · exact Ends.pure (deeInt8bit_canonical (by norm_num; omega) (by norm_num; omega))
  · have hlt : val < digitBase := (Nat.div_eq_zero_iff_lt digitBase_pos).mp (by rwa [← shiftRight_digitBits])
    have := oneDigit_canonical (s := 1) (l := []) (Or.inl rfl) (show 0 < val by omega) hlt
    exact Ends.pure ⟨this.1, by rw [show (deeIntAlloc 1).obDigit.set 0 val = [val] from rfl, this.2]; omega⟩
  · refine (newDigits_ends (Or.inl rfl) (by omega)).mono fun z hz => ⟨hz.1, by rw [hz.2]; omega⟩

theorem deeIntNewInt16_ends {val : ℤ} (hlo : -2 ^ 15 ≤ val) (hhi : val < 2 ^ 15) :
    Ends (deeIntNewInt16 val) fun z => z.Canonical ∧ z.toInt = val := by
  have halloc : (deeIntAlloc 1).obDigit.set 0 val.natAbs = [val.natAbs] := rfl
  unfold deeIntNewInt16
  rw [halloc]
  split_ifs with hsmall hneg
  · exact Ends.pure (deeInt8bit_canonical (by norm_num; omega) (by norm_num; omega))
  · have := oneDigit_canonical (s := -1) (d := val.natAbs) (l := []) (Or.inr rfl) (by omega) (by norm_num; omega)
    exact Ends.pure ⟨this.1, by rw [this.2]; omega⟩
  · have := oneDigit_canonical (s := 1) (d := val.natAbs) (l := []) (Or.inl rfl) (by omega) (by norm_num; omega)
    exact Ends.pure ⟨this.1, by rw [this.2]; omega⟩

theorem deeIntNewUInt16_ends {val : ℕ} (hval : val < 2 ^ 16) :
    Ends (deeIntNewUInt16 val) fun z => z.Canonical ∧ z.toInt = val := by
  unfold deeIntNewUInt16
  split_ifs with hsmall
  · exact Ends.pure (deeInt8bit_canonical (by norm_num; omega) (by norm_num; omega))
  · have := oneDigit_canonical (s := 1) (d := val) (l := []) (Or.inl rfl) (by omega) (by norm_num; omega)
    exact Ends.pure ⟨this.1, this.2.trans (one_mul _)⟩

theorem deeIntNewInt128_ends (val : ℤ) : Ends (deeIntNewInt128 val) fun z => z.Canonical ∧ z.toInt = val := by
  unfold deeIntNewInt128
  split_ifs with hsmall hneg
  · exact newSigned_ends val
  · exact (newDigits_ends (Or.inr rfl) (by omega)).mono fun z hz => ⟨hz.1, by rw [hz.2]; omega⟩
  · exact (newDigits_ends (Or.inl rfl) (by omega)).mono fun z hz => ⟨hz.1, by rw [hz.2]; omega⟩

theorem deeIntNewUInt128_ends (val : ℕ) : Ends (deeIntNewUInt128 val) fun z => z.Canonical ∧ z.toInt = val := by
  unfold deeIntNewUInt128
  split_ifs with hsmall
  · exact newUnsigned_ends val
  · exact (newDigits_ends (Or.inl rfl) (by omega)).mono fun z hz => ⟨hz.1, by rw [hz.2, one_mul]⟩

theorem mediumValue_eq {x : DeeInt} (hx : x.Canonical) (hsize : x.absSize ≤ 1) :
    mediumValue x = some x.toInt ∧ -(digitBase : ℤ) < x.toInt ∧ x.toInt < digitBase := by
  have hbound : x.mag < digitBase := by
    have := seg_lt_pow_of_le (m := 1) digitBase_pos hx.below hsize
    simpa [DeeInt.mag] using this
  have hnat := DeeInt.natAbs_toInt x
  refine ⟨?_, by omega, by omega⟩
  unfold mediumValue
  have hsize' : -1 ≤ x.obSize ∧ x.obSize ≤ 1 := by
    unfold DeeInt.absSize at hsize
    omega
  rw [assert_of hsize']
  change (if x.obSize < 0 then _ else _) = _
  rcases lt_trichotomy x.obSize 0 with h | h | h
  · have habs : x.absSize = 1 := by unfold DeeInt.absSize; omega
    rw [if_pos h, rd_of_lt (hx.lt_length (by omega)), DeeInt.toInt_of_neg h, DeeInt.mag, habs, seg_one]
    rfl
  · rw [if_neg (by omega), if_pos h, DeeInt.toInt_of_absSize_zero (by simp [DeeInt.absSize, h])]
  · have habs : x.absSize = 1 := by unfold DeeInt.absSize; omega
    rw [if_neg (by omega), if_neg (by omega), rd_of_lt (hx.lt_length (by omega)),
      DeeInt.toInt_of_nonneg (by omega), DeeInt.mag, habs, seg_one]
    rfl

end Deemon.Int
