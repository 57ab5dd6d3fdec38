import Deemon.Int.TryGet

/-!
# Fixed-width extraction

Three layers take an integer out as a machine word of 8, 16, 32, 64 or 128 bits. `DeeInt_TryGetNBit` stores the bits and
says which kind of number they are, `DeeInt_GetNBit` raises an `IntegerOverflow` instead of saying so, and the functions
`DeeInt_AsIntN`, `DeeInt_AsUIntN` and `DeeInt_AsUIntNM1` ask for one signedness.
-/

namespace Deemon.Int

open Deemon.Run Deemon.Radix

/-! ### The kind and the bits -/

/-- `DeeInt_TryGet8Bit` and `DeeInt_TryGet16Bit`. -/
def tryGetNarrow (w : ℕ) (self : DeeInt) : Option (IntKind × ℕ) := do
  match ← deeIntTryGet32Bit self with
  | (.unsigned, resultValue) =>
    some (if 2 ^ w - 1 < resultValue then (.posOverflow, 0) else (.unsigned, resultValue))
  | (.signed, resultValue) =>
    some (if 2 ^ (w - 1) - 1 < castSigned 32 resultValue then (.posOverflow, 0)
      else if castSigned 32 resultValue < -2 ^ (w - 1) then (.negOverflow, 0)
      else (.signed, resultValue % 2 ^ w))
  | (.posOverflow, _) => some (.posOverflow, 0)
  | (.negOverflow, _) => some (.negOverflow, 0)

/-- `DeeInt_TryGet8Bit`. -/
def deeIntTryGet8Bit (self : DeeInt) : Option (IntKind × ℕ) := tryGetNarrow 8 self

/-- `DeeInt_TryGet16Bit`. -/
def deeIntTryGet16Bit (self : DeeInt) : Option (IntKind × ℕ) := tryGetNarrow 16 self

/-- A round of the loop of `DeeInt_TryGet128Bit`: the bits that a shift would drop are looked at before it. -/
def tryGet128Round (digits : List ℕ) : ℕ × ℕ → Option (Step (ℕ × ℕ) (Option ℕ))
  | (i, resultValue) =>
    if i = 0 then some (.done (some resultValue))
    else if resultValue >>> (128 - digitBits) ≠ 0 then some (.done none)
    else do some (.next (i - 1, resultValue <<< digitBits % 2 ^ 128 ||| (← rd digits (i - 1))))

/-- `DeeInt_TryGet128Bit`: the kind and the 128 bits stored in `*result` (0 where nothing is). -/
def deeIntTryGet128Bit (self : DeeInt) : Option (IntKind × ℕ) :=
  if self.obSize = 0 then some (.unsigned, 0)
  else if self.obSize = 1 then do some (.unsigned, ← rd self.obDigit 0)
  else if self.obSize = -1 then do
    let digit ← rd self.obDigit 0
    -- `*result` is put together from two words, and the upper one is all ones
    some (.signed, (2 ^ 64 - digit) % 2 ^ 64 + 2 ^ 64 * (2 ^ 64 - 1))
  else do
    match ← loop (tryGet128Round self.obDigit) (self.absSize + 1) (self.absSize, 0) with
    | none => some (if self.obSize < 0 then .negOverflow else .posOverflow, 0)
    | some resultValue =>
      if self.obSize < 0 then
        if 2 ^ 127 < resultValue then some (.negOverflow, 0) else some (.signed, (2 ^ 128 - resultValue) % 2 ^ 128)
      else some (.unsigned, resultValue)

/-- The end of `DeeInt_TryAsUInt8` .. `DeeInt_TryAsUInt128`. -/
def asUnsigned (w : ℕ) : IntKind × ℕ → Option ℕ
  | (.unsigned, bits) => some bits
  | (.signed, bits) => if castSigned w bits < 0 then none else some bits
  | (.posOverflow, _) => none
  | (.negOverflow, _) => none

/-- `DeeInt_TryAsInt8`. -/
def deeIntTryAsInt8 (self : DeeInt) : Option (Option ℤ) := (deeIntTryGet8Bit self).map (asSigned 8)

/-- `DeeInt_TryAsInt16`. -/
def deeIntTryAsInt16 (self : DeeInt) : Option (Option ℤ) := (deeIntTryGet16Bit self).map (asSigned 16)

/-- `DeeInt_TryAsInt128`. -/
def deeIntTryAsInt128 (self : DeeInt) : Option (Option ℤ) := (deeIntTryGet128Bit self).map (asSigned 128)

/-- `DeeInt_TryAsUInt8`. -/
def deeIntTryAsUInt8 (self : DeeInt) : Option (Option ℕ) := (deeIntTryGet8Bit self).map (asUnsigned 8)

/-- `DeeInt_TryAsUInt16`. -/
def deeIntTryAsUInt16 (self : DeeInt) : Option (Option ℕ) := (deeIntTryGet16Bit self).map (asUnsigned 16)

/-- `DeeInt_TryAsUInt32`. -/
def deeIntTryAsUInt32 (self : DeeInt) : Option (Option ℕ) := (deeIntTryGet32Bit self).map (asUnsigned 32)

/-- `DeeInt_TryAsUInt64`. -/
def deeIntTryAsUInt64 (self : DeeInt) : Option (Option ℕ) := (deeIntTryGet64Bit self).map (asUnsigned 64)

/-- `DeeInt_TryAsUInt128`. -/
def deeIntTryAsUInt128 (self : DeeInt) : Option (Option ℕ) := (deeIntTryGet128Bit self).map (asUnsigned 128)

/-! ### The functions that raise errors -/

/-- The number of the kind in the error code space: `INT_SIGNED`, `INT_UNSIGNED` and the two overflows. -/
def IntKind.code : IntKind → ℤ
  | .signed => 0
  | .unsigned => 1
  | .posOverflow => 2
  | .negOverflow => -2

/-- An `IntegerOverflow` error. -/
structure IntegerOverflow where
  value : ℤ
  minval : Option ℤ
  maxval : Option ℤ
  positive : Bool
  deriving DecidableEq, Repr

/-- The sign flags of `DeeRT_ErrIntegerOverflowEx`. -/
inductive OverflowSign where
  | signed
  | unsigned
  | anySign
  deriving DecidableEq, Repr

/-- `DeeRT_ErrIntegerOverflowEx`. -/
def errIntegerOverflowEx (value : ℤ) (numBits : ℕ) (sign : OverflowSign) (positive : Bool) : IntegerOverflow where
  value := value
  minval := some (if sign = .unsigned then 0 else -2 ^ (numBits - 1))
  maxval := some (if sign = .signed then 2 ^ (numBits - 1) - 1 else 2 ^ numBits - 1)
  positive := positive

/-- `DeeRT_ErrIntegerOverflowS16` .. `DeeRT_ErrIntegerOverflowS128`. -/
def errIntegerOverflowS (value minval maxval : ℤ) : IntegerOverflow :=
  ⟨value, some minval, some maxval, decide (maxval < value)⟩

/-- What a function returns, the bits it has stored in `*result` if it has, and the error it leaves raised. -/
structure WordResult where
  code : ℤ
  result : Option ℕ
  error : Option IntegerOverflow
  deriving DecidableEq, Repr

/-- `DeeInt_Get8Bit` .. `DeeInt_Get128Bit`. -/
def getNBit (tryGet : DeeInt → Option (IntKind × ℕ)) (w : ℕ) (self : DeeInt) : Option WordResult := do
  match ← tryGet self with
  | (.posOverflow, _) => some ⟨-1, none, some (errIntegerOverflowEx self.toInt w .anySign true)⟩
  | (.negOverflow, _) => some ⟨-1, none, some (errIntegerOverflowEx self.toInt w .anySign false)⟩
  | (error, bits) => some ⟨error.code, some bits, none⟩

/-- `DeeInt_Get8Bit`. -/
def deeIntGet8Bit : DeeInt → Option WordResult := getNBit deeIntTryGet8Bit 8

/-- `DeeInt_Get16Bit`. -/
def deeIntGet16Bit : DeeInt → Option WordResult := getNBit deeIntTryGet16Bit 16

/-- `DeeInt_Get32Bit`. -/
def deeIntGet32Bit : DeeInt → Option WordResult := getNBit deeIntTryGet32Bit 32

/-- `DeeInt_Get64Bit`. -/
def deeIntGet64Bit : DeeInt → Option WordResult := getNBit deeIntTryGet64Bit 64

/-- `DeeInt_Get128Bit`. -/
def deeIntGet128Bit : DeeInt → Option WordResult := getNBit deeIntTryGet128Bit 128

/-- The test after the call of `DeeInt_GetNBit`: when `error` is the kind, some values in `*result` are refused. In all
other cases 0 is returned. -/
def refuse (kind : IntKind) (refused : ℕ → Prop) [DecidablePred refused] (overflow : ℕ → IntegerOverflow)
    (got : WordResult) : Option WordResult :=
  if got.code = kind.code then do
    let result ← got.result
    some (if refused result then ⟨-1, some result, some (overflow result)⟩ else { got with code := 0 })
  else some { got with code := 0 }

/-- `DeeInt_AsInt8` .. `DeeInt_AsInt128`. -/
def asIntN (get : DeeInt → Option WordResult) (w : ℕ) (self : DeeInt) : Option WordResult := do
  refuse .unsigned (castSigned w · < 0) (fun _ => errIntegerOverflowEx self.toInt w .signed true) (← get self)

/-- `DeeInt_AsUInt8` .. `DeeInt_AsUInt128`. -/
def asUIntN (get : DeeInt → Option WordResult) (w : ℕ) (self : DeeInt) : Option WordResult := do
  refuse .signed (castSigned w · < 0) (fun _ => errIntegerOverflowEx self.toInt w .unsigned false) (← get self)

/-- `DeeInt_AsUInt8M1` .. `DeeInt_AsUInt128M1`. -/
def asUIntNM1 (get : DeeInt → Option WordResult) (w : ℕ) (overflow : ℕ → IntegerOverflow) (self : DeeInt) :
    Option WordResult := do
  refuse .signed (castSigned w · < -1) overflow (← get self)

/-- `DeeInt_AsInt8`. -/
def deeIntAsInt8 : DeeInt → Option WordResult := asIntN deeIntGet8Bit 8

/-- `DeeInt_AsInt16`. -/
def deeIntAsInt16 : DeeInt → Option WordResult := asIntN deeIntGet16Bit 16

/-- `DeeInt_AsInt32`. -/
def deeIntAsInt32 : DeeInt → Option WordResult := asIntN deeIntGet32Bit 32

/-- `DeeInt_AsInt64`. -/
def deeIntAsInt64 : DeeInt → Option WordResult := asIntN deeIntGet64Bit 64

/-- `DeeInt_AsInt128`. -/
def deeIntAsInt128 : DeeInt → Option WordResult := asIntN deeIntGet128Bit 128

/-- `DeeInt_AsUInt8`. -/
def deeIntAsUInt8 : DeeInt → Option WordResult := asUIntN deeIntGet8Bit 8

/-- `DeeInt_AsUInt16`. -/
def deeIntAsUInt16 : DeeInt → Option WordResult := asUIntN deeIntGet16Bit 16

/-- `DeeInt_AsUInt32`. -/
def deeIntAsUInt32 : DeeInt → Option WordResult := asUIntN deeIntGet32Bit 32

/-- `DeeInt_AsUInt64`. -/
def deeIntAsUInt64 : DeeInt → Option WordResult := asUIntN deeIntGet64Bit 64

/-- `DeeInt_AsUInt128`. -/
def deeIntAsUInt128 : DeeInt → Option WordResult := asUIntN deeIntGet128Bit 128

/-- `DeeInt_AsUInt8M1`. -/
def deeIntAsUInt8M1 : DeeInt → Option WordResult :=
  asUIntNM1 deeIntGet8Bit 8 fun result => errIntegerOverflowS (castSigned 8 result) (-1) (2 ^ 8 - 1)

/-- `DeeInt_AsUInt16M1`. -/
def deeIntAsUInt16M1 : DeeInt → Option WordResult :=
  asUIntNM1 deeIntGet16Bit 16 fun result => errIntegerOverflowS (castSigned 16 result) (-1) (2 ^ 16 - 1)

/-- `DeeInt_AsUInt32M1`. -/
def deeIntAsUInt32M1 : DeeInt → Option WordResult :=
  asUIntNM1 deeIntGet32Bit 32 fun result => errIntegerOverflowS (castSigned 32 result) (-1) (2 ^ 32 - 1)

/-- `DeeInt_AsUInt64M1`. The error shows the low 32 bits of the result: it reads `*(int32_t *)result`. -/
def deeIntAsUInt64M1 : DeeInt → Option WordResult :=
  asUIntNM1 deeIntGet64Bit 64 fun result => errIntegerOverflowS (castSigned 32 (result % 2 ^ 32)) (-1) (2 ^ 64 - 1)

/-- `DeeInt_AsUInt128M1`. -/
def deeIntAsUInt128M1 (self : DeeInt) : Option WordResult :=
  asUIntNM1 deeIntGet128Bit 128 (fun _ => ⟨self.toInt, some (-1), some (2 ^ 128 - 1), false⟩) self

/-! ### The five widths -/

/-- The widths there are functions for. -/
inductive Width where
  | w8
  | w16
  | w32
  | w64
  | w128
  deriving DecidableEq, Repr

namespace Width

def bits : Width → ℕ
  | w8 => 8
  | w16 => 16
  | w32 => 32
  | w64 => 64
  | w128 => 128

def tryGetNBit : Width → DeeInt → Option (IntKind × ℕ)
  | w8 => deeIntTryGet8Bit
  | w16 => deeIntTryGet16Bit
  | w32 => deeIntTryGet32Bit
  | w64 => deeIntTryGet64Bit
  | w128 => deeIntTryGet128Bit

def tryAsInt : Width → DeeInt → Option (Option ℤ)
  | w8 => deeIntTryAsInt8
  | w16 => deeIntTryAsInt16
  | w32 => deeIntTryAsInt32
  | w64 => deeIntTryAsInt64
  | w128 => deeIntTryAsInt128

def tryAsUInt : Width → DeeInt → Option (Option ℕ)
  | w8 => deeIntTryAsUInt8
  | w16 => deeIntTryAsUInt16
  | w32 => deeIntTryAsUInt32
  | w64 => deeIntTryAsUInt64
  | w128 => deeIntTryAsUInt128

def asInt : Width → DeeInt → Option WordResult
  | w8 => deeIntAsInt8
  | w16 => deeIntAsInt16
  | w32 => deeIntAsInt32
  | w64 => deeIntAsInt64
  | w128 => deeIntAsInt128

def asUInt : Width → DeeInt → Option WordResult
  | w8 => deeIntAsUInt8
  | w16 => deeIntAsUInt16
  | w32 => deeIntAsUInt32
  | w64 => deeIntAsUInt64
  | w128 => deeIntAsUInt128

def asUIntM1 : Width → DeeInt → Option WordResult
  | w8 => deeIntAsUInt8M1
  | w16 => deeIntAsUInt16M1
  | w32 => deeIntAsUInt32M1
  | w64 => deeIntAsUInt64M1
  | w128 => deeIntAsUInt128M1

end Width

/-- The kind is the one of the number, and a number of the width is stored in two's complement. -/
def Classified (w : ℕ) (n : ℤ) (r : IntKind × ℕ) : Prop :=
  (0 ≤ n ∧ n < 2 ^ w ∧ r = (.unsigned, n.toNat)) ∨
  (2 ^ w ≤ n ∧ r.1 = .posOverflow) ∨
  (-2 ^ (w - 1) ≤ n ∧ n < 0 ∧ r = (.signed, (n + 2 ^ w).toNat)) ∨
  (n < -2 ^ (w - 1) ∧ r.1 = .negOverflow)

/-- The two's complement of the number. -/
def wordOf (w : ℕ) (n : ℤ) : ℕ := (n % 2 ^ w).toNat

/-- The number, if it fits an unsigned word of `w` bits. -/
def unsignedOf (w : ℕ) (n : ℤ) : Option ℕ := if 0 ≤ n ∧ n < 2 ^ w then some n.toNat else none

/-- The function returns 0 for the numbers from `lo` to `hi` and stores them, and otherwise -1 with an error raised. -/
structure Exact (w : ℕ) (lo hi n : ℤ) (out : WordResult) : Prop where
  success : lo ≤ n → n < hi → out = ⟨0, some (wordOf w n), none⟩
  failure : ¬(lo ≤ n ∧ n < hi) → out.code = -1 ∧ out.error.isSome

/-- Each of the functions of a width takes out exactly the numbers in its range, and says so when it does not. -/
structure ExactExtraction (w : Width) (x : DeeInt) : Prop where
  tryGet : Ends (w.tryGetNBit x) (Classified w.bits x.toInt)
  tryAsInt : w.tryAsInt x = some (signedOf w.bits x.toInt)
  tryAsUInt : w.tryAsUInt x = some (unsignedOf w.bits x.toInt)
  asInt : Ends (w.asInt x) (Exact w.bits (-2 ^ (w.bits - 1)) (2 ^ (w.bits - 1)) x.toInt)
  asUInt : Ends (w.asUInt x) (Exact w.bits 0 (2 ^ w.bits) x.toInt)
  asUIntM1 : Ends (w.asUIntM1 x) (Exact w.bits (-1) (2 ^ w.bits) x.toInt)

/-- The number fits a word of `w` bits as a signed or as an unsigned one. -/
def Fits (w : ℕ) (n : ℤ) : Prop := -2 ^ (w - 1) ≤ n ∧ n < 2 ^ w

/-- What `DeeInt_GetNBit` leaves behind. -/
def Got (w : ℕ) (n : ℤ) (out : WordResult) : Prop :=
  (0 ≤ n ∧ n < 2 ^ w ∧ out = ⟨1, some n.toNat, none⟩) ∨
  (-2 ^ (w - 1) ≤ n ∧ n < 0 ∧ out = ⟨0, some (n + 2 ^ w).toNat, none⟩) ∨
  (¬Fits w n ∧ out.code = -1 ∧ out.error.isSome)

/-! ### Words and their numbers -/

section Words

variable {w : ℕ} {n : ℤ} {r : IntKind × ℕ} {x : DeeInt}

theorem two_pow_half (hw : 0 < w) : (2 : ℤ) ^ w = 2 * 2 ^ (w - 1) := by
  rw [← pow_succ', Nat.sub_add_cancel hw]

theorem wordOf_of_nonneg (h0 : 0 ≤ n) (hn : n < 2 ^ w) : wordOf w n = n.toNat := by
  rw [wordOf, Int.emod_eq_of_lt h0 hn]

theorem wordOf_of_neg (hlow : -2 ^ w ≤ n) (hn : n < 0) : wordOf w n = (n + 2 ^ w).toNat := by
  rw [wordOf, ← Int.add_emod_right, Int.emod_eq_of_lt (by linarith) (by linarith)]

theorem castSigned_toNat (h0 : 0 ≤ n) : castSigned w n.toNat = if n < 2 ^ (w - 1) then n else n - 2 ^ w := by
  obtain ⟨m, rfl⟩ := Int.eq_ofNat_of_zero_le h0
  have hcast : (2 : ℤ) ^ (w - 1) = ((2 ^ (w - 1) : ℕ) : ℤ) := by push_cast; rfl
  simp only [castSigned, Int.toNat_natCast, hcast, Nat.cast_lt]

theorem castSigned_of_neg (hw : 0 < w) (hlow : -2 ^ (w - 1) ≤ n) (hn : n < 0) :
    castSigned w (n + 2 ^ w).toNat = n := by
  have hhalf := two_pow_half hw
  rw [castSigned_toNat (by linarith), if_neg (by linarith), add_sub_cancel_right]

/-- Sixteen or eight bits of a two's complement are the shorter two's complement. -/
theorem narrow_word (hw : w = 8 ∨ w = 16) (hlow : -2 ^ (w - 1) ≤ n) (hn : n < 0) :
    (n + 2 ^ 32).toNat % 2 ^ w = (n + 2 ^ w).toNat := by
  rcases hw with rfl | rfl <;> omega

theorem tryGetNarrow_ends (hw : w = 8 ∨ w = 16) (hx : x.Canonical) :
    Ends (tryGetNarrow w x) (Classified w x.toInt) := by
  have hpow : (2 : ℤ) ^ w ≤ 2 ^ 31 := by rcases hw with rfl | rfl <;> norm_num
  have hhalf : (2 : ℤ) ^ w = 2 * 2 ^ (w - 1) := two_pow_half (by omega)
  have hpos : (0 : ℤ) < 2 ^ (w - 1) := by positivity
  refine Ends.bind (deeIntTryGet32Bit_ends hx) ?_
  rintro ⟨kind, bits⟩ hr
  rcases hr with ⟨h0, h1, hr⟩ | ⟨h0, hr⟩ | ⟨h0, h1, hr⟩ | ⟨h0, hr⟩
  · obtain ⟨rfl, rfl⟩ := Prod.mk.inj hr
    have hcast : (2 ^ w - 1 < x.toInt.toNat) ↔ (2 : ℤ) ^ w ≤ x.toInt := by
      have hone : 1 ≤ 2 ^ w := Nat.one_le_two_pow
      have hnat : (2 : ℤ) ^ w = ((2 ^ w : ℕ) : ℤ) := by push_cast; rfl
      rw [hnat]
      generalize 2 ^ w = bound at *
      omega
    dsimp only
    simp only [hcast]
    split_ifs with hlarge
    · exact Ends.pure (.inr (.inl ⟨hlarge, rfl⟩))
    · exact Ends.pure (.inl ⟨h0, not_le.mp hlarge, rfl⟩)
  · obtain rfl : kind = .posOverflow := hr
    exact Ends.pure (.inr (.inl ⟨by linarith, rfl⟩))
  · obtain ⟨rfl, rfl⟩ := Prod.mk.inj hr
    dsimp only
    rw [castSigned_of_neg (by norm_num) h0 h1, if_neg (by linarith)]
    split_ifs with hlow
    · exact Ends.pure (.inr (.inr (.inr ⟨hlow, rfl⟩)))
    · rw [narrow_word hw (not_lt.mp hlow) h1]
      exact Ends.pure (.inr (.inr (.inl ⟨not_lt.mp hlow, h1, rfl⟩)))
  · obtain rfl : kind = .negOverflow := hr
    exact Ends.pure (.inr (.inr (.inr ⟨by linarith, rfl⟩)))

/-- The loop gives the absolute value if it fits 128 bits. -/
theorem tryGet128_loop (hx : x.WF) :
    Ends (loop (tryGet128Round x.obDigit) (x.absSize + 1) (x.absSize, 0)) fun r =>
      r = if x.mag < 2 ^ 128 then some x.mag else none := by
  have hw : digitBits ≤ 128 := by norm_num
  refine loop_ends (fun s => s.1 ≤ x.absSize ∧ s.2 = topDigits x s.1 ∧ s.2 < 2 ^ 128) (fun s => s.1)
    ⟨le_rfl, by simp, by positivity⟩ (Nat.lt_succ_self _) ?_
  rintro ⟨i, value⟩ ⟨hi, hvalue, hfits⟩
  dsimp only at hi hvalue hfits
  subst hvalue
  unfold tryGet128Round
  cases i with
  | zero =>
    rw [topDigits_zero] at hfits ⊢
    refine Ends.pure ?_
    show some x.mag = _
    rw [if_pos hfits]
  | succ i =>
    have hdropped : topDigits x (i + 1) >>> (128 - digitBits) ≠ 0 ↔ 2 ^ (128 - digitBits) ≤ topDigits x (i + 1) := by
      rw [Nat.shiftRight_eq_div_pow, Nat.div_ne_zero_iff]
      exact and_iff_right (by positivity)
    have hdigit := hx.cell_lt (show i < x.absSize by omega)
    dsimp only
    rw [if_neg (Nat.succ_ne_zero i)]
    by_cases hlost : 2 ^ (128 - digitBits) ≤ topDigits x (i + 1)
    · rw [if_pos (hdropped.mpr hlost)]
      refine Ends.pure ?_
      show none = _
      rw [if_neg (not_lt.mpr (le_mag_of_topDigits hw hi hlost))]
    · have htop := not_le.mp hlost
      rw [if_neg (mt hdropped.mp hlost), Nat.add_sub_cancel, rd_of_lt (hx.lt_length (by omega)), some_bind,
        shiftIn_digit hw hdigit, Nat.mod_eq_of_lt htop, ← topDigits_succ hi]
      exact Ends.pure ⟨⟨by dsimp only; omega, rfl, topDigits_lt hx hw hi htop⟩, Nat.lt_succ_self i⟩

theorem deeIntTryGet128Bit_ends (hx : x.Canonical) : Ends (deeIntTryGet128Bit x) (Classified 128 x.toInt) :=
  @tryGet_ends 128 _ _ (fun digit => (2 ^ 64 - digit) % 2 ^ 64 + 2 ^ 64 * (2 ^ 64 - 1)) (by norm_num) hx
    (fun digit hpos hlt => by unfold digitBase at hlt; omega) (tryGet128_loop hx.toWF)

end Words

/-! ### The layers -/

section Layers

variable {w : ℕ} {n : ℤ} {r : IntKind × ℕ} {x : DeeInt} {tryGet : DeeInt → Option (IntKind × ℕ)}
  {get : DeeInt → Option WordResult}

theorem asUnsigned_eq (hw : 0 < w) (h : Classified w n r) : asUnsigned w r = unsignedOf w n := by
  obtain ⟨kind, bits⟩ := r
  have hhalf := two_pow_half hw
  have hpos : (0 : ℤ) < 2 ^ (w - 1) := by positivity
  rcases h with ⟨h0, h1, hr⟩ | ⟨h0, hr⟩ | ⟨h0, h1, hr⟩ | ⟨h0, hr⟩
  · obtain ⟨rfl, rfl⟩ := Prod.mk.inj hr
    exact (if_pos ⟨h0, h1⟩).symm
  · obtain rfl : kind = .posOverflow := hr
    exact (if_neg fun hin => by linarith [hin.2]).symm
  · obtain ⟨rfl, rfl⟩ := Prod.mk.inj hr
    simp only [asUnsigned, castSigned_of_neg hw h0 h1, if_pos h1]
    exact (if_neg fun hin => by linarith [hin.1]).symm
  · obtain rfl : kind = .negOverflow := hr
    exact (if_neg fun hin => by linarith [hin.1]).symm

/-- `DeeInt_GetNBit` fails exactly when the bits do not fit. -/
theorem getNBit_ends (hw : 0 < w) (h : Ends (tryGet x) (Classified w x.toInt)) :
    Ends (getNBit tryGet w x) (Got w x.toInt) := by
  have hpos : (0 : ℤ) < 2 ^ (w - 1) := by positivity
  have hhalf := two_pow_half hw
  refine Ends.bind h ?_
  rintro ⟨kind, bits⟩ hr
  rcases hr with ⟨h0, h1, hr⟩ | ⟨h0, hr⟩ | ⟨h0, h1, hr⟩ | ⟨h0, hr⟩
  · obtain ⟨rfl, rfl⟩ := Prod.mk.inj hr
    exact Ends.pure (.inl ⟨h0, h1, rfl⟩)
  · obtain rfl : kind = .posOverflow := hr
    exact Ends.pure (.inr (.inr ⟨fun hfits => by linarith [hfits.2], rfl, rfl⟩))
  · obtain ⟨rfl, rfl⟩ := Prod.mk.inj hr
    exact Ends.pure (.inr (.inl ⟨h0, h1, rfl⟩))
  · obtain rfl : kind = .negOverflow := hr
    exact Ends.pure (.inr (.inr ⟨fun hfits => by linarith [hfits.1], rfl, rfl⟩))

variable {kind : IntKind} {refused : ℕ → Prop} [DecidablePred refused] {overflow : ℕ → IntegerOverflow}
  {got : WordResult} {bits : ℕ}

theorem refuse_of_ne (h : got.code ≠ kind.code) : refuse kind refused overflow got = some { got with code := 0 } :=
  if_neg h

theorem refuse_of_refused (hcode : got.code = kind.code) (hbits : got.result = some bits) (h : refused bits) :
    refuse kind refused overflow got = some ⟨-1, some bits, some (overflow bits)⟩ := by
  simp [refuse, hcode, hbits, h]

theorem refuse_of_not (hcode : got.code = kind.code) (hbits : got.result = some bits) (h : ¬refused bits) :
    refuse kind refused overflow got = some { got with code := 0 } := by
  simp [refuse, hcode, hbits, h]

/-- A failure of `DeeInt_GetNBit` is none of the kinds that are looked at, so it becomes a success. -/
theorem refuse_of_failed (hcode : got.code = -1) (hkind : kind = .signed ∨ kind = .unsigned) :
    refuse kind refused overflow got = some { got with code := 0 } := by
  apply refuse_of_ne
  rcases hkind with rfl | rfl <;> simp [hcode, IntKind.code]

/-- What the functions with one signedness leave behind: nothing is wrong but the returned 0 for numbers that do not
fit at all. -/
def Asked (w : ℕ) (lo hi n : ℤ) (out : WordResult) : Prop :=
  (Fits w n → Exact w lo hi n out) ∧ (¬Fits w n → out.code = 0 ∧ out.error.isSome)

theorem asIntN_ends (hw : 0 < w) (h : Ends (get x) (Got w x.toInt)) :
    Ends (asIntN get w x) (Asked w (-2 ^ (w - 1)) (2 ^ (w - 1)) x.toInt) := by
  have hpos : (0 : ℤ) < 2 ^ (w - 1) := by positivity
  have hhalf := two_pow_half hw
  refine Ends.bind h fun got hgot => ?_
  rcases hgot with ⟨h0, h1, rfl⟩ | ⟨h0, h1, rfl⟩ | ⟨hout, hcode, herror⟩
  · have hfits : Fits w x.toInt := ⟨by linarith, h1⟩
    have hcast := castSigned_toNat (w := w) h0
    by_cases hlarge : x.toInt < 2 ^ (w - 1)
    · rw [if_pos hlarge] at hcast
      rw [refuse_of_not rfl rfl (by rw [hcast]; exact not_lt.mpr h0)]
      refine Ends.pure ⟨fun _ => ⟨fun _ _ => ?_, fun hin => absurd ⟨hfits.1, hlarge⟩ hin⟩, (absurd hfits ·)⟩
      rw [wordOf_of_nonneg h0 h1]
    · rw [if_neg hlarge] at hcast
      rw [refuse_of_refused rfl rfl (by rw [hcast]; linarith)]
      exact Ends.pure ⟨fun _ => ⟨fun _ hin => absurd hin hlarge, fun _ => ⟨rfl, rfl⟩⟩, (absurd hfits ·)⟩
  · have hfits : Fits w x.toInt := ⟨h0, by linarith⟩
    rw [refuse_of_ne (show (0 : ℤ) ≠ 1 by norm_num)]
    refine Ends.pure ⟨fun _ => ⟨fun _ _ => ?_, fun hin => absurd ⟨h0, by linarith⟩ hin⟩, (absurd hfits ·)⟩
    rw [wordOf_of_neg (by linarith) h1]
  · rw [refuse_of_failed hcode (.inr rfl)]
    exact Ends.pure ⟨(absurd · hout), fun _ => ⟨rfl, herror⟩⟩

/-- The two functions without a sign refuse the negative numbers below a bound. -/
theorem refuse_signed_ends {lo : ℤ} (hw : 0 < w) (hlow : -2 ^ (w - 1) ≤ lo) (hlo : lo ≤ 0) (hgot : Got w n got) :
    Ends (refuse .signed (castSigned w · < lo) overflow got) (Asked w lo (2 ^ w) n) := by
  have hhalf := two_pow_half hw
  rcases hgot with ⟨h0, h1, rfl⟩ | ⟨h0, h1, rfl⟩ | ⟨hout, hcode, herror⟩
  · have hfits : Fits w n := ⟨by linarith, h1⟩
    rw [refuse_of_ne (show (1 : ℤ) ≠ 0 by norm_num)]
    refine Ends.pure ⟨fun _ => ⟨fun _ _ => ?_, fun hin => absurd ⟨by linarith, h1⟩ hin⟩, (absurd hfits ·)⟩
    rw [wordOf_of_nonneg h0 h1]
  · have hfits : Fits w n := ⟨h0, by linarith⟩
    have hcast := castSigned_of_neg hw h0 h1
    by_cases hsmall : n < lo
    · rw [refuse_of_refused rfl rfl (by rw [hcast]; exact hsmall)]
      exact Ends.pure ⟨fun _ => ⟨fun hin _ => absurd hsmall (not_lt.mpr hin), fun _ => ⟨rfl, rfl⟩⟩, (absurd hfits ·)⟩
    · rw [refuse_of_not rfl rfl (by rw [hcast]; exact hsmall)]
      refine Ends.pure ⟨fun _ => ⟨fun _ _ => ?_, fun hin => absurd ⟨not_lt.mp hsmall, by linarith⟩ hin⟩,
        (absurd hfits ·)⟩
      rw [wordOf_of_neg (by linarith) h1]
  · rw [refuse_of_failed hcode (.inl rfl)]
    exact Ends.pure ⟨(absurd · hout), fun _ => ⟨rfl, herror⟩⟩

theorem asUIntN_ends (hw : 0 < w) (h : Ends (get x) (Got w x.toInt)) :
    Ends (asUIntN get w x) (Asked w 0 (2 ^ w) x.toInt) := by
  have hpos : (0 : ℤ) < 2 ^ (w - 1) := by positivity
  exact Ends.bind h fun got hgot => refuse_signed_ends hw (by linarith) le_rfl hgot

theorem asUIntNM1_ends (hw : 0 < w) (h : Ends (get x) (Got w x.toInt)) :
    Ends (asUIntNM1 get w overflow x) (Asked w (-1) (2 ^ w) x.toInt) := by
  have hpos : (1 : ℤ) ≤ 2 ^ (w - 1) := one_le_pow₀ (by norm_num)
  exact Ends.bind h fun got hgot => refuse_signed_ends hw (by linarith) (by norm_num) hgot

end Layers

/-! ### Each width -/

section Widths

variable {x : DeeInt} {w : Width}

theorem Width.bits_pos : 0 < w.bits := by cases w <;> decide

/-- `DeeInt_TryGetNBit` says which kind of number it is, at every width. -/
theorem tryGetNBit_ends (hx : x.Canonical) (w : Width) : Ends (w.tryGetNBit x) (Classified w.bits x.toInt) := by
  cases w with
  | w8 => exact tryGetNarrow_ends (.inl rfl) hx
  | w16 => exact tryGetNarrow_ends (.inr rfl) hx
  | w32 => exact deeIntTryGet32Bit_ends hx
  | w64 => exact deeIntTryGet64Bit_ends hx
  | w128 => exact deeIntTryGet128Bit_ends hx

theorem tryAsInt_eq (hx : x.Canonical) : w.tryAsInt x = some (signedOf w.bits x.toInt) := by
  obtain ⟨r, hr, hclass⟩ := tryGetNBit_ends hx w
  have heq : w.tryAsInt x = (w.tryGetNBit x).map (asSigned w.bits) := by cases w <;> rfl
  rw [heq, hr, Option.map_some, asSigned_eq Width.bits_pos hclass]

theorem tryAsUInt_eq (hx : x.Canonical) : w.tryAsUInt x = some (unsignedOf w.bits x.toInt) := by
  obtain ⟨r, hr, hclass⟩ := tryGetNBit_ends hx w
  have heq : w.tryAsUInt x = (w.tryGetNBit x).map (asUnsigned w.bits) := by cases w <;> rfl
  rw [heq, hr, Option.map_some, asUnsigned_eq Width.bits_pos hclass]

theorem asInt_ends (hx : x.Canonical) (w : Width) :
    Ends (w.asInt x) (Asked w.bits (-2 ^ (w.bits - 1)) (2 ^ (w.bits - 1)) x.toInt) := by
  have hget := getNBit_ends w.bits_pos (tryGetNBit_ends hx w)
  cases w <;> exact asIntN_ends (by decide) hget

theorem asUInt_ends (hx : x.Canonical) (w : Width) :
    Ends (w.asUInt x) (Asked w.bits 0 (2 ^ w.bits) x.toInt) := by
  have hget := getNBit_ends w.bits_pos (tryGetNBit_ends hx w)
  cases w <;> exact asUIntN_ends (by decide) hget

theorem asUIntM1_ends (hx : x.Canonical) (w : Width) :
    Ends (w.asUIntM1 x) (Asked w.bits (-1) (2 ^ w.bits) x.toInt) := by
  have hget := getNBit_ends w.bits_pos (tryGetNBit_ends hx w)
  cases w <;> exact asUIntNM1_ends (by decide) hget

/-- Extraction is exact for the numbers that fit the width with one sign or the other. Beyond them the functions
`DeeInt_AsIntN`, `DeeInt_AsUIntN` and `DeeInt_AsUIntNM1` return 0 with the error raised. -/
theorem exactExtraction_iff (hx : x.Canonical) (w : Width) :
    ExactExtraction w x ↔ -2 ^ (w.bits - 1) ≤ x.toInt ∧ x.toInt < 2 ^ w.bits := by
  constructor
  · intro hexact
    by_contra hout
    obtain ⟨out, heq, hasked⟩ := asInt_ends hx w
    obtain ⟨out', heq', hfine⟩ := hexact.asInt
    obtain rfl : out = out' := Option.some.inj (heq.symm.trans heq')
    have hpos : (0 : ℤ) < 2 ^ (w.bits - 1) := by positivity
    have hhalf := two_pow_half w.bits_pos
    have hfailed := hfine.failure fun hin => hout ⟨hin.1, by linarith [hin.2]⟩
    have hcode := (hasked.2 hout).1
    rw [hfailed.1] at hcode
    exact absurd hcode (by decide)
  · intro hfits
    exact
      { tryGet := tryGetNBit_ends hx w
        tryAsInt := tryAsInt_eq hx
        tryAsUInt := tryAsUInt_eq hx
        asInt := (asInt_ends hx w).mono fun _ hasked => hasked.1 hfits
        asUInt := (asUInt_ends hx w).mono fun _ hasked => hasked.1 hfits
        asUIntM1 := (asUIntM1_ends hx w).mono fun _ hasked => hasked.1 hfits }

theorem exactExtraction_iff_minusOne :
    ExactExtraction .w16 ⟨-1, [1]⟩ ↔ (-2 : ℤ) ^ (16 - 1) ≤ -1 ∧ (-1 : ℤ) < 2 ^ 16 :=
  exactExtraction_iff (x := ⟨-1, [1]⟩) (by decide) .w16

/-- 256 does not fit 8 bits: `DeeInt_AsInt8` raises the error, stores nothing and returns 0. -/
theorem asInt8_succeeds_with_error : DeeInt.Canonical ⟨1, [256]⟩ ∧
    deeIntAsInt8 ⟨1, [256]⟩ = some ⟨0, none, some ⟨256, some (-128), some 255, true⟩⟩ ∧
    ¬∀ x : DeeInt, x.Canonical → ∀ w, ExactExtraction w x := by
  refine ⟨by decide, by decide, fun hall => ?_⟩
  obtain ⟨out, heq, hexact⟩ := (hall ⟨1, [256]⟩ (by decide) .w8).asInt
  have hout : deeIntAsInt8 ⟨1, [256]⟩ = some ⟨0, none, some ⟨256, some (-128), some 255, true⟩⟩ := by decide
  obtain rfl := Option.some.inj (hout.symm.trans heq)
  exact absurd (hexact.failure (by decide)).1 (by decide)

end Widths

end Deemon.Int
