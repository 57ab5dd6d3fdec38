import Deemon.Int.Mul
import Deemon.Lib.Knuth

/-!
# Division

`v_lshift`, `v_rshift`, `inplace_divrem1`, `divrem1`, `bits_in_digit`, `x_divrem` (algorithm D: normalise, guess a
digit from two, subtract, add back), `int_divrem` (quotient towards zero) and `int_divmod` (floor).
-/

namespace Deemon.Int

open Deemon.Run Deemon.Radix DeeInt

/-- The errors of the integer operators. -/
inductive IntError where
  /-- `DeeRT_ErrDivideByZero(a, b)`. -/
  | divideByZero (a b : DeeInt)
  /-- `DeeRT_ErrNegativeShiftOverflow(a, is_left_shift)`. -/
  | negativeShiftOverflow (a : DeeInt) (isLeftShift : Bool)
  /-- `DeeRT_ErrIntegerOverflowEx(self, num_bits, flags)`, with its `F_SIGNED` and `F_POSITIVE` flags. -/
  | integerOverflow (self : DeeInt) (numBits : ℕ) (signed positive : Bool)
  /-- `ValueError("Invalid byteorder %r")`. -/
  | invalidByteorder (byteorder : String)
  /-- `IntegerOverflow("int too large to format")`. -/
  | tooLargeToFormat
  /-- `NotImplemented("Unsupported integer radix %u")`. -/
  | unsupportedRadix (radix : ℕ)
  /-- `ValueError("Invalid integer %$q")`. -/
  | invalidInteger (str : List ℕ)
  deriving DecidableEq, Repr

/-! ### Shifts of digit buffers -/

/-- `acc = (twodigits)x << d | carry; z[i] = acc & DIGIT_MASK; carry = acc >> DIGIT_BITS`. -/
def lshiftRound (z : List ℕ) (i d carry x : ℕ) : Option (ℕ × List ℕ) := do
  let acc ← fits 64 (x <<< d ||| carry)
  let z ← wr z i (acc &&& digitMask)
  some (acc >>> digitBits, z)

/-- `v_lshift(z, a, m, d)`: the carry and the buffer of `z`. -/
def vLshift (z a : List ℕ) (m d : ℕ) : Option (ℕ × List ℕ) := do
  assert (d < digitBits)
  forLoop (fun i (carry, z) => do lshiftRound z i d carry (← rd a i)) 0 m (0, z)

/-- `v_rshift(z, a, m, d)`. -/
def vRshift (z a : List ℕ) (m d : ℕ) : Option (ℕ × List ℕ) := do
  let mask := 1 <<< d - 1
  assert (d < digitBits)
  forDown (fun i (carry, z) => do
    let acc ← fits 64 (carry <<< digitBits ||| (← rd a i))
    let z ← wr z i (← fits 32 (acc >>> d))
    some (acc &&& mask, z)) m (0, z)

theorem shiftLeft_or {x d y : ℕ} (hy : y < 2 ^ d) : x <<< d ||| y = x * 2 ^ d + y := by
  rw [← Nat.shiftLeft_add_eq_or_of_lt hy, Nat.shiftLeft_eq]

theorem lshiftRound_ends {len s n v d carry x : ℕ} {z : List ℕ} (h : Carried len s n v (carry, z))
    (hlen : s + n < len) (hd : d < digitBits) (hcarry : carry < 2 ^ d) (hx : x < digitBase) :
    Ends (lshiftRound z (s + n) d carry x) fun r => r.1 < 2 ^ d ∧ SameOut z r.2 (s + n) 1 ∧
      Carried len s (n + 1) (v + x * 2 ^ d * digitBase ^ n) r := by
  have hpow : 2 ^ d ≤ 2 ^ 29 := Nat.pow_le_pow_right (by norm_num) (by unfold digitBits at hd; omega)
  have hmul : x * 2 ^ d + carry < digitBase * 2 ^ d := by
    have : (x + 1) * 2 ^ d ≤ digitBase * 2 ^ d := Nat.mul_le_mul_right _ hx
    rw [Nat.add_mul] at this
    omega
  have hround := addRound_ends (w := 64) (x := x * 2 ^ d) h hlen (by
    unfold digitBase at hmul
    omega)
  unfold addRound at hround
  rw [Nat.add_comm carry] at hround
  unfold lshiftRound
  rw [shiftLeft_or hcarry]
  refine hround.mono fun r ⟨hrow, hr, hout⟩ => ⟨?_, hout, hrow⟩
  rw [hr]
  exact (Nat.div_lt_iff_lt_mul digitBase_pos).mpr (by rwa [Nat.mul_comm (2 ^ d)])

theorem vLshift_ends {z a : List ℕ} {m d : ℕ} (ha : Below digitBase a 0 m) (halen : m ≤ a.length)
    (hzlen : m ≤ z.length) (hd : d < digitBits) :
    Ends (vLshift z a m d) fun r => r.1 < 2 ^ d ∧ SameOut z r.2 0 m ∧
      Carried z.length 0 m (seg digitBase a 0 m * 2 ^ d) r := by
  unfold vLshift
  rw [assert_of hd, some_bind]
  refine forLoop_ends_zero (fun i (r : ℕ × List ℕ) => r.1 < 2 ^ d ∧ SameOut z r.2 0 i ∧
    Carried z.length 0 i (seg digitBase a 0 i * 2 ^ d) r) ?_ ?_
  · exact ⟨Nat.pow_pos (by norm_num), SameOut.refl, by simpa using Carried.zero⟩
  rintro i ⟨c, r⟩ hi ⟨hc, hout, hrow⟩
  dsimp only at hc hout ⊢
  have hai := ha i hi
  have hround := lshiftRound_ends hrow (by omega) hd hc hai
  rw [Nat.zero_add] at hround
  rw [rd_of_lt (by omega), some_bind]
  refine hround.mono fun r' ⟨hc', hout', hrow'⟩ =>
    ⟨hc', (hout.mono le_rfl (by omega)).trans (hout'.mono (by omega) (by omega)), ?_⟩
  rw [seg_succ, Nat.zero_add]
  convert hrow' using 1
  ring

theorem vRshift_ends {z a : List ℕ} {m d : ℕ} (ha : Below digitBase a 0 m) (halen : m ≤ a.length)
    (hzlen : m ≤ z.length) (hd : d < digitBits) :
    Ends (vRshift z a m d) fun r => r.1 < 2 ^ d ∧ SameOut z r.2 0 m ∧ Below digitBase r.2 0 m ∧
      seg digitBase r.2 0 m * 2 ^ d + r.1 = seg digitBase a 0 m := by
  have hpow : 2 ^ d ≤ 2 ^ 29 := Nat.pow_le_pow_right (by norm_num) (by unfold digitBits at hd; omega)
  have hpos : 0 < 2 ^ d := Nat.pow_pos (by norm_num)
  unfold vRshift
  dsimp only
  rw [assert_of hd, some_bind, Nat.one_shiftLeft]
  -- what the digits from `i` on leave: the shifted digits, and the carry in front of digit `i`
  refine (forDown_ends (fun i (r : ℕ × List ℕ) => r.1 < 2 ^ d ∧ SameOut z r.2 i (m - i) ∧
    Below digitBase r.2 i (m - i) ∧
    seg digitBase r.2 i (m - i) * 2 ^ d + r.1 = seg digitBase a i (m - i)) ?_ ?_).mono fun r h => by simpa using h
  · exact ⟨hpos, SameOut.refl, fun i hi => by omega, by simp⟩
  rintro i ⟨c, r⟩ hi ⟨hc, hout, hbelow, hval⟩
  dsimp only at hc hout hbelow hval ⊢
  have hlen := hout.length
  have hai := ha i hi
  rw [Nat.zero_add] at hai
  rw [rd_of_lt (by omega), some_bind, shiftLeft_or (d := digitBits) hai]
  have hacc : c * 2 ^ digitBits + cell a i < digitBase * 2 ^ d := by
    have : (c + 1) * digitBase ≤ 2 ^ d * digitBase := Nat.mul_le_mul_right _ hc
    rw [Nat.add_mul] at this
    unfold digitBits digitBase at *
    omega
  have hdigit : (c * 2 ^ digitBits + cell a i) / 2 ^ d < digitBase :=
    (Nat.div_lt_iff_lt_mul hpos).mpr hacc
  rw [fits_of_lt (by unfold digitBits digitBase at *; omega), some_bind, Nat.shiftRight_eq_div_pow,
    fits_of_lt (by unfold digitBase at hdigit; omega), some_bind, wr_of_lt (by omega), some_bind,
    Nat.and_two_pow_sub_one_eq_mod]
  refine Ends.pure ⟨Nat.mod_lt _ hpos, ?_, fun k hk => ?_, ?_⟩
  · exact (hout.mono (by omega) (by omega)).trans (SameOut.set.mono le_rfl (by omega))
  · rcases Nat.eq_zero_or_pos k with rfl | hkpos
    · rw [Nat.add_zero, cell_set_self (by omega)]
      exact hdigit
    · rw [cell_set_of_ne (by omega), show i + k = i + 1 + (k - 1) by omega]
      exact hbelow (k - 1) (by omega)
  · rw [show m - i = m - (i + 1) + 1 by omega, seg_succ_front, seg_succ_front, cell_set_self (by omega),
      seg_set_out (Or.inl (by omega)), ← hval]
    have hdm := Nat.div_add_mod (c * 2 ^ digitBits + cell a i) (2 ^ d)
    unfold digitBits at hdm ⊢
    linear_combination hdm

/-! ### Division by one digit -/

/-- `inplace_divrem1(pout, pin, size, n)`: the remainder and the buffer of `pout`. -/
def inplaceDivrem1 (pout pin : List ℕ) (size n : ℕ) : Option (ℕ × List ℕ) := do
  assert (0 < n ∧ n ≤ digitMask)
  forDown (fun i (rem, pout) => do
    let rem ← fits 64 (rem <<< digitBits ||| (← rd pin i))
    let hi ← fits 32 (rem / n)
    let pout ← wr pout i hi
    some (rem - hi * n, pout)) size (0, pout)

/-- `divrem1(a, n, p_rem)`: the quotient and the remainder. -/
def divrem1 (a : DeeInt) (n : ℕ) : Option (DeeInt × ℕ) := do
  assert (0 < n ∧ n ≤ digitMask)
  let z := deeIntAlloc a.absSize
  let (rem, digits) ← inplaceDivrem1 z.obDigit a.obDigit a.absSize n
  some (← intNormalize { z with obDigit := digits }, rem)

theorem inplaceDivrem1_ends {pout pin : List ℕ} {size n : ℕ} (hpin : Below digitBase pin 0 size)
    (hin : size ≤ pin.length) (hout : size ≤ pout.length) (hn : 0 < n) (hn' : n ≤ digitMask) :
    Ends (inplaceDivrem1 pout pin size n) fun r => r.1 < n ∧ SameOut pout r.2 0 size ∧
      Below digitBase r.2 0 size ∧ seg digitBase r.2 0 size * n + r.1 = seg digitBase pin 0 size := by
  unfold inplaceDivrem1
  rw [assert_of ⟨hn, hn'⟩, some_bind]
  refine (forDown_ends (fun i (r : ℕ × List ℕ) => r.1 < n ∧ SameOut pout r.2 i (size - i) ∧
    Below digitBase r.2 i (size - i) ∧
    seg digitBase r.2 i (size - i) * n + r.1 = seg digitBase pin i (size - i)) ?_ ?_).mono
    fun r h => by simpa using h
  · exact ⟨hn, SameOut.refl, fun i hi => by omega, by simp⟩
  rintro i ⟨c, r⟩ hi ⟨hc, hsame, hbelow, hval⟩
  dsimp only at hc hsame hbelow hval ⊢
  have hlen := hsame.length
  have hpi := hpin i hi
  rw [Nat.zero_add] at hpi
  rw [rd_of_lt (by omega), some_bind, shiftLeft_or (d := digitBits) hpi]
  have hacc : c * 2 ^ digitBits + cell pin i < digitBase * n := by
    have : (c + 1) * digitBase ≤ n * digitBase := Nat.mul_le_mul_right _ hc
    rw [Nat.add_mul] at this
    unfold digitBits digitBase at *
    omega
  have hdigit : (c * 2 ^ digitBits + cell pin i) / n < digitBase := (Nat.div_lt_iff_lt_mul hn).mpr hacc
  have hdm := Nat.div_add_mod' (c * 2 ^ digitBits + cell pin i) n
  rw [fits_of_lt (by unfold digitBits digitBase digitMask at *; omega), some_bind,
    fits_of_lt (by unfold digitBase at hdigit; omega), some_bind, wr_of_lt (by omega), some_bind]
  refine Ends.pure ⟨?_, ?_, fun k hk => ?_, ?_⟩
  · have := Nat.mod_lt (c * 2 ^ digitBits + cell pin i) hn
    dsimp only
    omega
  · exact (hsame.mono (by omega) (by omega)).trans (SameOut.set.mono le_rfl (by omega))
  · rcases Nat.eq_zero_or_pos k with rfl | hkpos
    · rw [Nat.add_zero, cell_set_self (by omega)]
      exact hdigit
    · rw [cell_set_of_ne (by omega), show i + k = i + 1 + (k - 1) by omega]
      exact hbelow (k - 1) (by omega)
  · rw [show size - i = size - (i + 1) + 1 by omega, seg_succ_front, seg_succ_front, cell_set_self (by omega),
      seg_set_out (Or.inl (by omega)), ← hval, show c * 2 ^ digitBits + cell pin i -
      (c * 2 ^ digitBits + cell pin i) / n * n = (c * 2 ^ digitBits + cell pin i) % n by omega]
    unfold digitBits at hdm ⊢
    linear_combination hdm

theorem divrem1_ends {a : DeeInt} {n : ℕ} (ha : a.WF) (hn : 0 < n) (hn' : n ≤ digitMask) :
    Ends (divrem1 a n) fun r => IsNat r.1 (a.mag / n) ∧ r.2 = a.mag % n := by
  unfold divrem1
  rw [assert_of ⟨hn, hn'⟩, some_bind]
  refine Ends.bind (inplaceDivrem1_ends ha.below ha.len (by simp) hn hn') ?_
  rintro ⟨rem, digits⟩ ⟨hrem, hsame, hbelow, hval⟩
  dsimp only at hrem hsame hbelow hval ⊢
  have hlen : digits.length = a.absSize := by simpa using hsame.length
  refine Ends.bind (intNormalize_pos hlen.ge hbelow) fun z ⟨hz, hzval⟩ => Ends.pure ?_
  have hdiv := (Nat.div_mod_unique hn (a := a.mag) (d := seg digitBase digits 0 a.absSize) (c := rem)).mpr
    ⟨by rw [mag, ← hval]; ring, hrem⟩
  exact ⟨⟨hz, by rw [hzval, hdiv.1]⟩, hdiv.2.symm⟩

/-! ### Algorithm D -/

/-- `bit_length_table`. -/
def bitLengthTable : List ℕ :=
  [0, 1, 2, 2, 3, 3, 3, 3, 4, 4, 4, 4, 4, 4, 4, 4,
   5, 5, 5, 5, 5, 5, 5, 5, 5, 5, 5, 5, 5, 5, 5, 5]

/-- `bits_in_digit`. -/
def bitsInDigit (d : ℕ) : Option ℕ := do
  let (d, dBits) ← loop (fun (d, dBits) =>
    some (if 32 ≤ d then .next (d >>> 6, dBits + 6) else .done (d, dBits))) (d + 1) (d, 0)
  some (dBits + (← rd bitLengthTable d))

theorem bitsInDigit_ends {d : ℕ} (hd : 0 < d) :
    Ends (bitsInDigit d) fun n => 0 < n ∧ 2 ^ (n - 1) ≤ d ∧ d < 2 ^ n := by
  unfold bitsInDigit
  refine Ends.bind (P := fun s => s.1 < 32 ∧ s.1 = d / 2 ^ s.2 ∧ (0 < s.2 → 2 ^ (s.2 - 1) ≤ d)) ?_ ?_
  · refine loop_ends (fun s => s.1 = d / 2 ^ s.2 ∧ (0 < s.2 → 2 ^ (s.2 - 1) ≤ d)) (fun s => s.1)
      ⟨by simp, by simp⟩ (by simp) ?_
    rintro ⟨x, n⟩ ⟨hx, hn⟩
    dsimp only at hx hn ⊢
    split_ifs with hge
    · refine Ends.pure ⟨⟨?_, fun _ => ?_⟩, ?_⟩
      · dsimp only
        rw [Nat.shiftRight_eq_div_pow, hx, Nat.div_div_eq_div_mul, ← pow_add]
      · have hmul := (Nat.le_div_iff_mul_le (Nat.pow_pos (by norm_num))).mp (hx ▸ hge)
        rw [show n + 6 - 1 = 5 + n by omega, pow_add]
        exact hmul
      · dsimp only
        rw [Nat.shiftRight_eq_div_pow]
        exact Nat.div_lt_self (by omega) (by norm_num)
    · exact Ends.pure ⟨by omega, hx, hn⟩
  rintro ⟨x, n⟩ ⟨hlt, hx, hn⟩
  dsimp only at hlt hx hn ⊢
  have htable : ∀ y < 32, cell bitLengthTable y ≤ 5 ∧ y < 2 ^ cell bitLengthTable y ∧
      (0 < y → 0 < cell bitLengthTable y ∧ 2 ^ (cell bitLengthTable y - 1) ≤ y) := by decide
  obtain ⟨-, hup, hlow⟩ := htable x hlt
  rw [rd_of_lt (by simpa [bitLengthTable] using hlt), some_bind]
  have hpow : 0 < 2 ^ n := Nat.pow_pos (by norm_num)
  have hdlt : d < 2 ^ (n + cell bitLengthTable x) := by
    rw [pow_add, Nat.mul_comm]
    exact (Nat.div_lt_iff_lt_mul hpow).mp (hx ▸ hup)
  refine Ends.pure ?_
  rcases Nat.eq_zero_or_pos x with rfl | hxpos
  · have hdn : d < 2 ^ n := (Nat.div_eq_zero_iff_lt hpow).mp hx.symm
    have hn0 : 0 < n := by
      by_contra hle
      obtain rfl : n = 0 := by omega
      simp at hdn
      omega
    exact ⟨by omega, hn hn0, hdlt⟩
  · obtain ⟨hpos, hle⟩ := hlow hxpos
    refine ⟨by omega, ?_, hdlt⟩
    rw [show n + cell bitLengthTable x - 1 = cell bitLengthTable x - 1 + n by omega, pow_add]
    exact (Nat.le_div_iff_mul_le hpow).mp (hx ▸ hle)

/-- The guess of `x_divrem`: `q` is lowered while it is too big for the second digit as well. -/
def trialQuotient (wm1 wm2 v2 q r : ℕ) : Option ℕ :=
  loop (fun (q, r) => do
    let prod ← fits 64 (wm2 * q)
    if r <<< digitBits ||| v2 < prod then do
      let r ← fits 32 (r + wm1)
      some (if digitBase ≤ r then .done (q - 1) else .next (q - 1, r))
    else
      some (.done q)) (q + 1) (q, r)

/-- The loop of `x_divrem` that subtracts `q * w0` from the `sizeW` digits of `v` from `vk` on. -/
def mulSubLoop (q : ℕ) (w0 : List ℕ) (vk sizeW : ℕ) (v : List ℕ) : Option (ℤ × List ℕ) :=
  forLoop (fun i (zhi, v) => do
    let x ← sfits 32 ((← rd v (vk + i)) + zhi)
    let z ← sfits 64 (x - (← sfits 64 (q * (← rd w0 i))))
    let v ← wr v (vk + i) ((z % 2 ^ 32).toNat &&& digitMask)
    let zhi ← sfits 32 (z >>> digitBits)
    some (zhi, v)) 0 sizeW (0, v)

/-- The loop of `x_divrem` that adds the divisor back. -/
def addBackLoop (w0 : List ℕ) (vk sizeW : ℕ) (v : List ℕ) : Option (ℕ × List ℕ) :=
  forLoop (fun i (carry, v) => do
    addRound 32 v (vk + i) carry (← fits 32 ((← rd v (vk + i)) + (← rd w0 i)))) 0 sizeW (0, v)

/-- One round of `x_divrem`: the digit `vk` of the quotient, and the remainder in `v` from `vk` on. -/
def xDivremStep (w0 : List ℕ) (sizeW vk : ℕ) (v a : List ℕ) : Option (List ℕ × List ℕ) := do
  let wm1 ← rd w0 (sizeW - 1)
  let wm2 ← rd w0 (sizeW - 2)
  let vtop ← rd v (vk + sizeW)
  assert (vtop ≤ wm1)
  let vv ← fits 64 (vtop <<< digitBits ||| (← rd v (vk + sizeW - 1)))
  let q ← fits 32 (vv / wm1)
  let r ← fits 32 (vv - wm1 * q)
  let q ← trialQuotient wm1 wm2 (← rd v (vk + sizeW - 2)) q r
  assert (q ≤ digitBase)
  let (zhi, v) ← mulSubLoop q w0 vk sizeW v
  assert (vtop + zhi = -1 ∨ vtop + zhi = 0)
  let (q, v) ← (if vtop + zhi < 0 then do
      let (_, v) ← addBackLoop w0 vk sizeW v
      some (q - 1, v)
    else some (q, v))
  assert (q < digitBase)
  let a ← wr a vk q
  some (v, a)

/-- `x_divrem`: quotient and remainder of the absolute values, for a divisor of two digits or more. -/
def xDivrem (v1 w1 : DeeInt) : Option (DeeInt × DeeInt) := do
  let sizeV := v1.absSize
  let sizeW := w1.absSize
  assert (sizeW ≤ sizeV ∧ 2 ≤ sizeW)
  let bits ← bitsInDigit (← rd w1.obDigit (sizeW - 1))
  let d := digitBits - bits
  let (carry, w0) ← vLshift (deeIntAlloc sizeW).obDigit w1.obDigit sizeW d
  assert (carry = 0)
  let (carry, v0) ← vLshift (deeIntAlloc (sizeV + 1)).obDigit v1.obDigit sizeV d
  let (sizeV, v0) ← (if carry ≠ 0 ∨ (← rd w0 (sizeW - 1)) ≤ (← rd v0 (sizeV - 1)) then do
      some (sizeV + 1, ← wr v0 sizeV carry)
    else some (sizeV, v0))
  let k := sizeV - sizeW
  assert (sizeW ≤ sizeV)
  let (v0, a) ← forDown (fun vk (v, a) => xDivremStep w0 sizeW vk v a) k (v0, (deeIntAlloc k).obDigit)
  let (carry, w0) ← vRshift w0 v0 sizeW d
  assert (carry = 0)
  let rem ← intNormalize ⟨sizeW, w0⟩
  some (← intNormalize ⟨k, a⟩, rem)

theorem mulSubLoop_ends {q vk n : ℕ} {w0 v : List ℕ} (hq : q ≤ digitBase) (hw : Below digitBase w0 0 n)
    (hwlen : n ≤ w0.length) (hv : Below digitBase v vk n) (hvlen : vk + n ≤ v.length) :
    Ends (mulSubLoop q w0 vk n v) fun r => SameOut v r.2 vk n ∧ Below digitBase r.2 vk n ∧
      (seg digitBase r.2 vk n : ℤ) + r.1 * digitBase ^ n = seg digitBase v vk n - q * seg digitBase w0 0 n := by
  unfold mulSubLoop
  refine (forLoop_ends_zero (fun i (r : ℤ × List ℕ) => (-q ≤ r.1 ∧ r.1 ≤ 0) ∧ SameOut v r.2 vk i ∧
    Below digitBase r.2 vk i ∧ (seg digitBase r.2 vk i : ℤ) + r.1 * digitBase ^ i =
      seg digitBase v vk i - q * seg digitBase w0 0 i) ?_ ?_).mono fun r hr => hr.2
  · exact ⟨by simp, SameOut.refl, fun i hi => by omega, by simp⟩
  rintro i ⟨zhi, r⟩ hi ⟨⟨hlo, hhi⟩, hout, hbelow, hval⟩
  dsimp only at hlo hhi hout hbelow hval ⊢
  have hlen := hout.length
  have hcell : cell r (vk + i) = cell v (vk + i) := hout.out _ (by omega)
  have hvi := hv i hi
  have hwi := hw i hi
  rw [Nat.zero_add] at hwi
  -- `-q ≤ zhi ≤ 0` goes on to the next digit because `-q * B ≤ z < B`
  have hmul : q * cell w0 i ≤ q * digitMask := Nat.mul_le_mul_left _ (by unfold digitBase digitMask at *; omega)
  have hprod : q * cell w0 i + q ≤ q * digitBase := by
    have : q * digitMask + q = q * digitBase := by unfold digitMask digitBase; ring
    omega
  have hqB : q * digitBase ≤ digitBase * digitBase := Nat.mul_le_mul_right _ hq
  have hprod' : ((q * cell w0 i : ℕ) : ℤ) = q * cell w0 i := by push_cast; rfl
  rw [rd_of_lt (by omega), some_bind, hcell, sfits_of (by unfold digitBase at *; omega), some_bind,
    rd_of_lt (by omega), some_bind, ← hprod', sfits_of (by unfold digitBase at *; omega), some_bind,
    sfits_of (by unfold digitBase at *; omega), some_bind, wr_of_lt (by omega), some_bind,
    Int.shiftRight_eq_div_pow]
  generalize hz : (cell v (vk + i) : ℤ) + zhi - ((q * cell w0 i : ℕ) : ℤ) = z
  have hzlo : -(q * digitBase : ℕ) ≤ z := by omega
  have hzhi : z < digitBase := by omega
  have hstore : (z % 2 ^ 32).toNat &&& digitMask = (z % digitBase).toNat := by
    rw [and_digitMask]
    unfold digitBase
    omega
  have hdm : z / 2 ^ digitBits * digitBase + (z % digitBase).toNat = z := by
    unfold digitBits digitBase
    omega
  have hdlo : -(q : ℤ) ≤ z / 2 ^ digitBits := by
    unfold digitBits digitBase at *
    omega
  have hdhi : z / 2 ^ digitBits ≤ 0 := by
    unfold digitBits digitBase at *
    omega
  rw [hstore, sfits_of (by unfold digitBase at hq; push_cast at *; omega), some_bind]
  refine Ends.pure ⟨⟨hdlo, hdhi⟩, (hout.mono le_rfl (by omega)).trans (SameOut.set.mono (by omega) (by omega)),
    ?_, ?_⟩
  · have hlt : (z % digitBase).toNat < digitBase := by
      unfold digitBase
      omega
    exact (hbelow.set hlt).succ (by rwa [cell_set_self (by omega)])
  · rw [seg_set_last (by omega), seg_succ, seg_succ, Nat.zero_add]
    push_cast at hz ⊢
    linear_combination hval - (digitBase : ℤ) ^ i * hz + (digitBase : ℤ) ^ i * hdm

theorem addBackLoop_ends {vk n : ℕ} {w0 v : List ℕ} (hw : Below digitBase w0 0 n) (hwlen : n ≤ w0.length)
    (hv : Below digitBase v vk n) (hvlen : vk + n ≤ v.length) :
    Ends (addBackLoop w0 vk n v) fun r => InPlace v vk n r ∧
      seg digitBase r.2 vk n + r.1 * digitBase ^ n = seg digitBase v vk n + seg digitBase w0 0 n := by
  unfold addBackLoop
  refine (forLoop_ends_zero (fun i (r : ℕ × List ℕ) => r.1 ≤ 1 ∧ SameOut v r.2 vk i ∧
    Carried v.length vk i (seg digitBase v vk i + seg digitBase w0 0 i) r) ?_ ?_).mono
    fun r ⟨hr, hout, hrow⟩ => ⟨⟨hr, hout, hrow.below⟩, hrow.value⟩
  · exact ⟨by simp, SameOut.refl, by simpa using Carried.zero⟩
  rintro i ⟨c, r⟩ hi ⟨hc, hout, hrow⟩
  dsimp only at hc hout ⊢
  have hlen := hout.length
  have hcell : cell r (vk + i) = cell v (vk + i) := hout.out _ (by omega)
  have hvi := hv i hi
  have hwi := hw i hi
  rw [Nat.zero_add] at hwi
  rw [rd_of_lt (by omega), some_bind, rd_of_lt (by omega), some_bind, hcell,
    fits_of_lt (by unfold digitBase at *; omega), some_bind]
  refine (addRound_ends (w := 32) hrow (by omega) (by unfold digitBase at *; omega)).mono
    fun r' ⟨hrow', hc', hout'⟩ => ⟨by unfold digitBase at *; omega, ?_, ?_⟩
  · exact (hout.mono le_rfl (by omega)).trans (hout'.mono (by omega) (by omega))
  · rw [seg_succ, seg_succ, Nat.zero_add]
    convert hrow' using 1
    ring

/-- The guess ends between the quotient `Q` and one more. -/
theorem trialQuotient_ends {wm1 wm2 v2 vv Q : ℕ} (hwm1 : 0 < wm1) (hwm1lt : wm1 < digitBase)
    (hwm2 : wm2 < digitBase) (hv2 : v2 < digitBase) (hQ : Q ≤ vv / wm1) (hstart : vv / wm1 ≤ digitBase + 1)
    (hfirst : digitBase < vv / wm1 → vv * digitBase + v2 < vv / wm1 * (wm1 * digitBase + wm2))
    (htest : ∀ q, vv * digitBase + v2 < q * (wm1 * digitBase + wm2) → Q < q) :
    Ends (trialQuotient wm1 wm2 v2 (vv / wm1) (vv % wm1)) fun q => Q ≤ q ∧ q ≤ digitBase ∧
      q * (wm1 * digitBase + wm2) ≤ vv * digitBase + v2 := by
  unfold trialQuotient
  refine loop_ends (fun s => s.1 * wm1 + s.2 = vv ∧ s.2 < digitBase ∧ Q ≤ s.1 ∧ s.1 ≤ digitBase + 1 ∧
    (digitBase < s.1 → vv * digitBase + v2 < s.1 * (wm1 * digitBase + wm2))) (fun s => s.1)
    ⟨Nat.div_add_mod' vv wm1, lt_trans (Nat.mod_lt _ hwm1) hwm1lt, hQ, hstart, hfirst⟩ (by simp) ?_
  rintro ⟨q, r⟩ ⟨hvv, hr, hQq, hqB, hbig⟩
  dsimp only at hvv hr hQq hqB hbig ⊢
  have hprod : wm2 * q ≤ digitMask * (digitBase + 1) :=
    Nat.mul_le_mul (by unfold digitBase at hwm2; unfold digitMask; omega) hqB
  rw [fits_of_lt (by unfold digitBase digitMask at *; omega), some_bind, shiftLeft_or (d := digitBits) hv2]
  -- the test compares the top three digits with those of `q * w`
  have hiff : r * 2 ^ digitBits + v2 < wm2 * q ↔ vv * digitBase + v2 < q * (wm1 * digitBase + wm2) := by
    have : q * (wm1 * digitBase + wm2) = q * wm1 * digitBase + wm2 * q := by ring
    rw [this, ← hvv, Nat.add_mul]
    unfold digitBits digitBase
    omega
  split_ifs with hlt
  · have hlt' := htest q (hiff.mp hlt)
    obtain ⟨p, rfl⟩ : ∃ p, q = p + 1 := ⟨q - 1, by omega⟩
    rw [fits_of_lt (by unfold digitBase at *; omega), some_bind, Nat.add_sub_cancel]
    have hvv' : p * wm1 + (r + wm1) = vv := by rw [← hvv]; ring
    refine Ends.pure ?_
    split_ifs with hge
    · refine ⟨by omega, by omega, ?_⟩
      have hpw : p * wm2 ≤ digitBase * digitBase := Nat.mul_le_mul (by omega) hwm2.le
      have hrB : digitBase * digitBase ≤ (r + wm1) * digitBase := Nat.mul_le_mul_right _ hge
      rw [← hvv', Nat.mul_add, Nat.add_mul, ← Nat.mul_assoc]
      omega
    · exact ⟨⟨hvv', by omega, by omega, by omega, fun h => absurd h (by omega)⟩, by simp⟩
  · have hpass : ¬vv * digitBase + v2 < q * (wm1 * digitBase + wm2) := fun h => hlt (hiff.mpr h)
    exact Ends.pure ⟨hQq, not_lt.mp fun h => hpass (hbig h), by omega⟩

theorem seg_top_two {l : List ℕ} {s m : ℕ} :
    seg digitBase l s (m + 2) =
      (cell l (s + m + 1) * digitBase + cell l (s + m)) * digitBase ^ m + seg digitBase l s m := by
  rw [seg_succ, seg_succ, ← Nat.add_assoc, pow_succ]
  ring

/-- One digit of the quotient: `V`, the digits of `v` from `vk` on, is divided by `W`, the digits of `w0`. -/
theorem xDivremStep_ends {w0 v a : List ℕ} {m vk : ℕ} (hw : Below digitBase w0 0 (m + 2))
    (hwlen : m + 2 ≤ w0.length) (hnorm : digitBase ≤ 2 * cell w0 (m + 1)) (hv : Below digitBase v vk (m + 3))
    (hvlen : vk + (m + 3) ≤ v.length) (halen : vk < a.length)
    (hlt : seg digitBase v (vk + 1) (m + 2) < seg digitBase w0 0 (m + 2)) :
    Ends (xDivremStep w0 (m + 2) vk v a) fun r => SameOut v r.1 vk (m + 2) ∧ Below digitBase r.1 vk (m + 2) ∧
      SameOut a r.2 vk 1 ∧ cell r.2 vk < digitBase ∧
      seg digitBase r.1 vk (m + 2) < seg digitBase w0 0 (m + 2) ∧
      seg digitBase v vk (m + 3) =
        cell r.2 vk * seg digitBase w0 0 (m + 2) + seg digitBase r.1 vk (m + 2) := by
  have hwm1 := hw (m + 1) (by omega)
  have hwm2 := hw m (by omega)
  have hvtop := hv (m + 2) (by omega)
  have hv1 := hv (m + 1) (by omega)
  have hv2 := hv m (by omega)
  rw [Nat.zero_add] at hwm1 hwm2
  have hP : 0 < digitBase ^ m := Nat.pow_pos digitBase_pos
  have hwlow : seg digitBase w0 0 m < digitBase ^ m := seg_lt (hw.mono (by omega))
  have hvlow : seg digitBase v vk m < digitBase ^ m := seg_lt (hv.mono (by omega))
  have hWval := seg_top_two (l := w0) (s := 0) (m := m)
  rw [Nat.zero_add] at hWval
  have hVtop := seg_top_two (l := v) (s := vk + 1) (m := m)
  have hVlow := seg_top_two (l := v) (s := vk) (m := m)
  have hVval : seg digitBase v vk (m + 3) =
      ((cell v (vk + m + 2) * digitBase + cell v (vk + m + 1)) * digitBase + cell v (vk + m)) * digitBase ^ m +
        seg digitBase v vk m := by
    rw [seg_succ, hVlow, ← Nat.add_assoc, pow_succ, pow_succ]
    ring
  have hVfront := seg_succ_front (B := digitBase) (l := v) (s := vk) (n := m + 2)
  rw [show vk + 1 + m + 1 = vk + m + 2 by omega, show vk + 1 + m = vk + m + 1 by omega] at hVtop
  rw [← Nat.add_assoc] at hvtop hv1
  rw [hWval, hVtop] at hlt
  have htop := Knuth.top_le hwlow hlt
  rw [← hWval, ← hVtop] at hlt
  have hV0 := hv 0 (by omega)
  have hVlt : seg digitBase v vk (m + 3) < seg digitBase w0 0 (m + 2) * digitBase := by
    rw [hVfront]
    have : (seg digitBase v (vk + 1) (m + 2) + 1) * digitBase ≤ seg digitBase w0 0 (m + 2) * digitBase :=
      Nat.mul_le_mul_right _ hlt
    rw [Nat.add_zero] at hV0
    linarith
  have hWB : digitBase * digitBase ^ m ≤ seg digitBase w0 0 (m + 2) := by
    have hpos : 0 < cell w0 (m + 1) := by
      unfold digitBase at hnorm
      omega
    have hle : digitBase ≤ cell w0 (m + 1) * digitBase + cell w0 m :=
      le_trans (Nat.le_mul_of_pos_left digitBase hpos) (Nat.le_add_right _ _)
    rw [hWval]
    exact le_trans (Nat.mul_le_mul_right (digitBase ^ m) hle) (Nat.le_add_right _ _)
  have hWpos : 0 < seg digitBase w0 0 (m + 2) := lt_of_lt_of_le (Nat.mul_pos digitBase_pos hP) hWB
  have hWlt := seg_lt hw
  unfold xDivremStep
  rw [show m + 2 - 1 = m + 1 by omega, show m + 2 - 2 = m by omega, show vk + (m + 2) - 1 = vk + m + 1 by omega,
    show vk + (m + 2) - 2 = vk + m by omega, ← Nat.add_assoc vk m 2]
  generalize hw1 : cell w0 (m + 1) = w₁ at *
  generalize hw2 : cell w0 m = w₂ at *
  generalize hx0 : cell v (vk + m + 2) = x₀ at *
  generalize hx1 : cell v (vk + m + 1) = x₁ at *
  generalize hx2 : cell v (vk + m) = x₂ at *
  generalize hW : seg digitBase w0 0 (m + 2) = W at *
  generalize hV : seg digitBase v vk (m + 3) = V at *
  have hw₁pos : 0 < w₁ := by
    unfold digitBase at hnorm
    omega
  have hvtop' : x₀ ≤ w₁ := by
    unfold digitBase at *
    omega
  have hQB : V / W < digitBase := (Nat.div_lt_iff_lt_mul hWpos).mpr (by rwa [Nat.mul_comm])
  rw [rd_of_lt (by omega), some_bind, rd_of_lt (by omega), some_bind, rd_of_lt (by omega), some_bind, hw1, hw2, hx0,
    assert_of hvtop', some_bind, rd_of_lt (by omega), some_bind, hx1, shiftLeft_or (d := digitBits) hv1]
  change Ends (fits 64 (x₀ * digitBase + x₁) >>= _) _
  have hq0 := Knuth.first_guess_le hnorm hw₁pos hwm2 htop
  have hrem : x₀ * digitBase + x₁ - w₁ * ((x₀ * digitBase + x₁) / w₁) = (x₀ * digitBase + x₁) % w₁ := by
    have := Nat.div_add_mod (x₀ * digitBase + x₁) w₁
    omega
  have hremlt := Nat.mod_lt (x₀ * digitBase + x₁) hw₁pos
  rw [fits_of_lt (by unfold digitBase at *; omega), some_bind, fits_of_lt (by unfold digitBase at *; omega),
    some_bind, hrem, fits_of_lt (by unfold digitBase at *; omega), some_bind, rd_of_lt (by omega), some_bind, hx2]
  have hQ : V / W ≤ (x₀ * digitBase + x₁) / w₁ :=
    (Nat.le_div_iff_mul_le hw₁pos).mpr (Knuth.quot_mul_le hP digitBase_pos hv2 hVval hvlow hWval)
  have htrial := trialQuotient_ends hw₁pos hwm1 hwm2 hv2 hQ hq0 (Knuth.first_guess_test hw₁pos hv2 htop)
    fun q => Knuth.quot_lt_of_test hVval hvlow hWval hWpos
  refine Ends.bind htrial fun q ⟨hQq, hqB, hpass⟩ => ?_
  have hqQ := Knuth.le_quot_succ hVval hWval hwlow hqB hWB hWpos hpass
  rw [assert_of hqB, some_bind]
  have hslice : Below digitBase v vk (m + 2) := hv.mono (by omega)
  refine Ends.bind (mulSubLoop_ends hqB hw hwlen hslice (by omega)) ?_
  rintro ⟨zhi, r⟩ ⟨hout, hbelow, hval⟩
  dsimp only at hout hbelow hval ⊢
  have hrlen := hout.length
  have hrlt := seg_lt hbelow
  rw [hW] at hval
  -- what the subtraction leaves, with the top digit: `V - q * W`
  have hVsplit : (V : ℤ) = seg digitBase v vk (m + 2) + x₀ * digitBase ^ (m + 2) := by
    rw [← hV, seg_succ, show vk + (m + 2) = vk + m + 2 by omega, hx0]
    push_cast
    rfl
  have hleft : (seg digitBase r vk (m + 2) : ℤ) + (x₀ + zhi) * digitBase ^ (m + 2) = V - q * W := by
    linear_combination hval - hVsplit
  have hdm := Nat.div_add_mod' V W
  have hmod := Nat.mod_lt V hWpos
  clear htrial hQ
  generalize V / W = Q at *
  generalize V % W = R at *
  rcases Nat.eq_or_lt_of_le hQq with hqeq | hqlt
  · -- the guess was right
    have hrest : (V : ℤ) - q * W = R := by
      rw [← hqeq]
      zify at hdm
      linarith
    rw [hrest] at hleft
    have htop0 := top_eq_zero (by positivity) (by exact_mod_cast hrlt) (by positivity)
      (by exact_mod_cast lt_trans hmod hWlt) hleft
    rw [htop0, zero_mul, add_zero, Nat.cast_inj] at hleft
    rw [assert_of (Or.inr htop0), some_bind, if_neg (by omega), some_bind, assert_of (by omega), some_bind,
      wr_of_lt halen, some_bind]
    refine Ends.pure ⟨hout, hbelow, SameOut.set, ?_, ?_, ?_⟩
    · rw [cell_set_self halen]
      omega
    · rw [hleft]
      exact hmod
    · rw [cell_set_self halen, hleft, ← hqeq, hdm]
  · -- it was one too big: the divisor is added back
    have hqeq : q = Q + 1 := by omega
    have hrest : (V : ℤ) - q * W = R - W := by
      rw [hqeq]
      zify at hdm
      push_cast
      linarith
    rw [hrest] at hleft
    have hWlt' : (W : ℤ) < (digitBase : ℤ) ^ (m + 2) := by exact_mod_cast hWlt
    have hmod' : (R : ℤ) < W := by exact_mod_cast hmod
    have htop1 : (x₀ : ℤ) + zhi = -1 := by
      have := top_eq_zero (x := seg digitBase r vk (m + 2)) (t := x₀ + zhi + 1) (N := (digitBase : ℤ) ^ (m + 2))
        (y := (R : ℤ) - W + digitBase ^ (m + 2)) (by positivity) (by exact_mod_cast hrlt)
        (by linarith [Int.natCast_nonneg R]) (by linarith)
        (by linear_combination hleft)
      linarith
    rw [assert_of (Or.inl htop1), some_bind, if_pos (by omega)]
    refine Ends.bind (P := fun t => t.1 = Q ∧ SameOut v t.2 vk (m + 2) ∧ Below digitBase t.2 vk (m + 2) ∧
      seg digitBase t.2 vk (m + 2) = R) ?_ ?_
    · refine Ends.bind (addBackLoop_ends hw hwlen hbelow (by omega)) ?_
      rintro ⟨c, t⟩ ⟨⟨hc, hout', hbelow'⟩, hval'⟩
      dsimp only at hc hout' hbelow' hval' ⊢
      have htlt := seg_lt hbelow'
      refine Ends.pure ⟨by rw [hqeq, Nat.add_sub_cancel], hout.trans hout', hbelow', ?_⟩
      rw [hW] at hval'
      rw [htop1] at hleft
      have hval'' : (seg digitBase t vk (m + 2) : ℤ) + c * (digitBase : ℤ) ^ (m + 2) =
          seg digitBase r vk (m + 2) + W := by exact_mod_cast hval'
      have hc1 := top_eq_zero (x := seg digitBase t vk (m + 2)) (t := c - 1) (N := (digitBase : ℤ) ^ (m + 2))
        (y := (R : ℤ)) (by positivity) (by exact_mod_cast htlt) (by positivity) (by linarith)
        (by linear_combination hval'' + hleft)
      zify
      linear_combination hval'' + hleft - (digitBase : ℤ) ^ (m + 2) * hc1
    rintro ⟨q', t⟩ ⟨hq', hout', hbelow', hval'⟩
    dsimp only at hq' hout' hbelow' hval' ⊢
    rw [assert_of (by omega), some_bind, wr_of_lt halen, some_bind]
    refine Ends.pure ⟨hout', hbelow', SameOut.set, ?_, ?_, ?_⟩
    · rw [cell_set_self halen]
      omega
    · rw [hval']
      exact hmod
    · rw [cell_set_self halen, hval', hq', hdm]

/-- The normalisation of `x_divrem`: the shift that moves the top bit of the divisor into the top of its digit. -/
theorem normalShift {w : DeeInt} {m bits : ℕ} (hw : w.Canonical) (hsize : w.absSize = m + 2) (hbits : 0 < bits)
    (hlow : 2 ^ (bits - 1) ≤ cell w.obDigit (m + 1)) (hhigh : cell w.obDigit (m + 1) < 2 ^ bits) :
    bits ≤ digitBits ∧ w.mag * 2 ^ (digitBits - bits) < digitBase ^ (m + 2) ∧
      2 ^ 29 * digitBase ^ (m + 1) ≤ w.mag * 2 ^ (digitBits - bits) := by
  have htop := hw.toWF.cell_lt (i := m + 1) (by omega)
  have hle : bits ≤ digitBits := by
    by_contra hlt
    have := Nat.pow_le_pow_right (show 0 < 2 by norm_num) (show 30 ≤ bits - 1 by unfold digitBits at hlt; omega)
    unfold digitBase at htop
    omega
  have hmag : w.mag = seg digitBase w.obDigit 0 (m + 1) + cell w.obDigit (m + 1) * digitBase ^ (m + 1) := by
    rw [mag, hsize, seg_succ, Nat.zero_add]
  have hrest := seg_lt (hw.below.mono (show m + 1 ≤ w.absSize by omega))
  refine ⟨hle, ?_, ?_⟩
  · have h1 : w.mag < 2 ^ bits * digitBase ^ (m + 1) := by
      have : (cell w.obDigit (m + 1) + 1) * digitBase ^ (m + 1) ≤ 2 ^ bits * digitBase ^ (m + 1) :=
        Nat.mul_le_mul_right _ hhigh
      rw [Nat.add_mul] at this
      omega
    calc w.mag * 2 ^ (digitBits - bits) < 2 ^ bits * digitBase ^ (m + 1) * 2 ^ (digitBits - bits) :=
          Nat.mul_lt_mul_of_pos_right h1 (Nat.pow_pos (by norm_num))
      _ = 2 ^ (bits + (digitBits - bits)) * digitBase ^ (m + 1) := by rw [pow_add]; ring
      _ = digitBase ^ (m + 2) := by rw [Nat.add_sub_cancel' hle, pow_succ digitBase (m + 1)]; ring
  · have h1 : 2 ^ (bits - 1) * digitBase ^ (m + 1) ≤ w.mag := by
      have := Nat.mul_le_mul_right (digitBase ^ (m + 1)) hlow
      omega
    calc 2 ^ 29 * digitBase ^ (m + 1) = 2 ^ (bits - 1 + (digitBits - bits)) * digitBase ^ (m + 1) := by
          rw [show bits - 1 + (digitBits - bits) = 29 by unfold digitBits at *; omega]
      _ = 2 ^ (bits - 1) * digitBase ^ (m + 1) * 2 ^ (digitBits - bits) := by rw [pow_add]; ring
      _ ≤ w.mag * 2 ^ (digitBits - bits) := Nat.mul_le_mul_right _ h1

/-- The rounds of `x_divrem` from digit `k` on: the quotient so far, and the rest of the dividend. -/
structure DivRows (w0 : List ℕ) (n len K total k : ℕ) (s : List ℕ × List ℕ) : Prop where
  vlen : s.1.length = len
  vbelow : Below digitBase s.1 0 (k + n)
  alen : s.2.length = K
  abelow : Below digitBase s.2 k (K - k)
  rem_lt : seg digitBase s.1 k n < seg digitBase w0 0 n
  value : total = digitBase ^ k * seg digitBase s.2 k (K - k) * seg digitBase w0 0 n + seg digitBase s.1 0 (k + n)

theorem DivRows.step {w0 : List ℕ} {m len K total k : ℕ} {s : List ℕ × List ℕ} (hw : Below digitBase w0 0 (m + 2))
    (hwlen : m + 2 ≤ w0.length) (hnorm : digitBase ≤ 2 * cell w0 (m + 1)) (hk : k < K) (hlen : K + (m + 2) ≤ len)
    (h : DivRows w0 (m + 2) len K total (k + 1) s) :
    Ends (xDivremStep w0 (m + 2) k s.1 s.2) (DivRows w0 (m + 2) len K total k) := by
  obtain ⟨hvlen, hvbelow, halen, habelow, hrem, hval⟩ := h
  have hslice : Below digitBase s.1 k (m + 3) := fun i hi => by
    have := hvbelow (k + i) (by omega)
    rwa [Nat.zero_add] at this
  refine (xDivremStep_ends hw hwlen hnorm hslice (by omega) (by omega) hrem).mono ?_
  rintro ⟨v, a⟩ ⟨hvout, hvb, haout, hq, hlt, hdiv⟩
  dsimp only at hvout hvb haout hq hlt hdiv ⊢
  have hlow : seg digitBase v 0 k = seg digitBase s.1 0 k := seg_congr fun i hi => hvout.out _ (by omega)
  have hrest : seg digitBase a (k + 1) (K - (k + 1)) = seg digitBase s.2 (k + 1) (K - (k + 1)) :=
    seg_congr fun i hi => haout.out _ (by omega)
  refine ⟨hvout.length.trans hvlen, ?_, haout.length.trans halen, ?_, hlt, ?_⟩
  · exact (hvbelow.mono (by omega)).sameOut hvout hvb
  · intro i hi
    rcases Nat.eq_zero_or_pos i with rfl | hpos
    · exact hq
    · rw [haout.out _ (by omega), show k + i = k + 1 + (i - 1) by omega]
      exact habelow (i - 1) (by omega)
  · have hvsplit := seg_add (B := digitBase) (l := v) (s := 0) (m := k) (n := m + 2)
    have hssplit := seg_add (B := digitBase) (l := s.1) (s := 0) (m := k) (n := m + 3)
    rw [Nat.zero_add, hlow] at hvsplit
    rw [Nat.zero_add, hdiv, show k + (m + 3) = k + 1 + (m + 2) by omega] at hssplit
    dsimp only
    rw [show K - k = K - (k + 1) + 1 by omega, seg_succ_front, hrest, hvsplit, hval, hssplit]
    ring

/-- The remainder of the shifted numbers, shifted back, loses no bits. -/
theorem exact_division {v w A S R c P : ℕ} (hP : 0 < P) (hS : R * P + c = S) (hlt : S < w * P) (hc : c < P)
    (htotal : v * P = A * (w * P) + S) : (R + w * A = v ∧ R < w) ∧ c = 0 := by
  have hsum : v * P = (A * w + R) * P + c := by
    rw [htotal, ← hS]
    ring
  have hc0 : c = 0 := by
    have hmod : (v * P) % P = ((A * w + R) * P + c) % P := by rw [hsum]
    rwa [Nat.mul_mod_left, Nat.add_comm, Nat.add_mul_mod_self_right, Nat.mod_eq_of_lt hc, eq_comm] at hmod
  subst hc0
  refine ⟨⟨?_, ?_⟩, rfl⟩
  · have := Nat.eq_of_mul_eq_mul_right hP hsum
    rw [this]
    ring
  · exact Nat.lt_of_mul_lt_mul_right (lt_of_eq_of_lt hS hlt)

theorem xDivrem_ends {v1 w1 : DeeInt} (hv : v1.WF) (hw : w1.Canonical) (hsize : w1.absSize ≤ v1.absSize)
    (htwo : 2 ≤ w1.absSize) :
    Ends (xDivrem v1 w1) fun r => IsNat r.1 (v1.mag / w1.mag) ∧ IsNat r.2 (v1.mag % w1.mag) := by
  obtain ⟨m, hm⟩ : ∃ m, w1.absSize = m + 2 := ⟨w1.absSize - 2, by omega⟩
  have htop := hw.top (by omega)
  unfold xDivrem
  dsimp only
  rw [assert_of ⟨hsize, htwo⟩, some_bind, hm, show m + 2 - 1 = m + 1 by omega,
    rd_of_lt (hw.toWF.lt_length (by omega)), some_bind]
  rw [hm, show m + 2 - 1 = m + 1 by omega] at htop
  refine Ends.bind (bitsInDigit_ends (by omega)) ?_
  rintro bits ⟨hbits, hblow, hbhigh⟩
  obtain ⟨hle, hWlt, hWge⟩ := normalShift hw hm hbits hblow hbhigh
  have hd : digitBits - bits < digitBits := by omega
  generalize digitBits - bits = d at hd hWlt hWge ⊢
  have hd29 : 2 ^ d ≤ 2 ^ 29 := Nat.pow_le_pow_right (by norm_num) (by unfold digitBits at hd; omega)
  have hwbelow : Below digitBase w1.obDigit 0 (m + 2) := hm ▸ hw.below
  have hwlen := hw.len
  have hvlen := hv.len
  -- the shifted divisor
  refine Ends.bind (vLshift_ends hwbelow (by omega) (by simp) hd) ?_
  rintro ⟨c, w0⟩ ⟨hc, hwout, hw0len, hw0below, hw0val⟩
  dsimp only at hc hwout hw0len hw0below hw0val ⊢
  rw [deeIntAlloc_obDigit_length] at hw0len
  have hwmag : seg digitBase w1.obDigit 0 (m + 2) = w1.mag := by rw [mag, hm]
  rw [hwmag] at hw0val
  have hc0 : c = 0 := by
    by_contra hne
    have : 1 * digitBase ^ (m + 2) ≤ c * digitBase ^ (m + 2) := Nat.mul_le_mul_right _ (by omega)
    omega
  rw [assert_of hc0, some_bind]
  rw [hc0, Nat.zero_mul, Nat.add_zero] at hw0val
  have hnorm29 : 2 ^ 29 ≤ cell w0 (m + 1) := by
    by_contra hlt
    have h1 := seg_lt (hw0below.mono (show m + 1 ≤ m + 2 by omega))
    have h2 : (cell w0 (m + 1) + 1) * digitBase ^ (m + 1) ≤ 2 ^ 29 * digitBase ^ (m + 1) :=
      Nat.mul_le_mul_right _ (by omega)
    rw [seg_succ, Nat.zero_add] at hw0val
    rw [Nat.add_mul] at h2
    omega
  have hnorm : digitBase ≤ 2 * cell w0 (m + 1) := by unfold digitBase; omega
  -- the shifted dividend
  refine Ends.bind (vLshift_ends hv.below hv.len (by simp) hd) ?_
  rintro ⟨c', v0⟩ ⟨hc', hvout, hv0len, hv0below, hv0val⟩
  dsimp only at hc' hvout hv0len hv0below hv0val ⊢
  rw [deeIntAlloc_obDigit_length] at hv0len
  rw [rd_of_lt (by omega), some_bind, rd_of_lt (by omega), some_bind]
  refine Ends.bind (P := fun s => m + 2 ≤ s.1 ∧ s.1 ≤ v1.absSize + 1 ∧ s.2.length = v1.absSize + 1 ∧
    Below digitBase s.2 0 s.1 ∧ seg digitBase s.2 0 s.1 = v1.mag * 2 ^ d ∧
    seg digitBase s.2 (s.1 - (m + 2)) (m + 2) < seg digitBase w0 0 (m + 2)) ?_ ?_
  · split_ifs with hcond
    · rw [wr_of_lt (by omega), some_bind]
      have hset := seg_set_last (B := digitBase) (l := v0) (s := 0) (n := v1.absSize) (v := c') (by omega)
      rw [Nat.zero_add] at hset
      have hb : Below digitBase (v0.set v1.absSize c') 0 (v1.absSize + 1) := by
        refine (hv0below.set (by unfold digitBase; omega)).succ ?_
        rw [Nat.zero_add, cell_set_self (by omega)]
        unfold digitBase
        omega
      refine Ends.pure ⟨by dsimp only; omega, le_rfl, by simpa using hv0len, hb, hset.trans hv0val, ?_⟩
      refine seg_lt_of_top_lt (fun i hi => ?_) ?_
      · have := hb (v1.absSize + 1 - (m + 2) + i) (by omega)
        rwa [Nat.zero_add] at this
      · dsimp only
        rw [show v1.absSize + 1 - (m + 2) + (m + 1) = v1.absSize by omega, cell_set_self (by omega)]
        omega
    · obtain ⟨hcz, htoplt⟩ := not_or.mp hcond
      rw [not_not] at hcz
      rw [hcz, Nat.zero_mul, Nat.add_zero] at hv0val
      refine Ends.pure ⟨by dsimp only; omega, by simp, hv0len, hv0below, hv0val, ?_⟩
      refine seg_lt_of_top_lt (fun i hi => ?_) ?_
      · have := hv0below (v1.absSize - (m + 2) + i) (by omega)
        rwa [Nat.zero_add] at this
      · dsimp only
        rw [show v1.absSize - (m + 2) + (m + 1) = v1.absSize - 1 by omega]
        omega
  rintro ⟨sizeV, v⟩ ⟨hsv, hsv', hvl, hvb, hvval, hvtop⟩
  dsimp only at hsv hsv' hvl hvb hvval hvtop ⊢
  rw [assert_of hsv, some_bind]
  have hstart : DivRows w0 (m + 2) (v1.absSize + 1) (sizeV - (m + 2)) (v1.mag * 2 ^ d) (sizeV - (m + 2))
      (v, (deeIntAlloc (sizeV - (m + 2))).obDigit) := by
    refine ⟨hvl, ?_, by simp, fun i hi => by omega, hvtop, ?_⟩
    · rwa [Nat.sub_add_cancel hsv]
    · rw [Nat.sub_self, seg_zero, Nat.mul_zero, Nat.zero_mul, Nat.zero_add, Nat.sub_add_cancel hsv, hvval]
  refine Ends.bind (forDown_ends (DivRows w0 (m + 2) (v1.absSize + 1) (sizeV - (m + 2)) (v1.mag * 2 ^ d)) hstart
    fun k s hk hs => hs.step hw0below (by omega) hnorm hk (by omega)) ?_
  rintro ⟨v', a⟩ ⟨hvl', hvb', hal, hab, hrem, htotal⟩
  dsimp only at hvl' hvb' hal hab hrem htotal ⊢
  rw [Nat.zero_add] at hvb' htotal
  rw [Nat.sub_zero] at hab htotal
  rw [pow_zero, Nat.one_mul, hw0val] at htotal
  rw [hw0val] at hrem
  -- the remainder shifted back
  refine Ends.bind (vRshift_ends hvb' (by omega) (by omega) hd) ?_
  rintro ⟨c'', w'⟩ ⟨hc'', hwout', hwb', hwval'⟩
  dsimp only at hc'' hwout' hwb' hwval' ⊢
  have hpos : 0 < 2 ^ d := Nat.pow_pos (by norm_num)
  have hwpos := hw.mag_pos (by omega)
  obtain ⟨hquot, hzero⟩ := exact_division (v := v1.mag) hpos hwval' hrem hc'' htotal
  rw [assert_of hzero, some_bind]
  have hw'len : w'.length = m + 2 := by
    have := hwout'.length
    omega
  have hdiv := (Nat.div_mod_unique hwpos).mpr ⟨hquot.1, hquot.2⟩
  refine Ends.bind (intNormalize_pos hw'len.ge hwb') ?_
  rintro rem ⟨hrem', hremv⟩
  refine Ends.bind (intNormalize_pos hal.ge hab) ?_
  rintro quot ⟨hquot', hquotv⟩
  exact Ends.pure ⟨⟨hquot', by rw [hquotv, hdiv.1]⟩, ⟨hrem', by rw [hremv, hdiv.2]⟩⟩

/-! ### The operators -/

/-- `DeeInt_One`. -/
def deeIntOne : DeeInt := deeInt8bit 1

/-- `int_divrem`: the quotient is rounded towards zero. -/
def intDivrem (isShared : DeeInt → Bool) (a b : DeeInt) : Option (Except IntError (DeeInt × DeeInt)) :=
  if b.absSize = 0 then
    some (.error (.divideByZero a b))
  else do
    let smaller ← (if a.absSize < b.absSize then some true
      else if a.absSize = b.absSize then do
        some (decide ((← rd a.obDigit (a.absSize - 1)) < (← rd b.obDigit (b.absSize - 1))))
      else some false)
    if smaller then
      some (.ok (deeIntNewZero, a))
    else do
      let (z, rem) ← (if b.absSize = 1 then do
          let (z, rem) ← divrem1 a (← rd b.obDigit 0)
          some (z, ← deeIntNewUInt32 rem)
        else xDivrem a b)
      let z ← (if ¬(a.obSize < 0 ↔ b.obSize < 0) then intNegInherit (isShared z) z else some z)
      let rem ← (if a.obSize < 0 ∧ rem.obSize ≠ 0 then intNegInherit (isShared rem) rem else some rem)
      some (.ok (z, rem))

/-- The cells that `p_div` and `p_mod` point to. -/
structure DivOut where
  div : Option DeeInt
  mod : Option DeeInt
  deriving DecidableEq, Repr

/-- `int_divmod`: the status and the cells afterwards. `pDiv` and `pMod` say which of the pointers are given. -/
def intDivmod (isShared : DeeInt → Bool) (pDiv pMod : Bool) (v w : DeeInt) (out : DivOut) :
    Option (Except IntError Unit × DivOut) := do
  match ← intDivrem isShared v w with
  | .error e => some (.error e, out)
  | .ok (div, mod) =>
    let (div, mod) ← (if (mod.obSize < 0 ∧ 0 < w.obSize) ∨ (0 < mod.obSize ∧ w.obSize < 0) then do
        let mod ← intAdd mod w
        let div ← intSub div deeIntOne
        some (div, mod)
      else some (div, mod))
    some (.ok (), ⟨if pDiv then some div else out.div, if pMod then some mod else out.mod⟩)

theorem deeIntOne_canonical : deeIntOne.Canonical ∧ deeIntOne.toInt = 1 := by decide

/-- A quotient and remainder of `a` by `b`, with the sign of the remainder that of `s`. -/
structure Divides (a b s : ℤ) (q r : DeeInt) : Prop where
  quot : q.Canonical
  rem : r.Canonical
  value : a = q.toInt * b + r.toInt
  rem_lt : |r.toInt| < |b|
  sign : r.toInt = 0 ∨ (r.toInt < 0 ↔ s < 0)

theorem abs_toInt (x : DeeInt) : |x.toInt| = x.mag := by
  rw [Int.abs_eq_natAbs, natAbs_toInt]

/-- The signs that `int_divrem` gives to quotient and remainder of the absolute values. -/
theorem divides_of_mag {isShared : DeeInt → Bool} {a b z rem : DeeInt} (ha : a.Canonical)
    (hpos : 0 < b.mag) (hz : IsNat z (a.mag / b.mag)) (hrem : IsNat rem (a.mag % b.mag)) :
    Ends (do
      let z ← (if ¬(a.obSize < 0 ↔ b.obSize < 0) then intNegInherit (isShared z) z else some z)
      let rem ← (if a.obSize < 0 ∧ rem.obSize ≠ 0 then intNegInherit (isShared rem) rem else some rem)
      some (.ok (z, rem) : Except IntError (DeeInt × DeeInt))) fun res =>
    ∃ q r, res = .ok (q, r) ∧ Divides a.toInt b.toInt a.toInt q r := by
  have hdm : ((a.mag / b.mag : ℕ) : ℤ) * b.mag + (a.mag % b.mag : ℕ) = a.mag := by
    exact_mod_cast Nat.div_add_mod' a.mag b.mag
  have hlt : ((a.mag % b.mag : ℕ) : ℤ) < b.mag := by exact_mod_cast Nat.mod_lt a.mag hpos
  refine Ends.bind (P := fun q => q.Canonical ∧
    q.toInt = if (a.obSize < 0 ↔ b.obSize < 0) then ((a.mag / b.mag : ℕ) : ℤ) else -((a.mag / b.mag : ℕ) : ℤ))
    ?_ fun q ⟨hq, hqv⟩ => ?_
  · by_cases hsign : a.obSize < 0 ↔ b.obSize < 0
    · rw [if_neg (not_not.mpr hsign)]
      exact Ends.pure ⟨hz.toCanonical, by rw [if_pos hsign, hz.toInt_eq]⟩
    · rw [if_pos hsign]
      exact (intNegInherit_ends hz.toCanonical).mono fun q ⟨hq, hqv⟩ =>
        ⟨hq, by rw [if_neg hsign, hqv, hz.toInt_eq]⟩
  refine Ends.bind (P := fun r => r.Canonical ∧
    r.toInt = if a.obSize < 0 then -((a.mag % b.mag : ℕ) : ℤ) else (a.mag % b.mag : ℕ)) ?_ fun r ⟨hr, hrv⟩ => ?_
  · split_ifs with hcond hneg hneg
    · exact (intNegInherit_ends hrem.toCanonical).mono fun r ⟨hr, hrv⟩ => ⟨hr, by rw [hrv, hrem.toInt_eq]⟩
    · omega
    · have hzero : rem.toInt = 0 := toInt_of_absSize_zero (by unfold absSize; omega)
      rw [hrem.toInt_eq] at hzero
      exact Ends.pure ⟨hrem.toCanonical, by rw [hrem.toInt_eq, hzero, neg_zero]⟩
    · exact Ends.pure ⟨hrem.toCanonical, hrem.toInt_eq⟩
  refine Ends.pure ⟨q, r, rfl, hq, hr, ?_, ?_, ?_⟩
  · by_cases hna : a.obSize < 0 <;> by_cases hnb : b.obSize < 0
    all_goals simp only [hna, hnb, iff_true, iff_false, not_true, if_true, if_false] at hqv hrv
    · rw [hqv, hrv, toInt_of_neg hna, toInt_of_neg hnb]
      linarith
    · rw [hqv, hrv, toInt_of_neg hna, toInt_of_nonneg (x := b) (by omega)]
      linarith
    · rw [hqv, hrv, toInt_of_nonneg (x := a) (by omega), toInt_of_neg hnb]
      linarith
    · rw [hqv, hrv, toInt_of_nonneg (x := a) (by omega), toInt_of_nonneg (x := b) (by omega)]
      linarith
  · rw [abs_toInt b, hrv]
    split_ifs
    · rw [abs_neg, Nat.abs_cast]
      exact hlt
    · rw [Nat.abs_cast]
      exact hlt
  · rw [ha.toInt_neg_iff, hrv]
    split_ifs with hneg
    · rcases Nat.eq_zero_or_pos (a.mag % b.mag) with h0 | hp
      · exact Or.inl (by rw [h0]; rfl)
      · exact Or.inr ⟨fun _ => hneg, fun _ => by omega⟩
    · exact Or.inr ⟨fun h => by omega, fun h => absurd h hneg⟩

theorem intDivrem_ends {isShared : DeeInt → Bool} {a b : DeeInt} (ha : a.Canonical) (hb : b.Canonical)
    (hne : b.absSize ≠ 0) : Ends (intDivrem isShared a b) fun res =>
      ∃ q r, res = .ok (q, r) ∧ Divides a.toInt b.toInt a.toInt q r := by
  have hpos := hb.mag_pos (by omega)
  unfold intDivrem
  rw [if_neg hne]
  refine Ends.bind (P := fun smaller => if smaller = true then a.mag < b.mag else b.absSize ≤ a.absSize) ?_
    fun smaller hsmaller => ?_
  · split_ifs with hlt heq
    · refine Ends.pure ?_
      obtain ⟨n, hn⟩ : ∃ n, b.absSize = n + 1 := ⟨b.absSize - 1, by omega⟩
      have hpow := Nat.pow_le_pow_right digitBase_pos (show a.absSize ≤ n by omega)
      exact lt_of_lt_of_le ha.mag_lt (le_trans hpow (hb.le_mag hn))
    · rw [rd_of_lt (ha.lt_length (by omega)), some_bind, rd_of_lt (hb.lt_length (by omega)), some_bind]
      refine Ends.pure ?_
      by_cases hcell : cell a.obDigit (a.absSize - 1) < cell b.obDigit (b.absSize - 1)
      · obtain ⟨n, hn⟩ : ∃ n, b.absSize = n + 1 := ⟨b.absSize - 1, by omega⟩
        rw [decide_eq_true hcell, if_pos rfl, mag, mag, heq, hn]
        rw [heq, hn, Nat.add_sub_cancel] at hcell
        exact seg_lt_of_top_lt (ha.below.mono (by omega)) (by rwa [Nat.zero_add])
      · rw [decide_eq_false hcell, if_neg (by simp), heq]
    · exact Ends.pure (by simp; omega)
  cases smaller with
  | true =>
    refine Ends.pure ⟨deeIntNewZero, a, rfl, deeIntNewZero_canonical.1, ha, ?_, ?_, Or.inr Iff.rfl⟩
    · rw [deeIntNewZero_canonical.2, zero_mul, zero_add]
    · rw [abs_toInt, abs_toInt]
      exact_mod_cast (if_pos rfl).mp hsmaller
  | false =>
    refine Ends.bind (P := fun r => IsNat r.1 (a.mag / b.mag) ∧ IsNat r.2 (a.mag % b.mag)) ?_
      fun r hr => divides_of_mag ha hpos hr.1 hr.2
    by_cases hone : b.absSize = 1
    · have hbmag : b.mag = cell b.obDigit 0 := by rw [mag, hone, seg_one]
      have hb0 := hb.cell_lt (i := 0) (by omega)
      rw [if_pos hone, rd_of_lt (hb.lt_length (by omega)), some_bind]
      refine Ends.bind (divrem1_ends ha.toWF (by omega) (by unfold digitBase at hb0; unfold digitMask; omega)) ?_
      rintro ⟨z, rem⟩ ⟨hz, hrem⟩
      dsimp only at hz hrem ⊢
      refine Ends.bind (newUnsigned_ends rem) ?_
      rintro rem' ⟨hrem', hremv⟩
      rw [hbmag]
      exact Ends.pure ⟨hz, hrem', by rw [hremv, hrem]⟩
    · rw [if_neg hone]
      exact xDivrem_ends ha.toWF hb (by simpa using hsmaller) (by omega)

/-- `int_divmod` is floor division, and division by zero is an error that writes neither result. -/
theorem intDivmod_floor (isShared : DeeInt → Bool) (pDiv pMod : Bool) (a b : DeeInt) (out : DivOut)
    (ha : a.Canonical) (hb : b.Canonical) :
    (b.toInt ≠ 0 → Ends (intDivmod isShared pDiv pMod a b out) fun res =>
      ∃ div mod, res = (.ok (), ⟨if pDiv then some div else out.div, if pMod then some mod else out.mod⟩) ∧
        Divides a.toInt b.toInt b.toInt div mod) ∧
    (b.toInt = 0 → intDivmod isShared pDiv pMod a b out = some (.error (.divideByZero a b), out)) := by
  have hzero : b.toInt = 0 ↔ b.absSize = 0 := by
    rw [← hb.mag_eq_zero_iff, ← natAbs_toInt, Int.natAbs_eq_zero]
  refine ⟨fun hne => ?_, fun h0 => ?_⟩
  · unfold intDivmod
    refine Ends.bind (intDivrem_ends ha hb (by rwa [ne_eq, ← hzero])) ?_
    rintro - ⟨q, r, rfl, hq, hr, hval, hlt, hsign⟩
    dsimp only
    refine Ends.bind (P := fun s => Divides a.toInt b.toInt b.toInt s.1 s.2) ?_
      fun s hs => Ends.pure ⟨s.1, s.2, rfl, hs⟩
    have hrneg := hr.toInt_neg_iff
    have hbneg := hb.toInt_neg_iff
    have hrzero : r.toInt = 0 ↔ r.obSize = 0 := by
      rw [← Int.natAbs_eq_zero, natAbs_toInt, hr.mag_eq_zero_iff, absSize, Int.natAbs_eq_zero]
    have hbzero : b.toInt = 0 ↔ b.obSize = 0 := by rw [hzero, absSize, Int.natAbs_eq_zero]
    have hltb := abs_lt.mp hlt
    split_ifs with hcond
    · refine Ends.bind (intAdd_ends hr hb) ?_
      rintro m ⟨hm, hmv⟩
      refine Ends.bind (intSub_ends hq deeIntOne_canonical.1) ?_
      rintro d ⟨hd, hdv⟩
      refine Ends.pure ?_
      rw [deeIntOne_canonical.2] at hdv
      refine ⟨hd, hm, by dsimp only; rw [hdv, hmv, hval]; ring, ?_, ?_⟩
      · dsimp only
        rw [hmv]
        rcases hcond with h | h
        · rw [abs_of_pos (show 0 < b.toInt by omega)] at hltb ⊢
          exact abs_lt.mpr ⟨by omega, by omega⟩
        · rw [abs_of_neg (show b.toInt < 0 by omega)] at hltb ⊢
          exact abs_lt.mpr ⟨by omega, by omega⟩
      · dsimp only
        rw [hmv]
        rcases hcond with h | h
        · rw [abs_of_pos (show 0 < b.toInt by omega)] at hltb
          exact Or.inr ⟨fun h' => by omega, fun h' => by omega⟩
        · rw [abs_of_neg (show b.toInt < 0 by omega)] at hltb
          exact Or.inr ⟨fun h' => by omega, fun h' => by omega⟩
    · refine Ends.pure ⟨hq, hr, hval, hlt, ?_⟩
      dsimp only
      by_cases hr0 : r.toInt = 0
      · exact Or.inl hr0
      · exact Or.inr ⟨fun h => by omega, fun h => by omega⟩
  · unfold intDivmod intDivrem
    rw [if_pos (hzero.mp h0)]
    rfl

/-- A dividend of three digits for which the first guess, `2 ^ 30`, is not lowered enough and is added back. -/
theorem intDivmod_floor_addBack :
    Ends (intDivmod (fun _ => false) true true ⟨-3, [0, 0, 2 ^ 29]⟩ ⟨2, [2 ^ 30 - 1, 2 ^ 29]⟩ ⟨none, none⟩) fun res =>
      ∃ div mod, res = (.ok (), ⟨some div, some mod⟩) ∧
        Divides (toInt ⟨-3, [0, 0, 2 ^ 29]⟩) (toInt ⟨2, [2 ^ 30 - 1, 2 ^ 29]⟩) (toInt ⟨2, [2 ^ 30 - 1, 2 ^ 29]⟩)
          div mod :=
  (intDivmod_floor (fun _ => false) true true ⟨-3, [0, 0, 2 ^ 29]⟩ ⟨2, [2 ^ 30 - 1, 2 ^ 29]⟩ ⟨none, none⟩
    (by decide) (by decide)).1 (by decide)

end Deemon.Int
