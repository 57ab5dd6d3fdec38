import Mathlib.Algebra.Order.Ring.Abs
import Deemon.Int.AddSub

/-!
# Multiplication

`x_mul` (schoolbook, with its own branch for squares), `v_iadd` and `v_isub` on slices, Karatsuba multiplication
(`kmul_split`, `k_mul`), its lopsided variant `k_lopsided_mul`, and `int_mul`.

`k_mul` asks whether its operands are one object (`a == b`); the answer is the argument `same`. Its recursion is
on fuel, and `asize + bsize + 1` is always enough (`kMul_ends`).
-/

namespace Deemon.Int

open Deemon.Run Deemon.Radix DeeInt

/-! ### Schoolbook multiplication -/

/-- The inner loop of `x_mul`: `n` digits of `y` times `f` are added to `z` from `zo` on. -/
def mulAddLoop (bound f : ℕ) (y : List ℕ) (yo zo n carry : ℕ) (z : List ℕ) : Option (ℕ × List ℕ) :=
  forLoop (fun k (carry, z) => do
    let x ← fits 64 ((← rd z (zo + k)) + (← fits 64 ((← rd y (yo + k)) * f)))
    let (carry, z) ← addRound 64 z (zo + k) carry x
    assert (carry ≤ bound)
    some (carry, z)) 0 n (carry, z)

/-- `if (carry) *pz += (digit)(carry & DIGIT_MASK); ASSERT((carry >> DIGIT_BITS) == 0)`. -/
def addTop (z : List ℕ) (i carry : ℕ) : Option (List ℕ) := do
  let z ← (if carry = 0 then some z else do
    wr z i (← fits 32 ((← rd z i) + (carry &&& digitMask))))
  assert (carry >>> digitBits = 0)
  some z

/-- One row of `x_mul(a, b)` for two objects. -/
def mulRow (a b : DeeInt) (i : ℕ) (z : List ℕ) : Option (List ℕ) := do
  let f ← rd a.obDigit i
  let (carry, z) ← mulAddLoop digitMask f b.obDigit 0 i b.absSize 0 z
  addTop z (i + b.absSize) carry

/-- One row of `x_mul(a, a)`: the digits behind `a[i]` are taken twice. -/
def squareRow (a : DeeInt) (i : ℕ) (z : List ℕ) : Option (List ℕ) := do
  let f ← rd a.obDigit i
  let (carry, z) ← addRound 64 z (2 * i) 0 ((← rd z (2 * i)) + (← fits 64 (f * f)))
  assert (carry ≤ digitMask)
  let (carry, z) ← mulAddLoop (2 * digitMask) (2 * f) a.obDigit (i + 1) (2 * i + 1) (a.absSize - (i + 1)) carry z
  let (carry, z) ← (if carry = 0 then some (carry, z) else do
    addRound 64 z (i + a.absSize) carry (← rd z (i + a.absSize)))
  addTop z (i + a.absSize + 1) carry

/-- `x_mul`. -/
def xMul (same : Bool) (a b : DeeInt) : Option DeeInt := do
  let z := deeIntAlloc (a.absSize + b.absSize)
  let digits ← fillCells z.obDigit 0 0 (a.absSize + b.absSize)
  let digits ← (if same then forLoop (squareRow a) 0 a.absSize digits
    else forLoop (mulRow a b) 0 a.absSize digits)
  intNormalize { z with obDigit := digits }

theorem mulAddLoop_ends {bound f s t n carry : ℕ} {y z : List ℕ} (hy : Below digitBase y s n)
    (hylen : s + n ≤ y.length) (hzlen : t + n ≤ z.length) (hf : f ≤ bound) (hbound : bound ≤ 2 * digitMask)
    (hcarry : carry ≤ bound) (hz : Below digitBase z t n) :
    Ends (mulAddLoop bound f y s t n carry z) fun r => r.1 ≤ bound ∧ SameOut z r.2 t n ∧
      Carried z.length t n (seg digitBase z t n + f * seg digitBase y s n + carry) r := by
  refine forLoop_ends_zero (fun k (r : ℕ × List ℕ) => r.1 ≤ bound ∧ SameOut z r.2 t k ∧
    Carried z.length t k (seg digitBase z t k + f * seg digitBase y s k + carry) r) ?_ ?_
  · exact ⟨hcarry, SameOut.refl, rfl, fun i hi => by omega, by simp⟩
  rintro k ⟨c, r⟩ hk ⟨hc, hout, hrow⟩
  dsimp only at hc hout ⊢
  have hlen := hout.length
  have hzk : cell r (t + k) = cell z (t + k) := hout.out _ (by omega)
  have hzlt := hz k hk
  have hylt := hy k hk
  -- `f ≤ bound` is what keeps the carry: `bound + (B - 1) + (B - 1) * bound < (bound + 1) * B`
  have hmul : cell y (s + k) * f ≤ digitMask * bound := Nat.mul_le_mul (by unfold digitBase at hylt; unfold digitMask; omega) hf
  rw [rd_of_lt (by omega), some_bind, rd_of_lt (by omega), some_bind,
    fits_of_lt (by unfold digitBase digitMask at *; omega), some_bind, hzk, fits_of_lt (by unfold digitBase digitMask at *; omega),
    some_bind]
  refine Ends.bind (addRound_ends (w := 64) hrow (by omega) (by unfold digitBase digitMask at *; omega)) ?_
  rintro ⟨c', r'⟩ ⟨hrow', hc', hout'⟩
  dsimp only at hc' hout' ⊢
  have hle : c' ≤ bound := by
    rw [hc']
    unfold digitBase digitMask at *
    omega
  rw [assert_of hle, some_bind]
  refine Ends.pure ⟨hle, (hout.mono le_rfl (by omega)).trans (hout'.mono (by omega) (by omega)), ?_⟩
  rw [seg_succ, seg_succ]
  convert hrow' using 1
  ring

theorem addTop_ends {z : List ℕ} {i carry : ℕ} (hroom : carry ≠ 0 → i < z.length)
    (hfit : carry ≠ 0 → cell z i + carry < digitBase) :
    Ends (addTop z i carry) fun r => SameOut z r i 1 ∧ cell r i = cell z i + carry := by
  unfold addTop
  split_ifs with hzero
  · subst hzero
    exact Ends.pure ⟨SameOut.refl, rfl⟩
  · have hlt := hfit hzero
    have hmask : carry &&& digitMask = carry := by
      rw [and_digitMask, Nat.mod_eq_of_lt (by omega)]
    have htop : carry >>> digitBits = 0 := by
      rw [shiftRight_digitBits, Nat.div_eq_of_lt (by omega)]
    rw [hmask, rd_of_lt (hroom hzero), some_bind, fits_of_lt (by unfold digitBase digitMask at *; omega), some_bind,
      wr_of_lt (hroom hzero), some_bind, assert_of htop]
    exact Ends.pure ⟨SameOut.set, cell_set_self (hroom hzero)⟩

/-- A write behind the value of a slice adds to it. -/
theorem seg_addTop {z r : List ℕ} {i c N : ℕ} (hN : c ≠ 0 → i < N) (hout : SameOut z r i 1)
    (hcell : cell r i = cell z i + c) : seg digitBase r 0 N = seg digitBase z 0 N + c * digitBase ^ i := by
  by_cases hi : i < N
  · have h := seg_splice (B := digitBase) hout (show i + 1 ≤ N by omega)
    rw [seg_one, seg_one, hcell] at h
    linear_combination h
  · obtain rfl : c = 0 := by
      by_contra hc
      exact hi (hN hc)
    rw [Nat.zero_mul, Nat.add_zero]
    exact seg_congr fun j hj => hout.out _ (by omega)

/-- Before row `i` of `x_mul(a, b)`: the buffer holds the product of the low `i` digits of `a` with `b`. -/
structure MulRows (a b : DeeInt) (i : ℕ) (z : List ℕ) : Prop where
  length : z.length = a.absSize + b.absSize
  below : Below digitBase z 0 (a.absSize + b.absSize)
  zero : ∀ j, i + b.absSize ≤ j → cell z j = 0
  value : seg digitBase z 0 (a.absSize + b.absSize) = seg digitBase a.obDigit 0 i * b.mag

theorem mulRow_ends {a b : DeeInt} {i : ℕ} {z : List ℕ} (ha : a.WF) (hb : b.WF) (hi : i < a.absSize)
    (h : MulRows a b i z) : Ends (mulRow a b i z) (MulRows a b (i + 1)) := by
  obtain ⟨hlen, hbelow, hzero, hval⟩ := h
  have hf := ha.cell_lt hi
  have hslice : Below digitBase z i b.absSize := fun k hk => by
    have := hbelow (i + k) (by omega)
    rwa [Nat.zero_add] at this
  unfold mulRow
  rw [rd_of_lt (ha.lt_length hi), some_bind]
  refine Ends.bind (mulAddLoop_ends (s := 0) hb.below (by simpa using hb.len) (by omega)
    (show cell a.obDigit i ≤ digitMask by unfold digitBase digitMask at *; omega) (by omega) (by omega) hslice) ?_
  rintro ⟨c, r⟩ ⟨hc, hout, -, hrow, hrowval⟩
  dsimp only at hc hout hrow hrowval ⊢
  have hrlen := hout.length
  have htop : cell r (i + b.absSize) = 0 := by rw [hout.out _ (by omega), hzero _ le_rfl]
  refine (addTop_ends (fun _ => by omega) fun _ => by unfold digitBase digitMask at *; omega).mono
    fun t ⟨htout, htcell⟩ => ?_
  have hrbelow := hbelow.sameOut hout hrow
  have htlen := htout.length
  refine ⟨by omega, ?_, fun j hj => ?_, ?_⟩
  · refine hrbelow.sameOut htout fun k hk => ?_
    obtain rfl : k = 0 := by omega
    rw [Nat.add_zero, htcell, htop]
    unfold digitBase digitMask at *
    omega
  · rw [htout.out _ (by omega), hout.out _ (by omega), hzero _ (by omega)]
  · have hsplice := seg_splice (B := digitBase) hout (N := a.absSize + b.absSize) (by omega)
    rw [seg_addTop (fun _ => by omega) htout htcell, seg_succ, Nat.zero_add, pow_add]
    have hmag : b.mag = seg digitBase b.obDigit 0 b.absSize := rfl
    rw [← hmag] at hrowval
    linear_combination hval + hsplice + digitBase ^ i * hrowval

/-- Before row `i` of `x_mul(a, a)`: what is missing from the square is the square of the digits from `i` on. -/
structure SquareRows (a : DeeInt) (i : ℕ) (z : List ℕ) : Prop where
  length : z.length = a.absSize + a.absSize
  below : Below digitBase z 0 (a.absSize + a.absSize)
  zero : ∀ j, i + a.absSize + 1 ≤ j → cell z j = 0
  value : seg digitBase z 0 (a.absSize + a.absSize) +
    digitBase ^ (2 * i) * seg digitBase a.obDigit i (a.absSize - i) ^ 2 = a.mag ^ 2

theorem square_rows_lt {a : DeeInt} {i P : ℕ} (ha : a.WF) (hi : i ≤ a.absSize)
    (h : P + digitBase ^ (2 * i) * seg digitBase a.obDigit i (a.absSize - i) ^ 2 = a.mag ^ 2) :
    P < 2 * digitBase ^ (a.absSize + i) := by
  have hsplit : a.mag = seg digitBase a.obDigit 0 i + digitBase ^ i * seg digitBase a.obDigit i (a.absSize - i) := by
    have := seg_add (B := digitBase) (l := a.obDigit) (s := 0) (m := i) (n := a.absSize - i)
    rwa [Nat.add_sub_cancel' hi, Nat.zero_add] at this
  have hlow := seg_lt (ha.below.mono hi)
  have hmag := ha.mag_lt
  set L := seg digitBase a.obDigit 0 i
  set T := seg digitBase a.obDigit i (a.absSize - i)
  have hP : P = L * (L + 2 * (digitBase ^ i * T)) := by
    rw [hsplit, pow_mul'] at h
    linear_combination h
  have hle : L + 2 * (digitBase ^ i * T) ≤ 2 * a.mag := by omega
  have hpos : 0 < digitBase ^ i := Nat.pow_pos digitBase_pos
  calc P = L * (L + 2 * (digitBase ^ i * T)) := hP
    _ ≤ digitBase ^ i * (2 * a.mag) := Nat.mul_le_mul hlow.le hle
    _ < digitBase ^ i * (2 * digitBase ^ a.absSize) := Nat.mul_lt_mul_of_pos_left (by omega) hpos
    _ = 2 * digitBase ^ (a.absSize + i) := by rw [pow_add]; ring

theorem squareRow_ends {a : DeeInt} {i : ℕ} {z : List ℕ} (ha : a.WF) (hi : i < a.absSize)
    (h : SquareRows a i z) : Ends (squareRow a i z) (SquareRows a (i + 1)) := by
  obtain ⟨hlen, hbelow, hzero, hval⟩ := h
  obtain ⟨m, hm⟩ : ∃ m, a.absSize = i + 1 + m := ⟨a.absSize - (i + 1), by omega⟩
  have hm' : a.absSize - (i + 1) = m := by omega
  have hf := ha.cell_lt hi
  have hbelow' : ∀ j < a.absSize + a.absSize, cell z j < digitBase := fun j hj => by
    have := hbelow j hj
    rwa [Nat.zero_add] at this
  have hz2i := hbelow' (2 * i) (by omega)
  have hsq : cell a.obDigit i * cell a.obDigit i ≤ digitMask * digitMask :=
    Nat.mul_le_mul (by unfold digitBase digitMask at *; omega) (by unfold digitBase digitMask at *; omega)
  have htail : Below digitBase a.obDigit (i + 1) m := fun k hk => ha.cell_lt (by omega)
  unfold squareRow
  rw [rd_of_lt (ha.lt_length hi), some_bind, rd_of_lt (by omega), some_bind,
    fits_of_lt (by unfold digitBase digitMask at *; omega), some_bind, hm']
  -- the digit squared
  refine Ends.bind (addRound_ends (w := 64) (s := 2 * i) (n := 0) Carried.zero (by omega)
    (by unfold digitBase digitMask at *; omega)) ?_
  rintro ⟨c₁, r₁⟩ ⟨⟨-, hb₁, hval₁⟩, hc₁, hout₁⟩
  dsimp only [Nat.add_zero] at hb₁ hval₁ hc₁ hout₁ ⊢
  have hc₁' : c₁ ≤ digitMask := by
    unfold digitBase digitMask at *
    omega
  rw [assert_of hc₁', some_bind]
  have hbelow₁ := hbelow.sameOut hout₁ hb₁
  have hlen₁ := hout₁.length
  -- the digits behind it, twice
  refine Ends.bind (mulAddLoop_ends (t := 2 * i + 1) htail (by have := ha.len; omega) (by omega)
    (show 2 * cell a.obDigit i ≤ 2 * digitMask by unfold digitBase digitMask at *; omega) le_rfl (by omega)
    (fun k hk => by
      have := hbelow₁ (2 * i + 1 + k) (by omega)
      rwa [Nat.zero_add] at this)) ?_
  rintro ⟨c₂, r₂⟩ ⟨hc₂, hout₂, -, hb₂, hval₂⟩
  dsimp only at hc₂ hout₂ hb₂ hval₂ ⊢
  have hbelow₂ := hbelow₁.sameOut hout₂ hb₂
  have hlen₂ := hout₂.length
  have hsum : seg digitBase r₂ 0 (a.absSize + a.absSize) + c₂ * digitBase ^ (i + a.absSize) +
      digitBase ^ (2 * (i + 1)) * seg digitBase a.obDigit (i + 1) m ^ 2 = a.mag ^ 2 := by
    have hs₁ := seg_splice (B := digitBase) hout₁ (N := a.absSize + a.absSize) (by omega)
    have hs₂ := seg_splice (B := digitBase) hout₂ (N := a.absSize + a.absSize) (by omega)
    rw [show a.absSize - i = m + 1 by omega, seg_succ_front] at hval
    rw [seg_one, seg_one] at hs₁
    rw [zero_add, seg_one, pow_one, pow_zero, mul_one] at hval₁
    have hexp : digitBase ^ (i + a.absSize) = digitBase ^ (2 * i + 1) * digitBase ^ m := by
      rw [← pow_add, show i + a.absSize = 2 * i + 1 + m by omega]
    rw [hexp]
    linear_combination hval + hs₁ + digitBase ^ (2 * i) * hval₁ + hs₂ + digitBase ^ (2 * i + 1) * hval₂
  have hlt := square_rows_lt (i := i + 1) ha (by omega) (by rw [hm']; exact hsum)
  -- the carry above them
  refine Ends.bind (P := fun (r : ℕ × List ℕ) => SameOut r₂ r.2 (i + a.absSize) 1 ∧
    Below digitBase r.2 0 (a.absSize + a.absSize) ∧
    seg digitBase r.2 0 (a.absSize + a.absSize) + r.1 * digitBase ^ (i + a.absSize + 1) =
      seg digitBase r₂ 0 (a.absSize + a.absSize) + c₂ * digitBase ^ (i + a.absSize)) ?_ ?_
  · split_ifs with hzero₂
    · subst hzero₂
      exact Ends.pure ⟨SameOut.refl, hbelow₂, by simp⟩
    · have hcell := hbelow₂ (i + a.absSize) (by omega)
      rw [Nat.zero_add] at hcell
      have hstart : Carried r₂.length (i + a.absSize) 0 c₂ (c₂, r₂) := ⟨rfl, fun j hj => by omega, by simp⟩
      rw [rd_of_lt (by omega), some_bind]
      refine (addRound_ends (w := 64) hstart (by omega) (by unfold digitBase digitMask at *; omega)).mono ?_
      rintro ⟨c₃, r₃⟩ ⟨⟨-, hb₃, hval₃⟩, -, hout₃⟩
      dsimp only [Nat.add_zero] at hb₃ hval₃ hout₃ ⊢
      refine ⟨hout₃, hbelow₂.sameOut hout₃ hb₃, ?_⟩
      have hs₃ := seg_splice (B := digitBase) hout₃ (N := a.absSize + a.absSize) (by omega)
      rw [seg_one, seg_one] at hs₃
      rw [zero_add, seg_one, pow_one, pow_zero, mul_one] at hval₃
      linear_combination hs₃ + digitBase ^ (i + a.absSize) * hval₃
  rintro ⟨c₃, r₃⟩ ⟨hout₃, hbelow₃, hval₃⟩
  dsimp only at hout₃ hbelow₃ hval₃ ⊢
  have hlen₃ := hout₃.length
  have hpow : 0 < digitBase ^ (i + a.absSize + 1) := Nat.pow_pos digitBase_pos
  have hc₃ : c₃ ≤ 1 := by
    by_contra hgt
    have hmul : 2 * digitBase ^ (i + a.absSize + 1) ≤ c₃ * digitBase ^ (i + a.absSize + 1) :=
      Nat.mul_le_mul_right _ (by omega)
    rw [show a.absSize + (i + 1) = i + a.absSize + 1 by omega] at hlt
    omega
  have hroom : c₃ ≠ 0 → i + a.absSize + 1 < a.absSize + a.absSize := fun hne => by
    by_contra hge
    obtain rfl : c₃ = 1 := by omega
    have hle := Nat.pow_le_pow_right digitBase_pos (show a.absSize + a.absSize ≤ i + a.absSize + 1 by omega)
    have hmag : a.mag ^ 2 < digitBase ^ (a.absSize + a.absSize) := by
      rw [pow_add, sq]
      exact Nat.mul_lt_mul'' ha.mag_lt ha.mag_lt
    omega
  have htop : cell r₃ (i + a.absSize + 1) = 0 := by
    rw [hout₃.out _ (by omega), hout₂.out _ (by omega), hout₁.out _ (by omega), hzero _ le_rfl]
  refine (addTop_ends (fun hne => by have := hroom hne; omega) fun _ => by unfold digitBase; omega).mono
    fun t ⟨htout, htcell⟩ => ?_
  have htlen := htout.length
  refine ⟨by omega, ?_, fun j hj => ?_, ?_⟩
  · refine hbelow₃.sameOut htout fun k hk => ?_
    obtain rfl : k = 0 := by omega
    rw [Nat.add_zero, htcell, htop]
    unfold digitBase
    omega
  · rw [htout.out _ (by omega), hout₃.out _ (by omega), hout₂.out _ (by omega), hout₁.out _ (by omega),
      hzero _ (by omega)]
  · rw [seg_addTop hroom htout htcell, hm', hval₃]
    exact hsum

theorem xMul_ends {same : Bool} {a b : DeeInt} (ha : a.WF) (hb : b.WF) (hsame : same = true → a = b) :
    Ends (xMul same a b) fun z => z.Canonical ∧ z.toInt = a.mag * b.mag := by
  unfold xMul
  refine Ends.bind (fillCells_ends (by simp)) ?_
  rintro z ⟨hout, hzero⟩
  have hzlen : z.length = a.absSize + b.absSize := by simpa using hout.length
  have hcell : ∀ j, cell z j = 0 := fun j => by
    by_cases hj : j < a.absSize + b.absSize
    · simpa using hzero j hj
    · simp [cell, List.getElem?_eq_none (show z.length ≤ j by omega)]
  have hbelow : Below digitBase z 0 (a.absSize + b.absSize) := fun j _ => by
    rw [hcell]
    exact digitBase_pos
  have hseg : seg digitBase z 0 (a.absSize + b.absSize) = 0 := seg_eq_zero fun j _ => hcell _
  refine Ends.bind (P := fun r => r.length = a.absSize + b.absSize ∧
    Below digitBase r 0 (a.absSize + b.absSize) ∧
    seg digitBase r 0 (a.absSize + b.absSize) = a.mag * b.mag) ?_ ?_
  · cases same with
    | false =>
      have hrow : MulRows a b 0 z := ⟨hzlen, hbelow, fun j _ => hcell j, by simp [hseg]⟩
      exact (forLoop_ends_zero (MulRows a b) hrow fun i r hi hr => mulRow_ends ha hb hi hr).mono
        fun r hr => ⟨hr.length, hr.below, hr.value⟩
    | true =>
      obtain rfl := hsame rfl
      have hrow : SquareRows a 0 z := by
        refine ⟨hzlen, hbelow, fun j _ => hcell j, ?_⟩
        rw [hseg, Nat.sub_zero, Nat.mul_zero, pow_zero, one_mul, zero_add]
        rfl
      refine (forLoop_ends_zero (SquareRows a) hrow fun i r hi hr => squareRow_ends ha hi hr).mono
        fun r hr => ⟨hr.length, hr.below, ?_⟩
      have hval := hr.value
      rw [Nat.sub_self, seg_zero] at hval
      rw [← sq, ← hval]
      ring
  rintro r ⟨hlen, hbelow', hval⟩
  refine (intNormalize_pos hlen.ge hbelow').mono fun z hz => ⟨hz.1, ?_⟩
  rw [hz.2, hval]
  push_cast
  rfl

/-! ### Slices added and subtracted in place -/

/-- `v_iadd(x + xo, m, y + yo, n)`: the carry and the buffer of `x`. Rounds of the second loop that the `C` loop
leaves out, because its carry is zero, do nothing. -/
def vIadd (x : List ℕ) (xo m : ℕ) (y : List ℕ) (yo n : ℕ) : Option (ℕ × List ℕ) := do
  assert (n ≤ m)
  let (carry, x) ← forLoop (fun i (carry, x) => do
      let (carry, x) ← addRound 32 x (xo + i) carry (← fits 32 ((← rd x (xo + i)) + (← rd y (yo + i))))
      assert (carry &&& 1 = carry)
      some (carry, x)) 0 n (0, x)
  forLoop (fun i (carry, x) => if carry = 0 then some (carry, x) else do
      let (carry, x) ← addRound 32 x (xo + i) carry (← rd x (xo + i))
      assert (carry &&& 1 = carry)
      some (carry, x)) n (m - n) (carry, x)

/-- `v_isub(x + xo, m, y + yo, n)`. -/
def vIsub (x : List ℕ) (xo m : ℕ) (y : List ℕ) (yo n : ℕ) : Option (ℕ × List ℕ) := do
  assert (n ≤ m)
  let (borrow, x) ← forLoop (fun i (borrow, x) => do
      subRound borrowSub x (xo + i) borrow (← rd x (xo + i)) (← rd y (yo + i))) 0 n (0, x)
  forLoop (fun i (borrow, x) => if borrow = 0 then some (borrow, x) else do
      subRound borrowSub x (xo + i) borrow (← rd x (xo + i)) 0) n (m - n) (borrow, x)

/-- What an in-place operation on the `m` cells from `xo` on leaves: a buffer that differs there only. -/
structure InPlace (x : List ℕ) (xo m : ℕ) (r : ℕ × List ℕ) : Prop where
  top_le : r.1 ≤ 1
  same : SameOut x r.2 xo m
  below : Below digitBase r.2 xo m

theorem vIadd_ends {x y : List ℕ} {xo m yo n : ℕ} (hnm : n ≤ m) (hxlen : xo + m ≤ x.length)
    (hylen : yo + n ≤ y.length) (hx : Below digitBase x xo m) (hy : Below digitBase y yo n) :
    Ends (vIadd x xo m y yo n) fun r => InPlace x xo m r ∧
      seg digitBase r.2 xo m + r.1 * digitBase ^ m = seg digitBase x xo m + seg digitBase y yo n := by
  have hand : ∀ c : ℕ, c ≤ 1 → c &&& 1 = c := fun c hc => by
    rw [Nat.and_one_is_mod]
    omega
  unfold vIadd
  rw [assert_of hnm, some_bind]
  refine Ends.bind (P := fun r => r.1 ≤ 1 ∧ SameOut x r.2 xo n ∧
    Carried x.length xo n (seg digitBase x xo n + seg digitBase y yo n) r) ?_ ?_
  · refine forLoop_ends_zero (fun i (r : ℕ × List ℕ) => r.1 ≤ 1 ∧ SameOut x r.2 xo i ∧
      Carried x.length xo i (seg digitBase x xo i + seg digitBase y yo i) r)
      ⟨by simp, SameOut.refl, by simpa using Carried.zero⟩ ?_
    rintro i ⟨c, r⟩ hi ⟨hc, hout, hrow⟩
    dsimp only at hc hout ⊢
    have hlen := hout.length
    have hcell : cell r (xo + i) = cell x (xo + i) := hout.out _ (by omega)
    have hxi := hx i (by omega)
    have hyi := hy i hi
    rw [rd_of_lt (by omega), some_bind, rd_of_lt (by omega), some_bind,
      fits_of_lt (by unfold digitBase at *; omega), some_bind, hcell]
    refine Ends.bind (addRound_ends (w := 32) hrow (by omega) (by unfold digitBase at *; omega)) ?_
    rintro ⟨c', r'⟩ ⟨hrow', hc', hout'⟩
    dsimp only at hc' hout' ⊢
    have hle : c' ≤ 1 := by
      unfold digitBase at *
      omega
    rw [assert_of (hand c' hle), some_bind]
    refine Ends.pure ⟨hle, (hout.mono le_rfl (by omega)).trans (hout'.mono (by omega) (by omega)), ?_⟩
    rw [seg_succ, seg_succ]
    convert hrow' using 1
    ring
  rintro ⟨c, r⟩ ⟨hc, hout, hrow⟩
  have hloop := forLoop_ends (f := fun i (r : ℕ × List ℕ) => if r.1 = 0 then some (r.1, r.2) else do
      let (carry, x) ← addRound 32 r.2 (xo + i) r.1 (← rd r.2 (xo + i))
      assert (carry &&& 1 = carry)
      some (carry, x)) (a := n) (n := m - n) (s := (c, r))
    (fun i r => r.1 ≤ 1 ∧ SameOut x r.2 xo i ∧
      Carried x.length xo i (seg digitBase x xo i + seg digitBase y yo n) r) ⟨hc, hout, hrow⟩ ?_
  · rw [Nat.add_sub_cancel' hnm] at hloop
    exact hloop.mono fun r ⟨hr, hsame, hrow⟩ => ⟨⟨hr, hsame, hrow.below⟩, hrow.value⟩
  rintro i ⟨c, r⟩ hlo hi ⟨hc, hout, hrow⟩
  dsimp only at hc hout ⊢
  have hlen := hout.length
  have hcell : cell r (xo + i) = cell x (xo + i) := hout.out _ (by omega)
  have hxi := hx i (by omega)
  split_ifs with hzero
  · subst hzero
    refine Ends.pure ⟨hc, hout.mono le_rfl (by omega), hlen, hrow.below.succ (by rw [hcell]; exact hxi), ?_⟩
    have hval := hrow.value
    dsimp only at hval ⊢
    rw [seg_succ, seg_succ, hcell]
    linear_combination hval
  · rw [rd_of_lt (by omega), some_bind, hcell]
    refine Ends.bind (addRound_ends (w := 32) hrow (by omega) (by unfold digitBase at *; omega)) ?_
    rintro ⟨c', r'⟩ ⟨hrow', hc', hout'⟩
    dsimp only at hc' hout' ⊢
    have hle : c' ≤ 1 := by
      unfold digitBase at *
      omega
    rw [assert_of (hand c' hle), some_bind]
    refine Ends.pure ⟨hle, (hout.mono le_rfl (by omega)).trans (hout'.mono (by omega) (by omega)), ?_⟩
    rw [seg_succ]
    convert hrow' using 1
    ring

theorem vIsub_ends {x y : List ℕ} {xo m yo n : ℕ} (hnm : n ≤ m) (hxlen : xo + m ≤ x.length)
    (hylen : yo + n ≤ y.length) (hx : Below digitBase x xo m) (hy : Below digitBase y yo n) :
    Ends (vIsub x xo m y yo n) fun r => InPlace x xo m r ∧
      seg digitBase r.2 xo m + seg digitBase y yo n = seg digitBase x xo m + r.1 * digitBase ^ m := by
  unfold vIsub
  rw [assert_of hnm, some_bind]
  refine Ends.bind (P := fun r => SameOut x r.2 xo n ∧
    Borrowed x.length xo n (seg digitBase x xo n) (seg digitBase y yo n) r) ?_ ?_
  · refine forLoop_ends_zero (fun i (r : ℕ × List ℕ) => SameOut x r.2 xo i ∧
      Borrowed x.length xo i (seg digitBase x xo i) (seg digitBase y yo i) r)
      ⟨SameOut.refl, by simpa using Borrowed.zero⟩ ?_
    rintro i ⟨c, r⟩ hi ⟨hout, hrow⟩
    dsimp only at hout ⊢
    have hlen := hout.length
    have hcell : cell r (xo + i) = cell x (xo + i) := hout.out _ (by omega)
    rw [rd_of_lt (by omega), some_bind, rd_of_lt (by omega), some_bind, hcell]
    refine (subRound_ends hrow (by omega) (hx i (by omega)) (hy i hi)).mono fun r' ⟨hrow', hout'⟩ => ?_
    refine ⟨(hout.mono le_rfl (by omega)).trans (hout'.mono (by omega) (by omega)), ?_⟩
    rwa [seg_succ, seg_succ]
  rintro ⟨c, r⟩ ⟨hout, hrow⟩
  have hloop := forLoop_ends (f := fun i (r : ℕ × List ℕ) => if r.1 = 0 then some (r.1, r.2) else do
      subRound borrowSub r.2 (xo + i) r.1 (← rd r.2 (xo + i)) 0) (a := n) (n := m - n) (s := (c, r))
    (fun i r => SameOut x r.2 xo i ∧ Borrowed x.length xo i (seg digitBase x xo i) (seg digitBase y yo n) r)
    ⟨hout, hrow⟩ ?_
  · rw [Nat.add_sub_cancel' hnm] at hloop
    exact hloop.mono fun r ⟨hsame, hrow⟩ => ⟨⟨hrow.borrow_le, hsame, hrow.below⟩, hrow.value⟩
  rintro i ⟨c, r⟩ hlo hi ⟨hout, hrow⟩
  dsimp only at hout ⊢
  have hlen := hout.length
  have hcell : cell r (xo + i) = cell x (xo + i) := hout.out _ (by omega)
  have hxi := hx i (by omega)
  split_ifs with hzero
  · subst hzero
    refine Ends.pure ⟨hout.mono le_rfl (by omega), hlen, hrow.below.succ (by rw [hcell]; exact hxi), by simp, ?_⟩
    have hval := hrow.value
    dsimp only at hval ⊢
    rw [seg_succ, seg_succ, hcell]
    linear_combination hval
  · rw [rd_of_lt (by omega), some_bind, hcell]
    refine (subRound_ends hrow (by omega) hxi digitBase_pos).mono fun r' ⟨hrow', hout'⟩ => ?_
    refine ⟨(hout.mono le_rfl (by omega)).trans (hout'.mono (by omega) (by omega)), ?_⟩
    rw [Nat.zero_mul, Nat.add_zero] at hrow'
    rwa [seg_succ]

/-! ### Karatsuba multiplication -/

/-- `KARATSUBA_CUTOFF`. -/
def karatsubaCutoff : ℕ := 70

/-- `KARATSUBA_SQUARE_CUTOFF`. -/
def karatsubaSquareCutoff : ℕ := 2 * karatsubaCutoff

/-- `kmul_split`: the high digits and the low `size` digits. -/
def kmulSplit (n : DeeInt) (size : ℕ) : Option (DeeInt × DeeInt) := do
  let sizeLo := min n.absSize size
  let sizeHi := n.absSize - sizeLo
  let lo ← copyCells (deeIntAlloc sizeLo).obDigit 0 n.obDigit 0 sizeLo
  let hi ← copyCells (deeIntAlloc sizeHi).obDigit 0 n.obDigit sizeLo sizeHi
  let lo ← intNormalize ⟨sizeLo, lo⟩
  let hi ← intNormalize ⟨sizeHi, hi⟩
  some (hi, lo)

/-- `memcpyc` of the digits of `t` and `bzeroc` up to `n` digits. -/
def placeDigits (ret : List ℕ) (off : ℕ) (t : DeeInt) (n : ℕ) : Option (List ℕ) := do
  let ret ← copyCells ret off t.obDigit 0 t.obSize.toNat
  fillCells ret (off + t.obSize.toNat) 0 (n - t.obSize.toNat)

/-- `k_lopsided_mul`: the longer operand is cut in slices of the size of the shorter one. `mul` is `k_mul`. -/
def kLopsidedMul (mul : Bool → DeeInt → DeeInt → Option DeeInt) (a b : DeeInt) : Option DeeInt := do
  let asize := a.absSize
  let size := a.absSize + b.absSize
  assert (karatsubaCutoff < asize)
  assert (2 * asize ≤ b.absSize)
  let ret ← fillCells (deeIntAlloc size).obDigit 0 0 size
  let ret ← loop (fun (bsize, nbdone, bslice, ret) =>
    if 0 < bsize then do
      let nbtouse := min bsize asize
      let bslice ← copyCells bslice 0 b.obDigit nbdone nbtouse
      let product ← mul false a ⟨nbtouse, bslice⟩
      let (_, ret) ← vIadd ret nbdone (size - nbdone) product.obDigit 0 product.obSize.toNat
      some (.next (bsize - nbtouse, nbdone + nbtouse, bslice, ret))
    else some (.done ret)) (b.absSize + 1) (b.absSize, 0, (deeIntAlloc asize).obDigit, ret)
  intNormalize ⟨size, ret⟩

/-- The Karatsuba step of `k_mul`. -/
def kMulSplit (mul : Bool → DeeInt → DeeInt → Option DeeInt) (same : Bool) (a b : DeeInt) : Option DeeInt := do
  let size := a.absSize + b.absSize
  let shift := b.absSize >>> 1
  let (ah, al) ← kmulSplit a shift
  assert (0 < ah.obSize)
  let (bh, bl) ← (if same then some (ah, al) else kmulSplit b shift)
  let ret ← fillCells (deeIntAlloc size).obDigit 0 uninit size
  let t1 ← mul same ah bh
  assert (0 ≤ t1.obSize)
  assert (2 * shift + t1.obSize ≤ size)
  let ret ← placeDigits ret (2 * shift) t1 (size - 2 * shift)
  let t2 ← mul same al bl
  assert (0 ≤ t2.obSize)
  assert (t2.obSize ≤ 2 * shift)
  let ret ← placeDigits ret 0 t2 (2 * shift)
  let i := size - shift
  let (_, ret) ← vIsub ret shift i t2.obDigit 0 t2.obSize.toNat
  let (_, ret) ← vIsub ret shift i t1.obDigit 0 t1.obSize.toNat
  let t1 ← xAdd ah al
  let t2 ← (if same then some t1 else xAdd bh bl)
  let t3 ← mul same t1 t2
  assert (0 ≤ t3.obSize)
  let (_, ret) ← vIadd ret shift i t3.obDigit 0 t3.obSize.toNat
  intNormalize ⟨size, ret⟩

/-- `k_mul` with the operands in order of size. -/
def kMulOrdered (mul : Bool → DeeInt → DeeInt → Option DeeInt) (same : Bool) (a b : DeeInt) : Option DeeInt :=
  if a.absSize ≤ (if same then karatsubaSquareCutoff else karatsubaCutoff) then
    if a.absSize = 0 then some deeIntNewZero else xMul same a b
  else if 2 * a.absSize ≤ b.absSize then
    kLopsidedMul mul a b
  else
    kMulSplit mul same a b

/-- `k_mul`, with fuel for its recursion. -/
def kMulFuel : ℕ → Bool → DeeInt → DeeInt → Option DeeInt
  | 0, _, _, _ => none
  | fuel + 1, same, a, b =>
    if b.absSize < a.absSize then kMulOrdered (kMulFuel fuel) same b a else kMulOrdered (kMulFuel fuel) same a b

/-- `k_mul`. -/
def kMul (same : Bool) (a b : DeeInt) : Option DeeInt := kMulFuel (a.absSize + b.absSize + 1) same a b

/-- `int_mul`. `same` says whether the operands are one object, `isShared` which objects somebody else holds. -/
def intMul (same : Bool) (isShared : DeeInt → Bool) (a b : DeeInt) : Option DeeInt :=
  if a.absSize ≤ 1 ∧ b.absSize ≤ 1 then do
    deeIntNewInt64 (← sfits 64 ((← mediumValue a) * (← mediumValue b)))
  else do
    let z ← kMul same a b
    if ¬(a.obSize < 0 ↔ b.obSize < 0) then intNegInherit (isShared z) z else some z

/-- The object of a natural number. -/
structure IsNat (z : DeeInt) (v : ℕ) : Prop extends z.Canonical where
  toInt_eq : z.toInt = v

theorem IsNat.obSize_nonneg {z : DeeInt} {v : ℕ} (h : IsNat z v) : 0 ≤ z.obSize := by
  by_contra hneg
  have := h.toCanonical.toInt_neg_iff.mpr (by omega)
  have := h.toInt_eq
  omega

theorem IsNat.toNat_obSize {z : DeeInt} {v : ℕ} (h : IsNat z v) : z.obSize.toNat = z.absSize := by
  have := h.obSize_nonneg
  unfold absSize
  omega

theorem IsNat.mag_eq {z : DeeInt} {v : ℕ} (h : IsNat z v) : z.mag = v := by
  rw [← natAbs_toInt, h.toInt_eq, Int.natAbs_natCast]

theorem IsNat.absSize_le {z : DeeInt} {v n : ℕ} (h : IsNat z v) (hv : v < digitBase ^ n) : z.absSize ≤ n :=
  h.toCanonical.absSize_le (by rwa [h.mag_eq])

theorem IsNat.obSize_pos {z : DeeInt} {v : ℕ} (h : IsNat z v) (hv : 0 < v) : 0 < z.obSize := by
  have hnonneg := h.obSize_nonneg
  by_contra hle
  have := mag_of_absSize_zero (x := z) (by unfold absSize; omega)
  have := h.mag_eq
  omega

theorem kmulSplit_ends {n : DeeInt} {size : ℕ} (hn : n.WF) (hsize : size ≤ n.absSize) :
    Ends (kmulSplit n size) fun r => IsNat r.1 (seg digitBase n.obDigit size (n.absSize - size)) ∧
      IsNat r.2 (seg digitBase n.obDigit 0 size) := by
  have hlen := hn.len
  unfold kmulSplit
  rw [min_eq_right hsize]
  refine Ends.bind (copyCells_ends (by simp) (by omega)) fun lo ⟨hloOut, hlo⟩ => ?_
  refine Ends.bind (copyCells_ends (by simp) (by omega)) fun hi ⟨hhiOut, hhi⟩ => ?_
  have hhiLen : hi.length = n.absSize - size := by simpa using hhiOut.length
  have hloLen : lo.length = size := by simpa using hloOut.length
  have hhiSeg : seg digitBase hi 0 (n.absSize - size) = seg digitBase n.obDigit size (n.absSize - size) :=
    seg_shift hhi
  have hloSeg : seg digitBase lo 0 size = seg digitBase n.obDigit 0 size := seg_congr hlo
  refine Ends.bind (intNormalize_pos hloLen.ge fun j hj => ?_) fun lo' ⟨hloC, hloV⟩ => ?_
  · rw [hlo j hj]
    exact hn.below j (by omega)
  refine Ends.bind (intNormalize_pos hhiLen.ge fun j hj => ?_) fun hi' ⟨hhiC, hhiV⟩ => ?_
  · rw [hhi j hj]
    exact hn.cell_lt (by omega)
  exact Ends.pure ⟨⟨hhiC, by rw [hhiV, hhiSeg]⟩, ⟨hloC, by rw [hloV, hloSeg]⟩⟩

theorem placeDigits_ends {ret : List ℕ} {off n v : ℕ} {t : DeeInt} (ht : IsNat t v) (hn : t.absSize ≤ n)
    (hlen : off + n ≤ ret.length) :
    Ends (placeDigits ret off t n) fun r => SameOut ret r off n ∧ Below digitBase r off n ∧
      seg digitBase r off n = v := by
  have htlen := ht.len
  unfold placeDigits
  rw [ht.toNat_obSize]
  refine Ends.bind (copyCells_ends (by omega) (by omega)) fun r ⟨hrOut, hr⟩ => ?_
  have hrlen := hrOut.length
  refine (fillCells_ends (by omega)).mono fun r' ⟨hr'Out, hr'⟩ => ?_
  have hcell : ∀ i < n, cell r' (off + i) = if i < t.absSize then cell t.obDigit i else 0 := fun i hi => by
    split_ifs with hlt
    · rw [hr'Out.out _ (by omega), hr i hlt, Nat.zero_add]
    · have := hr' (i - t.absSize) (by omega)
      rwa [show off + t.absSize + (i - t.absSize) = off + i by omega] at this
  refine ⟨(hrOut.mono le_rfl (by omega)).trans (hr'Out.mono (by omega) (by omega)), fun i hi => ?_, ?_⟩
  · rw [hcell i hi]
    split_ifs with hlt
    · exact ht.toWF.cell_lt hlt
    · exact digitBase_pos
  · obtain ⟨k, rfl⟩ : ∃ k, n = t.absSize + k := ⟨n - t.absSize, by omega⟩
    have hlow : seg digitBase r' off t.absSize = seg digitBase t.obDigit 0 t.absSize :=
      seg_shift fun i hi => by rw [hcell i (by omega), if_pos hi, Nat.zero_add]
    have hhigh : seg digitBase r' (off + t.absSize) k = 0 := seg_eq_zero fun i hi => by
      rw [Nat.add_assoc, hcell _ (by omega), if_neg (by omega)]
    rw [seg_add, hlow, hhigh, Nat.mul_zero, Nat.add_zero]
    exact ht.mag_eq

/-- What `k_mul` needs of its operands, the shorter one first: a slice of `k_lopsided_mul` may have leading zero
digits, but then it is as long as the other operand and comes second. -/
structure MulReady (a b : DeeInt) : Prop where
  left : a.Canonical
  right : b.WF
  rightTop : b.Canonical ∨ a.absSize = b.absSize

theorem MulReady.of_canonical {a b : DeeInt} (ha : a.Canonical) (hb : b.Canonical) : MulReady a b :=
  ⟨ha, hb.toWF, Or.inl hb⟩

/-- `mul` multiplies operands of less than `bound` digits together. -/
def Multiplies (mul : Bool → DeeInt → DeeInt → Option DeeInt) (bound : ℕ) : Prop :=
  ∀ same a b, MulReady a b → (same = true → a = b) → a.absSize + b.absSize < bound →
    Ends (mul same a b) fun z => IsNat z (a.mag * b.mag)

theorem kLopsidedMul_ends {mul : Bool → DeeInt → DeeInt → Option DeeInt} {a b : DeeInt} (ha : a.Canonical)
    (hb : b.Canonical) (hcut : karatsubaCutoff < a.absSize) (hsize : 2 * a.absSize ≤ b.absSize)
    (hmul : Multiplies mul (a.absSize + b.absSize)) :
    Ends (kLopsidedMul mul a b) fun z => IsNat z (a.mag * b.mag) := by
  have hblen := hb.len
  unfold kLopsidedMul
  dsimp only
  rw [assert_of hcut, some_bind, assert_of hsize, some_bind]
  refine Ends.bind (fillCells_ends (by simp)) fun ret ⟨hretOut, hret⟩ => ?_
  have hretLen : ret.length = a.absSize + b.absSize := by simpa using hretOut.length
  refine Ends.bind (P := fun r => r.length = a.absSize + b.absSize ∧
    Below digitBase r 0 (a.absSize + b.absSize) ∧ seg digitBase r 0 (a.absSize + b.absSize) = a.mag * b.mag) ?_ ?_
  · refine loop_ends (fun s => s.1 + s.2.1 = b.absSize ∧ s.2.2.1.length = a.absSize ∧
      s.2.2.2.length = a.absSize + b.absSize ∧ Below digitBase s.2.2.2 0 (a.absSize + b.absSize) ∧
      seg digitBase s.2.2.2 0 (a.absSize + b.absSize) = a.mag * seg digitBase b.obDigit 0 s.2.1)
      (fun s => s.1) ⟨rfl, by simp, hretLen, fun i hi => ?_, ?_⟩ (by simp) ?_
    · rw [hret i hi]
      exact digitBase_pos
    · rw [seg_zero, Nat.mul_zero]
      exact seg_eq_zero hret
    rintro ⟨bsize, nbdone, bslice, ret⟩ ⟨hdone, hsliceLen, hretLen, hbelow, hval⟩
    dsimp only at hdone hsliceLen hretLen hbelow hval ⊢
    split_ifs with hpos
    · set nbtouse := min bsize a.absSize with hnb
      refine Ends.bind (copyCells_ends (by omega) (by omega)) fun slice ⟨hsliceOut, hslice⟩ => ?_
      have hsliceLen' : slice.length = a.absSize := hsliceOut.length.trans hsliceLen
      have hsliceBelow : Below digitBase slice 0 nbtouse := fun i hi => by
        rw [hslice i hi]
        exact hb.toWF.cell_lt (by omega)
      have hsliceWF : WF ⟨nbtouse, slice⟩ := ⟨(by omega : nbtouse ≤ slice.length), hsliceBelow⟩
      have hsliceVal : mag ⟨nbtouse, slice⟩ = seg digitBase b.obDigit nbdone nbtouse := seg_shift hslice
      -- a slice shorter than `a` is the last one, so its top digit is that of `b`
      have hready : MulReady a ⟨nbtouse, slice⟩ := by
        by_cases hlast : bsize < a.absSize
        · refine .of_canonical ha ⟨hsliceWF, fun htop => ?_⟩
          change 0 < nbtouse at htop
          change cell slice (nbtouse - 1) ≠ 0
          have hcell := hslice (nbtouse - 1) (by omega)
          rw [Nat.zero_add, show nbdone + (nbtouse - 1) = b.absSize - 1 by omega] at hcell
          rw [hcell]
          exact hb.top (by omega)
        · exact ⟨ha, hsliceWF, Or.inr (show a.absSize = nbtouse by omega)⟩
      refine Ends.bind (hmul false a ⟨nbtouse, slice⟩ hready (by simp)
        (show a.absSize + nbtouse < a.absSize + b.absSize by unfold karatsubaCutoff at hcut; omega))
        fun product hproduct => ?_
      have hproductLt : a.mag * mag ⟨nbtouse, slice⟩ < digitBase ^ (a.absSize + nbtouse) := by
        rw [pow_add]
        exact Nat.mul_lt_mul'' ha.mag_lt hsliceWF.mag_lt
      have hproductSize := hproduct.absSize_le hproductLt
      rw [hproduct.toNat_obSize]
      refine Ends.bind (vIadd_ends (by omega) (by omega) (by have := hproduct.len; omega)
        (fun i hi => by
          have := hbelow (nbdone + i) (by omega)
          rwa [Nat.zero_add] at this) hproduct.below) ?_
      rintro ⟨c, ret'⟩ ⟨⟨hc, hout, hbelow'⟩, hsum⟩
      dsimp only at hc hout hbelow' hsum ⊢
      have hlen' := hout.length
      have hsplice := seg_splice (B := digitBase) hout (N := a.absSize + b.absSize) (by omega)
      have hmagP : seg digitBase product.obDigit 0 product.absSize =
          a.mag * seg digitBase b.obDigit nbdone nbtouse := by
        rw [← hsliceVal]
        exact hproduct.mag_eq
      have htotal : seg digitBase ret' 0 (a.absSize + b.absSize) + c * digitBase ^ (a.absSize + b.absSize) =
          a.mag * seg digitBase b.obDigit 0 (nbdone + nbtouse) := by
        rw [hmagP] at hsum
        have hexp : digitBase ^ (a.absSize + b.absSize) =
            digitBase ^ nbdone * digitBase ^ (a.absSize + b.absSize - nbdone) := by
          rw [← pow_add, Nat.add_sub_cancel' (by omega)]
        rw [seg_add (m := nbdone), Nat.zero_add, hexp]
        linear_combination hval + hsplice + digitBase ^ nbdone * hsum
      have hcarry : c = 0 := by
        by_contra hne
        obtain rfl : c = 1 := by omega
        have hlow : seg digitBase b.obDigit 0 (nbdone + nbtouse) < digitBase ^ b.absSize :=
          seg_lt_pow_of_le digitBase_pos (hb.below.mono (by omega)) (by omega)
        have hlt : a.mag * seg digitBase b.obDigit 0 (nbdone + nbtouse) < digitBase ^ (a.absSize + b.absSize) := by
          rw [pow_add]
          exact Nat.mul_lt_mul'' ha.mag_lt hlow
        omega
      rw [hcarry, Nat.zero_mul, Nat.add_zero] at htotal
      refine Ends.pure ⟨⟨by dsimp only; omega, hsliceLen', by dsimp only; omega, ?_, htotal⟩, by dsimp only; omega⟩
      exact hbelow.sameOut hout hbelow'
    · obtain rfl : nbdone = b.absSize := by omega
      exact Ends.pure ⟨hretLen, hbelow, hval⟩
  rintro r ⟨hlen, hbelow, hval⟩
  exact (intNormalize_pos hlen.ge hbelow).mono fun z ⟨hz, hzval⟩ => ⟨hz, by rw [hzval, hval]⟩

/-- The middle of a Karatsuba product: the three in-place operations lose no carry in the end, because the value
that they leave has room. `M` is the middle before them, `M'` after them, `L` the digits below. -/
theorem karatsuba_middle {P Q L M M' T₁ T₂ T₃ AB b₁ b₂ c : ℤ} (hP : 0 < P) (hL : 0 ≤ L) (hLP : L < P)
    (hM : 0 ≤ M') (hMQ : M' < Q) (hAB : 0 ≤ AB) (hABQ : AB < P * Q)
    (hval : M' + c * Q + T₁ + T₂ = M + T₃ + (b₁ + b₂) * Q) (hprod : L + P * (M + T₃ - T₁ - T₂) = AB) :
    L + P * M' = AB := by
  have hD : M + T₃ - T₁ - T₂ = M' + (c - b₁ - b₂) * Q := by linarith
  rw [hD] at hprod
  have hlow : -1 < M' + (c - b₁ - b₂) * Q := by
    by_contra hneg
    have : P * (M' + (c - b₁ - b₂) * Q) ≤ P * -1 := mul_le_mul_of_nonneg_left (by omega) hP.le
    linarith
  have hhigh : M' + (c - b₁ - b₂) * Q < Q := by
    by_contra hge
    have : P * Q ≤ P * (M' + (c - b₁ - b₂) * Q) := mul_le_mul_of_nonneg_left (by omega) hP.le
    linarith
  have hzero : c - b₁ - b₂ = 0 := top_eq_zero hM hMQ (by omega) hhigh rfl
  rw [hzero, zero_mul, add_zero] at hprod
  exact hprod

theorem kMulSplit_ends {mul : Bool → DeeInt → DeeInt → Option DeeInt} {same : Bool} {a b : DeeInt}
    (ha : a.Canonical) (hb : b.WF) (hsame : same = true → a = b) (hcut : karatsubaCutoff < a.absSize)
    (hle : a.absSize ≤ b.absSize) (hsize : b.absSize < 2 * a.absSize)
    (hmul : Multiplies mul (a.absSize + b.absSize)) :
    Ends (kMulSplit mul same a b) fun z => IsNat z (a.mag * b.mag) := by
  unfold kMulSplit
  dsimp only
  rw [Nat.shiftRight_eq_div_pow, pow_one]
  have hs2 : 2 ≤ b.absSize / 2 := by unfold karatsubaCutoff at hcut; omega
  have hsa : b.absSize / 2 + 1 ≤ a.absSize := by omega
  have hsb : b.absSize / 2 + b.absSize / 2 ≤ b.absSize := by omega
  generalize b.absSize / 2 = s at hs2 hsa hsb ⊢
  have hamag : a.mag = seg digitBase a.obDigit 0 s + digitBase ^ s * seg digitBase a.obDigit s (a.absSize - s) := by
    have := seg_add (B := digitBase) (l := a.obDigit) (s := 0) (m := s) (n := a.absSize - s)
    rwa [Nat.add_sub_cancel' (by omega), Nat.zero_add] at this
  have hbmag : b.mag = seg digitBase b.obDigit 0 s + digitBase ^ s * seg digitBase b.obDigit s (b.absSize - s) := by
    have := seg_add (B := digitBase) (l := b.obDigit) (s := 0) (m := s) (n := b.absSize - s)
    rwa [Nat.add_sub_cancel' (by omega), Nat.zero_add] at this
  have hAL : seg digitBase a.obDigit 0 s < digitBase ^ s := seg_lt (ha.below.mono (by omega))
  have hBL : seg digitBase b.obDigit 0 s < digitBase ^ s := seg_lt (hb.below.mono (by omega))
  have hAH : seg digitBase a.obDigit s (a.absSize - s) < digitBase ^ (a.absSize - s) :=
    seg_lt fun i hi => ha.toWF.cell_lt (by omega)
  have hBH : seg digitBase b.obDigit s (b.absSize - s) < digitBase ^ (b.absSize - s) :=
    seg_lt fun i hi => hb.cell_lt (by omega)
  have hAHpos : 0 < seg digitBase a.obDigit s (a.absSize - s) := by
    obtain ⟨k, hk⟩ : ∃ k, a.absSize = s + (k + 1) := ⟨a.absSize - s - 1, by omega⟩
    have htop := ha.top (by omega)
    rw [hk, show s + (k + 1) - 1 = s + k by omega] at htop
    rw [show a.absSize - s = k + 1 by omega]
    exact lt_of_lt_of_le (Nat.pow_pos digitBase_pos) (le_seg htop)
  -- the halves
  refine Ends.bind (kmulSplit_ends ha.toWF (by omega)) ?_
  rintro ⟨ah, al⟩ ⟨hah, hal⟩
  dsimp only at hah hal ⊢
  rw [assert_of (hah.obSize_pos hAHpos), some_bind]
  refine Ends.bind (P := fun r => IsNat r.1 (seg digitBase b.obDigit s (b.absSize - s)) ∧
    IsNat r.2 (seg digitBase b.obDigit 0 s) ∧ (same = true → r = (ah, al))) ?_ ?_
  · split_ifs with h
    · obtain rfl := hsame h
      exact Ends.pure ⟨hah, hal, fun _ => rfl⟩
    · exact (kmulSplit_ends hb (by omega)).mono fun r ⟨h1, h2⟩ => ⟨h1, h2, fun hs => absurd hs h⟩
  rintro ⟨bh, bl⟩ ⟨hbh, hbl, heq⟩
  dsimp only at hbh hbl heq ⊢
  generalize hAHv : seg digitBase a.obDigit s (a.absSize - s) = AH at *
  generalize hALv : seg digitBase a.obDigit 0 s = AL at *
  generalize hBHv : seg digitBase b.obDigit s (b.absSize - s) = BH at *
  generalize hBLv : seg digitBase b.obDigit 0 s = BL at *
  have hahSize := hah.absSize_le hAH
  have halSize := hal.absSize_le hAL
  have hbhSize := hbh.absSize_le hBH
  have hblSize := hbl.absSize_le hBL
  refine Ends.bind (fillCells_ends (by simp)) fun ret₀ ⟨hout₀, _⟩ => ?_
  have hlen₀ : ret₀.length = a.absSize + b.absSize := by simpa using hout₀.length
  -- the product of the high halves, then of the low ones
  have hsame₁ : same = true → ah = bh := fun h => (Prod.ext_iff.mp (heq h)).1.symm
  have hsame₂ : same = true → al = bl := fun h => (Prod.ext_iff.mp (heq h)).2.symm
  refine Ends.bind (hmul same ah bh (.of_canonical hah.toCanonical hbh.toCanonical) hsame₁ (by omega))
    fun t₁ ht₁ => ?_
  rw [hah.mag_eq, hbh.mag_eq] at ht₁
  have ht₁Size : t₁.absSize ≤ a.absSize + b.absSize - 2 * s := by
    refine ht₁.absSize_le ?_
    rw [show a.absSize + b.absSize - 2 * s = a.absSize - s + (b.absSize - s) by omega, pow_add]
    exact Nat.mul_lt_mul'' hAH hBH
  have ht₁Nat := ht₁.toNat_obSize
  rw [assert_of ht₁.obSize_nonneg, some_bind, assert_of (by omega), some_bind]
  refine Ends.bind (placeDigits_ends ht₁ ht₁Size (by omega)) fun ret₁ ⟨hout₁, hbelow₁, hval₁⟩ => ?_
  have hlen₁ := hout₁.length
  refine Ends.bind (hmul same al bl (.of_canonical hal.toCanonical hbl.toCanonical) hsame₂ (by omega))
    fun t₂ ht₂ => ?_
  rw [hal.mag_eq, hbl.mag_eq] at ht₂
  have ht₂Size : t₂.absSize ≤ 2 * s := by
    refine ht₂.absSize_le ?_
    rw [two_mul, pow_add]
    exact Nat.mul_lt_mul'' hAL hBL
  have ht₂Nat := ht₂.toNat_obSize
  rw [assert_of ht₂.obSize_nonneg, some_bind, assert_of (by omega), some_bind]
  refine Ends.bind (placeDigits_ends ht₂ ht₂Size (by omega)) fun ret₂ ⟨hout₂, hbelow₂, hval₂⟩ => ?_
  have hlen₂ := hout₂.length
  have hall : Below digitBase ret₂ 0 (a.absSize + b.absSize) := fun j hj => by
    by_cases hjs : j < 2 * s
    · exact hbelow₂ j hjs
    · obtain ⟨k, rfl⟩ : ∃ k, j = 2 * s + k := ⟨j - 2 * s, by omega⟩
      rw [Nat.zero_add, hout₂.out _ (by omega)]
      exact hbelow₁ k (by omega)
  have hmid : ∀ {r : List ℕ}, Below digitBase r 0 (a.absSize + b.absSize) →
      Below digitBase r s (a.absSize + b.absSize - s) := fun {r} hr k hk => by
    have := hr (s + k) (by omega)
    rwa [Nat.zero_add] at this
  -- the three operations on the middle
  rw [ht₂Nat, ht₁Nat]
  refine Ends.bind (vIsub_ends (by omega) (by omega) (by have := ht₂.len; omega) (hmid hall) ht₂.below) ?_
  rintro ⟨c₃, ret₃⟩ ⟨⟨hc₃, hout₃, hbelow₃⟩, hval₃⟩
  dsimp only at hc₃ hout₃ hbelow₃ hval₃ ⊢
  have hlen₃ := hout₃.length
  refine Ends.bind (vIsub_ends (by omega) (by omega) (by have := ht₁.len; omega) hbelow₃ ht₁.below) ?_
  rintro ⟨c₄, ret₄⟩ ⟨⟨hc₄, hout₄, hbelow₄⟩, hval₄⟩
  dsimp only at hc₄ hout₄ hbelow₄ hval₄ ⊢
  have hlen₄ := hout₄.length
  refine Ends.bind (P := fun z => IsNat z (AH + AL)) ((xAdd_ends hah.toWF hal.toWF).mono fun z ⟨hz, hzv⟩ =>
    ⟨hz, by rw [hzv, hah.mag_eq, hal.mag_eq]; push_cast; rfl⟩) fun u hu => ?_
  refine Ends.bind (P := fun z => IsNat z (BH + BL) ∧ (same = true → u = z)) ?_ fun w ⟨hw, hsame₃⟩ => ?_
  · split_ifs with h
    · refine Ends.pure ⟨⟨hu.toCanonical, ?_⟩, fun _ => rfl⟩
      rw [hu.toInt_eq, ← hah.mag_eq, ← hal.mag_eq, hsame₁ h, hsame₂ h, hbh.mag_eq, hbl.mag_eq]
    · exact (xAdd_ends hbh.toWF hbl.toWF).mono fun z ⟨hz, hzv⟩ =>
        ⟨⟨hz, by rw [hzv, hbh.mag_eq, hbl.mag_eq]; push_cast; rfl⟩, fun hs => absurd hs h⟩
  have hpowLe : ∀ {m n : ℕ}, m ≤ n → digitBase ^ m ≤ digitBase ^ n := Nat.pow_le_pow_right digitBase_pos
  have huLt : AH + AL < 2 * digitBase ^ (a.absSize - 1) := by
    have h₁ := hpowLe (show a.absSize - s ≤ a.absSize - 1 by omega)
    have h₂ := hpowLe (show s ≤ a.absSize - 1 by omega)
    omega
  have hwLt : BH + BL < 2 * digitBase ^ (b.absSize - s) := by
    have h₁ := hpowLe (show s ≤ b.absSize - s by omega)
    omega
  have htwo : ∀ n : ℕ, 2 * digitBase ^ n ≤ digitBase ^ (n + 1) := fun n => by
    rw [pow_succ, Nat.mul_comm]
    exact Nat.mul_le_mul_left _ (by norm_num)
  have huSize : u.absSize ≤ a.absSize - 1 + 1 := hu.absSize_le (lt_of_lt_of_le huLt (htwo _))
  have hwSize : w.absSize ≤ b.absSize - s + 1 := hw.absSize_le (lt_of_lt_of_le hwLt (htwo _))
  refine Ends.bind (hmul same u w (.of_canonical hu.toCanonical hw.toCanonical) hsame₃ (by omega))
    fun t₃ ht₃ => ?_
  rw [hu.mag_eq, hw.mag_eq] at ht₃
  have ht₃Size : t₃.absSize ≤ a.absSize + b.absSize - s := by
    refine ht₃.absSize_le ?_
    calc (AH + AL) * (BH + BL) < 2 * digitBase ^ (a.absSize - 1) * (2 * digitBase ^ (b.absSize - s)) :=
          Nat.mul_lt_mul'' huLt hwLt
      _ = digitBase ^ (a.absSize - 1 + (b.absSize - s)) * 4 := by rw [pow_add]; ring
      _ ≤ digitBase ^ (a.absSize - 1 + (b.absSize - s)) * digitBase := Nat.mul_le_mul_left _ (by norm_num)
      _ = digitBase ^ (a.absSize + b.absSize - s) := by rw [← pow_succ]; congr 1; omega
  rw [assert_of ht₃.obSize_nonneg, some_bind, ht₃.toNat_obSize]
  refine Ends.bind (vIadd_ends ht₃Size (by omega) (by have := ht₃.len; omega) hbelow₄ ht₃.below) ?_
  rintro ⟨c₅, ret₅⟩ ⟨⟨hc₅, hout₅, hbelow₅⟩, hval₅⟩
  dsimp only at hc₅ hout₅ hbelow₅ hval₅ ⊢
  have hlen₅ := hout₅.length
  have hout : SameOut ret₂ ret₅ s (a.absSize + b.absSize - s) := (hout₃.trans hout₄).trans hout₅
  refine (intNormalize_pos (by omega) (hall.sameOut hout hbelow₅)).mono fun z ⟨hz, hzval⟩ => ⟨hz, ?_⟩
  rw [hzval]
  -- the values
  have ht₁Mag : seg digitBase t₁.obDigit 0 t₁.absSize = AH * BH := ht₁.mag_eq
  have ht₂Mag : seg digitBase t₂.obDigit 0 t₂.absSize = AL * BL := ht₂.mag_eq
  have ht₃Mag : seg digitBase t₃.obDigit 0 t₃.absSize = (AH + AL) * (BH + BL) := ht₃.mag_eq
  rw [ht₂Mag] at hval₃
  rw [ht₁Mag] at hval₄
  rw [ht₃Mag] at hval₅
  have hsplit : ∀ r : List ℕ, seg digitBase r 0 (a.absSize + b.absSize) =
      seg digitBase r 0 s + digitBase ^ s * seg digitBase r s (a.absSize + b.absSize - s) := fun r => by
    have := seg_add (B := digitBase) (l := r) (s := 0) (m := s) (n := a.absSize + b.absSize - s)
    rwa [Nat.add_sub_cancel' (by omega), Nat.zero_add] at this
  have hlow : seg digitBase ret₅ 0 s = seg digitBase ret₂ 0 s := seg_congr fun j hj => hout.out _ (by omega)
  have hstart : seg digitBase ret₂ 0 (a.absSize + b.absSize) = AL * BL + digitBase ^ (2 * s) * (AH * BH) := by
    have h := seg_add (B := digitBase) (l := ret₂) (s := 0) (m := 2 * s) (n := a.absSize + b.absSize - 2 * s)
    have hhigh : seg digitBase ret₂ (2 * s) (a.absSize + b.absSize - 2 * s) =
        seg digitBase ret₁ (2 * s) (a.absSize + b.absSize - 2 * s) := seg_congr fun j hj => hout₂.out _ (by omega)
    rwa [Nat.add_sub_cancel' (by omega), Nat.zero_add, hval₂, hhigh, hval₁] at h
  rw [hsplit] at hstart ⊢
  rw [hlow]
  have hlimit : a.mag * b.mag < digitBase ^ s * digitBase ^ (a.absSize + b.absSize - s) := by
    rw [← pow_add, Nat.add_sub_cancel' (by omega), pow_add]
    exact Nat.mul_lt_mul'' ha.mag_lt hb.mag_lt
  have hsum : (seg digitBase ret₅ s (a.absSize + b.absSize - s) : ℤ) +
      c₅ * (digitBase : ℤ) ^ (a.absSize + b.absSize - s) + AH * BH + AL * BL =
      seg digitBase ret₂ s (a.absSize + b.absSize - s) + (AH + AL) * (BH + BL) +
        (c₃ + c₄) * (digitBase : ℤ) ^ (a.absSize + b.absSize - s) := by
    zify at hval₃ hval₄ hval₅
    push_cast
    linear_combination hval₃ + hval₄ + hval₅
  have hprod : (seg digitBase ret₂ 0 s : ℤ) + (digitBase : ℤ) ^ s *
      (seg digitBase ret₂ s (a.absSize + b.absSize - s) + (AH + AL) * (BH + BL) - AH * BH - AL * BL) =
      a.mag * b.mag := by
    zify at hstart hamag hbmag
    rw [hamag, hbmag]
    push_cast
    linear_combination hstart
  exact_mod_cast karatsuba_middle (by positivity) (by positivity)
    (by exact_mod_cast seg_lt (hall.mono (by omega))) (by positivity) (by exact_mod_cast seg_lt hbelow₅)
    (by positivity) (by exact_mod_cast hlimit) hsum hprod

theorem kMulOrdered_ends {mul : Bool → DeeInt → DeeInt → Option DeeInt} {same : Bool} {a b : DeeInt}
    (h : MulReady a b) (hsame : same = true → a = b) (hle : a.absSize ≤ b.absSize)
    (hmul : Multiplies mul (a.absSize + b.absSize)) :
    Ends (kMulOrdered mul same a b) fun z => IsNat z (a.mag * b.mag) := by
  unfold kMulOrdered
  by_cases hcut : a.absSize ≤ (if same then karatsubaSquareCutoff else karatsubaCutoff)
  · rw [if_pos hcut]
    split_ifs with hzero
    · refine Ends.pure ⟨deeIntNewZero_canonical.1, ?_⟩
      rw [deeIntNewZero_canonical.2, mag_of_absSize_zero hzero, Nat.zero_mul]
      rfl
    · exact (xMul_ends h.left.toWF h.right hsame).mono fun z ⟨hz, hval⟩ => ⟨hz, by rw [hval]; push_cast; rfl⟩
  · rw [if_neg hcut]
    have hcut' : karatsubaCutoff < a.absSize := by
      unfold karatsubaSquareCutoff karatsubaCutoff at hcut
      unfold karatsubaCutoff
      split at hcut <;> omega
    split_ifs with hlop
    · rcases h.rightTop with hb | heq
      · exact kLopsidedMul_ends h.left hb hcut' hlop hmul
      · omega
    · exact kMulSplit_ends h.left h.right hsame hcut' hle (by omega) hmul

theorem kMulFuel_ends (fuel : ℕ) : Multiplies (kMulFuel fuel) fuel := by
  induction fuel with
  | zero => intro same a b _ _ hlt; omega
  | succ fuel ih =>
    intro same a b hready hsame hlt
    have ih' : Multiplies (kMulFuel fuel) (a.absSize + b.absSize) :=
      fun same a' b' hready' hsame' hlt' => ih same a' b' hready' hsame' (by omega)
    unfold kMulFuel
    split_ifs with hswap
    · have h : MulReady b a := by
        rcases hready.rightTop with hb | heq
        · exact .of_canonical hb hready.left
        · omega
      refine (kMulOrdered_ends h (fun hs => (hsame hs).symm) hswap.le ?_).mono fun z hz => ?_
      · rwa [Nat.add_comm]
      · rwa [Nat.mul_comm]
    · exact kMulOrdered_ends hready hsame (by omega) ih'

theorem kMul_ends {same : Bool} {a b : DeeInt} (ha : a.Canonical) (hb : b.Canonical) (hsame : same = true → a = b) :
    Ends (kMul same a b) fun z => IsNat z (a.mag * b.mag) :=
  kMulFuel_ends _ same a b (.of_canonical ha hb) hsame (Nat.lt_succ_self _)

theorem intMul_ends {same : Bool} {isShared : DeeInt → Bool} {a b : DeeInt} (ha : a.Canonical) (hb : b.Canonical)
    (hsame : same = true → a = b) :
    Ends (intMul same isShared a b) fun z => z.Canonical ∧ z.toInt = a.toInt * b.toInt := by
  unfold intMul
  by_cases hsmall : a.absSize ≤ 1 ∧ b.absSize ≤ 1
  · rw [if_pos hsmall]
    obtain ⟨ha1, ha2, ha3⟩ := mediumValue_eq ha hsmall.1
    obtain ⟨hb1, hb2, hb3⟩ := mediumValue_eq hb hsmall.2
    have habs : |a.toInt * b.toInt| ≤ digitBase * digitBase := by
      rw [abs_mul]
      exact mul_le_mul (abs_le.mpr ⟨ha2.le, ha3.le⟩) (abs_le.mpr ⟨hb2.le, hb3.le⟩) (abs_nonneg _) (by positivity)
    have hfit := abs_le.mp habs
    rw [ha1, hb1, some_bind, some_bind, sfits_of (by unfold digitBase at hfit; norm_num at hfit ⊢; omega), some_bind]
    exact newSigned_ends _
  · rw [if_neg hsmall]
    refine Ends.bind (kMul_ends ha hb hsame) fun z hz => ?_
    by_cases hsign : a.obSize < 0 ↔ b.obSize < 0
    · rw [if_neg (not_not.mpr hsign)]
      refine Ends.pure ⟨hz.toCanonical, ?_⟩
      rw [hz.toInt_eq]
      by_cases hna : a.obSize < 0
      · rw [toInt_of_neg hna, toInt_of_neg (x := b) (by omega)]
        push_cast
        ring
      · rw [toInt_of_nonneg (x := a) (by omega), toInt_of_nonneg (x := b) (by omega)]
        push_cast
        rfl
    · rw [if_pos hsign]
      refine (intNegInherit_ends hz.toCanonical).mono fun z' ⟨hz', hval⟩ => ⟨hz', ?_⟩
      rw [hval, hz.toInt_eq]
      by_cases hna : a.obSize < 0
      · rw [toInt_of_neg hna, toInt_of_nonneg (x := b) (by omega)]
        push_cast
        ring
      · rw [toInt_of_nonneg (x := a) (by omega), toInt_of_neg (x := b) (by omega)]
        push_cast
        ring

/-! ### Ring arithmetic -/

/-- Addition, subtraction and multiplication are exact, and no run of theirs breaks a check: digits and double
digits do not wrap, assertions hold, indices are inside their buffers. The one difference that may wrap is
`borrowSub`, the borrow of `x_sub` and `v_isub`. -/
theorem int_ring_exact (a b : DeeInt) (ha : a.Canonical) (hb : b.Canonical) (same : Bool)
    (isShared : DeeInt → Bool) (hsame : same = true → a = b) :
    (Ends (intAdd a b) fun z => z.Canonical ∧ z.toInt = a.toInt + b.toInt) ∧
    (Ends (intSub a b) fun z => z.Canonical ∧ z.toInt = a.toInt - b.toInt) ∧
    (Ends (intMul same isShared a b) fun z => z.Canonical ∧ z.toInt = a.toInt * b.toInt) :=
  ⟨intAdd_ends ha hb, intSub_ends ha hb, intMul_ends ha hb hsame⟩

theorem int_ring_exact_carry :
    (Ends (intAdd ⟨2, [1, 1]⟩ ⟨-1, [2]⟩) fun z => z.Canonical ∧ z.toInt = 2 ^ 30 - 1) ∧
    (Ends (intSub ⟨2, [1, 1]⟩ ⟨-1, [2]⟩) fun z => z.Canonical ∧ z.toInt = 2 ^ 30 + 3) ∧
    (Ends (intMul false (fun _ => false) ⟨2, [1, 1]⟩ ⟨-1, [2]⟩) fun z => z.Canonical ∧ z.toInt = -(2 ^ 31 + 2)) :=
  int_ring_exact ⟨2, [1, 1]⟩ ⟨-1, [2]⟩ (by decide) (by decide) false (fun _ => false) (by decide)

/-- `2 ^ 30 - 1` takes a borrow out of digit 0, and the 32-bit difference that shows it has wrapped. -/
theorem intSub_borrow_wraps :
    ¬ Ends (intSubWith exactSub ⟨2, [0, 1]⟩ ⟨1, [1]⟩) fun z => z.Canonical ∧ z.toInt = 2 ^ 30 - 1 := by
  have hrun : intSubWith exactSub ⟨2, [0, 1]⟩ ⟨1, [1]⟩ = none := by decide
  rintro ⟨z, hz, -⟩
  rw [hrun] at hz
  cases hz

end Deemon.Int
