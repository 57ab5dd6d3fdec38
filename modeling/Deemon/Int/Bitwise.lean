import Deemon.Int.Shift
import Deemon.Lib.Bits

/-!
# Bitwise operators

`v_complement` and `int_bitwise`, behind `int_and`, `int_or` and `int_xor`. A negative operand is complemented into
a buffer of its own size, so that the digits and the sign are its two's complement; the digits are combined as far
as the shorter operand goes, the rest depends on the sign of that operand, and a negative result is complemented
back with one digit more.
-/

namespace Deemon.Int

open Deemon.Run Deemon.Radix Deemon.Bits DeeInt

/-- `v_complement(z, a, m)`. -/
def vComplement (z a : List ℕ) (m : ℕ) : Option (List ℕ) := do
  let (carry, z) ← forLoop (fun i (carry, z) => do
    addRound 32 z i carry ((← rd a i) ^^^ digitMask)) 0 m (1, z)
  assert (carry = 0)
  some z

/-- The operators of `int_bitwise`. -/
inductive BitOp where
  /-- `INT_BITWISE_AND`. -/
  | and
  /-- `INT_BITWISE_OR`. -/
  | or
  /-- `INT_BITWISE_XOR`. -/
  | xor
  deriving DecidableEq, Repr

/-- The operator on digits. -/
def BitOp.digit : BitOp → ℕ → ℕ → ℕ
  | .and, x, y => x &&& y
  | .or, x, y => x ||| y
  | .xor, x, y => x ^^^ y

/-- The operator on signs. -/
def BitOp.bit : BitOp → Bool → Bool → Bool
  | .and, x, y => x && y
  | .or, x, y => x || y
  | .xor, x, y => x ^^ y

/-- `size_z`: how many digits the two's complement of the result has. -/
def BitOp.size : BitOp → Bool → ℕ → ℕ → ℕ
  | .and, negb, sizeA, sizeB => if negb then sizeA else sizeB
  | .or, negb, sizeA, sizeB => if negb then sizeB else sizeA
  | .xor, _, sizeA, _ => sizeA

/-- `int_bitwise` from the choice of the size on, for operands of two's complement digits in order of size. -/
def intBitwiseOrdered (op : BitOp) (a : List ℕ) (sizeA : ℕ) (nega : Bool) (b : List ℕ) (sizeB : ℕ) (negb : Bool) :
    Option DeeInt := do
  let negz := op.bit nega negb
  let sizeZ := op.size negb sizeA sizeB
  let z := deeIntAlloc (sizeZ + if negz then 1 else 0)
  let digits ← forLoop (fun i digits => do
    wr digits i (op.digit (← rd a i) (← rd b i))) 0 sizeB z.obDigit
  let digits ← (if op = .xor ∧ negb then
      forLoop (fun i digits => do wr digits i ((← rd a i) ^^^ digitMask)) sizeB (sizeZ - sizeB) digits
    else copyCells digits sizeB a sizeB (sizeZ - sizeB))
  if negz then do
    let digits ← wr digits sizeZ digitMask
    let digits ← vComplement digits digits (sizeZ + 1)
    intNormalize ⟨-z.obSize, digits⟩
  else
    intNormalize ⟨z.obSize, digits⟩

/-- The digits of an operand of `int_bitwise`: those of its two's complement. -/
def bitwiseOperand (a : DeeInt) : Option (List ℕ) :=
  if a.obSize < 0 then vComplement (deeIntAlloc a.absSize).obDigit a.obDigit a.absSize else some a.obDigit

/-- `int_bitwise`. -/
def intBitwise (a : DeeInt) (op : BitOp) (b : DeeInt) : Option DeeInt := do
  let da ← bitwiseOperand a
  let db ← bitwiseOperand b
  if a.absSize < b.absSize then
    intBitwiseOrdered op db b.absSize (b.obSize < 0) da a.absSize (a.obSize < 0)
  else
    intBitwiseOrdered op da a.absSize (a.obSize < 0) db b.absSize (b.obSize < 0)

/-- `int_and`. -/
def intAnd (a b : DeeInt) : Option DeeInt := intBitwise a .and b

/-- `int_or`. -/
def intOr (a b : DeeInt) : Option DeeInt := intBitwise a .or b

/-- `int_xor`. -/
def intXor (a b : DeeInt) : Option DeeInt := intBitwise a .xor b

/-! ### Complements -/

theorem xor_digitMask {x : ℕ} (hx : x < digitBase) : x ^^^ digitMask = digitMask - x := by
  have h : x ^^^ digitMask = 2 ^ 30 - (x + 1) := Nat.eq_of_testBit_eq fun i => by
    rw [Nat.testBit_two_pow_sub_succ hx, Nat.testBit_xor, Nat.testBit_two_pow_sub_one]
    by_cases hi : i < 30
    · simp [hi]
    · have hbit : x.testBit i = false :=
        Nat.testBit_eq_false_of_lt (lt_of_lt_of_le hx (Nat.pow_le_pow_right (by norm_num) (by omega)))
      simp [hi, hbit]
  rw [h]
  unfold digitMask
  omega

theorem vComplement_ends {z a : List ℕ} {m : ℕ} (ha : Below digitBase a 0 m) (halen : m ≤ a.length)
    (hzlen : m ≤ z.length) (hpos : 0 < seg digitBase a 0 m) :
    Ends (vComplement z a m) fun r => SameOut z r 0 m ∧ Below digitBase r 0 m ∧
      seg digitBase r 0 m + seg digitBase a 0 m = digitBase ^ m := by
  unfold vComplement
  refine Ends.bind (P := fun r => SameOut z r.2 0 m ∧ Below digitBase r.2 0 m ∧
    seg digitBase r.2 0 m + r.1 * digitBase ^ m + seg digitBase a 0 m = digitBase ^ m) ?_ ?_
  · have hloop := forLoop_ends_zero (f := fun i (r : ℕ × List ℕ) => do
        addRound 32 r.2 i r.1 ((← rd a i) ^^^ digitMask)) (n := m) (s := (1, z)) (fun i r => r.1 ≤ 1 ∧
      SameOut z r.2 0 i ∧ ∃ v, Carried z.length 0 i v r ∧ v + seg digitBase a 0 i = digitBase ^ i) ?_ ?_
    · refine hloop.mono ?_
      rintro ⟨c, r⟩ ⟨-, hout, v, hrow, hv⟩
      exact ⟨hout, hrow.below, by rw [hrow.value, hv]⟩
    · exact ⟨le_rfl, SameOut.refl, 1, ⟨rfl, fun i hi => by omega, by simp⟩, by simp⟩
    rintro i ⟨c, r⟩ hi ⟨hc, hout, v, hrow, hv⟩
    dsimp only at hc hout ⊢
    have hlen := hout.length
    have hai := ha i hi
    rw [Nat.zero_add] at hai
    rw [rd_of_lt (by omega), some_bind, xor_digitMask hai]
    have hround := addRound_ends (w := 32) (x := digitMask - cell a i) hrow (by omega) (by
      unfold digitMask
      omega)
    rw [Nat.zero_add] at hround
    refine hround.mono fun r' ⟨hrow', hc', hout'⟩ => ⟨?_, ?_, _, hrow', ?_⟩
    · rw [hc']
      unfold digitBase digitMask
      omega
    · exact (hout.mono le_rfl (by omega)).trans (hout'.mono (by omega) (by omega))
    · have hsum : digitMask - cell a i + cell a i + 1 = digitBase := by
        unfold digitBase digitMask at *
        omega
      rw [seg_succ, Nat.zero_add, pow_succ]
      linear_combination hv + digitBase ^ i * hsum
  rintro ⟨c, r⟩ ⟨hout, hbelow, hval⟩
  dsimp only at hout hbelow hval ⊢
  have hc : c = 0 := by
    by_contra hne
    have : 1 * digitBase ^ m ≤ c * digitBase ^ m := Nat.mul_le_mul_right _ (by omega)
    omega
  rw [assert_of hc, some_bind]
  rw [hc, Nat.zero_mul, Nat.add_zero] at hval
  exact Ends.pure ⟨hout, hbelow, hval⟩

/-- `d` holds the two's complement of `x` in `n` digits, with the sign `neg`. -/
structure IsTwoComp (x : ℤ) (d : List ℕ) (n : ℕ) (neg : Bool) : Prop where
  len : n ≤ d.length
  below : Below digitBase d 0 n
  value : x = twoComp (digitBits * n) (seg digitBase d 0 n) neg

theorem two_pow_digitBits (n : ℕ) : 2 ^ (digitBits * n) = digitBase ^ n := pow_mul 2 30 n

theorem IsTwoComp.testBit {x : ℤ} {d : List ℕ} {n : ℕ} {neg : Bool} (h : IsTwoComp x d n neg) (i : ℕ) :
    x.testBit i = if i < digitBits * n then (cell d (i / digitBits)).testBit (i % digitBits) else neg := by
  rw [h.value, testBit_twoComp (by rw [two_pow_digitBits]; exact seg_lt h.below)]
  have hseg := testBit_seg (w := digitBits) h.below i
  rw [Nat.zero_add] at hseg
  rw [hseg]
  split_ifs <;> rfl

theorem bitwiseOperand_ends {a : DeeInt} (ha : a.Canonical) :
    Ends (bitwiseOperand a) fun d => IsTwoComp a.toInt d a.absSize (decide (a.obSize < 0)) := by
  unfold bitwiseOperand
  split_ifs with hneg
  · have hpos : 0 < a.mag := ha.mag_pos (by unfold absSize; omega)
    refine (vComplement_ends ha.below ha.len (by simp) hpos).mono fun d ⟨hout, hbelow, hval⟩ => ?_
    refine ⟨by simpa using hout.length.ge, hbelow, ?_⟩
    have hmag : seg digitBase a.obDigit 0 a.absSize = a.mag := rfl
    rw [hmag] at hval
    rw [toInt_of_neg hneg, twoComp, decide_eq_true hneg, if_pos rfl]
    have h2 : ((2 : ℤ) ^ (digitBits * a.absSize)) = (digitBase : ℤ) ^ a.absSize := by
      exact_mod_cast two_pow_digitBits a.absSize
    rw [h2]
    have hval' : (seg digitBase d 0 a.absSize : ℤ) + a.mag = (digitBase : ℤ) ^ a.absSize := by exact_mod_cast hval
    linarith
  · refine Ends.pure ⟨ha.len, ha.below, ?_⟩
    rw [toInt_of_nonneg (by omega), twoComp, decide_eq_false hneg, if_neg (by simp), sub_zero]
    rfl

/-! ### Digits and bits -/

theorem BitOp.testBit_digit (op : BitOp) (x y i : ℕ) :
    (op.digit x y).testBit i = op.bit (x.testBit i) (y.testBit i) := by
  cases op with
  | and => exact Nat.testBit_and x y i
  | or => exact Nat.testBit_or x y i
  | xor => exact Nat.testBit_xor x y i

theorem BitOp.digit_lt (op : BitOp) {x y : ℕ} (hx : x < digitBase) (hy : y < digitBase) :
    op.digit x y < digitBase := by
  cases op with
  | and => exact Nat.and_lt_two_pow x hy
  | or => exact Nat.or_lt_two_pow hx hy
  | xor => exact Nat.xor_lt_two_pow hx hy

theorem BitOp.bit_comm (op : BitOp) (x y : Bool) : op.bit x y = op.bit y x := by
  cases op <;> cases x <;> cases y <;> rfl

/-- The digit of the result behind the shorter operand. -/
def BitOp.tailDigit (op : BitOp) (negb : Bool) (x : ℕ) : ℕ := if op = .xor ∧ negb then x ^^^ digitMask else x

/-- The digits of the result: those of both operands as far as the shorter one goes, then those of the longer. -/
structure Combined (op : BitOp) (negb : Bool) (a b : List ℕ) (sizeB sizeZ : ℕ) (d : List ℕ) : Prop where
  both : ∀ j < sizeB, cell d j = op.digit (cell a j) (cell b j)
  tail : ∀ j < sizeZ, sizeB ≤ j → cell d j = op.tailDigit negb (cell a j)

theorem BitOp.size_bounds (op : BitOp) (negb : Bool) {sizeA sizeB : ℕ} (h : sizeB ≤ sizeA) :
    sizeB ≤ op.size negb sizeA sizeB ∧ op.size negb sizeA sizeB ≤ sizeA := by
  cases op <;> cases negb <;> simp [BitOp.size, h]

theorem BitOp.tailDigit_lt (op : BitOp) (negb : Bool) {x : ℕ} (hx : x < digitBase) :
    op.tailDigit negb x < digitBase := by
  unfold BitOp.tailDigit
  split_ifs
  · exact Nat.xor_lt_two_pow hx (by norm_num)
  · exact hx

theorem Combined.below {op : BitOp} {negb : Bool} {a b d : List ℕ} {sizeA sizeB sizeZ : ℕ}
    (h : Combined op negb a b sizeB sizeZ d) (ha : Below digitBase a 0 sizeA) (hb : Below digitBase b 0 sizeB)
    (hZ : sizeZ ≤ sizeA) : Below digitBase d 0 sizeZ := fun j hj => by
  rw [Nat.zero_add]
  have haj := ha j (by omega)
  rw [Nat.zero_add] at haj
  by_cases hjB : j < sizeB
  · have hbj := hb j hjB
    rw [Nat.zero_add] at hbj
    rw [h.both j hjB]
    exact op.digit_lt haj hbj
  · rw [h.tail j hj (by omega)]
    exact op.tailDigit_lt negb haj

/-- The digits of the result and its sign are its two's complement, bit for bit. -/
theorem Combined.testBit {op : BitOp} {x y : ℤ} {a b d : List ℕ} {sizeA sizeB : ℕ} {nega negb : Bool}
    (hx : IsTwoComp x a sizeA nega) (hy : IsTwoComp y b sizeB negb) (hB : sizeB ≤ sizeA)
    (h : Combined op negb a b sizeB (op.size negb sizeA sizeB) d) (i : ℕ) :
    (twoComp (digitBits * op.size negb sizeA sizeB) (seg digitBase d 0 (op.size negb sizeA sizeB))
      (op.bit nega negb)).testBit i = op.bit (x.testBit i) (y.testBit i) := by
  have hbound := op.size_bounds negb hB
  have hbelow := h.below hx.below hy.below hbound.2
  have hdiv : ∀ n, i < digitBits * n ↔ i / digitBits < n := fun n => by
    rw [Nat.div_lt_iff_lt_mul (by norm_num), Nat.mul_comm]
  rw [testBit_twoComp (by rw [two_pow_digitBits]; exact seg_lt hbelow), hx.testBit, hy.testBit]
  have hseg := testBit_seg (w := digitBits) hbelow i
  rw [Nat.zero_add] at hseg
  rw [hseg]
  simp only [hdiv]
  by_cases hiB : i / digitBits < sizeB
  · -- a digit of both operands
    rw [if_pos (by omega), if_pos (by omega), if_pos (by omega), if_pos hiB, h.both _ hiB, op.testBit_digit]
  rw [if_neg hiB]
  by_cases hiZ : i / digitBits < op.size negb sizeA sizeB
  · -- a digit of the longer operand, with the sign of the shorter one
    have hmask : digitMask.testBit (i % digitBits) = true := by
      rw [Nat.testBit_two_pow_sub_one]
      exact decide_eq_true (Nat.mod_lt _ (by norm_num))
    rw [if_pos hiZ, if_pos hiZ, if_pos (by omega), h.tail _ hiZ (by omega)]
    cases op <;> cases negb <;> simp_all [BitOp.tailDigit, BitOp.bit, BitOp.size, Nat.testBit_xor]
    all_goals omega
  · -- the signs alone, or a digit that the sign of the shorter operand overrules
    rw [if_neg hiZ]
    cases op <;> cases negb <;> simp_all [BitOp.bit, BitOp.size]

theorem intBitwiseOrdered_ends {op : BitOp} {x y : ℤ} {a b : List ℕ} {sizeA sizeB : ℕ} {nega negb : Bool}
    (hx : IsTwoComp x a sizeA nega) (hy : IsTwoComp y b sizeB negb) (hB : sizeB ≤ sizeA) :
    Ends (intBitwiseOrdered op a sizeA nega b sizeB negb) fun z => z.Canonical ∧
      ∀ i, z.toInt.testBit i = op.bit (x.testBit i) (y.testBit i) := by
  have hbound := op.size_bounds negb hB
  have hcomb : ∀ {d : List ℕ}, Combined op negb a b sizeB (op.size negb sizeA sizeB) d → ∀ i, _ :=
    fun {d} h => Combined.testBit hx hy hB h
  have halen := hx.len
  have hblen := hy.len
  unfold intBitwiseOrdered
  dsimp only
  generalize hZ : op.size negb sizeA sizeB = sizeZ at *
  generalize op.bit nega negb = negz at *
  have hroom : sizeZ ≤ sizeZ + (if negz = true then 1 else 0) := Nat.le_add_right _ _
  refine Ends.bind (P := fun d => d.length = sizeZ + (if negz = true then 1 else 0) ∧
    ∀ j < sizeB, cell d j = op.digit (cell a j) (cell b j)) ?_ fun d ⟨hlen, hboth⟩ => ?_
  · refine forLoop_ends_zero (fun i d => d.length = sizeZ + (if negz = true then 1 else 0) ∧
      ∀ j < i, cell d j = op.digit (cell a j) (cell b j)) ⟨?_, fun j hj => by omega⟩ ?_
    · simp
    rintro i d hi ⟨hlen, hcells⟩
    rw [rd_of_lt (by omega), some_bind, rd_of_lt (by omega), some_bind, wr_of_lt (by omega)]
    refine Ends.pure ⟨by simpa using hlen, fun j hj => ?_⟩
    rcases Nat.lt_succ_iff_lt_or_eq.mp hj with hj | rfl
    · rw [cell_set_of_ne (by omega), hcells j hj]
    · exact cell_set_self (by omega)
  refine Ends.bind (P := fun d' => d'.length = sizeZ + (if negz = true then 1 else 0) ∧
    Combined op negb a b sizeB sizeZ d') ?_ fun d' ⟨hlen', hd'⟩ => ?_
  · by_cases hxor : op = .xor ∧ negb = true
    · rw [if_pos hxor]
      have hloop := forLoop_ends (f := fun i digits => do wr digits i ((← rd a i) ^^^ digitMask)) (a := sizeB)
        (n := sizeZ - sizeB) (s := d) (fun i d' => d'.length = sizeZ + (if negz = true then 1 else 0) ∧
          Combined op negb a b sizeB i d') ⟨hlen, hboth, fun j hj hle => by omega⟩ ?_
      · rwa [Nat.add_sub_cancel' hbound.1] at hloop
      rintro i d' hlo hi ⟨hlen', hd'⟩
      rw [rd_of_lt (by omega), some_bind, wr_of_lt (by omega)]
      refine Ends.pure ⟨by simpa using hlen', fun j hj => ?_, fun j hj hle => ?_⟩
      · rw [cell_set_of_ne (by omega), hd'.both j hj]
      · rcases Nat.lt_succ_iff_lt_or_eq.mp hj with hj | rfl
        · rw [cell_set_of_ne (by omega), hd'.tail j hj hle]
        · rw [cell_set_self (by omega), BitOp.tailDigit, if_pos hxor]
    · rw [if_neg hxor]
      refine (copyCells_ends (by omega) (by omega)).mono fun d' ⟨hout, hin⟩ =>
        ⟨hout.length.trans hlen, fun j hj => ?_, fun j hj hle => ?_⟩
      · rw [hout.out _ (by omega), hboth j hj]
      · have := hin (j - sizeB) (by omega)
        rw [Nat.add_sub_cancel' hle] at this
        rw [this, BitOp.tailDigit, if_neg hxor]
  have hbits := hcomb hd'
  have hbelow := hd'.below hx.below hy.below (by omega)
  cases negz with
  | false =>
    rw [if_neg (by simp), deeIntAlloc_obSize]
    simp only [Bool.false_eq_true, if_false, Nat.add_zero] at hlen' ⊢
    refine (intNormalize_pos hlen'.ge hbelow).mono fun z ⟨hz, hzv⟩ => ⟨hz, fun i => ?_⟩
    rw [← hbits i, hzv, twoComp, if_neg (by simp), sub_zero]
  | true =>
    simp only [if_true] at hlen' ⊢
    rw [wr_of_lt (by omega), some_bind, deeIntAlloc_obSize]
    have hset := seg_set_last (B := digitBase) (l := d') (s := 0) (n := sizeZ) (v := digitMask) (by omega)
    rw [Nat.zero_add] at hset
    have hbelow' : Below digitBase (d'.set sizeZ digitMask) 0 (sizeZ + 1) := by
      refine (hbelow.set (by unfold digitBase digitMask; omega)).succ ?_
      rw [Nat.zero_add, cell_set_self (by omega)]
      unfold digitBase digitMask
      omega
    have hpos : 0 < seg digitBase (d'.set sizeZ digitMask) 0 (sizeZ + 1) := by
      have : 0 < digitMask * digitBase ^ sizeZ := by positivity
      omega
    refine Ends.bind (vComplement_ends hbelow' (by simpa using hlen'.ge) (by simpa using hlen'.ge) hpos)
      fun r ⟨hout, hrbelow, hval⟩ => ?_
    have hrlen : sizeZ + 1 ≤ r.length := by
      rw [hout.length]
      simpa using hlen'.ge
    refine (intNormalize_neg hrlen hrbelow).mono fun z ⟨hz, hzv⟩ => ⟨hz, fun i => ?_⟩
    rw [← hbits i, hzv, twoComp, if_pos rfl]
    have h2 : ((2 : ℤ) ^ (digitBits * sizeZ)) = (digitBase : ℤ) ^ sizeZ := by exact_mod_cast two_pow_digitBits sizeZ
    have hval' : (seg digitBase r 0 (sizeZ + 1) : ℤ) + (seg digitBase d' 0 sizeZ + digitMask * (digitBase : ℤ) ^ sizeZ) =
        (digitBase : ℤ) ^ sizeZ * digitBase := by
      rw [hset, pow_succ] at hval
      exact_mod_cast hval
    have hmask : (digitMask : ℤ) = digitBase - 1 := by norm_num
    rw [h2]
    congr 1
    rw [hmask] at hval'
    linarith

theorem intBitwise_ends {a b : DeeInt} {op : BitOp} (ha : a.Canonical) (hb : b.Canonical) :
    Ends (intBitwise a op b) fun z => z.Canonical ∧
      ∀ i, z.toInt.testBit i = op.bit (a.toInt.testBit i) (b.toInt.testBit i) := by
  unfold intBitwise
  refine Ends.bind (bitwiseOperand_ends ha) fun da hda => Ends.bind (bitwiseOperand_ends hb) fun db hdb => ?_
  split_ifs with hlt
  · refine (intBitwiseOrdered_ends hdb hda hlt.le).mono fun z ⟨hz, hbits⟩ => ⟨hz, fun i => ?_⟩
    rw [hbits i, op.bit_comm]
  · exact intBitwiseOrdered_ends hda hdb (by omega)

/-- The bitwise operators act on the two's complement bits, `int_inv` inverts them, and the shifts multiply by
`2 ^ n` and take the floor of the quotient, for shift counts that fit a `size_t`. -/
theorem int_bits_exact (a b n : DeeInt) (ha : a.Canonical) (hb : b.Canonical) (hn : n.Canonical)
    (h0 : 0 ≤ n.toInt) (h64 : n.toInt < 2 ^ 64) :
    (Ends (intAnd a b) fun z => z.Canonical ∧
      ∀ i, z.toInt.testBit i = (a.toInt.testBit i && b.toInt.testBit i)) ∧
    (Ends (intOr a b) fun z => z.Canonical ∧
      ∀ i, z.toInt.testBit i = (a.toInt.testBit i || b.toInt.testBit i)) ∧
    (Ends (intXor a b) fun z => z.Canonical ∧
      ∀ i, z.toInt.testBit i = (a.toInt.testBit i ^^ b.toInt.testBit i)) ∧
    (Ends (intInv a) fun z => z.Canonical ∧ z.toInt = -a.toInt - 1) ∧
    (Ends (intShl a n) fun r => ∃ z, r = .ok z ∧ z.Canonical ∧ z.toInt = a.toInt * 2 ^ n.toInt.toNat) ∧
    (Ends (intShr a n) fun r => ∃ z, r = .ok z ∧ z.Canonical ∧ z.toInt = a.toInt / 2 ^ n.toInt.toNat) :=
  ⟨intBitwise_ends ha hb, intBitwise_ends ha hb, intBitwise_ends ha hb, intInv_ends ha, intShl_ends ha hn h0 h64,
    intShr_ends ha hn h0 h64⟩

/-- Both operands negative and of different size, and a count that crosses a digit. -/
theorem int_bits_exact_negative :
    (Ends (intAnd ⟨-2, [5, 1]⟩ ⟨-1, [3]⟩) fun z => z.Canonical ∧
      ∀ i, z.toInt.testBit i = ((toInt ⟨-2, [5, 1]⟩).testBit i && (toInt ⟨-1, [3]⟩).testBit i)) ∧
    (Ends (intOr ⟨-2, [5, 1]⟩ ⟨-1, [3]⟩) fun z => z.Canonical ∧
      ∀ i, z.toInt.testBit i = ((toInt ⟨-2, [5, 1]⟩).testBit i || (toInt ⟨-1, [3]⟩).testBit i)) ∧
    (Ends (intXor ⟨-2, [5, 1]⟩ ⟨-1, [3]⟩) fun z => z.Canonical ∧
      ∀ i, z.toInt.testBit i = ((toInt ⟨-2, [5, 1]⟩).testBit i ^^ (toInt ⟨-1, [3]⟩).testBit i)) ∧
    (Ends (intInv ⟨-2, [5, 1]⟩) fun z => z.Canonical ∧ z.toInt = -toInt ⟨-2, [5, 1]⟩ - 1) ∧
    (Ends (intShl ⟨-2, [5, 1]⟩ ⟨1, [31]⟩) fun r => ∃ z, r = .ok z ∧ z.Canonical ∧
      z.toInt = toInt ⟨-2, [5, 1]⟩ * 2 ^ (toInt ⟨1, [31]⟩).toNat) ∧
    (Ends (intShr ⟨-2, [5, 1]⟩ ⟨1, [31]⟩) fun r => ∃ z, r = .ok z ∧ z.Canonical ∧
      z.toInt = toInt ⟨-2, [5, 1]⟩ / 2 ^ (toInt ⟨1, [31]⟩).toNat) :=
  int_bits_exact ⟨-2, [5, 1]⟩ ⟨-1, [3]⟩ ⟨1, [31]⟩ (by decide) (by decide) (by decide) (by decide) (by decide)

/-- `1 >> 2 ^ 64` is a `NegativeShift` error and not 0: the count does not fit a `size_t`. -/
theorem intShr_count_overflow :
    ¬ Ends (intShr ⟨1, [1]⟩ ⟨3, [0, 0, 16]⟩) fun r => ∃ z, r = .ok z ∧ z.Canonical ∧ z.toInt = 0 := by
  have hrun : intShr ⟨1, [1]⟩ ⟨3, [0, 0, 16]⟩ = some (.error (.negativeShiftOverflow ⟨1, [1]⟩ false)) := by rfl
  rintro ⟨r, hr, z, rfl, -⟩
  rw [hrun, Option.some.injEq] at hr
  cases hr

end Deemon.Int
