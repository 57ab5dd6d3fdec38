import Deemon.Int.Basic

/-!
# Addition and subtraction

`x_add`, `x_sub`, `int_neg`, `int_add` and `int_sub` of `int_logic.c`. The carrying and borrowing loops of the
whole file store one digit a round; the two rounds `addRound` and `subRound` have one specification each.

`x_sub` takes its differences in an unsigned 32-bit word and reads the borrow off the wrapped result. The
difference is a parameter of `xSubWith`, so that the wrapping one (`borrowSub`, what the code computes) can be
compared with one that has to be exact (`exactSub`).
-/

namespace Deemon.Int

open Deemon.Run Deemon.Radix DeeInt

/-! ### Rounds -/

/-- `carry += x; z[i] = carry & DIGIT_MASK; carry >>= DIGIT_BITS`, with a carry of `w` bits. -/
def addRound (w : ℕ) (z : List ℕ) (i carry x : ℕ) : Option (ℕ × List ℕ) := do
  let carry ← fits w (carry + x)
  let z ← wr z i (carry &&& digitMask)
  some (carry >>> digitBits, z)

/-- `x - y - borrow` in an unsigned 32-bit word. -/
def borrowSub (x y borrow : ℕ) : Option ℕ := some ((x + 2 ^ 33 - y - borrow) % 2 ^ 32)

/-- `x - y - borrow` where the word must not wrap. -/
def exactSub (x y borrow : ℕ) : Option ℕ := if y + borrow ≤ x then some (x - y - borrow) else none

/-- `borrow = x - y - borrow; z[i] = borrow & DIGIT_MASK; borrow >>= DIGIT_BITS; borrow &= 1`. -/
def subRound (sub : ℕ → ℕ → ℕ → Option ℕ) (z : List ℕ) (i borrow x y : ℕ) : Option (ℕ × List ℕ) := do
  let borrow ← sub x y borrow
  let z ← wr z i (borrow &&& digitMask)
  some (borrow >>> digitBits &&& 1, z)

/-- A carrying loop after `n` digits from cell `s` on: digits and carry make up `v`. -/
structure Carried (len s n v : ℕ) (r : ℕ × List ℕ) : Prop where
  length : r.2.length = len
  below : Below digitBase r.2 s n
  value : seg digitBase r.2 s n + r.1 * digitBase ^ n = v

/-- A borrowing loop after `n` digits from cell `s` on: the digits are `v - w`, up to the borrow. -/
structure Borrowed (len s n v w : ℕ) (r : ℕ × List ℕ) : Prop where
  length : r.2.length = len
  below : Below digitBase r.2 s n
  borrow_le : r.1 ≤ 1
  value : seg digitBase r.2 s n + w = v + r.1 * digitBase ^ n

theorem Carried.zero {z : List ℕ} {s : ℕ} : Carried z.length s 0 0 (0, z) :=
  ⟨rfl, fun i hi => by omega, by simp⟩

theorem Borrowed.zero {z : List ℕ} {s : ℕ} : Borrowed z.length s 0 0 0 (0, z) :=
  ⟨rfl, fun i hi => by omega, by simp, by simp⟩

theorem addRound_ends {w len s n v carry x : ℕ} {z : List ℕ} (h : Carried len s n v (carry, z))
    (hlen : s + n < len) (hw : carry + x < 2 ^ w) :
    Ends (addRound w z (s + n) carry x) fun r => Carried len s (n + 1) (v + x * digitBase ^ n) r ∧
      r.1 = (carry + x) / digitBase ∧ SameOut z r.2 (s + n) 1 := by
  obtain ⟨hz, hbelow, hval⟩ := h
  dsimp only at hz hbelow hval
  unfold addRound
  rw [fits_of_lt hw, some_bind, wr_of_lt (by omega), and_digitMask]
  refine Ends.pure ⟨⟨by simpa using hz, ?_, ?_⟩, shiftRight_digitBits _, SameOut.set⟩
  · refine (hbelow.set (Nat.mod_lt _ digitBase_pos)).succ ?_
    rw [cell_set_self (by omega)]
    exact Nat.mod_lt _ digitBase_pos
  · rw [shiftRight_digitBits, seg_carry (by omega)]
    linear_combination hval

theorem subRound_ends {len s n v w borrow x y : ℕ} {z : List ℕ} (h : Borrowed len s n v w (borrow, z))
    (hlen : s + n < len) (hx : x < digitBase) (hy : y < digitBase) :
    Ends (subRound borrowSub z (s + n) borrow x y) fun r =>
      Borrowed len s (n + 1) (v + x * digitBase ^ n) (w + y * digitBase ^ n) r ∧ SameOut z r.2 (s + n) 1 := by
  obtain ⟨hz, hbelow, hborrow, hval⟩ := h
  dsimp only at hz hbelow hborrow hval
  unfold subRound borrowSub
  rw [some_bind, wr_of_lt (by omega), and_digitMask, shiftRight_digitBits, Nat.and_one_is_mod]
  have hdiff : (x + 2 ^ 33 - y - borrow) % 2 ^ 32 % digitBase + (y + borrow) =
      x + (x + 2 ^ 33 - y - borrow) % 2 ^ 32 / digitBase % 2 * digitBase := by
    unfold digitBase at *
    omega
  refine Ends.pure ⟨⟨by simpa using hz, ?_, by dsimp only; omega, ?_⟩, SameOut.set⟩
  · refine (hbelow.set (Nat.mod_lt _ digitBase_pos)).succ ?_
    rw [cell_set_self (by omega)]
    exact Nat.mod_lt _ digitBase_pos
  · have hseg := seg_borrow (n := n) (s := s) (l := z) (by omega) hdiff
    linear_combination hval + hseg

/-! ### Negation -/

/-- `int_neg`. -/
def intNeg (self : DeeInt) : Option DeeInt :=
  if self.absSize ≤ 1 then do
    deeIntNewInt32 (← sfits 32 (-(← mediumValue self)))
  else do
    let result := deeIntAlloc self.absSize
    let digits ← copyCells result.obDigit 0 self.obDigit 0 self.absSize
    some ⟨-self.obSize, digits⟩

/-- `int_neg_inherit`: an object that nobody shares is negated in place. -/
def intNegInherit (shared : Bool) (self : DeeInt) : Option DeeInt :=
  if shared then intNeg self else some ⟨-self.obSize, self.obDigit⟩

theorem intNeg_ends {x : DeeInt} (hx : x.Canonical) :
    Ends (intNeg x) fun z => z.Canonical ∧ z.toInt = -x.toInt := by
  unfold intNeg
  split_ifs with hsize
  · obtain ⟨hval, hlo, hhi⟩ := mediumValue_eq hx hsize
    rw [hval, some_bind, sfits_of (by unfold digitBase at *; omega)]
    exact newSigned_ends _
  · refine Ends.bind (copyCells_ends (by simp) (by simpa using hx.len)) fun digits ⟨hout, hin⟩ => ?_
    have habs : absSize ⟨-x.obSize, digits⟩ = x.absSize := Int.natAbs_neg _
    have hcopy : Canonical ⟨x.obSize, digits⟩ ∧ toInt ⟨x.obSize, digits⟩ = x.toInt := by
      have hcells : ∀ i < x.absSize, cell digits (0 + i) = cell x.obDigit (0 + i) := hin
      have hmag : mag ⟨x.obSize, digits⟩ = x.mag := seg_congr hcells
      refine ⟨⟨⟨?_, fun i hi => ?_⟩, fun hpos => ?_⟩, by unfold toInt; rw [hmag]⟩
      · exact (by simpa using hout.length.ge : x.absSize ≤ digits.length)
      · rw [hcells i hi]
        exact hx.below i hi
      · have hlast := hcells (x.absSize - 1) (Nat.sub_lt hpos Nat.one_pos)
        rw [Nat.zero_add] at hlast
        exact hlast ▸ hx.top hpos
    exact Ends.pure ⟨hcopy.1.neg, by rw [toInt_neg ⟨x.obSize, digits⟩, hcopy.2]⟩

theorem intNegInherit_ends {shared : Bool} {x : DeeInt} (hx : x.Canonical) :
    Ends (intNegInherit shared x) fun z => z.Canonical ∧ z.toInt = -x.toInt := by
  unfold intNegInherit
  split_ifs
  · exact intNeg_ends hx
  · exact Ends.pure ⟨hx.neg, toInt_neg x⟩

/-! ### Magnitudes -/

/-- `x_add` after the operands are ordered by size. -/
def xAddCore (a b : DeeInt) : Option DeeInt := do
  let z := deeIntAlloc (a.absSize + 1)
  let (carry, digits) ← forLoop (fun i (carry, digits) => do
      addRound 32 digits i carry (← fits 32 ((← rd a.obDigit i) + (← rd b.obDigit i))))
    0 b.absSize (0, z.obDigit)
  let (carry, digits) ← forLoop (fun i (carry, digits) => do
      addRound 32 digits i carry (← rd a.obDigit i))
    b.absSize (a.absSize - b.absSize) (carry, digits)
  let digits ← wr digits a.absSize carry
  intNormalize { z with obDigit := digits }

/-- `x_add`: the sum of the absolute values. -/
def xAdd (a b : DeeInt) : Option DeeInt :=
  if a.absSize < b.absSize then xAddCore b a else xAddCore a b

/-- `x_sub` from the allocation on: the difference of the low `sizeA` digits of `a` and `sizeB` of `b`. -/
def xSubCore (sub : ℕ → ℕ → ℕ → Option ℕ) (sign : ℤ) (a b : DeeInt) (sizeA sizeB : ℕ) : Option DeeInt := do
  let z := deeIntAlloc sizeA
  let (borrow, digits) ← forLoop (fun i (borrow, digits) => do
      subRound sub digits i borrow (← rd a.obDigit i) (← rd b.obDigit i))
    0 sizeB (0, z.obDigit)
  let (borrow, digits) ← forLoop (fun i (borrow, digits) => do
      subRound sub digits i borrow (← rd a.obDigit i) 0)
    sizeB (sizeA - sizeB) (borrow, digits)
  assert (borrow = 0)
  intNormalize ⟨if sign < 0 then -z.obSize else z.obSize, digits⟩

/-- The scan of `x_sub` for the highest digit in which operands of one size differ. -/
def xSubScan (a b : DeeInt) (size : ℕ) : Option (Option ℕ) :=
  loop (fun i =>
    if i = 0 then some (.done none)
    else do
      let x ← rd a.obDigit (i - 1)
      let y ← rd b.obDigit (i - 1)
      some (if x = y then .next (i - 1) else .done (some (i - 1)))) (size + 1) size

/-- `x_sub` with the difference of one digit left open. -/
def xSubWith (sub : ℕ → ℕ → ℕ → Option ℕ) (a b : DeeInt) : Option DeeInt := do
  if a.absSize < b.absSize then
    xSubCore sub (-1) b a b.absSize a.absSize
  else if a.absSize = b.absSize then
    match ← xSubScan a b a.absSize with
    | none => some deeIntNewZero
    | some i =>
      if (← rd a.obDigit i) < (← rd b.obDigit i) then xSubCore sub (-1) b a (i + 1) (i + 1)
      else xSubCore sub 1 a b (i + 1) (i + 1)
  else
    xSubCore sub 1 a b a.absSize b.absSize

/-- `x_sub`: the difference of the absolute values. -/
def xSub (a b : DeeInt) : Option DeeInt := xSubWith borrowSub a b

/-- The rest of `x_add_int` and `x_add_int2`: the carry out of the low `k` digits goes through the others. -/
def addTail (a : DeeInt) (k : ℕ) (r : ℕ × List ℕ) : Option DeeInt := do
  let (carry, digits) ← forLoop (fun i (carry, digits) => do addRound 32 digits i carry (← rd a.obDigit i))
    k (a.absSize - k) r
  let digits ← wr digits a.absSize carry
  intNormalize ⟨(a.absSize + 1 : ℕ), digits⟩

theorem addTail_ends {a : DeeInt} {k b : ℕ} {r : ℕ × List ℕ} (ha : a.WF) (hk : k ≤ a.absSize) (hcarry : r.1 ≤ 2)
    (hr : Carried (a.absSize + 1) 0 k (seg digitBase a.obDigit 0 k + b) r) :
    Ends (addTail a k r) fun z => z.Canonical ∧ z.toInt = a.mag + b := by
  unfold addTail
  refine Ends.bind (P := fun r => r.1 ≤ 2 ∧ Carried (a.absSize + 1) 0 a.absSize (a.mag + b) r) ?_ ?_
  · have hloop := forLoop_ends (f := fun i (r : ℕ × List ℕ) => do addRound 32 r.2 i r.1 (← rd a.obDigit i))
      (a := k) (n := a.absSize - k) (s := r)
      (fun i r => r.1 ≤ 2 ∧ Carried (a.absSize + 1) 0 i (seg digitBase a.obDigit 0 i + b) r) ⟨hcarry, hr⟩ ?_
    · rwa [Nat.add_sub_cancel' hk] at hloop
    · rintro i ⟨carry, digits⟩ - hi ⟨hcarry, hrow⟩
      dsimp only at hcarry ⊢
      have hx := ha.cell_lt (i := i) (by omega)
      rw [rd_of_lt (ha.lt_length (by omega)), some_bind]
      have hround := addRound_ends (w := 32) (x := cell a.obDigit i) hrow (by omega) (by unfold digitBase at *; omega)
      rw [Nat.zero_add] at hround
      refine hround.mono ?_
      rintro r ⟨hrow', hr, -⟩
      refine ⟨by unfold digitBase at *; omega, ?_⟩
      rw [seg_succ, Nat.zero_add]
      convert hrow' using 1
      ring
  rintro ⟨carry, digits⟩ ⟨hcarry, hlen, hbelow, hval⟩
  dsimp only at hcarry hlen hbelow hval ⊢
  rw [wr_of_lt (by omega), some_bind]
  have hset := seg_set_last (B := digitBase) (l := digits) (s := 0) (n := a.absSize) (v := carry) (by omega)
  rw [Nat.zero_add] at hset
  refine (intNormalize_pos (n := a.absSize + 1) (by simpa using hlen.ge) ?_).mono fun z hz => ⟨hz.1, ?_⟩
  · refine (hbelow.set (by unfold digitBase; omega)).succ ?_
    rw [Nat.zero_add, cell_set_self (by omega)]
    unfold digitBase
    omega
  · rw [hz.2, hset, hval]
    push_cast
    ring

/-- A borrow goes through the rest of `n` digits, and none comes out of the top one. -/
theorem borrowLoop_ends {a : DeeInt} {k n b : ℕ} {r : ℕ × List ℕ} (ha : a.WF) (hk : k ≤ n) (hn : n ≤ a.absSize)
    (hb : b ≤ seg digitBase a.obDigit 0 n) (hr : Borrowed n 0 k (seg digitBase a.obDigit 0 k) b r) :
    Ends (forLoop (fun i (r : ℕ × List ℕ) => do subRound borrowSub r.2 i r.1 (← rd a.obDigit i) 0) k (n - k) r)
      fun r => r.1 = 0 ∧ r.2.length = n ∧ Below digitBase r.2 0 n ∧
        (seg digitBase r.2 0 n : ℤ) = (seg digitBase a.obDigit 0 n : ℤ) - b := by
  have hloop := forLoop_ends (f := fun i (r : ℕ × List ℕ) => do subRound borrowSub r.2 i r.1 (← rd a.obDigit i) 0)
    (a := k) (n := n - k) (s := r) (fun i r => Borrowed n 0 i (seg digitBase a.obDigit 0 i) b r) hr ?_
  · rw [Nat.add_sub_cancel' hk] at hloop
    refine hloop.mono ?_
    rintro ⟨borrow, digits⟩ ⟨hlen, hbelow, hborrow, hval⟩
    dsimp only at hlen hbelow hborrow hval ⊢
    -- a borrow out of the top digit would make the difference negative
    have hzero : borrow = 0 := by
      by_contra hne
      obtain rfl : borrow = 1 := by omega
      have := seg_lt hbelow
      omega
    rw [hzero] at hval
    exact ⟨hzero, hlen, hbelow, by omega⟩
  · rintro i ⟨borrow, digits⟩ - hi hrow
    dsimp only
    rw [rd_of_lt (ha.lt_length (by omega)), some_bind]
    have hround := subRound_ends hrow (by omega) (ha.cell_lt (i := i) (by omega)) digitBase_pos
    rw [Nat.zero_add] at hround
    refine hround.mono fun r ⟨hrow', _⟩ => ?_
    rw [Nat.zero_mul, Nat.add_zero] at hrow'
    rwa [seg_succ, Nat.zero_add]

theorem xAddCore_ends {a b : DeeInt} (ha : a.WF) (hb : b.WF) (hsize : b.absSize ≤ a.absSize) :
    Ends (xAddCore a b) fun z => z.Canonical ∧ z.toInt = a.mag + b.mag := by
  unfold xAddCore
  refine Ends.bind (P := fun r => r.1 ≤ 1 ∧ Carried (a.absSize + 1) 0 b.absSize
    (seg digitBase a.obDigit 0 b.absSize + b.mag) r) ?_ ?_
  · refine forLoop_ends_zero (fun i (r : ℕ × List ℕ) => r.1 ≤ 1 ∧ Carried (a.absSize + 1) 0 i
      (seg digitBase a.obDigit 0 i + seg digitBase b.obDigit 0 i) r) ⟨by simp, ?_⟩ ?_
    · simpa using Carried.zero (z := (deeIntAlloc (a.absSize + 1)).obDigit) (s := 0)
    · rintro i ⟨carry, digits⟩ hi ⟨hcarry, hrow⟩
      dsimp only at hcarry ⊢
      have hx := ha.cell_lt (i := i) (by omega)
      have hy := hb.cell_lt (i := i) (by omega)
      rw [rd_of_lt (ha.lt_length (by omega)), rd_of_lt (hb.lt_length (by omega)), some_bind, some_bind,
        fits_of_lt (by unfold digitBase at *; omega), some_bind]
      have hround := addRound_ends (w := 32) (x := cell a.obDigit i + cell b.obDigit i) hrow (by omega)
        (by unfold digitBase at *; omega)
      rw [Nat.zero_add] at hround
      refine hround.mono fun r ⟨hrow', hr, _⟩ => ⟨by unfold digitBase at *; omega, ?_⟩
      rw [seg_succ, seg_succ, Nat.zero_add]
      convert hrow' using 1
      ring
  rintro ⟨carry, digits⟩ ⟨hcarry, hrow⟩
  exact addTail_ends ha hsize (hcarry.trans one_le_two) hrow

theorem xAdd_ends {a b : DeeInt} (ha : a.WF) (hb : b.WF) :
    Ends (xAdd a b) fun z => z.Canonical ∧ z.toInt = a.mag + b.mag := by
  unfold xAdd
  split_ifs with hsize
  · refine (xAddCore_ends hb ha (by omega)).mono fun z ⟨hz, hval⟩ => ⟨hz, by rw [hval, add_comm]⟩
  · exact xAddCore_ends ha hb (by omega)

theorem xSubCore_ends {sign : ℤ} {a b : DeeInt} {sizeA sizeB : ℕ} (ha : a.WF) (hb : b.WF)
    (hsign : sign = 1 ∨ sign = -1) (hsize : sizeB ≤ sizeA) (hA : sizeA ≤ a.absSize) (hB : sizeB ≤ b.absSize)
    (hle : seg digitBase b.obDigit 0 sizeB ≤ seg digitBase a.obDigit 0 sizeA) :
    Ends (xSubCore borrowSub sign a b sizeA sizeB) fun z => z.Canonical ∧
      z.toInt = sign * ((seg digitBase a.obDigit 0 sizeA : ℤ) - seg digitBase b.obDigit 0 sizeB) := by
  unfold xSubCore
  refine Ends.bind (P := Borrowed sizeA 0 sizeB (seg digitBase a.obDigit 0 sizeB)
    (seg digitBase b.obDigit 0 sizeB)) ?_ ?_
  · refine forLoop_ends_zero (fun i (r : ℕ × List ℕ) => Borrowed sizeA 0 i (seg digitBase a.obDigit 0 i)
      (seg digitBase b.obDigit 0 i) r) ?_ ?_
    · simpa using Borrowed.zero (z := (deeIntAlloc sizeA).obDigit) (s := 0)
    · rintro i ⟨borrow, digits⟩ hi hrow
      dsimp only
      rw [rd_of_lt (ha.lt_length (by omega)), rd_of_lt (hb.lt_length (by omega)), some_bind, some_bind]
      have hround := subRound_ends hrow (by omega) (ha.cell_lt (i := i) (by omega)) (hb.cell_lt (i := i) (by omega))
      rw [Nat.zero_add] at hround
      refine hround.mono fun r ⟨hrow', _⟩ => ?_
      rwa [seg_succ, seg_succ, Nat.zero_add]
  rintro ⟨borrow, digits⟩ hrow
  refine Ends.bind (borrowLoop_ends ha hsize hA hle hrow) ?_
  rintro ⟨borrow, digits⟩ ⟨hzero, hlen, hbelow, hdiff⟩
  dsimp only at hzero hlen hbelow hdiff ⊢
  rw [assert_of hzero, some_bind]
  rcases hsign with rfl | rfl
  · refine (intNormalize_pos hlen.ge hbelow).mono fun z ⟨hz, hzval⟩ => ⟨hz, ?_⟩
    rw [hzval, hdiff, one_mul]
  · refine (intNormalize_neg hlen.ge hbelow).mono fun z ⟨hz, hzval⟩ => ⟨hz, ?_⟩
    rw [hzval, hdiff, neg_one_mul]

theorem xSubScan_ends {a b : DeeInt} {size : ℕ} (ha : a.WF) (hb : b.WF) (hA : size ≤ a.absSize)
    (hB : size ≤ b.absSize) : Ends (xSubScan a b size) fun
      | none => ∀ j < size, cell a.obDigit j = cell b.obDigit j
      | some i => i < size ∧ cell a.obDigit i ≠ cell b.obDigit i ∧
        ∀ j < size, i < j → cell a.obDigit j = cell b.obDigit j := by
  unfold xSubScan
  refine loop_ends (fun i => i ≤ size ∧ ∀ j < size, i ≤ j → cell a.obDigit j = cell b.obDigit j) id
    ⟨le_rfl, fun j hj hle => by omega⟩ (by simp) fun i ⟨hi, heq⟩ => ?_
  split_ifs with hzero
  · exact Ends.pure fun j hj => heq j hj (by omega)
  · rw [rd_of_lt (ha.lt_length (by omega)), rd_of_lt (hb.lt_length (by omega)), some_bind, some_bind]
    refine Ends.pure ?_
    split_ifs with hcell
    · refine ⟨⟨by omega, fun j hj hle => ?_⟩, by simp; omega⟩
      rcases Nat.eq_or_lt_of_le hle with rfl | hlt
      · exact hcell
      · exact heq j hj (by omega)
    · exact ⟨by omega, hcell, fun j hj hlt => heq j hj (by omega)⟩

/-- The difference of two magnitudes of one size is that of their digits up to the highest that differs. -/
theorem seg_sub_seg {l l' : List ℕ} {n i : ℕ} (hi : i < n) (heq : ∀ j < n, i < j → cell l j = cell l' j) :
    (seg digitBase l 0 n : ℤ) - seg digitBase l' 0 n =
      (seg digitBase l 0 (i + 1) : ℤ) - seg digitBase l' 0 (i + 1) := by
  obtain ⟨k, rfl⟩ : ∃ k, n = i + 1 + k := ⟨n - (i + 1), by omega⟩
  have htail : seg digitBase l (0 + (i + 1)) k = seg digitBase l' (0 + (i + 1)) k :=
    seg_congr fun j hj => heq _ (by omega) (by omega)
  rw [seg_add (m := i + 1), seg_add (m := i + 1), htail]
  push_cast
  ring

/-- A slice with the lower top digit is the lower one. -/
theorem seg_lt_of_top_lt {l l' : List ℕ} {s m : ℕ} (hl : Below digitBase l s m)
    (htop : cell l (s + m) < cell l' m) : seg digitBase l s (m + 1) < seg digitBase l' 0 (m + 1) := by
  have h1 := seg_lt hl
  have h2 : (cell l (s + m) + 1) * digitBase ^ m ≤ cell l' m * digitBase ^ m := Nat.mul_le_mul_right _ htop
  rw [seg_succ, seg_succ, Nat.zero_add]
  rw [Nat.add_mul] at h2
  omega

/-- A longer canonical operand is the larger one. -/
theorem mag_lt_of_absSize_lt {x y : DeeInt} (hx : x.WF) (hy : y.Canonical) (h : x.absSize < y.absSize) :
    x.mag < y.mag := by
  obtain ⟨n, hn⟩ : ∃ n, y.absSize = n + 1 := ⟨y.absSize - 1, by omega⟩
  have hpow := Nat.pow_le_pow_right digitBase_pos (show x.absSize ≤ n by omega)
  exact lt_of_lt_of_le hx.mag_lt (le_trans hpow (hy.le_mag hn))

theorem xSub_ends {a b : DeeInt} (ha : a.Canonical) (hb : b.Canonical) :
    Ends (xSub a b) fun z => z.Canonical ∧ z.toInt = (a.mag : ℤ) - b.mag := by
  unfold xSub xSubWith
  split_ifs with hlt heq
  · refine (xSubCore_ends hb.toWF ha.toWF (Or.inr rfl) hlt.le le_rfl le_rfl (mag_lt_of_absSize_lt ha.toWF hb hlt).le).mono
      fun z ⟨hz, hval⟩ => ⟨hz, ?_⟩
    rw [hval, neg_one_mul, neg_sub]
    rfl
  · refine Ends.bind (xSubScan_ends ha.toWF hb.toWF le_rfl heq.le) fun scan hscan => ?_
    cases scan with
    | none =>
      have hmag : a.mag = b.mag := by
        unfold mag
        rw [← heq]
        exact seg_congr fun j hj => by simpa using hscan j hj
      exact Ends.pure ⟨deeIntNewZero_canonical.1, by rw [deeIntNewZero_canonical.2, hmag, sub_self]⟩
    | some i =>
      obtain ⟨hi, hne, htail⟩ := hscan
      have hdiff : (a.mag : ℤ) - b.mag =
          (seg digitBase a.obDigit 0 (i + 1) : ℤ) - seg digitBase b.obDigit 0 (i + 1) := by
        unfold mag
        rw [← heq]
        exact seg_sub_seg hi htail
      dsimp only
      rw [rd_of_lt (ha.lt_length hi), rd_of_lt (hb.lt_length (by omega)), some_bind, some_bind]
      split_ifs with hcell
      · refine (xSubCore_ends hb.toWF ha.toWF (Or.inr rfl) le_rfl (by omega) (by omega)
          (seg_lt_of_top_lt (ha.below.mono (by omega)) (by rwa [Nat.zero_add])).le).mono fun z ⟨hz, hval⟩ => ⟨hz, ?_⟩
        rw [hval, hdiff]
        ring
      · refine (xSubCore_ends ha.toWF hb.toWF (Or.inl rfl) le_rfl (by omega) (by omega)
          (seg_lt_of_top_lt (hb.below.mono (by omega)) (by rw [Nat.zero_add]; omega)).le).mono fun z ⟨hz, hval⟩ => ⟨hz, ?_⟩
        rw [hval, hdiff, one_mul]
  · refine (xSubCore_ends ha.toWF hb.toWF (Or.inl rfl) (by omega) le_rfl le_rfl
      (mag_lt_of_absSize_lt hb.toWF ha (by omega)).le).mono fun z ⟨hz, hval⟩ => ⟨hz, ?_⟩
    rw [hval, one_mul]
    rfl

/-! ### The operators -/

/-- `z->ob_size = -z->ob_size` on a result that nobody else has seen. -/
def negSize (z : DeeInt) : DeeInt := ⟨-z.obSize, z.obDigit⟩

/-- `int_add`. -/
def intAdd (a b : DeeInt) : Option DeeInt :=
  if a.absSize ≤ 1 ∧ b.absSize ≤ 1 then do
    deeIntNewInt32 (← sfits 32 ((← mediumValue a) + (← mediumValue b)))
  else if a.obSize < 0 then
    if b.obSize < 0 then do
      let z ← xAdd a b
      some (if z.obSize ≠ 0 then negSize z else z)
    else
      xSub b a
  else if b.obSize < 0 then
    xSub a b
  else
    xAdd a b

/-- `int_sub` with the difference of one digit left open. -/
def intSubWith (sub : ℕ → ℕ → ℕ → Option ℕ) (a b : DeeInt) : Option DeeInt :=
  if a.absSize ≤ 1 ∧ b.absSize ≤ 1 then do
    deeIntNewInt32 (← sfits 32 ((← mediumValue a) - (← mediumValue b)))
  else if a.obSize < 0 then do
    let z ← if b.obSize < 0 then xSubWith sub a b else xAdd a b
    some (negSize z)
  else if b.obSize < 0 then
    xAdd a b
  else
    xSubWith sub a b

/-- `int_sub`. -/
def intSub (a b : DeeInt) : Option DeeInt := intSubWith borrowSub a b

theorem intAdd_ends {a b : DeeInt} (ha : a.Canonical) (hb : b.Canonical) :
    Ends (intAdd a b) fun z => z.Canonical ∧ z.toInt = a.toInt + b.toInt := by
  unfold intAdd
  split_ifs with hsmall hna hnb hnb
  · obtain ⟨ha1, ha2, ha3⟩ := mediumValue_eq ha hsmall.1
    obtain ⟨hb1, hb2, hb3⟩ := mediumValue_eq hb hsmall.2
    rw [ha1, hb1, some_bind, some_bind, sfits_of (by unfold digitBase at *; omega)]
    exact newSigned_ends _
  · refine Ends.bind (xAdd_ends ha.toWF hb.toWF) fun z ⟨hz, hval⟩ => ?_
    rw [toInt_of_neg hna, toInt_of_neg hnb]
    split_ifs with hzero
    · exact Ends.pure ⟨hz.neg, by rw [negSize, toInt_neg, hval]; ring⟩
    · refine Ends.pure ⟨hz, ?_⟩
      rw [toInt_of_absSize_zero (by unfold absSize; omega)] at hval ⊢
      omega
  · refine (xSub_ends hb ha).mono fun z ⟨hz, hval⟩ => ⟨hz, ?_⟩
    rw [hval, toInt_of_neg hna, toInt_of_nonneg (by omega)]
    ring
  · refine (xSub_ends ha hb).mono fun z ⟨hz, hval⟩ => ⟨hz, ?_⟩
    rw [hval, toInt_of_neg hnb, toInt_of_nonneg (by omega)]
    ring
  · refine (xAdd_ends ha.toWF hb.toWF).mono fun z ⟨hz, hval⟩ => ⟨hz, ?_⟩
    rw [hval, toInt_of_nonneg (x := a) (by omega), toInt_of_nonneg (by omega)]

theorem intSub_ends {a b : DeeInt} (ha : a.Canonical) (hb : b.Canonical) :
    Ends (intSub a b) fun z => z.Canonical ∧ z.toInt = a.toInt - b.toInt := by
  unfold intSub intSubWith
  split_ifs with hsmall hna hnb hnb
  · obtain ⟨ha1, ha2, ha3⟩ := mediumValue_eq ha hsmall.1
    obtain ⟨hb1, hb2, hb3⟩ := mediumValue_eq hb hsmall.2
    rw [ha1, hb1, some_bind, some_bind, sfits_of (by unfold digitBase at *; omega)]
    exact newSigned_ends _
  · refine Ends.bind (xSub_ends ha hb) fun z ⟨hz, hval⟩ => Ends.pure ⟨hz.neg, ?_⟩
    rw [negSize, toInt_neg, hval, toInt_of_neg hna, toInt_of_neg hnb]
    ring
  · refine Ends.bind (xAdd_ends ha.toWF hb.toWF) fun z ⟨hz, hval⟩ => Ends.pure ⟨hz.neg, ?_⟩
    rw [negSize, toInt_neg, hval, toInt_of_neg hna, toInt_of_nonneg (by omega)]
    ring
  · refine (xAdd_ends ha.toWF hb.toWF).mono fun z ⟨hz, hval⟩ => ⟨hz, ?_⟩
    rw [hval, toInt_of_neg hnb, toInt_of_nonneg (by omega)]
    ring
  · refine (xSub_ends ha hb).mono fun z ⟨hz, hval⟩ => ⟨hz, ?_⟩
    rw [hval, toInt_of_nonneg (x := a) (by omega), toInt_of_nonneg (by omega)]

end Deemon.Int
