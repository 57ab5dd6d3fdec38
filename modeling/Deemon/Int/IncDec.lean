import Deemon.Int.SmallOperands

/-!
# Increment and decrement

`int_inc` and `int_dec` of `int_logic.c` replace the integer at `*p_self`. An integer that nobody shares is edited in
place: away from zero the digits take a carry (`growInPlace`), towards zero they give a borrow (`shrinkInPlace`). All
other integers are replaced by a new object.

A result is a flag for success and the object that `*p_self` points to afterwards.
-/

namespace Deemon.Int

open Deemon.Run Deemon.Radix DeeInt

/-- `DeeInt_NewMedian`; only the statically allocated integers are there without memory. -/
def deeIntNewMedian (memory : Bool) (val : ℤ) : Option (Option DeeInt) :=
  if memory = true ∨ -128 ≤ val ∧ val ≤ 255 then do some (some (← deeIntNewInt32 val)) else some none

/-- `if (a->ob_digit[i]++ != DIGIT_MASK) goto done2; a->ob_digit[i] = 0;` -/
def carryRound (n : ℕ) : ℕ × List ℕ → Option (Step (ℕ × List ℕ) (Bool × List ℕ))
  | (i, digits) =>
    if i < n then do
      let oldval ← rd digits i
      let digits ← wr digits i (oldval + 1)
      if oldval ≠ digitMask then some (.done (true, digits)) else some (.next (i + 1, ← wr digits i 0))
    else some (.done (false, digits))

/-- The step away from zero of an integer that is not shared. -/
def growInPlace (memory : Bool) (a : DeeInt) : Option (Bool × DeeInt) := do
  let (kept, digits) ← loop (carryRound a.absSize) (a.absSize + 1) (0, a.obDigit)
  if kept then some (true, ⟨a.obSize, digits⟩)
  else if memory then do
    let z := deeIntAlloc (a.absSize + 1)
    let zeros ← fillCells z.obDigit 0 0 a.absSize
    let zeros ← wr zeros a.absSize 1
    some (true, ⟨if a.obSize < 0 then -z.obSize else z.obSize, zeros⟩)
  else some (false, ⟨a.obSize, digits⟩)

/-- One round of the loop that borrows. -/
def borrowRound (a : DeeInt) : ℕ × List ℕ → Option (Step (ℕ × List ℕ) DeeInt)
  | (i, digits) => do
    assert (i < a.absSize)
    let oldval ← rd digits i
    if oldval = 0 then some (.next (i + 1, ← wr digits i digitMask))
    else if oldval = 1 ∧ a.absSize = 1 then do
      assert (i = 0)
      some (.done deeIntNewZero)
    else some (.done ⟨a.obSize, ← wr digits i (oldval - 1)⟩)

/-- The step towards zero of an integer that is not shared. -/
def shrinkInPlace (a : DeeInt) : Option DeeInt := loop (borrowRound a) (a.absSize + 1) (0, a.obDigit)

/-- `*p_self = z` when the new object is there. -/
def replaceBy (a : DeeInt) : Option DeeInt → Bool × DeeInt
  | none => (false, a)
  | some z => (true, z)

/-- `int_inc`. -/
def intInc (shared memory : Bool) (a : DeeInt) : Option (Bool × DeeInt) :=
  if shared = false then
    if a.obSize = 0 then some (true, deeInt8bit 1)
    else if 0 < a.obSize then growInPlace memory a
    else do some (true, ← shrinkInPlace a)
  else if a.absSize ≤ 1 then do
    some (replaceBy a (← deeIntNewMedian memory (← sfits 32 ((← mediumValue a) + 1))))
  else if memory = false then some (false, a)
  else if a.obSize < 0 then do some (true, ← xSubRevint 1 a)
  else do some (true, ← xAddInt a 1)

/-- `int_dec`. -/
def intDec (shared memory : Bool) (a : DeeInt) : Option (Bool × DeeInt) :=
  if shared = false then
    if a.obSize = 0 then some (true, deeInt8bit (-1))
    else if 0 < a.obSize then do some (true, ← shrinkInPlace a)
    else growInPlace memory a
  else if a.absSize ≤ 1 then do
    some (replaceBy a (← deeIntNewMedian memory (← sfits 32 ((← mediumValue a) - 1))))
  else if memory = false then some (false, a)
  else if a.obSize < 0 then do some (true, negSize (← xAddInt a 1))
  else do some (true, ← xSubInt a 1)

/-! ### Comparing and hashing -/

/-- `int_compareint`. -/
def intCompareint (a b : DeeInt) : Option ℤ :=
  if a.obSize ≠ b.obSize then some (a.obSize - b.obSize)
  else do
    match ← xSubScan a b a.absSize with
    | none => some 0
    | some i => do
      let sign : ℤ := (← rd a.obDigit i) - (← rd b.obDigit i)
      some (if a.obSize < 0 then -sign else sign)

/-- `x = (x << DIGIT_BITS) | (x >> (64 - DIGIT_BITS)); x += digit`. -/
def hashRound (digits : List ℕ) (i x : ℕ) : Option ℕ := do
  let x := (x <<< digitBits) % 2 ^ 64 ||| x >>> (64 - digitBits)
  some ((x + (← rd digits i)) % 2 ^ 64)

/-- `int_hash`. -/
def intHash (self : DeeInt) : Option ℕ :=
  if self.obSize = -1 then do some ((2 ^ 64 - (← rd self.obDigit 0)) % 2 ^ 64)
  else if self.obSize = 0 then some 0
  else if self.obSize = 1 then rd self.obDigit 0
  else do
    let x ← forDown (hashRound self.obDigit) self.absSize 0
    some (if self.obSize < 0 then (2 ^ 64 - x) % 2 ^ 64 else x)

/-- Two objects that nothing tells apart: they compare equal and have the same hash. -/
def Alike (x y : DeeInt) : Prop := intCompareint x y = some 0 ∧ ∃ h, intHash x = some h ∧ intHash y = some h

/-- What a step of `δ` leaves at `*p_self`: the new integer after a success, the old one otherwise, and in either
case not to be told from the same integer built in another way. -/
structure StepsBy (δ : ℤ) (a : DeeInt) (r : Bool × DeeInt) : Prop where
  canonical : r.2.Canonical
  value : r.2.toInt = if r.1 then a.toInt + δ else a.toInt
  alike : ∀ w : DeeInt, w.Canonical → w.toInt = r.2.toInt → Alike r.2 w

section Alike

variable {x y : DeeInt}

theorem forDown_congr {σ : Type} {f g : ℕ → σ → Option σ} {n : ℕ} (h : ∀ i < n, ∀ s, f i s = g i s) (s : σ) :
    forDown f n s = forDown g n s := by
  induction n generalizing s with
  | zero => rfl
  | succ n ih =>
    rw [forDown, forDown, h n (Nat.lt_succ_self n)]
    congr 1
    funext s'
    exact ih (fun i hi => h i (Nat.lt_succ_of_lt hi)) s'

theorem intHash_ends (hx : x.WF) : Ends (intHash x) fun _ => True := by
  unfold intHash
  by_cases hneg : x.obSize = -1
  · rw [if_pos hneg, rd_of_lt (hx.lt_length (by unfold absSize; omega))]
    exact Ends.pure trivial
  by_cases hzero : x.obSize = 0
  · rw [if_neg hneg, if_pos hzero]
    exact Ends.pure trivial
  by_cases hpos : x.obSize = 1
  · rw [if_neg hneg, if_neg hzero, if_pos hpos, rd_of_lt (hx.lt_length (by unfold absSize; omega))]
    exact Ends.pure trivial
  · rw [if_neg hneg, if_neg hzero, if_neg hpos]
    refine Ends.bind (forDown_ends (fun _ _ => True) trivial ?_) fun h _ => Ends.pure trivial
    intro i s hi _
    unfold hashRound
    rw [rd_of_lt (hx.lt_length hi)]
    exact Ends.pure trivial

/-- Canonical objects of one number are alike. -/
theorem alike_of_canonical (hx : x.Canonical) (hy : y.Canonical) (h : x.toInt = y.toInt) : Alike x y := by
  obtain ⟨hsize, hcells⟩ := hx.ext_cells hy h
  have habs : x.absSize = y.absSize := by rw [absSize, absSize, hsize]
  have hrd : ∀ i < x.absSize, rd x.obDigit i = rd y.obDigit i := by
    intro i hi
    rw [rd_of_lt (hx.lt_length hi), rd_of_lt (hy.lt_length (habs ▸ hi)), hcells i hi]
  constructor
  · unfold intCompareint
    rw [if_neg (not_not.mpr hsize)]
    obtain ⟨scan, hscan, hfound⟩ := xSubScan_ends hx.toWF hy.toWF le_rfl habs.le
    rw [hscan, some_bind]
    cases scan with
    | none => rfl
    | some i => exact absurd (hcells i hfound.1) hfound.2.1
  · obtain ⟨v, hv, -⟩ := intHash_ends hx.toWF
    refine ⟨v, hv, ?_⟩
    rw [← hv]
    unfold intHash
    have hrounds : forDown (hashRound x.obDigit) x.absSize 0 = forDown (hashRound y.obDigit) x.absSize 0 := by
      refine forDown_congr ?_ 0
      intro i hi s
      unfold hashRound
      rw [hrd i hi]
    rw [← hsize, ← habs, ← hrounds]
    by_cases hone : x.absSize = 1
    · rw [hrd 0 (hone ▸ Nat.one_pos)]
    · have hneg : ¬x.obSize = -1 := by
        unfold absSize at hone
        omega
      have hpos : ¬x.obSize = 1 := by
        unfold absSize at hone
        omega
      simp only [hneg, hpos, if_false]

theorem StepsBy.of_canonical {δ : ℤ} {a : DeeInt} {r : Bool × DeeInt} (hr : r.2.Canonical)
    (hval : r.2.toInt = if r.1 then a.toInt + δ else a.toInt) : StepsBy δ a r :=
  ⟨hr, hval, fun _ hw hwval => alike_of_canonical hr hw hwval.symm⟩

end Alike

/-! ### Editing in place -/

section InPlace

variable {a : DeeInt} {n : ℕ}

/-- The carry stops in a digit, or all digits have become zero. -/
theorem carryLoop_ends {l : List ℕ} (hlen : n ≤ l.length) (hbelow : Below digitBase l 0 n) :
    Ends (loop (carryRound n) (n + 1) (0, l)) fun r => r.2.length = l.length ∧ Below digitBase r.2 0 n ∧
      (r.1 = true → seg digitBase r.2 0 n = seg digitBase l 0 n + 1) ∧
      (r.1 = false → seg digitBase r.2 0 n = 0 ∧ seg digitBase l 0 n + 1 = digitBase ^ n) := by
  -- the digits below `i` are zero, and the carry of one is still to be added at `i`
  refine loop_ends (fun s => s.1 ≤ n ∧ s.2.length = l.length ∧ Below digitBase s.2 0 n ∧
      seg digitBase s.2 0 s.1 = 0 ∧ seg digitBase s.2 0 n + digitBase ^ s.1 = seg digitBase l 0 n + 1)
    (fun s => n - s.1) ⟨Nat.zero_le n, rfl, hbelow, rfl, rfl⟩ (by dsimp only; omega) ?_
  rintro ⟨i, digits⟩ ⟨hi, hdlen, hd, hzeros, hsum⟩
  dsimp only at hi hdlen hd hzeros hsum
  unfold carryRound
  dsimp only
  by_cases hlt : i < n
  · have hcell := hd i hlt
    rw [Nat.zero_add] at hcell
    rw [if_pos hlt, rd_of_lt (by omega), some_bind, wr_of_lt (by omega), some_bind]
    by_cases hstop : cell digits i ≠ digitMask
    · rw [if_pos hstop]
      have hset := seg_set_in (B := digitBase) (l := digits) (s := 0) (v := cell digits i + 1) hlt (by omega)
      rw [Nat.zero_add, Nat.add_mul, Nat.one_mul] at hset
      refine Ends.pure ⟨by rw [List.length_set, hdlen], hd.set (by unfold digitBase digitMask at *; omega), ?_, ?_⟩
      · intro _
        dsimp only
        omega
      · intro h
        cases h
    · rw [if_neg hstop, wr_of_lt (by rw [List.length_set]; omega), some_bind, List.set_set]
      have hfull : cell digits i + 1 = digitBase := by
        rw [not_not] at hstop
        rw [hstop]
        rfl
      have hset := seg_set_in (B := digitBase) (l := digits) (s := 0) (v := 0) hlt (by omega)
      rw [Nat.zero_add, Nat.zero_mul, Nat.add_zero] at hset
      have hpow : digitBase ^ (i + 1) = cell digits i * digitBase ^ i + digitBase ^ i := by
        rw [pow_succ, Nat.mul_comm, ← hfull, Nat.add_mul, Nat.one_mul]
      have hlow : seg digitBase (digits.set i 0) 0 (i + 1) = 0 := by
        have h := seg_set_last (B := digitBase) (l := digits) (s := 0) (n := i) (v := 0) (by omega)
        rw [Nat.zero_add, hzeros, Nat.zero_mul] at h
        exact h
      refine Ends.pure ⟨⟨hlt, by rw [List.length_set, hdlen], hd.set digitBase_pos, hlow, ?_⟩, ?_⟩
      · dsimp only
        omega
      · dsimp only
        omega
  · obtain rfl : i = n := by omega
    rw [if_neg hlt]
    refine Ends.pure ⟨hdlen, hd, ?_, ?_⟩
    · intro h
      cases h
    · intro _
      refine ⟨hzeros, ?_⟩
      rw [← hsum, hzeros, Nat.zero_add]

theorem growInPlace_ends (memory : Bool) (ha : a.Canonical) (hsize : a.obSize ≠ 0) :
    Ends (growInPlace memory a) fun r =>
      (memory = true ∨ a.mag + 1 ≠ digitBase ^ a.absSize → r.1 = true ∧ r.2.Canonical ∧
        r.2.toInt = a.toInt + a.obSize.sign) ∧
      (memory = false → a.mag + 1 = digitBase ^ a.absSize → ¬r.2.Canonical) := by
  have hpos : 0 < a.absSize := by
    unfold absSize
    omega
  unfold growInPlace
  refine Ends.bind (carryLoop_ends ha.len ha.below) ?_
  rintro ⟨kept, digits⟩ ⟨hlen, hbelow, hkept, hall⟩
  dsimp only at hlen hbelow hkept hall ⊢
  have habs : absSize ⟨a.obSize, digits⟩ = a.absSize := rfl
  cases kept with
  | true =>
    rw [if_pos rfl]
    have hmag : mag ⟨a.obSize, digits⟩ = a.mag + 1 := hkept rfl
    have hcanon : Canonical ⟨a.obSize, digits⟩ := by
      refine WF.canonical ⟨habs ▸ hlen ▸ ha.len, habs ▸ hbelow⟩ ?_
      intro m hm
      rw [hmag]
      exact (ha.le_mag hm).trans (Nat.le_succ _)
    have hval : toInt ⟨a.obSize, digits⟩ = a.toInt + a.obSize.sign := by
      rcases lt_or_gt_of_ne hsize with h | h
      · rw [toInt_of_neg h, toInt_of_neg (x := ⟨a.obSize, digits⟩) h, hmag, Int.sign_eq_neg_one_of_neg h]
        push_cast
        ring
      · rw [toInt_of_nonneg h.le, toInt_of_nonneg (x := ⟨a.obSize, digits⟩) h.le, hmag, Int.sign_eq_one_of_pos h]
        push_cast
        ring
    have hlt := WF.mag_lt hcanon.toWF
    rw [hmag, habs] at hlt
    exact Ends.pure ⟨fun _ => ⟨rfl, hcanon, hval⟩, fun _ heq => absurd heq hlt.ne⟩
  | false =>
    obtain ⟨hzero, hfull⟩ := hall rfl
    have hfull' : a.mag + 1 = digitBase ^ a.absSize := hfull
    rw [if_neg Bool.false_ne_true]
    cases memory with
    | true =>
      rw [if_pos rfl]
      refine Ends.bind (fillCells_ends (by rw [deeIntAlloc_obDigit_length]; omega)) ?_
      rintro zeros ⟨hout, hin⟩
      have hzlen : zeros.length = a.absSize + 1 := by rw [hout.length, deeIntAlloc_obDigit_length]
      rw [wr_of_lt (by omega), some_bind, deeIntAlloc_obSize]
      have hset := seg_set_last (B := digitBase) (l := zeros) (s := 0) (n := a.absSize) (v := 1) (by omega)
      rw [Nat.zero_add, seg_eq_zero hin, Nat.zero_add, Nat.one_mul] at hset
      have hzbelow : Below digitBase (zeros.set a.absSize 1) 0 (a.absSize + 1) := by
        refine Below.succ (Below.set ?_ (by decide)) ?_
        · intro i hi
          rw [hin i hi]
          exact digitBase_pos
        · rw [Nat.zero_add, cell_set_self (by omega)]
          decide
      have hzabs : absSize ⟨if a.obSize < 0 then -((a.absSize + 1 : ℕ) : ℤ) else (a.absSize + 1 : ℕ),
          zeros.set a.absSize 1⟩ = a.absSize + 1 := by
        unfold absSize
        split_ifs <;> dsimp only <;> omega
      have hzmag : mag ⟨if a.obSize < 0 then -((a.absSize + 1 : ℕ) : ℤ) else (a.absSize + 1 : ℕ),
          zeros.set a.absSize 1⟩ = a.mag + 1 := by
        rw [mag, hzabs, hset, hfull']
      refine Ends.pure ⟨fun _ => ⟨rfl, WF.canonical ⟨?_, ?_⟩ ?_, ?_⟩, ?_⟩
      · rw [hzabs, List.length_set, hzlen]
      · rw [hzabs]
        exact hzbelow
      · intro m hm
        rw [hzabs] at hm
        rw [hzmag, hfull', Nat.succ_injective hm]
      · rcases lt_or_gt_of_ne hsize with h | h
        · rw [toInt_of_neg h, toInt_of_neg (by dsimp only; rw [if_pos h]; omega), hzmag, Int.sign_eq_neg_one_of_neg h]
          push_cast
          ring
        · rw [toInt_of_nonneg h.le, toInt_of_nonneg (by dsimp only; rw [if_neg (by omega)]; omega), hzmag,
            Int.sign_eq_one_of_pos h]
          push_cast
          ring
      · intro h
        cases h
    | false =>
      rw [if_neg Bool.false_ne_true]
      refine Ends.pure ⟨?_, ?_⟩
      · rintro (h | h)
        · cases h
        · exact absurd hfull' h
      · intro _ _ hcanon
        have hmag : 0 < mag ⟨a.obSize, digits⟩ := hcanon.mag_pos (by rw [habs]; exact hpos)
        have hnone : mag ⟨a.obSize, digits⟩ = 0 := hzero
        omega

/-- The borrow stops in a digit that is not zero. -/
theorem shrinkInPlace_ends (ha : a.Canonical) (hsize : a.obSize ≠ 0) :
    Ends (shrinkInPlace a) fun z =>
      (a.absSize = 1 ∨ a.mag ≠ digitBase ^ (a.absSize - 1) → z.Canonical ∧ z.toInt = a.toInt - a.obSize.sign) ∧
      (a.absSize ≠ 1 → a.mag = digitBase ^ (a.absSize - 1) → ¬z.Canonical) := by
  have hpos : 0 < a.absSize := by
    unfold absSize
    omega
  have hmagpos := ha.mag_pos hpos
  -- the digits below `i` were zero and have the largest digit now: the borrow is still to be taken at `i`
  refine loop_ends (fun s => s.1 ≤ a.absSize ∧ s.2.length = a.obDigit.length ∧ Below digitBase s.2 0 a.absSize ∧
      seg digitBase s.2 0 s.1 + 1 = digitBase ^ s.1 ∧ seg digitBase s.2 0 a.absSize + 1 = a.mag + digitBase ^ s.1)
    (fun s => a.absSize - s.1) ⟨Nat.zero_le _, rfl, ha.below, rfl, rfl⟩ (by dsimp only; omega) ?_
  rintro ⟨i, digits⟩ ⟨hi, hdlen, hd, hfull, hsum⟩
  dsimp only at hi hdlen hd hfull hsum
  have hlen := ha.len
  have hlt : i < a.absSize := by
    by_contra hge
    obtain rfl : i = a.absSize := by omega
    omega
  have hcell := hd i hlt
  rw [Nat.zero_add] at hcell
  unfold borrowRound
  dsimp only
  rw [assert_of hlt, some_bind, rd_of_lt (by omega), some_bind]
  by_cases hzero : cell digits i = 0
  · rw [if_pos hzero, wr_of_lt (by omega), some_bind]
    have hmask : digitMask + 1 = digitBase := rfl
    have hset := seg_set_in (B := digitBase) (l := digits) (s := 0) (v := digitMask) hlt (by omega)
    have hpow : digitBase ^ (i + 1) = digitMask * digitBase ^ i + digitBase ^ i := by
      rw [pow_succ, Nat.mul_comm, ← hmask, Nat.add_mul, Nat.one_mul]
    have hlow := seg_set_last (B := digitBase) (l := digits) (s := 0) (n := i) (v := digitMask) (by omega)
    rw [Nat.zero_add, hzero, Nat.zero_mul, Nat.add_zero] at hset
    rw [Nat.zero_add] at hlow
    refine Ends.pure ⟨⟨hlt, by rw [List.length_set, hdlen], hd.set (by decide), ?_, ?_⟩, ?_⟩
    · dsimp only
      omega
    · dsimp only
      omega
    · dsimp only
      omega
  · rw [if_neg hzero]
    by_cases hone : cell digits i = 1 ∧ a.absSize = 1
    · obtain rfl : i = 0 := by omega
      rw [if_pos hone, assert_of rfl, some_bind]
      rw [hone.2, seg_one, hone.1, pow_zero] at hsum
      refine Ends.pure ⟨fun _ => ⟨deeIntNewZero_canonical.1, ?_⟩, fun h => absurd hone.2 h⟩
      rw [deeIntNewZero_canonical.2]
      rcases lt_or_gt_of_ne hsize with h | h
      · rw [toInt_of_neg h, Int.sign_eq_neg_one_of_neg h]
        omega
      · rw [toInt_of_nonneg h.le, Int.sign_eq_one_of_pos h]
        omega
    · rw [if_neg hone, wr_of_lt (by omega), some_bind]
      have hset := seg_set_in (B := digitBase) (l := digits) (s := 0) (v := cell digits i - 1) hlt (by omega)
      have hdigit : cell digits i * digitBase ^ i = (cell digits i - 1) * digitBase ^ i + digitBase ^ i := by
        obtain ⟨d, hd'⟩ := Nat.exists_eq_succ_of_ne_zero hzero
        rw [hd', Nat.succ_sub_one, Nat.succ_mul]
      rw [Nat.zero_add] at hset
      have habs : absSize ⟨a.obSize, digits.set i (cell digits i - 1)⟩ = a.absSize := rfl
      have hmag : mag ⟨a.obSize, digits.set i (cell digits i - 1)⟩ + 1 = a.mag := by
        rw [mag, habs]
        dsimp only
        omega
      refine Ends.pure ⟨?_, ?_⟩
      · intro hkeep
        refine ⟨WF.canonical ⟨?_, ?_⟩ ?_, ?_⟩
        · rw [habs, List.length_set, hdlen]
          exact hlen
        · rw [habs]
          exact hd.set (by omega)
        · intro m hm
          have hle := ha.le_mag (n := m) hm
          have hne : a.mag ≠ digitBase ^ m := by
            rcases hkeep with h1 | h1
            · obtain rfl : m = 0 := by omega
              rw [pow_zero]
              intro hmag1
              obtain rfl : i = 0 := by omega
              rw [h1, seg_one, hmag1, pow_zero] at hsum
              exact hone ⟨by omega, h1⟩
            · rwa [show a.absSize - 1 = m by omega] at h1
          omega
        · rcases lt_or_gt_of_ne hsize with h | h
          · rw [toInt_of_neg h, toInt_of_neg (x := ⟨a.obSize, digits.set i (cell digits i - 1)⟩) h, Int.sign_eq_neg_one_of_neg h]
            omega
          · rw [toInt_of_nonneg h.le, toInt_of_nonneg (x := ⟨a.obSize, digits.set i (cell digits i - 1)⟩) h.le, Int.sign_eq_one_of_pos h]
            omega
      · intro _ hpower hcanon
        have hle := hcanon.le_mag (n := a.absSize - 1) (by rw [habs]; omega)
        omega

end InPlace

/-! ### Both directions -/

section Steps

variable {a : DeeInt} {up shared memory : Bool}

/-- `int_inc` or `int_dec`. -/
def intStep (up shared memory : Bool) (a : DeeInt) : Option (Bool × DeeInt) :=
  if up then intInc shared memory a else intDec shared memory a

/-- The step of `intStep`. -/
def stepSize (up : Bool) : ℤ := if up then 1 else -1

/-- The step goes away from zero. -/
def Grows (up : Bool) (a : DeeInt) : Prop := stepSize up * a.obSize > 0

/-- The step goes towards zero. -/
def Shrinks (up : Bool) (a : DeeInt) : Prop := stepSize up * a.obSize < 0

/-- A magnitude of several digits all of which are zero but the top one, which is one. -/
def PowerOfBase (a : DeeInt) : Prop := a.absSize ≠ 1 ∧ a.mag = digitBase ^ (a.absSize - 1)

/-- A magnitude with the largest digit in each place. -/
def AllDigitsFull (a : DeeInt) : Prop := a.mag + 1 = digitBase ^ a.absSize

theorem replaceBy_ends (up : Bool) {val : ℤ} (ha : a.Canonical) (hval : val = a.toInt + stepSize up) :
    Ends (do some (replaceBy a (← deeIntNewMedian memory val))) (StepsBy (stepSize up) a) := by
  unfold deeIntNewMedian
  by_cases hroom : memory = true ∨ -128 ≤ val ∧ val ≤ 255
  · obtain ⟨z, hz, hcanon, hzval⟩ := newSigned_ends val
    have hnew : deeIntNewInt32 val = some z := hz
    rw [if_pos hroom, hnew]
    exact Ends.pure (.of_canonical hcanon (hzval.trans hval))
  · rw [if_neg hroom]
    exact Ends.pure (.of_canonical ha rfl)

theorem intInc_shared (ha : a.Canonical) : Ends (intInc true memory a) (StepsBy 1 a) := by
  unfold intInc
  rw [if_neg Bool.noConfusion]
  by_cases hsmall : a.absSize ≤ 1
  · obtain ⟨hval, hlo, hhi⟩ := mediumValue_eq ha hsmall
    rw [if_pos hsmall, hval, some_bind, sfits_of (by unfold digitBase at *; omega), some_bind]
    exact replaceBy_ends true ha rfl
  · rw [if_neg hsmall]
    cases memory with
    | false => exact Ends.pure (.of_canonical ha rfl)
    | true =>
      rw [if_neg Bool.noConfusion]
      by_cases hneg : a.obSize < 0
      · rw [if_pos hneg]
        refine Ends.bind (xSubRevint_ends ha (by omega) (by decide)) ?_
        rintro z ⟨hz, hval⟩
        refine Ends.pure (.of_canonical hz ?_)
        dsimp only
        rw [if_pos rfl, hval, toInt_of_neg hneg]
        push_cast
        ring
      · rw [if_neg hneg]
        refine Ends.bind (xAddInt_ends ha.toWF (by omega) (by decide)) ?_
        rintro z ⟨hz, hval⟩
        refine Ends.pure (.of_canonical hz ?_)
        dsimp only
        rw [if_pos rfl, hval, toInt_of_nonneg (by omega)]
        push_cast
        ring

theorem intDec_shared (ha : a.Canonical) : Ends (intDec true memory a) (StepsBy (-1) a) := by
  unfold intDec
  rw [if_neg Bool.noConfusion]
  by_cases hsmall : a.absSize ≤ 1
  · obtain ⟨hval, hlo, hhi⟩ := mediumValue_eq ha hsmall
    rw [if_pos hsmall, hval, some_bind, sfits_of (by unfold digitBase at *; omega), some_bind]
    exact replaceBy_ends false ha rfl
  · rw [if_neg hsmall]
    cases memory with
    | false => exact Ends.pure (.of_canonical ha rfl)
    | true =>
      rw [if_neg Bool.noConfusion]
      by_cases hneg : a.obSize < 0
      · rw [if_pos hneg]
        refine Ends.bind (xAddInt_ends ha.toWF (by omega) (by decide)) ?_
        rintro z ⟨hz, hval⟩
        refine Ends.pure (.of_canonical hz.neg ?_)
        dsimp only
        rw [if_pos rfl, negSize, toInt_neg, hval, toInt_of_neg hneg]
        push_cast
        ring
      · rw [if_neg hneg]
        refine Ends.bind (xSubInt_ends ha (by omega) (by decide)) ?_
        rintro z ⟨hz, hval⟩
        refine Ends.pure (.of_canonical hz ?_)
        dsimp only
        rw [if_pos rfl, hval, toInt_of_nonneg (by omega)]
        push_cast
        ring

/-- A step of an object that is not shared, by the direction of the edit. -/
theorem intStep_unshared (hsize : a.obSize ≠ 0) : intStep up false memory a =
    if stepSize up * a.obSize > 0 then growInPlace memory a else (do some (true, ← shrinkInPlace a)) := by
  cases up with
  | true =>
    unfold intStep intInc stepSize
    simp only [if_true, hsize, if_false, one_mul, gt_iff_lt]
  | false =>
    unfold intStep intDec stepSize
    simp only [Bool.false_eq_true, if_false, if_true, hsize, neg_one_mul, gt_iff_lt, Left.neg_pos_iff]
    by_cases hpos : 0 < a.obSize
    · rw [if_pos hpos, if_neg (by omega)]
    · rw [if_neg hpos, if_pos (by omega)]

end Steps

end Deemon.Int
