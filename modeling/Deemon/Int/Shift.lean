import Deemon.Int.DivMod

/-!
# Inversion and shifts

`int_inv`, `int_shl` and `int_shr`. The shift count is an integer object; `DeeObject_AsSize` reads it through
`DeeInt_TryGet64Bit`, and a count that is negative or has more than 64 bits is a `NegativeShift` error.
-/

namespace Deemon.Int

open Deemon.Run Deemon.Radix DeeInt

/-! ### Inversion -/

/-- `int_inv`. -/
def intInv (v : DeeInt) : Option DeeInt :=
  if v.absSize ≤ 1 then do
    deeIntNewInt32 (← sfits 32 (-(← sfits 32 ((← mediumValue v) + 1))))
  else do
    some (negSize (← intAdd v deeIntOne))

theorem intInv_ends {v : DeeInt} (hv : v.Canonical) :
    Ends (intInv v) fun z => z.Canonical ∧ z.toInt = -v.toInt - 1 := by
  unfold intInv
  split_ifs with hsize
  · obtain ⟨hval, hlo, hhi⟩ := mediumValue_eq hv hsize
    rw [hval, some_bind, sfits_of (by unfold digitBase at *; omega), some_bind,
      sfits_of (by unfold digitBase at *; omega), some_bind]
    exact (newSigned_ends _).mono fun z ⟨hz, hzv⟩ => ⟨hz, by rw [hzv]; ring⟩
  · refine Ends.bind (intAdd_ends hv deeIntOne_canonical.1) fun x ⟨hx, hxv⟩ => Ends.pure ⟨hx.neg, ?_⟩
    rw [negSize, toInt_neg, hxv, deeIntOne_canonical.2]
    ring

/-! ### Shift counts -/

/-- What `DeeInt_TryGet64Bit` says about the value it stores. -/
inductive IntKind where
  /-- `INT_UNSIGNED`. -/
  | unsigned
  /-- `INT_SIGNED`. -/
  | signed
  /-- `INT_POS_OVERFLOW`. -/
  | posOverflow
  /-- `INT_NEG_OVERFLOW`. -/
  | negOverflow
  deriving DecidableEq, Repr

/-- `DeeInt_TryGet64Bit`: the kind and the 64 bits stored in `*result` (0 where nothing is). -/
def deeIntTryGet64Bit (me : DeeInt) : Option (IntKind × ℕ) :=
  if me.obSize = 0 then some (.unsigned, 0)
  else if me.obSize = 1 then do some (.unsigned, ← rd me.obDigit 0)
  else if me.obSize = -1 then do some (.signed, (2 ^ 64 - (← rd me.obDigit 0)) % 2 ^ 64)
  else do
    let negative := me.obSize < 0
    let value ← loop (fun (i, value) =>
      if i = 0 then some (.done (some value))
      else do
        let next := (value <<< digitBits) % 2 ^ 64 ||| (← rd me.obDigit (i - 1))
        -- `(result_value >> DIGIT_BITS) != prev`: the shift has dropped bits
        some (if next >>> digitBits ≠ value then .done none else .next (i - 1, next)))
      (me.absSize + 1) (me.absSize, 0)
    match value with
    | none => some (if negative then .negOverflow else .posOverflow, 0)
    | some value =>
      if negative then
        some (if 2 ^ 63 < value then (.negOverflow, 0) else (.signed, (2 ^ 64 - value) % 2 ^ 64))
      else
        some (.unsigned, value)

/-- `DeeObject_AsSize` of an integer; `none` inside is the overflow error. -/
def deeObjectAsSize (self : DeeInt) : Option (Option ℕ) := do
  match ← deeIntTryGet64Bit self with
  | (.unsigned, bits) => some (some bits)
  | (.signed, bits) => some (if 2 ^ 63 ≤ bits then none else some bits)
  | _ => some none

theorem shl_or_digit {value d : ℕ} (hd : d < digitBase) :
    ((value <<< digitBits) % 2 ^ 64 ||| d) = value % 2 ^ 34 * digitBase + d := by
  have hmod : (value <<< digitBits) % 2 ^ 64 = (value % 2 ^ 34) <<< digitBits := by
    rw [Nat.shiftLeft_eq, Nat.shiftLeft_eq]
    unfold digitBits
    omega
  rw [hmod, shiftLeft_or (d := digitBits) hd]

theorem deeIntTryGet64Bit_ends {me : DeeInt} (h : me.Canonical) : Ends (deeIntTryGet64Bit me) fun r =>
    (0 ≤ me.toInt ∧ me.toInt < 2 ^ 64 ∧ r = (.unsigned, me.toInt.toNat)) ∨
    (2 ^ 64 ≤ me.toInt ∧ r.1 = .posOverflow) ∨
    (-2 ^ 63 ≤ me.toInt ∧ me.toInt < 0 ∧ r = (.signed, (me.toInt + 2 ^ 64).toNat)) ∨
    (me.toInt < -2 ^ 63 ∧ r.1 = .negOverflow) := by
  have hneg := h.toInt_neg_iff
  have habs := natAbs_toInt me
  unfold deeIntTryGet64Bit
  by_cases h0 : me.obSize = 0
  · rw [if_pos h0]
    have hzero := toInt_of_absSize_zero (x := me) (by unfold absSize; omega)
    exact Ends.pure (Or.inl ⟨by omega, by omega, by rw [hzero]; rfl⟩)
  have hpos := h.mag_pos (by unfold absSize; omega)
  by_cases h1 : me.obSize = 1 ∨ me.obSize = -1
  · have hone : me.absSize = 1 := by unfold absSize; omega
    have hmag : me.mag = cell me.obDigit 0 := by rw [mag, hone, seg_one]
    have hlt := h.cell_lt (i := 0) (by omega)
    unfold digitBase at hlt
    rw [if_neg h0, rd_of_lt (h.lt_length (by omega)), some_bind, some_bind]
    split_ifs with hp hm
    · refine Ends.pure (Or.inl ⟨by omega, by omega, ?_⟩)
      rw [toInt_of_nonneg (by omega), hmag, Int.toNat_natCast]
    · have hval := toInt_of_neg (x := me) (by omega)
      refine Ends.pure (Or.inr (Or.inr (Or.inl ⟨by omega, by omega, Prod.ext rfl ?_⟩)))
      dsimp only
      omega
    · omega
  rw [if_neg h0, if_neg (by omega), if_neg (by omega)]
  refine Ends.bind (P := fun r => match r with
    | none => 2 ^ 64 ≤ me.mag
    | some v => v = me.mag ∧ v < 2 ^ 64) ?_ ?_
  · refine loop_ends (fun s => s.1 ≤ me.absSize ∧ s.2 = seg digitBase me.obDigit s.1 (me.absSize - s.1) ∧
      s.2 < 2 ^ 64) (fun s => s.1) ⟨le_rfl, by simp, by simp⟩ (by simp) ?_
    rintro ⟨i, v⟩ ⟨hi, hv, hlt⟩
    dsimp only at hi hv hlt ⊢
    split_ifs with hz
    · subst hz
      exact Ends.pure ⟨by rw [hv, mag, Nat.sub_zero], hlt⟩
    · obtain ⟨k, rfl⟩ : ∃ k, i = k + 1 := ⟨i - 1, by omega⟩
      have hd := h.cell_lt (i := k) (by omega)
      have hk : seg digitBase me.obDigit k (me.absSize - k) = v * digitBase + cell me.obDigit k := by
        rw [show me.absSize - k = me.absSize - (k + 1) + 1 by omega, seg_succ_front, ← hv]
        ring
      rw [Nat.add_sub_cancel, rd_of_lt (h.lt_length (by omega)), some_bind, shl_or_digit hd]
      have hshift : (v % 2 ^ 34 * digitBase + cell me.obDigit k) >>> digitBits = v % 2 ^ 34 := by
        rw [shiftRight_digitBits]
        unfold digitBase at *
        omega
      rw [hshift]
      refine Ends.pure ?_
      split_ifs with hover
      · have hbig : 2 ^ 34 ≤ v := by
          by_contra hsmall
          exact hover (Nat.mod_eq_of_lt (by omega))
        have hle : seg digitBase me.obDigit k (me.absSize - k) ≤ me.mag := by
          have hsplit := seg_add (B := digitBase) (l := me.obDigit) (s := 0) (m := k) (n := me.absSize - k)
          rw [Nat.add_sub_cancel' (by omega), Nat.zero_add] at hsplit
          have h1 : 1 * seg digitBase me.obDigit k (me.absSize - k) ≤
              digitBase ^ k * seg digitBase me.obDigit k (me.absSize - k) :=
            Nat.mul_le_mul_right _ (Nat.pow_pos digitBase_pos)
          unfold mag
          omega
        change 2 ^ 64 ≤ me.mag
        rw [hk] at hle
        unfold digitBase at hle
        omega
      · have hmod : v % 2 ^ 34 = v := by omega
        rw [hmod]
        refine ⟨⟨by dsimp only; omega, hk.symm, ?_⟩, by simp⟩
        dsimp only
        unfold digitBase at *
        omega
  rintro (_ | v) hv
  · dsimp only at hv ⊢
    refine Ends.pure ?_
    by_cases hn : me.obSize < 0
    · have hval := toInt_of_neg hn
      exact Or.inr (Or.inr (Or.inr ⟨by omega, by simp [hn]⟩))
    · have hval := toInt_of_nonneg (x := me) (by omega)
      exact Or.inr (Or.inl ⟨by omega, by simp [hn]⟩)
  · obtain ⟨rfl, hlt⟩ := hv
    dsimp only
    split_ifs with hn hbig
    · have hval := toInt_of_neg hn
      exact Ends.pure (Or.inr (Or.inr (Or.inr ⟨by omega, rfl⟩)))
    · have hval := toInt_of_neg hn
      refine Ends.pure (Or.inr (Or.inr (Or.inl ⟨by omega, by omega, Prod.ext rfl ?_⟩)))
      dsimp only
      omega
    · have hval := toInt_of_nonneg (x := me) (by omega)
      exact Ends.pure (Or.inl ⟨by omega, by omega, by rw [hval, Int.toNat_natCast]⟩)

theorem deeObjectAsSize_ends {n : DeeInt} (h : n.Canonical) : Ends (deeObjectAsSize n) fun r =>
    r = if 0 ≤ n.toInt ∧ n.toInt < 2 ^ 64 then some n.toInt.toNat else none := by
  unfold deeObjectAsSize
  refine Ends.bind (deeIntTryGet64Bit_ends h) ?_
  rintro ⟨kind, bits⟩ (⟨h0, h1, hr⟩ | ⟨h0, hr⟩ | ⟨h0, h1, hr⟩ | ⟨h0, hr⟩)
  · obtain ⟨rfl, rfl⟩ := Prod.mk.inj hr
    exact Ends.pure (by rw [if_pos ⟨h0, h1⟩])
  · obtain rfl : kind = .posOverflow := hr
    exact Ends.pure (by rw [if_neg (by omega)])
  · obtain ⟨rfl, rfl⟩ := Prod.mk.inj hr
    exact Ends.pure (by rw [if_pos (by omega), if_neg (by omega)])
  · obtain rfl : kind = .negOverflow := hr
    exact Ends.pure (by rw [if_neg (by omega)])

/-! ### Shift to the left -/

/-- `int_shl`. -/
def intShl (a b : DeeInt) : Option (Except IntError DeeInt) := do
  match ← deeObjectAsSize b with
  | none => some (.error (.negativeShiftOverflow a true))
  | some shiftby =>
    let wordshift := shiftby / digitBits
    let remshift := shiftby - wordshift * digitBits
    let oldsize := a.absSize
    let newsize := oldsize + wordshift + if remshift ≠ 0 then 1 else 0
    let digits ← fillCells (deeIntAlloc newsize).obDigit 0 0 wordshift
    let (accum, digits) ← forLoop (fun j (accum, digits) => do
      lshiftRound digits (wordshift + j) remshift accum (← rd a.obDigit j)) 0 oldsize (0, digits)
    let digits ← (if remshift ≠ 0 then do
        wr digits (newsize - 1) (← fits 32 accum)
      else do
        assert (accum = 0)
        some digits)
    let result ← intNormalize ⟨if a.obSize < 0 then -newsize else newsize, digits⟩
    some (.ok result)

/-- Reading off `a`'s sign when its digits have been exchanged for those of `v`. -/
theorem intNormalize_sign {a : DeeInt} {n v : ℕ} {l : List ℕ} (hlen : n ≤ l.length) (hbelow : Below digitBase l 0 n)
    (hval : seg digitBase l 0 n = v) :
    Ends (intNormalize ⟨if a.obSize < 0 then -n else n, l⟩) fun z =>
      z.Canonical ∧ z.toInt = if a.obSize < 0 then -(v : ℤ) else v := by
  split_ifs with hneg
  · exact (intNormalize_neg hlen hbelow).mono fun z ⟨hz, hzv⟩ => ⟨hz, by rw [hzv, hval]⟩
  · exact (intNormalize_pos hlen hbelow).mono fun z ⟨hz, hzv⟩ => ⟨hz, by rw [hzv, hval]⟩

theorem two_pow_eq (n : ℕ) : 2 ^ n = digitBase ^ (n / digitBits) * 2 ^ (n % digitBits) := by
  unfold digitBase
  rw [← pow_mul, ← pow_add, Nat.div_add_mod]

theorem intShl_ends {a n : DeeInt} (ha : a.Canonical) (hn : n.Canonical) (h0 : 0 ≤ n.toInt) (h64 : n.toInt < 2 ^ 64) :
    Ends (intShl a n) fun r => ∃ z, r = .ok z ∧ z.Canonical ∧ z.toInt = a.toInt * 2 ^ n.toInt.toNat := by
  unfold intShl
  refine Ends.bind (deeObjectAsSize_ends hn) ?_
  rintro - rfl
  rw [if_pos ⟨h0, h64⟩]
  dsimp only
  generalize n.toInt.toNat = s
  rw [show s - s / digitBits * digitBits = s % digitBits by have := Nat.div_add_mod' s digitBits; omega]
  have hpow := two_pow_eq s
  have hd : s % digitBits < digitBits := Nat.mod_lt _ (by norm_num)
  generalize s / digitBits = ws at hpow ⊢
  generalize s % digitBits = d at hpow hd ⊢
  generalize hnew : a.absSize + ws + (if d ≠ 0 then 1 else 0) = newsize
  have hnewle : a.absSize + ws ≤ newsize := by omega
  have halen := ha.len
  refine Ends.bind (fillCells_ends (by simp; omega)) fun z₀ ⟨hout₀, hzero⟩ => ?_
  have hlen₀ : z₀.length = newsize := by simpa using hout₀.length
  refine Ends.bind (P := fun r => r.1 < 2 ^ d ∧ SameOut z₀ r.2 ws a.absSize ∧
    Carried newsize ws a.absSize (a.mag * 2 ^ d) r) ?_ ?_
  · refine forLoop_ends_zero (fun i (r : ℕ × List ℕ) => r.1 < 2 ^ d ∧ SameOut z₀ r.2 ws i ∧
      Carried newsize ws i (seg digitBase a.obDigit 0 i * 2 ^ d) r) ?_ ?_
    · exact ⟨Nat.pow_pos (by norm_num), SameOut.refl, hlen₀, fun i hi => by omega, by simp⟩
    rintro i ⟨c, r⟩ hi ⟨hc, hout, hrow⟩
    dsimp only at hc hout ⊢
    rw [rd_of_lt (by omega), some_bind]
    refine (lshiftRound_ends hrow (by omega) hd hc (ha.cell_lt hi)).mono fun r' ⟨hc', hout', hrow'⟩ =>
      ⟨hc', (hout.mono le_rfl (by omega)).trans (hout'.mono (by omega) (by omega)), ?_⟩
    rw [seg_succ, Nat.zero_add]
    convert hrow' using 1
    ring
  rintro ⟨c, z⟩ ⟨hc, hout, hlen, hbelow, hval⟩
  dsimp only at hc hout hlen hbelow hval ⊢
  -- the digits of the result: zeros, the shifted digits, and the carry where there is room for it
  have hlow : seg digitBase z 0 ws = 0 := seg_eq_zero fun i hi => by
    rw [hout.out _ (by omega), hzero i hi]
  have hall : Below digitBase z 0 (ws + a.absSize) := fun i hi => by
    by_cases hiw : i < ws
    · rw [hout.out _ (by omega), hzero i hiw]
      exact digitBase_pos
    · have := hbelow (i - ws) (by omega)
      rwa [show ws + (i - ws) = 0 + i by omega] at this
  have htotal : seg digitBase z 0 (ws + a.absSize) + c * digitBase ^ (ws + a.absSize) = a.mag * 2 ^ s := by
    rw [seg_add, Nat.zero_add, hlow, Nat.zero_add, pow_add, hpow]
    linear_combination digitBase ^ ws * hval
  have hfinish : ∀ {l : List ℕ}, l.length = newsize → Below digitBase l 0 newsize →
      seg digitBase l 0 newsize = a.mag * 2 ^ s → Ends (do
        let result ← intNormalize ⟨if a.obSize < 0 then -newsize else newsize, l⟩
        some (.ok result : Except IntError DeeInt)) fun r =>
      ∃ z, r = .ok z ∧ z.Canonical ∧ z.toInt = a.toInt * 2 ^ s := fun {l} hl hb hv => by
    refine Ends.bind (intNormalize_sign hl.ge hb hv) fun z ⟨hz, hzv⟩ => Ends.pure ⟨z, rfl, hz, ?_⟩
    rw [hzv]
    unfold toInt
    split_ifs
    · push_cast
      ring
    · push_cast
      ring
  by_cases hd0 : d = 0
  · subst hd0
    have hc0 : c = 0 := by simpa using hc
    rw [if_neg (by simp), assert_of hc0, some_bind, some_bind]
    have hsize : newsize = ws + a.absSize := by
      simp at hnew
      omega
    rw [hc0, Nat.zero_mul, Nat.add_zero] at htotal
    exact hfinish hlen (hsize ▸ hall) (hsize ▸ htotal)
  · have hc29 : 2 ^ d ≤ 2 ^ 29 := Nat.pow_le_pow_right (by norm_num) (by unfold digitBits at hd; omega)
    have hsize : newsize = ws + a.absSize + 1 := by
      rw [if_pos hd0] at hnew
      omega
    rw [if_pos hd0, fits_of_lt (by omega), some_bind, wr_of_lt (by omega), some_bind,
      show newsize - 1 = ws + a.absSize by omega]
    have hset := seg_set_last (B := digitBase) (l := z) (s := 0) (n := ws + a.absSize) (v := c) (by omega)
    rw [Nat.zero_add, htotal] at hset
    refine hfinish (by simpa using hlen) ?_ (hsize ▸ hset)
    rw [hsize]
    refine (hall.set (by unfold digitBase; omega)).succ ?_
    rw [Nat.zero_add, cell_set_self (by omega)]
    unfold digitBase
    omega

/-! ### Shift to the right -/

/-- The branch of `int_shr` for an integer that is not negative. -/
def intShrNonneg (a b : DeeInt) : Option (Except IntError DeeInt) := do
  match ← deeObjectAsSize b with
  | none => some (.error (.negativeShiftOverflow a false))
  | some shiftby =>
    let wordshift := shiftby / digitBits
    let lhsSize := a.absSize
    if lhsSize ≤ wordshift then
      some (.ok deeIntNewZero)
    else do
      let newsize := lhsSize - wordshift
      let loshift := shiftby % digitBits
      let hishift := digitBits - loshift
      let lomask := 1 <<< hishift - 1
      let himask := digitMask ^^^ lomask
      let digits ← forLoop (fun i z => do
        let z ← wr z i ((← rd a.obDigit (wordshift + i)) >>> loshift &&& lomask)
        if i + 1 < newsize then do
          let next ← rd a.obDigit (wordshift + i + 1)
          wr z i ((← rd z i) ||| ((next <<< hishift) % 2 ^ 32 &&& himask))
        else some z) 0 newsize (deeIntAlloc newsize).obDigit
      let z ← intNormalize ⟨if a.obSize < 0 then -newsize else newsize, digits⟩
      some (.ok z)

/-- `int_shr`, with fuel for its recursion on the inverse of a negative integer. -/
def intShrFuel : ℕ → DeeInt → DeeInt → Option (Except IntError DeeInt)
  | 0, _, _ => none
  | fuel + 1, a, b =>
    if a.obSize < 0 then do
      let a1 ← intInv a
      match ← intShrFuel fuel a1 b with
      | .error e => some (.error e)
      | .ok a2 => some (.ok (← intInv a2))
    else
      intShrNonneg a b

/-- `int_shr`: an inverse is not negative, so two rounds are enough. -/
def intShr (a b : DeeInt) : Option (Except IntError DeeInt) := intShrFuel 2 a b

/-- The part of `int_shr` that comes from the next digit. -/
theorem himask_and {x lo hi : ℕ} (hsum : lo + hi = digitBits) :
    (x <<< hi) % 2 ^ 32 &&& (digitMask ^^^ (1 <<< hi - 1)) = (x % 2 ^ lo) <<< hi := by
  unfold digitBits at hsum
  rw [Nat.one_shiftLeft]
  refine Nat.eq_of_testBit_eq fun i => ?_
  rw [Nat.testBit_and, Nat.testBit_xor, Nat.testBit_two_pow_sub_one, Nat.testBit_two_pow_sub_one,
    Nat.testBit_mod_two_pow, Nat.testBit_shiftLeft, Nat.testBit_shiftLeft, Nat.testBit_mod_two_pow]
  by_cases h1 : i < hi
  · simp [h1, show ¬hi ≤ i by omega, show i < 30 by omega]
  · by_cases h2 : i < 30
    · simp [h1, h2, show i < 32 by omega, show i - hi < lo by omega]
    · simp [h1, h2, show ¬ i - hi < lo by omega]

/-- One digit of a shift to the right. -/
theorem shr_digit {x y lo hi : ℕ} (hsum : lo + hi = digitBits) (hx : x < digitBase) :
    (x >>> lo &&& (1 <<< hi - 1) ||| ((y <<< hi) % 2 ^ 32 &&& (digitMask ^^^ (1 <<< hi - 1)))) =
      x / 2 ^ lo + y % 2 ^ lo * 2 ^ hi := by
  have hbase : digitBase = 2 ^ lo * 2 ^ hi := by rw [← pow_add, hsum]
  have hlt : x / 2 ^ lo < 2 ^ hi := (Nat.div_lt_iff_lt_mul (Nat.pow_pos (by norm_num))).mpr (by
    rwa [Nat.mul_comm, ← hbase])
  rw [himask_and hsum, Nat.one_shiftLeft, Nat.and_two_pow_sub_one_eq_mod, Nat.shiftRight_eq_div_pow,
    Nat.mod_eq_of_lt hlt, Nat.or_comm, shiftLeft_or hlt, Nat.add_comm]

theorem intShrNonneg_ends {a n : DeeInt} (ha : a.Canonical) (hpos : 0 ≤ a.obSize) (hn : n.Canonical)
    (h0 : 0 ≤ n.toInt) (h64 : n.toInt < 2 ^ 64) :
    Ends (intShrNonneg a n) fun r => ∃ z, r = .ok z ∧ z.Canonical ∧ z.toInt = a.toInt / 2 ^ n.toInt.toNat := by
  unfold intShrNonneg
  refine Ends.bind (deeObjectAsSize_ends hn) ?_
  rintro - rfl
  rw [if_pos ⟨h0, h64⟩, toInt_of_nonneg hpos]
  dsimp only
  generalize n.toInt.toNat = s
  have hpow := two_pow_eq s
  have hd : s % digitBits < digitBits := Nat.mod_lt _ (by norm_num)
  generalize s / digitBits = ws at hpow ⊢
  generalize s % digitBits = lo at hpow hd ⊢
  obtain ⟨hi, hsum⟩ : ∃ hi, lo + hi = digitBits := ⟨digitBits - lo, by omega⟩
  rw [show digitBits - lo = hi by omega]
  have hbase : digitBase = 2 ^ lo * 2 ^ hi := by rw [← pow_add, hsum]
  have hlopos : 0 < 2 ^ lo := Nat.pow_pos (by norm_num)
  have halen := ha.len
  have hcast : ((a.mag : ℤ) / 2 ^ s) = ((a.mag / 2 ^ s : ℕ) : ℤ) := by push_cast; rfl
  rw [hcast, if_neg (show ¬a.obSize < 0 by omega)]
  by_cases hsize : a.absSize ≤ ws
  · rw [if_pos hsize]
    refine Ends.pure ⟨deeIntNewZero, rfl, deeIntNewZero_canonical.1, ?_⟩
    have hle : digitBase ^ a.absSize ≤ 2 ^ s := by
      rw [hpow]
      exact le_trans (Nat.pow_le_pow_right digitBase_pos hsize) (Nat.le_mul_of_pos_right _ hlopos)
    rw [deeIntNewZero_canonical.2, Nat.div_eq_of_lt (lt_of_lt_of_le ha.mag_lt hle)]
    rfl
  obtain ⟨m, hm⟩ : ∃ m, a.absSize = ws + m := ⟨a.absSize - ws, by omega⟩
  rw [if_neg hsize, show a.absSize - ws = m by omega]
  -- what is left of the digits read so far sits in the low bits that the next digit gives up
  refine Ends.bind (P := fun z => z.length = m ∧ Below digitBase z 0 m ∧
    2 ^ lo * seg digitBase z 0 m + cell a.obDigit ws % 2 ^ lo = seg digitBase a.obDigit ws m) ?_ ?_
  · have hloop := forLoop_ends_zero (f := fun i z => do
        let z ← wr z i ((← rd a.obDigit (ws + i)) >>> lo &&& (1 <<< hi - 1))
        if i + 1 < m then do
          let next ← rd a.obDigit (ws + i + 1)
          wr z i ((← rd z i) ||| ((next <<< hi) % 2 ^ 32 &&& (digitMask ^^^ (1 <<< hi - 1))))
        else some z) (n := m) (s := (deeIntAlloc m).obDigit) (fun i z => z.length = m ∧ Below digitBase z 0 i ∧
      2 ^ lo * seg digitBase z 0 i + cell a.obDigit ws % 2 ^ lo = seg digitBase a.obDigit ws i +
        (if i < m then cell a.obDigit (ws + i) else 0) % 2 ^ lo * digitBase ^ i) ?_ ?_
    · exact hloop.mono fun z ⟨hl, hb, hv⟩ => ⟨hl, hb, by simpa using hv⟩
    · refine ⟨by simp, fun i hi => by omega, ?_⟩
      rw [if_pos (by omega)]
      simp
    rintro i z him ⟨hl, hb, hv⟩
    have hx := ha.cell_lt (i := ws + i) (by omega)
    -- both branches store the same digit, with 0 for the digit behind the last one
    have hwrite : Ends (do
        let z ← wr z i ((← rd a.obDigit (ws + i)) >>> lo &&& (1 <<< hi - 1))
        if i + 1 < m then do
          let next ← rd a.obDigit (ws + i + 1)
          wr z i ((← rd z i) ||| ((next <<< hi) % 2 ^ 32 &&& (digitMask ^^^ (1 <<< hi - 1))))
        else some z) fun z' => z' = z.set i (cell a.obDigit (ws + i) / 2 ^ lo +
          (if i + 1 < m then cell a.obDigit (ws + i + 1) else 0) % 2 ^ lo * 2 ^ hi) := by
      rw [rd_of_lt (by omega), some_bind, wr_of_lt (by omega), some_bind]
      split_ifs with hnext
      · rw [rd_of_lt (by omega), some_bind, rd_of_lt (by simpa using by omega), some_bind,
          wr_of_lt (by simpa using by omega), cell_set_self (by omega), shr_digit hsum hx, List.set_set]
        exact Ends.pure rfl
      · have hdigit := shr_digit (y := 0) hsum hx
        rw [Nat.zero_shiftLeft, Nat.zero_mod, Nat.zero_and, Nat.or_zero] at hdigit
        rw [hdigit]
        exact Ends.pure (by rw [Nat.zero_mod])
    refine hwrite.mono ?_
    rintro - rfl
    rw [if_pos him] at hv
    generalize (if i + 1 < m then cell a.obDigit (ws + i + 1) else 0) = y
    have hset := seg_set_last (B := digitBase) (l := z) (s := 0) (n := i)
      (v := cell a.obDigit (ws + i) / 2 ^ lo + y % 2 ^ lo * 2 ^ hi) (by omega)
    rw [Nat.zero_add] at hset
    have hylt := Nat.mod_lt y hlopos
    have hdm := Nat.div_add_mod (cell a.obDigit (ws + i)) (2 ^ lo)
    refine ⟨by simpa using hl, ?_, ?_⟩
    · have hq : cell a.obDigit (ws + i) / 2 ^ lo < 2 ^ hi :=
        (Nat.div_lt_iff_lt_mul hlopos).mpr (by rwa [Nat.mul_comm, ← hbase])
      have hlt : cell a.obDigit (ws + i) / 2 ^ lo + y % 2 ^ lo * 2 ^ hi < digitBase := by
        have : (y % 2 ^ lo + 1) * 2 ^ hi ≤ 2 ^ lo * 2 ^ hi := Nat.mul_le_mul_right _ hylt
        rw [Nat.add_mul] at this
        omega
      refine (hb.set hlt).succ ?_
      rwa [Nat.zero_add, cell_set_self (by omega)]
    · rw [hset, seg_succ, pow_succ]
      linear_combination hv + digitBase ^ i * hdm + y % 2 ^ lo * digitBase ^ i * hbase.symm
  rintro z ⟨hl, hb, hv⟩
  refine Ends.bind (intNormalize_pos hl.ge hb) fun z' ⟨hz, hzv⟩ => Ends.pure ⟨z', rfl, hz, ?_⟩
  rw [hzv, Nat.cast_inj]
  have hsplit := seg_add (B := digitBase) (l := a.obDigit) (s := 0) (m := ws) (n := m)
  rw [Nat.zero_add, ← hm] at hsplit
  have hlowlt := seg_lt (ha.below.mono (show ws ≤ a.absSize by omega))
  have hquot : a.mag / digitBase ^ ws = seg digitBase a.obDigit ws m := by
    rw [mag, hsplit, Nat.add_mul_div_left _ _ (Nat.pow_pos digitBase_pos), Nat.div_eq_of_lt hlowlt, Nat.zero_add]
  rw [hpow, ← Nat.div_div_eq_div_mul, hquot, ← hv, Nat.add_comm, Nat.add_mul_div_left _ _ hlopos,
    Nat.div_eq_of_lt (Nat.mod_lt _ hlopos), Nat.zero_add]

theorem intShr_ends {a n : DeeInt} (ha : a.Canonical) (hn : n.Canonical) (h0 : 0 ≤ n.toInt)
    (h64 : n.toInt < 2 ^ 64) :
    Ends (intShr a n) fun r => ∃ z, r = .ok z ∧ z.Canonical ∧ z.toInt = a.toInt / 2 ^ n.toInt.toNat := by
  unfold intShr intShrFuel
  split_ifs with hneg
  · refine Ends.bind (intInv_ends ha) fun a1 ⟨ha1, ha1v⟩ => ?_
    have hnonneg : ¬ a1.obSize < 0 := by
      rw [← ha1.toInt_neg_iff, ha1v]
      have := ha.toInt_neg_iff
      omega
    unfold intShrFuel
    rw [if_neg hnonneg]
    refine Ends.bind (intShrNonneg_ends ha1 (by omega) hn h0 h64) ?_
    rintro - ⟨a2, rfl, ha2, ha2v⟩
    dsimp only
    refine Ends.bind (intInv_ends ha2) fun z ⟨hz, hzv⟩ => Ends.pure ⟨z, rfl, hz, ?_⟩
    rw [hzv, ha2v, ha1v]
    have hp : (0 : ℤ) < 2 ^ n.toInt.toNat := by positivity
    have hdm := Int.mul_ediv_add_emod (-a.toInt - 1) (2 ^ n.toInt.toNat)
    have hlo := Int.emod_nonneg (-a.toInt - 1) hp.ne'
    have hhi := Int.emod_lt_of_pos (-a.toInt - 1) hp
    refine (Int.ediv_eq_iff_of_pos hp |>.mpr ⟨?_, ?_⟩).symm
    · linarith
    · linarith
  · exact intShrNonneg_ends ha (by omega) hn h0 h64

end Deemon.Int
