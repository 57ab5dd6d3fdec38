import Deemon.Int.Print

/-!
# Text to integers

`DeeInt_FromString` reads any number of signs, picks the radix from the prefix when none is given, and then reads
the digits: forwards in chunks that fit a digit for a radix that is not a power of two (`int_from_nonbinary_string`),
else backwards, bit group by bit group. Between the digits there may be separators and escaped line feeds.

The size that `int_from_nonbinary_string` estimates with a logarithm is a parameter (`sizeHint`): a buffer that
turns out too small grows digit by digit.
-/

namespace Deemon.Int

open Deemon.Run Deemon.Radix Deemon.Numeral Deemon.Unicode DeeInt

/-- The flags `Dee_INT_STRING_F*`. -/
structure StringFlags where
  escaped : Bool
  ftry : Bool
  noseps : Bool
  deriving DecidableEq, Repr

/-- `invalid`. -/
def invalidInt (str : List ℕ) (flags : StringFlags) : Except IntError (Option DeeInt) :=
  if flags.ftry then .ok none else .error (.invalidInteger str)

/-! ### Sign and radix -/

/-- The backslash at `start` escapes a line feed: the position behind it. -/
def escapedLF (uni : UniTable) (str : List ℕ) (start : ℕ) : Option (Option ℕ) := do
  let (beginPlusOne, newBegin) ← readUtf8N str (start + 1) str.length
  if uni.deeUniIsLF beginPlusOne then
    if beginPlusOne = carriageReturn then do
      some (some (if (← rd str newBegin) = lineFeed then newBegin + 1 else newBegin))
    else some (some newBegin)
  else some none

/-- The sign prefix: whether the number is negative, and where the rest starts. -/
def parseSign (uni : UniTable) (flags : StringFlags) (str : List ℕ) : Option (Option (Bool × ℕ)) :=
  loop (fun (negative, start) =>
    if str.length ≤ start then some (.done none)
    else do
      let ch ← rd str start
      if ch = chr '+' then some (.next (negative, start + 1))
      else if ch = chr '-' then some (.next (!negative, start + 1))
      else if ch = backslash ∧ flags.escaped then do
        match ← escapedLF uni str start with
        -- `continue` runs the `++start` of the loop as well
        | some newBegin => some (.next (negative, newBegin + 1))
        | none => some (.done (some (negative, start)))
      else some (.done (some (negative, start)))) (str.length + 1) (false, 0)

/-- The radix, from the prefix when it is zero, and where the digits start. The text `0` has no digits left. -/
def parseRadix (uni : UniTable) (flags : StringFlags) (str : List ℕ) (start radix : ℕ) : Option (Option (ℕ × ℕ)) :=
  if radix ≠ 0 then some (some (radix, start))
  else do
    let (leadingZero, next) ← readUtf8N str start str.length
    if uni.deeUniAsDigitVal leadingZero = 0 then
      if str.length ≤ next then some none
      else do
        let start ← loop (fun start => do
          if (← rd str start) = backslash ∧ flags.escaped then do
            match ← escapedLF uni str start with
            | some newBegin => some (.next newBegin)
            | none => some (.done start)
          else some (.done start)) (str.length + 1) next
        let ch ← rd str start
        if ch = chr 'x' ∨ ch = chr 'X' then some (some (16, start + 1))
        else if ch = chr 'b' ∨ ch = chr 'B' then some (some (2, start + 1))
        else some (some (8, start))
    else some (some (10, start))

/-! ### Digits of any radix, forwards -/

/-- `convwidth_base_`: the most digits of a radix that fit a digit of the integer. -/
def convwidthBase : List ℕ :=
  [30, 18, 15, 12, 11, 10, 10, 9, 9, 8, 8, 8, 7, 7, 7, 7, 7, 7, 6, 6, 6, 6, 6, 6, 6, 6, 6, 6, 6, 6, 6, 5, 5, 5, 5]

/-- `convmultmax_base_`. -/
def convmultmaxBase : List ℕ :=
  [0x40000000, 0x17179149, 0x40000000, 0x0e8d4a51, 0x159fd800, 0x10d63af1, 0x40000000, 0x17179149, 0x3b9aca00,
    0x0cc6db61, 0x19a10000, 0x309f1021, 0x06487b80, 0x0a2f1b6f, 0x10000000, 0x18754571, 0x247dbc80, 0x3547667b,
    0x03d09000, 0x051cafe9, 0x06c20a40, 0x08d2d931, 0x0b640000, 0x0e8d4a51, 0x1269ae40, 0x17179149, 0x1cb91000,
    0x23744899, 0x2b73a840, 0x34e63b41, 0x40000000, 0x025528a1, 0x02b54a20, 0x03216b93, 0x039aa400]

/-- `handle_backslash_in_text`: goes on behind an escaped line feed, or the text is invalid. -/
def backslashInText (flags : StringFlags) (str : List ℕ) (start : ℕ) : Option (Step ℕ (Option (ℕ × ℕ))) :=
  if !flags.escaped then some (.done none)
  else if str.length ≤ start + 2 then some (.done none)
  else do
    let ch ← rd str (start + 1)
    if ch = lineFeed then some (.next (start + 2))
    else if ch = carriageReturn then
      if start + 2 < str.length then do
        some (.next (if (← rd str (start + 2)) = lineFeed then start + 3 else start + 2))
      else some (.next (start + 2))
    else some (.done none)

/-- `parse_ch`: the next digit and the position behind it; `none` inside is `goto invalid_r`. -/
def parseCh (uni : UniTable) (flags : StringFlags) (str : List ℕ) (start : ℕ) : Option (Option (ℕ × ℕ)) :=
  loop (fun start => do
    let ch ← rd str start
    let dig := uni.deeUniAsDigitVal (charArg ch)
    if dig < 16 then some (.done (some (dig, start + 1)))
    else if 0x80 ≤ ch then do
      let (u, next) ← readUtf8N str start str.length
      match uni.numeric u with
      | some dig => some (.done (some (dig, next)))
      | none => if u = backslash then backslashInText flags str next else some (.done none)
    else if ch ≠ backslash then
      if ch = chr '_' ∧ !flags.noseps then some (.next (start + 1)) else some (.done none)
    else backslashInText flags str start) (str.length + 1) start

/-- The digits that make one chunk: how many, the position behind them, and their value. -/
def parseChunk (uni : UniTable) (flags : StringFlags) (str : List ℕ) (radix convwidth start : ℕ) :
    Option (Option (ℕ × ℕ × ℕ)) :=
  loop (fun (i, start, c) =>
    if i < convwidth ∧ start < str.length then do
      match ← parseCh uni flags str start with
      | none => some (.done none)
      | some (dig, start) =>
        if radix ≤ dig then some (.done none)
        else do
          let c ← fits 64 (c * radix + dig)
          assert (c < digitBase)
          some (.next (i + 1, start, c))
    else some (.done (some (i, start, c)))) (convwidth + 1) (0, start, 0)

/-- The loop over `pz`: multiplies the number by `convmult` and adds `c`. -/
def mulAddDigits (convmult obSize c : ℕ) (z : List ℕ) : Option (ℕ × List ℕ) :=
  forLoop (fun i (c, z) => do
    let c ← fits 64 (c + (← rd z i) * convmult)
    some (c >>> digitBits, ← wr z i (c &&& digitMask))) 0 obSize (c, z)

/-- Appends the digit `c`; a full buffer is copied into one that is larger by a digit. -/
def appendDigit (obSize c : ℕ) (z : List ℕ) : Option (List ℕ) := do
  assert (c < digitBase)
  if obSize < z.length then wr z obSize c
  else do
    assert (obSize = z.length)
    wr (← copyCells (deeIntAlloc (z.length + 1)).obDigit 0 z 0 z.length) z.length c

/-- `int_from_nonbinary_string`. -/
def intFromNonbinaryString (uni : UniTable) (sizeHint : ℕ → ℕ → ℕ) (flags : StringFlags) (str : List ℕ)
    (start radix : ℕ) : Option (Option DeeInt) := do
  assert (2 ≤ radix)
  assert (radix ≤ 36)
  let sizeZ := sizeHint radix (str.length - start) + 1
  let convwidth ← rd convwidthBase (radix - 2)
  let convmultmax ← rd convmultmaxBase (radix - 2)
  loop (fun (start, obSize, z) =>
    if start < str.length then do
      match ← parseChunk uni flags str radix convwidth start with
      | none => some (.done none)
      | some (i, start, c) => do
        let convmult ← (if i ≠ convwidth then forLoop (fun _ m => fits 64 (m * radix)) 0 (i - 1) radix
          else some convmultmax)
        let (c, z) ← mulAddDigits convmult obSize c z
        if c ≠ 0 then do
          some (.next (start, obSize + 1, ← appendDigit obSize c z))
        else some (.next (start, obSize, z))
    else some (.done (some ⟨obSize, z⟩))) (str.length + 1) (start, 0, (deeIntAlloc sizeZ).obDigit)

/-! ### Digits of power-of-two radices, backwards -/

/-- `iter`, `number`, `num_bits`, `dst` and `result->ob_digit`. -/
structure BitParser where
  iter : ℕ
  number : ℕ
  numBits : ℕ
  dst : ℕ
  obDigit : List ℕ

/-- Adds a digit: `number |= (twodigits)dig << num_bits`, then the full digits are stored. -/
def BitParser.add (bitsPerDigit dig : ℕ) (p : BitParser) : Option BitParser := do
  let number ← fits 64 (p.number ||| dig <<< p.numBits)
  loop (fun p =>
    if digitBits ≤ p.numBits then do
      let obDigit ← wr p.obDigit p.dst (p.number &&& digitMask)
      some (.next ⟨p.iter, p.number >>> digitBits, p.numBits - digitBits, p.dst + 1, obDigit⟩)
    else some (.done p)) (p.numBits + bitsPerDigit + 1) { p with number := number, numBits := p.numBits + bitsPerDigit }

/-- One character of the number, read backwards; `none` inside is `goto invalid_r`. -/
def BitParser.char (uni : UniTable) (flags : StringFlags) (str : List ℕ) (start radix bitsPerDigit : ℕ) (p : BitParser) :
    Option (Option BitParser) := do
  let (ch, iter) ← readUtf8RevN str p.iter start
  let p := { p with iter := iter }
  match uni.numeric ch with
  | some dig =>
    if radix ≤ dig then some none
    else do
      some (some (← p.add bitsPerDigit dig))
  | none =>
    if uni.deeUniIsLF ch ∧ flags.escaped then
      if iter = start then some none
      else do
        let prev ← rd str (iter - 1)
        if prev = backslash then some (some { p with iter := iter - 1 })
        else if prev = carriageReturn ∧ ch = lineFeed ∧ iter - 1 ≠ start then do
          some (if (← rd str (iter - 2)) = backslash then some { p with iter := iter - 2 } else none)
        else some none
    else some (if ch = chr '_' ∧ !flags.noseps then some p else none)

/-- The branch of `DeeInt_FromString` for power-of-two radices. -/
def parsePowerOfTwo (uni : UniTable) (flags : StringFlags) (str : List ℕ) (start radix : ℕ) : Option (Option DeeInt) := do
  let bitsPerDigit ← loop (fun n => some (if 1 <<< n < radix then .next (n + 1) else .done n)) (radix + 1) 0
  let numDigits := 1 + str.length * bitsPerDigit / digitBits
  let p : Option BitParser ← loop (fun p : BitParser =>
    if start < p.iter then do
      match ← p.char uni flags str start radix bitsPerDigit with
      | none => some (.done none)
      | some p => some (.next p)
    else some (.done (some p))) (str.length + 1) ⟨str.length, 0, 0, 0, List.replicate numDigits 0⟩
  match p with
  | none => some none
  | some p => do
    let obDigit ← (if p.numBits ≠ 0 then do
        assert (p.numBits < digitBits)
        wr p.obDigit p.dst p.number
      else some p.obDigit)
    -- the loop that drops leading zero digits is that of `int_normalize`
    some (some (← intNormalize ⟨numDigits, obDigit⟩))

/-- `DeeInt_FromString`; `none` as a result is `ITER_DONE`. -/
def deeIntFromString (uni : UniTable) (sizeHint : ℕ → ℕ → ℕ) (str : List ℕ) (radix : ℕ) (flags : StringFlags) :
    Option (Except IntError (Option DeeInt)) := do
  match ← parseSign uni flags str with
  | none => some (invalidInt str flags)
  | some (negative, start) =>
    match ← parseRadix uni flags str start radix with
    | none => some (.ok (some deeIntNewZero))
    | some (radix, start) =>
      if str.length ≤ start then some (invalidInt str flags)
      else do
        assert (2 ≤ radix)
        let result ← (if radix &&& (radix - 1) ≠ 0 then intFromNonbinaryString uni sizeHint flags str start radix
          else parsePowerOfTwo uni flags str start radix)
        match result with
        | none => some (invalidInt str flags)
        | some result => some (.ok (some (if negative then ⟨-result.obSize, result.obDigit⟩ else result)))

/-! ### Digit text -/

/-- Digits of a radix, with separators between them. -/
structure DigitText (radix : ℕ) (noseps : Bool) (b : List ℕ) : Prop where
  chars : ∀ ch ∈ b, (ch = chr '_' ∧ noseps = false) ∨ ∃ d < radix, asciiDigit ch = some d
  last : b.getLast? ≠ some (chr '_')

/-- The digits without the separators. -/
def digitsOf (b : List ℕ) : List ℕ := b.filterMap asciiDigit

section Digits

variable {uni : UniTable} {flags : StringFlags} {str b : List ℕ} {radix start ch d : ℕ}

theorem digitsOf_underscore : digitsOf (chr '_' :: b) = digitsOf b := List.filterMap_cons_none asciiDigit_underscore

theorem digitsOf_cons (h : asciiDigit ch = some d) : digitsOf (ch :: b) = d :: digitsOf b :=
  List.filterMap_cons_some h

theorem digitsOf_concat_underscore : digitsOf (b ++ [chr '_']) = digitsOf b := by
  rw [digitsOf, List.filterMap_append]
  exact List.append_nil _

theorem digitsOf_concat (h : asciiDigit ch = some d) : digitsOf (b ++ [ch]) = digitsOf b ++ [d] := by
  rw [digitsOf, List.filterMap_append, List.filterMap_cons_some h, List.filterMap_nil, digitsOf]

theorem DigitText.tail {noseps : Bool} (h : DigitText radix noseps (ch :: b)) : DigitText radix noseps b := by
  refine ⟨fun c hc => h.chars c (List.mem_cons_of_mem _ hc), fun hlast => h.last ?_⟩
  rw [List.getLast?_cons, hlast]
  rfl

theorem drop_cons (h : str.drop start = ch :: b) :
    start < str.length ∧ cell str start = ch ∧ str.drop (start + 1) = b := by
  have hlt : start < str.length := by
    by_contra hge
    rw [List.drop_eq_nil_of_le (by omega)] at h
    simp at h
  rw [List.drop_eq_getElem_cons hlt] at h
  obtain ⟨hch, hb⟩ := List.cons.inj h
  exact ⟨hlt, by simp [cell, hlt, hch], hb⟩

theorem deeUniAsDigitVal_digit (h : asciiDigit ch = some d) : uni.deeUniAsDigitVal (charArg ch) = d := by
  have hlt := (asciiDigit_lt h).1
  rw [charArg, if_pos hlt, UniTable.deeUniAsDigitVal, if_pos hlt, h]
  rfl

theorem numeric_digit (h : asciiDigit ch = some d) : uni.numeric ch = some d := by
  rw [UniTable.numeric, if_pos (asciiDigit_lt h).1, h]

/-- Reading forwards finds the first digit behind the separators. -/
theorem parseCh_ends (hb : DigitText radix flags.noseps (str.drop start)) (hne : str.drop start ≠ []) :
    Ends (parseCh uni flags str start) fun r => ∃ d next, r = some (d, next) ∧ start < next ∧ d < radix ∧
      DigitText radix flags.noseps (str.drop next) ∧ digitsOf (str.drop start) = d :: digitsOf (str.drop next) := by
  unfold parseCh
  refine loop_ends (fun s => start ≤ s ∧ str.drop s ≠ [] ∧ DigitText radix flags.noseps (str.drop s) ∧
    digitsOf (str.drop s) = digitsOf (str.drop start)) (fun s => str.length - s) ⟨le_rfl, hne, hb, rfl⟩ (by omega) ?_
  rintro s ⟨hle, hs, htext, hdigits⟩
  obtain ⟨ch, rest, hdrop⟩ := List.exists_cons_of_ne_nil hs
  obtain ⟨hlt, hcell, hrest⟩ := drop_cons hdrop
  rw [hdrop] at htext hdigits
  rw [rd_of_lt hlt, some_bind, hcell]
  dsimp only
  rcases htext.chars ch List.mem_cons_self with ⟨rfl, hnoseps⟩ | ⟨d, hd, hdig⟩
  · have hrest' : rest ≠ [] := fun h0 => htext.last (by rw [h0]; rfl)
    rw [show uni.deeUniAsDigitVal (charArg (chr '_')) = 0xff from rfl, if_neg (by norm_num), if_neg (by decide),
      if_pos (by decide), if_pos ⟨rfl, by rw [hnoseps]; rfl⟩]
    rw [digitsOf_underscore] at hdigits
    exact Ends.pure ⟨⟨by omega, by rwa [hrest], by rw [hrest]; exact htext.tail, by rw [hrest, hdigits]⟩, by dsimp only; omega⟩
  · rw [deeUniAsDigitVal_digit hdig, if_pos (asciiDigit_lt hdig).2]
    rw [digitsOf_cons hdig] at hdigits
    exact Ends.pure ⟨d, s + 1, rfl, by omega, hd, by rw [hrest]; exact htext.tail, by rw [hrest, ← hdigits]⟩

/-- A chunk: as many digits as fit, or all that are left. -/
theorem parseChunk_ends {convwidth v : ℕ} (hr : 2 ≤ radix) (hwidth : radix ^ convwidth ≤ digitBase)
    (hb : DigitText radix flags.noseps (str.drop start)) (hpos : 0 < convwidth) (hstart : start < str.length) :
    Ends (parseChunk uni flags str radix convwidth start) fun r => ∃ i next c, r = some (i, next, c) ∧ start < next ∧
      0 < i ∧ i ≤ convwidth ∧ c < radix ^ i ∧ DigitText radix flags.noseps (str.drop next) ∧
      horner radix (v * radix ^ i + c) (digitsOf (str.drop next)) = horner radix v (digitsOf (str.drop start)) := by
  unfold parseChunk
  refine loop_ends (fun s => s.1 ≤ convwidth ∧ s.2.2 < radix ^ s.1 ∧ DigitText radix flags.noseps (str.drop s.2.1) ∧
    horner radix (v * radix ^ s.1 + s.2.2) (digitsOf (str.drop s.2.1)) = horner radix v (digitsOf (str.drop start)) ∧
    (s.1 = 0 ∧ s.2.1 = start ∨ 0 < s.1 ∧ start < s.2.1)) (fun s => convwidth - s.1)
    ⟨Nat.zero_le _, by simp, hb, by simp, Or.inl ⟨rfl, rfl⟩⟩ (by dsimp only; omega) ?_
  rintro ⟨i, s, c⟩ ⟨hi, hc, htext, hval, hprog⟩
  dsimp only at hi hc htext hval hprog ⊢
  by_cases hmore : i < convwidth ∧ s < str.length
  · rw [if_pos hmore]
    have hne : str.drop s ≠ [] := by
      rw [ne_eq, List.drop_eq_nil_iff]
      omega
    refine Ends.bind (parseCh_ends htext hne) ?_
    rintro _ ⟨d, next, rfl, hnext, hd, htext', hdigits⟩
    have hlt : c * radix + d < radix ^ (i + 1) := by
      have : (c + 1) * radix ≤ radix ^ i * radix := Nat.mul_le_mul_right _ hc
      rw [pow_succ]
      rw [Nat.add_mul] at this
      omega
    have hle : radix ^ (i + 1) ≤ radix ^ convwidth := Nat.pow_le_pow_right (by omega) (by omega)
    unfold digitBase at hwidth
    dsimp only
    rw [if_neg (by omega), fits_of_lt (by omega), some_bind, assert_of (by unfold digitBase; omega), some_bind]
    refine Ends.pure ⟨⟨by dsimp only; omega, hlt, htext', ?_, Or.inr ⟨by dsimp only; omega, by dsimp only; omega⟩⟩,
      by dsimp only; omega⟩
    dsimp only
    rw [← hval, hdigits, horner_cons]
    congr 1
    rw [pow_succ]
    ring
  · rw [if_neg hmore]
    rcases hprog with ⟨rfl, rfl⟩ | ⟨h1, h2⟩
    · exact absurd ⟨hpos, hstart⟩ hmore
    · exact Ends.pure ⟨i, s, c, rfl, h2, h1, hi, hc, htext, hval⟩

/-- The tables agree: `convwidth` digits of the radix fit a digit of the integer. -/
theorem conv_tables : ∀ k < 35, 0 < cell convwidthBase k ∧
    cell convmultmaxBase k = (k + 2) ^ cell convwidthBase k ∧ (k + 2) ^ cell convwidthBase k ≤ digitBase := by
  decide +kernel

/-- What the loop over the chunks keeps: the number in `z` without leading zeros. -/
structure DigitsHold (obSize : ℕ) (z : List ℕ) (v : ℕ) : Prop where
  len : obSize ≤ z.length
  below : Below digitBase z 0 obSize
  value : seg digitBase z 0 obSize = v
  top : obSize ≠ 0 → digitBase ^ (obSize - 1) ≤ v

theorem mulAddDigits_ends {obSize v c m : ℕ} {z : List ℕ} (h : DigitsHold obSize z v) (hc : c < digitBase)
    (hm : m ≤ digitBase) : Ends (mulAddDigits m obSize c z) fun r => r.1 < digitBase ∧ r.2.length = z.length ∧
      Below digitBase r.2 0 obSize ∧ seg digitBase r.2 0 obSize + r.1 * digitBase ^ obSize = v * m + c := by
  have hlen := h.len
  refine (forLoop_ends_zero (fun i s => s.1 < digitBase ∧ SameOut z s.2 0 i ∧ Below digitBase s.2 0 i ∧
    seg digitBase s.2 0 i + s.1 * digitBase ^ i = seg digitBase z 0 i * m + c)
    ⟨hc, SameOut.refl, fun i hi => by omega, by simp⟩ ?_).mono ?_
  · rintro i ⟨c, out⟩ hi ⟨hc, hsame, hbelow, hval⟩
    dsimp only at hc hsame hbelow hval ⊢
    have hlen' := hsame.length
    have hcell : cell out i = cell z i := hsame.out i (by omega)
    have hdig := h.below i hi
    rw [Nat.zero_add] at hdig
    have hprod : cell z i * m ≤ (digitBase - 1) * digitBase := Nat.mul_le_mul (by omega) hm
    obtain ⟨x, hx⟩ : ∃ x, x = c + cell z i * m := ⟨_, rfl⟩
    have hx64 : x < digitBase * digitBase := by
      have : (digitBase - 1) * digitBase + digitBase = digitBase * digitBase := by norm_num
      omega
    rw [rd_of_lt (by omega), some_bind, hcell, ← hx, fits_of_lt (lt_of_lt_of_le hx64 (by norm_num)), some_bind,
      wr_of_lt (by omega), and_digitMask, shiftRight_digitBits]
    have hcarry := seg_carry (B := digitBase) (l := out) (s := 0) (n := i) (x := x) (by omega)
    rw [Nat.zero_add] at hcarry
    refine Ends.pure ⟨Nat.div_lt_of_lt_mul hx64, (hsame.mono le_rfl (by omega)).trans (SameOut.set.mono (Nat.zero_le _)
      (by omega)), (hbelow.set (Nat.mod_lt _ digitBase_pos)).succ ?_, ?_⟩
    · rw [Nat.zero_add, cell_set_self (by omega)]
      exact Nat.mod_lt _ digitBase_pos
    · dsimp only
      rw [hcarry, seg_succ, Nat.zero_add, hx]
      linear_combination hval
  · rintro ⟨c, out⟩ ⟨hc, hsame, hbelow, hval⟩
    rw [h.value] at hval
    exact ⟨hc, hsame.length, hbelow, hval⟩

theorem appendDigit_ends {obSize c : ℕ} {z : List ℕ} (hlen : obSize ≤ z.length) (hbelow : Below digitBase z 0 obSize)
    (hc : c < digitBase) : Ends (appendDigit obSize c z) fun z' => obSize + 1 ≤ z'.length ∧
      Below digitBase z' 0 (obSize + 1) ∧
      seg digitBase z' 0 (obSize + 1) = seg digitBase z 0 obSize + c * digitBase ^ obSize := by
  unfold appendDigit
  rw [assert_of hc, some_bind]
  -- both branches write `c` behind a copy of the digits
  have hwrite : ∀ out : List ℕ, obSize < out.length → (∀ i < obSize, cell out i = cell z i) →
      obSize + 1 ≤ (out.set obSize c).length ∧ Below digitBase (out.set obSize c) 0 (obSize + 1) ∧
        seg digitBase (out.set obSize c) 0 (obSize + 1) = seg digitBase z 0 obSize + c * digitBase ^ obSize := by
    intro out hout hsame
    have hset := seg_set_last (B := digitBase) (l := out) (s := 0) (n := obSize) (v := c) (by omega)
    rw [Nat.zero_add] at hset
    refine ⟨by rw [List.length_set]; omega, fun i hi => ?_, ?_⟩
    · rw [Nat.zero_add]
      rcases Nat.lt_succ_iff_lt_or_eq.mp hi with hi | rfl
      · rw [cell_set_of_ne (by omega), hsame i hi]
        have := hbelow i hi
        rwa [Nat.zero_add] at this
      · rwa [cell_set_self hout]
    · have hseg : seg digitBase out 0 obSize = seg digitBase z 0 obSize :=
        seg_congr fun i hi => by rw [Nat.zero_add, hsame i hi]
      rw [hset, hseg]
  by_cases hroom : obSize < z.length
  · rw [if_pos hroom, wr_of_lt hroom]
    exact Ends.pure (hwrite z hroom fun _ _ => rfl)
  · obtain rfl : obSize = z.length := by omega
    rw [if_neg hroom, assert_of rfl, some_bind]
    refine Ends.bind (copyCells_ends (by simp) (by omega)) ?_
    rintro out ⟨hout, hcopy⟩
    have hlen' := hout.length
    rw [deeIntAlloc_obDigit_length] at hlen'
    rw [wr_of_lt (by omega)]
    exact Ends.pure (hwrite out (by omega) fun i hi => by have := hcopy i hi; rwa [Nat.zero_add] at this)

theorem powRadix_ends {i : ℕ} (hi : 0 < i) (hle : radix ^ i ≤ digitBase) (hr : 2 ≤ radix) :
    Ends (forLoop (fun _ m => fits 64 (m * radix)) 0 (i - 1) radix) fun m => m = radix ^ i := by
  refine (forLoop_ends_zero (fun j m => m = radix ^ (j + 1)) (pow_one _).symm ?_).mono fun m hm => by
    rw [hm, Nat.sub_add_cancel hi]
  rintro j _ hj rfl
  have : radix ^ (j + 1 + 1) ≤ radix ^ i := Nat.pow_le_pow_right (by omega) (by omega)
  rw [← pow_succ, fits_of_lt (by unfold digitBase at hle; omega)]
  exact Ends.pure rfl

/-- What parsing gives: a canonical integer with the value of the numeral. -/
def ParsesTo (v : ℕ) (r : Option DeeInt) : Prop := ∃ z, r = some z ∧ z.Canonical ∧ z.toInt = v

theorem DigitsHold.canonical {obSize v : ℕ} {z : List ℕ} (h : DigitsHold obSize z v) :
    DeeInt.Canonical ⟨obSize, z⟩ ∧ DeeInt.toInt ⟨obSize, z⟩ = v := by
  have habs : DeeInt.absSize ⟨obSize, z⟩ = obSize := rfl
  have hmag : DeeInt.mag ⟨obSize, z⟩ = v := by rw [mag, habs, h.value]
  refine ⟨WF.canonical ⟨h.len, h.below⟩ fun n hn => ?_, ?_⟩
  · rw [habs] at hn
    have := h.top (by omega)
    rwa [hn, Nat.add_sub_cancel, ← hmag] at this
  · rw [toInt_of_nonneg (Int.natCast_nonneg _), hmag]

/-- Radices that are not powers of two. -/
theorem intFromNonbinaryString_ends (sizeHint : ℕ → ℕ → ℕ) (hr : 2 ≤ radix) (hr' : radix ≤ 36)
    (hb : DigitText radix flags.noseps (str.drop start)) :
    Ends (intFromNonbinaryString uni sizeHint flags str start radix)
      (ParsesTo (horner radix 0 (digitsOf (str.drop start)))) := by
  obtain ⟨k, rfl⟩ : ∃ k, radix = k + 2 := ⟨radix - 2, by omega⟩
  obtain ⟨hwpos, hmax, hwle⟩ := conv_tables k (by omega)
  unfold intFromNonbinaryString
  rw [assert_of hr, some_bind, assert_of hr', some_bind]
  dsimp only
  rw [Nat.add_sub_cancel, rd_of_lt (show k < convwidthBase.length by rw [show convwidthBase.length = 35 from rfl]; omega),
    some_bind, rd_of_lt (show k < convmultmaxBase.length by rw [show convmultmaxBase.length = 35 from rfl]; omega), some_bind, hmax]
  generalize cell convwidthBase k = w at hwpos hwle
  refine loop_ends (fun s => DigitText (k + 2) flags.noseps (str.drop s.1) ∧ ∃ v, DigitsHold s.2.1 s.2.2 v ∧
    horner (k + 2) v (digitsOf (str.drop s.1)) = horner (k + 2) 0 (digitsOf (str.drop start)))
    (fun s => str.length - s.1) ⟨hb, 0, ⟨by simp, fun i hi => absurd hi (Nat.not_lt_zero i), rfl, by simp⟩, rfl⟩ (by dsimp only; omega) ?_
  rintro ⟨s, obSize, z⟩ ⟨htext, v, hz, hval⟩
  dsimp only at htext hz hval ⊢
  by_cases hmore : s < str.length
  · rw [if_pos hmore]
    refine Ends.bind (parseChunk_ends (v := v) hr hwle htext hwpos hmore) ?_
    rintro _ ⟨i, next, c, rfl, hnext, hi, hiw, hc, htext', hval'⟩
    have hpow : (k + 2) ^ i ≤ digitBase := le_trans (Nat.pow_le_pow_right (by omega) hiw) hwle
    dsimp only
    refine Ends.bind (P := fun m => m = (k + 2) ^ i) ?_ fun m hm => ?_
    · by_cases hiw' : i ≠ w
      · rw [if_pos hiw']
        exact powRadix_ends hi hpow hr
      · rw [if_neg hiw', show i = w by omega]
        exact Ends.pure rfl
    subst hm
    refine Ends.bind (mulAddDigits_ends hz (lt_of_lt_of_le hc hpow) hpow) ?_
    rintro ⟨c1, z1⟩ ⟨hc1, hlen1, hbelow1, hval1⟩
    dsimp only at hc1 hlen1 hbelow1 hval1 ⊢
    have hmono : v ≤ v * (k + 2) ^ i + c := by
      have : v * 1 ≤ v * (k + 2) ^ i := Nat.mul_le_mul_left _ (Nat.one_le_pow _ _ (by omega))
      omega
    by_cases hcarry : c1 ≠ 0
    · rw [if_pos hcarry]
      refine Ends.bind (appendDigit_ends (by rw [hlen1]; exact hz.len) hbelow1 hc1) ?_
      rintro z2 ⟨hlen2, hbelow2, hval2⟩
      refine Ends.pure ⟨⟨htext', v * (k + 2) ^ i + c, ⟨hlen2, hbelow2, by rw [hval2, hval1], fun _ => ?_⟩,
        hval'.trans hval⟩, by dsimp only; omega⟩
      have : 1 * digitBase ^ obSize ≤ c1 * digitBase ^ obSize := Nat.mul_le_mul_right _ (by omega)
      dsimp only
      rw [Nat.add_sub_cancel]
      omega
    · rw [if_neg hcarry]
      rw [show c1 = 0 by omega, Nat.zero_mul, Nat.add_zero] at hval1
      exact Ends.pure ⟨⟨htext', v * (k + 2) ^ i + c, ⟨by rw [hlen1]; exact hz.len, hbelow1, hval1,
        fun h0 => le_trans (hz.top h0) hmono⟩, hval'.trans hval⟩, by dsimp only; omega⟩
  · rw [if_neg hmore]
    rw [List.drop_eq_nil_of_le (by omega)] at hval
    rw [← hval]
    exact Ends.pure ⟨_, rfl, hz.canonical⟩

/-- What the backward loop keeps: the low digits in the accumulator and the buffer, whose other cells are zero. -/
structure BitParser.Holds (b : ℕ) (noseps : Bool) (str : List ℕ) (start numDigits total : ℕ) (p : BitParser) : Prop where
  lo : start ≤ p.iter
  hi : p.iter ≤ str.length
  chars : ∀ ch ∈ (str.drop start).take (p.iter - start),
    (ch = chr '_' ∧ noseps = false) ∨ ∃ d < 2 ^ b, asciiDigit ch = some d
  zeros : SameOut (List.replicate numDigits 0) p.obDigit 0 p.dst
  lt : p.numBits < 30
  count : 30 * p.dst + p.numBits ≤ b * (str.length - p.iter)
  value : ∃ v, Packed 30 p.obDigit 0 p.dst p.number p.numBits v (30 * p.dst + p.numBits) ∧
    horner (2 ^ b) 0 (digitsOf ((str.drop start).take (p.iter - start))) * 2 ^ (30 * p.dst + p.numBits) + v = total

/-- A digit goes into the accumulator, and the full digits are stored. -/
theorem BitParser.add_ends {b n v numDigits : ℕ} {p : BitParser} (hb5 : b ≤ 5) (hlt : p.numBits < 30) (hd : d < 2 ^ b)
    (hp : Packed 30 p.obDigit 0 p.dst p.number p.numBits v n) (hroom : n + b < 30 * numDigits)
    (hzeros : SameOut (List.replicate numDigits 0) p.obDigit 0 p.dst) :
    Ends (p.add b d) fun p' => p'.iter = p.iter ∧ p'.numBits < 30 ∧
      Packed 30 p'.obDigit 0 p'.dst p'.number p'.numBits (v + d * 2 ^ n) (n + b) ∧
      SameOut (List.replicate numDigits 0) p'.obDigit 0 p'.dst := by
  have hpush := hp.push hd
  have h64 : p.number ||| d <<< p.numBits < 2 ^ 64 :=
    lt_of_lt_of_le hpush.temp_lt (Nat.pow_le_pow_right (by norm_num) (by omega))
  unfold BitParser.add
  rw [fits_of_lt h64, some_bind]
  refine loop_ends (fun p' => p'.iter = p.iter ∧ Packed 30 p'.obDigit 0 p'.dst p'.number p'.numBits (v + d * 2 ^ n) (n + b) ∧
    SameOut (List.replicate numDigits 0) p'.obDigit 0 p'.dst) (fun p' => p'.numBits) ⟨rfl, hpush, hzeros⟩
    (Nat.lt_succ_self _) ?_
  rintro p' ⟨hiter, hp', hz'⟩
  have hlen := hz'.length
  have hbits := hp'.bits
  rw [List.length_replicate] at hlen
  by_cases hfull : digitBits ≤ p'.numBits
  · unfold digitBits at hfull
    have hpop := hp'.pop hfull (by omega)
    rw [Nat.zero_add] at hpop
    rw [if_pos hfull, wr_of_lt (by omega), and_digitMask]
    refine Ends.pure ⟨⟨hiter, hpop, ?_⟩, by dsimp only; unfold digitBits; omega⟩
    exact (hz'.mono le_rfl (by dsimp only; omega)).trans (SameOut.set.mono (Nat.zero_le _) (by dsimp only; omega))
  · rw [if_neg hfull]
    exact Ends.pure ⟨hiter, by unfold digitBits at hfull; omega, hp', hz'⟩

theorem take_drop_succ {i : ℕ} (hlo : start < i) (hi : i ≤ str.length) :
    (str.drop start).take (i - start) = (str.drop start).take (i - 1 - start) ++ [cell str (i - 1)] := by
  obtain ⟨k, rfl⟩ : ∃ k, i = start + k + 1 := ⟨i - start - 1, by omega⟩
  have hk : k < (str.drop start).length := by rw [List.length_drop]; omega
  rw [show start + k + 1 - start = k + 1 by omega, show start + k + 1 - 1 - start = k by omega,
    List.take_succ_eq_append_getElem hk, List.getElem_drop, Nat.add_sub_cancel]
  congr 2
  simp [cell, show start + k < str.length by omega]

/-- One character, from the end. -/
theorem BitParser.Holds.char {b numDigits total : ℕ} {p : BitParser} (h : p.Holds b flags.noseps str start numDigits total)
    (hb : 0 < b) (hb5 : b ≤ 5) (hroom : str.length * b < 30 * numDigits) (hmore : start < p.iter) :
    Ends (p.char uni flags str start (2 ^ b) b) fun r => ∃ p', r = some p' ∧
      p'.Holds b flags.noseps str start numDigits total ∧ p'.iter = p.iter - 1 := by
  have hhi := h.hi
  have hsplit := take_drop_succ hmore hhi
  have hlt := h.lt
  have hcount := h.count
  obtain ⟨v, hp, hval⟩ := h.value
  generalize hch : cell str (p.iter - 1) = ch at hsplit
  have hmem := h.chars ch (by rw [hsplit]; simp)
  have hchars : ∀ c ∈ (str.drop start).take (p.iter - 1 - start),
      (c = chr '_' ∧ flags.noseps = false) ∨ ∃ d < 2 ^ b, asciiDigit c = some d :=
    fun c hc => h.chars c (by rw [hsplit]; exact List.mem_append_left _ hc)
  have hsucc : b * (str.length - (p.iter - 1)) = b * (str.length - p.iter) + b := by
    rw [show str.length - (p.iter - 1) = str.length - p.iter + 1 by omega, Nat.mul_succ]
  have hascii : ch < 0x80 := by
    rcases hmem with ⟨rfl, -⟩ | ⟨d, -, hdig⟩
    · decide
    · exact (asciiDigit_lt hdig).1
  unfold BitParser.char
  rw [readUtf8RevN_ascii hmore hhi (by rwa [hch]), some_bind, hch]
  dsimp only
  rcases hmem with ⟨rfl, hnoseps⟩ | ⟨d, hd, hdig⟩
  · rw [show uni.numeric (chr '_') = none from rfl]
    dsimp only
    rw [show uni.deeUniIsLF (chr '_') = false from rfl, if_neg (by simp), if_pos ⟨rfl, by rw [hnoseps]; rfl⟩]
    refine Ends.pure ⟨_, rfl, ⟨by dsimp only; omega, by dsimp only; omega, hchars, h.zeros, hlt, by dsimp only; omega,
      v, hp, ?_⟩, rfl⟩
    rw [← hval, hsplit, digitsOf_concat_underscore]
  · rw [numeric_digit hdig]
    dsimp only
    rw [if_neg (by omega)]
    have hle : b * (str.length - (p.iter - 1)) ≤ str.length * b := by
      rw [Nat.mul_comm]
      exact Nat.mul_le_mul_right _ (Nat.sub_le _ _)
    refine Ends.bind (BitParser.add_ends hb5 hlt hd hp (by omega) h.zeros) ?_
    rintro p' ⟨hiter, hlt', hp', hzeros'⟩
    dsimp only at hiter
    have hbits := hp'.bits
    refine Ends.pure ⟨p', rfl, ⟨by omega, by omega, by rwa [hiter], hzeros', hlt', by rw [hiter]; omega, _, by rwa [hbits], ?_⟩,
      hiter⟩
    rw [hiter, hbits, ← hval, hsplit, digitsOf_concat hdig, horner_concat, pow_add]
    ring

/-- The bits of a digit of a power-of-two radix. -/
theorem bitsPerDigit_ends {b : ℕ} : Ends (loop (fun n => some (if 1 <<< n < 2 ^ b then Step.next (n + 1) else .done n))
    (2 ^ b + 1) 0) fun n => n = b := by
  refine loop_ends (fun n => n ≤ b) (fun n => b - n) (Nat.zero_le _) (lt_trans Nat.lt_two_pow_self (Nat.lt_succ_self _)) ?_
  intro n hn
  rw [Nat.one_shiftLeft]
  by_cases h : 2 ^ n < 2 ^ b
  · have := (Nat.pow_lt_pow_iff_right (by norm_num)).mp h
    rw [if_pos h]
    exact Ends.pure ⟨this, by dsimp only; omega⟩
  · rw [if_neg h]
    have := (Nat.pow_le_pow_iff_right (by norm_num)).mp (Nat.le_of_not_lt h)
    exact Ends.pure (le_antisymm hn this)

/-- The cells that nothing has written are zero digits. -/
theorem zeros_extend {numDigits k : ℕ} {out : List ℕ} (hsame : SameOut (List.replicate numDigits 0) out 0 k)
    (hk : k ≤ numDigits) (hbelow : Below digitBase out 0 k) :
    Below digitBase out 0 numDigits ∧ seg digitBase out 0 numDigits = seg digitBase out 0 k := by
  have hzero : ∀ j, k ≤ j → cell out j = 0 := fun j hj => by
    rw [hsame.out j (by omega)]
    by_cases hjn : j < numDigits
    · exact cell_replicate hjn
    · exact cell_of_le (by rw [List.length_replicate]; omega)
  refine ⟨fun i hi => ?_, ?_⟩
  · by_cases hik : i < k
    · exact hbelow i hik
    · rw [hzero _ (by omega)]
      exact digitBase_pos
  · obtain ⟨m, rfl⟩ : ∃ m, numDigits = k + m := ⟨numDigits - k, by omega⟩
    have htop : seg digitBase out (0 + k) m = 0 := seg_eq_zero fun i _ => hzero _ (by omega)
    rw [seg_add, htop, Nat.mul_zero, Nat.add_zero]

/-- Power-of-two radices. -/
theorem parsePowerOfTwo_ends {b : ℕ} (hb : 0 < b) (hb5 : b ≤ 5) (hstart : start ≤ str.length)
    (htext : DigitText (2 ^ b) flags.noseps (str.drop start)) :
    Ends (parsePowerOfTwo uni flags str start (2 ^ b)) (ParsesTo (horner (2 ^ b) 0 (digitsOf (str.drop start)))) := by
  unfold parsePowerOfTwo
  refine Ends.bind bitsPerDigit_ends fun n hn => ?_
  subst hn
  dsimp only
  obtain ⟨numDigits, hnum⟩ : ∃ m, m = 1 + str.length * n / digitBits := ⟨_, rfl⟩
  have hroom : str.length * n < 30 * numDigits := by
    unfold digitBits at hnum
    omega
  have hall : (str.drop start).take (str.length - start) = str.drop start := by
    rw [List.take_of_length_le (by rw [List.length_drop])]
  rw [← hnum]
  refine Ends.bind (P := fun p : Option BitParser => ∃ q, p = some q ∧ q.iter = start ∧
    q.Holds n flags.noseps str start numDigits (horner (2 ^ n) 0 (digitsOf (str.drop start)))) ?_ ?_
  · refine loop_ends (fun p => p.Holds n flags.noseps str start numDigits (horner (2 ^ n) 0 (digitsOf (str.drop start))))
      (fun p => p.iter) ⟨hstart, le_rfl, by rw [hall]; exact htext.chars, SameOut.refl, by norm_num, by simp, 0,
        Packed.zero, by rw [hall]; simp⟩ (Nat.lt_succ_self _) ?_
    intro p hp
    by_cases hmore : start < p.iter
    · rw [if_pos hmore]
      refine Ends.bind (hp.char hb hb5 hroom hmore) ?_
      rintro _ ⟨p', rfl, hp', hiter⟩
      exact Ends.pure ⟨hp', by dsimp only; omega⟩
    · rw [if_neg hmore]
      exact Ends.pure ⟨p, rfl, by have := hp.lo; omega, hp⟩
  · rintro _ ⟨p, rfl, hiter, hp⟩
    obtain ⟨v, hpacked, hval⟩ := hp.value
    have hlen := hp.zeros.length
    have hlt := hp.lt
    have hcount := hp.count
    have hle : n * (str.length - p.iter) ≤ str.length * n := by
      rw [Nat.mul_comm]
      exact Nat.mul_le_mul_right _ (Nat.sub_le _ _)
    rw [List.length_replicate] at hlen
    rw [hiter, Nat.sub_self, List.take_zero, digitsOf, List.filterMap_nil, horner_nil, Nat.zero_mul, Nat.zero_add] at hval
    dsimp only
    refine Ends.bind (P := fun out => out.length = numDigits ∧ Below digitBase out 0 numDigits ∧
      seg digitBase out 0 numDigits = v) ?_ ?_
    · by_cases hrest : p.numBits ≠ 0
      · obtain ⟨hseg, hbelow⟩ := hpacked.last (by omega) (by omega)
        rw [Nat.zero_add] at hseg hbelow
        have hsame : SameOut (List.replicate numDigits 0) (p.obDigit.set p.dst p.number) 0 (p.dst + 1) :=
          (hp.zeros.mono le_rfl (by omega)).trans (SameOut.set.mono (Nat.zero_le _) (by omega))
        obtain ⟨hall', hseg'⟩ := zeros_extend hsame (by omega) hbelow
        rw [if_pos hrest, assert_of (by unfold digitBits; omega), some_bind, wr_of_lt (by omega)]
        exact Ends.pure ⟨by rw [List.length_set]; exact hlen, hall', hseg'.trans hseg⟩
      · rw [if_neg hrest]
        rw [show p.numBits = 0 by omega] at hpacked
        obtain ⟨hall', hseg'⟩ := zeros_extend hp.zeros (by omega) hpacked.below
        exact Ends.pure ⟨hlen, hall', hseg'.trans hpacked.done⟩
    · rintro out ⟨hout, hbelow, hseg⟩
      refine Ends.bind (intNormalize_pos hout.ge hbelow) ?_
      rintro z ⟨hz, hzval⟩
      exact Ends.pure ⟨z, rfl, hz, by rw [hzval, hseg, hval]⟩

end Digits

end Deemon.Int
