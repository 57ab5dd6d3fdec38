import Deemon.Int.Parse
import Deemon.Lib.Fields

/-!
# Numbers in JSON text

`DeeJson_ParseNumber` adds up the digits of a number in an `intptr_t` of 64 bits that wraps around; a sum below the
one before sends it to `DeeJson_ParseLargeNumber`, which reads the whole token again with `DeeInt_FromString`. Numbers
with a fraction or an exponent are for `DeeJson_ParseFloat`. `json_parser_peek_number_is_float` makes the choice between
the two kinds without parsing.

The primitives of the parser (`json_getc`, `json_skip_whitespace`) are those of `libjson`, which `ParserCore` leaves
open; `ParserCore.Reads` is what they do on a text.
-/

namespace Deemon.Json

open Deemon.Run Deemon.Numeral Deemon.Fields Deemon.Unicode Deemon.Int

/-! ### Characters -/

/-- The traits that JSON asks for, from `0x80` on. -/
structure CharTable extends UniTable where
  /-- The `ISDIGIT` trait. -/
  isDigit : ℕ → Bool
  /-- The `ISHEX` trait. -/
  isHex : ℕ → Bool

/-- `unicode_isdigit`. -/
def CharTable.unicodeIsDigit (uni : CharTable) (ch : ℕ) : Bool :=
  if ch < 0x80 then chr '0' ≤ ch ∧ ch ≤ chr '9' else uni.isDigit ch

/-- `unicode_ishex`. -/
def CharTable.unicodeIsHex (uni : CharTable) (ch : ℕ) : Bool :=
  if ch < 0x80 then (chr 'A' ≤ ch ∧ ch ≤ chr 'F') ∨ (chr 'a' ≤ ch ∧ ch ≤ chr 'f') else uni.isHex ch

/-- `unicode_isxdigit`. -/
def CharTable.unicodeIsXDigit (uni : CharTable) (ch : ℕ) : Bool := uni.unicodeIsDigit ch || uni.unicodeIsHex ch

/-- `unicode_asdigit`. -/
def CharTable.unicodeAsDigit (uni : CharTable) (ch radix : ℕ) : Option ℕ :=
  if uni.deeUniAsDigitVal ch < radix then some (uni.deeUniAsDigitVal ch) else none

/-- `ch == '.' || ch == 'e' || ch == 'E'`. -/
def IsFloatMark (ch : ℕ) : Prop := ch = chr '.' ∨ ch = chr 'e' ∨ ch = chr 'E'

instance (ch : ℕ) : Decidable (IsFloatMark ch) := inferInstanceAs (Decidable (_ ∨ _ ∨ _))

/-! ### The parser -/

/-- The primitives of `libjson`, on positions in the text (`jp_pos`). -/
structure ParserCore (Pos : Type) where
  /-- `jp_end - jp_pos`. -/
  left : Pos → ℕ
  /-- `json_getc`: the next character, and the position behind it. -/
  jsonGetc : Pos → ℕ × Pos
  /-- `json_skip_whitespace`. -/
  jsonSkipWhitespace : Pos → Pos
  /-- `json_skip_whitespace_at`, for the position of the parser, the character last read and the position before it. -/
  jsonSkipWhitespaceAt : Pos → ℕ → Pos → Pos
  /-- The text between two positions in UTF-8, as `DeeJson_ParseLargeInteger` gets it in each encoding. -/
  utf8 : Pos → Pos → List ℕ

/-- What parsing a number gives, with the position of the parser behind it. -/
inductive Parsed (Pos : Type) where
  | int (value : DeeInt) (pos : Pos)
  /-- A call of `DeeJson_ParseFloat` at this position. -/
  | float (pos : Pos)
  | syntaxError
  | error (e : IntError)
  deriving DecidableEq

/-- What `json_parser_peek_number_is_float` returns: `JSON_ERROR_OK`, `JSON_ERROR_SYNTAX` or `JSON_ERROR_NOOBJ`. -/
inductive IsFloat where
  | ok
  | syntaxError
  | noobj
  deriving DecidableEq, Repr

section Code

variable {Pos : Type} (core : ParserCore Pos) (uni : CharTable) (sizeHint : ℕ → ℕ → ℕ)

/-- `DeeJson_ParseLargeInteger`, for a parser at `pos`. -/
def deeJsonParseLargeInteger (start pos : Pos) : Option (Parsed Pos) := do
  match ← deeIntFromString uni.toUniTable sizeHint (core.utf8 start pos) 0 ⟨false, false, true⟩ with
  | .error e => some (.error e)
  -- without `Dee_INT_STRING_FTRY` there is no `ITER_DONE`
  | .ok none => none
  | .ok (some result) => some (.int result (core.jsonSkipWhitespace pos))

/-- One round of the loop of `DeeJson_ParseLargeNumber`. -/
def skipDigit (origPos : Pos) (radix : ℕ) (pos : Pos) : Option (Step Pos (Parsed Pos)) :=
  let (ch, self) := core.jsonGetc pos
  match uni.unicodeAsDigit ch radix with
  | some _ => some (.next self)
  | none => do
    if IsFloatMark ch ∧ radix = 10 then some (.done (.float origPos))
    else some (.done (← deeJsonParseLargeInteger core uni sizeHint origPos pos))

/-- `DeeJson_ParseLargeNumber`, for a parser at `self`. -/
def deeJsonParseLargeNumber (origPos : Pos) (radix : ℕ) (self : Pos) : Option (Parsed Pos) :=
  loop (skipDigit core uni sizeHint origPos radix) (core.left self + 1) self

/-- One round of the loop of `DeeJson_ParseNumber`, in the state `start`, `self`, `ch` and `result`. -/
def parseDigit (origPos : Pos) (negative : Bool) (radix : ℕ) :
    Pos × Pos × ℕ × ℤ → Option (Step (Pos × Pos × ℕ × ℤ) (Parsed Pos))
  | (start, self, ch, result) =>
    match uni.unicodeAsDigit ch radix with
    | none => do
      if IsFloatMark ch ∧ radix = 10 then some (.done (.float origPos))
      else do
        let result := if negative then sint 64 (-result) else result
        some (.done (.int (← deeIntNewInt64 result) (core.jsonSkipWhitespaceAt self ch start)))
    | some digit =>
      let newResult := sint 64 (result * radix + digit)
      if newResult < result then do
        some (.done (← deeJsonParseLargeNumber core uni sizeHint origPos radix self))
      else
        let (ch, next) := core.jsonGetc self
        some (.next (self, next, ch, newResult))

/-- The optional sign, the character behind it, and the position behind that. -/
def afterSign (origPos : Pos) : Bool × ℕ × Pos :=
  let (ch, self) := core.jsonGetc origPos
  if ch = chr '-' then (true, core.jsonGetc self) else (false, ch, self)

/-- The radix behind a leading zero, the next character, and the position behind it. -/
def radixAfterZero (pos : Pos) : ℕ × ℕ × Pos :=
  let (ch, self) := core.jsonGetc pos
  if ch = chr 'x' ∨ ch = chr 'X' then (16, core.jsonGetc self)
  else if ch = chr 'b' ∨ ch = chr 'B' then (2, core.jsonGetc self)
  else (8, ch, self)

/-- `DeeJson_ParseNumber` behind a leading zero. -/
def parseAfterZero (origPos : Pos) (negative : Bool) (pos : Pos) : Option (Parsed Pos) :=
  let (radix, ch, self) := radixAfterZero core pos
  if !uni.unicodeIsXDigit ch then
    if radix ≠ 8 then some .syntaxError
    else if IsFloatMark ch then some (.float origPos)
    else some (.int deeIntNewZero (core.jsonSkipWhitespaceAt self ch pos))
  -- `start` is still the position of the whole number here
  else loop (parseDigit core uni sizeHint origPos negative radix) (core.left self + 2) (origPos, self, ch, 0)

/-- `DeeJson_ParseNumber`, for a parser at `origPos`. -/
def deeJsonParseNumber (origPos : Pos) : Option (Parsed Pos) :=
  let (negative, ch, self) := afterSign core origPos
  if !uni.unicodeIsDigit ch then some .syntaxError
  else if ch = chr '0' then parseAfterZero core uni sizeHint origPos negative self
  else loop (parseDigit core uni sizeHint origPos negative 10) (core.left self + 2) (origPos, self, ch, 0)

/-- One round of the loop of `json_parser_peek_number_is_float`. -/
def peekDigit (radix : ℕ) : ℕ × Pos → Option (Step (ℕ × Pos) IsFloat)
  | (ch, me) =>
    match uni.unicodeAsDigit ch radix with
    | none => some (.done (if IsFloatMark ch ∧ radix = 10 then .ok else .syntaxError))
    | some _ =>
      let (ch, me) := core.jsonGetc me
      some (if uni.unicodeIsDigit ch then .next (ch, me)
        else if 16 ≤ radix ∧ uni.unicodeIsHex ch then .next (ch, me)
        else .done .noobj)

/-- `json_parser_peek_number_is_float` behind a leading zero. -/
def peekAfterZero (pos : Pos) : Option IsFloat :=
  let (radix, ch, me) := radixAfterZero core pos
  if !uni.unicodeIsXDigit ch then
    if radix ≠ 8 then some .syntaxError
    else if IsFloatMark ch then some .ok
    else some .noobj
  else loop (peekDigit core uni radix) (core.left me + 2) (ch, me)

/-- `json_parser_peek_number_is_float`. -/
def jsonParserPeekNumberIsFloat (self : Pos) : Option IsFloat :=
  let (_, ch, me) := afterSign core self
  if !uni.unicodeIsDigit ch then some .syntaxError
  else if ch = chr '0' then peekAfterZero core uni me
  else loop (peekDigit core uni 10) (core.left me + 2) (ch, me)

end Code

/-! ### The text that a parser reads -/

/-- The position `k` characters on. -/
def ParserCore.advance {Pos : Type} (core : ParserCore Pos) : ℕ → Pos → Pos
  | 0, pos => pos
  | k + 1, pos => (core.jsonGetc (core.advance k pos)).2

/-- The parser reads the characters of the text in order; `rest` is the text from a position on. -/
structure ParserCore.Reads {Pos : Type} (core : ParserCore Pos) (isSpace : ℕ → Bool) (rest : Pos → List ℕ) : Prop where
  left : ∀ pos, (rest pos).length ≤ core.left pos
  getc_cons : ∀ {pos ch cs}, rest pos = ch :: cs → (core.jsonGetc pos).1 = ch ∧ rest (core.jsonGetc pos).2 = cs
  getc_nil : ∀ {pos}, rest pos = [] → (core.jsonGetc pos).1 = 0
  skip : ∀ pos, rest (core.jsonSkipWhitespace pos) = (rest pos).dropWhile isSpace
  skipAt : ∀ start, rest (core.jsonSkipWhitespaceAt (core.jsonGetc start).2 (core.jsonGetc start).1 start) =
    (rest start).dropWhile isSpace
  utf8 : ∀ {pos k}, k ≤ (rest pos).length → (∀ ch ∈ (rest pos).take k, ch < 0x80) →
    core.utf8 pos (core.advance k pos) = (rest pos).take k

/-! ### Number tokens -/

/-- One or more decimal digits. -/
structure Digits where
  vals : List ℕ
  ne_nil : vals ≠ []
  lt_ten : ∀ d ∈ vals, d < 10

/-- The exponent part: `e` or `E`, a sign (`true` is `-`), and the digits. -/
structure Exponent where
  upper : Bool
  sign : Option Bool
  digits : Digits

/-- A number token of JSON. -/
structure NumberToken where
  negative : Bool
  int : Digits
  /-- Only the number zero starts with a zero. -/
  leadingZero : int.vals.head? = some 0 → int.vals = [0]
  frac : Option Digits
  exp : Option Exponent

/-- The digits as characters. -/
def digitChars (ds : List ℕ) : List ℕ := ds.map fun d => chr '0' + d

/-- The text of an exponent. -/
def Exponent.text (e : Exponent) : List ℕ :=
  [if e.upper then chr 'E' else chr 'e'] ++ (e.sign.elim [] fun neg => [if neg then chr '-' else chr '+']) ++
    digitChars e.digits.vals

/-- The text of the fraction and the exponent. -/
def NumberToken.tail (token : NumberToken) : List ℕ :=
  (token.frac.elim [] fun ds => chr '.' :: digitChars ds.vals) ++ token.exp.elim [] Exponent.text

/-- The text of the sign. -/
def signText (negative : Bool) : List ℕ := if negative then [chr '-'] else []

/-- The text of a number token. -/
def NumberToken.text (token : NumberToken) : List ℕ := signText token.negative ++ digitChars token.int.vals ++ token.tail

/-- Neither a fraction nor an exponent. -/
def NumberToken.IsInt (token : NumberToken) : Prop := token.frac = none ∧ token.exp = none

/-- The number before the fraction and the exponent, without the sign. -/
def NumberToken.mag (token : NumberToken) : ℕ := horner 10 0 token.int.vals

/-- The value of a token without fraction and exponent. -/
def NumberToken.value (token : NumberToken) : ℤ := if token.negative then -(token.mag : ℤ) else token.mag

/-- The text behind a number token does not go on with it: it starts with an ASCII character that is neither a digit of
some radix nor one of `.`, `x` and `X`, or is empty. -/
def Follows (after : List ℕ) : Prop := ∀ ch ∈ after.head?, ch < 0x80 ∧ asciiDigit ch = none ∧ ch ≠ chr '.' ∧
  ch ≠ chr 'x' ∧ ch ≠ chr 'X'

instance (after : List ℕ) : Decidable (Follows after) := inferInstanceAs (Decidable (∀ ch ∈ after.head?, _))

/-! ### Reading -/

section Reading

variable {Pos : Type} {core : ParserCore Pos} {isSpace : ℕ → Bool} {rest : Pos → List ℕ} {pos : Pos} {k : ℕ}

theorem ParserCore.advance_succ : core.advance (k + 1) pos = (core.jsonGetc (core.advance k pos)).2 := rfl

/-- At the end of the text the character read is zero. -/
theorem ParserCore.Reads.getc_fst (h : core.Reads isSpace rest) : (core.jsonGetc pos).1 = (rest pos).headD 0 := by
  cases hrest : rest pos with
  | nil => exact h.getc_nil hrest
  | cons ch cs => exact (h.getc_cons hrest).1

theorem ParserCore.Reads.rest_advance (h : core.Reads isSpace rest) (hk : k ≤ (rest pos).length) :
    rest (core.advance k pos) = (rest pos).drop k := by
  induction k with
  | zero => rfl
  | succ k ih =>
    have hrest := ih (by omega)
    rw [List.drop_eq_getElem_cons (by omega)] at hrest
    exact (h.getc_cons hrest).2

/-- The text behind what has been read. -/
theorem ParserCore.Reads.rest_append {u v : List ℕ} (h : core.Reads isSpace rest) (hrest : rest pos = u ++ v)
    (hk : u.length = k) : rest (core.advance k pos) = v := by
  rw [h.rest_advance (by simp [hrest, ← hk]), hrest, ← hk, List.drop_left]

end Reading

/-! ### Characters of a token -/

section Chars

variable {uni : CharTable} {ch d : ℕ} {after : List ℕ} {token : NumberToken}

/-- An ASCII character that is no decimal digit. -/
structure NotDecimal (ch : ℕ) : Prop where
  ascii : ch < 0x80
  digit : ¬(chr '0' ≤ ch ∧ ch ≤ chr '9')

theorem asciiDigit_decimal (hd : d < 10) : asciiDigit (chr '0' + d) = some d := by
  unfold asciiDigit
  simp only [chr, Char.reduceToNat]
  rw [if_pos (by omega), Nat.add_sub_cancel_left]

theorem unicodeAsDigit_decimal (hd : d < 10) : uni.unicodeAsDigit (chr '0' + d) 10 = some d := by
  have hval : uni.deeUniAsDigitVal (chr '0' + d) = d := by
    have hlt := (asciiDigit_lt (asciiDigit_decimal hd)).1
    rw [UniTable.deeUniAsDigitVal, if_pos hlt, asciiDigit_decimal hd]
    rfl
  rw [CharTable.unicodeAsDigit, hval, if_pos hd]

theorem unicodeIsDigit_decimal (hd : d < 10) : uni.unicodeIsDigit (chr '0' + d) = true := by
  unfold CharTable.unicodeIsDigit
  simp only [chr, Char.reduceToNat]
  rw [if_pos (by omega)]
  exact decide_eq_true (by omega)

theorem NotDecimal.unicodeIsDigit (h : NotDecimal ch) : uni.unicodeIsDigit ch = false := by
  rw [CharTable.unicodeIsDigit, if_pos h.ascii]
  exact decide_eq_false h.digit

theorem NotDecimal.unicodeAsDigit (h : NotDecimal ch) : uni.unicodeAsDigit ch 10 = none := by
  have hdigit := h.digit
  have hval : ¬uni.deeUniAsDigitVal ch < 10 := by
    rw [UniTable.deeUniAsDigitVal, if_pos h.ascii, asciiDigit, if_neg h.digit]
    split_ifs <;> simp only [Option.getD_some, Option.getD_none] <;> omega
  rw [CharTable.unicodeAsDigit, if_neg hval]

theorem notDecimal_of_asciiDigit (hch : ch < 0x80) (hdig : asciiDigit ch = none) : NotDecimal ch := by
  refine ⟨hch, fun h => ?_⟩
  rw [asciiDigit, if_pos h] at hdig
  cases hdig

theorem NotDecimal.unicodeIsXDigit (h : NotDecimal ch) (hdig : asciiDigit ch = none) : uni.unicodeIsXDigit ch = false := by
  rw [CharTable.unicodeIsXDigit, h.unicodeIsDigit, CharTable.unicodeIsHex, if_pos h.ascii, Bool.false_or]
  refine decide_eq_false fun hhex => ?_
  rw [asciiDigit, if_neg h.digit] at hdig
  split_ifs at hdig with h1 h2
  exact hhex.elim h1 h2

/-- The character behind the digits of a token. -/
def NumberToken.stop (token : NumberToken) (after : List ℕ) : ℕ := (token.tail ++ after).headD 0

theorem Follows.head (h : Follows after) : after.headD 0 < 0x80 ∧ asciiDigit (after.headD 0) = none ∧
    after.headD 0 ≠ chr '.' ∧ after.headD 0 ≠ chr 'x' ∧ after.headD 0 ≠ chr 'X' := by
  cases after with
  | nil => decide
  | cons ch cs => exact h ch rfl

theorem NumberToken.IsInt.tail (h : token.IsInt) : token.tail = [] := by
  rw [NumberToken.tail, h.1, h.2]
  rfl

theorem NumberToken.IsInt.stop (h : token.IsInt) : token.stop after = after.headD 0 := by
  rw [NumberToken.stop, h.tail, List.nil_append]

theorem NumberToken.stop_frac (h : token.frac ≠ none) : token.stop after = chr '.' := by
  obtain ⟨ds, hds⟩ := Option.ne_none_iff_exists'.mp h
  rw [NumberToken.stop, NumberToken.tail, hds]
  rfl

theorem NumberToken.stop_exp (hfrac : token.frac = none) (h : token.exp ≠ none) :
    token.stop after = chr 'E' ∨ token.stop after = chr 'e' := by
  obtain ⟨e, he⟩ := Option.ne_none_iff_exists'.mp h
  rw [NumberToken.stop, NumberToken.tail, hfrac, he]
  show (if e.upper then chr 'E' else chr 'e') = _ ∨ _
  by_cases hu : e.upper
  · exact Or.inl (if_pos hu)
  · exact Or.inr (if_neg hu)

theorem Follows.not_mark (h : Follows after) : ¬IsFloatMark (after.headD 0) := by
  obtain ⟨-, hdig, hdot, -, -⟩ := h.head
  rintro (hmark | hmark | hmark)
  · exact hdot hmark
  · rw [hmark] at hdig
    exact absurd hdig (by decide)
  · rw [hmark] at hdig
    exact absurd hdig (by decide)

/-- The character behind the digits tells whether there is a fraction or an exponent. -/
theorem NumberToken.isFloatMark_stop (h : Follows after) : IsFloatMark (token.stop after) ↔ ¬token.IsInt := by
  constructor
  · intro hmark hint
    rw [hint.stop] at hmark
    exact h.not_mark hmark
  · intro hint
    by_cases hfrac : token.frac = none
    · rcases @NumberToken.stop_exp after token hfrac fun hexp => hint ⟨hfrac, hexp⟩ with hE | he
      · exact Or.inr (Or.inr hE)
      · exact Or.inr (Or.inl he)
    · exact Or.inl (token.stop_frac hfrac)

theorem NumberToken.notDecimal_stop (h : Follows after) : NotDecimal (token.stop after) := by
  by_cases hint : token.IsInt
  · rw [hint.stop]
    exact notDecimal_of_asciiDigit h.head.1 h.head.2.1
  · rcases (token.isFloatMark_stop h).mpr hint with hmark | hmark | hmark <;> rw [hmark] <;> constructor <;> decide

end Chars

/-! ### The loops over the digits -/

section Loops

variable {Pos : Type} {core : ParserCore Pos} {uni : CharTable} {sizeHint : ℕ → ℕ → ℕ} {isSpace : ℕ → Bool}
  {rest : Pos → List ℕ} {orig : Pos} {k fuel : ℕ} {ds R : List ℕ} {negative : Bool}

/-- Somewhere a digit takes the wrapped sum below the one before. -/
def wraps (v : ℕ) : List ℕ → Prop
  | [] => False
  | d :: ds => sint 64 ((v * 10 + d : ℕ) : ℤ) < sint 64 (v : ℤ) ∨ wraps (v * 10 + d) ds

/-- The signed remainder modulo `2 ^ 64` of some leading run of digits is below that of the run before. -/
def SumFalls (ds : List ℕ) : Prop :=
  ∃ k < ds.length, sint 64 (horner 10 0 (ds.take (k + 1)) : ℤ) < sint 64 (horner 10 0 (ds.take k) : ℤ)

instance (ds : List ℕ) : Decidable (SumFalls ds) := inferInstanceAs (Decidable (∃ k < ds.length, _))

theorem wraps_iff {v : ℕ} : wraps v ds ↔
    ∃ k < ds.length, sint 64 (horner 10 v (ds.take (k + 1)) : ℤ) < sint 64 (horner 10 v (ds.take k) : ℤ) := by
  induction ds generalizing v with
  | nil => exact ⟨False.elim, fun ⟨k, hk, _⟩ => absurd hk (Nat.not_lt_zero k)⟩
  | cons d ds ih =>
    constructor
    · rintro (h0 | htail)
      · exact ⟨0, Nat.succ_pos _, h0⟩
      · obtain ⟨k, hk, hlt⟩ := ih.mp htail
        exact ⟨k + 1, Nat.succ_lt_succ hk, hlt⟩
    · rintro ⟨k, hk, hlt⟩
      cases k with
      | zero => exact Or.inl hlt
      | succ k => exact Or.inr (ih.mpr ⟨k, Nat.lt_of_succ_lt_succ hk, hlt⟩)

/-- As long as the sums do not fall they stay above the first one. -/
theorem le_of_not_wraps {v : ℕ} (h : ¬wraps v ds) : sint 64 (v : ℤ) ≤ sint 64 (horner 10 v ds : ℤ) := by
  induction ds generalizing v with
  | nil => exact le_rfl
  | cons d ds ih =>
    obtain ⟨h0, htail⟩ := not_or.mp h
    exact (not_lt.mp h0).trans (ih htail)

/-- One digit, added to the wrapped sum. -/
theorem sint_step (v d : ℕ) : sint 64 (sint 64 (v : ℤ) * (10 : ℕ) + (d : ℤ)) = sint 64 ((v * 10 + d : ℕ) : ℤ) := by
  show Int.bmod (Int.bmod (v : ℤ) (2 ^ 64) * 10 + d) (2 ^ 64) = _
  rw [← Int.bmod_add_bmod, Int.bmod_mul_bmod, Int.bmod_add_bmod]
  push_cast
  rfl

theorem sint_zero : sint 64 ((0 : ℕ) : ℤ) = 0 := Int.zero_bmod

/-- What the parser has read of a token: `k` characters, and the digits `ds` come next. -/
structure Scanning (core : ParserCore Pos) (isSpace : ℕ → Bool) (rest : Pos → List ℕ) (orig : Pos) (k : ℕ)
    (ds R : List ℕ) : Prop where
  reads : core.Reads isSpace rest
  rest : rest (core.advance k orig) = digitChars ds ++ R
  digits : ∀ d ∈ ds, d < 10
  stop : NotDecimal (R.headD 0)

theorem Scanning.getc_cons {d : ℕ} (h : Scanning core isSpace rest orig k (d :: ds) R) :
    (core.jsonGetc (core.advance k orig)).1 = chr '0' + d ∧ d < 10 ∧
      Scanning core isSpace rest orig (k + 1) ds R := by
  have hget := h.reads.getc_cons h.rest
  exact ⟨hget.1, h.digits d List.mem_cons_self,
    ⟨h.reads, hget.2, fun e he => h.digits e (List.mem_cons_of_mem _ he), h.stop⟩⟩

theorem Scanning.getc_nil (h : Scanning core isSpace rest orig k [] R) :
    (core.jsonGetc (core.advance k orig)).1 = R.headD 0 := by
  rw [h.reads.getc_fst, h.rest]
  rfl

/-- The digits that are left fit the fuel of the loops. -/
theorem Scanning.length_le (h : Scanning core isSpace rest orig k ds R) :
    ds.length ≤ core.left (core.advance k orig) := by
  refine le_trans ?_ (h.reads.left _)
  rw [h.rest]
  simp [digitChars]

theorem skipDigit_loop (h : Scanning core isSpace rest orig k ds R) (hfuel : ds.length < fuel) :
    loop (skipDigit core uni sizeHint orig 10) fuel (core.advance k orig) =
      if IsFloatMark (R.headD 0) then some (.float orig)
      else deeJsonParseLargeInteger core uni sizeHint orig (core.advance (k + ds.length) orig) := by
  induction ds generalizing k fuel with
  | nil =>
    obtain ⟨fuel, rfl⟩ : ∃ n, fuel = n + 1 := ⟨fuel - 1, by simp only [List.length_nil] at hfuel; omega⟩
    rw [loop, skipDigit]
    dsimp only
    rw [h.getc_nil, h.stop.unicodeAsDigit]
    by_cases hmark : IsFloatMark (R.headD 0)
    · rw [if_pos hmark]
      dsimp only
      rw [if_pos ⟨hmark, rfl⟩, some_bind]
    · rw [if_neg hmark]
      dsimp only
      rw [if_neg fun hc => hmark hc.1]
      cases deeJsonParseLargeInteger core uni sizeHint orig (core.advance k orig) <;> rfl
  | cons d ds ih =>
    obtain ⟨fuel, rfl⟩ : ∃ n, fuel = n + 1 := ⟨fuel - 1, by omega⟩
    obtain ⟨hch, hd, hnext⟩ := h.getc_cons
    rw [loop, skipDigit]
    dsimp only
    rw [hch, unicodeAsDigit_decimal hd]
    dsimp only
    rw [some_bind, ← ParserCore.advance_succ]
    dsimp only
    rw [ih hnext (by simpa using hfuel), List.length_cons, Nat.add_right_comm, Nat.add_assoc]

theorem largeNumber_eq (h : Scanning core isSpace rest orig k ds R) :
    deeJsonParseLargeNumber core uni sizeHint orig 10 (core.advance k orig) =
      if IsFloatMark (R.headD 0) then some (.float orig)
      else deeJsonParseLargeInteger core uni sizeHint orig (core.advance (k + ds.length) orig) :=
  skipDigit_loop h (Nat.lt_succ_of_le h.length_le)

/-- The result of `DeeJson_ParseNumber` when no sum fell below the one before, for the last sum. -/
def smallNumber (core : ParserCore Pos) (negative : Bool) (result : ℤ) (pos : Pos) : Option (Parsed Pos) := do
  some (.int (← deeIntNewInt64 (if negative then sint 64 (-result) else result))
    (core.jsonSkipWhitespaceAt (core.jsonGetc pos).2 (core.jsonGetc pos).1 pos))

open Classical in
/-- The loop of `DeeJson_ParseNumber`: it stays in the machine integer or hands over to `DeeJson_ParseLargeNumber`. -/
theorem parseDigit_loop {v : ℕ} (h : Scanning core isSpace rest orig k ds R) (hfuel : ds.length < fuel)
    {start : Pos} (hstart : ds = [] → start = core.advance k orig) :
    loop (parseDigit core uni sizeHint orig negative 10) fuel (start, (core.jsonGetc (core.advance k orig)).2,
      (core.jsonGetc (core.advance k orig)).1, sint 64 (v : ℤ)) =
      if IsFloatMark (R.headD 0) then some (.float orig)
      else if wraps v ds then deeJsonParseLargeInteger core uni sizeHint orig (core.advance (k + ds.length) orig)
      else smallNumber core negative (sint 64 (horner 10 v ds : ℤ)) (core.advance (k + ds.length) orig) := by
  induction ds generalizing k fuel v start with
  | nil =>
    obtain ⟨fuel, rfl⟩ : ∃ n, fuel = n + 1 := ⟨fuel - 1, by simp only [List.length_nil] at hfuel; omega⟩
    rw [loop, parseDigit, h.getc_nil, h.stop.unicodeAsDigit, hstart rfl]
    by_cases hmark : IsFloatMark (R.headD 0)
    · rw [if_pos hmark]
      dsimp only
      rw [if_pos ⟨hmark, rfl⟩, some_bind]
    · have hwraps : ¬wraps v [] := id
      rw [if_neg hmark, if_neg hwraps]
      dsimp only
      rw [if_neg fun hc => hmark hc.1, smallNumber, horner_nil, List.length_nil, Nat.add_zero, h.getc_nil]
      cases deeIntNewInt64 (if negative = true then sint 64 (-sint 64 (v : ℤ)) else sint 64 (v : ℤ)) <;> rfl
  | cons d ds ih =>
    obtain ⟨fuel, rfl⟩ : ∃ n, fuel = n + 1 := ⟨fuel - 1, by omega⟩
    obtain ⟨hch, hd, hnext⟩ := h.getc_cons
    have hlen : k + 1 + ds.length = k + (d :: ds).length := by
      rw [List.length_cons]
      omega
    rw [loop, parseDigit, hch, unicodeAsDigit_decimal hd]
    dsimp only
    rw [sint_step]
    by_cases hlt : sint 64 ((v * 10 + d : ℕ) : ℤ) < sint 64 (v : ℤ)
    · have hwraps : wraps v (d :: ds) := Or.inl hlt
      rw [if_pos hlt, ← ParserCore.advance_succ, largeNumber_eq hnext, hlen, if_pos hwraps]
      split_ifs
      · rfl
      · cases deeJsonParseLargeInteger core uni sizeHint orig (core.advance (k + (d :: ds).length) orig) <;> rfl
    · have hwraps : wraps v (d :: ds) ↔ wraps (v * 10 + d) ds := or_iff_right hlt
      rw [if_neg hlt, some_bind, ← ParserCore.advance_succ]
      dsimp only
      rw [ih hnext (by simpa using hfuel) fun _ => rfl, hlen, horner_cons]
      simp only [hwraps]

/-- The loop of `json_parser_peek_number_is_float` stops behind the digits without looking at the next character. -/
theorem peekDigit_loop {d : ℕ} (h : Scanning core isSpace rest orig k (d :: ds) R) (hfuel : ds.length < fuel) :
    loop (peekDigit core uni 10) fuel ((core.jsonGetc (core.advance k orig)).1,
      (core.jsonGetc (core.advance k orig)).2) = some .noobj := by
  induction ds generalizing k fuel d with
  | nil =>
    obtain ⟨fuel, rfl⟩ : ∃ n, fuel = n + 1 := ⟨fuel - 1, by simp only [List.length_nil] at hfuel; omega⟩
    obtain ⟨hch, hd, hnext⟩ := h.getc_cons
    rw [loop, peekDigit, hch, unicodeAsDigit_decimal hd]
    dsimp only
    rw [← ParserCore.advance_succ, hnext.getc_nil, h.stop.unicodeIsDigit, if_neg Bool.false_ne_true,
      if_neg fun hc => absurd hc.1 (by norm_num)]
    rfl
  | cons e ds ih =>
    obtain ⟨fuel, rfl⟩ : ∃ n, fuel = n + 1 := ⟨fuel - 1, by omega⟩
    obtain ⟨hch, hd, hnext⟩ := h.getc_cons
    have hnext' := hnext.getc_cons
    rw [loop, peekDigit, hch, unicodeAsDigit_decimal hd]
    dsimp only
    have hrun := ih hnext (by simpa using hfuel)
    rw [hnext'.1] at hrun
    rw [← ParserCore.advance_succ, hnext'.1, unicodeIsDigit_decimal hnext'.2.1, if_pos rfl, some_bind]
    exact hrun

end Loops

/-! ### Large integers -/

section Large

variable {uni : UniTable} {sizeHint : ℕ → ℕ → ℕ} {flags : StringFlags} {negative : Bool} {ds : List ℕ}

@[simp] theorem length_digitChars : (digitChars ds).length = ds.length := List.length_map _

theorem digitsOf_digitChars (h : ∀ d ∈ ds, d < 10) : digitsOf (digitChars ds) = ds := by
  induction ds with
  | nil => rfl
  | cons d ds ih =>
    have hd := asciiDigit_decimal (h d List.mem_cons_self)
    rw [digitChars, List.map_cons, digitsOf_cons hd]
    exact congrArg _ (ih fun e he => h e (List.mem_cons_of_mem _ he))

theorem digitText_digitChars {noseps : Bool} (h : ∀ d ∈ ds, d < 10) : DigitText 10 noseps (digitChars ds) := by
  refine ⟨fun ch hch => ?_, fun hlast => ?_⟩
  · obtain ⟨d, hd, rfl⟩ := List.mem_map.mp hch
    exact Or.inr ⟨d, h d hd, asciiDigit_decimal (h d hd)⟩
  · obtain ⟨d, hd, hch⟩ := List.mem_map.mp (List.mem_of_getLast? hlast)
    have hdig := asciiDigit_decimal (h d hd)
    rw [hch, asciiDigit_underscore] at hdig
    cases hdig

theorem decimal_ne {d : ℕ} (hd : d < 10) : chr '0' + d ≠ chr '+' ∧ chr '0' + d ≠ chr '-' ∧ chr '0' + d ≠ backslash := by
  simp only [chr, Char.reduceToNat, backslash]
  omega

/-- The sign of a decimal numeral. -/
theorem parseSign_decimal {d : ℕ} (hd : d < 10) (hesc : flags.escaped = false) :
    parseSign uni flags (signText negative ++ digitChars (d :: ds)) =
      some (some (negative, (signText negative).length)) := by
  obtain ⟨hplus, hminus, -⟩ := decimal_ne hd
  obtain ⟨fuel, hfuel⟩ : ∃ n, (signText negative ++ digitChars (d :: ds)).length + 1 = n + 1 + 1 :=
    ⟨(signText negative).length + ds.length, by simp only [List.length_append, length_digitChars, List.length_cons]; omega⟩
  unfold parseSign
  rw [hfuel, loop]
  dsimp only
  cases negative with
  | false =>
    have hcell : cell (signText false ++ digitChars (d :: ds)) 0 = chr '0' + d := rfl
    rw [if_neg (by simp [signText]), rd_of_lt (by simp [signText]), some_bind, hcell, if_neg hplus, if_neg hminus,
      if_neg (by simp [hesc]), some_bind]
    rfl
  | true =>
    have hcell0 : cell (signText true ++ digitChars (d :: ds)) 0 = chr '-' := rfl
    have hcell1 : cell (signText true ++ digitChars (d :: ds)) 1 = chr '0' + d := rfl
    rw [if_neg (by simp [signText]), rd_of_lt (by simp [signText]), some_bind, hcell0, if_neg (by decide), if_pos rfl,
      some_bind]
    dsimp only
    rw [loop]
    dsimp only
    rw [if_neg (by simp [signText]), rd_of_lt (by simp [signText]), some_bind, hcell1, if_neg hplus, if_neg hminus,
      if_neg (by simp [hesc]), some_bind]
    rfl

/-- A decimal numeral that starts with a digit other than zero has the radix ten. -/
theorem parseRadix_decimal {str : List ℕ} {start d : ℕ} (hd : d < 10) (hpos : d ≠ 0) (hlt : start < str.length)
    (hcell : cell str start = chr '0' + d) : parseRadix uni flags str start 0 = some (some (10, start)) := by
  have hdig := asciiDigit_decimal hd
  have hascii := (asciiDigit_lt hdig).1
  have hval : uni.deeUniAsDigitVal (chr '0' + d) = d := by
    rw [UniTable.deeUniAsDigitVal, if_pos hascii, hdig]
    rfl
  rw [parseRadix, if_neg (not_not.mpr rfl), readUtf8N_ascii hlt hlt (by rwa [hcell]), some_bind, hcell]
  dsimp only
  rw [hval, if_neg hpos]

/-- The number that the text of a decimal numeral without leading zeros stands for. -/
theorem fromString_decimal {d : ℕ} (hds : ∀ e ∈ d :: ds, e < 10) (hpos : d ≠ 0) (hesc : flags.escaped = false) :
    Ends (deeIntFromString uni sizeHint (signText negative ++ digitChars (d :: ds)) 0 flags) fun r =>
      ∃ z, r = .ok (some z) ∧ z.Canonical ∧
        z.toInt = if negative then -(horner 10 0 (d :: ds) : ℤ) else horner 10 0 (d :: ds) := by
  have hd := hds d List.mem_cons_self
  have hdrop : (signText negative ++ digitChars (d :: ds)).drop (signText negative).length = digitChars (d :: ds) :=
    List.drop_left
  have hlt : (signText negative).length < (signText negative ++ digitChars (d :: ds)).length := by
    simp only [List.length_append, length_digitChars, List.length_cons]
    omega
  have hcell : cell (signText negative ++ digitChars (d :: ds)) (signText negative).length = chr '0' + d := by
    cases negative <;> rfl
  unfold deeIntFromString
  rw [parseSign_decimal hd hesc, some_bind]
  dsimp only
  rw [parseRadix_decimal hd hpos hlt hcell, some_bind]
  dsimp only
  rw [if_neg (by omega), assert_of (by norm_num), some_bind, if_pos (by decide)]
  refine Ends.bind (intFromNonbinaryString_ends sizeHint (by norm_num) (by norm_num)
    (by rw [hdrop]; exact digitText_digitChars hds)) ?_
  rintro _ ⟨z, rfl, hz, hval⟩
  rw [hdrop, digitsOf_digitChars hds] at hval
  dsimp only
  cases negative with
  | false => exact Ends.pure ⟨z, rfl, hz, hval⟩
  | true =>
    refine Ends.pure ⟨_, rfl, hz.neg, ?_⟩
    rw [if_pos rfl, DeeInt.toInt_neg, hval]
    rfl

end Large

/-! ### Tokens -/

section Tokens

variable {Pos : Type} {core : ParserCore Pos} {uni : CharTable} {sizeHint : ℕ → ℕ → ℕ} {isSpace : ℕ → Bool}
  {rest : Pos → List ℕ} {orig : Pos} {token : NumberToken} {after : List ℕ}

/-- The token is parsed to its value, and the parser is left behind it and the whitespace that follows. -/
def ParsedAsInt (core : ParserCore Pos) (uni : CharTable) (sizeHint : ℕ → ℕ → ℕ) (isSpace : ℕ → Bool)
    (rest : Pos → List ℕ) (orig : Pos) (token : NumberToken) (after : List ℕ) : Prop :=
  Ends (deeJsonParseNumber core uni sizeHint orig) fun r => ∃ z pos, r = .int z pos ∧ z.Canonical ∧
    z.toInt = token.value ∧ rest pos = after.dropWhile isSpace

/-- An integer is parsed exactly, any other number goes to the float path, and the peek function tells the two apart. -/
def ParsedExactly (core : ParserCore Pos) (uni : CharTable) (sizeHint : ℕ → ℕ → ℕ) (isSpace : ℕ → Bool)
    (rest : Pos → List ℕ) (orig : Pos) (token : NumberToken) (after : List ℕ) : Prop :=
  (token.IsInt → ParsedAsInt core uni sizeHint isSpace rest orig token after ∧
    jsonParserPeekNumberIsFloat core uni orig = some .noobj) ∧
  (¬token.IsInt → deeJsonParseNumber core uni sizeHint orig = some (.float orig) ∧
    jsonParserPeekNumberIsFloat core uni orig = some .ok)

/-- An integer that fits the accumulator or whose wrapped sums fall somewhere, and zero with a fraction. -/
def NumberToken.Handled (token : NumberToken) : Prop :=
  (token.IsInt → token.mag < 2 ^ 63 ∨ SumFalls token.int.vals) ∧
  (¬token.IsInt → token.int.vals = [0] ∧ token.frac ≠ none)

/-- Behind the sign the parser is in front of the digits. -/
theorem scanning_start (hcore : core.Reads isSpace rest) (htext : rest orig = token.text ++ after)
    (hafter : Follows after) :
    Scanning core isSpace rest orig (signText token.negative).length token.int.vals (token.tail ++ after) := by
  refine ⟨hcore, hcore.rest_append (u := signText token.negative) ?_ rfl, token.int.lt_ten, token.notDecimal_stop hafter⟩
  rw [htext, NumberToken.text]
  simp only [List.append_assoc]

theorem afterSign_eq {d : ℕ} {ds R : List ℕ} (htext : rest orig = signText token.negative ++ digitChars (d :: ds) ++ R)
    (h : Scanning core isSpace rest orig (signText token.negative).length (d :: ds) R) :
    afterSign core orig = (token.negative, chr '0' + d, core.advance ((signText token.negative).length + 1) orig) := by
  obtain ⟨hch, hd, -⟩ := h.getc_cons
  have hsnd := @ParserCore.advance_succ Pos core orig (signText token.negative).length
  cases hneg : token.negative with
  | false =>
    rw [hneg] at hch hsnd
    have hch : (core.jsonGetc orig).1 = chr '0' + d := hch
    rw [afterSign]
    dsimp only
    rw [hch, if_neg (decimal_ne hd).2.1, hsnd]
    rfl
  | true =>
    rw [hneg] at hch hsnd htext
    have hminus := (h.reads.getc_cons htext).1
    have hch : (core.jsonGetc (core.jsonGetc orig).2).1 = chr '0' + d := hch
    rw [afterSign]
    dsimp only
    rw [hminus, if_pos rfl, hsnd, ← hch]
    rfl

/-- The text of a token without fraction and exponent ends with its digits. -/
theorem rest_int (htext : rest orig = token.text ++ after) (hint : token.IsInt) :
    rest orig = (signText token.negative ++ digitChars token.int.vals) ++ after := by
  rw [htext, NumberToken.text, hint.tail, List.append_nil]

/-- `DeeJson_ParseLargeInteger` on the whole token. -/
theorem parseLargeInteger_ends (hcore : core.Reads isSpace rest) (htext : rest orig = token.text ++ after)
    (hint : token.IsInt) (hzero : token.int.vals ≠ [0]) :
    Ends (deeJsonParseLargeInteger core uni sizeHint orig
      (core.advance ((signText token.negative).length + token.int.vals.length) orig)) fun r =>
        ∃ z pos, r = .int z pos ∧ z.Canonical ∧ z.toInt = token.value ∧ rest pos = after.dropWhile isSpace := by
  have hrest := rest_int htext hint
  have hlen : (signText token.negative ++ digitChars token.int.vals).length =
      (signText token.negative).length + token.int.vals.length := by
    rw [List.length_append, length_digitChars]
  obtain ⟨d, ds, hds⟩ := List.exists_cons_of_ne_nil token.int.ne_nil
  have hpos : d ≠ 0 := by
    rintro rfl
    exact hzero (token.leadingZero (by rw [hds]; rfl))
  have hlt := token.int.lt_ten
  have htake : (rest orig).take ((signText token.negative).length + token.int.vals.length) =
      signText token.negative ++ digitChars token.int.vals := by
    rw [hrest, ← hlen, List.take_left]
  have hascii : ∀ ch ∈ signText token.negative ++ digitChars token.int.vals, ch < 0x80 := by
    intro ch hch
    rcases List.mem_append.mp hch with hsign | hdig
    · unfold signText at hsign
      split_ifs at hsign
      · rw [List.mem_singleton.mp hsign]
        decide
      · cases hsign
    · obtain ⟨e, he, rfl⟩ := List.mem_map.mp hdig
      exact (asciiDigit_lt (asciiDigit_decimal (hlt e he))).1
  have hutf8 := hcore.utf8 (k := (signText token.negative).length + token.int.vals.length)
    (show _ ≤ (rest orig).length by rw [hrest, List.length_append, hlen]; omega) (by rw [htake]; exact hascii)
  have hend := hcore.rest_append hrest hlen
  unfold deeJsonParseLargeInteger
  rw [hutf8, htake, hds]
  refine Ends.bind (fromString_decimal (by rw [← hds]; exact hlt) hpos rfl) ?_
  rintro _ ⟨z, rfl, hz, hval⟩
  refine Ends.pure ⟨z, _, rfl, hz, ?_, ?_⟩
  · rw [hval, ← hds]
    rfl
  · rw [← hds, hcore.skip, hend]

/-- A number that was summed up in the accumulator is right when the accumulator can hold it. -/
theorem smallNumber_iff {last : Pos} (hcore : core.Reads isSpace rest) (hlast : rest last = after)
    (hwraps : ¬wraps 0 token.int.vals) :
    Ends (smallNumber core token.negative (sint 64 (horner 10 0 token.int.vals : ℤ)) last) (fun r =>
      ∃ z pos, r = .int z pos ∧ z.Canonical ∧ z.toInt = token.value ∧ rest pos = after.dropWhile isSpace) ↔
      token.mag < 2 ^ 63 := by
  have hnonneg : (0 : ℤ) ≤ sint 64 (token.mag : ℤ) := by
    have hle := le_of_not_wraps hwraps
    rwa [sint_zero] at hle
  have hfits : FitsSigned 63 (sint 64 (token.mag : ℤ)) := fitsSigned_sint
  have hneg : sint 64 (-sint 64 (token.mag : ℤ)) = -sint 64 (token.mag : ℤ) :=
    sint_of_fits ⟨by have := hfits.2; omega, by omega⟩
  have hmag : sint 64 (token.mag : ℤ) = token.mag ↔ token.mag < 2 ^ 63 := by
    rw [sint_eq_iff]
    exact ⟨fun h => by have := h.2; omega, fun h => ⟨by omega, by omega⟩⟩
  obtain ⟨z, hrun, hz, hval⟩ := newSigned_ends
    (if token.negative then sint 64 (-sint 64 (token.mag : ℤ)) else sint 64 (token.mag : ℤ))
  have hsmall : smallNumber core token.negative (sint 64 (horner 10 0 token.int.vals : ℤ)) last =
      some (.int z (core.jsonSkipWhitespaceAt (core.jsonGetc last).2 (core.jsonGetc last).1 last)) := by
    unfold smallNumber deeIntNewInt64
    rw [show horner 10 0 token.int.vals = token.mag from rfl, hrun]
    rfl
  have hvalue : z.toInt = token.value ↔ token.mag < 2 ^ 63 := by
    rw [hval, NumberToken.value, hneg, ← hmag]
    split_ifs <;> omega
  constructor
  · intro hends
    obtain ⟨z', pos, heq, -, hz', -⟩ := hends.of_eq hsmall
    injection heq with hzz
    exact hvalue.mp (hzz ▸ hz')
  · intro hlt
    rw [hsmall]
    exact Ends.pure ⟨z, _, rfl, hz, hvalue.mpr hlt, by rw [hcore.skipAt, hlast]⟩

open Classical in
/-- A number whose digits do not start with a zero. -/
theorem parseNumber_eq {d : ℕ} {ds : List ℕ} (hcore : core.Reads isSpace rest) (htext : rest orig = token.text ++ after)
    (hafter : Follows after) (hds : token.int.vals = d :: ds) (hpos : d ≠ 0) :
    deeJsonParseNumber core uni sizeHint orig =
      (if ¬token.IsInt then some (.float orig)
      else if wraps 0 token.int.vals then deeJsonParseLargeInteger core uni sizeHint orig
        (core.advance ((signText token.negative).length + token.int.vals.length) orig)
      else smallNumber core token.negative (sint 64 (horner 10 0 token.int.vals : ℤ))
        (core.advance ((signText token.negative).length + token.int.vals.length) orig)) ∧
    jsonParserPeekNumberIsFloat core uni orig = some .noobj := by
  have hscan := scanning_start hcore htext hafter
  have hmark := token.isFloatMark_stop hafter
  rw [NumberToken.text, List.append_assoc, hds] at htext
  rw [hds] at hscan ⊢
  obtain ⟨hch, hd, hnext⟩ := hscan.getc_cons
  have hlen := hnext.length_le
  have hsign := afterSign_eq htext hscan
  have hne : chr '0' + d ≠ chr '0' := by omega
  constructor
  · rw [deeJsonParseNumber, hsign]
    dsimp only
    rw [unicodeIsDigit_decimal hd, Bool.not_true, if_neg Bool.false_ne_true, if_neg hne, ParserCore.advance_succ, ← hch,
      ← sint_zero, parseDigit_loop hscan (by rw [List.length_cons, ← ParserCore.advance_succ]; omega) (fun h => nomatch h)]
    show (if IsFloatMark (token.stop after) then _ else _) = _
    simp only [hmark]
  · rw [jsonParserPeekNumberIsFloat, hsign]
    dsimp only
    rw [unicodeIsDigit_decimal hd, Bool.not_true, if_neg Bool.false_ne_true, if_neg hne, ParserCore.advance_succ, ← hch,
      peekDigit_loop hscan (by rw [← ParserCore.advance_succ]; omega)]

/-- A zero is followed by neither `x` nor `b`, so the radix is eight. -/
theorem radixAfterZero_eq {pos : Pos} {ch : ℕ} (hch : (core.jsonGetc pos).1 = ch) (hx : ch ≠ chr 'x' ∧ ch ≠ chr 'X')
    (hb : ch ≠ chr 'b' ∧ ch ≠ chr 'B') : radixAfterZero core pos = (8, ch, (core.jsonGetc pos).2) := by
  rw [radixAfterZero]
  dsimp only
  rw [hch, if_neg (not_or.mpr hx), if_neg (not_or.mpr hb)]

/-- The number zero without fraction and exponent. -/
theorem zero_int {pos : Pos} (hcore : core.Reads isSpace rest) (hafter : Follows after) (hrest : rest pos = after)
    {negative : Bool} :
    parseAfterZero core uni sizeHint orig negative pos =
      some (.int deeIntNewZero (core.jsonSkipWhitespaceAt (core.jsonGetc pos).2 (core.jsonGetc pos).1 pos)) ∧
    peekAfterZero core uni pos = some .noobj := by
  obtain ⟨hascii, hdig, -, hx⟩ := hafter.head
  have hch : (core.jsonGetc pos).1 = after.headD 0 := by rw [hcore.getc_fst, hrest]
  have hb : after.headD 0 ≠ chr 'b' ∧ after.headD 0 ≠ chr 'B' := by
    constructor <;> intro heq <;> rw [heq] at hdig <;> exact absurd hdig (by decide)
  have hxdigit : uni.unicodeIsXDigit (after.headD 0) = false := (notDecimal_of_asciiDigit hascii hdig).unicodeIsXDigit hdig
  rw [parseAfterZero, peekAfterZero, radixAfterZero_eq hch hx hb]
  dsimp only
  rw [hxdigit, hch, Bool.not_false, if_pos rfl, if_pos rfl, if_neg (not_not.mpr rfl), if_neg (not_not.mpr rfl),
    if_neg hafter.not_mark, if_neg hafter.not_mark]
  exact ⟨rfl, rfl⟩

/-- Zero with a fraction is for the float path. -/
theorem zero_frac {pos : Pos} (hch : (core.jsonGetc pos).1 = chr '.') {negative : Bool} :
    parseAfterZero core uni sizeHint orig negative pos = some (.float orig) ∧
    peekAfterZero core uni pos = some .ok := by
  have hdot : NotDecimal (chr '.') := by constructor <;> decide
  have hxdigit : uni.unicodeIsXDigit (chr '.') = false := hdot.unicodeIsXDigit (by decide)
  have hmark : IsFloatMark (chr '.') := Or.inl rfl
  rw [parseAfterZero, peekAfterZero, radixAfterZero_eq hch (by decide) (by decide)]
  dsimp only
  rw [hxdigit]
  simp [hmark]

/-- Zero with an exponent: the mark is a hexadecimal digit but no octal one, so the number ends before it. -/
theorem zero_exp {pos : Pos} {ch : ℕ} (hch : (core.jsonGetc pos).1 = ch) (hmark : ch = chr 'E' ∨ ch = chr 'e')
    {negative : Bool} :
    (∃ z last, parseAfterZero core uni sizeHint orig negative pos = some (.int z last)) ∧
    peekAfterZero core uni pos = some .syntaxError := by
  have hfacts : ch ≠ chr 'x' ∧ ch ≠ chr 'X' ∧ ch ≠ chr 'b' ∧ ch ≠ chr 'B' ∧ uni.unicodeIsXDigit ch = true ∧
      uni.unicodeAsDigit ch 8 = none := by
    rcases hmark with rfl | rfl <;> exact ⟨by decide, by decide, by decide, by decide, rfl, rfl⟩
  obtain ⟨hx, hX, hb, hB, hxdigit, hdig⟩ := hfacts
  rw [parseAfterZero, peekAfterZero, radixAfterZero_eq hch ⟨hx, hX⟩ ⟨hb, hB⟩]
  dsimp only
  rw [hxdigit, Bool.not_true, if_neg Bool.false_ne_true, if_neg Bool.false_ne_true, loop, loop, parseDigit, peekDigit, hdig]
  dsimp only
  have hradix : ¬(IsFloatMark ch ∧ 8 = 10) := fun h => absurd h.2 (by norm_num)
  obtain ⟨z, hrun, -⟩ := newSigned_ends (if negative = true then sint 64 (-0) else 0)
  unfold deeIntNewInt64
  rw [if_neg hradix, if_neg hradix, hrun]
  exact ⟨⟨z, _, rfl⟩, rfl⟩

/-- Behind a zero both functions look at the next character. -/
theorem zero_start (hcore : core.Reads isSpace rest) (htext : rest orig = token.text ++ after) (hafter : Follows after)
    (hds : token.int.vals = [0]) : ∃ pos, rest pos = token.tail ++ after ∧
      deeJsonParseNumber core uni sizeHint orig = parseAfterZero core uni sizeHint orig token.negative pos ∧
      jsonParserPeekNumberIsFloat core uni orig = peekAfterZero core uni pos := by
  have hscan := scanning_start hcore htext hafter
  rw [NumberToken.text, List.append_assoc, hds] at htext
  rw [hds] at hscan
  obtain ⟨-, -, hnext⟩ := hscan.getc_cons
  have hdigit : uni.unicodeIsDigit (chr '0' + 0) = true := unicodeIsDigit_decimal (by norm_num)
  refine ⟨_, hnext.rest, ?_, ?_⟩
  · rw [deeJsonParseNumber, afterSign_eq htext hscan]
    dsimp only
    rw [hdigit, Bool.not_true, if_neg Bool.false_ne_true, if_pos (Nat.add_zero _)]
  · rw [jsonParserPeekNumberIsFloat, afterSign_eq htext hscan]
    dsimp only
    rw [hdigit, Bool.not_true, if_neg Bool.false_ne_true, if_pos (Nat.add_zero _)]

/-- The number zero. -/
theorem parsedExactly_zero (hcore : core.Reads isSpace rest) (htext : rest orig = token.text ++ after)
    (hafter : Follows after) (hds : token.int.vals = [0]) :
    ParsedExactly core uni sizeHint isSpace rest orig token after ↔ token.Handled := by
  obtain ⟨pos, hpos, hparse, hpeek⟩ := @zero_start _ _ uni sizeHint _ _ _ _ _ hcore htext hafter hds
  have hch : (core.jsonGetc pos).1 = token.stop after := by
    rw [hcore.getc_fst, hpos]
    rfl
  have hmag : token.mag = 0 := by
    rw [NumberToken.mag, hds]
    rfl
  unfold ParsedExactly NumberToken.Handled ParsedAsInt
  rw [hparse, hpeek]
  by_cases hint : token.IsInt
  · rw [hint.tail, List.nil_append] at hpos
    obtain ⟨hp, hq⟩ := @zero_int _ _ uni sizeHint _ _ orig _ _ hcore hafter hpos token.negative
    rw [hp, hq]
    refine ⟨fun _ => ⟨fun _ => Or.inl (by rw [hmag]; norm_num), fun h => absurd hint h⟩,
      fun _ => ⟨fun _ => ⟨Ends.pure ⟨_, _, rfl, deeIntNewZero_canonical.1, ?_, ?_⟩, rfl⟩, fun h => absurd hint h⟩⟩
    · rw [deeIntNewZero_canonical.2, NumberToken.value, hmag]
      simp
    · rw [hcore.skipAt, hpos]
  · by_cases hfrac : token.frac = none
    · have hstop := @NumberToken.stop_exp after token hfrac fun hexp => hint ⟨hfrac, hexp⟩
      obtain ⟨-, hq⟩ := @zero_exp _ core uni sizeHint orig _ _ hch hstop token.negative
      rw [hq]
      exact ⟨fun h => absurd (h.2 hint).2 (by simp), fun h => absurd hfrac (h.2 hint).2⟩
    · obtain ⟨hp, hq⟩ := @zero_frac _ core uni sizeHint orig _ (hch.trans (token.stop_frac hfrac)) token.negative
      rw [hp, hq]
      exact ⟨fun _ => ⟨fun h => absurd h hint, fun _ => ⟨hds, hfrac⟩⟩,
        fun _ => ⟨fun h => absurd h hint, fun _ => ⟨rfl, rfl⟩⟩⟩

/-- A JSON number is handled exactly when it is an integer that fits the accumulator or one that makes the wrapped sum
fall, or zero with a fraction. -/
theorem parsedExactly_iff (hcore : core.Reads isSpace rest) (htext : rest orig = token.text ++ after)
    (hafter : Follows after) :
    ParsedExactly core uni sizeHint isSpace rest orig token after ↔ token.Handled := by
  by_cases hds : token.int.vals = [0]
  · exact parsedExactly_zero hcore htext hafter hds
  obtain ⟨d, ds, hcons⟩ := List.exists_cons_of_ne_nil token.int.ne_nil
  have hpos : d ≠ 0 := by
    rintro rfl
    exact hds (token.leadingZero (by rw [hcons]; rfl))
  obtain ⟨hparse, hpeek⟩ := @parseNumber_eq _ _ uni sizeHint _ _ _ _ _ _ _ hcore htext hafter hcons hpos
  unfold ParsedExactly NumberToken.Handled ParsedAsInt
  rw [hparse, hpeek]
  by_cases hint : token.IsInt
  · have hlast := hcore.rest_append (k := (signText token.negative).length + token.int.vals.length)
      (rest_int htext hint) (by rw [List.length_append, length_digitChars])
    rw [if_neg (not_not.mpr hint)]
    have hiff : wraps 0 token.int.vals ↔ SumFalls token.int.vals := wraps_iff
    by_cases hwraps : wraps 0 token.int.vals
    · rw [if_pos hwraps]
      exact ⟨fun _ => ⟨fun _ => Or.inr (hiff.mp hwraps), fun h => absurd hint h⟩,
        fun _ => ⟨fun _ => ⟨parseLargeInteger_ends hcore htext hint hds, rfl⟩, fun h => absurd hint h⟩⟩
    · rw [if_neg hwraps]
      have hsmall := smallNumber_iff hcore hlast hwraps
      exact ⟨fun h => ⟨fun _ => Or.inl (hsmall.mp (h.1 hint).1), fun h => absurd hint h⟩,
        fun h => ⟨fun _ => ⟨hsmall.mpr ((h.1 hint).resolve_right fun hf => hwraps (hiff.mpr hf)), rfl⟩,
          fun h => absurd hint h⟩⟩
  · rw [if_pos hint]
    exact ⟨fun h => absurd (h.2 hint).2 (by simp), fun h => absurd (h.2 hint).1 hds⟩

/-- A parser whose positions are the text that is left. -/
def listCore (isSpace : ℕ → Bool) : ParserCore (List ℕ) where
  left := List.length
  jsonGetc := fun text => (text.headD 0, text.tail)
  jsonSkipWhitespace := List.dropWhile isSpace
  jsonSkipWhitespaceAt := fun _ _ start => start.dropWhile isSpace
  utf8 := fun start pos => start.take (start.length - pos.length)

theorem listCore_advance {text : List ℕ} {k : ℕ} : (listCore isSpace).advance k text = text.drop k := by
  induction k with
  | zero => rfl
  | succ k ih =>
    rw [ParserCore.advance_succ, ih]
    exact List.tail_drop

theorem listCore_reads : (listCore isSpace).Reads isSpace id := by
  refine ⟨fun _ => le_rfl, ?_, ?_, fun _ => rfl, fun _ => rfl, ?_⟩
  · rintro _ ch cs rfl
    exact ⟨rfl, rfl⟩
  · rintro _ rfl
    rfl
  · intro text k hk _
    rw [listCore_advance]
    show text.take (text.length - (text.drop k).length) = text.take k
    have hk : k ≤ text.length := hk
    rw [List.length_drop, Nat.sub_sub_self hk]

/-- `25000000000000000000`. -/
def twentyFive : NumberToken :=
  ⟨false, ⟨[2, 5, 0, 0, 0, 0, 0, 0, 0, 0, 0, 0, 0, 0, 0, 0, 0, 0, 0, 0], by decide, by decide⟩, by decide, none, none⟩

/-- `0e5`. -/
def zeroExp : NumberToken := ⟨false, ⟨[0], by decide, by decide⟩, by decide, none, some ⟨false, none, ⟨[5], by decide, by decide⟩⟩⟩

/-- `1.5`. -/
def oneAndAHalf : NumberToken := ⟨false, ⟨[1], by decide, by decide⟩, by decide, some ⟨[5], by decide, by decide⟩, none⟩

/-- The traits of ASCII text. -/
def asciiTable : CharTable := ⟨⟨fun _ => 0xff, fun _ => none, fun _ => false⟩, fun _ => false, fun _ => false⟩

/-- An integer whose wrapped sums never fall, zero with an exponent, and a fraction that the peek function misses. -/
theorem parsedExactly_fails : (listCore (· == 0x20)).Reads (· == 0x20) id ∧ Follows [] ∧
    ¬ParsedExactly (listCore (· == 0x20)) asciiTable (fun _ _ => 0) (· == 0x20) id twentyFive.text twentyFive [] ∧
    ¬ParsedExactly (listCore (· == 0x20)) asciiTable (fun _ _ => 0) (· == 0x20) id zeroExp.text zeroExp [] ∧
    ¬ParsedExactly (listCore (· == 0x20)) asciiTable (fun _ _ => 0) (· == 0x20) id oneAndAHalf.text oneAndAHalf [] := by
  refine ⟨listCore_reads, by decide, fun h => ?_, fun h => ?_, fun h => ?_⟩
  · have hrun : deeJsonParseNumber (listCore (· == 0x20)) asciiTable (fun _ _ => 0) twentyFive.text =
        some (.int ⟨3, [415498240, 734486061, 5]⟩ []) := by decide +kernel
    obtain ⟨z, pos, heq, -, hval, -⟩ := (h.1 ⟨rfl, rfl⟩).1.of_eq hrun
    injection heq with hz
    rw [← hz] at hval
    exact absurd hval (by decide +kernel)
  · have hrun : deeJsonParseNumber (listCore (· == 0x20)) asciiTable (fun _ _ => 0) zeroExp.text =
        some (.int ⟨0, [0]⟩ zeroExp.text) := by decide +kernel
    have hfloat := (h.2 fun hint => nomatch hint.2).1
    rw [hrun] at hfloat
    cases hfloat
  · have hpeek : jsonParserPeekNumberIsFloat (listCore (· == 0x20)) asciiTable oneAndAHalf.text = some .noobj := by
      decide +kernel
    have hok := (h.2 fun hint => nomatch hint.1).2
    rw [hpeek] at hok
    cases hok

/-- An integer of twenty digits whose wrapped sum falls at the last one. -/
def eighteen : NumberToken :=
  ⟨true, ⟨[1, 8, 4, 4, 6, 7, 4, 4, 0, 7, 3, 7, 0, 9, 5, 5, 1, 6, 1, 6], by decide, by decide⟩, by decide, none, none⟩

theorem parsedExactly_iff_eighteen : ParsedExactly (listCore (· == 0x20)) asciiTable (fun _ _ => 0) (· == 0x20) id
    (eighteen.text ++ [0x20, 0x2c]) eighteen [0x20, 0x2c] ↔ eighteen.Handled :=
  parsedExactly_iff listCore_reads rfl (by decide)

end Tokens

end Deemon.Json
