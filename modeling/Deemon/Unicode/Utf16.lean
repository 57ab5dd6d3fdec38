import Deemon.Unicode.Strings

/-!
# UTF-16

The standard encoding, the characters that a sequence of units stands for under each error mode, and
`DeeString_PackUtf16Buffer`, which repairs the units in place while it counts characters and UTF-8 bytes, and then
converts them in a second pass.
-/

namespace Deemon.Unicode

open Deemon.Run

/-- `UTF16_HIGH_SURROGATE_MIN` to `UTF16_HIGH_SURROGATE_MAX`. -/
def IsHigh (u : ℕ) : Prop := 0xd800 ≤ u ∧ u ≤ 0xdbff

/-- `UTF16_LOW_SURROGATE_MIN` to `UTF16_LOW_SURROGATE_MAX`. -/
def IsLow (u : ℕ) : Prop := 0xdc00 ≤ u ∧ u ≤ 0xdfff

instance (u : ℕ) : Decidable (IsHigh u) := inferInstanceAs (Decidable (_ ∧ _))

instance (u : ℕ) : Decidable (IsLow u) := inferInstanceAs (Decidable (_ ∧ _))

/-! ### The standard -/

/-- The units of a character. -/
def writeUtf16 (ch : ℕ) : List ℕ :=
  if ch ≤ 0xffff then [ch] else [0xd800 + (ch - 0x10000) / 2 ^ 10, 0xdc00 + (ch - 0x10000) % 2 ^ 10]

/-- The UTF-16 form of a text. -/
def utf16 (chars : List ℕ) : List ℕ := chars.flatMap writeUtf16

/-- The character of a pair of surrogates. -/
def pairChar (high low : ℕ) : ℕ := 0x10000 + (high - 0xd800) * 2 ^ 10 + (low - 0xdc00)

/-- The characters of a sequence of units, read from left to right. A high surrogate without a low one becomes `'?'`,
or is dropped with the unit behind it, or the sequence is refused. -/
def decodeUtf16 (mode : ErrorMode) : List ℕ → Option (List ℕ)
  | [] => some []
  | [u] =>
    if IsHigh u then if mode.freplac then some [chr '?'] else if mode.fignore then some [] else none
    else some [u]
  | u :: v :: rest =>
    if IsHigh u then
      if IsLow v then (pairChar u v :: ·) <$> decodeUtf16 mode rest
      else if mode.freplac then (chr '?' :: ·) <$> decodeUtf16 mode (v :: rest)
      else if mode.fignore then decodeUtf16 mode rest
      else none
    else (u :: ·) <$> decodeUtf16 mode (v :: rest)

/-! ### `DeeString_PackUtf16Buffer` -/

/-- The number of UTF-8 bytes that the scan counts for a character. -/
def utf8Size (ch : ℕ) : ℕ := if ch ≤ 0x7f then 1 else if ch ≤ 0x7ff then 2 else if ch ≤ 0xffff then 3 else 4

/-- The bytes that `utf16_to_utf8_char32` writes for a character. -/
def char32Utf8 (ch : ℕ) : List ℕ :=
  if ch ≤ 0x7f then [ch]
  else if ch ≤ 0x7ff then [0xc0 ||| (ch >>> 6) % 2 ^ 8, 0x80 ||| (ch &&& 0x3f)]
  else if ch ≤ 0xffff then [0xe0 ||| (ch >>> 12) % 2 ^ 8, 0x80 ||| (ch >>> 6 &&& 0x3f), 0x80 ||| (ch &&& 0x3f)]
  else [0xf0 ||| (ch >>> 18) % 2 ^ 8, 0x80 ||| (ch >>> 12 &&& 0x3f), 0x80 ||| (ch >>> 6 &&& 0x3f), 0x80 ||| (ch &&& 0x3f)]

/-- The bytes that `char16_to_utf8` and `utf16_to_utf8_char16` write for a character. -/
def char16Utf8 (ch : ℕ) : List ℕ :=
  if ch ≤ 0x7f then [ch]
  else if ch ≤ 0x7ff then [0xc0 ||| (ch >>> 6) % 2 ^ 8, 0x80 ||| (ch &&& 0x3f)]
  else [0xe0 ||| (ch >>> 12) % 2 ^ 8, 0x80 ||| (ch >>> 6 &&& 0x3f), 0x80 ||| (ch &&& 0x3f)]

/-- The characters that `utf16_to_utf8_char16` and `utf16_to_utf8_char32` read; all high surrogates have a low one. -/
def surrogateChars : List ℕ → Option (List ℕ)
  | [] => some []
  | [u] => if IsHigh u then none else some [u]
  | u :: v :: rest =>
    if IsHigh u then
      if IsLow v then ((((u - 0xd800) <<< 10 ||| (v - 0xdc00)) + 0x10000) :: ·) <$> surrogateChars rest else none
    else (u :: ·) <$> surrogateChars (v :: rest)

/-- The variables of the scan; `reading` at `read_text_i`, where `i` is not compared with `length`. -/
structure PackState where
  text : List ℕ
  length : ℕ
  i : ℕ
  utf8Length : ℕ
  characterCount : ℕ
  kind : ℕ
  reading : Bool

/-- A character is counted, and the scan goes on behind it. -/
def PackState.count (s : PackState) (i ch : ℕ) : PackState :=
  { s with
    i := i + 1
    utf8Length := s.utf8Length + utf8Size ch
    characterCount := s.characterCount + 1
    kind := if ch ≤ 0xffff then s.kind else 2
    reading := false }

/-- One round of the scan; it leaves the loop with `none` when it throws. -/
def packStep (mode : ErrorMode) (s : PackState) : Option (Step PackState (Option PackState)) :=
  if ¬s.reading ∧ s.length ≤ s.i then some (.done (some s))
  else do
    let ch ← rd s.text s.i
    if ¬IsHigh ch then some (.next (s.count s.i ch))
    else if s.length - 1 ≤ s.i then
      if mode.freplac then some (.done (some { s with text := ← wr s.text s.i (chr '?') }))
      else if mode.fignore then some (.done (some { s with text := ← wr s.text s.i 0, length := s.length - 1 }))
      else some (.done none)
    else do
      let i := s.i + 1
      let lowValue ← rd s.text i
      if IsLow lowValue then
        let s := { s with kind := if s.kind = 0 then 1 else s.kind }
        some (.next (s.count i (((ch - 0xd800) <<< 10 ||| (lowValue - 0xdc00)) + 0x10000)))
      else if mode.freplac then do
        let text ← wr s.text (i - 1) (chr '?')
        let length := s.length - 1
        some (.next { s with text := ← memmovedown text i (i + 1) (length - i), length := length, i := i, reading := true })
      else if mode.fignore then do
        let i := i - 1
        let length := s.length - 2
        some (.next { s with text := ← memmovedown s.text i (i + 2) (length - i), length := length, i := i, reading := false })
      else some (.done none)

/-- What the packing returns, with the characters it counted. -/
structure Packed where
  string : DeeString
  characterCount : ℕ

/-- The second pass: the string for the units that the scan left. -/
def PackState.finish (s : PackState) : Option Packed :=
  let text := s.text.take s.length
  if s.utf8Length = s.length then
    let sStr := text.map (· % 2 ^ 8)
    some ⟨⟨s.utf8Length, sStr, .byte1, sStr, none, some (text.map some), false⟩, s.characterCount⟩
  else if s.kind = 0 then
    some ⟨⟨s.utf8Length, text.flatMap char16Utf8, .byte2, text, none, some (text.map some), false⟩, s.characterCount⟩
  else if s.kind = 1 then do
    let chars ← surrogateChars text
    some ⟨⟨s.utf8Length, chars.flatMap char16Utf8, .byte2, chars.map (· % 2 ^ 16), none, some (text.map some), false⟩,
      s.characterCount⟩
  else do
    let chars ← surrogateChars text
    some ⟨⟨s.utf8Length, chars.flatMap char32Utf8, .byte4, chars, none, some (text.map some), false⟩, s.characterCount⟩

/-- `DeeString_PackUtf16Buffer`; `none` inside stands for a thrown error. -/
def deeStringPackUtf16Buffer (units : List ℕ) (mode : ErrorMode) : Option (Option Packed) :=
  if units.length = 0 then some (some ⟨DeeString.ofBytes [], 0⟩)
  else do
    match ← loop (packStep mode) (2 * units.length + 1) ⟨units ++ [0], units.length, 0, 0, 0, 0, false⟩ with
    | none => some none
    | some s => do some (some (← s.finish))

/-! ### `DeeString_AsUtf16` -/

/-- A character that UTF-16 has units for: no surrogate, and not too large. -/
def IsScalar (ch : ℕ) : Prop := ¬IsHigh ch ∧ ¬IsLow ch ∧ ch ≤ 0x10ffff

instance (ch : ℕ) : Decidable (IsScalar ch) := inferInstanceAs (Decidable (_ ∧ _))

/-- What a character is encoded as. -/
def scalarForm (mode : ErrorMode) (ch : ℕ) : List ℕ :=
  if IsScalar ch then [ch] else if mode.fignore then [] else [chr '?']

/-- The UTF-16 form of a text under an error mode; a character that has none is replaced or left out, or refused. -/
def encoding (mode : ErrorMode) (chars : List ℕ) : Option (List ℕ) :=
  if (∀ c ∈ chars, IsScalar c) ∨ mode.freplac ∨ mode.fignore then some (utf16 (chars.flatMap (scalarForm mode))) else none

/-- `DeeString_New2ByteBuffer`, with a cell for the terminator; nothing is written yet. -/
def new2ByteBuffer (n : ℕ) : List (Option ℕ) := List.replicate (n + 1) none

/-- `*dst++ = ch`. -/
def putUnit (s : List (Option ℕ) × ℕ) (ch : ℕ) : Option (List (Option ℕ) × ℕ) :=
  if s.2 < s.1.length then some (s.1.set s.2 (some ch), s.2 + 1) else none

/-- Units that are written one after the other. -/
def putUnits (s : List (Option ℕ) × ℕ) (units : List ℕ) : Option (List (Option ℕ) × ℕ) := units.foldlM putUnit s

/-- What the loop for 2-byte characters writes for one. -/
def fixedChar (mode : ErrorMode) (ch : ℕ) : List ℕ :=
  if IsHigh ch ∨ IsLow ch then if mode.fignore then [] else [chr '?'] else [ch]

/-- `CASE_WIDTH_2BYTE`. -/
def asUtf16Byte2 (mode : ErrorMode) (str : List ℕ) : Option (Option (List (Option ℕ))) :=
  match str.findIdx? fun ch => IsHigh ch ∨ IsLow ch with
  | none => some (some (str.map some))
  | some i =>
    if ¬(mode.freplac ∨ mode.fignore) then some none
    else do
      let (result, _) ← putUnits (new2ByteBuffer str.length, 0) (str.take i)
      let s ← (if mode.fignore then some (result, 1) else putUnit (result, 1) (chr '?'))
      let (result, dst) ← (str.drop (i + 1)).foldlM (fun s ch => putUnits s (fixedChar mode ch)) s
      let (result, _) ← putUnit (result, dst) 0
      some (some (result.take (if mode.fignore then dst else str.length)))

/-- What the second loop for 4-byte characters writes for one. -/
def encodedChar (mode : ErrorMode) (ch : ℕ) : List ℕ :=
  if ch ≤ 0xffff then fixedChar mode ch
  else if 0x10ffff < ch then if mode.fignore then [] else [chr '?']
  else [(0xd800 + (ch >>> 10) % 2 ^ 16) % 2 ^ 16, (0xdc00 + (ch &&& 0x3ff) % 2 ^ 16) % 2 ^ 16]

/-- The first loop for 4-byte characters, with `result_length`; `none` when it throws. -/
def countUnits (mode : ErrorMode) (resultLength ch : ℕ) : Option ℕ :=
  if ch ≤ 0xffff ∧ ¬(IsHigh ch ∨ IsLow ch) then some resultLength
  else if ch ≤ 0xffff ∨ 0x10ffff < ch then
    if ¬(mode.freplac ∨ mode.fignore) then none else some (if mode.fignore then resultLength - 1 else resultLength)
  else some (resultLength + 1)

/-- `CASE_WIDTH_4BYTE`. -/
def asUtf16Byte4 (mode : ErrorMode) (str : List ℕ) : Option (Option (List (Option ℕ))) :=
  match str.foldlM (countUnits mode) str.length with
  | none => some none
  | some resultLength => do
    let (result, dst) ← str.foldlM (fun s ch => putUnits s (encodedChar mode ch)) (new2ByteBuffer resultLength, 0)
    let (result, _) ← putUnit (result, dst) 0
    some (some (result.take resultLength))

/-- What `DeeString_AsUtf16` computes when nothing is cached; single bytes go through `DeeString_As2Byte`. -/
def asUtf16Uncached (self : DeeString) (mode : ErrorMode) : Option (Option (List (Option ℕ))) :=
  match self.uWidth with
  | .byte1 => some (some ((self.sStr.take self.sLen).map some))
  | .byte2 => asUtf16Byte2 mode self.uData
  | .byte4 => asUtf16Byte4 mode self.uData

/-- `DeeString_AsUtf16`; `none` inside stands for a thrown error. What it returns is cached. -/
def deeStringAsUtf16 (self : DeeString) (mode : ErrorMode) : Option (Option (List (Option ℕ) × DeeString)) :=
  match self.uUtf16 with
  | some units => some (some (units, self))
  | none => (asUtf16Uncached self mode).map (·.map fun units => (units, { self with uUtf16 := some units }))

end Deemon.Unicode
