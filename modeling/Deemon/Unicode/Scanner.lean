import Deemon.Int.Parse
import Deemon.Unicode.NewUtf8
import Deemon.Unicode.ScanInteger

/-!
# The scanner of `cscanf`

`ssi_next` reads directives of the format until one of them yields an item, until the data does not match, or until one of
the two is over. The format is UTF-8 whichever way it is held; the data is UTF-8 or bytes, and `is_bytes` is asked for by
some directives only. A round of the loop `next_format` is `scanRound`; it reads a directive (`readDirective`) and then the
data.
-/

namespace Deemon.Unicode

open Deemon.Run Deemon.Int

/-- `(size_t)-1`, the width that is not given. -/
abbrev sizeMax : ℕ := 2 ^ 64 - 1

/-- The traits from `0x80` on that a scanner asks for. -/
structure ScanTable extends UniTable where
  /-- The `ISSPACE` trait. -/
  isSpace : ℕ → Bool

/-- `DeeUni_IsSpace`. -/
def ScanTable.deeUniIsSpace (uni : ScanTable) (ch : ℕ) : Bool :=
  if ch < 0x80 then 0x09 ≤ ch ∧ ch ≤ 0x0d ∨ ch = 0x20 else uni.isSpace ch

/-! ### The format -/

/-- `ss_format`: its bytes, and the memory behind them. -/
structure ScanFormat where
  bytes : List ℕ
  behind : List ℕ

def ScanFormat.memory (F : ScanFormat) : List ℕ := F.bytes ++ F.behind

/-- `si_fmtend`. -/
def ScanFormat.fmtEnd (F : ScanFormat) : ℕ := F.bytes.length

/-- `Dee_unicode_readutf8`, which does not look for the end of the text. -/
def readUtf8 (str : List ℕ) (pos : ℕ) : Option (ℕ × ℕ) := do
  let result ← rd str pos
  let len := utf8SeqLen result
  if len ≤ 1 then some (result, pos + 1)
  else do some (← utf8Follow str (pos + 1) (len - 1) (utf8Lead len result), pos + len)

/-- What follows a `%`: whether the field is ignored, its width, and the character of the conversion. -/
structure Conversion where
  ignoreData : Bool
  width : ℕ
  ch : ℕ
  /-- `format`, behind the character. -/
  format : ℕ

/-- The digits of a width; `.error` is `goto out_formatend`, with the `format` there. -/
def readWidth (uni : UniTable) (F : ScanFormat) (ignoreData : Bool) (width format : ℕ) : Option (Except ℕ Conversion) :=
  loop (fun (width, format) =>
    if F.fmtEnd ≤ format then some (.done (.error format))
    else do
      let (ch, format) ← readUtf8 F.memory format
      some (if uni.isDigit 10 ch then .next ((width * 10 + uni.deeUniAsDigitVal ch) % 2 ^ 64, format)
        else .done (.ok ⟨ignoreData, width, ch, format⟩))) (F.memory.length + 2) (width, format)

/-- A conversion up to its character. -/
def readConversion (uni : UniTable) (F : ScanFormat) (format : ℕ) : Option (Except ℕ Conversion) :=
  if F.fmtEnd ≤ format then some (.error format)
  else do
    let (ch, format) ← readUtf8 F.memory format
    let ignoreData : Bool := ch = chr '*'
    let (ch, format) ← (if ignoreData then readUtf8 F.memory format else some (ch, format))
    if uni.isDigit 10 ch then readWidth uni F ignoreData (uni.deeUniAsDigitVal ch) format
    else some (.ok ⟨ignoreData, sizeMax, ch, format⟩)

/-- Behind an `I`: the number of bits that may follow. -/
def skipIntBits (F : ScanFormat) (format : ℕ) : Option ℕ := do
  let ch ← rd F.memory format
  if ch = chr '8' then some (format + 1)
  else if format < F.fmtEnd - 1 then do
    let ch' ← rd F.memory (format + 1)
    some (if ch = chr '1' ∧ ch' = chr '6' ∨ ch = chr '3' ∧ ch' = chr '2' ∨ ch = chr '6' ∧ ch' = chr '4' then format + 2
      else format)
  else some format

/-- `next_spec`: length modifiers in front of the character are skipped. -/
def skipModifiers (F : ScanFormat) (c : Conversion) : Option (Except ℕ Conversion) :=
  loop (fun c =>
    if c.ch ∈ ['I', 'h', 'l', 'j', 'z', 't', 'L'].map chr then
      if F.fmtEnd ≤ c.format then some (.done (.error c.format))
      else do
        let format ← (if c.ch = chr 'I' then skipIntBits F c.format else some c.format)
        if F.fmtEnd ≤ format then some (.done (.error format))
        else do
          let (ch, format) ← readUtf8 F.memory format
          some (.next { c with ch := ch, format := format })
    else some (.done (.ok c))) (F.memory.length + 2) c

/-- One element of the format. -/
inductive Directive where
  /-- `goto out_formatend`. -/
  | formatEnd (format : ℕ)
  | conversion (c : Conversion)
  | space (format : ℕ)
  | lineFeed (format : ℕ)
  | literal (ch format : ℕ)

/-- The element of the format at `format`. -/
def readDirective (uni : UniTable) (F : ScanFormat) (format : ℕ) : Option Directive :=
  if F.fmtEnd ≤ format then some (.formatEnd format)
  else do
    let ch ← rd F.memory format
    if ch = chr '%' then do
      match ← readConversion uni F (format + 1) with
      | .error format => some (.formatEnd format)
      | .ok c =>
        match ← skipModifiers F c with
        | .error format => some (.formatEnd format)
        | .ok c => some (.conversion c)
    else if ch = chr ' ' then some (.space (format + 1))
    else if ch = lineFeed then some (.lineFeed (format + 1))
    else some (.literal ch (format + 1))

/-- What a conversion is for, by its character. -/
inductive ConversionKind where
  | percent
  | integer (conv : IntConversion)
  | chars
  | word
  | set
  | count
  | unknown
  deriving DecidableEq

def conversionKind (ch : ℕ) : ConversionKind :=
  if ch = chr '%' then .percent
  else if ch = chr 'o' then .integer .o
  else if ch = chr 'd' then .integer .d
  else if ch = chr 'x' then .integer .x
  else if ch = chr 'p' then .integer .p
  else if ch = chr 'i' then .integer .i
  else if ch = chr 'u' then .integer .u
  else if ch = chr 'c' then .chars
  else if ch = chr 's' then .word
  else if ch = chr '[' then .set
  else if ch = chr 'n' then .count
  else .unknown

/-- `inverse_selection`, `sel_begin`, and the `format` at the end of the selection. -/
structure MatchSet where
  inverse : Bool
  selBegin : ℕ
  selEnd : ℕ

/-- The selection behind a `%[`. -/
def readSet (F : ScanFormat) (format : ℕ) : Option (Except ℕ MatchSet) :=
  if F.fmtEnd ≤ format then some (.error format)
  else do
    let inverse : Bool := (← rd F.memory format) = chr '^'
    if inverse ∧ F.fmtEnd ≤ format + 1 then some (.error (format + 1))
    else do
      let selBegin := if inverse then format + 1 else format
      let selEnd ← loop (fun format =>
        if format < F.fmtEnd then do
          let ch ← rd F.memory format
          let before ← rd F.memory (format - 1)
          some (if ch = chr ']' ∧ before ≠ backslash then .done format else .next (format + 1))
        else some (.done format)) (F.memory.length + 2) selBegin
      some (.ok ⟨inverse, selBegin, selEnd⟩)

/-- The `]` behind a selection is skipped. -/
def behindSet (F : ScanFormat) (selEnd : ℕ) : Option ℕ :=
  if selEnd ≠ F.fmtEnd then do some (if (← rd F.memory selEnd) = chr ']' then selEnd + 1 else selEnd) else some selEnd

/-- A character of a selection, with the backslash in front of it taken off. -/
def readSelected (F : ScanFormat) (selEnd sel : ℕ) : Option (ℕ × ℕ) := do
  let (ch, sel) ← readUtf8N F.memory sel selEnd
  if ch = backslash then readUtf8N F.memory sel selEnd else some (ch, sel)

/-- `match_contains`. -/
def matchContains (F : ScanFormat) (selStart selEnd ch : ℕ) : Option Bool :=
  loop (fun sel =>
    if sel < selEnd then do
      let (selCh, sel) ← readSelected F selEnd sel
      let range ← (if sel < selEnd then do some (decide ((← rd F.memory sel) = chr '-')) else some false)
      if range then do
        let (selMax, sel) ← readSelected F selEnd (sel + 1)
        some (if selCh ≤ ch ∧ ch ≤ selMax then .done true else .next sel)
      else some (if selCh = ch then .done true else .next sel)
    else some (.done false)) (F.memory.length + 2) selStart

/-! ### The data -/

/-- An argument of `DeeUni_IsSpace` or `match_contains`: `*data`, or a character. -/
def ScanData.readArg (S : ScanData) (data : ℕ) : Option (ℕ × ℕ) :=
  if S.isBytes then do some (charArg (← rd S.memory data), data + 1) else readUtf8N S.memory data S.dataEnd

/-- The data from `start` to `stop`. -/
def ScanData.slice (S : ScanData) (start stop : ℕ) : Option (List ℕ) :=
  if stop ≤ S.memory.length then some ((S.memory.drop start).take (stop - start)) else none

/-- `(size_t)(data_end - data)`. -/
def ScanData.left (S : ScanData) (data : ℕ) : ℕ := (S.dataEnd + 2 ^ 64 - data) % 2 ^ 64

/-- The loops of `%s` and `%[`: up to `width` characters with a property. -/
def scanWhile (S : ScanData) (pred : ℕ → Option Bool) (data width : ℕ) : Option ℕ :=
  loop (fun (data, width) =>
    if data < S.dataEnd ∧ width ≠ 0 then do
      let (ch, next) ← S.readArg data
      some (if ← pred ch then .next (next, width - 1) else .done data)
    else some (.done data)) (S.dataEnd + 1) (data, width)

/-- `case 's'`: the text branch breaks out of its loop at a character that is no space. -/
def scanWord (uni : ScanTable) (S : ScanData) (data width : ℕ) : Option ℕ :=
  scanWhile S (fun ch => some (if S.isBytes then !uni.deeUniIsSpace ch else uni.deeUniIsSpace ch)) data width

/-- `case ' '`. -/
def skipSpaces (uni : ScanTable) (S : ScanData) (data : ℕ) : Option ℕ :=
  loop (fun data =>
    if data < S.dataEnd then do
      let (ch, next) ← S.readArg data
      some (if uni.deeUniIsSpace ch then .next next else .done data)
    else some (.done data)) (S.dataEnd + 1) data

/-- `%n`: the characters or bytes in front of `data`. -/
def consumed (S : ScanData) (data : ℕ) : Option ℕ :=
  if S.isBytes then some data
  else loop (fun (iter, total) =>
    if iter < data then do
      let (_, iter) ← readUtf8N S.memory iter data
      some (.next (iter, total + 1))
    else some (.done total)) (data + 1) (0, 0)

/-- What the scanner yields. -/
inductive Item where
  | int (v : DeeInt)
  | string (s : DeeString)
  | bytes (view : List ℕ)
  deriving DecidableEq

inductive ScanError where
  /-- `ValueError("Unknown or unexpected cscanf character %I32C in `%$s`, apart of %r")`. -/
  | unknownCharacter (ch : ℕ) (part format : List ℕ)
  | int (err : IntError)
  /-- `DeeString_NewUtf8` throws. -/
  | malformedUtf8 (text : List ℕ)

/-- The variables of `ssi_next` at `next_format`; `is_bytes` is negative until it is `detected`. -/
structure ScanPoint where
  data : ℕ
  format : ℕ
  origFormat : ℕ
  detected : Bool

/-- How `ssi_next` ends, with the pointers that it saves. -/
inductive ScanResult where
  | item (v : Item) (data format : ℕ)
  | iterDone (data : ℕ) (format : ℤ)
  | error (err : ScanError)

/-- `out_dataend`, `out_missmatch` and `out_formatend`. -/
def stopAt (data format : ℕ) : Step ScanPoint ScanResult := .done (.iterDone data ((format : ℤ) - 1))

/-- `match_ch`. -/
def matchCh (S : ScanData) (p : ScanPoint) (ch format : ℕ) : Option (Step ScanPoint ScanResult) :=
  if S.dataEnd ≤ p.data then some (stopAt p.data format)
  else do
    let dataCh ← rd S.memory p.data
    some (if dataCh ≠ ch then stopAt p.data format else .next { p with data := p.data + 1, format := format })

/-- `case '\n'`. -/
def matchLineFeed (uni : UniTable) (S : ScanData) (p : ScanPoint) (format : ℕ) : Option (Step ScanPoint ScanResult) :=
  if S.dataEnd ≤ p.data then some (stopAt p.data format)
  else do
    let ch ← rd S.memory p.data
    if ch = carriageReturn then
      if S.dataEnd ≤ p.data + 1 then some (stopAt p.data format)
      else do
        let ch ← rd S.memory (p.data + 1)
        some (.next { p with data := if ch = lineFeed then p.data + 2 else p.data + 1, format := format })
    -- the line feed itself is left in the data
    else if ch = lineFeed then some (.next { p with format := format })
    else if S.isBytes then some (stopAt p.data format)
    else do
      let (ch, data) ← readUtf8N S.memory p.data S.dataEnd
      some (if !uni.deeUniIsLF ch then stopAt data format
        else .next { p with data := data, format := format, detected := true })

/-- `yield_string_from_spec_data_start_until_data`; an `is_bytes` that is still negative counts as true. -/
def yieldText (S : ScanData) (detected : Bool) (start data format : ℕ) : Option (Step ScanPoint ScanResult) := do
  let text ← S.slice start data
  if !detected ∨ S.isBytes then do
    assert (S.isBytes = true)
    some (.done (.item (.bytes text) data format))
  else do
    match ← deeStringNewUtf8 text .strict with
    | none => some (.done (.error (.malformedUtf8 text)))
    | some s => some (.done (.item (.string s) data format))

/-- The end of a conversion that has read the data up to `data`. -/
def finishText (S : ScanData) (p : ScanPoint) (c : Conversion) (detected : Bool) (data format : ℕ) :
    Option (Step ScanPoint ScanResult) :=
  if c.ignoreData then some (.next { p with data := data, format := format, detected := detected })
  else yieldText S detected p.data data format

section Round

variable (uni : ScanTable) (sizeHint : ℕ → ℕ → ℕ) (S : ScanData) (F : ScanFormat)

/-- `do_integer_scan` up to the item. -/
def convertInteger (p : ScanPoint) (c : Conversion) (conv : IntConversion) : Option (Step ScanPoint ScanResult) := do
  let data ← scanInteger uni.toUniTable S conv.radix p.data c.width
  if c.ignoreData then some (.next { p with data := data, format := c.format, detected := true })
  else do
    let text ← S.slice p.data data
    match ← deeIntFromString uni.toUniTable sizeHint text conv.radix ⟨false, true, false⟩ with
    | .error err => some (.done (.error (.int err)))
    | .ok none => some (.done (.iterDone data c.format))
    | .ok (some v) => some (.done (.item (.int v) data c.format))

/-- `case 'c'`. -/
def convertChars (p : ScanPoint) (c : Conversion) : Option (Step ScanPoint ScanResult) :=
  let width := if c.width = sizeMax then 1 else c.width
  if S.left p.data < width ∧ S.left p.data = 0 then some (stopAt p.data c.format)
  else finishText S p c p.detected (p.data + min width (S.left p.data)) c.format

/-- `case '['`. -/
def convertSet (p : ScanPoint) (c : Conversion) : Option (Step ScanPoint ScanResult) := do
  match ← readSet F c.format with
  | .error format => some (stopAt p.data format)
  | .ok set =>
    if S.left p.data < c.width ∧ S.left p.data = 0 then some (stopAt p.data set.selEnd)
    else do
      let data ← scanWhile S (fun ch => (matchContains F set.selBegin set.selEnd ch).map (· ^^ set.inverse)) p.data
        (min c.width (S.left p.data))
      finishText S p c true data (← behindSet F set.selEnd)

/-- The conversions. -/
def scanConversion (p : ScanPoint) (c : Conversion) : Option (Step ScanPoint ScanResult) :=
  match conversionKind c.ch with
  | .percent => matchCh S p (chr '%') c.format
  | .integer conv => convertInteger uni sizeHint S p c conv
  | .chars => convertChars S p c
  | .word => do finishText S p c true (← scanWord uni S p.data c.width) c.format
  | .set => convertSet S F p c
  | .count => do
    let v ← deeIntNewUInt64 (← consumed S p.data)
    some (.done (.item (.int v) p.data c.format))
  | .unknown =>
    some (.done (.error (.unknownCharacter c.ch ((F.memory.drop p.origFormat).take (c.format - p.origFormat)) F.bytes)))

/-- What a directive does. -/
def scanDirective (p : ScanPoint) : Directive → Option (Step ScanPoint ScanResult)
  | .formatEnd format => some (stopAt p.data format)
  | .conversion c => scanConversion uni sizeHint S F p c
  | .space format => do some (.next { p with data := ← skipSpaces uni S p.data, format := format, detected := true })
  | .lineFeed format => matchLineFeed uni.toUniTable S p format
  | .literal ch format => matchCh S p ch format

/-- From one `next_format` to the next one, or to the end of the call. -/
def scanRound (p : ScanPoint) : Option (Step ScanPoint ScanResult) := do
  scanDirective uni sizeHint S F p (← readDirective uni.toUniTable F p.format)

/-- `si_datiter` and `si_fmtiter`. -/
structure ScanState where
  datIter : ℕ
  fmtIter : ℤ

/-- Where a call begins. -/
def ScanPoint.atCall (data format : ℕ) : ScanPoint := ⟨data, format, format, false⟩

/-- `ssi_next`; its answer is an item, an error, or none for `ITER_DONE`. -/
def ssiNext (s : ScanState) : Option (Option (Except ScanError Item) × ScanState) := do
  assert (0 ≤ s.fmtIter)
  match ← loop (scanRound uni sizeHint S F) (F.fmtEnd + 2) (.atCall s.datIter s.fmtIter.toNat) with
  | .item v data format => some (some (.ok v), ⟨data, format⟩)
  | .iterDone data format => some (none, ⟨data, format⟩)
  | .error err => some (some (.error err), s)

end Round

end Deemon.Unicode
