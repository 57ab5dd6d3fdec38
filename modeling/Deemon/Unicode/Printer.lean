import Deemon.Unicode.NewUtf8
import Deemon.Unicode.Utf16

/-!
# The unicode printer

A printer is a buffer of characters that grows as text is appended and becomes wider when a character does not fit. As
long as there is no buffer, the length and the width are those that were asked for in advance. UTF-8 bytes and UTF-16
units that are no whole character yet are pending.

Every request for memory is answered by a `Memory`, which may refuse it. The characters that a printer has are in
memory, so that only what is asked for in advance may be more than `size_t` can count. Text is appended in the same way for every
width, so the loops of the source for the three widths are one function of the width here.
-/

namespace Deemon.Unicode

open Deemon.Run

/-! ### Memory -/

/-- Which requests for memory are granted, and what the cells of new memory hold. -/
structure Memory where
  grants : ℕ → Bool
  fresh : ℕ → ℕ

/-- Why an operation does not succeed. -/
inductive Fault where
  /-- An error is thrown, or passed on. -/
  | noMemory
  /-- An assertion does not hold, or a buffer is left. -/
  | broken
  deriving DecidableEq

/-- The result of a step that must not leave a buffer. -/
def orBroken {α : Type} : Option α → Except Fault α
  | some a => .ok a
  | none => .error .broken

/-- The number of bits of a character. -/
def StringWidth.bits : StringWidth → ℕ
  | .byte1 => 8
  | .byte2 => 16
  | .byte4 => 32

/-- The cast of a character that is written. -/
def StringWidth.cast (width : StringWidth) (ch : ℕ) : ℕ := ch % 2 ^ width.bits

/-- `STRING_WIDTH_COMMON`. -/
def StringWidth.common (x y : StringWidth) : StringWidth := if y.bits ≤ x.bits then x else y

/-- The width whose flags are those of two widths together, if there is one. -/
def StringWidth.orFlags (x y : StringWidth) : Option StringWidth :=
  if x = .byte1 ∨ x = y then some y else if y = .byte1 then some x else none

/-- `struct Dee_unicode_printer`, with the cells of the buffer, the pending bytes or units and the number of requests
for memory that were answered. -/
structure UnicodePrinter where
  upLength : ℕ
  upBuffer : Option (List ℕ)
  width : StringWidth
  upPend : List ℕ
  requests : ℕ
  deriving DecidableEq

/-- `Dee_unicode_printer_init`. -/
def UnicodePrinter.init : UnicodePrinter := ⟨0, none, .byte1, [], 0⟩

/-- `UNICODE_PRINTER_INITIAL_BUFSIZE`. -/
def initialBufsize : ℕ := 64

/-- Requests for memory of some sizes, until one of them is granted, and the number of requests that were answered. -/
def grantSize (mem : Memory) (requests : ℕ) : List ℕ → Except Fault (ℕ × ℕ)
  | [] => .error .noMemory
  | size :: sizes =>
    if mem.grants requests then .ok (size, requests + 1) else grantSize mem (requests + 1) sizes

/-- The requests of a printer. -/
def UnicodePrinter.grant (self : UnicodePrinter) (mem : Memory) (sizes : List ℕ) : Except Fault (ℕ × UnicodePrinter) := do
  let (size, requests) ← grantSize mem self.requests sizes
  .ok (size, { self with requests })

/-- A new buffer. -/
def newCells (mem : Memory) (length : ℕ) : List ℕ := (List.range length).map mem.fresh

/-- A buffer that was resized. -/
def resizeCells (mem : Memory) (cells : List ℕ) (length : ℕ) : List ℕ :=
  cells.take length ++ newCells mem (length - cells.length)

/-- Characters that are written to a buffer. -/
def writeCells (width : StringWidth) (cells : List ℕ) (pos : ℕ) (text : List ℕ) : Except Fault (List ℕ) :=
  if pos + text.length ≤ cells.length then
    .ok (cells.take pos ++ text.map width.cast ++ cells.drop (pos + text.length))
  else .error .broken

/-- `do new_alloc *= 2; while (new_alloc < need);`. -/
def doubled : (fuel newAlloc need : ℕ) → Except Fault ℕ
  | 0, _, _ => .error .broken
  | fuel + 1, newAlloc, need =>
    if newAlloc * 2 < need then doubled fuel (newAlloc * 2) need else .ok (newAlloc * 2)

/-! ### Characters -/

variable (mem : Memory) (self : UnicodePrinter)

/-- `Dee_unicode_printer_allocate`. -/
def UnicodePrinter.allocate (numChars : ℕ) (width : StringWidth) : Except Fault UnicodePrinter :=
  if numChars = 0 then .ok self
  else
    match self.upBuffer with
    | none =>
      if self.upLength = 0 then do
        let width ← orBroken (self.width.orFlags width)
        .ok { self with
          upLength := numChars
          width := width }
      else .ok { self with
        upLength := (self.upLength + numChars) % 2 ^ 64
        width := self.width.common width }
    | some cells =>
      let required := (self.upLength + numChars) % 2 ^ 64
      if cells.length < required then do
        let (_, self) ← self.grant mem [required]
        if self.width.bits < width.bits then
          .ok { self with
            upBuffer := some (cells.take self.upLength ++ (newCells mem required).drop self.upLength)
            width := width }
        else .ok { self with upBuffer := some (resizeCells mem cells required) }
      else .ok self

/-- Room for `need` characters: the buffer becomes twice as large as often as needed, or else as large as needed. -/
def UnicodePrinter.room (cells : List ℕ) (need : ℕ) : Except Fault (List ℕ × UnicodePrinter) :=
  if cells.length < need then do
    let newAlloc ← doubled need cells.length need
    let (size, self) ← self.grant mem [newAlloc, need]
    .ok (resizeCells mem cells size, self)
  else .ok (cells, self)

/-- Room for one more character. -/
def UnicodePrinter.roomChar (cells : List ℕ) : Except Fault (List ℕ × UnicodePrinter) :=
  if self.upLength = cells.length then do
    let (size, self) ← self.grant mem [cells.length * 2, cells.length + 1]
    .ok (resizeCells mem cells size, self)
  else .ok (cells, self)

/-- Characters are written behind the others. -/
def UnicodePrinter.put (self : UnicodePrinter) (cells text : List ℕ) : Except Fault UnicodePrinter := do
  let cells ← writeCells self.width cells self.upLength text
  .ok { self with
    upLength := self.upLength + text.length
    upBuffer := some cells }

/-- The end of the operations that print text. -/
def UnicodePrinter.append (cells text : List ℕ) : Except Fault UnicodePrinter := do
  let (cells, self) ← self.room mem cells (self.upLength + text.length)
  self.put cells text

/-- The end of the operations that print a character. -/
def UnicodePrinter.appendChar (cells : List ℕ) (ch : ℕ) : Except Fault UnicodePrinter := do
  let (cells, self) ← self.roomChar mem cells
  self.put cells [ch]

/-- `cast_8to16`, `cast_8to32` and `cast_16to32`, with the printer that has the new buffer. -/
def UnicodePrinter.cast (cells : List ℕ) (width : StringWidth) : Except Fault (List ℕ × UnicodePrinter) := do
  let (length, self) ← self.grant mem [cells.length]
  let cells := cells.take self.upLength ++ (newCells mem length).drop self.upLength
  .ok (cells, { self with
    upBuffer := some cells
    width := width })

/-- A first buffer, of one of some sizes, with its first characters. -/
def UnicodePrinter.first (width : StringWidth) (sizes text : List ℕ) : Except Fault UnicodePrinter := do
  let (size, self) ← self.grant mem sizes
  let cells ← writeCells width (newCells mem size) 0 text
  .ok { self with
    upLength := text.length
    upBuffer := some cells
    width := width }

/-- `unicode_printer_putc8`. -/
def UnicodePrinter.putc8 (ch : ℕ) : Except Fault UnicodePrinter :=
  let allocateInitialNormally := fun self : UnicodePrinter =>
    if self.width = .byte1 then self.first mem .byte1 [initialBufsize, 1] [ch] else .error .broken
  match self.upBuffer with
  | none =>
    if initialBufsize < self.upLength ∨ self.width ≠ .byte1 then
      if mem.grants self.requests then self.first mem self.width [self.upLength] [ch]
      else allocateInitialNormally { self with requests := self.requests + 1 }
    else allocateInitialNormally self
  | some cells => self.appendChar mem cells ch

/-- `Dee_unicode_printer_putc`. -/
def UnicodePrinter.putc (ch : ℕ) : Except Fault UnicodePrinter :=
  if ch ≤ 0xff then self.putc8 mem ch
  else
    match self.upBuffer with
    | none =>
      let initialLength := max self.upLength initialBufsize
      if self.width = .byte4 ∨ ¬ ch ≤ 0xffff then self.first mem .byte4 [initialLength, initialBufsize, 1] [ch]
      else self.first mem .byte2 [initialLength, initialBufsize, 1] [ch]
    | some cells =>
      match self.width with
      | .byte1 => do
        let (cells, self) ← self.cast mem cells (if ch ≤ 0xffff then .byte2 else .byte4)
        self.appendChar mem cells ch
      | .byte2 =>
        if ch ≤ 0xffff then self.appendChar mem cells ch
        else do
          let (cells, self) ← self.cast mem cells .byte4
          self.appendChar mem cells ch
      | .byte4 => self.appendChar mem cells ch

/-! ### Text of one width -/

/-- The start of `print8`, `print16` and `print32`: a first buffer of the text's own width. -/
def UnicodePrinter.firstText (width : StringWidth) (text : List ℕ) : Except Fault UnicodePrinter :=
  if text.length = 0 then .ok self
  else
    let initialAlloc := max (max text.length initialBufsize) self.upLength
    UnicodePrinter.first mem { self with width := .byte1 } width [initialAlloc, text.length] text

/-- `Dee_unicode_printer_print8`. -/
def UnicodePrinter.print8 (text : List ℕ) : Except Fault UnicodePrinter :=
  match self.upBuffer with
  | none => self.firstText mem .byte1 text
  | some cells => self.append mem cells text

/-- `Dee_unicode_printer_repeatascii`. -/
def UnicodePrinter.repeatascii (ch numChars : ℕ) : Except Fault UnicodePrinter :=
  self.print8 mem (List.replicate numChars ch)

/-- `Dee_unicode_printer_print16`. -/
def UnicodePrinter.print16 (text : List ℕ) : Except Fault UnicodePrinter :=
  match self.upBuffer with
  | none => self.firstText mem .byte2 text
  | some cells =>
    match self.width with
    | .byte1 =>
      if text.any fun ch => 0xff < ch then do
        let (cells, self) ← self.cast mem cells .byte2
        self.append mem cells text
      else self.append mem cells text
    | _ => self.append mem cells text

/-- The part of `Dee_unicode_printer_print32` from `append_2byte`. -/
def UnicodePrinter.append32 (cells text : List ℕ) : Except Fault UnicodePrinter :=
  if text.any fun ch => 0xffff < ch then do
    let (cells, self) ← self.cast mem cells .byte4
    self.append mem cells text
  else self.append mem cells text

/-- `Dee_unicode_printer_print32`, for text that is not one character. -/
def UnicodePrinter.printText32 (text : List ℕ) : Except Fault UnicodePrinter :=
  match self.upBuffer with
  | none => self.firstText mem .byte4 text
  | some cells =>
    match self.width with
    | .byte1 =>
      -- the first character that does not fit decides on the cast
      match text.find? fun ch => 0xff < ch with
      | none => self.append mem cells text
      | some ch =>
        if ch ≤ 0xffff then do
          let (cells, self) ← self.cast mem cells .byte2
          self.append32 mem cells text
        else do
          let (cells, self) ← self.cast mem cells .byte4
          self.append mem cells text
    | .byte2 => self.append32 mem cells text
    | .byte4 => self.append mem cells text

/-- `Dee_unicode_printer_print32`. -/
def UnicodePrinter.print32 (text : List ℕ) : Except Fault UnicodePrinter :=
  if text.length = 1 then self.putc mem (cell text 0) else self.printText32 mem text

/-! ### UTF-8 -/

/-- A byte of a sequence that is pending, and whether it was the last one. The array has room for seven. -/
def UnicodePrinter.pendUtf8 (ch : ℕ) : Except Fault (UnicodePrinter × Bool) := do
  let pend := self.upPend ++ [ch]
  let reqlen := utf8SeqLen (cell pend 0)
  if 7 < pend.length ∨ reqlen < pend.length then .error .broken
  else if pend.length = reqlen then do
    let ch32 ← orBroken (utf8Getchar pend 0 reqlen)
    let self ← self.putc mem ch32
    .ok ({ self with upPend := [] }, true)
  else .ok ({ self with upPend := pend }, false)

/-- `Dee_unicode_printer_pututf8`. -/
def UnicodePrinter.pututf8 (ch : ℕ) : Except Fault UnicodePrinter :=
  if self.upPend ≠ [] then do
    let (self, _) ← self.pendUtf8 mem ch
    .ok self
  else if 0xc0 ≤ ch then .ok { self with upPend := [ch] }
  else self.putc8 mem ch

/-- The first loop of `Dee_unicode_printer_print`, which completes a pending sequence, with the text that is left. -/
def UnicodePrinter.printPending (mem : Memory) : UnicodePrinter → List ℕ → Except Fault (UnicodePrinter × List ℕ)
  | self, [] => .ok (self, [])
  | self, ch :: text =>
    if self.upPend = [] then .ok (self, ch :: text)
    else do
      let (self, last) ← self.pendUtf8 mem ch
      if last then .ok (self, text) else UnicodePrinter.printPending mem self text

/-- `Dee_unicode_printer_print` from `again_flush`. -/
def UnicodePrinter.printFlush (mem : Memory) : (fuel : ℕ) → UnicodePrinter → List ℕ → Except Fault UnicodePrinter
  | 0, _, _ => .error .broken
  | fuel + 1, self, text => do
    let flush := text.takeWhile fun ch => ch < 0xc0
    let text := text.dropWhile fun ch => ch < 0xc0
    let self ← (if flush = [] then .ok self else self.print8 mem flush)
    match text with
    | [] => .ok self
    | ch :: _ =>
      let seqlen := utf8SeqLen ch
      if text.length < seqlen then .ok { self with upPend := text }
      else do
        let ch32 ← orBroken (utf8Getchar text 0 seqlen)
        let self ← self.putc mem ch32
        UnicodePrinter.printFlush mem fuel self (text.drop seqlen)

/-- `Dee_unicode_printer_print`. -/
def UnicodePrinter.print (text : List ℕ) : Except Fault UnicodePrinter := do
  let (self, text) ← self.printPending mem text
  if self.upPend ≠ [] then .ok self else self.printFlush mem (text.length + 1) text

/-! ### UTF-16 -/

/-- `Dee_unicode_printer_pututf16`. -/
def UnicodePrinter.pututf16 (ch : ℕ) : Except Fault UnicodePrinter :=
  if self.upPend ≠ [] then UnicodePrinter.putc mem { self with upPend := [] } (pairChar (cell self.upPend 0) ch)
  else if IsHigh ch then .ok { self with upPend := [ch] }
  else self.putc mem ch

/-- `Dee_unicode_printer_printutf16` from `again_flush`. -/
def UnicodePrinter.printFlush16 (mem : Memory) : (fuel : ℕ) → UnicodePrinter → List ℕ → Except Fault UnicodePrinter
  | 0, _, _ => .error .broken
  | fuel + 1, self, text => do
    let flush := text.takeWhile fun ch => ¬ IsHigh ch
    let text := text.dropWhile fun ch => ¬ IsHigh ch
    let self ← (if flush = [] then .ok self else self.print16 mem flush)
    match text with
    | [] => .ok self
    | [highSurrogate] => .ok { self with upPend := [highSurrogate] }
    | highSurrogate :: lowSurrogate :: text => do
      let self ← self.putc mem (pairChar highSurrogate lowSurrogate)
      UnicodePrinter.printFlush16 mem fuel self text

/-- `Dee_unicode_printer_printutf16`. -/
def UnicodePrinter.printutf16 (text : List ℕ) : Except Fault UnicodePrinter :=
  if self.upPend ≠ [] then
    match text with
    | [] => .ok self
    | lowSurrogate :: text => do
      let self ← self.putc mem (pairChar (cell self.upPend 0) lowSurrogate)
      UnicodePrinter.printFlush16 mem (text.length + 1) { self with upPend := [] } text
  else self.printFlush16 mem (text.length + 1) text

/-! ### Packing -/

/-- `DeeString_Pack2ByteBuffer` and `DeeString_Pack4ByteBuffer`, with the UTF-8 form of the text. -/
def packWideBuffer (mem : Memory) (requests : ℕ) (width : StringWidth) (cells utf8Text : List ℕ) :
    Except Fault DeeString :=
  if cells.length = 0 then .ok (DeeString.ofBytes [])
  else if ¬ mem.grants requests ∨ ¬ mem.grants (requests + 1) then .error .noMemory
  else if utf8Text.length = cells.length then .ok ⟨utf8Text.length, utf8Text, .byte1, utf8Text, none, none, false⟩
  else .ok ⟨utf8Text.length, utf8Text, width, cells, none, none, false⟩

/-- `DeeString_PackWidthBuffer`. -/
def packWidthBuffer (mem : Memory) (requests : ℕ) (width : StringWidth) (cells : List ℕ) : Except Fault DeeString :=
  match width with
  | .byte1 => .ok (DeeString.ofBytes cells)
  | .byte2 => packWideBuffer mem requests .byte2 cells (cells.flatMap char16Utf8)
  | .byte4 => packWideBuffer mem requests .byte4 cells (utf8 cells)

/-- `Dee_unicode_printer_pack`. -/
def UnicodePrinter.pack : Except Fault DeeString :=
  match self.upBuffer with
  | none => .ok (DeeString.ofBytes [])
  | some cells =>
    if self.upLength < cells.length then
      -- the buffer keeps its length when it cannot be resized
      let cells := if mem.grants self.requests then resizeCells mem cells self.upLength else cells
      packWidthBuffer mem (self.requests + 1) self.width cells
    else packWidthBuffer mem self.requests self.width cells

end Deemon.Unicode
