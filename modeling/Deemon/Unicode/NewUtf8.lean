import Deemon.Unicode.Strings

/-!
# Strings from UTF-8

`DeeString_NewUtf8` and `DeeString_SetUtf8` decode UTF-8 in `s_str` itself. Up to the first character that is not ASCII
there is no other buffer; from then on the characters go to one of 2-byte, and later of 4-byte characters. Malformed
bytes are replaced or removed in `s_str`. `DeeString_AsUtf8` returns the UTF-8 form of a string.
-/

namespace Deemon.Unicode

open Deemon.Run

/-- `utf8_getchar(text + iter, seqlen)`. -/
def utf8Getchar (text : List ℕ) (iter seqlen : ℕ) : Option ℕ :=
  utf8Follow text (iter + 1) (seqlen - 1) (utf8Lead seqlen (cell text iter))

/-- `buffer16` or `buffer32`: its width, `WSTR_LENGTH`, and the characters in front of `dst16` or `dst32`. -/
structure CharBuffer where
  width : StringWidth
  length : ℕ
  chars : List ℕ

/-- `*dst++ = ch`. -/
def CharBuffer.put (buffer : CharBuffer) (ch : ℕ) : Option CharBuffer :=
  if buffer.chars.length < buffer.length then some { buffer with chars := buffer.chars ++ [ch] } else none

/-- A new buffer that starts with some characters. -/
def CharBuffer.new (width : StringWidth) (length : ℕ) (chars : List ℕ) : Option CharBuffer :=
  if chars.length ≤ length then some ⟨width, length, chars⟩ else none

/-- The variables of the decoder; `length` is `length` or `result->s_len`. -/
structure DecodeState where
  text : List ℕ
  iter : ℕ
  textEnd : ℕ
  length : ℕ
  buffer : Option CharBuffer

/-- A malformed byte; `shrinks` where `length` is adjusted. -/
def DecodeState.malformed (s : DecodeState) (mode : ErrorMode) (shrinks : Bool) (put : ℕ → Option (Option CharBuffer)) :
    Option (Step DecodeState (Option DecodeState)) :=
  if mode = .replac then do
    some (.next { s with text := ← wr s.text s.iter (chr '?'), iter := s.iter + 1, buffer := ← put (chr '?') })
  else if mode = .ignore then do
    let textEnd := s.textEnd - 1
    some (.next { s with
      text := ← memmovedown s.text s.iter (s.iter + 1) (textEnd - s.iter)
      textEnd := textEnd
      length := if shrinks then s.length - 1 else s.length })
  else some (.done none)

/-- One round of the first loop, over ASCII characters. -/
def asciiRound (mode : ErrorMode) (shrinks : Bool) (s : DecodeState) : Option (Step DecodeState (Option DecodeState)) := do
  let ch ← rd s.text s.iter
  if ch ≤ 0x7f then some (.next { s with iter := s.iter + 1 })
  else
    let seqlen := utf8SeqLen ch
    if seqlen = 0 ∨ s.textEnd < s.iter + seqlen then s.malformed mode shrinks fun _ => some none
    else do
      let ch32 ← utf8Getchar s.text s.iter seqlen
      if ch32 ≤ 0x7f then do
        let text ← wr s.text s.iter (ch32 % 2 ^ 8)
        let text ← memmovedown text (s.iter + 1) (s.iter + seqlen) (s.textEnd - (s.iter + seqlen))
        some (.next { s with text := text, iter := s.iter + 1 })
      else do
        let width := if 0xffff < ch32 then .byte4 else .byte2
        let buffer ← CharBuffer.new width (s.length - (seqlen - 1)) (s.text.take s.iter)
        some (.next { s with iter := s.iter + seqlen, buffer := some (← buffer.put ch32) })

/-- One round of the loops that fill a buffer; `length` is not adjusted there. -/
def bufferRound (mode : ErrorMode) (buffer : CharBuffer) (s : DecodeState) :
    Option (Step DecodeState (Option DecodeState)) := do
  let ch ← rd s.text s.iter
  if ch ≤ 0x7f then some (.next { s with iter := s.iter + 1, buffer := some (← buffer.put ch) })
  else
    let seqlen := utf8SeqLen ch
    if seqlen = 0 ∨ s.textEnd < s.iter + seqlen then s.malformed mode false fun ch => (buffer.put ch).map some
    else do
      let ch32 ← utf8Getchar s.text s.iter seqlen
      let iter := s.iter + seqlen
      let buffer ← (if buffer.width = .byte2 ∧ 0xffff < ch32 then
        CharBuffer.new .byte4 (buffer.chars.length + 1 + (s.textEnd - iter)) buffer.chars else some buffer)
      some (.next { s with iter := iter, buffer := some (← buffer.put ch32) })

/-- One round of the decoder; it leaves the loop with `none` when it throws. -/
def decodeRound (mode : ErrorMode) (shrinks : Bool) (s : DecodeState) : Option (Step DecodeState (Option DecodeState)) :=
  if s.textEnd ≤ s.iter then some (.done (some s))
  else match s.buffer with
    | none => asciiRound mode shrinks s
    | some buffer => bufferRound mode buffer s

/-- The string at the end; a buffer is cut down to the characters in it. -/
def DecodeState.finish (s : DecodeState) : DeeString :=
  match s.buffer with
  | none => ⟨s.length, s.text, .byte1, s.text.take s.length, none, none, false⟩
  | some buffer => ⟨s.length, s.text, buffer.width, buffer.chars, some (s.text.take s.length), none, false⟩

/-- Both functions; `none` inside stands for a thrown error. -/
def decodeText (shrinks : Bool) (str : List ℕ) (mode : ErrorMode) : Option (Option DeeString) :=
  (loop (decodeRound mode shrinks) (str.length + 1) ⟨str ++ [0], 0, str.length, str.length, none⟩).map
    (·.map DecodeState.finish)

/-- `DeeString_NewUtf8`. -/
def deeStringNewUtf8 : List ℕ → ErrorMode → Option (Option DeeString) := decodeText true

/-- `DeeString_SetUtf8` of a byte-buffer with these bytes. -/
def deeStringSetUtf8 : List ℕ → ErrorMode → Option (Option DeeString) := decodeText false

/-- The UTF-8 form of a character up to U+00FF. -/
def latin1Utf8 (ch : ℕ) : List ℕ := if ch ≤ 0x7f then [ch] else [0xc0 ||| (ch &&& 0xc0) >>> 6, 0x80 ||| (ch &&& 0x3f)]

/-- `DeeString_AsUtf8`, with the caches that it leaves. -/
def deeStringAsUtf8 (self : DeeString) : List ℕ × DeeString :=
  let str := self.sStr.take self.sLen
  match self.uUtf8 with
  | some utf8 => (utf8, self)
  | none =>
    if self.uFascii ∨ self.uWidth ≠ .byte1 then (str, { self with uUtf8 := some str })
    else if ∀ ch ∈ str, ch ≤ 0x7f then (str, { self with uFascii := true, uUtf8 := some str })
    else (str.flatMap latin1Utf8, { self with uUtf8 := some (str.flatMap latin1Utf8) })

end Deemon.Unicode
