import Deemon.Lib.Run
import Mathlib.Data.Nat.Bitwise

/-!
# Characters

Text is a list of bytes. The digit, line-feed and numeric traits of ASCII are the definitions below; those of
the other characters come out of the tables of `unicode_db.c`, which `UniTable` leaves open. `Dee_unicode_readutf8_n`
and `Dee_unicode_readutf8_rev_n` read one character forwards and backwards.
-/

namespace Deemon.Unicode

open Deemon.Run

/-- The code of an ASCII character. -/
abbrev chr (c : Char) : ℕ := c.toNat

/-- The control characters that end a line, and the backslash that escapes them. -/
abbrev lineFeed : ℕ := 0x0a

abbrev carriageReturn : ℕ := 0x0d

abbrev backslash : ℕ := 0x5c

/-- `_DeeAscii_Itoa`: the digits of numerals in radices up to 36. -/
def deeAsciiItoaDigits (upper : Bool) : List ℕ :=
  if upper then
    ['0', '1', '2', '3', '4', '5', '6', '7', '8', '9', 'A', 'B', 'C', 'D', 'E', 'F', 'G', 'H', 'I', 'J', 'K', 'L', 'M', 'N',
      'O', 'P', 'Q', 'R', 'S', 'T', 'U', 'V', 'W', 'X', 'Y', 'Z'].map Char.toNat
  else
    ['0', '1', '2', '3', '4', '5', '6', '7', '8', '9', 'a', 'b', 'c', 'd', 'e', 'f', 'g', 'h', 'i', 'j', 'k', 'l', 'm', 'n',
      'o', 'p', 'q', 'r', 's', 't', 'u', 'v', 'w', 'x', 'y', 'z'].map Char.toNat

/-- The value of an ASCII character with the `ISXDIGIT` trait. -/
def asciiDigit (ch : ℕ) : Option ℕ :=
  if chr '0' ≤ ch ∧ ch ≤ chr '9' then some (ch - chr '0')
  else if chr 'A' ≤ ch ∧ ch ≤ chr 'F' then some (ch - chr 'A' + 10)
  else if chr 'a' ≤ ch ∧ ch ≤ chr 'f' then some (ch - chr 'a' + 10)
  else none

/-- The character traits from `0x80` on. -/
structure UniTable where
  /-- The digit value of a character with the `ISXDIGIT` trait, else `0xff`. -/
  asDigitVal : ℕ → ℕ
  /-- The digit value of a character with the `ISNUMERIC` or the `ISHEX` trait. -/
  numericVal : ℕ → Option ℕ
  /-- The `ISLF` trait. -/
  isLF : ℕ → Bool

/-- `DeeUni_AsDigitVal`. -/
def UniTable.deeUniAsDigitVal (uni : UniTable) (ch : ℕ) : ℕ :=
  if ch < 0x80 then (asciiDigit ch).getD 0xff else uni.asDigitVal ch

/-- `DeeUni_Descriptor(ch)->ut_digit_idx` as a digit, for a character with the `ISNUMERIC` or the `ISHEX` trait. -/
def UniTable.numeric (uni : UniTable) (ch : ℕ) : Option ℕ := if ch < 0x80 then asciiDigit ch else uni.numericVal ch

/-- `DeeUni_IsLF`. -/
def UniTable.deeUniIsLF (uni : UniTable) (ch : ℕ) : Bool :=
  if ch < 0x80 then ch = lineFeed ∨ ch = carriageReturn else uni.isLF ch

/-- A `char` as an argument of type `uint32_t`: bytes from `0x80` on are negative. -/
def charArg (ch : ℕ) : ℕ := if ch < 0x80 then ch else 0xffffff00 + ch

@[simp] theorem asciiDigit_underscore : asciiDigit (chr '_') = none := by decide

theorem asciiDigit_lt {ch d : ℕ} (h : asciiDigit ch = some d) : ch < 0x80 ∧ d < 16 := by
  unfold asciiDigit at h
  simp only [chr, Char.reduceToNat] at h
  split_ifs at h <;> simp only [Option.some.injEq] at h <;> omega

/-- The printed digit of a value reads back as the value. -/
theorem asciiDigit_itoa (upper : Bool) : ∀ d < 16, asciiDigit (cell (deeAsciiItoaDigits upper) d) = some d := by
  cases upper <;> decide

theorem length_deeAsciiItoaDigits (upper : Bool) : (deeAsciiItoaDigits upper).length = 36 := by
  cases upper <;> rfl

/-! ### UTF-8 -/

/-- `Dee_unicode_utf8seqlen`. -/
def utf8SeqLen (b : ℕ) : ℕ :=
  if b < 0x80 then 1 else if b < 0xc0 then 0 else if b < 0xe0 then 2 else if b < 0xf0 then 3 else if b < 0xf8 then 4
  else if b < 0xfc then 5 else if b < 0xfe then 6 else if b < 0xff then 7 else 8

/-- The bits that the first byte of a sequence of `len` bytes gives; none for seven or eight bytes. -/
def utf8Lead (len b : ℕ) : ℕ := b &&& (2 ^ (7 - len) - 1)

/-- `result <<= 6, result |= (*iter & 0x3f)` for `n` bytes, in 32 bits. -/
def utf8Follow (str : List ℕ) (iter n result : ℕ) : Option ℕ :=
  forLoop (fun i result => do some ((result <<< 6 ||| ((← rd str i) &&& 0x3f)) % 2 ^ 32)) iter n result

/-- `Dee_unicode_readutf8_n`: the character at `pos` and the position behind it. -/
def readUtf8N (str : List ℕ) (pos textEnd : ℕ) : Option (ℕ × ℕ) :=
  if textEnd ≤ pos then some (0, pos)
  else do
    let result ← rd str pos
    let iter := pos + 1
    if 0xc0 ≤ result then do
      let len := utf8SeqLen result
      let len := if textEnd ≤ iter + len - 1 then textEnd - iter + 1 else len
      if len ≤ 1 then some (result, iter)
      else do
        some (← utf8Follow str iter (len - 1) (utf8Lead len result), iter + (len - 1))
    else
      some (result, iter)

/-- `Dee_unicode_readutf8_rev_n`: the character before `pos` and its position. -/
def readUtf8RevN (str : List ℕ) (pos textStart : ℕ) : Option (ℕ × ℕ) :=
  if pos ≤ textStart then some (0, pos)
  else do
    let (result, iter, seqlen) ← loop (fun (iter, seqlen) => do
      let result ← rd str (iter - 1)
      some (if result &&& 0xc0 ≠ 0x80 then .done (result, iter - 1, seqlen)
        else if 8 ≤ seqlen then .done (result, iter - 1, seqlen)
        else if iter - 1 ≤ textStart then .done (result, iter - 1, seqlen + 1)
        else .next (iter - 1, seqlen + 1))) 8 (pos, 1)
    if 0xc0 ≤ result ∧ 1 < seqlen then do
      -- `iter[0]` is the first byte of the sequence here
      some (← utf8Follow str iter (seqlen - 1) (utf8Lead seqlen result), iter)
    else
      some (result, iter)

section Ascii

variable {str : List ℕ} {pos textStart textEnd : ℕ}

theorem readUtf8N_ascii (hpos : pos < textEnd) (hlen : pos < str.length) (hch : cell str pos < 0x80) :
    readUtf8N str pos textEnd = some (cell str pos, pos + 1) := by
  rw [readUtf8N, if_neg (by omega), rd_of_lt hlen, some_bind]
  dsimp only
  rw [if_neg (by omega)]

theorem and_0xc0_of_ascii : ∀ b < 0x80, b &&& 0xc0 ≠ 0x80 := by decide +kernel

theorem readUtf8RevN_ascii (hpos : textStart < pos) (hlen : pos ≤ str.length) (hch : cell str (pos - 1) < 0x80) :
    readUtf8RevN str pos textStart = some (cell str (pos - 1), pos - 1) := by
  rw [readUtf8RevN, if_neg (by omega), loop]
  dsimp only
  rw [rd_of_lt (by omega), some_bind, if_pos (and_0xc0_of_ascii _ hch)]
  change (if _ then _ else _) = _
  rw [if_neg (by omega)]

end Ascii

end Deemon.Unicode
