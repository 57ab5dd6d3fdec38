import Deemon.Unicode.Utf8

/-!
# String objects

A string holds its characters in the narrowest of three widths, with single bytes in `s_str` itself. Wider strings keep
their UTF-8 form in `s_str`; other forms are cached when someone asks for them.
-/

namespace Deemon.Unicode

open Deemon.Run

/-- The flags of an `error_mode`. -/
structure ErrorMode where
  freplac : Bool
  fignore : Bool
deriving DecidableEq, Repr

/-- `STRING_ERROR_FSTRICT`. -/
def ErrorMode.strict : ErrorMode := ⟨false, false⟩

/-- `STRING_ERROR_FREPLAC`. -/
def ErrorMode.replac : ErrorMode := ⟨true, false⟩

/-- `STRING_ERROR_FIGNORE`. -/
def ErrorMode.ignore : ErrorMode := ⟨false, true⟩

/-- `STRING_WIDTH_1BYTE`, `STRING_WIDTH_2BYTE` and `STRING_WIDTH_4BYTE`. -/
inductive StringWidth where
  | byte1
  | byte2
  | byte4
deriving DecidableEq, Repr

/-- A string with its `struct Dee_string_utf`. A string without one has width 1 and nothing cached. -/
structure DeeString where
  sLen : ℕ
  /-- The bytes written to `s_str`. -/
  sStr : List ℕ
  uWidth : StringWidth
  /-- `u_data[u_width]`, as long as its `WSTR_LENGTH`. -/
  uData : List ℕ
  uUtf8 : Option (List ℕ)
  /-- The units of `u_utf16`, with `none` for one that was never written. -/
  uUtf16 : Option (List (Option ℕ))
  /-- `Dee_STRING_UTF_FASCII`: the string is known to be ASCII. -/
  uFascii : Bool
deriving DecidableEq, Repr

/-- A string of single bytes without a descriptor. -/
def DeeString.ofBytes (sStr : List ℕ) : DeeString := ⟨sStr.length, sStr, .byte1, sStr, none, none, false⟩

/-- `memmovedownc(l + d, l + s, n)`. -/
def memmovedown (l : List ℕ) (d s n : ℕ) : Option (List ℕ) :=
  if s + n ≤ l.length then some (l.take d ++ (l.drop s).take n ++ l.drop (d + n)) else none

section Buffers

variable {a b r tail : List ℕ} {x v : ℕ}

theorem rd_append_cons : rd (a ++ x :: b) a.length = some x := by
  rw [rd_of_lt (by simp)]
  simp [cell]

theorem wr_append_cons : wr (a ++ x :: b) a.length v = some (a ++ v :: b) := by
  rw [wr_of_lt (by simp)]
  simp

theorem cell_append_cons : cell (a ++ x :: b) a.length = x := by simp [cell]

/-- The cells `b` of a buffer are dropped and those behind them move down; as many old cells stay behind. -/
theorem memmovedown_append (b : List ℕ) :
    memmovedown (a ++ (b ++ (r ++ tail))) a.length (a.length + b.length) r.length =
      some (a ++ (r ++ ((b ++ r).drop r.length ++ tail))) := by
  have hdst : (a ++ (b ++ (r ++ tail))).drop (a.length + r.length) = (b ++ r).drop r.length ++ tail := by
    rw [← List.drop_drop, List.drop_left, ← List.append_assoc, List.drop_append_of_le_length (by simp)]
  have hsrc : (a ++ (b ++ (r ++ tail))).drop (a.length + b.length) = r ++ tail := by
    rw [← List.drop_drop, List.drop_left, List.drop_left]
  unfold memmovedown
  rw [if_pos (by simp only [List.length_append]; omega), hdst, hsrc, List.take_left, List.take_left, List.append_assoc]

end Buffers

end Deemon.Unicode
