import Deemon.Int.Leb
import Deemon.Lib.Numeral
import Deemon.Unicode.Chars

/-!
# Integers to text

`DeeInt_PrintDecimal` converts the digits to base `10 ^ 9` and writes the limbs from the end of a buffer
backwards; `DeeInt_Print` does the same with groups of one to four bits for the radices 2, 4, 8 and 16. Both
compute the size of the buffer in advance, and both pad with zeros, in groups that continue the ones of the
number. The text goes to a printer in pieces; here it is the concatenation of the pieces.
-/

namespace Deemon.Int

open Deemon.Run Deemon.Radix Deemon.Numeral Deemon.Unicode DeeInt

/-- The flags `Dee_INT_PRINT_F*`. -/
structure PrintFlags where
  upper : Bool
  numsys : Bool
  sign : Bool
  seps : Bool
  deriving DecidableEq, Repr

/-! ### The text buffer -/

/-- `buf` and `iter`, which moves down from the end. -/
structure TextBuf where
  iter : ℕ
  buf : List ℕ

namespace TextBuf

/-- `buf = Dee_Mallocac(bufsize, sizeof(char)); iter = buf + bufsize`. -/
def alloc (bufsize : ℕ) : TextBuf := ⟨bufsize, List.replicate bufsize 0xdf⟩

/-- `*--iter = ch`. -/
def put (ch : ℕ) (t : TextBuf) : Option TextBuf := do
  assert (t.iter ≠ 0)
  some ⟨t.iter - 1, ← wr t.buf (t.iter - 1) ch⟩

/-- `*--iter` for each character, the last one first. -/
def putAll : List ℕ → TextBuf → Option TextBuf
  | [], t => some t
  | ch :: chars, t => do (← putAll chars t).put ch

/-- The characters from `iter` on. -/
def text (t : TextBuf) : List ℕ := t.buf.drop t.iter

/-- A buffer of `cap` characters that holds `s`. -/
structure Holds (cap : ℕ) (s : List ℕ) (t : TextBuf) : Prop where
  len : t.buf.length = cap
  iter : t.iter + s.length = cap
  text : t.text = s

variable {cap ch : ℕ} {s : List ℕ} {t : TextBuf}

theorem alloc_holds : (alloc cap).Holds cap [] := ⟨by simp [alloc], by simp [alloc], by simp [alloc, TextBuf.text]⟩

theorem Holds.put (h : t.Holds cap s) (hcap : s.length < cap) : Ends (t.put ch) (Holds cap (ch :: s)) := by
  have hlen := h.len
  have hiter := h.iter
  unfold TextBuf.put
  rw [assert_of (by omega), some_bind, wr_of_lt (by omega)]
  refine Ends.pure ⟨by simpa using hlen, by rw [List.length_cons]; dsimp only; omega, ?_⟩
  have hset : (t.buf.set (t.iter - 1) ch).drop (t.iter - 1) = ch :: t.buf.drop (t.iter - 1 + 1) := by
    rw [List.drop_eq_getElem_cons (by rw [List.length_set]; omega), List.getElem_set_self, List.drop_set_of_lt (by omega)]
  have htext := h.text
  unfold TextBuf.text at htext ⊢
  rw [hset, show t.iter - 1 + 1 = t.iter by omega, htext]

theorem Holds.putAll (h : t.Holds cap s) {chars : List ℕ} (hcap : chars.length + s.length ≤ cap) :
    Ends (t.putAll chars) (Holds cap (chars ++ s)) := by
  induction chars with
  | nil => exact Ends.pure h
  | cons c chars ih =>
    rw [List.length_cons] at hcap
    exact Ends.bind (ih (by omega)) fun t' ht' => ht'.put (by rw [List.length_append]; omega)

end TextBuf

/-! ### Padding -/

/-- `DECIMAL_THOUSANDS_GROUPINGS`. -/
abbrev decimalThousandsGroupings : ℕ := 3

/-- `NON_DECIMAL_THOUSANDS_GROUPINGS`. -/
abbrev nonDecimalThousandsGroupings : ℕ := 4

/-- The zeros in front of the digits `text`, of which there are too few. -/
def zeroPad (groupings : ℕ) (seps : Bool) (numLeadingZeroes : ℕ) (text : List ℕ) : Option (List ℕ) :=
  if seps then do
    let firstSepInInt := text.idxOf (chr '_')
    assert (1 ≤ firstSepInInt ∧ firstSepInInt ≤ groupings)
    -- the difference is one of `size_t` and may wrap
    let firstSepInPad := (numLeadingZeroes + 2 ^ 64 - (groupings - firstSepInInt)) % 2 ^ 64 % groupings
    assert (firstSepInPad < groupings)
    if numLeadingZeroes < firstSepInPad then some (List.replicate numLeadingZeroes (chr '0'))
    else do
      let out := if firstSepInPad ≠ 0 then List.replicate firstSepInPad (chr '0') ++ [chr '_'] else []
      let (numLeadingZeroes, out) ← loop (fun (numLeadingZeroes, out) =>
        if groupings ≤ numLeadingZeroes then
          some (.next (numLeadingZeroes - groupings, out ++ (List.replicate groupings (chr '0') ++ [chr '_'])))
        else some (.done (numLeadingZeroes, out))) (numLeadingZeroes + 1) (numLeadingZeroes - firstSepInPad, out)
      some (out ++ List.replicate numLeadingZeroes (chr '0'))
  else some (List.replicate numLeadingZeroes (chr '0'))

/-- The end of both printers, with the sign and the number system in `pre`. -/
def printPadded (groupings : ℕ) (seps : Bool) (pre : List ℕ) (intlen precision : ℕ) (t : TextBuf) :
    Option (List ℕ) :=
  if intlen < precision then do
    some (pre ++ ((← zeroPad groupings seps (precision - intlen) t.text) ++ t.text))
  else do
    some (← t.putAll pre).text

/-- The sign that is printed. -/
def signText (self : DeeInt) (flags : PrintFlags) : List ℕ :=
  if self.obSize < 0 then [chr '-'] else if flags.sign then [chr '+'] else []

/-! ### Decimal numbers -/

/-- `DeeInt_DECIMAL_SHIFT`. -/
abbrev decimalShift : ℕ := 9

/-- `DeeInt_DECIMAL_BASE`. -/
abbrev decimalBase : ℕ := 10 ^ 9

/-- The conversion to base `10 ^ 9`: `size` and `pout`. -/
def decimalLimbs (self : DeeInt) (pout : List ℕ) : Option (ℕ × List ℕ) :=
  forDown (fun i (size, pout) => do
    let hi ← rd self.obDigit i
    let (hi, pout) ← forLoop (fun j (hi, pout) => do
      let z ← fits 64 ((← rd pout j) <<< digitBits ||| hi)
      let hi ← fits 32 (z / decimalBase)
      some (hi, ← wr pout j (z - hi * decimalBase))) 0 size (hi, pout)
    loop (fun (hi, size, pout) =>
      if hi ≠ 0 then do
        some (.next (hi / decimalBase, size + 1, ← wr pout size (hi % decimalBase)))
      else some (.done (size, pout))) (hi + 1) (hi, size, pout)) self.absSize (0, pout)

/-- The loop over `tenpow`: the size of the buffer without separators. -/
def decimalBufsize (size rem : ℕ) : Option ℕ :=
  loop (fun (tenpow, bufsize) =>
    if tenpow ≤ rem then do
      some (.next (← fits 32 (tenpow * 10), bufsize + 1))
    else some (.done bufsize)) (rem + 1) (10, 1 + 1 + (size - 1) * decimalShift)

/-- The limbs below the top one, all nine digits of each: the buffer and `intlen`. -/
def decimalLow (seps : Bool) (pout : List ℕ) (size : ℕ) (t : TextBuf) : Option (TextBuf × ℕ) :=
  forLoop (fun i (t, intlen) => do
    let rem ← rd pout i
    let (_, t, intlen) ← forLoop (fun _ (rem, t, intlen) => do
      let t ← t.put (chr '0' + rem % 10)
      let intlen := intlen + 1
      let t ← (if seps ∧ intlen % decimalThousandsGroupings = 0 then t.put (chr '_') else some t)
      some (rem / 10, t, intlen)) 0 decimalShift (rem, t, intlen)
    some (t, intlen)) 0 (size - 1) (t, 0)

/-- The digits of the top limb. -/
def decimalTop (seps : Bool) (rem : ℕ) (t : TextBuf) (intlen : ℕ) : Option (TextBuf × ℕ) :=
  loop (fun (rem, t, intlen) => do
    let t ← t.put (chr '0' + rem % 10)
    let intlen := intlen + 1
    let rem := rem / 10
    let t ← (if seps ∧ intlen % decimalThousandsGroupings = 0 ∧ rem ≠ 0 then t.put (chr '_') else some t)
    some (if rem ≠ 0 then .next (rem, t, intlen) else .done (t, intlen))) (rem + 1) (rem, t, intlen)

/-- `SSIZE_MAX`. -/
abbrev ssizeMax : ℕ := 2 ^ 63 - 1

/-- `DeeInt_PrintDecimal`. -/
def deeIntPrintDecimal (self : DeeInt) (flags : PrintFlags) (precision : ℕ) : Option (Except IntError (List ℕ)) :=
  let sizeA := self.absSize
  if ssizeMax / digitBits < sizeA then some (.error .tooLargeToFormat)
  else do
    let pout := List.replicate (1 + sizeA * digitBits / (3 * decimalShift)) uninit
    let (size, pout) ← decimalLimbs self pout
    let (size, pout) ← (if size = 0 then do some (1, ← wr pout 0 0) else some (size, pout))
    let rem ← rd pout (size - 1)
    let bufsize ← decimalBufsize size rem
    let bufsize ← fits 64 (if flags.seps then bufsize + bufsize / decimalThousandsGroupings else bufsize)
    let (t, intlen) ← decimalLow flags.seps pout size (TextBuf.alloc bufsize)
    let (t, intlen) ← decimalTop flags.seps rem t intlen
    let text ← printPadded decimalThousandsGroupings flags.seps (signText self flags) intlen precision t
    some (.ok text)

/-! ### Powers of two -/

/-- The prefix for the radix `2 ^ dig_bits`. -/
def numsysText (digitChars : List ℕ) (digBits : ℕ) : List ℕ :=
  chr '0' ::
    if digBits = 4 then [cell digitChars 33]
    else if digBits = 2 then [cell digitChars 25]
    else if digBits = 1 then [cell digitChars 11]
    else []

/-- `number`, `num_bits`, how many digits of the integer have been read, the buffer and `intlen`. -/
structure BitPrinter where
  number : ℕ
  numBits : ℕ
  src : ℕ
  t : TextBuf
  intlen : ℕ

/-- Reads one more digit when there are too few bits; the most significant one without its leading zeros. -/
def BitPrinter.refill (self : DeeInt) (digBits : ℕ) (p : BitPrinter) : Option BitPrinter :=
  if p.numBits < digBits ∧ p.src < self.absSize then do
    let number := p.number &&& (1 <<< p.numBits - 1)
    let number ← fits 64 (number ||| (← rd self.obDigit p.src) <<< p.numBits)
    let numBits := p.numBits + digitBits
    let numBits ← (if p.src + 1 = self.absSize then trimBits number numBits else some numBits)
    some { p with number := number, numBits := numBits, src := p.src + 1 }
  else some p

/-- `while (num_bits >= dig_bits)`: prints the extracted digits. -/
def BitPrinter.flush (self : DeeInt) (digBits digMask : ℕ) (digitChars : List ℕ) (seps : Bool) (p : BitPrinter) :
    Option BitPrinter :=
  loop (fun p =>
    if digBits ≤ p.numBits then do
      let numBits := p.numBits - digBits
      let t ← p.t.put (← rd digitChars (p.number &&& digMask))
      let intlen := p.intlen + 1
      let t ← (if seps ∧ intlen % nonDecimalThousandsGroupings = 0 ∧ (p.src < self.absSize ∨ numBits ≠ 0) then
        t.put (chr '_') else some t)
      some (.next ⟨p.number >>> digBits, numBits, p.src, t, intlen⟩)
    else some (.done p)) (p.numBits + 1) p

/-- The digits of an integer that is not zero. -/
def printBits (self : DeeInt) (digBits digMask : ℕ) (digitChars : List ℕ) (seps : Bool) (t : TextBuf) :
    Option (TextBuf × ℕ) := do
  let p : BitPrinter ← loop (fun p => do
    let p ← p.refill self digBits
    let p ← p.flush self digBits digMask digitChars seps
    some (if p.src < self.absSize then .next p else .done p)) self.absSize ⟨0, 0, 0, t, 0⟩
  if p.numBits ≠ 0 then do
    some (← p.t.put (← rd digitChars (p.number &&& digMask)), p.intlen + 1)
  else some (p.t, p.intlen)

/-- `do_print`. -/
def printPowerOfTwo (self : DeeInt) (flags : PrintFlags) (precision digBits digMask : ℕ) :
    Option (Except IntError (List ℕ)) := do
  let digitChars := deeAsciiItoaDigits flags.upper
  let (t, intlen) ← (if self.absSize = 0 then do
      some (← (TextBuf.alloc 4).put (chr '0'), 1)
    else do
      let bufsize := (← fits 64 (self.absSize * digitBits)) / digBits
      let bufsize := if flags.seps then bufsize + bufsize / nonDecimalThousandsGroupings else bufsize
      let bufsize ← fits 64 (bufsize + 4)
      printBits self digBits digMask digitChars flags.seps (TextBuf.alloc bufsize))
  let numsys := if flags.numsys then numsysText digitChars digBits else []
  let text ← printPadded nonDecimalThousandsGroupings flags.seps (signText self flags ++ numsys) intlen precision t
  some (.ok text)

/-- `DeeInt_Print`. -/
def deeIntPrint (self : DeeInt) (radix : ℕ) (flags : PrintFlags) (precision : ℕ) :
    Option (Except IntError (List ℕ)) :=
  match radix with
  | 10 => deeIntPrintDecimal self flags precision
  | 2 => printPowerOfTwo self flags precision 1 0x1
  | 4 => printPowerOfTwo self flags precision 2 0x3
  | 8 => printPowerOfTwo self flags precision 3 0x7
  | 16 => printPowerOfTwo self flags precision 4 0xf
  | _ => some (.error (.unsupportedRadix radix))

/-! ### The digits of the text -/

/-- The character of a digit. -/
def digitChar (upper : Bool) (d : ℕ) : ℕ := cell (deeAsciiItoaDigits upper) d

/-- The `n` low digits of `x` as text. -/
def digitText (upper : Bool) (r x n : ℕ) : List ℕ := (lowDigits r x n).map (digitChar upper)

/-- The size of the groups; zero stands for no groups. -/
def groupWidth (seps : Bool) (groupings : ℕ) : ℕ := if seps then groupings else 0

section Text

variable {upper seps : Bool} {r x n g cap : ℕ} {cs : List ℕ} {t : TextBuf}

@[simp] theorem length_digitText : (digitText upper r x n).length = n := by
  rw [digitText, List.length_map, length_lowDigits]

theorem digitText_succ : digitText upper r x (n + 1) = digitChar upper (x / r ^ n % r) :: digitText upper r x n := rfl

theorem digitChar_zero (upper : Bool) : digitChar upper 0 = chr '0' := by
  cases upper <;> rfl

/-- Digits below ten have the same character in both tables. -/
theorem digitChar_of_lt_ten (upper : Bool) : ∀ d < 10, digitChar upper d = chr '0' + d := by
  cases upper <;> decide

theorem asciiDigit_digitChar (upper : Bool) {d : ℕ} (hd : d < 16) : asciiDigit (digitChar upper d) = some d :=
  asciiDigit_itoa upper d hd

theorem underscore_notMem_digitText (hr : 0 < r) (h16 : r ≤ 16) : chr '_' ∉ digitText upper r x n := by
  intro hmem
  obtain ⟨d, hd, hch⟩ := List.mem_map.mp hmem
  have hdig := asciiDigit_digitChar upper (lt_of_lt_of_le (lowDigits_lt hr d hd) h16)
  rw [hch, asciiDigit_underscore] at hdig
  exact absurd hdig (by simp)

/-- More digits than the number has are zeros in front. -/
theorem digitText_pad (hr : 0 < r) (h : x < r ^ n) (m : ℕ) :
    digitText upper r x (m + n) = List.replicate m (chr '0') ++ digitText upper r x n := by
  rw [digitText, lowDigits_add hr h, List.map_append, List.map_replicate, digitChar_zero, digitText]

/-- The separator that is written when more digits follow. -/
theorem putSep_ends (h : t.Holds cap (grouped (chr '_') (groupWidth seps g) cs)) (hpos : 0 < cs.length)
    (hcap : cs.length + cs.length / groupWidth seps g ≤ cap) {k : ℕ} (hk : k = cs.length) :
    Ends (if seps ∧ k % g = 0 then t.put (chr '_') else some t)
      (TextBuf.Holds cap (groupedTail (chr '_') (groupWidth seps g) cs)) := by
  subst hk
  unfold groupWidth at *
  cases seps with
  | false =>
    rw [if_neg (by simp)]
    rw [if_neg (by simp)] at h ⊢
    rw [groupedTail_of_not (by simp)]
    exact Ends.pure h
  | true =>
    rw [if_pos rfl] at h hcap ⊢
    by_cases hg : cs.length % g = 0
    · rw [if_pos ⟨rfl, hg⟩, groupedTail_of_sep (by omega) hg]
      refine h.put ?_
      have hlen : (groupedTail (chr '_') g cs).length = cs.length + cs.length / g := length_groupedTail
      rw [groupedTail_of_sep (by omega) hg, List.length_cons] at hlen
      omega
    · rw [if_neg fun hand => hg hand.2, groupedTail_of_not fun hand => hg hand.2]
      exact Ends.pure h

/-- The groups of zeros. -/
theorem zeroGroups_ends {fuel : ℕ} (hg : 0 < g) (hfuel : n < fuel) (out : List ℕ) :
    Ends (loop (fun s : ℕ × List ℕ =>
      if g ≤ s.1 then some (Step.next (s.1 - g, s.2 ++ (List.replicate g (chr '0') ++ [chr '_'])))
      else some (.done (s.1, s.2))) fuel (n, out)) fun s =>
      s = (n % g, out ++ (List.replicate (n / g) (List.replicate g (chr '0') ++ [chr '_'])).flatten) := by
  refine loop_ends (fun s => s.1 % g = n % g ∧ s.1 ≤ n ∧
    s.2 = out ++ (List.replicate ((n - s.1) / g) (List.replicate g (chr '0') ++ [chr '_'])).flatten)
    (fun s => s.1) ⟨rfl, le_rfl, by simp⟩ hfuel ?_
  rintro ⟨m, o⟩ ⟨hmod, hle, ho⟩
  dsimp only at hmod hle ho ⊢
  split_ifs with hm
  · refine Ends.pure ⟨⟨by rw [← hmod, Nat.mod_eq_sub_mod hm], by dsimp only; omega, ?_⟩, by dsimp only; omega⟩
    have hdiv : (n - (m - g)) / g = (n - m) / g + 1 := by
      rw [show n - (m - g) = n - m + g by omega, Nat.add_div_right _ hg]
    dsimp only
    rw [hdiv, List.replicate_succ', List.flatten_concat, ← List.append_assoc out, ← ho]
  · have hm' : m = n % g := by rw [← hmod, Nat.mod_eq_of_lt (by omega)]
    have hdiv : (n - m) / g = n / g := by
      rw [show n - m = g * (n / g) by have := Nat.div_add_mod n g; omega, Nat.mul_div_cancel_left _ hg]
    refine Ends.pure ?_
    change (m, o) = _
    rw [← hm', ← hdiv, ← ho]

/-- How zeros in front of a number fall into groups: the rest of its leading group, then whole groups, then the
zeros of a new leading group. -/
theorem grouped_pad {fsi fsp k : ℕ} (hg : 0 < g) (hne : cs ≠ []) (hfsi : (cs.length - 1) % g + 1 = fsi)
    (hfsp : fsp < g) (hn : n = fsp + (k * g + (g - fsi))) :
    grouped (chr '_') g (List.replicate n (chr '0') ++ cs) =
      (if fsp ≠ 0 then List.replicate fsp (chr '0') ++ [chr '_'] else []) ++
        ((List.replicate k (List.replicate g (chr '0') ++ [chr '_'])).flatten ++
          (List.replicate (g - fsi) (chr '0') ++ grouped (chr '_') g cs)) := by
  have hlt := Nat.mod_lt (cs.length - 1) hg
  have hdiv := Nat.div_add_mod (cs.length - 1) g
  have hpos := List.length_pos_of_ne_nil hne
  have hlead : grouped (chr '_') g (List.replicate (g - fsi) (chr '0') ++ cs) =
      List.replicate (g - fsi) (chr '0') ++ grouped (chr '_') g cs := grouped_replicate_within (by omega) hne
  have hfull : (List.replicate (g - fsi) (chr '0') ++ cs).length % g = 0 := by
    rw [List.length_append, List.length_replicate,
      show g - fsi + cs.length = g * ((cs.length - 1) / g + 1) by rw [Nat.mul_add]; omega, Nat.mul_mod_right]
  have hgroups : grouped (chr '_') g (List.replicate (k * g) (chr '0') ++ (List.replicate (g - fsi) (chr '0') ++ cs)) =
      (List.replicate k (List.replicate g (chr '0') ++ [chr '_'])).flatten ++
        grouped (chr '_') g (List.replicate (g - fsi) (chr '0') ++ cs) :=
    grouped_replicate_groups hg hfull (by simp [hne]) k
  rw [hn, List.replicate_add, List.replicate_add, List.append_assoc, List.append_assoc, ← hlead, ← hgroups]
  split_ifs with h0
  · rw [grouped_replicate_sep (by omega) hfsp.le ?_ (by simp [hne]), List.append_assoc, List.singleton_append]
    rw [List.length_append, List.length_replicate, Nat.add_mod, Nat.mul_mod_left, hfull]
    simp
  · rw [show fsp = 0 by omega]
    rfl

/-- The padding continues the groups of the number. -/
theorem zeroPad_ends (hg : g = 3 ∨ g = 4) (hne : cs ≠ []) (hcs : chr '_' ∉ cs) (hn : 0 < n) (hn64 : n < 2 ^ 64) :
    Ends (zeroPad g seps n (grouped (chr '_') (groupWidth seps g) cs)) fun pad =>
      pad ++ grouped (chr '_') (groupWidth seps g) cs =
        grouped (chr '_') (groupWidth seps g) (List.replicate n (chr '0') ++ cs) := by
  unfold zeroPad groupWidth
  cases seps with
  | false =>
    rw [if_neg (by simp), if_neg (by simp), grouped_zero, grouped_zero]
    exact Ends.pure rfl
  | true =>
    rw [if_pos rfl, if_pos rfl, idxOf_grouped (by omega) hne hcs]
    dsimp only
    generalize hfsi : (cs.length - 1) % g + 1 = fsi
    have hlt : (cs.length - 1) % g < g := Nat.mod_lt _ (by omega)
    rw [assert_of (by omega), some_bind, assert_of (Nat.mod_lt _ (by omega)), some_bind]
    generalize hfsp : (n + 2 ^ 64 - (g - fsi)) % 2 ^ 64 % g = fsp
    have hwithin : n < g - fsi → List.replicate n (chr '0') ++ grouped (chr '_') g cs =
        grouped (chr '_') g (List.replicate n (chr '0') ++ cs) := fun hshort =>
      (grouped_replicate_within (by omega) hne).symm
    by_cases hplain : n < fsp
    · -- the difference has wrapped, so the zeros stay in the leading group
      rw [if_pos hplain]
      exact Ends.pure (hwithin (by rcases hg with rfl | rfl <;> omega))
    rw [if_neg hplain]
    refine Ends.bind (zeroGroups_ends (by omega) (by omega) _) fun s hs => ?_
    subst hs
    refine Ends.pure ?_
    dsimp only
    by_cases hshort : n < g - fsi
    · obtain rfl : fsp = 0 := by rcases hg with rfl | rfl <;> omega
      rw [if_neg (by simp), Nat.sub_zero, Nat.mod_eq_of_lt (by omega), Nat.div_eq_of_lt (by omega)]
      exact hwithin hshort
    · have hfsp' : (n - (g - fsi)) % g = fsp := by
        rw [← hfsp, show n + 2 ^ 64 - (g - fsi) = n - (g - fsi) + 2 ^ 64 by omega, Nat.add_mod_right,
          Nat.mod_eq_of_lt (show n - (g - fsi) < 2 ^ 64 by omega)]
      have hdiv := Nat.div_add_mod (n - (g - fsi)) g
      have hrest : n - fsp = (n - (g - fsi)) / g * g + (g - fsi) := by
        rw [Nat.mul_comm]
        omega
      have hfspg : fsp < g := by
        rw [← hfsp']
        exact Nat.mod_lt _ (by omega)
      have hn' : n = fsp + ((n - (g - fsi)) / g * g + (g - fsi)) := by omega
      rw [grouped_pad (by omega) hne hfsi hfspg hn', hrest, Nat.mul_comm _ g, Nat.mul_add_mod, Nat.mod_eq_of_lt (show g - fsi < g by omega),
        Nat.mul_add_div (by omega), Nat.div_eq_of_lt (show g - fsi < g by omega), Nat.add_zero]
      simp only [List.append_assoc]

/-- The end of both printers: as many digits as asked for, in groups. -/
theorem printPadded_ends {pre : List ℕ} {precision : ℕ} (hg : g = 3 ∨ g = 4) (hr : 0 < r) (h16 : r ≤ 16)
    (hn : 0 < n) (hx : x < r ^ n) (hprec : precision < 2 ^ 64)
    (ht : t.Holds cap (grouped (chr '_') (groupWidth seps g) (digitText upper r x n)))
    (hcap : pre.length + (n + (n - 1) / groupWidth seps g) ≤ cap) :
    Ends (printPadded g seps pre n precision t) fun text =>
      text = pre ++ grouped (chr '_') (groupWidth seps g) (digitText upper r x (max precision n)) := by
  unfold printPadded
  by_cases hshort : n < precision
  · have hne : digitText upper r x n ≠ [] := List.ne_nil_of_length_pos (by rwa [length_digitText])
    rw [if_pos hshort, ht.text]
    refine Ends.bind (zeroPad_ends hg hne (underscore_notMem_digitText hr h16) (show 0 < precision - n by omega)
      (by omega)) fun pad hpad => Ends.pure ?_
    rw [hpad, ← digitText_pad hr hx, Nat.sub_add_cancel hshort.le, max_eq_left hshort.le]
  · rw [if_neg hshort, max_eq_right (by omega)]
    refine Ends.bind (ht.putAll (by rw [length_grouped, length_digitText]; exact hcap)) fun t' ht' => ?_
    exact Ends.pure ht'.text

end Text

/-! ### What the printers write -/

/-- How many digits a number has in radix `r`; zero has one. -/
def digitCount (r x : ℕ) : ℕ := Nat.log r x + 1

theorem lt_pow_digitCount {r x : ℕ} (hr : 1 < r) : x < r ^ digitCount r x := Nat.lt_pow_succ_log_self hr x

theorem digitCount_eq {r x n : ℕ} (hn : 0 < n) (hlt : x < r ^ n) (hle : 1 < n → r ^ (n - 1) ≤ x) :
    digitCount r x = n := by
  obtain ⟨k, rfl⟩ : ∃ k, n = k + 1 := ⟨n - 1, by omega⟩
  rw [digitCount, Nat.add_right_cancel_iff]
  rcases Nat.eq_zero_or_pos k with rfl | hk
  · exact Nat.log_of_lt (by simpa using hlt)
  · exact (Nat.log_eq_iff (Or.inl (by omega))).mpr ⟨hle (by omega), hlt⟩

/-- What the bit printer keeps: `k` digits of `r = 2 ^ b` are out, the bits behind them in `number`. -/
structure BitPrinter.Holds (x : DeeInt) (b cap g : ℕ) (upper : Bool) (p : BitPrinter) : Prop where
  src : p.src ≤ x.absSize
  number : p.number = x.mag / 2 ^ (b * p.intlen) % 2 ^ p.numBits
  bits : b * p.intlen + p.numBits = if p.src < x.absSize then 30 * p.src else x.mag.size
  text : p.t.Holds cap (if p.src < x.absSize ∨ p.numBits ≠ 0
    then groupedTail (chr '_') g (digitText upper (2 ^ b) x.mag p.intlen)
    else grouped (chr '_') g (digitText upper (2 ^ b) x.mag p.intlen))

section Bits

variable {x : DeeInt} {b cap g : ℕ} {upper seps : Bool} {p : BitPrinter}

theorem BitPrinter.Holds.numBits_lt (h : p.Holds x b cap g upper) : p.number < 2 ^ p.numBits := by
  rw [h.number]
  exact Nat.mod_lt _ (Nat.two_pow_pos _)

/-- The bits of a number behind its low `m` ones. -/
theorem size_div_two_pow {n m : ℕ} (h : n / 2 ^ m ≠ 0) : n.size = m + (n / 2 ^ m).size := by
  have hlow := Nat.mod_lt n (Nat.two_pow_pos m)
  rw [← size_add_mul hlow h, Nat.mul_comm, Nat.mod_add_div]

theorem BitPrinter.Holds.refill (hx : x.Canonical) (h : p.Holds x b cap g upper) (hb : b ≤ 4) :
    Ends (p.refill x b) fun p' => p'.Holds x b cap g upper ∧ p'.intlen = p.intlen ∧
      (p'.src < x.absSize → b ≤ p'.numBits) ∧ (p.numBits < b → p.src < x.absSize → p'.src = p.src + 1) := by
  unfold BitPrinter.refill
  by_cases hmore : p.numBits < b ∧ p.src < x.absSize
  · obtain ⟨hlt, hsrc⟩ := hmore
    have hbits := h.bits
    rw [if_pos hsrc] at hbits
    have hd := hx.cell_lt hsrc
    have hcell := cell_eq_div_mod hx.below hsrc
    have hseg : cell x.obDigit p.src = x.mag / 2 ^ (b * p.intlen) / 2 ^ p.numBits % 2 ^ 30 := by
      rw [Nat.div_div_eq_div_mul, ← pow_add, hbits, pow_mul]
      exact hcell
    have hadd : (p.number &&& (1 <<< p.numBits - 1)) ||| cell x.obDigit p.src <<< p.numBits =
        x.mag / 2 ^ (b * p.intlen) % 2 ^ (p.numBits + 30) := by
      rw [Nat.one_shiftLeft, Nat.and_two_pow_sub_one_eq_mod, Nat.mod_eq_of_lt h.numBits_lt, Nat.or_comm,
        ← Nat.shiftLeft_add_eq_or_of_lt h.numBits_lt, Nat.shiftLeft_eq, hseg, h.number, pow_add, Nat.mod_mul]
      ring
    have hfits : x.mag / 2 ^ (b * p.intlen) % 2 ^ (p.numBits + 30) < 2 ^ 64 :=
      lt_of_lt_of_le (Nat.mod_lt _ (Nat.two_pow_pos _)) (Nat.pow_le_pow_right (by norm_num) (by omega))
    have htext := h.text
    rw [if_pos (Or.inl hsrc)] at htext
    rw [if_pos ⟨hlt, hsrc⟩, rd_of_lt (hx.lt_length hsrc), some_bind, hadd, fits_of_lt hfits, some_bind]
    dsimp only
    by_cases hlast : p.src + 1 = x.absSize
    · -- the top digit, whose leading zeros are dropped
      have hmag := hx.le_mag hlast.symm
      have hne : x.mag / 2 ^ (b * p.intlen) ≠ 0 := by
        have hle : 2 ^ (b * p.intlen) ≤ x.mag := by
          refine le_trans ?_ hmag
          rw [← pow_mul, ← hbits]
          exact Nat.pow_le_pow_right (by norm_num) (by omega)
        have := Nat.div_pos hle (Nat.two_pow_pos _)
        omega
      have hfit : x.mag / 2 ^ (b * p.intlen) < 2 ^ (p.numBits + 30) := by
        refine Nat.div_lt_of_lt_mul ?_
        rw [← pow_add, ← Nat.add_assoc, hbits, show 30 * p.src + 30 = 30 * x.absSize by omega, pow_mul]
        exact hx.mag_lt
      rw [if_pos hlast, Nat.mod_eq_of_lt hfit]
      refine Ends.bind (trimBits_ends hfit) fun n hn => ?_
      subst hn
      have hsize : (x.mag / 2 ^ (b * p.intlen)).size ≠ 0 := fun h0 => hne (Nat.size_eq_zero.mp h0)
      refine Ends.pure ⟨⟨hlast.le, ?_, ?_, ?_⟩, rfl, fun hsrc' => ?_, fun _ _ => rfl⟩
      · dsimp only
        rw [Nat.mod_eq_of_lt (Nat.lt_size_self _)]
      · dsimp only
        rw [if_neg (by omega), ← size_div_two_pow hne]
      · dsimp only
        rwa [if_pos (Or.inr hsize)]
      · dsimp only at hsrc'
        omega
    · rw [if_neg hlast, some_bind]
      refine Ends.pure ⟨⟨by dsimp only; omega, rfl, ?_, ?_⟩, rfl, fun _ => ?_, fun _ _ => rfl⟩
      · dsimp only
        rw [if_pos (by omega), ← Nat.add_assoc, hbits, Nat.mul_succ]
      · dsimp only
        rwa [if_pos (Or.inl (by omega))]
      · dsimp only
        unfold digitBits
        omega
  · rw [if_neg hmore]
    exact Ends.pure ⟨h, rfl, fun hsrc => by omega, fun hlt hsrc => absurd ⟨hlt, hsrc⟩ hmore⟩

/-- `while (num_bits >= dig_bits)`. -/
theorem BitPrinter.Holds.flush (h : p.Holds x b cap (groupWidth seps 4) upper) (hb : 0 < b) (hb4 : b ≤ 4)
    (hx : x.Canonical) (hcap : 30 * x.absSize / b + 30 * x.absSize / b / groupWidth seps 4 ≤ cap) :
    Ends (p.flush x b (2 ^ b - 1) (deeAsciiItoaDigits upper) seps) fun p' =>
      p'.Holds x b cap (groupWidth seps 4) upper ∧ p'.numBits < b ∧ p'.src = p.src := by
  unfold BitPrinter.flush
  refine loop_ends (fun p' => p'.Holds x b cap (groupWidth seps 4) upper ∧ p'.src = p.src)
    (fun p' => p'.numBits) ⟨h, rfl⟩ (Nat.lt_succ_self _) ?_
  rintro p' ⟨h', hsrc⟩
  by_cases hfull : b ≤ p'.numBits
  · have hbits := h'.bits
    have htext := h'.text
    have hle := size_mag_le hx
    have hk : p'.intlen + 1 ≤ 30 * x.absSize / b := by
      rw [Nat.le_div_iff_mul_le hb, Nat.mul_comm, Nat.mul_succ]
      have := h'.src
      split_ifs at hbits <;> omega
    have hgroups : (p'.intlen + 1) / groupWidth seps 4 ≤ 30 * x.absSize / b / groupWidth seps 4 := Nat.div_le_div_right hk
    have hgroups' : p'.intlen / groupWidth seps 4 ≤ (p'.intlen + 1) / groupWidth seps 4 := Nat.div_le_div_right (Nat.le_succ _)
    have hsplit : 2 ^ p'.numBits = 2 ^ b * 2 ^ (p'.numBits - b) := by rw [← pow_add, Nat.add_sub_cancel' hfull]
    have hdig : p'.number % 2 ^ b = x.mag / (2 ^ b) ^ p'.intlen % 2 ^ b := by
      rw [h'.number, hsplit, Nat.mod_mul_right_mod, pow_mul]
    have h16 : 2 ^ b ≤ 16 := Nat.pow_le_pow_right (by norm_num) hb4
    have hdlt : p'.number % 2 ^ b < 2 ^ b := Nat.mod_lt _ (Nat.two_pow_pos b)
    rw [if_pos (Or.inr (by omega))] at htext
    rw [if_pos hfull, Nat.and_two_pow_sub_one_eq_mod, rd_of_lt (by rw [length_deeAsciiItoaDigits]; omega), some_bind]
    refine Ends.bind (htext.put (by rw [length_groupedTail, length_digitText]; omega)) fun t ht => ?_
    rw [hdig, ← digitChar, ← grouped_cons, ← digitText_succ] at ht
    have hnum : p'.number >>> b = x.mag / 2 ^ (b * (p'.intlen + 1)) % 2 ^ (p'.numBits - b) := by
      rw [Nat.shiftRight_eq_div_pow, h'.number, hsplit, Nat.mod_mul_right_div_self, Nat.div_div_eq_div_mul, ← pow_add,
        Nat.mul_succ]
    have hbits' : b * (p'.intlen + 1) + (p'.numBits - b) = if p'.src < x.absSize then 30 * p'.src else x.mag.size := by
      rw [← hbits, Nat.mul_succ]
      omega
    by_cases hmore : p'.src < x.absSize ∨ p'.numBits - b ≠ 0
    · have hcond : (seps = true ∧ (p'.intlen + 1) % 4 = 0 ∧ (p'.src < x.absSize ∨ p'.numBits - b ≠ 0)) ↔
          (seps = true ∧ (p'.intlen + 1) % 4 = 0) := ⟨fun hc => ⟨hc.1, hc.2.1⟩, fun hc => ⟨hc.1, hc.2, hmore⟩⟩
      have hput := putSep_ends ht (by rw [length_digitText]; omega) (by rw [length_digitText]; omega)
        (k := p'.intlen + 1) length_digitText.symm
      dsimp only
      simp only [hcond]
      refine Ends.bind hput fun t' ht' => Ends.pure ⟨⟨⟨h'.src, hnum, hbits', ?_⟩, hsrc⟩, by dsimp only; omega⟩
      dsimp only
      rwa [if_pos hmore]
    · dsimp only
      rw [if_neg fun hc => hmore hc.2.2, some_bind]
      refine Ends.pure ⟨⟨⟨h'.src, hnum, hbits', ?_⟩, hsrc⟩, by dsimp only; omega⟩
      dsimp only
      rwa [if_neg hmore]
  · rw [if_neg hfull]
    exact Ends.pure ⟨h', by omega, hsrc⟩

/-- The digits of an integer that is not zero. -/
theorem printBits_ends {t : TextBuf} (ht : t.Holds cap []) (hx : x.Canonical) (hpos : 0 < x.absSize) (hb : 0 < b)
    (hb4 : b ≤ 4) (hcap : 30 * x.absSize / b + 30 * x.absSize / b / groupWidth seps 4 + 1 ≤ cap) :
    Ends (printBits x b (2 ^ b - 1) (deeAsciiItoaDigits upper) seps t) fun r =>
      r.2 = digitCount (2 ^ b) x.mag ∧ r.2 ≤ 30 * x.absSize / b + 1 ∧
      r.1.Holds cap (grouped (chr '_') (groupWidth seps 4) (digitText upper (2 ^ b) x.mag r.2)) := by
  unfold printBits
  refine Ends.bind (P := fun p => p.Holds x b cap (groupWidth seps 4) upper ∧ p.numBits < b ∧ p.src = x.absSize) ?_ ?_
  · refine loop_ends (fun p => p.Holds x b cap (groupWidth seps 4) upper ∧ p.numBits < b ∧ p.src < x.absSize)
      (fun p => x.absSize - p.src - 1) ?_ (by dsimp only; omega) ?_
    · refine ⟨⟨Nat.zero_le _, by simp [Nat.mod_one], by simp [hpos], ?_⟩, hb, hpos⟩
      rw [if_pos (Or.inl hpos)]
      exact ht
    · rintro p ⟨hp, hlt, hsrc⟩
      refine Ends.bind (hp.refill hx hb4) ?_
      rintro p1 ⟨hp1, -, -, hsrc1⟩
      refine Ends.bind (hp1.flush hb hb4 hx (by omega)) ?_
      rintro p2 ⟨hp2, hlt2, hsrc2⟩
      have := hsrc1 hlt hsrc
      by_cases hmore : p2.src < x.absSize
      · rw [if_pos hmore]
        exact Ends.pure ⟨⟨hp2, hlt2, hmore⟩, by dsimp only; omega⟩
      · rw [if_neg hmore]
        exact Ends.pure ⟨hp2, hlt2, by have := hp2.src; omega⟩
  · rintro p ⟨hp, hlt, hsrc⟩
    have hbits := hp.bits
    have htext := hp.text
    have hle := size_mag_le hx
    rw [if_neg (by omega)] at hbits
    have hlow : ∀ m, m < x.mag.size → 2 ^ m ≤ x.mag := fun m hm => Nat.lt_size.mp hm
    have hk : p.intlen ≤ 30 * x.absSize / b := by
      rw [Nat.le_div_iff_mul_le hb, Nat.mul_comm]
      omega
    have hgroups : p.intlen / groupWidth seps 4 ≤ 30 * x.absSize / b / groupWidth seps 4 := Nat.div_le_div_right hk
    by_cases hrest : p.numBits ≠ 0
    · have hrem : x.mag / 2 ^ (b * p.intlen) < 2 ^ p.numBits := by
        refine Nat.div_lt_of_lt_mul ?_
        rw [← pow_add, hbits]
        exact Nat.lt_size_self _
      have hdig : p.number &&& (2 ^ b - 1) = x.mag / (2 ^ b) ^ p.intlen % 2 ^ b := by
        rw [Nat.and_two_pow_sub_one_eq_mod, hp.number, Nat.mod_eq_of_lt hrem, pow_mul]
      have h16 : 2 ^ b ≤ 16 := Nat.pow_le_pow_right (by norm_num) hb4
      have hdlt : x.mag / (2 ^ b) ^ p.intlen % 2 ^ b < 2 ^ b := Nat.mod_lt _ (Nat.two_pow_pos b)
      rw [if_pos (Or.inr hrest)] at htext
      rw [if_pos hrest, hdig, rd_of_lt (by rw [length_deeAsciiItoaDigits]; omega), some_bind]
      refine Ends.bind (htext.put (by rw [length_groupedTail, length_digitText]; omega)) fun t' ht' => ?_
      refine Ends.pure ⟨(digitCount_eq (show 0 < p.intlen + 1 by omega) ?_ fun h1 => ?_).symm, by dsimp only; omega, ht'⟩
      · rw [← pow_mul]
        refine lt_of_lt_of_le (Nat.lt_size_self _) (Nat.pow_le_pow_right (by norm_num) ?_)
        rw [Nat.mul_succ]
        omega
      · rw [Nat.add_sub_cancel, ← pow_mul]
        exact hlow _ (by omega)
    · have hmag : x.mag.size ≠ 0 := fun h0 => by
        have := hx.mag_pos hpos
        rw [Nat.size_eq_zero.mp h0] at this
        omega
      have hk0 : p.intlen ≠ 0 := fun h0 => hmag (by rw [← hbits, h0]; omega)
      rw [if_neg (by omega)] at htext
      rw [if_neg hrest]
      refine Ends.pure ⟨(digitCount_eq (by dsimp only; omega) ?_ fun _ => ?_).symm, by dsimp only; omega, htext⟩
      · rw [← pow_mul, show b * p.intlen = x.mag.size by omega]
        exact Nat.lt_size_self _
      · dsimp only
        rw [← pow_mul]
        refine hlow _ ?_
        have : b * (p.intlen - 1) < b * p.intlen := Nat.mul_lt_mul_of_pos_left (by omega) hb
        omega

theorem length_signText_le (x : DeeInt) (flags : PrintFlags) : (signText x flags).length ≤ 1 := by
  unfold signText
  split_ifs <;> simp

theorem length_numsysText_le (digitChars : List ℕ) (b : ℕ) : (numsysText digitChars b).length ≤ 2 := by
  unfold numsysText
  split_ifs <;> simp

/-- What a power-of-two radix prints: the sign, the number system and the digits in groups of four. -/
theorem printPowerOfTwo_ends {flags : PrintFlags} {precision : ℕ} (hx : x.Canonical) (hsize : 30 * x.absSize < 2 ^ 63)
    (hprec : precision < 2 ^ 64) (hb : 0 < b) (hb4 : b ≤ 4) :
    Ends (printPowerOfTwo x flags precision b (2 ^ b - 1)) fun r => r = .ok (signText x flags ++
      (if flags.numsys then numsysText (deeAsciiItoaDigits flags.upper) b else []) ++
      grouped (chr '_') (groupWidth flags.seps 4)
        (digitText flags.upper (2 ^ b) x.mag (max precision (digitCount (2 ^ b) x.mag)))) := by
  have h2 : 1 < 2 ^ b := Nat.one_lt_two_pow (by omega)
  have h16 : 2 ^ b ≤ 16 := Nat.pow_le_pow_right (n := 2) (by norm_num) hb4
  unfold printPowerOfTwo
  refine Ends.bind (P := fun r => r.2 = digitCount (2 ^ b) x.mag ∧ ∃ cap,
    3 + (r.2 + (r.2 - 1) / groupWidth flags.seps 4) ≤ cap ∧
    r.1.Holds cap (grouped (chr '_') (groupWidth flags.seps 4) (digitText flags.upper (2 ^ b) x.mag r.2))) ?_ ?_
  · by_cases hzero : x.absSize = 0
    · have hmag := mag_of_absSize_zero hzero
      rw [if_pos hzero]
      have halloc : (TextBuf.alloc 4).Holds 4 [] := TextBuf.alloc_holds
      refine Ends.bind (halloc.put (by simp)) fun t ht => Ends.pure ⟨?_, 4, by simp, ?_⟩
      · rw [hmag, digitCount, Nat.log_zero_right]
      · rw [hmag, digitText_succ, Nat.zero_div, Nat.zero_mod, digitChar_zero]
        exact ht
    · rw [if_neg hzero]
      have hbuf : (if flags.seps then x.absSize * digitBits / b + x.absSize * digitBits / b / nonDecimalThousandsGroupings
          else x.absSize * digitBits / b) =
          30 * x.absSize / b + 30 * x.absSize / b / groupWidth flags.seps 4 := by
        rw [Nat.mul_comm 30]
        unfold groupWidth
        split_ifs
        · rfl
        · rw [Nat.div_zero]
          rfl
      have hF : 30 * x.absSize / b ≤ 30 * x.absSize := Nat.div_le_self _ _
      have hG : 30 * x.absSize / b / groupWidth flags.seps 4 ≤ 30 * x.absSize / b / 4 := by
        unfold groupWidth
        split_ifs
        · exact le_rfl
        · rw [Nat.div_zero]
          exact Nat.zero_le _
      rw [fits_of_lt (show x.absSize * digitBits < 2 ^ 64 by unfold digitBits; omega), some_bind]
      dsimp only
      rw [hbuf, fits_of_lt (by omega), some_bind]
      refine (printBits_ends TextBuf.alloc_holds hx (by omega) hb hb4 ?_).mono ?_
      · omega
      rintro ⟨t, n⟩ ⟨hn, hle, ht⟩
      dsimp only at hn hle ht
      have : (n - 1) / groupWidth flags.seps 4 ≤ 30 * x.absSize / b / groupWidth flags.seps 4 :=
        Nat.div_le_div_right (by omega)
      exact ⟨hn, _, by dsimp only; omega, ht⟩
  · rintro ⟨t, n⟩ ⟨hn, cap, hcap, ht⟩
    dsimp only at hn hcap ht ⊢
    subst hn
    have hlen := length_signText_le x flags
    have hnum := length_numsysText_le (deeAsciiItoaDigits flags.upper) b
    refine Ends.bind (printPadded_ends (g := 4) (Or.inr rfl) (by omega) h16 (Nat.succ_pos _) (lt_pow_digitCount h2) hprec ht ?_)
      fun text htext => Ends.pure (by rw [htext])
    rw [List.length_append]
    have : (if flags.numsys then numsysText (deeAsciiItoaDigits flags.upper) b else []).length ≤ 2 := by
      split_ifs
      · exact hnum
      · simp
    omega


end Bits

/-! ### Decimal text -/

/-- The limbs of `v` in base `10 ^ 9`, in the first `size` cells. -/
structure DecimalLimbs (size : ℕ) (pout : List ℕ) (v : ℕ) : Prop where
  len : size ≤ pout.length
  value : seg decimalBase pout 0 size = v
  below : Below decimalBase pout 0 size
  top : 1 < size → decimalBase ^ (size - 1) ≤ v

section Decimal

variable {x : DeeInt} {pout : List ℕ} {size v cap : ℕ} {upper seps : Bool} {t : TextBuf}

/-- One limb more is one digit of 29 bits more. -/
theorem limbs_lt {n : ℕ} (h : decimalBase ^ size ≤ v) (hv : v < 2 ^ n) : 29 * size < n := by
  have hpow : 2 ^ (29 * size) ≤ decimalBase ^ size := by
    rw [pow_mul]
    exact Nat.pow_le_pow_left (by norm_num) size
  exact (Nat.pow_lt_pow_iff_right (by norm_num)).mp (lt_of_le_of_lt (le_trans hpow h) hv)

/-- Multiplies the limbs by `2 ^ 30` and adds `hi`; what does not fit is carried out. -/
theorem limbsShift_ends {hi : ℕ} (h : DecimalLimbs size pout v) (hhi : hi < digitBase) :
    Ends (forLoop (fun j s => do
      let z ← fits 64 ((← rd s.2 j) <<< digitBits ||| s.1)
      let hi ← fits 32 (z / decimalBase)
      some (hi, ← wr s.2 j (z - hi * decimalBase))) 0 size (hi, pout)) fun r =>
      r.2.length = pout.length ∧ Below decimalBase r.2 0 size ∧ r.1 < digitBase ∧
        seg decimalBase r.2 0 size + r.1 * decimalBase ^ size = v * digitBase + hi := by
  have hlen := h.len
  refine (forLoop_ends_zero (fun j s => SameOut pout s.2 0 j ∧ Below decimalBase s.2 0 j ∧ s.1 < digitBase ∧
    seg decimalBase s.2 0 j + s.1 * decimalBase ^ j = seg decimalBase pout 0 j * digitBase + hi)
    ⟨SameOut.refl, fun i hi => by omega, hhi, by simp⟩ ?_).mono ?_
  · rintro j ⟨c, out⟩ hj ⟨hsame, hbelow, hc, hval⟩
    dsimp only at hsame hbelow hc hval ⊢
    have hcell : cell out j = cell pout j := hsame.out j (by omega)
    have hlimb := h.below j hj
    rw [Nat.zero_add] at hlimb
    have hlen' := hsame.length
    obtain ⟨z, hz, hzdef⟩ : ∃ z, cell pout j <<< digitBits ||| c = z ∧ z = cell pout j * digitBase + c :=
      ⟨_, by rw [← Nat.shiftLeft_add_eq_or_of_lt hc, Nat.shiftLeft_eq], rfl⟩
    rw [rd_of_lt (by omega), some_bind, hcell, hz]
    unfold digitBase decimalBase at *
    have hzlt : z < 10 ^ 9 * 2 ^ 30 := by omega
    have hdiv : z / 10 ^ 9 < 2 ^ 30 := Nat.div_lt_of_lt_mul hzlt
    rw [fits_of_lt (by omega), some_bind, fits_of_lt (by omega), some_bind, wr_of_lt (by omega),
      show z - z / 10 ^ 9 * 10 ^ 9 = z % 10 ^ 9 by omega]
    have hcarry := seg_carry (B := 10 ^ 9) (l := out) (s := 0) (n := j) (x := z) (by omega)
    rw [Nat.zero_add] at hcarry
    refine Ends.pure ⟨(hsame.mono le_rfl (by omega)).trans (SameOut.set.mono (Nat.zero_le _) (by omega)),
      (hbelow.set (Nat.mod_lt _ (by norm_num))).succ ?_, hdiv, ?_⟩
    · rw [Nat.zero_add, cell_set_self (by omega)]
      exact Nat.mod_lt _ (by norm_num)
    · dsimp only
      rw [hcarry, seg_succ, Nat.zero_add, hzdef]
      linear_combination hval
  · rintro ⟨c, out⟩ ⟨hsame, hbelow, hc, hval⟩
    rw [h.value] at hval
    exact ⟨hsame.length, hbelow, hc, hval⟩

/-- Appends the limbs of what has been carried out. -/
theorem limbsPush_ends {hi fuel : ℕ} (hsize : size ≤ pout.length) (hbelow : Below decimalBase pout 0 size)
    (hv : seg decimalBase pout 0 size + hi * decimalBase ^ size = v) (htop : 1 < size → decimalBase ^ (size - 1) ≤ v)
    (hroom : ∀ n, decimalBase ^ n ≤ v → n < pout.length) (hfuel : hi < fuel) :
    Ends (loop (fun s : ℕ × ℕ × List ℕ =>
      if s.1 ≠ 0 then do
        some (Step.next (s.1 / decimalBase, s.2.1 + 1, ← wr s.2.2 s.2.1 (s.1 % decimalBase)))
      else some (.done (s.2.1, s.2.2))) fuel (hi, size, pout)) fun r =>
      DecimalLimbs r.1 r.2 v ∧ r.2.length = pout.length := by
  refine loop_ends (fun s => s.2.1 ≤ pout.length ∧ s.2.2.length = pout.length ∧ Below decimalBase s.2.2 0 s.2.1 ∧
    seg decimalBase s.2.2 0 s.2.1 + s.1 * decimalBase ^ s.2.1 = v ∧ (1 < s.2.1 → decimalBase ^ (s.2.1 - 1) ≤ v))
    (fun s => s.1) ⟨hsize, rfl, hbelow, hv, htop⟩ hfuel ?_
  rintro ⟨c, n, out⟩ ⟨hn, hlen, hout, hval, htop'⟩
  dsimp only at hn hlen hout hval htop' ⊢
  by_cases hc : c ≠ 0
  · have hle : decimalBase ^ n ≤ v := by
      have : 1 * decimalBase ^ n ≤ c * decimalBase ^ n := Nat.mul_le_mul_right _ (by omega)
      omega
    have hlt := hroom n hle
    have hcarry := seg_carry (B := decimalBase) (l := out) (s := 0) (n := n) (x := c) (by omega)
    rw [Nat.zero_add] at hcarry
    rw [if_pos hc, wr_of_lt (by omega)]
    refine Ends.pure ⟨⟨hlt, by simpa using hlen, (hout.set (Nat.mod_lt _ (by norm_num))).succ ?_, ?_, fun _ => hle⟩,
      Nat.div_lt_self (by omega) (by norm_num)⟩
    · rw [Nat.zero_add, cell_set_self (by omega)]
      exact Nat.mod_lt _ (by norm_num)
    · rw [hcarry, hval]
  · rw [if_neg hc]
    have hc0 : c = 0 := by omega
    rw [hc0, Nat.zero_mul, Nat.add_zero] at hval
    exact Ends.pure ⟨⟨by dsimp only; omega, hval, hout, htop'⟩, hlen⟩

/-- The conversion to base `10 ^ 9`. -/
theorem decimalLimbs_ends (hx : x.Canonical) (hlen : 30 * x.absSize < 29 * pout.length) :
    Ends (decimalLimbs x pout) fun r => DecimalLimbs r.1 r.2 x.mag ∧ r.2.length = pout.length := by
  unfold decimalLimbs
  refine (forDown_ends (fun i s => i ≤ x.absSize ∧
    DecimalLimbs s.1 s.2 (seg digitBase x.obDigit i (x.absSize - i)) ∧ s.2.length = pout.length)
    ⟨le_rfl, ⟨Nat.zero_le _, by simp, fun i hi => by omega, by simp⟩, rfl⟩ ?_).mono fun s hs => ⟨hs.2.1, hs.2.2⟩
  rintro i ⟨size, out⟩ hi ⟨-, h, hlen'⟩
  dsimp only at h hlen' ⊢
  have hseg : seg digitBase x.obDigit i (x.absSize - i) =
      seg digitBase x.obDigit (i + 1) (x.absSize - (i + 1)) * digitBase + cell x.obDigit i := by
    rw [show x.absSize - i = x.absSize - (i + 1) + 1 by omega, seg_succ_front]
    ring
  have hsuffix : Below digitBase x.obDigit i (x.absSize - i) := by
    have := (show i + (x.absSize - i) = x.absSize by omega) ▸ hx.below
    have := Below.suffix this
    rwa [Nat.zero_add] at this
  rw [rd_of_lt (hx.lt_length hi), some_bind]
  refine Ends.bind (limbsShift_ends h (hx.cell_lt hi)) ?_
  rintro ⟨c, out1⟩ ⟨hlen1, hbelow1, -, hval1⟩
  dsimp only at hlen1 hbelow1 hval1 ⊢
  rw [← hseg] at hval1
  refine (limbsPush_ends (by rw [hlen1]; exact h.len) hbelow1 hval1 (fun h0 => ?_) (fun n hn => ?_)
    (Nat.lt_succ_self _)).mono fun s hs => ⟨hi.le, hs.1, by rw [hs.2, hlen1, hlen']⟩
  · have := h.top h0
    have hmul : seg digitBase x.obDigit (i + 1) (x.absSize - (i + 1)) * 1 ≤
        seg digitBase x.obDigit (i + 1) (x.absSize - (i + 1)) * digitBase := Nat.mul_le_mul_left _ digitBase_pos
    omega
  · have hlt := seg_lt hsuffix
    rw [← pow_mul] at hlt
    have := limbs_lt hn hlt
    omega

/-- The digits of the top limb are counted by the powers of ten below it. -/
theorem decimalBufsize_ends {rem : ℕ} (hrem : rem < decimalBase) :
    Ends (decimalBufsize size rem) fun n => n = 1 + (size - 1) * 9 + digitCount 10 rem := by
  refine loop_ends (fun s => ∃ j, j ≤ 8 ∧ s = (10 ^ (j + 1), 2 + (size - 1) * 9 + j) ∧ (0 < j → 10 ^ j ≤ rem))
    (fun s => rem + 1 - s.1) ⟨0, by omega, rfl, by omega⟩ (by dsimp only; omega) ?_
  rintro _ ⟨j, hj, rfl, hle⟩
  dsimp only
  by_cases hmore : 10 ^ (j + 1) ≤ rem
  · have hj' : j + 1 < 9 := (Nat.pow_lt_pow_iff_right (by norm_num)).mp (lt_of_le_of_lt hmore hrem)
    have hpow : 10 ^ (j + 1) * 10 ≤ 10 ^ 9 := by
      rw [← pow_succ]
      exact Nat.pow_le_pow_right (by norm_num) (by omega)
    rw [if_pos hmore, fits_of_lt (by omega), some_bind]
    have hpos : 0 < 10 ^ (j + 1) := Nat.pow_pos (by norm_num)
    have hstep : 10 ^ (j + 1 + 1) = 10 ^ (j + 1) * 10 := pow_succ _ _
    exact Ends.pure ⟨⟨j + 1, by omega, by rw [hstep, Nat.add_assoc], fun _ => hmore⟩, by dsimp only; omega⟩
  · rw [if_neg hmore]
    refine Ends.pure ?_
    change _ = _
    rw [digitCount_eq (Nat.succ_pos j) (Nat.lt_of_not_le hmore) fun h => hle (by omega)]
    omega

/-- One decimal digit: it is the `k`-th one of `x`. -/
theorem putDecimal_ends {v k d : ℕ} (ht : t.Holds cap (groupedTail (chr '_') (groupWidth seps 3) (digitText upper 10 v k)))
    (hd : d % 10 = v / 10 ^ k % 10) (hcap : k + k / groupWidth seps 3 < cap) :
    Ends (t.put (chr '0' + d % 10))
      (TextBuf.Holds cap (grouped (chr '_') (groupWidth seps 3) (digitText upper 10 v (k + 1)))) := by
  refine (ht.put (by rwa [length_groupedTail, length_digitText])).mono fun t' ht' => ?_
  rw [digitText_succ, ← hd, digitChar_of_lt_ten upper _ (Nat.mod_lt _ (by norm_num)), grouped_cons]
  exact ht'

/-- The limbs below the top one. -/
theorem decimalLow_ends (upper : Bool) (h : DecimalLimbs size pout v) (ht : t.Holds cap [])
    (hcap : 9 * (size - 1) + 9 * (size - 1) / groupWidth seps 3 ≤ cap) :
    Ends (decimalLow seps pout size t) fun r => r.2 = 9 * (size - 1) ∧
      r.1.Holds cap (groupedTail (chr '_') (groupWidth seps 3) (digitText upper 10 v r.2)) := by
  unfold decimalLow
  refine forLoop_ends_zero (fun i (s : TextBuf × ℕ) => s.2 = 9 * i ∧
    s.1.Holds cap (groupedTail (chr '_') (groupWidth seps 3) (digitText upper 10 v s.2))) ⟨rfl, ht⟩ ?_
  rintro i ⟨t, _⟩ hi ⟨rfl, ht⟩
  dsimp only at ht ⊢
  have hlen := h.len
  have hcell : cell pout i = v / 10 ^ (9 * i) % 10 ^ 9 := by
    have := cell_eq_div_mod h.below (show i < size by omega)
    rwa [h.value, decimalBase, ← pow_mul] at this
  rw [rd_of_lt (by omega), some_bind, hcell]
  refine Ends.bind (P := fun (s : ℕ × TextBuf × ℕ) => s.2.2 = 9 * i + 9 ∧
    s.2.1.Holds cap (groupedTail (chr '_') (groupWidth seps 3) (digitText upper 10 v s.2.2))) ?_ ?_
  · refine (forLoop_ends_zero (fun j s => s.1 = v / 10 ^ (9 * i + j) % 10 ^ (9 - j) ∧ s.2.2 = 9 * i + j ∧
      s.2.1.Holds cap (groupedTail (chr '_') (groupWidth seps 3) (digitText upper 10 v s.2.2)))
      ⟨rfl, rfl, ht⟩ ?_).mono fun s hs => hs.2
    rintro j ⟨rem, t, _⟩ hj ⟨hrem, rfl, ht⟩
    dsimp only at hrem ht ⊢
    have hj' : j < 9 := hj
    have hk : 9 * i + j + 1 ≤ 9 * (size - 1) := by omega
    have hgroups : (9 * i + j + 1) / groupWidth seps 3 ≤ 9 * (size - 1) / groupWidth seps 3 := Nat.div_le_div_right hk
    have hgroups' : (9 * i + j) / groupWidth seps 3 ≤ (9 * i + j + 1) / groupWidth seps 3 :=
      Nat.div_le_div_right (Nat.le_succ _)
    have hsplit : 10 ^ (9 - j) = 10 * 10 ^ (9 - (j + 1)) := by
      rw [← pow_succ', show 9 - (j + 1) + 1 = 9 - j by omega]
    have hdig : rem % 10 = v / 10 ^ (9 * i + j) % 10 := by rw [hrem, hsplit, Nat.mod_mul_right_mod]
    refine Ends.bind (putDecimal_ends ht hdig (by omega)) fun t1 ht1 => ?_
    refine Ends.bind (putSep_ends ht1 (by rw [length_digitText]; omega) (by rw [length_digitText]; omega)
      length_digitText.symm) fun t2 ht2 => Ends.pure ⟨?_, rfl, ht2⟩
    dsimp only
    rw [hrem, hsplit, Nat.mod_mul_right_div_self, Nat.div_div_eq_div_mul, ← pow_succ, Nat.add_assoc]
  · rintro ⟨rem, t, _⟩ ⟨rfl, ht⟩
    exact Ends.pure ⟨rfl, ht⟩

/-- The digits of the top limb, of which there is at least one. -/
theorem decimalTop_ends {k : ℕ} (ht : t.Holds cap (groupedTail (chr '_') (groupWidth seps 3) (digitText upper 10 v k)))
    (hk : k ≠ 0 → 10 ^ k ≤ v)
    (hcap : digitCount 10 v - 1 + (digitCount 10 v - 1) / groupWidth seps 3 < cap) :
    Ends (decimalTop seps (v / 10 ^ k) t k) fun r => r.2 = digitCount 10 v ∧
      r.1.Holds cap (grouped (chr '_') (groupWidth seps 3) (digitText upper 10 v r.2)) := by
  have hcount : ∀ k, (k ≠ 0 → 10 ^ k ≤ v) → k ≤ digitCount 10 v - 1 ∧
      k / groupWidth seps 3 ≤ (digitCount 10 v - 1) / groupWidth seps 3 := by
    intro k hk
    have hle : k ≤ digitCount 10 v - 1 := by
      rcases Nat.eq_zero_or_pos k with rfl | hpos
      · exact Nat.zero_le _
      · exact Nat.le_log_of_pow_le (by norm_num) (hk (by omega))
    exact ⟨hle, Nat.div_le_div_right hle⟩
  refine loop_ends (fun s => s.1 = v / 10 ^ s.2.2 ∧ (s.2.2 ≠ 0 → 10 ^ s.2.2 ≤ v) ∧
    s.2.1.Holds cap (groupedTail (chr '_') (groupWidth seps 3) (digitText upper 10 v s.2.2)))
    (fun s => s.1) ⟨rfl, hk, ht⟩ (Nat.lt_succ_self _) ?_
  rintro ⟨rem, t, k⟩ ⟨hrem, hk, ht⟩
  dsimp only at hrem hk ht ⊢
  obtain ⟨hle, hgroups⟩ := hcount k hk
  have hnext : rem / 10 = v / 10 ^ (k + 1) := by rw [hrem, Nat.div_div_eq_div_mul, ← pow_succ]
  refine Ends.bind (putDecimal_ends ht (by rw [hrem]) (by omega)) fun t1 ht1 => ?_
  by_cases hmore : rem / 10 ≠ 0
  · have hpow : 10 ^ (k + 1) ≤ v := by
      by_contra hlt
      exact hmore (by rw [hnext, Nat.div_eq_of_lt (by omega)])
    obtain ⟨hle', hgroups'⟩ := hcount (k + 1) fun _ => hpow
    have hcond : (seps = true ∧ (k + 1) % decimalThousandsGroupings = 0 ∧ rem / 10 ≠ 0) ↔
        (seps = true ∧ (k + 1) % 3 = 0) := ⟨fun hc => ⟨hc.1, hc.2.1⟩, fun hc => ⟨hc.1, hc.2, hmore⟩⟩
    simp only [hcond]
    refine Ends.bind (putSep_ends ht1 (by rw [length_digitText]; omega) (by rw [length_digitText]; omega)
      length_digitText.symm) fun t2 ht2 => ?_
    rw [if_pos hmore]
    exact Ends.pure ⟨⟨hnext, fun _ => hpow, ht2⟩, Nat.div_lt_self (by omega) (by norm_num)⟩
  · rw [if_neg fun hc => hmore hc.2.2, some_bind, if_neg hmore]
    refine Ends.pure ⟨(digitCount_eq (Nat.succ_pos k) ?_ fun h1 => hk (by omega)).symm, ht1⟩
    by_contra hge
    have := Nat.div_pos (Nat.le_of_not_lt hge) (Nat.pow_pos (n := k + 1) (show 0 < 10 by norm_num))
    rw [Nat.succ_eq_add_one, ← hnext] at this
    omega

/-- The digits of a number are those of its top limb and nine for each limb below. -/
theorem digitCount_limbs (h : DecimalLimbs size pout v) (hsize : 0 < size) :
    digitCount 10 v = 9 * (size - 1) + digitCount 10 (v / 10 ^ (9 * (size - 1))) := by
  have hlt := lt_pow_digitCount (r := 10) (x := v / 10 ^ (9 * (size - 1))) (by norm_num)
  rcases Nat.lt_or_ge 1 size with hmany | hone
  swap
  · rw [show size - 1 = 0 by omega, Nat.mul_zero, pow_zero, Nat.div_one, Nat.zero_add]
  have htop := h.top hmany
  rw [decimalBase, ← pow_mul] at htop
  refine digitCount_eq (by unfold digitCount; omega) ?_ fun _ => ?_
  · rw [pow_add]
    rw [Nat.mul_comm]
    exact Nat.lt_mul_of_div_lt hlt (by positivity)
  · have hne : v / 10 ^ (9 * (size - 1)) ≠ 0 := by
      have := Nat.div_pos htop (by positivity)
      omega
    have hle := Nat.pow_log_le_self 10 hne
    rw [Nat.le_div_iff_mul_le (by positivity), Nat.mul_comm, ← pow_add] at hle
    exact hle

/-- What a decimal prints: the sign and the digits in groups of three. -/
theorem deeIntPrintDecimal_ends {flags : PrintFlags} {precision : ℕ} (hx : x.Canonical) (hsize : 30 * x.absSize < 2 ^ 63)
    (hprec : precision < 2 ^ 64) :
    Ends (deeIntPrintDecimal x flags precision) fun r => r = .ok (signText x flags ++
      grouped (chr '_') (groupWidth flags.seps 3)
        (digitText flags.upper 10 x.mag (max precision (digitCount 10 x.mag)))) := by
  unfold deeIntPrintDecimal
  dsimp only
  rw [if_neg (by unfold ssizeMax digitBits; omega)]
  refine Ends.bind (decimalLimbs_ends hx (by simp only [List.length_replicate, digitBits, decimalShift]; omega)) ?_
  rintro ⟨size, pout⟩ ⟨hlimbs, hlen⟩
  dsimp only at hlimbs hlen ⊢
  replace hlen : pout.length = 1 + x.absSize * 30 / 27 := hlen.trans List.length_replicate
  refine Ends.bind (P := fun r => 0 < r.1 ∧ DecimalLimbs r.1 r.2 x.mag ∧ r.1 ≤ 1 + x.absSize * 30 / 27) ?_ ?_
  · by_cases hzero : size = 0
    · subst hzero
      have hmag : x.mag = 0 := hlimbs.value.symm
      rw [if_pos rfl, wr_of_lt (by omega)]
      refine Ends.pure ⟨Nat.one_pos, ⟨?_, ?_, fun i hi => ?_, fun h1 => absurd h1 (lt_irrefl 1)⟩, by dsimp only; omega⟩
      · rw [List.length_set]
        dsimp only
        omega
      · dsimp only
        rw [seg_one, cell_set_self (by omega), hmag]
      · dsimp only at hi ⊢
        rw [show 0 + i = 0 by omega, cell_set_self (by omega)]
        norm_num
    · rw [if_neg hzero]
      exact Ends.pure ⟨by dsimp only; omega, hlimbs, by dsimp only; have := hlimbs.len; omega⟩
  rintro ⟨size, pout⟩ ⟨hpos, hlimbs, hle⟩
  dsimp only at hpos hlimbs hle ⊢
  have hroom := hlimbs.len
  have hcount := digitCount_limbs hlimbs hpos
  have htop : cell pout (size - 1) = x.mag / 10 ^ (9 * (size - 1)) := by
    have hcell := cell_eq_div_mod hlimbs.below (show size - 1 < size by omega)
    have hlt := seg_lt hlimbs.below
    rw [hlimbs.value] at hcell hlt
    rw [show size = size - 1 + 1 by omega, pow_succ] at hlt
    rwa [Nat.mod_eq_of_lt (Nat.div_lt_of_lt_mul hlt), decimalBase, ← pow_mul] at hcell
  have htopLt : cell pout (size - 1) < decimalBase := by
    have := hlimbs.below (size - 1) (by omega)
    rwa [Nat.zero_add] at this
  rw [rd_of_lt (by omega), some_bind, htop]
  rw [htop] at htopLt
  refine Ends.bind (decimalBufsize_ends htopLt) fun bufsize hbuf => ?_
  have hbuf' : bufsize = 1 + digitCount 10 x.mag := by omega
  subst hbuf'
  have hN : digitCount 10 x.mag ≤ 9 * size := by
    have hlt := seg_lt hlimbs.below
    rw [hlimbs.value, decimalBase, ← pow_mul] at hlt
    exact Nat.log_lt_of_lt_pow' (by omega) hlt
  have hlow : 9 * (size - 1) ≤ digitCount 10 x.mag - 1 := by
    have : 0 < digitCount 10 (x.mag / 10 ^ (9 * (size - 1))) := Nat.succ_pos _
    omega
  have hpos10 : 0 < digitCount 10 x.mag := Nat.succ_pos _
  generalize hbufsize : (if flags.seps then 1 + digitCount 10 x.mag + (1 + digitCount 10 x.mag) / decimalThousandsGroupings
    else 1 + digitCount 10 x.mag) = bufsize
  have hcap : 1 + (digitCount 10 x.mag + (digitCount 10 x.mag - 1) / groupWidth flags.seps 3) ≤ bufsize ∧
      bufsize < 2 ^ 64 := by
    rw [← hbufsize]
    unfold groupWidth
    split_ifs
    · unfold decimalThousandsGroupings
      omega
    · rw [Nat.div_zero]
      omega
  have hgroups : 9 * (size - 1) / groupWidth flags.seps 3 ≤ (digitCount 10 x.mag - 1) / groupWidth flags.seps 3 :=
    Nat.div_le_div_right hlow
  rw [fits_of_lt hcap.2, some_bind]
  refine Ends.bind (decimalLow_ends flags.upper hlimbs TextBuf.alloc_holds ?_) ?_
  · omega
  rintro ⟨t, _⟩ ⟨rfl, ht⟩
  refine Ends.bind (decimalTop_ends ht (fun hk => ?_) (by omega)) ?_
  · have := hlimbs.top (by omega)
    rwa [decimalBase, ← pow_mul] at this
  rintro ⟨t, _⟩ ⟨rfl, ht⟩
  have hsign := length_signText_le x flags
  dsimp only at ht ⊢
  refine Ends.bind (printPadded_ends (g := 3) (Or.inl rfl) (by norm_num) (by norm_num) hpos10
    (lt_pow_digitCount (by norm_num)) hprec ht (by omega)) fun text htext => Ends.pure (by rw [htext])

end Decimal

/-! ### The printed text -/

/-- The size of the digit groups of a radix. -/
def groupingsOf (radix : ℕ) : ℕ := if radix = 10 then 3 else 4

/-- What `FNUMSYS` adds: the prefix of the radix, and nothing for decimals. -/
def prefixText (radix : ℕ) (flags : PrintFlags) : List ℕ :=
  if flags.numsys ∧ radix ≠ 10 then numsysText (deeAsciiItoaDigits flags.upper) (Nat.log 2 radix) else []

/-- The digits: at least `precision` of them. -/
def printedDigits (self : DeeInt) (radix : ℕ) (flags : PrintFlags) (precision : ℕ) : List ℕ :=
  digitText flags.upper radix self.mag (max precision (digitCount radix self.mag))

/-- The text of an integer. -/
def printedText (self : DeeInt) (radix : ℕ) (flags : PrintFlags) (precision : ℕ) : List ℕ :=
  signText self flags ++ prefixText radix flags ++
    grouped (chr '_') (groupWidth flags.seps (groupingsOf radix)) (printedDigits self radix flags precision)

/-- The radices that are supported. -/
def Printable (radix : ℕ) : Prop := radix ∈ [2, 4, 8, 10, 16]

section Printed

variable {x : DeeInt} {radix precision : ℕ} {flags : PrintFlags}

theorem two_pow_ne_ten : ∀ b ≤ 4, 2 ^ b ≠ 10 := by decide

/-- The printed text in a power-of-two radix. -/
theorem printedText_two_pow {b : ℕ} (hb4 : b ≤ 4) : printedText x (2 ^ b) flags precision = signText x flags ++
    (if flags.numsys then numsysText (deeAsciiItoaDigits flags.upper) b else []) ++
    grouped (chr '_') (groupWidth flags.seps 4)
      (digitText flags.upper (2 ^ b) x.mag (max precision (digitCount (2 ^ b) x.mag))) := by
  have hne := two_pow_ne_ten b hb4
  rw [printedText, printedDigits, groupingsOf, if_neg hne, prefixText, Nat.log_pow (by norm_num)]
  simp only [hne, ne_eq, not_false_eq_true, and_true]

/-- The printed text in decimal, which has no prefix. -/
theorem printedText_ten : printedText x 10 flags precision = signText x flags ++
    grouped (chr '_') (groupWidth flags.seps 3)
      (digitText flags.upper 10 x.mag (max precision (digitCount 10 x.mag))) := by
  rw [printedText, printedDigits, groupingsOf, if_pos rfl, prefixText, if_neg (by simp), List.append_nil]

theorem deeIntPrint_ends (hx : x.Canonical) (hsize : 30 * x.absSize < 2 ^ 63) (hradix : Printable radix)
    (hprec : precision < 2 ^ 64) :
    Ends (deeIntPrint x radix flags precision) fun r => r = .ok (printedText x radix flags precision) := by
  have htwo : ∀ b, 0 < b → b ≤ 4 → Ends (printPowerOfTwo x flags precision b (2 ^ b - 1)) fun r =>
      r = .ok (printedText x (2 ^ b) flags precision) := fun b hb hb4 => by
    rw [printedText_two_pow hb4]
    exact printPowerOfTwo_ends hx hsize hprec hb hb4
  simp only [Printable, List.mem_cons, List.not_mem_nil, or_false] at hradix
  rcases hradix with rfl | rfl | rfl | rfl | rfl
  · exact htwo 1 (by norm_num) (by norm_num)
  · exact htwo 2 (by norm_num) (by norm_num)
  · exact htwo 3 (by norm_num) (by norm_num)
  · rw [printedText_ten]
    exact deeIntPrintDecimal_ends hx hsize hprec
  · exact htwo 4 (by norm_num) (by norm_num)

end Printed

end Deemon.Int
