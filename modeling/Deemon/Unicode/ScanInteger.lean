import Deemon.Unicode.ScanData
import Mathlib.Data.List.TakeWhile

/-!
# Integer fields of a scanner

`scanInteger` is the integer scan of `ssi_next`: signs, the prefix that chooses the radix of `%i` and `%u`, and the digits.
A letter costs a character of the width, any other digit none, the letters of radix 16 go up to `g`, and behind a leading
zero the next byte is looked at before the end of the data is. A field is the longest text of the documented form that
fits the width (`LongestField`), and `takesField_iff` says exactly when the scan takes that text.
-/

namespace Deemon.Unicode

open Deemon.Run

/-! ### The scan -/

/-- The conversions that scan an integer. -/
inductive IntConversion where
  | o
  | d
  | x
  | p
  | i
  | u
  deriving DecidableEq, Repr

/-- `radix`: zero when the prefix of the number chooses it. -/
def IntConversion.radix : IntConversion → ℕ
  | o => 8
  | d => 10
  | x | p => 16
  | i | u => 0

def isSign (ch : ℕ) : Bool := ch = chr '+' ∨ ch = chr '-'

def isHexMark (ch : ℕ) : Bool := ch = chr 'x' ∨ ch = chr 'X'

def isBinMark (ch : ℕ) : Bool := ch = chr 'b' ∨ ch = chr 'B'

/-- `DeeUni_AsDigit`. -/
def UniTable.isDigit (uni : UniTable) (radix ch : ℕ) : Bool := uni.deeUniAsDigitVal ch < radix

/-- The letters that the digit loop takes without a look at the digit table. -/
def isRadixLetter (scanRadix ch : ℕ) : Bool :=
  10 < scanRadix ∧ (chr 'a' ≤ ch ∧ ch ≤ chr 'a' + (scanRadix - 10) ∨ chr 'A' ≤ ch ∧ ch ≤ chr 'A' + (scanRadix - 10))

/-- The loop over the signs: `data` and the width that is left. -/
def scanSigns (S : ScanData) (data width : ℕ) : Option (ℕ × ℕ) :=
  loop (fun (data, width) =>
    if data < S.dataEnd then do
      let ch ← rd S.memory data
      some (if isSign ch ∧ width ≠ 0 then .next (data + 1, width - 1) else .done (data, width))
    else some (.done (data, width))) (S.dataEnd + 1) (data, width)

/-- The prefix of the number: `scan_radix`, `data` and the width that is left. -/
def scanPrefix (uni : UniTable) (S : ScanData) (radix data width : ℕ) : Option (ℕ × ℕ × ℕ) :=
  if radix = 0 ∧ data < S.dataEnd ∧ width ≠ 0 then do
    let (ch, next) ← S.readChar data
    if uni.deeUniAsDigitVal ch = 0 then
      if width - 1 = 0 then some (8, next, width - 1)
      else do
        -- `*data` is read wherever `data` is
        let ch ← rd S.memory next
        some (if isHexMark ch then (16, next + 1, width - 2) else if isBinMark ch then (2, next + 1, width - 2)
          else (8, next, width - 1))
    else some (10, data, width)
  else some (radix, data, width)

/-- The loop over the digits. -/
def scanDigits (uni : UniTable) (S : ScanData) (scanRadix data width : ℕ) : Option ℕ :=
  loop (fun (data, width) =>
    if data < S.dataEnd ∧ width ≠ 0 then do
      let dataCh ← rd S.memory data
      if isRadixLetter scanRadix dataCh then some (.next (data + 1, width - 1))
      else do
        let (ch, next) ← S.readChar data
        some (if uni.isDigit scanRadix ch then .next (next, width) else .done data)
    else some (.done data)) (S.dataEnd + 1) (data, width)

/-- `do_integer_scan`: where the field ends. -/
def scanInteger (uni : UniTable) (S : ScanData) (radix data width : ℕ) : Option ℕ := do
  let (data, width) ← scanSigns S data width
  let (scanRadix, data, width) ← scanPrefix uni S radix data width
  scanDigits uni S scanRadix data width

/-! ### Fields -/

/-- What follows the signs of a field: the digits of a fixed radix, or a number with the prefix that chooses its radix. -/
inductive FieldBody (uni : UniTable) : ℕ → List ℕ → Prop where
  | fixed {radix : ℕ} {ds : List ℕ} (hradix : radix ≠ 0) (hds : ∀ d ∈ ds, uni.isDigit radix d) : FieldBody uni radix ds
  | empty : FieldBody uni 0 []
  | decimal {ch : ℕ} {ds : List ℕ} (hch : uni.deeUniAsDigitVal ch ≠ 0) (hds : ∀ d ∈ ch :: ds, uni.isDigit 10 d) :
    FieldBody uni 0 (ch :: ds)
  | octal {ch : ℕ} {ds : List ℕ} (hch : uni.deeUniAsDigitVal ch = 0) (hds : ∀ d ∈ ds, uni.isDigit 8 d) :
    FieldBody uni 0 (ch :: ds)
  | hex {ch mark : ℕ} {ds : List ℕ} (hch : uni.deeUniAsDigitVal ch = 0) (hmark : isHexMark mark)
    (hds : ∀ d ∈ ds, uni.isDigit 16 d) : FieldBody uni 0 (ch :: mark :: ds)
  | bin {ch mark : ℕ} {ds : List ℕ} (hch : uni.deeUniAsDigitVal ch = 0) (hmark : isBinMark mark)
    (hds : ∀ d ∈ ds, uni.isDigit 2 d) : FieldBody uni 0 (ch :: mark :: ds)

/-- Signs, and what follows them. -/
def IntField (uni : UniTable) (radix : ℕ) (text : List ℕ) : Prop :=
  ∃ signs body, text = signs ++ body ∧ (∀ ch ∈ signs, isSign ch) ∧ FieldBody uni radix body

/-- `text` is the longest field of at most `width` characters that `data` starts with. -/
structure LongestField (uni : UniTable) (radix width : ℕ) (data text : List ℕ) : Prop where
  starts : text <+: data
  field : IntField uni radix text
  fits : text.length ≤ width
  longest : ∀ t, t <+: data → IntField uni radix t → t.length ≤ width → t.length ≤ text.length

/-- The scan from the `k`-th character of the data on takes the longest field. -/
def TakesField (uni : UniTable) (S : ScanData) (radix width k : ℕ) : Prop :=
  ∃ text, LongestField uni radix width (S.chars.drop k) text ∧
    scanInteger uni S radix (S.pos k) width = some (S.pos (k + text.length))

/-- How many signs fit the width. -/
def signCount (width : ℕ) (data : List ℕ) : ℕ := min width (data.takeWhile isSign).length

/-- The radix that the text behind the signs chooses, and the length of the prefix. -/
def radixPrefix (uni : UniTable) (radix width : ℕ) : List ℕ → ℕ × ℕ
  | [] => (radix, 0)
  | ch :: rest =>
    if radix = 0 ∧ width ≠ 0 then
      if uni.deeUniAsDigitVal ch = 0 then
        if 1 < width ∧ rest.head?.any isHexMark then (16, 2)
        else if 1 < width ∧ rest.head?.any isBinMark then (2, 2)
        else (8, 1)
      else (10, 0)
    else (radix, 0)

/-- How many digits fit the width. -/
def digitCount (uni : UniTable) (radix width : ℕ) (data : List ℕ) : ℕ :=
  min width (data.takeWhile (uni.isDigit radix)).length

/-- How many characters the digit loop takes. -/
def digitsTaken (uni : UniTable) (scanRadix : ℕ) : ℕ → List ℕ → ℕ
  | _, [] => 0
  | 0, _ :: _ => 0
  | width + 1, ch :: rest =>
    if isRadixLetter scanRadix ch then digitsTaken uni scanRadix width rest + 1
    else if uni.isDigit scanRadix ch then digitsTaken uni scanRadix (width + 1) rest + 1
    else 0

/-- The digit loop does not go wrong: letters alone fill the width, or the digits fit it and no letter follows that is
none of the radix. -/
def Charged (uni : UniTable) (scanRadix width : ℕ) (data : List ℕ) : Prop :=
  let digits := data.takeWhile (uni.isDigit scanRadix)
  width ≤ digits.length ∧ (∀ ch ∈ digits.take width, isRadixLetter scanRadix ch) ∨
    digits.length ≤ width ∧ ∀ ch ∈ (data.drop digits.length).head?, isRadixLetter scanRadix ch = false

/-- A leading zero is the last character of the data, and the width goes on. -/
def LoneZero (uni : UniTable) (radix width : ℕ) (data : List ℕ) : Prop :=
  radix = 0 ∧ 1 < width ∧ ∃ ch, data = [ch] ∧ uni.deeUniAsDigitVal ch = 0

/-- The byte behind the data passes for no mark. -/
def ScanData.NoMarkBehind (S : ScanData) : Prop := ∃ b, S.behind.head? = some b ∧ isHexMark b = false ∧ isBinMark b = false

/-- The condition on the data. -/
def MeetsField (uni : UniTable) (S : ScanData) (radix width k : ℕ) : Prop :=
  let data := S.chars.drop k
  let signs := signCount width data
  let (scanRadix, n) := radixPrefix uni radix (width - signs) (data.drop signs)
  (LoneZero uni radix (width - signs) (data.drop signs) →
      S.NoMarkBehind) ∧
    Charged uni scanRadix (width - signs - n) ((data.drop signs).drop n)

/-! ### Runs of characters -/

section Runs

variable {p : ℕ → Bool} {t l : List ℕ} {n : ℕ}

theorem length_le_takeWhile (ht : t <+: l) (hall : ∀ ch ∈ t, p ch) : t.length ≤ (l.takeWhile p).length := by
  obtain ⟨u, rfl⟩ := ht
  rw [List.takeWhile_append_of_pos hall, List.length_append]
  exact Nat.le_add_right _ _

theorem of_mem_take {ch : ℕ} (hn : n ≤ (l.takeWhile p).length) (h : ch ∈ l.take n) : p ch := by
  have hfront : l.take n <+: l.takeWhile p := by
    apply List.prefix_of_prefix_length_le (List.take_prefix n l) (List.takeWhile_prefix p)
    rw [List.length_take]
    omega
  exact List.mem_takeWhile_imp (hfront.subset h)

end Runs

/-! ### Digits -/

section Digits

variable {uni : UniTable} {scanRadix width data ch : ℕ} {rest : List ℕ} {S : ScanData}

theorem digitsTaken_zero : digitsTaken uni scanRadix 0 rest = 0 := by
  cases rest <;> rfl

theorem digitsTaken_letter (hletter : isRadixLetter scanRadix ch = true) (hwidth : width ≠ 0) :
    digitsTaken uni scanRadix width (ch :: rest) = digitsTaken uni scanRadix (width - 1) rest + 1 := by
  obtain ⟨width, rfl⟩ := Nat.exists_eq_succ_of_ne_zero hwidth
  rw [digitsTaken, if_pos hletter]
  rfl

theorem digitsTaken_digit (hletter : ¬ isRadixLetter scanRadix ch = true) (hdigit : uni.isDigit scanRadix ch = true)
    (hwidth : width ≠ 0) : digitsTaken uni scanRadix width (ch :: rest) = digitsTaken uni scanRadix width rest + 1 := by
  obtain ⟨width, rfl⟩ := Nat.exists_eq_succ_of_ne_zero hwidth
  rw [digitsTaken, if_neg hletter, if_pos hdigit]

theorem digitsTaken_other (hletter : ¬ isRadixLetter scanRadix ch = true) (hdigit : ¬ uni.isDigit scanRadix ch = true) :
    digitsTaken uni scanRadix width (ch :: rest) = 0 := by
  cases width with
  | zero => rfl
  | succ width => rw [digitsTaken, if_neg hletter, if_neg hdigit]

theorem isRadixLetter_lt (hradix : scanRadix ≤ 16) (h : isRadixLetter scanRadix ch = true) : ch < 0x80 := by
  simp only [isRadixLetter, chr, Char.reduceToNat, decide_eq_true_eq] at h
  omega

/-- What holds of ASCII characters only holds of a byte of the data when it holds of the character there. -/
theorem eq_of_peek {q : ℕ → Bool} {b : ℕ} (hq : ∀ ch, q ch = true → ch < 0x80) (h : b = ch ∨ 0x80 ≤ b ∧ 0x80 ≤ ch) :
    q b = q ch := by
  rcases h with rfl | ⟨hb, hch⟩
  · rfl
  · rw [Bool.eq_iff_iff]
    exact ⟨fun h => absurd (hq b h) (Nat.not_lt.mpr hb), fun h => absurd (hq ch h) (Nat.not_lt.mpr hch)⟩

/-- The digit loop ends behind the characters that it takes. -/
theorem scanDigits_ends (hradix : scanRadix ≤ 16) (h : S.At data rest) :
    Ends (scanDigits uni S scanRadix data width) fun data' =>
      S.At data' (rest.drop (digitsTaken uni scanRadix width rest)) := by
  refine loop_ends
    (fun (data, w) => ∃ l, S.At data l ∧
      l.drop (digitsTaken uni scanRadix w l) = rest.drop (digitsTaken uni scanRadix width rest))
    (fun (data, _) => S.dataEnd - data) ⟨rest, h, rfl⟩ (by dsimp only; omega) ?_
  rintro ⟨data, w⟩ ⟨l, hat, hl⟩
  dsimp only at hat hl ⊢
  cases l with
  | nil =>
    rw [if_neg (fun hlt => Nat.lt_irrefl _ (hat.end_of_nil ▸ hlt.1))]
    refine Ends.pure ?_
    rwa [← hl, List.drop_nil]
  | cons ch l =>
    by_cases hw : w = 0
    · rw [if_neg (fun hlt => hlt.2 hw)]
      refine Ends.pure ?_
      subst hw
      rwa [← hl, digitsTaken_zero]
    · have hlt := hat.lt
      rw [if_pos ⟨hlt, hw⟩]
      obtain ⟨b, hb, hch⟩ := hat.peek
      rw [hb, some_bind, eq_of_peek (fun ch h => isRadixLetter_lt hradix h) hch]
      by_cases hl' : isRadixLetter scanRadix ch = true
      · rw [if_pos hl']
        refine Ends.pure ⟨⟨l, hat.succ (isRadixLetter_lt hradix hl'), ?_⟩, by dsimp only; omega⟩
        rw [← hl, digitsTaken_letter hl' hw, List.drop_succ_cons]
      · rw [if_neg hl', hat.readChar, some_bind]
        dsimp only
        by_cases hd : uni.isDigit scanRadix ch = true
        · rw [if_pos hd]
          have hpos := @ScanData.length_encode_singleton_pos S ch
          refine Ends.pure ⟨⟨l, hat.next, ?_⟩, by dsimp only; omega⟩
          rw [← hl, digitsTaken_digit hl' hd hw, List.drop_succ_cons]
        · rw [if_neg hd]
          refine Ends.pure ?_
          rwa [← hl, digitsTaken_other hl' hd]

theorem scanDigits_of_le (h : S.dataEnd ≤ data) : scanDigits uni S scanRadix data width = some data := by
  unfold scanDigits
  exact loop_done (if_neg fun hlt => Nat.not_lt.mpr h hlt.1)

theorem digitCount_digit (hdigit : uni.isDigit scanRadix ch = true) :
    digitCount uni scanRadix (width + 1) (ch :: rest) = digitCount uni scanRadix width rest + 1 := by
  rw [digitCount, digitCount, List.takeWhile_cons_of_pos hdigit, List.length_cons]
  omega

theorem digitCount_other (hdigit : ¬ uni.isDigit scanRadix ch = true) : digitCount uni scanRadix width (ch :: rest) = 0 := by
  rw [digitCount, List.takeWhile_cons_of_neg hdigit, List.length_nil, Nat.min_zero]

/-- The digit loop never stops short. -/
theorem digitCount_le_taken (width : ℕ) (rest : List ℕ) :
    digitCount uni scanRadix width rest ≤ digitsTaken uni scanRadix width rest := by
  induction rest generalizing width with
  | nil => exact (Nat.min_zero width).le
  | cons ch rest ih =>
    cases width with
    | zero => exact (Nat.zero_min _).le
    | succ width =>
      by_cases hdigit : uni.isDigit scanRadix ch = true
      · rw [digitCount_digit hdigit]
        have hmore := ih (width + 1)
        have hless := ih width
        by_cases hletter : isRadixLetter scanRadix ch = true
        · rw [digitsTaken_letter hletter (Nat.add_one_ne_zero width), Nat.add_sub_cancel]
          omega
        · rw [digitsTaken_digit hletter hdigit (Nat.add_one_ne_zero width)]
          unfold digitCount at hmore hless ⊢
          omega
      · rw [digitCount_other hdigit]
        exact Nat.zero_le _

/-- The digit loop takes the digits that fit the width, and nothing else, exactly then. -/
theorem digitsTaken_eq_iff (width : ℕ) (rest : List ℕ) :
    digitsTaken uni scanRadix width rest = digitCount uni scanRadix width rest ↔ Charged uni scanRadix width rest := by
  induction rest generalizing width with
  | nil => simp [digitsTaken, digitCount, Charged]
  | cons ch rest ih =>
    by_cases hdigit : uni.isDigit scanRadix ch = true
    · cases width with
      | zero => simp [digitsTaken, digitCount, Charged]
      | succ width =>
        rw [digitCount_digit hdigit, Charged, List.takeWhile_cons_of_pos hdigit]
        simp only [List.length_cons, List.take_succ_cons, List.mem_cons, forall_eq_or_imp, List.drop_succ_cons,
          Nat.add_le_add_iff_right]
        by_cases hletter : isRadixLetter scanRadix ch = true
        · rw [digitsTaken_letter hletter (Nat.add_one_ne_zero width), Nat.add_sub_cancel, Nat.add_right_cancel_iff, ih,
            Charged]
          simp only [hletter, true_and]
        · have hmore := ih (width + 1)
          have hle := @digitCount_le_taken uni scanRadix (width + 1) rest
          rw [digitsTaken_digit hletter hdigit (Nat.add_one_ne_zero width), Nat.add_right_cancel_iff]
          simp only [hletter, false_and, and_false, false_or, Bool.false_eq_true]
          unfold digitCount at hmore hle ⊢
          constructor
          · intro heq
            have hfit : (rest.takeWhile (uni.isDigit scanRadix)).length ≤ width := by omega
            have hcharged := hmore.mp (by omega)
            rcases hcharged with hcharged | hcharged
            · omega
            · exact ⟨hfit, hcharged.2⟩
          · rintro ⟨hfit, hnext⟩
            have heq := hmore.mpr (.inr ⟨by omega, hnext⟩)
            omega
    · rw [digitCount_other hdigit, Charged, List.takeWhile_cons_of_neg hdigit]
      simp only [List.length_nil, List.take_nil, List.not_mem_nil, false_implies, implies_true, and_true, Nat.le_zero,
        Nat.zero_le, true_and, List.drop_zero, List.head?_cons, Option.mem_some_iff, forall_eq']
      by_cases hletter : isRadixLetter scanRadix ch = true
      · rw [hletter]
        cases width with
        | zero => simp [digitsTaken]
        | succ width => simp [digitsTaken_letter hletter]
      · rw [digitsTaken_other hletter hdigit]
        simp only [hletter, or_true]

end Digits

/-! ### Signs and prefix -/

section Head

variable {uni : UniTable} {radix width data ch : ℕ} {rest : List ℕ} {S : ScanData}

theorem signCount_sign (hsign : isSign ch = true) (hwidth : width ≠ 0) :
    signCount width (ch :: rest) = signCount (width - 1) rest + 1 := by
  rw [signCount, signCount, List.takeWhile_cons_of_pos hsign, List.length_cons]
  omega

theorem signCount_other (hsign : ¬ isSign ch = true) : signCount width (ch :: rest) = 0 := by
  rw [signCount, List.takeWhile_cons_of_neg hsign, List.length_nil, Nat.min_zero]

theorem isSign_lt (h : isSign ch = true) : ch < 0x80 := by
  simp only [isSign, chr, Char.reduceToNat, decide_eq_true_eq] at h
  omega

theorem scanSigns_ends (h : S.At data rest) : Ends (scanSigns S data width) fun (data', width') =>
    S.At data' (rest.drop (signCount width rest)) ∧ width' = width - signCount width rest := by
  refine loop_ends
    (fun (data, w) => ∃ l, S.At data l ∧ l.drop (signCount w l) = rest.drop (signCount width rest) ∧
      w - signCount w l = width - signCount width rest)
    (fun (data, _) => S.dataEnd - data) ⟨rest, h, rfl, rfl⟩ (by dsimp only; omega) ?_
  rintro ⟨data, w⟩ ⟨l, hat, hl, hw⟩
  dsimp only at hat hl hw ⊢
  cases l with
  | nil =>
    rw [if_neg (fun hlt => Nat.lt_irrefl _ (hat.end_of_nil ▸ hlt))]
    rw [signCount, List.takeWhile_nil, List.length_nil, Nat.min_zero] at hl hw
    exact Ends.pure ⟨hl ▸ hat, hw⟩
  | cons ch l =>
    have hlt := hat.lt
    rw [if_pos hlt]
    obtain ⟨b, hb, hch⟩ := hat.peek
    rw [hb, some_bind, eq_of_peek (fun ch h => isSign_lt h) hch]
    by_cases hsign : isSign ch = true
    · by_cases hwidth : w = 0
      · rw [if_neg (fun h => h.2 hwidth)]
        subst hwidth
        rw [signCount, Nat.zero_min] at hl hw
        exact Ends.pure ⟨hl ▸ hat, hw⟩
      · rw [if_pos ⟨hsign, hwidth⟩]
        rw [signCount_sign hsign hwidth] at hl hw
        rw [List.drop_succ_cons] at hl
        exact Ends.pure ⟨⟨l, hat.succ (isSign_lt hsign), hl, by dsimp only; omega⟩, by dsimp only; omega⟩
    · rw [if_neg (fun h => hsign h.1)]
      rw [signCount_other hsign] at hl hw
      exact Ends.pure ⟨hl ▸ hat, hw⟩

theorem isHexMark_lt (h : isHexMark ch = true) : ch < 0x80 := by
  simp only [isHexMark, chr, Char.reduceToNat, decide_eq_true_eq] at h
  omega

theorem isBinMark_lt (h : isBinMark ch = true) : ch < 0x80 := by
  simp only [isBinMark, chr, Char.reduceToNat, decide_eq_true_eq] at h
  omega

/-- The prefix is read as long as no leading zero ends the data. -/
theorem scanPrefix_ends (h : S.At data rest) (hzero : LoneZero uni radix width rest → S.NoMarkBehind) :
    Ends (scanPrefix uni S radix data width) fun (scanRadix, data', width') =>
      scanRadix = (radixPrefix uni radix width rest).1 ∧ S.At data' (rest.drop (radixPrefix uni radix width rest).2) ∧
        width' = width - (radixPrefix uni radix width rest).2 := by
  unfold scanPrefix
  cases rest with
  | nil =>
    rw [if_neg (fun hlt => Nat.lt_irrefl _ (h.end_of_nil ▸ hlt.2.1))]
    exact Ends.pure ⟨rfl, h, rfl⟩
  | cons ch rest =>
    have hlt := h.lt
    by_cases hauto : radix = 0 ∧ width ≠ 0
    · obtain ⟨hradix, hwidth⟩ := hauto
      rw [if_pos ⟨hradix, hlt, hwidth⟩, h.readChar, some_bind, radixPrefix, if_pos ⟨hradix, hwidth⟩]
      dsimp only
      by_cases hch : uni.deeUniAsDigitVal ch = 0
      · rw [if_pos hch, if_pos hch]
        by_cases hone : width - 1 = 0
        · rw [if_pos hone, if_neg (fun h => absurd h.1 (by omega)), if_neg (fun h => absurd h.1 (by omega))]
          exact Ends.pure ⟨rfl, h.next, rfl⟩
        · have hmore : 1 < width := by omega
          rw [if_neg hone]
          cases rest with
          | nil =>
            obtain ⟨b, hb, hhex, hbin⟩ := hzero ⟨hradix, hmore, ch, rfl, hch⟩
            rw [h.next.end_of_nil, ScanData.rd_dataEnd, hb, some_bind, hhex, hbin]
            have hnext := h.next
            rw [h.next.end_of_nil] at hnext
            simp only [List.head?_nil, Option.any_none, Bool.false_eq_true, and_false, if_false]
            exact Ends.pure ⟨rfl, hnext, rfl⟩
          | cons mark rest =>
            obtain ⟨b, hb, hmark⟩ := h.next.peek
            rw [hb, some_bind, eq_of_peek (fun ch h => isHexMark_lt h) hmark, eq_of_peek (fun ch h => isBinMark_lt h) hmark]
            simp only [hmore, List.head?_cons, Option.any_some, true_and]
            by_cases hhex : isHexMark mark = true
            · rw [if_pos hhex, if_pos hhex]
              exact Ends.pure ⟨rfl, h.next.succ (isHexMark_lt hhex), rfl⟩
            · rw [if_neg hhex, if_neg hhex]
              by_cases hbin : isBinMark mark = true
              · rw [if_pos hbin, if_pos hbin]
                exact Ends.pure ⟨rfl, h.next.succ (isBinMark_lt hbin), rfl⟩
              · rw [if_neg hbin, if_neg hbin]
                exact Ends.pure ⟨rfl, h.next, rfl⟩
      · rw [if_neg hch, if_neg hch]
        exact Ends.pure ⟨rfl, h, rfl⟩
    · rw [if_neg (fun hall => hauto ⟨hall.1, hall.2.2⟩), radixPrefix, if_neg hauto]
      exact Ends.pure ⟨rfl, h, rfl⟩

/-- Behind a leading zero that ends the data, a byte that is not part of it is taken, or memory is left. -/
theorem scanPrefix_past (h : S.At data rest) (hzero : LoneZero uni radix width rest) (hmark : ¬ S.NoMarkBehind) :
    ∀ r, scanPrefix uni S radix data width = some r → S.dataEnd < r.2.1 := by
  obtain ⟨hradix, hmore, ch, rfl, hch⟩ := hzero
  intro r hr
  unfold scanPrefix at hr
  rw [if_pos ⟨hradix, h.lt, by omega⟩, h.readChar, some_bind] at hr
  dsimp only at hr
  rw [if_pos hch, if_neg (by omega), h.next.end_of_nil, ScanData.rd_dataEnd] at hr
  cases hb : S.behind.head? with
  | none =>
    rw [hb] at hr
    cases hr
  | some b =>
    rw [hb, some_bind, Option.some.injEq] at hr
    by_cases hhex : isHexMark b = true
    · rw [if_pos hhex] at hr
      subst hr
      exact Nat.lt_succ_self _
    · rw [if_neg hhex] at hr
      by_cases hbin : isBinMark b = true
      · rw [if_pos hbin] at hr
        subst hr
        exact Nat.lt_succ_self _
      · exact absurd ⟨b, hb, Bool.eq_false_iff.mpr hhex, Bool.eq_false_iff.mpr hbin⟩ hmark

end Head

/-! ### The longest field -/

section Longest

variable {uni : UniTable} {radix width ch : ℕ} {data t rest ds : List ℕ}

/-- How many characters behind the signs belong to the field. -/
def bodyLength (uni : UniTable) (radix width : ℕ) (data : List ℕ) : ℕ :=
  let (scanRadix, n) := radixPrefix uni radix width data
  n + digitCount uni scanRadix (width - n) (data.drop n)

/-- How many characters belong to the field. -/
def fieldLength (uni : UniTable) (radix width : ℕ) (data : List ℕ) : ℕ :=
  signCount width data + bodyLength uni radix (width - signCount width data) (data.drop (signCount width data))

theorem not_isDigit_of_sign {scanRadix : ℕ} (hradix : scanRadix ≤ 16) (hsign : isSign ch = true) :
    ¬ uni.isDigit scanRadix ch = true := by
  simp only [isSign, decide_eq_true_eq] at hsign
  have hval : uni.deeUniAsDigitVal ch = 0xff := by
    rcases hsign with rfl | rfl <;> rfl
  simp only [UniTable.isDigit, hval, decide_eq_true_eq]
  omega

theorem not_isDigit_of_hexMark (hmark : isHexMark ch = true) : ¬ uni.isDigit 8 ch = true := by
  simp only [isHexMark, decide_eq_true_eq] at hmark
  have hval : uni.deeUniAsDigitVal ch = 0xff := by
    rcases hmark with rfl | rfl <;> rfl
  simp [UniTable.isDigit, hval]

theorem not_isDigit_of_binMark (hmark : isBinMark ch = true) : ¬ uni.isDigit 8 ch = true := by
  simp only [isBinMark, decide_eq_true_eq] at hmark
  have hval : uni.deeUniAsDigitVal ch = 11 := by
    rcases hmark with rfl | rfl <;> rfl
  simp [UniTable.isDigit, hval]

theorem not_hexMark_of_binMark (hmark : isBinMark ch = true) : ¬ isHexMark ch = true := by
  simp only [isBinMark, decide_eq_true_eq] at hmark
  rcases hmark with rfl | rfl <;> decide

theorem radixPrefix_fixed (h : ¬ (radix = 0 ∧ width ≠ 0)) : radixPrefix uni radix width data = (radix, 0) := by
  cases data with
  | nil => rfl
  | cons ch rest => rw [radixPrefix, if_neg h]

theorem bodyLength_fixed (h : ¬ (radix = 0 ∧ width ≠ 0)) :
    bodyLength uni radix width data = digitCount uni radix width data := by
  rw [bodyLength, radixPrefix_fixed h]
  exact Nat.zero_add _

theorem bodyLength_decimal (hch : uni.deeUniAsDigitVal ch ≠ 0) (hwidth : width ≠ 0) :
    bodyLength uni 0 width (ch :: rest) = digitCount uni 10 width (ch :: rest) := by
  rw [bodyLength, radixPrefix, if_pos ⟨rfl, hwidth⟩, if_neg hch]
  exact Nat.zero_add _

/-- What the prefix of a number with a leading zero is. -/
theorem bodyLength_zero (hch : uni.deeUniAsDigitVal ch = 0) (hwidth : width ≠ 0) :
    bodyLength uni 0 width (ch :: rest) =
      if 1 < width ∧ rest.head?.any isHexMark then 2 + digitCount uni 16 (width - 2) (rest.drop 1)
      else if 1 < width ∧ rest.head?.any isBinMark then 2 + digitCount uni 2 (width - 2) (rest.drop 1)
      else 1 + digitCount uni 8 (width - 1) rest := by
  rw [bodyLength, radixPrefix, if_pos ⟨rfl, hwidth⟩, if_pos hch]
  split_ifs <;> rfl

theorem fieldBody_take (width : ℕ) (data : List ℕ) : FieldBody uni radix (data.take (bodyLength uni radix width data)) := by
  by_cases hauto : radix = 0 ∧ width ≠ 0
  · obtain ⟨rfl, hwidth⟩ := hauto
    cases data with
    | nil =>
      rw [List.take_nil]
      exact .empty
    | cons ch rest =>
      by_cases hch : uni.deeUniAsDigitVal ch = 0
      · rw [bodyLength_zero hch hwidth]
        cases rest with
        | nil =>
          simp only [List.head?_nil, Option.any_none, Bool.false_eq_true, and_false, if_false]
          rw [Nat.add_comm, List.take_succ_cons, List.take_nil]
          exact .octal hch (List.forall_mem_nil _)
        | cons mark rest =>
          simp only [List.head?_cons, Option.any_some, List.drop_succ_cons, List.drop_zero]
          split_ifs with hhex hbin
          · rw [Nat.add_comm, List.take_succ_cons, List.take_succ_cons]
            exact .hex hch hhex.2 fun d hd => of_mem_take (Nat.min_le_right _ _) hd
          · rw [Nat.add_comm, List.take_succ_cons, List.take_succ_cons]
            exact .bin hch hbin.2 fun d hd => of_mem_take (Nat.min_le_right _ _) hd
          · rw [Nat.add_comm, List.take_succ_cons]
            exact .octal hch fun d hd => of_mem_take (Nat.min_le_right _ _) hd
      · rw [bodyLength_decimal hch hwidth]
        have hds := fun d hd => @of_mem_take (uni.isDigit 10) (ch :: rest) _ d (Nat.min_le_right width _) hd
        change ∀ d, d ∈ List.take (digitCount uni 10 width (ch :: rest)) (ch :: rest) → _ at hds
        cases hn : digitCount uni 10 width (ch :: rest) with
        | zero => exact .empty
        | succ n =>
          rw [hn, List.take_succ_cons] at hds
          exact .decimal hch hds
  · rw [bodyLength_fixed hauto]
    by_cases hradix : radix = 0
    · have hwidth : width = 0 := by_contra fun h => hauto ⟨hradix, h⟩
      subst hradix hwidth
      rw [digitCount, Nat.zero_min]
      exact .empty
    · exact .fixed hradix fun d hd => of_mem_take (Nat.min_le_right _ _) hd

theorem length_le_digitCount {scanRadix : ℕ} (ht : t <+: data) (hds : ∀ d ∈ t, uni.isDigit scanRadix d = true)
    (hfit : t.length ≤ width) : t.length ≤ digitCount uni scanRadix width data :=
  Nat.le_min.mpr ⟨hfit, length_le_takeWhile ht hds⟩

/-- No other text behind the signs is longer. -/
theorem length_le_bodyLength (ht : t <+: data) (hbody : FieldBody uni radix t) (hfit : t.length ≤ width) :
    t.length ≤ bodyLength uni radix width data := by
  cases hbody with
  | fixed hradix hds =>
    rw [bodyLength_fixed (fun h => hradix h.1)]
    exact length_le_digitCount ht hds hfit
  | empty => exact Nat.zero_le _
  | decimal hch hds =>
    obtain ⟨u, rfl⟩ := ht
    rw [List.cons_append, bodyLength_decimal hch (by rintro rfl; cases hfit)]
    exact length_le_digitCount (List.prefix_append _ u) hds hfit
  | @octal ch ds hch hds =>
    obtain ⟨u, rfl⟩ := ht
    rw [List.cons_append, bodyLength_zero hch (by rintro rfl; cases hfit)]
    rw [List.length_cons] at hfit ⊢
    have hcount := length_le_digitCount (List.prefix_append ds u) hds (show ds.length ≤ width - 1 by omega)
    cases ds with
    | nil =>
      simp only [List.length_nil]
      split_ifs <;> omega
    | cons d ds =>
      have hd := hds d (List.mem_cons_self ..)
      have hhex : ¬ (1 < width ∧ isHexMark d = true) := fun h => not_isDigit_of_hexMark h.2 hd
      have hbin : ¬ (1 < width ∧ isBinMark d = true) := fun h => not_isDigit_of_binMark h.2 hd
      rw [List.cons_append, List.head?_cons, Option.any_some, Option.any_some, if_neg hhex, if_neg hbin, Nat.add_comm 1]
      exact Nat.succ_le_succ hcount
  | @hex ch mark ds hch hmark hds =>
    obtain ⟨u, rfl⟩ := ht
    simp only [List.length_cons] at hfit ⊢
    rw [List.cons_append, List.cons_append, bodyLength_zero hch (by omega)]
    simp only [List.head?_cons, Option.any_some, List.drop_succ_cons, List.drop_zero]
    have hcount := length_le_digitCount (List.prefix_append ds u) hds (show ds.length ≤ width - 2 by omega)
    rw [if_pos ⟨by omega, hmark⟩]
    omega
  | @bin ch mark ds hch hmark hds =>
    obtain ⟨u, rfl⟩ := ht
    simp only [List.length_cons] at hfit ⊢
    rw [List.cons_append, List.cons_append, bodyLength_zero hch (by omega)]
    simp only [List.head?_cons, Option.any_some, List.drop_succ_cons, List.drop_zero]
    have hcount := length_le_digitCount (List.prefix_append ds u) hds (show ds.length ≤ width - 2 by omega)
    rw [if_neg (fun h => not_hexMark_of_binMark hmark h.2), if_pos ⟨by omega, hmark⟩]
    omega

theorem FieldBody.head_not_sign (h : FieldBody uni radix (ch :: ds)) (hradix : radix ≤ 16) : ¬ isSign ch = true := by
  intro hsign
  have hval : uni.deeUniAsDigitVal ch ≠ 0 := by
    simp only [isSign, decide_eq_true_eq] at hsign
    rcases hsign with rfl | rfl <;> exact (by decide : 0xff ≠ 0)
  cases h with
  | fixed _ hds => exact not_isDigit_of_sign hradix hsign (hds ch (List.mem_cons_self ..))
  | decimal _ hds => exact not_isDigit_of_sign (by norm_num) hsign (hds ch (List.mem_cons_self ..))
  | octal hch | hex hch | bin hch => exact hval hch

theorem bodyLength_le_width : bodyLength uni radix width data ≤ width := by
  by_cases hauto : radix = 0 ∧ width ≠ 0
  · obtain ⟨rfl, hwidth⟩ := hauto
    cases data with
    | nil => simp [bodyLength, radixPrefix, digitCount]
    | cons ch rest =>
      by_cases hch : uni.deeUniAsDigitVal ch = 0
      · rw [bodyLength_zero hch hwidth]
        unfold digitCount
        split_ifs <;> omega
      · rw [bodyLength_decimal hch hwidth]
        exact Nat.min_le_left _ _
  · rw [bodyLength_fixed hauto]
    exact Nat.min_le_left _ _

theorem longestField_take (hradix : radix ≤ 16) (width : ℕ) (data : List ℕ) :
    LongestField uni radix width data (data.take (fieldLength uni radix width data)) := by
  have hsigns : signCount width data ≤ width := Nat.min_le_left _ _
  have hrest := @bodyLength_le_width uni radix (width - signCount width data) (data.drop (signCount width data))
  refine ⟨List.take_prefix _ _, ?_, ?_, ?_⟩
  · rw [fieldLength, List.take_add]
    exact ⟨_, _, rfl, fun ch hch => of_mem_take (Nat.min_le_right _ _) hch, fieldBody_take _ _⟩
  · rw [List.length_take, fieldLength]
    omega
  · rintro t ht ⟨signs, body, rfl, hsign, hbody⟩ hfit
    have hle := ht.length_le
    obtain ⟨u, rfl⟩ := ht
    rw [List.length_append] at hfit
    have hfew : signs.length ≤ signCount width (signs ++ body ++ u) :=
      Nat.le_min.mpr ⟨by omega, length_le_takeWhile ⟨body ++ u, (List.append_assoc ..).symm⟩ hsign⟩
    rw [List.length_take, Nat.le_min]
    refine ⟨?_, hle⟩
    rw [fieldLength, List.length_append]
    rcases Nat.lt_or_eq_of_le hfew with hless | hall
    · -- a sign follows, which no number starts with
      cases body with
      | nil => exact (Nat.le_of_lt hless).trans (Nat.le_add_right _ _)
      | cons ch body =>
        have hmem : ch ∈ (signs ++ ch :: body ++ u).take (signCount width (signs ++ ch :: body ++ u)) := by
          rw [List.append_assoc, List.take_append, List.mem_append]
          obtain ⟨n, hn⟩ := Nat.exists_eq_succ_of_ne_zero (Nat.sub_ne_zero_of_lt hless)
          rw [List.append_assoc] at hn
          rw [hn]
          exact .inr (List.mem_cons_self ..)
        exact absurd (of_mem_take (Nat.min_le_right _ _) hmem) (hbody.head_not_sign hradix)
    · rw [← hall]
      apply Nat.add_le_add_left
      refine length_le_bodyLength ?_ hbody (by omega)
      rw [List.append_assoc, List.drop_left]
      exact List.prefix_append body u

theorem LongestField.length_eq {text text' : List ℕ} (h : LongestField uni radix width data text)
    (h' : LongestField uni radix width data text') : text.length = text'.length :=
  le_antisymm (h'.longest text h.starts h.field h.fits) (h.longest text' h'.starts h'.field h'.fits)

end Longest

/-! ### What the scan takes -/

section Scan

variable {uni : UniTable} {radix width data data' : ℕ} {rest rest' : List ℕ} {S : ScanData}

theorem ScanData.At.length_eq (h : S.At data rest) (h' : S.At data rest') : rest.length = rest'.length := by
  have heq : (S.encode rest).length = (S.encode rest').length := by
    have hrest := h.eq
    have hrest' := h'.eq
    omega
  rcases List.suffix_or_suffix_of_suffix h.suffix h'.suffix with hsuffix | hsuffix
  · exact ScanData.length_eq_of_encode hsuffix heq
  · exact (ScanData.length_eq_of_encode hsuffix heq.symm).symm

theorem digitsTaken_le_length {scanRadix : ℕ} (width : ℕ) (rest : List ℕ) :
    digitsTaken uni scanRadix width rest ≤ rest.length := by
  induction rest generalizing width with
  | nil => exact (Nat.le_of_eq (by cases width <;> rfl))
  | cons ch rest ih =>
    cases width with
    | zero => exact Nat.zero_le _
    | succ width =>
      rw [digitsTaken, List.length_cons]
      split_ifs
      · exact Nat.succ_le_succ (ih width)
      · exact Nat.succ_le_succ (ih (width + 1))
      · exact Nat.zero_le _

theorem radixPrefix_le (hradix : radix ≤ 16) :
    (radixPrefix uni radix width rest).1 ≤ 16 ∧ (radixPrefix uni radix width rest).2 ≤ rest.length := by
  cases rest with
  | nil => exact ⟨hradix, le_rfl⟩
  | cons ch rest =>
    rw [radixPrefix, List.length_cons]
    have hmark : ∀ q, rest.head?.any q = true → 1 ≤ rest.length := fun q hq => by
      cases rest with
      | nil => cases hq
      | cons mark rest => exact Nat.succ_le_succ (Nat.zero_le _)
    split_ifs with hauto hch hhex hbin
    · exact ⟨by norm_num, Nat.succ_le_succ (hmark _ hhex.2)⟩
    · exact ⟨by norm_num, Nat.succ_le_succ (hmark _ hbin.2)⟩
    · exact ⟨by norm_num, Nat.succ_le_succ (Nat.zero_le _)⟩
    · exact ⟨by norm_num, Nat.zero_le _⟩
    · exact ⟨hradix, Nat.zero_le _⟩

/-- How many characters the scan takes. -/
def fieldTaken (uni : UniTable) (radix width : ℕ) (data : List ℕ) : ℕ :=
  let signs := signCount width data
  let (scanRadix, n) := radixPrefix uni radix (width - signs) (data.drop signs)
  signs + (n + digitsTaken uni scanRadix (width - signs - n) ((data.drop signs).drop n))

theorem fieldTaken_le_length (hradix : radix ≤ 16) : fieldTaken uni radix width rest ≤ rest.length := by
  have hsigns : signCount width rest ≤ rest.length := (Nat.min_le_right _ _).trans (List.takeWhile_prefix _).length_le
  have hfront := (@radixPrefix_le uni radix (width - signCount width rest) (rest.drop (signCount width rest)) hradix).2
  dsimp only [fieldTaken]
  set signs := signCount width rest
  set r := radixPrefix uni radix (width - signs) (rest.drop signs)
  have hdigits := @digitsTaken_le_length uni r.1 (width - signs - r.2) ((rest.drop signs).drop r.2)
  rw [List.length_drop] at hfront
  rw [List.length_drop, List.length_drop] at hdigits
  omega

theorem fieldLength_le_taken : fieldLength uni radix width rest ≤ fieldTaken uni radix width rest :=
  Nat.add_le_add_left (Nat.add_le_add_left (digitCount_le_taken _ _) _) _

/-- The scan takes as many characters as the field has, as long as its digits are charged as they should be. -/
theorem fieldTaken_eq_iff : fieldTaken uni radix width rest = fieldLength uni radix width rest ↔
    let signs := signCount width rest
    let (scanRadix, n) := radixPrefix uni radix (width - signs) (rest.drop signs)
    Charged uni scanRadix (width - signs - n) ((rest.drop signs).drop n) := by
  dsimp only [fieldTaken, fieldLength, bodyLength]
  rw [Nat.add_left_cancel_iff, Nat.add_left_cancel_iff]
  exact digitsTaken_eq_iff _ _

theorem scanInteger_ends (hradix : radix ≤ 16) (h : S.At data rest)
    (hzero : LoneZero uni radix (width - signCount width rest) (rest.drop (signCount width rest)) → S.NoMarkBehind) :
    Ends (scanInteger uni S radix data width) fun data' => S.At data' (rest.drop (fieldTaken uni radix width rest)) := by
  unfold scanInteger
  refine Ends.bind (scanSigns_ends h) ?_
  rintro ⟨data₁, width₁⟩ ⟨hat₁, rfl⟩
  refine Ends.bind (scanPrefix_ends hat₁ hzero) ?_
  rintro ⟨scanRadix, data₂, width₂⟩ ⟨rfl, hat₂, rfl⟩
  refine (scanDigits_ends (radixPrefix_le hradix).1 hat₂).mono fun data₃ hat₃ => ?_
  rw [List.drop_drop, List.drop_drop] at hat₃
  exact hat₃

/-- A leading zero at the end of the data makes the scan leave it. -/
theorem scanInteger_past (h : S.At data rest)
    (hzero : LoneZero uni radix (width - signCount width rest) (rest.drop (signCount width rest)))
    (hmark : ¬ S.NoMarkBehind) :
    ∀ data', scanInteger uni S radix data width = some data' → S.dataEnd < data' := by
  intro data' hrun
  unfold scanInteger at hrun
  obtain ⟨⟨data₁, width₁⟩, hsigns, hat₁, rfl⟩ := @scanSigns_ends width data rest S h
  rw [hsigns, some_bind] at hrun
  obtain ⟨⟨scanRadix, data₂, width₂⟩, hfront, hdigits⟩ := of_bind hrun
  have hpast := scanPrefix_past hat₁ hzero hmark _ hfront
  dsimp only at hdigits hpast
  rw [scanDigits_of_le hpast.le, Option.some.injEq] at hdigits
  exact hdigits ▸ hpast

theorem IntConversion.radix_le (conv : IntConversion) : conv.radix ≤ 16 := by
  cases conv <;> decide

theorem TakesField.run {k : ℕ} (h : TakesField uni S radix width k) (hradix : radix ≤ 16) :
    scanInteger uni S radix (S.pos k) width =
      some (S.pos (k + ((S.chars.drop k).take (fieldLength uni radix width (S.chars.drop k))).length)) := by
  obtain ⟨text, htext, hrun⟩ := h
  rw [hrun, htext.length_eq (longestField_take hradix width (S.chars.drop k))]

/-- The scan takes the longest field if and only if the digits are charged as they should be, and no leading zero lets it
look behind the data. -/
theorem takesField_iff (uni : UniTable) (S : ScanData) (conv : IntConversion) (width k : ℕ) :
    TakesField uni S conv.radix width k ↔ MeetsField uni S conv.radix width k := by
  have hradix := conv.radix_le
  have hlongest := @longestField_take uni conv.radix hradix width (S.chars.drop k)
  have hbound := @fieldTaken_le_length uni conv.radix width (S.chars.drop k) hradix
  have hfew := @fieldLength_le_taken uni conv.radix width (S.chars.drop k)
  unfold MeetsField
  dsimp only
  constructor
  · rintro ⟨text, htext, hrun⟩
    have hpos := S.at_pos (k + text.length)
    have hmark : LoneZero uni conv.radix (width - signCount width (S.chars.drop k))
        ((S.chars.drop k).drop (signCount width (S.chars.drop k))) → S.NoMarkBehind := by
      intro hzero
      by_contra hmark
      have hpast := scanInteger_past (S.at_pos k) hzero hmark _ hrun
      have hend := hpos.eq
      omega
    refine ⟨hmark, fieldTaken_eq_iff.mp ?_⟩
    have hlen := htext.length_eq hlongest
    have htaken := ((scanInteger_ends hradix (S.at_pos k) hmark).of_eq hrun).length_eq hpos
    rw [List.length_take, Nat.min_eq_left (hfew.trans hbound)] at hlen
    rw [← List.drop_drop, List.length_drop, List.length_drop (l := S.chars.drop k)] at htaken
    omega
  · rintro ⟨hmark, hcharged⟩
    have htaken := fieldTaken_eq_iff.mpr hcharged
    obtain ⟨data', hrun, hat⟩ := @scanInteger_ends uni conv.radix width _ _ S hradix (S.at_pos k) hmark
    have hpos := S.at_pos (k + fieldTaken uni conv.radix width (S.chars.drop k))
    rw [← List.drop_drop] at hpos
    refine ⟨_, hlongest, ?_⟩
    rw [hrun, List.length_take, ← htaken, Nat.min_eq_left hbound, hat.unique hpos]

/-- `%2d` takes four digits, `%x` takes a `g`, and `%i` takes a byte that lies behind the data. -/
theorem takesField_fails :
    let uni : UniTable := ⟨fun _ => 0xff, fun _ => none, fun _ => false⟩
    ¬ TakesField uni ⟨true, [0x31, 0x32, 0x33, 0x34], [], by decide, by decide⟩ IntConversion.d.radix 2 0 ∧
      ¬ TakesField uni ⟨false, [0x31, 0x67], [0], by decide, by decide⟩ IntConversion.x.radix 9 0 ∧
      ¬ TakesField uni ⟨true, [0x30], [0x78], by decide, by decide⟩ IntConversion.i.radix 9 0 :=
  ⟨fun h => absurd (h.run (by decide)) (by decide), fun h => absurd (h.run (by decide)) (by decide),
    fun h => absurd (h.run (by decide)) (by decide)⟩

end Scan

end Deemon.Unicode
