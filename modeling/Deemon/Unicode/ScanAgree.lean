import Deemon.Lib.Iteration
import Deemon.Unicode.Scanner

/-!
# Scanning text and scanning bytes

ASCII data can be held as a string or as bytes. The two scans go alike, take words and line endings as they should, and
yield the same items, as long as no directive meets data that it treats in another way (`MeetsRound`): `%s` and unmatched line
feeds go different ways, `%c` has not asked for the kind of the data, and an integer may look behind the bytes.
-/

namespace Deemon.Unicode

open Deemon.Run Deemon.Iteration Deemon.Int

/-- ASCII data, and the memory behind it where it is held as bytes. -/
structure AsciiData where
  chars : List ℕ
  behind : List ℕ
  ascii : ∀ ch ∈ chars, ch < 0x80
  fits : chars.length < 2 ^ 64

/-- The data as bytes, or as a string. -/
def AsciiData.held (A : AsciiData) (isBytes : Bool) : ScanData where
  isBytes := isBytes
  chars := A.chars
  behind := if isBytes then A.behind else [0]
  small ch hch := by
    have hascii := A.ascii ch hch
    split_ifs <;> omega
  terminated := fun h => by rw [h]; rfl

/-- An item over a string, as it should be over bytes. -/
def Item.asBytes : Item → Item
  | .string s => .bytes s.uData
  | v => v

def ScanResult.asBytes : ScanResult → ScanResult
  | .item v data format => .item v.asBytes data format
  | r => r

/-- The text of an item. -/
def Item.text : Item → List ℕ
  | .int _ => []
  | .string s => s.uData
  | .bytes view => view

/-! ### Data that is held in two ways -/

section Held

variable {A : AsciiData} {b : Bool} {uni : ScanTable} {data start stop ch width : ℕ} {rest : List ℕ}

theorem utf8_of_ascii (h : ∀ ch ∈ rest, ch < 0x80) : utf8 rest = rest := by
  induction rest with
  | nil => rfl
  | cons ch rest ih =>
    obtain ⟨hch, hrest⟩ := List.forall_mem_cons.mp h
    rw [utf8_cons, ih hrest, show writeUtf8 ch = [ch] from if_pos hch]
    rfl

theorem encode_held (h : ∀ ch ∈ rest, ch < 0x80) : (A.held b).encode rest = rest := by
  unfold ScanData.encode
  split_ifs
  · rfl
  · exact utf8_of_ascii h

theorem memory_held : (A.held b).memory = A.chars ++ (A.held b).behind := by
  rw [ScanData.memory, show (A.held b).chars = A.chars from rfl, encode_held A.ascii]

theorem dataEnd_held : (A.held b).dataEnd = A.chars.length := by
  rw [ScanData.dataEnd, show (A.held b).chars = A.chars from rfl, encode_held A.ascii]

theorem at_held (h : data ≤ A.chars.length) : (A.held b).At data (A.chars.drop data) := by
  refine ⟨A.chars.take data, (List.take_append_drop data A.chars).symm, ?_⟩
  rw [encode_held fun ch hch => A.ascii ch (List.mem_of_mem_take hch), List.length_take, Nat.min_eq_left h]

/-- The position of a suffix is the number of characters in front of it. -/
theorem eq_of_at_held {n : ℕ} (h : (A.held b).At data (A.chars.drop n)) (hn : n ≤ A.chars.length) : data = n :=
  h.unique (at_held hn)

theorem rd_held (h : data < A.chars.length) : rd (A.held b).memory data = some (cell A.chars data) := by
  rw [memory_held, rd_of_lt (by rw [List.length_append]; omega), cell, cell, List.getD_append _ _ _ _ h]

theorem cell_lt (h : data < A.chars.length) : cell A.chars data < 0x80 := by
  rw [cell, List.getD_eq_getElem _ _ h]
  exact A.ascii _ (List.getElem_mem h)

theorem readUtf8N_held (h : data < A.chars.length) {stop : ℕ} (hstop : data < stop) :
    readUtf8N (A.held b).memory data stop = some (cell A.chars data, data + 1) := by
  have hcell : cell (A.held b).memory data = cell A.chars data := by
    rw [memory_held, cell, cell, List.getD_append _ _ _ _ h]
  have hascii := cell_lt h
  rw [readUtf8N_ascii hstop (by rw [memory_held, List.length_append]; omega) (by rwa [hcell]), hcell]

theorem readArg_held (h : data < A.chars.length) : (A.held b).readArg data = some (cell A.chars data, data + 1) := by
  unfold ScanData.readArg
  split_ifs
  · rw [rd_held h, some_bind, charArg, if_pos (cell_lt h)]
  · rw [dataEnd_held]
    exact readUtf8N_held h h

theorem slice_held (h : stop ≤ A.chars.length) :
    (A.held b).slice start stop = some ((A.chars.drop start).take (stop - start)) := by
  rw [ScanData.slice, memory_held, if_pos (by rw [List.length_append]; omega), List.drop_append, List.take_append,
    List.length_drop, show stop - start - (A.chars.length - start) = 0 by omega, List.take_zero, List.append_nil]

theorem left_held (h : data ≤ A.chars.length) : (A.held b).left data = A.chars.length - data := by
  have hfits := A.fits
  rw [ScanData.left, dataEnd_held]
  omega

theorem drop_eq_cell (h : data < A.chars.length) : A.chars.drop data = cell A.chars data :: A.chars.drop (data + 1) := by
  rw [List.drop_eq_getElem_cons h, cell, List.getD_eq_getElem _ _ h]

end Held

/-! ### Loops over the data -/

section Loops

variable {A : AsciiData} {b : Bool} {uni : ScanTable} {data ch width : ℕ} {pred : ℕ → Option Bool} {q : ℕ → Bool}

theorem scanWhile_held (b : Bool) : scanWhile (A.held b) pred data width = scanWhile (A.held false) pred data width := by
  unfold scanWhile
  rw [dataEnd_held, dataEnd_held]
  congr 1
  funext ⟨data, width⟩
  dsimp only
  split_ifs with h
  · rw [readArg_held h.1, readArg_held h.1]
  · rfl

theorem skipSpaces_held (b : Bool) : skipSpaces uni (A.held b) data = skipSpaces uni (A.held false) data := by
  unfold skipSpaces
  rw [dataEnd_held, dataEnd_held]
  congr 1
  funext data
  split_ifs with h
  · rw [readArg_held h, readArg_held h]
  · rfl

/-- The loop takes characters with the property, and stops at the end of the data or of the width. -/
theorem scanWhile_eq (h : data ≤ A.chars.length) :
    scanWhile (A.held b) (fun ch => some (q ch)) data width =
      some (data + (((A.chars.drop data).take width).takeWhile q).length) := by
  have hrun : Ends (scanWhile (A.held b) (fun ch => some (q ch)) data width) fun r =>
      r = data + (((A.chars.drop data).take width).takeWhile q).length := by
    refine loop_ends
      (fun s => s.1 ≤ A.chars.length ∧ s.1 + (((A.chars.drop s.1).take s.2).takeWhile q).length =
        data + (((A.chars.drop data).take width).takeWhile q).length)
      (fun s => A.chars.length - s.1) ⟨h, rfl⟩ (by rw [dataEnd_held]; dsimp only; omega) ?_
    rintro ⟨d, w⟩ ⟨hle, heq⟩
    dsimp only at hle heq ⊢
    rw [dataEnd_held]
    split_ifs with hgo
    · obtain ⟨hlt, hw⟩ := hgo
      obtain ⟨w, rfl⟩ := Nat.exists_eq_succ_of_ne_zero hw
      rw [drop_eq_cell hlt, List.take_succ_cons] at heq
      rw [readArg_held hlt, some_bind]
      dsimp only
      rw [some_bind]
      cases hq : q (cell A.chars d) with
      | true =>
        rw [List.takeWhile_cons_of_pos hq, List.length_cons] at heq
        exact Ends.pure ⟨⟨hlt, by dsimp only; rw [Nat.succ_sub_one]; omega⟩, by dsimp only; omega⟩
      | false =>
        rw [List.takeWhile_cons_of_neg (by rw [hq]; exact Bool.false_ne_true)] at heq
        exact Ends.pure heq
    · refine Ends.pure ?_
      have hnil : (A.chars.drop d).take w = [] := by
        rcases not_and_or.mp hgo with hd | hw
        · rw [List.drop_eq_nil_of_le (Nat.not_lt.mp hd), List.take_nil]
        · rw [not_not.mp hw, List.take_zero]
      rw [hnil] at heq
      exact heq
  obtain ⟨r, hr, rfl⟩ := hrun
  exact hr

theorem scanWhile_le {r : ℕ} (h : data ≤ A.chars.length) (hrun : scanWhile (A.held b) pred data width = some r) :
    r ≤ A.chars.length := by
  refine loop_post (Q := fun r => r ≤ A.chars.length) (fun s => s.1 ≤ A.chars.length) h ?_ hrun
  rintro ⟨d, w⟩ step hd hround
  dsimp only at hd hround
  rw [dataEnd_held] at hround
  split_ifs at hround with hgo
  · rw [readArg_held hgo.1, some_bind] at hround
    obtain ⟨go, -, hstep⟩ := of_bind hround
    obtain rfl := Option.some.inj hstep
    split_ifs
    · exact hgo.1
    · exact hd
  · obtain rfl := Option.some.inj hround
    exact hd

theorem skipSpaces_le {r : ℕ} (h : data ≤ A.chars.length) (hrun : skipSpaces uni (A.held b) data = some r) :
    r ≤ A.chars.length := by
  refine loop_post (Q := fun r => r ≤ A.chars.length) (fun d => d ≤ A.chars.length) h ?_ hrun
  intro d step hd hround
  rw [dataEnd_held] at hround
  split_ifs at hround with hgo
  · rw [readArg_held hgo, some_bind, Option.some.injEq] at hround
    obtain rfl := hround
    split_ifs
    · exact hgo
    · exact hd
  · obtain rfl := Option.some.inj hround
    exact hd

/-- The characters of a text are counted one by one. -/
theorem consumed_held (h : data ≤ A.chars.length) : consumed (A.held b) data = some data := by
  have hrun : Ends (consumed (A.held b) data) fun r => r = data := by
    unfold consumed
    split_ifs
    · exact Ends.pure rfl
    · refine loop_ends (fun s => s.1 = s.2 ∧ s.1 ≤ data) (fun s => data - s.1) ⟨rfl, Nat.zero_le _⟩
        (by dsimp only; omega) ?_
      rintro ⟨iter, total⟩ ⟨heq, hle⟩
      dsimp only at heq hle ⊢
      subst heq
      split_ifs with hlt
      · have hin : iter < A.chars.length := hlt.trans_le h
        rw [readUtf8N_held hin hlt, some_bind]
        exact Ends.pure ⟨⟨rfl, hlt⟩, by dsimp only; omega⟩
      · exact Ends.pure (show iter = data by omega)
  obtain ⟨r, hr, rfl⟩ := hrun
  exact hr

/-- A string of ASCII characters. -/
theorem deeStringNewUtf8_ascii {text : List ℕ} (h : ∀ ch ∈ text, ch < 0x80) :
    ∃ s, deeStringNewUtf8 text .strict = some (some s) ∧ s.uData = text := by
  have hrun : Ends (loop (decodeRound .strict true) (text.length + 1) ⟨text ++ [0], 0, text.length, text.length, none⟩)
      fun r => r = some ⟨text ++ [0], text.length, text.length, text.length, none⟩ := by
    refine loop_ends (fun s => s = ⟨text ++ [0], s.iter, text.length, text.length, none⟩ ∧ s.iter ≤ text.length)
      (fun s => text.length - s.iter) ⟨rfl, Nat.zero_le _⟩ (by dsimp only; omega) ?_
    rintro s ⟨hs, hle⟩
    rw [hs]
    unfold decodeRound
    dsimp only
    split_ifs with hend
    · obtain heq : s.iter = text.length := le_antisymm hle hend
      rw [heq]
      exact Ends.pure rfl
    · have hlt : s.iter < text.length := by omega
      have hcell : cell (text ++ [0]) s.iter < 0x80 := by
        rw [cell, List.getD_append _ _ _ _ hlt, List.getD_eq_getElem _ _ hlt]
        exact h _ (List.getElem_mem hlt)
      unfold asciiRound
      dsimp only
      rw [rd_of_lt (by rw [List.length_append]; omega), some_bind, if_pos (by omega)]
      exact Ends.pure ⟨⟨rfl, hlt⟩, by dsimp only; omega⟩
  obtain ⟨r, hr, rfl⟩ := hrun
  refine ⟨DecodeState.finish ⟨text ++ [0], text.length, text.length, text.length, none⟩, ?_, ?_⟩
  · unfold deeStringNewUtf8 decodeText
    rw [hr]
    rfl
  · exact (List.take_append_of_le_length le_rfl).trans (List.take_length)

end Loops

/-! ### Integers -/

section Integers

variable {A : AsciiData} {b : Bool} {uni : UniTable} {sizeHint : ℕ → ℕ → ℕ} {data width radix z : ℕ} {signs : List ℕ}

theorem noMarkBehind_string : (A.held false).NoMarkBehind := ⟨0, rfl, by decide, by decide⟩

/-- A leading zero is the last character in front of which the scan of a field stands, and the width goes on. -/
def AsciiData.FieldEndsInZero (A : AsciiData) (uni : UniTable) (radix width data : ℕ) : Prop :=
  let rest := A.chars.drop data
  LoneZero uni radix (width - signCount width rest) (rest.drop (signCount width rest))

theorem scanInteger_held (hradix : radix ≤ 16) (h : data ≤ A.chars.length)
    (hzero : A.FieldEndsInZero uni radix width data → (A.held b).NoMarkBehind) :
    scanInteger uni (A.held b) radix data width = some (data + fieldTaken uni radix width (A.chars.drop data)) := by
  obtain ⟨data', hrun, hat⟩ := scanInteger_ends hradix (at_held h) hzero
  have hle := @fieldTaken_le_length uni radix width (A.chars.drop data) hradix
  rw [List.length_drop] at hle
  rw [List.drop_drop] at hat
  rw [hrun, eq_of_at_held hat (by omega)]

theorem fieldTaken_lone (hzero : A.FieldEndsInZero uni radix width data) :
    fieldTaken uni radix width (A.chars.drop data) = (A.chars.drop data).length := by
  obtain ⟨rfl, hwidth, z, hdrop, hz⟩ := hzero
  have hlen := congrArg List.length hdrop
  rw [List.length_drop, List.length_singleton] at hlen
  dsimp only [fieldTaken]
  rw [hdrop, radixPrefix, if_pos ⟨rfl, by omega⟩, if_pos hz]
  simp only [List.head?_nil, Option.any_none, Bool.false_eq_true, and_false, if_false, List.drop_succ_cons, List.drop_nil]
  rw [digitsTaken]
  omega

theorem parseSign_signs (hsigns : ∀ ch ∈ signs, isSign ch) (hz : ¬ isSign z = true) :
    Ends (parseSign uni ⟨false, true, false⟩ (signs ++ [z])) fun r => ∃ negative, r = some (negative, signs.length) := by
  refine loop_ends (fun s => s.2 ≤ signs.length) (fun s => signs.length - s.2) (Nat.zero_le _)
    (by rw [List.length_append]; dsimp only; omega) ?_
  rintro ⟨negative, start⟩ hstart
  dsimp only at hstart ⊢
  have hin : start < (signs ++ [z]).length := by
    rw [List.length_append, List.length_singleton]
    omega
  rw [if_neg (by omega), rd_of_lt hin, some_bind]
  simp only [Bool.false_eq_true, and_false, if_false]
  by_cases hlt : start < signs.length
  · have hsign : isSign (cell (signs ++ [z]) start) = true := by
      rw [cell, List.getD_append _ _ _ _ hlt, List.getD_eq_getElem _ _ hlt]
      exact hsigns _ (List.getElem_mem hlt)
    simp only [isSign, decide_eq_true_eq] at hsign
    by_cases hplus : cell (signs ++ [z]) start = chr '+'
    · rw [if_pos hplus]
      exact Ends.pure ⟨hlt, by dsimp only; omega⟩
    · rw [if_neg hplus, if_pos (hsign.resolve_left hplus)]
      exact Ends.pure ⟨hlt, by dsimp only; omega⟩
  · obtain rfl : start = signs.length := by omega
    have hcell : cell (signs ++ [z]) signs.length = z := by
      rw [cell, List.getD_append_right _ _ _ _ le_rfl, Nat.sub_self]
      rfl
    simp only [isSign, decide_eq_true_eq, not_or] at hz
    rw [hcell, if_neg hz.1, if_neg hz.2]
    exact Ends.pure ⟨negative, rfl⟩

/-- Signs and a single zero are the number zero. -/
theorem deeIntFromString_lone (hsigns : ∀ ch ∈ signs, isSign ch) (hz : uni.deeUniAsDigitVal z = 0) (hascii : z < 0x80) :
    deeIntFromString uni sizeHint (signs ++ [z]) 0 ⟨false, true, false⟩ = some (.ok (some deeIntNewZero)) := by
  have hnot : ¬ isSign z = true := by
    simp only [isSign, decide_eq_true_eq]
    rintro (rfl | rfl) <;> exact absurd hz (show 0xff ≠ 0 by decide)
  obtain ⟨r, hr, negative, rfl⟩ := @parseSign_signs uni z signs hsigns hnot
  have hcell : cell (signs ++ [z]) signs.length = z := by
    rw [cell, List.getD_append_right _ _ _ _ le_rfl, Nat.sub_self]
    rfl
  have hlen : (signs ++ [z]).length = signs.length + 1 := by rw [List.length_append, List.length_singleton]
  have hread : readUtf8N (signs ++ [z]) signs.length (signs ++ [z]).length = some (z, signs.length + 1) := by
    rw [readUtf8N_ascii (by omega) (by omega) (by rwa [hcell]), hcell]
  unfold deeIntFromString
  rw [hr, some_bind]
  dsimp only
  unfold parseRadix
  rw [if_neg (not_not.mpr rfl), hread, some_bind]
  dsimp only
  rw [if_pos hz, if_pos hlen.le, some_bind]

end Integers

/-! ### Directives -/

/-- The run of words that `%s` is for. -/
def wordRun (uni : ScanTable) (width : ℕ) (rest : List ℕ) : List ℕ :=
  (rest.take width).takeWhile fun ch => !uni.deeUniIsSpace ch

/-- How long the line ending is that some text starts with. -/
def lineEnding : List ℕ → ℕ
  | ch :: rest =>
    if ch = carriageReturn then if rest.head? = some lineFeed then 2 else 1
    else if ch = lineFeed then 1
    else 0
  | [] => 0

/-- A round takes `text` from `data`, and yields it unless it is ignored. -/
def TakesText (r : Option (Step ScanPoint ScanResult)) (ignoreData : Bool) (data : ℕ) (text : List ℕ) : Prop :=
  match r with
  | some (.next p) => ignoreData = true ∧ p.data = data + text.length
  | some (.done (.item v data' _)) => ignoreData = false ∧ v.text = text ∧ data' = data + text.length
  | _ => False

/-- A round takes one line ending from `data`, or leaves the data alone when there is none. -/
def TakesLineEnding (r : Option (Step ScanPoint ScanResult)) (data : ℕ) (rest : List ℕ) : Prop :=
  match r with
  | some (.next p) => 0 < lineEnding rest ∧ p.data = data + lineEnding rest
  | some (.done (.iterDone data' _)) => lineEnding rest = 0 ∧ data' = data
  | _ => False

/-- What a conversion must meet. -/
def MeetsConversion (uni : UniTable) (A : AsciiData) (p : ScanPoint) (c : Conversion) : Prop :=
  match conversionKind c.ch with
  | .integer conv => A.FieldEndsInZero uni conv.radix c.width p.data → (A.held true).NoMarkBehind
  | .chars => c.ignoreData = true ∨ p.detected = true ∨ A.chars.length ≤ p.data ∧ c.width ≠ 0
  | .word => c.width = 0 ∨ A.chars.length ≤ p.data
  | _ => True

/-- What a directive must meet. -/
def MeetsDirective (uni : UniTable) (A : AsciiData) (p : ScanPoint) : Directive → Prop
  | .conversion c => MeetsConversion uni A p c
  | .lineFeed _ => A.chars.length ≤ p.data ∨ cell A.chars p.data = carriageReturn ∧ p.data + 1 < A.chars.length
  | _ => True

/-- What the data must meet at the next directive. -/
def MeetsRound (uni : ScanTable) (A : AsciiData) (F : ScanFormat) (p : ScanPoint) : Prop :=
  ∀ d, readDirective uni.toUniTable F p.format = some d → MeetsDirective uni.toUniTable A p d

section Directives

variable {A : AsciiData} {b : Bool} {uni : ScanTable} {sizeHint : ℕ → ℕ → ℕ} {F : ScanFormat} {p : ScanPoint}
  {c : Conversion} {ch format data : ℕ}

/-- The round over bytes is the round over the string. -/
def Alike (text bytes : Option (Step ScanPoint ScanResult)) : Prop := bytes = text.map (Step.map ScanResult.asBytes)

theorem matchCh_alike :
    Alike (matchCh (A.held false) p ch format) (matchCh (A.held true) p ch format) := by
  unfold matchCh
  rw [dataEnd_held, dataEnd_held]
  split_ifs with hend
  · rfl
  · rw [rd_held (Nat.lt_of_not_le hend), rd_held (Nat.lt_of_not_le hend)]
    dsimp only [some_bind, Alike, Option.map_some]
    split_ifs <;> rfl

theorem yieldText_bytes {detected : Bool} {start : ℕ} (hle : data ≤ A.chars.length) :
    yieldText (A.held true) detected start data format =
      some (.done (.item (.bytes ((A.chars.drop start).take (data - start))) data format)) := by
  unfold yieldText
  rw [slice_held hle, some_bind, if_pos (Or.inr (show (A.held true).isBytes = true from rfl)),
    assert_of (show (A.held true).isBytes = true from rfl), some_bind]

theorem yieldText_string {start : ℕ} (hle : data ≤ A.chars.length) :
    ∃ s, yieldText (A.held false) true start data format = some (.done (.item (.string s) data format)) ∧
      s.uData = (A.chars.drop start).take (data - start) := by
  have hascii : ∀ ch ∈ (A.chars.drop start).take (data - start), ch < 0x80 := fun ch hch =>
    A.ascii ch (List.mem_of_mem_drop (List.mem_of_mem_take hch))
  obtain ⟨s, hs, hdata⟩ := deeStringNewUtf8_ascii hascii
  refine ⟨s, ?_, hdata⟩
  unfold yieldText
  rw [slice_held hle, some_bind,
    if_neg (show ¬ ((!true) = true ∨ (A.held false).isBytes = true) by simp [AsciiData.held]), hs]
  rfl

/-- A string is mistaken for bytes. -/
theorem yieldText_undetected {start : ℕ} (hle : data ≤ A.chars.length) :
    yieldText (A.held false) false start data format = none := by
  unfold yieldText
  rw [slice_held hle, some_bind, if_pos (show (!false) = true ∨ (A.held false).isBytes = true from .inl rfl)]
  rfl

theorem finishText_alike (hle : data ≤ A.chars.length) :
    Alike (finishText (A.held false) p c true data format) (finishText (A.held true) p c true data format) := by
  unfold finishText
  split_ifs with hignore
  · rfl
  · obtain ⟨s, hs, hdata⟩ := @yieldText_string A format data p.data hle
    rw [Alike, yieldText_bytes hle, hs, ← hdata]
    rfl

theorem convertSet_alike (h : p.data ≤ A.chars.length) :
    Alike (convertSet (A.held false) F p c) (convertSet (A.held true) F p c) := by
  unfold convertSet
  cases hset : readSet F c.format with
  | none => rfl
  | some r =>
    cases r with
    | error format => rfl
    | ok set =>
      rw [some_bind, some_bind]
      dsimp only
      rw [left_held h, left_held h]
      split_ifs with hend
      · rfl
      · rw [scanWhile_held true]
        cases hdata : scanWhile (A.held false)
            (fun ch => (matchContains F set.selBegin set.selEnd ch).map (· ^^ set.inverse)) p.data (min c.width (A.chars.length - p.data)) with
        | none => rfl
        | some data =>
          rw [some_bind, some_bind]
          cases behindSet F set.selEnd with
          | none => rfl
          | some format => exact finishText_alike (scanWhile_le h hdata)

/-- Where the data is after a round. -/
def roundData : Step ScanPoint ScanResult → Option ℕ
  | .next p => some p.data
  | .done (.item _ data _) => some data
  | .done (.iterDone data _) => some data
  | .done (.error _) => none

theorem roundData_asBytes (step : Step ScanPoint ScanResult) : roundData (step.map ScanResult.asBytes) = roundData step := by
  cases step with
  | next p => rfl
  | done r => cases r <;> rfl

theorem data_of_some {step step' : Step ScanPoint ScanResult} {P : ℕ → Prop} (hrun : some step' = some step)
    (hdata : roundData step' = some data) (h : P data) : ∀ d ∈ roundData step, P d := by
  intro d hd
  rw [← Option.some.inj hrun, hdata, Option.mem_some_iff] at hd
  exact hd ▸ h

theorem no_data_of_some {step step' : Step ScanPoint ScanResult} {P : ℕ → Prop} (hrun : some step' = some step)
    (hdata : roundData step' = none) : ∀ d ∈ roundData step, P d := by
  intro d hd
  rw [← Option.some.inj hrun, hdata] at hd
  cases hd

theorem convertInteger_data {S : ScanData} {conv : IntConversion} {step : Step ScanPoint ScanResult}
    (hrun : convertInteger uni sizeHint S p c conv = some step) :
    ∃ data, scanInteger uni.toUniTable S conv.radix p.data c.width = some data ∧ ∀ d ∈ roundData step, d = data := by
  unfold convertInteger at hrun
  obtain ⟨data, hscan, hrun⟩ := of_bind hrun
  refine ⟨data, hscan, ?_⟩
  split_ifs at hrun with hignore
  · exact data_of_some hrun rfl rfl
  · obtain ⟨text, -, hrun⟩ := of_bind hrun
    obtain ⟨r, -, hrun⟩ := of_bind hrun
    cases r with
    | error err =>
      exact no_data_of_some hrun rfl
    | ok v =>
      cases v with
      | none => exact data_of_some hrun rfl rfl
      | some v => exact data_of_some hrun rfl rfl

theorem convertInteger_alike {conv : IntConversion} (h : p.data ≤ A.chars.length)
    (hmeets : A.FieldEndsInZero uni.toUniTable conv.radix c.width p.data → (A.held true).NoMarkBehind) :
    Alike (convertInteger uni sizeHint (A.held false) p c conv) (convertInteger uni sizeHint (A.held true) p c conv) := by
  have htaken := @fieldTaken_le_length uni.toUniTable conv.radix c.width (A.chars.drop p.data) conv.radix_le
  rw [List.length_drop] at htaken
  unfold convertInteger
  rw [scanInteger_held conv.radix_le h fun _ => noMarkBehind_string, scanInteger_held conv.radix_le h hmeets, some_bind,
    some_bind]
  split_ifs with hignore
  · rfl
  · rw [slice_held (by omega), slice_held (by omega), some_bind]
    cases deeIntFromString uni.toUniTable sizeHint
        ((A.chars.drop p.data).take (p.data + fieldTaken uni.toUniTable conv.radix c.width (A.chars.drop p.data) - p.data))
        conv.radix ⟨false, true, false⟩ with
    | none => rfl
    | some r =>
      cases r with
      | error err => rfl
      | ok v => cases v <;> rfl

/-- The string in which a lone zero ends the data. -/
theorem convertInteger_lone {conv : IntConversion} (h : p.data ≤ A.chars.length)
    (hzero : A.FieldEndsInZero uni.toUniTable conv.radix c.width p.data) :
    ∃ step, convertInteger uni sizeHint (A.held false) p c conv = some step ∧ roundData step = some A.chars.length := by
  have hend : p.data + fieldTaken uni.toUniTable conv.radix c.width (A.chars.drop p.data) = A.chars.length := by
    rw [fieldTaken_lone hzero, List.length_drop]
    omega
  unfold convertInteger
  rw [scanInteger_held conv.radix_le h fun _ => noMarkBehind_string, some_bind, hend]
  split_ifs with hignore
  · exact ⟨_, rfl, rfl⟩
  · obtain ⟨hradix, -, z, hdrop, hz⟩ := hzero
    have hsplit := List.take_append_drop (signCount c.width (A.chars.drop p.data)) (A.chars.drop p.data)
    rw [hdrop] at hsplit
    have hall : (A.chars.drop p.data).take (A.chars.length - p.data) = A.chars.drop p.data := by
      rw [← List.length_drop, List.take_length]
    have hmem : z ∈ A.chars := List.mem_of_mem_drop (hsplit ▸ List.mem_append_right _ (List.mem_singleton_self z))
    have hsigns : ∀ ch ∈ (A.chars.drop p.data).take (signCount c.width (A.chars.drop p.data)), isSign ch :=
      fun ch hch => of_mem_take (Nat.min_le_right _ _) hch
    rw [slice_held le_rfl, some_bind, hall, hradix, ← hsplit, deeIntFromString_lone hsigns hz (A.ascii z hmem), some_bind]
    exact ⟨_, rfl, rfl⟩

/-- An integer that looks behind the bytes ends elsewhere. -/
theorem convertInteger_not_alike {conv : IntConversion} (h : p.data ≤ A.chars.length)
    (hzero : A.FieldEndsInZero uni.toUniTable conv.radix c.width p.data) (hmark : ¬ (A.held true).NoMarkBehind) :
    ¬ Alike (convertInteger uni sizeHint (A.held false) p c conv) (convertInteger uni sizeHint (A.held true) p c conv) := by
  intro halike
  obtain ⟨step, hstep, hdata⟩ := @convertInteger_lone A uni sizeHint p c conv h hzero
  rw [Alike, hstep, Option.map_some] at halike
  obtain ⟨data, hscan, heq⟩ := convertInteger_data halike
  have hpast := scanInteger_past (at_held h) hzero hmark data hscan
  rw [roundData_asBytes, hdata] at heq
  rw [dataEnd_held, ← heq _ rfl] at hpast
  exact Nat.lt_irrefl _ hpast

theorem convertChars_alike_iff (h : p.data ≤ A.chars.length) :
    Alike (convertChars (A.held false) p c) (convertChars (A.held true) p c) ↔
      c.ignoreData = true ∨ p.detected = true ∨ A.chars.length ≤ p.data ∧ c.width ≠ 0 := by
  unfold convertChars
  dsimp only
  rw [left_held h, left_held h]
  have hwidth : (if c.width = sizeMax then 1 else c.width) ≠ 0 ↔ c.width ≠ 0 := by
    split_ifs with hmax
    · rw [hmax]
      decide
    · rfl
  set width := if c.width = sizeMax then 1 else c.width
  have hle : p.data + min width (A.chars.length - p.data) ≤ A.chars.length := by omega
  split_ifs with hend
  · refine ⟨fun _ => .inr (.inr ⟨by omega, hwidth.mp (by omega)⟩), fun _ => rfl⟩
  · have hmore : ¬ (A.chars.length ≤ p.data ∧ c.width ≠ 0) := fun hstop => hend <| by
      have hpos := hwidth.mpr hstop.2
      omega
    rw [or_iff_left hmore]
    unfold finishText
    split_ifs with hignore
    · exact ⟨fun _ => .inl hignore, fun _ => rfl⟩
    · rw [or_iff_right hignore]
      cases hdetected : p.detected with
      | false =>
        rw [yieldText_undetected hle, yieldText_bytes hle]
        refine iff_of_false (fun halike => ?_) Bool.false_ne_true
        cases halike
      | true =>
        obtain ⟨s, hs, hdata⟩ := @yieldText_string A c.format _ p.data hle
        refine ⟨fun _ => rfl, fun _ => ?_⟩
        rw [Alike, yieldText_bytes hle, hs, ← hdata]
        rfl

theorem takesText_finish {text : List ℕ} (hle : data ≤ A.chars.length) (hstart : p.data ≤ data)
    (htext : text <+: A.chars.drop p.data) :
    TakesText (finishText (A.held b) p c true data format) c.ignoreData p.data text ↔ data = p.data + text.length := by
  unfold finishText
  split_ifs with hignore
  · exact and_iff_right hignore
  · have htake : data = p.data + text.length → (A.chars.drop p.data).take (data - p.data) = text := by
      rintro rfl
      rw [Nat.add_sub_cancel_left]
      exact (List.prefix_iff_eq_take.mp htext).symm
    cases b with
    | true =>
      rw [yieldText_bytes hle]
      exact ⟨fun h => h.2.2, fun h => ⟨Bool.eq_false_iff.mpr hignore, htake h, h⟩⟩
    | false =>
      obtain ⟨s, hs, hdata⟩ := @yieldText_string A format data p.data hle
      rw [hs]
      exact ⟨fun h => h.2.2, fun h => ⟨Bool.eq_false_iff.mpr hignore, hdata.trans (htake h), h⟩⟩

theorem scanWord_bytes (h : data ≤ A.chars.length) {width : ℕ} :
    scanWord uni (A.held true) data width = some (data + (wordRun uni width (A.chars.drop data)).length) :=
  scanWhile_eq (q := fun ch => !uni.deeUniIsSpace ch) h

theorem scanWord_string (h : data ≤ A.chars.length) {width : ℕ} :
    scanWord uni (A.held false) data width =
      some (data + (((A.chars.drop data).take width).takeWhile uni.deeUniIsSpace).length) :=
  scanWhile_eq (q := uni.deeUniIsSpace) h

/-- The spaces and the other characters that a text starts with: one of the two runs is empty, and the other is not. -/
theorem length_spaces_eq_iff {width : ℕ} {rest : List ℕ} :
    ((rest.take width).takeWhile uni.deeUniIsSpace).length = (wordRun uni width rest).length ↔ width = 0 ∨ rest = [] := by
  unfold wordRun
  cases width with
  | zero => simp
  | succ width =>
    cases rest with
    | nil => simp
    | cons ch rest => cases hspace : uni.deeUniIsSpace ch <;> simp [hspace]

theorem length_wordRun_le {width : ℕ} {rest : List ℕ} : (wordRun uni width rest).length ≤ rest.length :=
  ((List.takeWhile_prefix _).trans (List.take_prefix _ _)).length_le

/-- `%s` takes the longest run of other characters than spaces if and only if there is nothing to take. -/
theorem word_iff (h : p.data ≤ A.chars.length) (hkind : conversionKind c.ch = .word) :
    (∀ b, TakesText (scanConversion uni sizeHint (A.held b) F p c) c.ignoreData p.data
      (wordRun uni c.width (A.chars.drop p.data))) ↔ c.width = 0 ∨ A.chars.length ≤ p.data := by
  have hfront : wordRun uni c.width (A.chars.drop p.data) <+: A.chars.drop p.data :=
    (List.takeWhile_prefix _).trans (List.take_prefix _ _)
  have hspaces : (((A.chars.drop p.data).take c.width).takeWhile uni.deeUniIsSpace).length ≤ (A.chars.drop p.data).length :=
    ((List.takeWhile_prefix _).trans (List.take_prefix _ _)).length_le
  have hword := hfront.length_le
  rw [List.length_drop] at hspaces hword
  have hstring : TakesText (scanConversion uni sizeHint (A.held false) F p c) c.ignoreData p.data
      (wordRun uni c.width (A.chars.drop p.data)) ↔ c.width = 0 ∨ A.chars.length ≤ p.data := by
    rw [scanConversion, hkind]
    dsimp only
    rw [scanWord_string h, some_bind, takesText_finish (by omega) (by omega) hfront, Nat.add_left_cancel_iff,
      length_spaces_eq_iff, List.drop_eq_nil_iff]
  have hbytes : TakesText (scanConversion uni sizeHint (A.held true) F p c) c.ignoreData p.data
      (wordRun uni c.width (A.chars.drop p.data)) := by
    rw [scanConversion, hkind]
    dsimp only
    rw [scanWord_bytes h, some_bind, takesText_finish (by omega) (by omega) hfront]
  refine ⟨fun hall => hstring.mp (hall false), fun hmeets b => ?_⟩
  cases b with
  | false => exact hstring.mpr hmeets
  | true => exact hbytes

/-- What a line feed of the format does in front of data. -/
theorem lineFeed_iff :
    (∀ b, TakesLineEnding (matchLineFeed uni.toUniTable (A.held b) p format) p.data (A.chars.drop p.data)) ↔
      A.chars.length ≤ p.data ∨ cell A.chars p.data = carriageReturn ∧ p.data + 1 < A.chars.length := by
  unfold matchLineFeed
  simp only [dataEnd_held]
  by_cases hend : A.chars.length ≤ p.data
  · refine ⟨fun _ => .inl hend, fun _ b => ?_⟩
    rw [if_pos hend, List.drop_eq_nil_of_le hend]
    exact ⟨rfl, rfl⟩
  · have hlt : p.data < A.chars.length := Nat.lt_of_not_le hend
    have hascii := cell_lt hlt
    rw [or_iff_right hend, drop_eq_cell hlt]
    simp only [if_neg hend, rd_held hlt, some_bind]
    by_cases hreturn : cell A.chars p.data = carriageReturn
    · by_cases hlast : A.chars.length ≤ p.data + 1
      · simp only [if_pos hreturn, if_pos hlast]
        refine ⟨fun hall => ?_, fun hmeets => absurd hmeets.2 (Nat.not_lt.mpr hlast)⟩
        have hnone : lineEnding (cell A.chars p.data :: A.chars.drop (p.data + 1)) = 0 := (hall true).1
        rw [lineEnding, if_pos hreturn, List.drop_eq_nil_of_le hlast] at hnone
        cases hnone
      · have hnext : p.data + 1 < A.chars.length := Nat.lt_of_not_le hlast
        simp only [if_pos hreturn, if_neg hlast, rd_held hnext, some_bind]
        refine ⟨fun _ => ⟨hreturn, hnext⟩, fun _ b => ?_⟩
        have hlen : lineEnding (cell A.chars p.data :: A.chars.drop (p.data + 1)) =
            if cell A.chars (p.data + 1) = lineFeed then 2 else 1 := by
          rw [lineEnding, if_pos hreturn, drop_eq_cell hnext, List.head?_cons]
          simp only [Option.some.injEq]
        change 0 < lineEnding _ ∧ (if _ then _ else _) = p.data + lineEnding _
        rw [hlen]
        split_ifs
        · exact ⟨Nat.zero_lt_two, rfl⟩
        · exact ⟨Nat.one_pos, rfl⟩
    · refine ⟨fun hall => ?_, fun hmeets => absurd hmeets.1 hreturn⟩
      have hstring := hall false
      simp only [if_neg hreturn] at hstring
      by_cases hfeed : cell A.chars p.data = lineFeed
      · rw [if_pos hfeed] at hstring
        have hlen : p.data = p.data + lineEnding (cell A.chars p.data :: A.chars.drop (p.data + 1)) := hstring.2
        rw [lineEnding, if_neg hreturn, if_pos hfeed] at hlen
        omega
      · rw [if_neg hfeed, if_neg (show ¬ (A.held false).isBytes = true from Bool.false_ne_true),
          readUtf8N_held hlt hlt, some_bind] at hstring
        have hother : uni.toUniTable.deeUniIsLF (cell A.chars p.data) = false := by
          rw [UniTable.deeUniIsLF, if_pos hascii]
          exact decide_eq_false (not_or.mpr ⟨hfeed, hreturn⟩)
        dsimp only at hstring
        rw [hother] at hstring
        have hdata := hstring.2
        omega

theorem lineFeed_alike
    (hmeets : A.chars.length ≤ p.data ∨ cell A.chars p.data = carriageReturn ∧ p.data + 1 < A.chars.length) :
    Alike (matchLineFeed uni.toUniTable (A.held false) p format) (matchLineFeed uni.toUniTable (A.held true) p format) := by
  unfold matchLineFeed
  rw [dataEnd_held, dataEnd_held]
  rcases hmeets with hend | ⟨hreturn, hnext⟩
  · rw [if_pos hend, if_pos hend]
    rfl
  · have hlt : p.data < A.chars.length := Nat.lt_of_succ_lt hnext
    rw [if_neg (Nat.not_le.mpr hlt), if_neg (Nat.not_le.mpr hlt), rd_held hlt, rd_held hlt]
    dsimp only [some_bind]
    rw [if_pos hreturn, if_pos hreturn, if_neg (Nat.not_le.mpr hnext), if_neg (Nat.not_le.mpr hnext), rd_held hnext,
      rd_held hnext]
    rfl

end Directives

/-! ### Rounds -/

section Rounds

variable {A : AsciiData} {uni : ScanTable} {sizeHint : ℕ → ℕ → ℕ} {F : ScanFormat} {p : ScanPoint} {c : Conversion}

/-- A round goes alike over a string and over bytes, `%s` takes the longest run of characters that are no spaces, and a line
feed takes one line ending. -/
structure RoundAlike (uni : ScanTable) (sizeHint : ℕ → ℕ → ℕ) (A : AsciiData) (F : ScanFormat) (p : ScanPoint) : Prop where
  agree : Alike (scanRound uni sizeHint (A.held false) F p) (scanRound uni sizeHint (A.held true) F p)
  word : ∀ c, readDirective uni.toUniTable F p.format = some (.conversion c) → conversionKind c.ch = .word → ∀ b,
    TakesText (scanRound uni sizeHint (A.held b) F p) c.ignoreData p.data (wordRun uni c.width (A.chars.drop p.data))
  lineFeed : ∀ format, readDirective uni.toUniTable F p.format = some (.lineFeed format) → ∀ b,
    TakesLineEnding (scanRound uni sizeHint (A.held b) F p) p.data (A.chars.drop p.data)

theorem scanRound_eq {S : ScanData} {d : Directive} (hd : readDirective uni.toUniTable F p.format = some d) :
    scanRound uni sizeHint S F p = scanDirective uni sizeHint S F p d := by
  rw [scanRound, hd, some_bind]

theorem scanConversion_alike (h : p.data ≤ A.chars.length) (hmeets : MeetsConversion uni.toUniTable A p c) :
    Alike (scanConversion uni sizeHint (A.held false) F p c) (scanConversion uni sizeHint (A.held true) F p c) := by
  unfold scanConversion
  unfold MeetsConversion at hmeets
  cases hkind : conversionKind c.ch with
  | percent => exact matchCh_alike
  | integer conv =>
    rw [hkind] at hmeets
    exact convertInteger_alike h hmeets
  | chars =>
    rw [hkind] at hmeets
    exact (convertChars_alike_iff h).mpr hmeets
  | word =>
    rw [hkind] at hmeets
    have hlen := (@length_spaces_eq_iff uni c.width _).mpr (hmeets.imp_right List.drop_eq_nil_iff.mpr)
    have hle := @length_wordRun_le uni c.width (A.chars.drop p.data)
    rw [List.length_drop] at hle
    dsimp only
    rw [scanWord_string h, scanWord_bytes h, hlen]
    exact finishText_alike (by omega)
  | set => exact convertSet_alike h
  | count =>
    dsimp only
    rw [consumed_held h, consumed_held h, some_bind]
    cases deeIntNewUInt64 p.data <;> rfl
  | unknown => rfl

theorem meets_of_scanConversion_alike (h : p.data ≤ A.chars.length)
    (halike : Alike (scanConversion uni sizeHint (A.held false) F p c) (scanConversion uni sizeHint (A.held true) F p c))
    (hword : conversionKind c.ch = .word → c.width = 0 ∨ A.chars.length ≤ p.data) :
    MeetsConversion uni.toUniTable A p c := by
  unfold MeetsConversion
  unfold scanConversion at halike
  cases hkind : conversionKind c.ch with
  | integer conv =>
    rw [hkind] at halike
    intro hzero
    by_contra hmark
    exact convertInteger_not_alike h hzero hmark halike
  | chars =>
    rw [hkind] at halike
    exact (convertChars_alike_iff h).mp halike
  | word => exact hword hkind
  | percent | set | count | unknown => trivial

/-- A round goes right exactly when its directive meets data that it is meant for. -/
theorem roundAlike_iff (h : p.data ≤ A.chars.length) : RoundAlike uni sizeHint A F p ↔ MeetsRound uni A F p := by
  constructor
  · rintro ⟨hagree, hword, hfeed⟩ d hd
    rw [scanRound_eq hd, scanRound_eq hd] at hagree
    cases d with
    | conversion c =>
      refine meets_of_scanConversion_alike h hagree fun hkind => ?_
      have htakes := hword c hd hkind
      simp only [scanRound_eq hd] at htakes
      exact (word_iff h hkind).mp htakes
    | lineFeed format =>
      have htakes := hfeed format hd
      simp only [scanRound_eq hd] at htakes
      exact lineFeed_iff.mp htakes
    | formatEnd format | space format | literal ch format => trivial
  · intro hmeets
    refine ⟨?_, fun c hd hkind b => ?_, fun format hd b => ?_⟩
    · cases hd : readDirective uni.toUniTable F p.format with
      | none =>
        unfold scanRound Alike
        rw [hd]
        rfl
      | some d =>
        have hd' := hmeets d hd
        rw [scanRound_eq hd, scanRound_eq hd]
        cases d with
        | conversion c => exact scanConversion_alike h hd'
        | lineFeed format => exact lineFeed_alike hd'
        | formatEnd format => rfl
        | space format =>
          unfold scanDirective
          rw [skipSpaces_held true]
          cases skipSpaces uni (A.held false) p.data <;> rfl
        | literal ch format => exact matchCh_alike
    · have hc := hmeets _ hd
      rw [MeetsDirective, MeetsConversion, hkind] at hc
      rw [scanRound_eq hd]
      exact (word_iff h hkind).mpr hc b
    · rw [scanRound_eq hd]
      exact lineFeed_iff.mpr (hmeets _ hd) b

end Rounds

/-! ### Whole scans -/

section Scans

variable {A : AsciiData} {uni : ScanTable} {sizeHint : ℕ → ℕ → ℕ} {S : ScanData} {F : ScanFormat} {p : ScanPoint}
  {c : Conversion} {step : Step ScanPoint ScanResult} {detected : Bool} {data format : ℕ}

/-- The points at which `next_format` is reached before the iterator is exhausted. -/
inductive Reaches (uni : ScanTable) (sizeHint : ℕ → ℕ → ℕ) (S : ScanData) (F : ScanFormat) : ScanPoint → Prop where
  | start : Reaches uni sizeHint S F (.atCall 0 0)
  | directive {p p' : ScanPoint} (h : Reaches uni sizeHint S F p) (hround : scanRound uni sizeHint S F p = some (.next p')) :
    Reaches uni sizeHint S F p'
  | call {p : ScanPoint} {v : Item} {data format : ℕ} (h : Reaches uni sizeHint S F p)
    (hround : scanRound uni sizeHint S F p = some (.done (.item v data format))) :
    Reaches uni sizeHint S F (.atCall data format)

/-- The scans over the string and over the bytes yield the same items and stop in the same state, and each of their rounds
does what it should. -/
structure ScansAlike (uni : ScanTable) (sizeHint : ℕ → ℕ → ℕ) (A : AsciiData) (F : ScanFormat) : Prop where
  items : ∀ items t, Yields (ssiNext uni sizeHint (A.held true) F) ⟨0, 0⟩ items t ↔
    ∃ texts, Yields (ssiNext uni sizeHint (A.held false) F) ⟨0, 0⟩ texts t ∧ items = texts.map (Except.map Item.asBytes)
  rounds : ∀ p, Reaches uni sizeHint (A.held false) F p → RoundAlike uni sizeHint A F p

theorem finishText_data (hrun : finishText S p c detected data format = some step) : ∀ d ∈ roundData step, d = data := by
  unfold finishText yieldText at hrun
  split_ifs at hrun with hignore hbytes
  · exact data_of_some hrun rfl rfl
  · obtain ⟨text, -, hrun⟩ := of_bind hrun
    obtain ⟨-, -, hrun⟩ := of_bind hrun
    exact data_of_some hrun rfl rfl
  · obtain ⟨text, -, hrun⟩ := of_bind hrun
    obtain ⟨s, -, hrun⟩ := of_bind hrun
    cases s with
    | none =>
      exact no_data_of_some hrun rfl
    | some s =>
      exact data_of_some hrun rfl rfl

theorem matchCh_le {ch : ℕ} (h : p.data ≤ A.chars.length) (hrun : matchCh (A.held false) p ch format = some step) :
    ∀ d ∈ roundData step, d ≤ A.chars.length := by
  unfold matchCh at hrun
  rw [dataEnd_held] at hrun
  split_ifs at hrun with hend
  · exact data_of_some hrun rfl h
  · obtain ⟨dataCh, -, hrun⟩ := of_bind hrun
    obtain rfl := Option.some.inj hrun
    split_ifs
    · exact fun d hd => Option.some.inj hd ▸ h
    · exact fun d hd => Option.some.inj hd ▸ Nat.lt_of_not_le hend

theorem matchLineFeed_le (h : p.data ≤ A.chars.length)
    (hrun : matchLineFeed uni.toUniTable (A.held false) p format = some step) :
    ∀ d ∈ roundData step, d ≤ A.chars.length := by
  unfold matchLineFeed at hrun
  rw [dataEnd_held] at hrun
  by_cases hend : A.chars.length ≤ p.data
  · rw [if_pos hend] at hrun
    exact data_of_some hrun rfl h
  · have hlt : p.data < A.chars.length := Nat.lt_of_not_le hend
    rw [if_neg hend, rd_held hlt, some_bind] at hrun
    split_ifs at hrun with hreturn hlast hfeed hbytes
    · exact data_of_some hrun rfl h
    · obtain ⟨ch, -, hrun⟩ := of_bind hrun
      obtain rfl := Option.some.inj hrun
      intro d hd
      obtain rfl := Option.some.inj hd
      dsimp only
      split_ifs <;> omega
    · exact data_of_some hrun rfl h
    · exact data_of_some hrun rfl h
    · rw [readUtf8N_held hlt hlt, some_bind, Option.some.injEq] at hrun
      obtain rfl := hrun
      split_ifs
      · exact fun d hd => Option.some.inj hd ▸ hlt
      · exact fun d hd => Option.some.inj hd ▸ hlt

theorem convertSet_le (h : p.data ≤ A.chars.length) (hrun : convertSet (A.held false) F p c = some step) :
    ∀ d ∈ roundData step, d ≤ A.chars.length := by
  unfold convertSet at hrun
  obtain ⟨r, -, hrun⟩ := of_bind hrun
  cases r with
  | error format =>
    exact data_of_some hrun rfl h
  | ok set =>
    dsimp only at hrun
    split_ifs at hrun with hend
    · exact data_of_some hrun rfl h
    · obtain ⟨data, hscan, hrun⟩ := of_bind hrun
      obtain ⟨format, -, hrun⟩ := of_bind hrun
      exact fun d hd => finishText_data hrun d hd ▸ scanWhile_le h hscan

theorem scanConversion_le (h : p.data ≤ A.chars.length)
    (hrun : scanConversion uni sizeHint (A.held false) F p c = some step) : ∀ d ∈ roundData step, d ≤ A.chars.length := by
  unfold scanConversion at hrun
  cases hkind : conversionKind c.ch with
  | percent =>
    rw [hkind] at hrun
    exact matchCh_le h hrun
  | integer conv =>
    rw [hkind] at hrun
    obtain ⟨data, hscan, hdata⟩ := convertInteger_data hrun
    have htaken := @fieldTaken_le_length uni.toUniTable conv.radix c.width (A.chars.drop p.data) conv.radix_le
    rw [scanInteger_held conv.radix_le h fun _ => noMarkBehind_string, Option.some.injEq] at hscan
    rw [List.length_drop] at htaken
    exact fun d hd => by
      have heq := hdata d hd
      omega
  | chars =>
    rw [hkind] at hrun
    dsimp only [convertChars] at hrun
    rw [left_held h] at hrun
    set width := if c.width = sizeMax then 1 else c.width
    split_ifs at hrun with hend
    · exact data_of_some hrun rfl h
    · intro d hd
      have heq := finishText_data hrun d hd
      omega
  | word =>
    rw [hkind] at hrun
    dsimp only at hrun
    obtain ⟨data, hscan, hrun⟩ := of_bind hrun
    exact fun d hd => finishText_data hrun d hd ▸ scanWhile_le h hscan
  | set =>
    rw [hkind] at hrun
    exact convertSet_le h hrun
  | count =>
    rw [hkind] at hrun
    obtain ⟨n, -, hrun⟩ := of_bind hrun
    obtain ⟨v, -, hrun⟩ := of_bind hrun
    exact data_of_some hrun rfl h
  | unknown =>
    rw [hkind] at hrun
    exact no_data_of_some hrun rfl

/-- A round does not leave the data of a string. -/
theorem scanRound_le (h : p.data ≤ A.chars.length) (hrun : scanRound uni sizeHint (A.held false) F p = some step) :
    ∀ d ∈ roundData step, d ≤ A.chars.length := by
  obtain ⟨directive, -, hrun⟩ := of_bind hrun
  cases directive with
  | formatEnd format =>
    exact data_of_some hrun rfl h
  | conversion c => exact scanConversion_le h hrun
  | space format =>
    obtain ⟨data, hskip, hrun⟩ := of_bind hrun
    exact data_of_some hrun rfl (skipSpaces_le h hskip)
  | lineFeed format => exact matchLineFeed_le h hrun
  | literal ch format => exact matchCh_le h hrun

theorem Reaches.data_le (h : Reaches uni sizeHint (A.held false) F p) : p.data ≤ A.chars.length := by
  induction h with
  | start => exact Nat.zero_le _
  | directive _ hround ih => exact scanRound_le ih hround _ rfl
  | call _ hround ih => exact scanRound_le ih hround _ rfl

/-- The calls from a point that is reached answer alike. -/
theorem ssiNext_alike {s : ScanState}
    (hrounds : ∀ p, Reaches uni sizeHint (A.held false) F p → RoundAlike uni sizeHint A F p)
    (hs : Reaches uni sizeHint (A.held false) F (.atCall s.datIter s.fmtIter.toNat)) :
    ssiNext uni sizeHint (A.held true) F s =
      (ssiNext uni sizeHint (A.held false) F s).map (Prod.map (Option.map (Except.map Item.asBytes)) id) := by
  have hloop : loop (scanRound uni sizeHint (A.held true) F) (F.fmtEnd + 2) (.atCall s.datIter s.fmtIter.toNat) =
      (loop (scanRound uni sizeHint (A.held false) F) (F.fmtEnd + 2) (.atCall s.datIter s.fmtIter.toNat)).map
        ScanResult.asBytes :=
    loop_map (Reaches uni sizeHint (A.held false) F) ScanResult.asBytes hs (fun p hp => (hrounds p hp).agree)
      fun p p' hp hround => hp.directive hround
  unfold ssiNext
  cases assert (0 ≤ s.fmtIter) with
  | none => rfl
  | some _ =>
    rw [some_bind, some_bind, hloop]
    cases loop (scanRound uni sizeHint (A.held false) F) (F.fmtEnd + 2) (.atCall s.datIter s.fmtIter.toNat) with
    | none => rfl
    | some r => cases r <;> rfl

theorem ssiNext_reaches {s s' : ScanState} {item : Except ScanError Item}
    (hs : Reaches uni sizeHint S F (.atCall s.datIter s.fmtIter.toNat))
    (hnext : ssiNext uni sizeHint S F s = some (some item, s')) :
    Reaches uni sizeHint S F (.atCall s'.datIter s'.fmtIter.toNat) := by
  unfold ssiNext at hnext
  obtain ⟨-, -, hnext⟩ := of_bind hnext
  obtain ⟨r, hloop, hnext⟩ := of_bind hnext
  have hitem : ∀ v data format, r = .item v data format → Reaches uni sizeHint S F (.atCall data format) := by
    refine loop_post
      (Q := fun r => ∀ v data format, r = .item v data format → Reaches uni sizeHint S F (.atCall data format))
      (Reaches uni sizeHint S F) hs ?_ hloop
    intro p step hp hround
    cases step with
    | next p' => exact hp.directive hround
    | done r =>
      rintro v data format rfl
      exact hp.call hround
  cases r with
  | item v data format =>
    obtain ⟨-, rfl⟩ := Prod.mk.inj (Option.some.inj hnext)
    exact hitem v data format rfl
  | iterDone data format => cases hnext
  | error err =>
    obtain ⟨-, rfl⟩ := Prod.mk.inj (Option.some.inj hnext)
    exact hs

/-- Text and bytes are scanned alike if and only if, in the scan of the text, every directive meets data that it is meant
for. -/
theorem scansAlike_iff (uni : ScanTable) (sizeHint : ℕ → ℕ → ℕ) (A : AsciiData) (F : ScanFormat) :
    ScansAlike uni sizeHint A F ↔ ∀ p, Reaches uni sizeHint (A.held false) F p → MeetsRound uni A F p := by
  constructor
  · intro h p hp
    exact (roundAlike_iff hp.data_le).mp (h.rounds p hp)
  · intro hmeets
    have hrounds : ∀ p, Reaches uni sizeHint (A.held false) F p → RoundAlike uni sizeHint A F p := fun p hp =>
      (roundAlike_iff hp.data_le).mpr (hmeets p hp)
    refine ⟨fun items t => ?_, hrounds⟩
    exact yields_map (fun s => Reaches uni sizeHint (A.held false) F (.atCall s.datIter s.fmtIter.toNat)) _
      (fun s hs => ssiNext_alike hrounds hs) (fun s item s' hs hnext => ssiNext_reaches hs hnext) items .start

/-- Over the string `ab`, `%s` reads nothing, `%c` makes a view of bytes of the string object, and a line feed takes a
character. -/
theorem scansAlike_fails :
    let uni : ScanTable := ⟨⟨fun _ => 0xff, fun _ => none, fun _ => false⟩, fun _ => false⟩
    let ab : AsciiData := ⟨[0x61, 0x62], [], by decide, by decide⟩
    let next := fun isBytes format => ssiNext uni (fun _ _ => 0) (ab.held isBytes) ⟨format, [0]⟩ ⟨0, 0⟩
    (¬ ScansAlike uni (fun _ _ => 0) ab ⟨[0x25, 0x73], [0]⟩ ∧ ¬ ScansAlike uni (fun _ _ => 0) ab ⟨[0x25, 0x63], [0]⟩ ∧
      ¬ ScansAlike uni (fun _ _ => 0) ab ⟨[0x0a], [0]⟩) ∧
    (next true [0x25, 0x73] = some (some (.ok (.bytes [0x61, 0x62])), ⟨2, 2⟩) ∧
      ∃ s, next false [0x25, 0x73] = some (some (.ok (.string s)), ⟨0, 2⟩) ∧ s.uData = []) ∧
    (next true [0x25, 0x63] = some (some (.ok (.bytes [0x61])), ⟨1, 2⟩) ∧ next false [0x25, 0x63] = none) ∧
    next true [0x0a] = some (none, ⟨0, 0⟩) ∧ next false [0x0a] = some (none, ⟨1, 0⟩) := by
  refine ⟨⟨fun h => ?_, fun h => ?_, fun h => ?_⟩, ⟨rfl, _, rfl, rfl⟩, ⟨rfl, rfl⟩, rfl, rfl⟩
  · have hmeets := (roundAlike_iff (Nat.zero_le _)).mp (h.rounds _ .start) (.conversion ⟨false, sizeMax, 0x73, 2⟩) rfl
    rcases hmeets with hwidth | hend
    · exact absurd hwidth (by decide)
    · exact absurd hend (by decide)
  · have hmeets := (roundAlike_iff (Nat.zero_le _)).mp (h.rounds _ .start) (.conversion ⟨false, sizeMax, 0x63, 2⟩) rfl
    rcases hmeets with hignore | hdetected | hend
    · exact absurd hignore (by decide)
    · exact absurd hdetected (by decide)
    · exact absurd hend.1 (by decide)
  · have hmeets := (roundAlike_iff (Nat.zero_le _)).mp (h.rounds _ .start) (.lineFeed 1) rfl
    rcases hmeets with hend | hreturn
    · exact absurd hend (by decide)
    · exact absurd hreturn.1 (by decide)

end Scans

end Deemon.Unicode
