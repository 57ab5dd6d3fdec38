import Deemon.Unicode.Utf16

/-!
# Packing UTF-16 is exact unless a high surrogate is replaced

While all high surrogates have a low one, or are dropped, the counters of the scan describe the units in front of `i`.
A replaced surrogate is not counted: from then on the string has more characters than were counted. A pair that is
replaced at the end makes up for that by counting the unit that was deleted, and then this unit is missing.
-/

namespace Deemon.Unicode

open Deemon.Run

/-! ### Decoding -/

section Decode

variable {mode : ErrorMode} {a b units cs : List ℕ} {u v : ℕ}

theorem not_isHigh_of_isLow (h : IsLow v) : ¬IsHigh v := fun h' => by
  have := h.1
  have := h'.2
  omega

theorem pairChar_gt (u v : ℕ) : 0xffff < pairChar u v := by
  unfold pairChar
  omega

theorem shiftLeft_or_pairChar (hv : IsLow v) :
    ((u - 0xd800) <<< 10 ||| (v - 0xdc00)) + 0x10000 = pairChar u v := by
  have hlt : v - 0xdc00 < 2 ^ 10 := by
    have := hv.2
    omega
  rw [← Nat.shiftLeft_add_eq_or_of_lt hlt, Nat.shiftLeft_eq]
  unfold pairChar
  omega

theorem surrogateChars_eq (units : List ℕ) : surrogateChars units = decodeUtf16 .strict units := by
  fun_induction decodeUtf16 ErrorMode.strict units with
  | case1 => rfl
  | case2 u hu hr => cases hr
  | case3 u hu _ hr => cases hr
  | case4 u hu => exact if_pos hu
  | case5 u hu => exact if_neg hu
  | case6 u v rest hu hv ih =>
    unfold surrogateChars
    rw [if_pos hu, if_pos hv, shiftLeft_or_pairChar hv, ih]
  | case7 u v rest hu hv hr => cases hr
  | case8 u v rest hu hv _ hr => cases hr
  | case9 u v rest hu hv =>
    unfold surrogateChars
    rw [if_pos hu, if_neg hv]
  | case10 u v rest hu ih =>
    unfold surrogateChars
    rw [if_neg hu, ih]

theorem decodeUtf16_cons (hu : ¬IsHigh u) : decodeUtf16 mode (u :: b) = (decodeUtf16 mode b).map (u :: ·) := by
  cases b with
  | nil => simp [decodeUtf16, hu]
  | cons v b =>
    rw [decodeUtf16, if_neg hu]
    rfl

theorem decodeUtf16_pair (hu : IsHigh u) (hv : IsLow v) :
    decodeUtf16 mode (u :: v :: b) = (decodeUtf16 mode b).map (pairChar u v :: ·) := by
  rw [decodeUtf16, if_pos hu, if_pos hv]
  rfl

/-- The units `a` have no lone high surrogate and stand for the characters `cs`. -/
inductive WellPaired : List ℕ → List ℕ → Prop where
  | nil : WellPaired [] []
  | unit {u : ℕ} {a cs : List ℕ} (hu : ¬IsHigh u) (h : WellPaired a cs) : WellPaired (u :: a) (u :: cs)
  | pair {u v : ℕ} {a cs : List ℕ} (hu : IsHigh u) (hv : IsLow v) (h : WellPaired a cs) :
    WellPaired (u :: v :: a) (pairChar u v :: cs)

/-- Such units are read alike under all modes, and what follows does not change them. -/
theorem WellPaired.decodeUtf16_append (h : WellPaired a cs) :
    decodeUtf16 mode (a ++ b) = (decodeUtf16 mode b).map (cs ++ ·) := by
  induction h with
  | nil => simp
  | unit hu h ih =>
    rw [List.cons_append, decodeUtf16_cons hu, ih, Option.map_map]
    rfl
  | pair hu hv h ih =>
    rw [List.cons_append, List.cons_append, decodeUtf16_pair hu hv, ih, Option.map_map]
    rfl

theorem WellPaired.decodeUtf16 (h : WellPaired a cs) : decodeUtf16 mode a = some cs := by
  have happend := @WellPaired.decodeUtf16_append mode a [] cs h
  rw [List.append_nil] at happend
  rw [happend]
  simp [Unicode.decodeUtf16]

theorem WellPaired.append {ds : List ℕ} (h : WellPaired a cs) (h' : WellPaired b ds) : WellPaired (a ++ b) (cs ++ ds) := by
  induction h with
  | nil => exact h'
  | unit hu h ih => exact .unit hu ih
  | pair hu hv h ih => exact .pair hu hv ih

theorem WellPaired.concat (h : WellPaired a cs) (hu : ¬IsHigh u) : WellPaired (a ++ [u]) (cs ++ [u]) :=
  h.append (.unit hu .nil)

theorem WellPaired.concat_pair (h : WellPaired a cs) (hu : IsHigh u) (hv : IsLow v) :
    WellPaired (a ++ [u, v]) (cs ++ [pairChar u v]) :=
  h.append (.pair hu hv .nil)

theorem WellPaired.length_le (h : WellPaired a cs) : cs.length ≤ a.length := by
  induction h with
  | nil => exact le_rfl
  | unit hu h ih => exact Nat.succ_le_succ ih
  | pair hu hv h ih => exact (Nat.succ_le_succ ih).trans (Nat.le_succ _)

theorem WellPaired.eq_of_forall_le (h : WellPaired a cs) (hcs : ∀ c ∈ cs, c ≤ 0xffff) : a = cs := by
  induction h with
  | nil => rfl
  | unit hu h ih => rw [ih fun c hc => hcs c (List.mem_cons_of_mem _ hc)]
  | pair hu hv h ih => exact absurd (hcs _ List.mem_cons_self) (Nat.not_le_of_lt (pairChar_gt _ _))

theorem utf8Size_pos (c : ℕ) : 0 < utf8Size c := by
  unfold utf8Size
  split_ifs <;> decide

theorem utf8Size_eq_one_iff {c : ℕ} : utf8Size c = 1 ↔ c ≤ 0x7f := by
  unfold utf8Size
  split_ifs <;> simp_all

theorem utf8Size_pairChar (u v : ℕ) : utf8Size (pairChar u v) = 4 := by
  have hgt := pairChar_gt u v
  unfold utf8Size
  rw [if_neg (by omega), if_neg (by omega), if_neg (by omega)]

theorem WellPaired.length_le_sum (h : WellPaired a cs) : a.length ≤ (cs.map utf8Size).sum := by
  induction h with
  | nil => exact le_rfl
  | @unit u a cs hu h ih =>
    have hpos := utf8Size_pos u
    rw [List.length_cons, List.map_cons, List.sum_cons]
    omega
  | pair hu hv h ih =>
    rw [List.length_cons, List.length_cons, List.map_cons, List.sum_cons, utf8Size_pairChar]
    omega

/-- As many UTF-8 bytes as units: all of them are ASCII. -/
theorem WellPaired.ascii_of_sum_eq (h : WellPaired a cs) (hsum : (cs.map utf8Size).sum = a.length) :
    a = cs ∧ ∀ c ∈ cs, c ≤ 0x7f := by
  induction h with
  | nil => exact ⟨rfl, nofun⟩
  | @unit u a cs hu h ih =>
    have hle := h.length_le_sum
    have hpos := utf8Size_pos u
    rw [List.length_cons, List.map_cons, List.sum_cons] at hsum
    obtain ⟨rfl, hcs⟩ := ih (by omega)
    refine ⟨rfl, fun c hc => ?_⟩
    rcases List.mem_cons.mp hc with rfl | hc
    · exact utf8Size_eq_one_iff.mp (by omega)
    · exact hcs c hc
  | pair hu hv h ih =>
    have hle := h.length_le_sum
    rw [List.length_cons, List.length_cons, List.map_cons, List.sum_cons, utf8Size_pairChar] at hsum
    omega

/-- There is a high surrogate without a low one behind it. -/
def HasLoneHigh (units : List ℕ) : Prop := ∃ i, IsHigh (cell units i) ∧ ¬IsLow (cell units (i + 1))

theorem decodeUtf16_eq_none_iff : decodeUtf16 .strict units = none ↔ HasLoneHigh units := by
  have hzero : ¬IsHigh 0 := by decide
  have hzero' : ¬IsLow 0 := by decide
  -- a unit that is no lone high surrogate does not matter
  have hskip : ∀ u (l : List ℕ), (IsHigh u → IsLow (cell l 0)) → (HasLoneHigh (u :: l) ↔ HasLoneHigh l) := by
    intro u l hu
    constructor
    · rintro ⟨i, hhigh, hlow⟩
      cases i with
      | zero => exact absurd (hu hhigh) hlow
      | succ i => exact ⟨i, hhigh, hlow⟩
    · rintro ⟨i, hhigh, hlow⟩
      exact ⟨i + 1, hhigh, hlow⟩
  fun_induction decodeUtf16 ErrorMode.strict units with
  | case1 => exact iff_of_false nofun fun ⟨i, hhigh, _⟩ => hzero hhigh
  | case2 | case3 | case7 | case8 => contradiction
  | case4 u hu => exact iff_of_true rfl ⟨0, hu, hzero'⟩
  | case5 u hu =>
    rw [hskip u [] fun hu' => absurd hu' hu]
    exact iff_of_false nofun fun ⟨i, hhigh, _⟩ => hzero hhigh
  | case6 u v rest hu hv ih =>
    rw [hskip u (v :: rest) fun _ => hv, hskip v rest fun hv' => absurd hv' (not_isHigh_of_isLow hv)]
    exact Option.map_eq_none_iff.trans ih
  | case9 u v rest hu hv => exact iff_of_true rfl ⟨0, hu, hv⟩
  | case10 u v rest hu ih =>
    rw [hskip u (v :: rest) fun hu' => absurd hu' hu]
    exact Option.map_eq_none_iff.trans ih

theorem exists_decodeUtf16_of_replac (h : mode.freplac) : ∃ cs, decodeUtf16 mode units = some cs := by
  fun_induction decodeUtf16 mode units with
  | case1 => exact ⟨[], rfl⟩
  | case2 => exact ⟨[chr '?'], rfl⟩
  | case5 u => exact ⟨[u], rfl⟩
  | case3 | case4 | case8 | case9 => contradiction
  | case6 u v rest hu hv ih =>
    obtain ⟨cs, hcs⟩ := ih
    exact ⟨_, congrArg _ hcs⟩
  | case7 u v rest hu hv _ ih =>
    obtain ⟨cs, hcs⟩ := ih
    exact ⟨_, congrArg _ hcs⟩
  | case10 u v rest hu ih =>
    obtain ⟨cs, hcs⟩ := ih
    exact ⟨_, congrArg _ hcs⟩

end Decode

/-! ### The scan -/

section Scan

variable {mode : ErrorMode} {units a b tail cs : List ℕ} {s : PackState} {ch : ℕ}

/-- The buffer holds the units `a` that were read, the units `b` in front of the scan, and old cells. -/
structure PackState.At (s : PackState) (a b tail : List ℕ) : Prop where
  text : s.text = a ++ (b ++ tail)
  i : s.i = a.length
  length : s.length = a.length + b.length

/-- The counters describe the characters `cs`. -/
structure PackState.Counted (s : PackState) (cs : List ℕ) : Prop where
  characterCount : s.characterCount = cs.length
  utf8Length : s.utf8Length = (cs.map utf8Size).sum
  kind : s.kind = if ∀ c ∈ cs, c ≤ 0xffff then 0 else 2

theorem PackState.Counted.count (h : s.Counted cs) (i : ℕ) : (s.count i ch).Counted (cs ++ [ch]) where
  characterCount := by
    rw [List.length_append, ← h.characterCount]
    rfl
  utf8Length := by
    rw [List.map_append, List.sum_append, ← h.utf8Length, List.map_singleton, List.sum_singleton]
    rfl
  kind := by
    have hkind : (s.count i ch).kind = if ch ≤ 0xffff then s.kind else 2 := rfl
    rw [hkind, h.kind]
    by_cases hch : ch ≤ 0xffff
    · simp [hch, or_imp, forall_and]
    · simp [hch, or_imp, forall_and]

/-- The kind that a pair sets first does not matter, for its character sets another one. -/
theorem PackState.Counted.count_pair (h : s.Counted cs) (i : ℕ) {kind : ℕ} (hch : 0xffff < ch) :
    (PackState.count { s with kind := kind } i ch).Counted (cs ++ [ch]) := by
  have hcount := @PackState.Counted.count cs s ch h i
  refine ⟨hcount.characterCount, hcount.utf8Length, ?_⟩
  rw [← hcount.kind]
  unfold PackState.count
  rw [if_neg (Nat.not_le_of_lt hch), if_neg (Nat.not_le_of_lt hch)]

/-- What the buffer and the counters say when the scan ends well. -/
structure PackState.Fine (mode : ErrorMode) (units : List ℕ) (s : PackState) : Prop where
  length_le : s.length ≤ s.text.length
  chars : ∃ cs, WellPaired (s.text.take s.length) cs ∧ decodeUtf16 mode units = some cs ∧ s.Counted cs
  replac : mode.freplac → ¬HasLoneHigh units

/-- What they say when a surrogate was replaced: there are more characters than were counted. -/
def PackState.Wrong (mode : ErrorMode) (units : List ℕ) (s : PackState) : Prop :=
  (∃ cs, WellPaired (s.text.take s.length) cs ∧ s.characterCount < cs.length) ∨
    ∀ cs, decodeUtf16 mode units = some cs → s.characterCount ≠ cs.length

/-- How the scan ends. -/
def PackOutcome (mode : ErrorMode) (units : List ℕ) : Option PackState → Prop
  | none => decodeUtf16 mode units = none
  | some s => s.Fine mode units ∨ mode.freplac ∧ HasLoneHigh units ∧ s.Wrong mode units

/-- The states of the scan. -/
inductive PackInv (mode : ErrorMode) (units : List ℕ) (s : PackState) : Prop where
  /-- Nothing was replaced. -/
  | counted (a b tail cs : List ℕ) (hat : s.At a b tail) (hread : s.reading = false) (hpaired : WellPaired a cs)
    (hcounted : s.Counted cs) (hdecode : decodeUtf16 mode units = (decodeUtf16 mode b).map (cs ++ ·))
    (hsame : mode.freplac → units = a ++ b)
  /-- A replaced surrogate was not counted; if the scan reads the cell behind the text, that does not make up for it. -/
  | uncounted (a b tail cs : List ℕ) (hat : s.At a b tail) (hpaired : WellPaired a cs)
    (hless : s.characterCount < cs.length)
    (hpast : s.reading → b = [] → ∃ x tail', tail = x :: tail' ∧ (IsHigh x ∨ s.characterCount + 1 < cs.length))
    (hreplac : mode.freplac) (hlone : HasLoneHigh units)
  /-- The unit behind the replaced surrogate was the last one, and is read although it is no longer part of the text. -/
  | lost (a tail : List ℕ) (x : ℕ) (hat : s.At a [] (x :: tail)) (hread : s.reading = true) (hx : ¬IsHigh x)
    (hlength : ∀ cs, decodeUtf16 mode units = some cs → s.characterCount + 2 = cs.length)
    (hreplac : mode.freplac) (hlone : HasLoneHigh units)
  /-- The scan is behind the text. -/
  | past (hread : s.reading = false) (hend : s.length ≤ s.i) (hreplac : mode.freplac) (hlone : HasLoneHigh units)
    (hwrong : s.Wrong mode units)

/-- The variant of the scan. -/
def PackState.left (s : PackState) : ℕ := 2 * (s.length - s.i) + s.reading.toNat

theorem PackState.At.take_length (h : s.At a b tail) : s.text.take s.length = a ++ b := by
  rw [h.text, h.length, ← List.append_assoc, List.take_left' (List.length_append)]

theorem PackState.At.length_le (h : s.At a b tail) : s.length ≤ s.text.length := by
  rw [h.length, h.text]
  simp only [List.length_append]
  omega

theorem PackState.At.left (h : s.At a b tail) : s.left = 2 * b.length + s.reading.toNat := by
  unfold PackState.left
  rw [h.i, h.length, Nat.add_sub_cancel_left]

theorem PackState.At.rd (h : s.At a (ch :: b) tail) : Run.rd s.text s.i = some ch := by
  rw [h.text, h.i]
  exact rd_append_cons

theorem PackState.At.rd_next {u v : ℕ} (h : s.At a (u :: v :: b) tail) : Run.rd s.text (s.i + 1) = some v := by
  have htext : s.text = (a ++ [u]) ++ (v :: (b ++ tail)) := by simp [h.text]
  have hi : s.i + 1 = (a ++ [u]).length := by simp [h.i]
  rw [htext, hi]
  exact rd_append_cons

theorem packStep_end (hread : s.reading = false) (hend : s.length ≤ s.i) :
    packStep mode s = some (.done (some s)) := by
  unfold packStep
  rw [if_pos ⟨by simp [hread], hend⟩]

theorem packStep_unit (h : s.At a (ch :: b) tail) (hch : ¬IsHigh ch) :
    packStep mode s = some (.next (s.count s.i ch)) ∧ (s.count s.i ch).At (a ++ [ch]) b tail := by
  constructor
  · have hi := h.i
    have hlen := h.length
    rw [List.length_cons] at hlen
    unfold packStep
    rw [if_neg (by omega), h.rd, some_bind, if_pos hch]
  · refine ⟨?_, ?_, ?_⟩
    · rw [List.append_assoc]
      exact h.text
    · rw [List.length_append, ← h.i]
      rfl
    · have hlen := h.length
      rw [List.length_cons] at hlen
      rw [List.length_append, List.length_singleton, Nat.add_assoc, Nat.add_comm 1]
      exact hlen

theorem packStep_pair {u v : ℕ} (h : s.At a (u :: v :: b) tail) (hu : IsHigh u) (hv : IsLow v) :
    ∃ kind, packStep mode s = some (.next (PackState.count { s with kind := kind } (s.i + 1) (pairChar u v))) ∧
      (PackState.count { s with kind := kind } (s.i + 1) (pairChar u v)).At (a ++ [u, v]) b tail := by
  have hlen := h.length
  rw [List.length_cons, List.length_cons] at hlen
  refine ⟨if s.kind = 0 then 1 else s.kind, ?_, ?_⟩
  · have hi := h.i
    unfold packStep
    rw [if_neg (by omega), h.rd, some_bind, if_neg (not_not_intro hu), if_neg (by omega)]
    dsimp only
    rw [h.rd_next, some_bind, if_pos hv, shiftLeft_or_pairChar hv]
  · refine ⟨?_, ?_, ?_⟩
    · rw [List.append_assoc]
      exact h.text
    · rw [List.length_append, ← h.i]
      rfl
    · rw [List.length_append, Nat.add_assoc, Nat.add_comm [u, v].length]
      exact hlen

/-- A lone high surrogate is replaced, and the unit behind it is deleted. -/
theorem packStep_replac {u v : ℕ} (h : s.At a (u :: v :: b) tail) (hu : IsHigh u) (hv : ¬IsLow v) (hmode : mode.freplac) :
    ∃ s' tail', packStep mode s = some (.next s') ∧ s'.At (a ++ [chr '?']) b tail' ∧ s'.reading = true ∧
      s'.characterCount = s.characterCount ∧ (b = [] → tail' = v :: tail) := by
  have hi := h.i
  have hlen := h.length
  rw [List.length_cons, List.length_cons] at hlen
  have hmove := @memmovedown_append (a ++ [chr '?']) b tail [v]
  simp only [List.length_append, List.length_singleton, List.append_assoc, List.singleton_append] at hmove
  let text := a ++ chr '?' :: (b ++ ((v :: b).drop b.length ++ tail))
  refine ⟨{ s with text := text, length := s.length - 1, i := s.i + 1, reading := true },
    (v :: b).drop b.length ++ tail, ?_, ⟨?_, ?_, ?_⟩, rfl, rfl, ?_⟩
  · unfold packStep
    rw [if_neg (by omega), h.rd, some_bind, if_neg (not_not_intro hu), if_neg (by omega)]
    dsimp only
    rw [h.rd_next, some_bind, if_neg hv, if_pos hmode, Nat.add_sub_cancel, hi, h.text, List.cons_append, wr_append_cons,
      some_bind, show s.length - 1 - (a.length + 1) = b.length by omega, List.cons_append, hmove, some_bind]
  · exact (List.append_cons _ _ _)
  · rw [List.length_append, ← hi]
    rfl
  · rw [List.length_append, List.length_singleton]
    show s.length - 1 = _
    omega
  · rintro rfl
    rfl

/-- A lone high surrogate is dropped with the unit behind it. -/
theorem packStep_ignore {u v : ℕ} (h : s.At a (u :: v :: b) tail) (hu : IsHigh u) (hv : ¬IsLow v)
    (hreplac : ¬mode.freplac) (hignore : mode.fignore) :
    ∃ text tail', packStep mode s = some (.next { s with text := text, length := s.length - 2, reading := false }) ∧
      PackState.At { s with text := text, length := s.length - 2, reading := false } a b tail' := by
  have hi := h.i
  have hlen := h.length
  rw [List.length_cons, List.length_cons] at hlen
  have hmove := @memmovedown_append a b tail [u, v]
  simp only [List.length_cons, List.length_nil, List.cons_append, List.nil_append] at hmove
  refine ⟨a ++ (b ++ ((u :: v :: b).drop b.length ++ tail)), (u :: v :: b).drop b.length ++ tail, ?_, ⟨rfl, hi, ?_⟩⟩
  · unfold packStep
    rw [if_neg (by omega), h.rd, some_bind, if_neg (not_not_intro hu), if_neg (by omega)]
    dsimp only
    rw [h.rd_next, some_bind, if_neg hv, if_neg hreplac, if_pos hignore, Nat.add_sub_cancel, hi, h.text,
      show s.length - 2 - a.length = b.length by omega, List.cons_append, List.cons_append, hmove, some_bind]
  · show s.length - 2 = _
    omega

theorem packStep_throw {u v : ℕ} (h : s.At a (u :: v :: b) tail) (hu : IsHigh u) (hv : ¬IsLow v)
    (hreplac : ¬mode.freplac) (hignore : ¬mode.fignore) : packStep mode s = some (.done none) := by
  have hi := h.i
  have hlen := h.length
  rw [List.length_cons, List.length_cons] at hlen
  unfold packStep
  rw [if_neg (by omega), h.rd, some_bind, if_neg (not_not_intro hu), if_neg (by omega)]
  dsimp only
  rw [h.rd_next, some_bind, if_neg hv, if_neg hreplac, if_neg hignore]

/-- The last unit is a lone high surrogate, or the cell behind the text looks like one. -/
theorem packStep_last_replac {rest : List ℕ} (htext : s.text = a ++ ch :: rest) (hi : s.i = a.length)
    (hread : ¬s.reading → s.i < s.length) (hlen : s.length ≤ a.length + 1) (hch : IsHigh ch) (hmode : mode.freplac) :
    packStep mode s = some (.done (some { s with text := a ++ chr '?' :: rest })) := by
  unfold packStep
  rw [if_neg fun h => Nat.not_le_of_lt (hread h.1) h.2, htext, hi, rd_append_cons, some_bind,
    if_neg (not_not_intro hch), if_pos (by omega), if_pos hmode, wr_append_cons, some_bind]

theorem packStep_last_ignore (h : s.At a [ch] tail) (hch : IsHigh ch) (hreplac : ¬mode.freplac) (hignore : mode.fignore) :
    packStep mode s = some (.done (some { s with text := a ++ 0 :: tail, length := s.length - 1 })) := by
  have hi := h.i
  have hlen := h.length
  rw [List.length_singleton] at hlen
  unfold packStep
  rw [if_neg (by omega), h.rd, some_bind, if_neg (not_not_intro hch), if_pos (by omega), if_neg hreplac, if_pos hignore,
    hi, h.text, List.singleton_append, wr_append_cons, some_bind]

theorem packStep_last_throw (h : s.At a [ch] tail) (hch : IsHigh ch) (hreplac : ¬mode.freplac) (hignore : ¬mode.fignore) :
    packStep mode s = some (.done none) := by
  have hi := h.i
  have hlen := h.length
  rw [List.length_singleton] at hlen
  unfold packStep
  rw [if_neg (by omega), h.rd, some_bind, if_neg (not_not_intro hch), if_pos (by omega), if_neg hreplac, if_neg hignore]

/-- What a round must establish. -/
def PackRound (mode : ErrorMode) (units : List ℕ) (s : PackState) : Prop :=
  Ends (packStep mode s) (Step.Sat (PackInv mode units) PackState.left s.left (PackOutcome mode units))

theorem hasLoneHigh_append {u : ℕ} (h : WellPaired a cs) (hu : IsHigh u) (hv : ¬IsLow (cell b 0)) :
    HasLoneHigh (a ++ u :: b) := by
  have hnone : decodeUtf16 .strict (u :: b) = none := decodeUtf16_eq_none_iff.mpr ⟨0, hu, hv⟩
  rw [← decodeUtf16_eq_none_iff, h.decodeUtf16_append, hnone]
  rfl

section Counted

variable {u v : ℕ}

/-- A high surrogate at the end. -/
theorem PackInv.counted_last (hat : s.At a [u] tail) (hpaired : WellPaired a cs) (hcounted : s.Counted cs)
    (hdecode : decodeUtf16 mode units = (decodeUtf16 mode [u]).map (cs ++ ·)) (hsame : mode.freplac → units = a ++ [u])
    (hu : IsHigh u) : PackRound mode units s := by
  have hi := hat.i
  have hlen := hat.length
  rw [List.length_singleton] at hlen
  have hone : decodeUtf16 mode [u] =
      if mode.freplac then some [chr '?'] else if mode.fignore then some [] else none := if_pos hu
  unfold PackRound
  by_cases hmode : mode.freplac
  · have hlone : HasLoneHigh units := by
      rw [hsame hmode]
      exact hasLoneHigh_append hpaired hu (by decide : ¬IsLow (cell [] 0))
    have htake : (a ++ chr '?' :: tail).take s.length = a ++ [chr '?'] := by
      rw [List.append_cons, List.take_left' (by rw [List.length_append, hlen]; rfl)]
    rw [packStep_last_replac hat.text hi (fun _ => by omega) hlen.le hu hmode]
    refine Ends.pure (Or.inr ⟨hmode, hlone, Or.inl ⟨cs ++ [chr '?'], ?_, ?_⟩⟩)
    · dsimp only [List.append_eq, List.nil_append]
      rw [htake]
      exact hpaired.concat (by decide)
    · rw [List.length_append, ← hcounted.characterCount]
      exact Nat.lt_succ_self _
  · rw [if_neg hmode] at hone
    by_cases hignore : mode.fignore
    · rw [packStep_last_ignore hat hu hmode hignore]
      refine Ends.pure (Or.inl ⟨?_, ⟨cs, ?_, ?_, ⟨hcounted.1, hcounted.2, hcounted.3⟩⟩, fun h => absurd h hmode⟩)
      · dsimp only
        rw [List.length_append]
        omega
      · dsimp only
        rwa [List.take_left' (by omega)]
      · rw [hdecode, hone, if_pos hignore, Option.map_some, List.append_nil]
    · rw [packStep_last_throw hat hu hmode hignore]
      refine Ends.pure ?_
      show decodeUtf16 mode units = none
      rw [hdecode, hone, if_neg hignore]
      rfl

/-- A high surrogate with something else than a low one behind it. -/
theorem PackInv.counted_lone (hat : s.At a (u :: v :: b) tail) (hread : s.reading = false) (hpaired : WellPaired a cs)
    (hcounted : s.Counted cs) (hdecode : decodeUtf16 mode units = (decodeUtf16 mode (u :: v :: b)).map (cs ++ ·))
    (hsame : mode.freplac → units = a ++ u :: v :: b) (hu : IsHigh u) (hv : ¬IsLow v) : PackRound mode units s := by
  have hleft := hat.left
  rw [hread, List.length_cons, List.length_cons] at hleft
  have hpair : decodeUtf16 mode (u :: v :: b) =
      if mode.freplac then (decodeUtf16 mode (v :: b)).map (chr '?' :: ·)
      else if mode.fignore then decodeUtf16 mode b else none := by
    rw [decodeUtf16, if_pos hu, if_neg hv]
    rfl
  unfold PackRound
  by_cases hmode : mode.freplac
  · have hlone : HasLoneHigh units := by
      rw [hsame hmode]
      exact hasLoneHigh_append hpaired hu (show ¬IsLow (cell (v :: b) 0) from hv)
    obtain ⟨s', tail', hstep, hat', hread', hcount, htail⟩ := packStep_replac hat hu hv hmode
    have hless : s'.characterCount < (cs ++ [chr '?']).length := by
      rw [hcount, hcounted.characterCount, List.length_append]
      exact Nat.lt_succ_self _
    rw [hstep]
    refine Ends.pure ⟨?_, ?_⟩
    · by_cases hlost : b = [] ∧ ¬IsHigh v
      · obtain ⟨rfl, hv'⟩ := hlost
        obtain rfl := htail rfl
        refine .lost _ tail v hat' hread' hv' (fun ds hds => ?_) hmode hlone
        rw [hdecode, hpair, if_pos hmode, decodeUtf16_cons hv'] at hds
        obtain rfl := Option.some.inj hds
        simp [hcount, hcounted.characterCount]
      · refine .uncounted _ b tail' _ hat' (hpaired.concat (by decide)) hless (fun _ hb => ?_) hmode hlone
        exact ⟨v, tail, htail hb, Or.inl (not_not.mp fun hv' => hlost ⟨hb, hv'⟩)⟩
    · rw [hat'.left, hleft, hread']
      simp only [Bool.toNat_true, Bool.toNat_false]
      omega
  · rw [if_neg hmode] at hpair
    by_cases hignore : mode.fignore
    · obtain ⟨text, tail', hstep, hat'⟩ := packStep_ignore hat hu hv hmode hignore
      rw [hstep]
      refine Ends.pure ⟨.counted a b tail' cs hat' rfl hpaired ⟨hcounted.1, hcounted.2, hcounted.3⟩ ?_
        fun h => absurd h hmode, ?_⟩
      · rw [hdecode, hpair, if_pos hignore]
      · rw [hat'.left, hleft]
        simp only [Bool.toNat_false]
        omega
    · rw [packStep_throw hat hu hv hmode hignore]
      refine Ends.pure ?_
      show decodeUtf16 mode units = none
      rw [hdecode, hpair, if_neg hignore]
      rfl

theorem PackInv.counted_round (hat : s.At a b tail) (hread : s.reading = false) (hpaired : WellPaired a cs)
    (hcounted : s.Counted cs) (hdecode : decodeUtf16 mode units = (decodeUtf16 mode b).map (cs ++ ·))
    (hsame : mode.freplac → units = a ++ b) : PackRound mode units s := by
  have hleft := hat.left
  rw [hread] at hleft
  rcases b with _ | ⟨u, b⟩
  · -- the end of the text
    unfold PackRound
    rw [packStep_end hread (by rw [hat.i, hat.length]; exact le_rfl)]
    refine Ends.pure (Or.inl ⟨hat.length_le, ⟨cs, ?_, ?_, hcounted⟩, fun hmode => ?_⟩)
    · rwa [hat.take_length, List.append_nil]
    · rw [hdecode]
      simp [decodeUtf16]
    · rw [← decodeUtf16_eq_none_iff, hsame hmode, List.append_nil, hpaired.decodeUtf16]
      exact Option.some_ne_none _
  · by_cases hu : IsHigh u
    · rcases b with _ | ⟨v, b⟩
      · exact counted_last hat hpaired hcounted hdecode hsame hu
      · by_cases hv : IsLow v
        · obtain ⟨kind, hstep, hat'⟩ := @packStep_pair mode a b tail s u v hat hu hv
          unfold PackRound
          rw [hstep]
          refine Ends.pure ⟨.counted _ b tail _ hat' rfl (hpaired.concat_pair hu hv)
            (hcounted.count_pair _ (pairChar_gt u v)) ?_ fun hmode => ?_, ?_⟩
          · rw [hdecode, decodeUtf16_pair hu hv, Option.map_map]
            simp [Function.comp_def]
          · rw [hsame hmode]
            simp
          · rw [hat'.left, hleft, List.length_cons, List.length_cons]
            simp only [PackState.count, Bool.toNat_false]
            omega
        · exact counted_lone hat hread hpaired hcounted hdecode hsame hu hv
    · obtain ⟨hstep, hat'⟩ := @packStep_unit mode a b tail s u hat hu
      unfold PackRound
      rw [hstep]
      refine Ends.pure ⟨.counted _ b tail _ hat' rfl (hpaired.concat hu) (hcounted.count _) ?_ fun hmode => ?_, ?_⟩
      · rw [hdecode, decodeUtf16_cons hu, Option.map_map]
        simp [Function.comp_def]
      · rw [hsame hmode]
        simp
      · rw [hat'.left, hleft]
        simp [PackState.count]

end Counted

theorem PackInv.past_of_uncounted (hat : s.At a [] tail) (hpaired : WellPaired a cs)
    (hless : s.characterCount < cs.length) : s.Wrong mode units := by
  refine Or.inl ⟨cs, ?_, hless⟩
  rwa [hat.take_length, List.append_nil]

theorem PackInv.uncounted_round (hat : s.At a b tail) (hpaired : WellPaired a cs) (hless : s.characterCount < cs.length)
    (hpast : s.reading → b = [] → ∃ x tail', tail = x :: tail' ∧ (IsHigh x ∨ s.characterCount + 1 < cs.length))
    (hreplac : mode.freplac) (hlone : HasLoneHigh units) : PackRound mode units s := by
  have hi := hat.i
  have hlen := hat.length
  have hleft := hat.left
  unfold PackRound
  rcases b with _ | ⟨u, b⟩
  · rw [List.length_nil, Nat.add_zero] at hlen
    by_cases hread : s.reading
    · obtain ⟨x, tail', rfl, hx⟩ := hpast hread rfl
      by_cases hhigh : IsHigh x
      · rw [packStep_last_replac hat.text hi (fun h => absurd hread h) (by omega) hhigh hreplac]
        refine Ends.pure (Or.inr ⟨hreplac, hlone, Or.inl ⟨cs, ?_, hless⟩⟩)
        dsimp only [List.append_eq, List.nil_append]
        rwa [List.take_left' hlen.symm]
      · -- the cell behind the text is counted
        have hstep : packStep mode s = some (.next (s.count s.i x)) := by
          have hrd : Run.rd s.text s.i = some x := by
            rw [hat.text, hi]
            exact rd_append_cons
          unfold packStep
          rw [if_neg fun h => h.1 hread, hrd, some_bind, if_pos hhigh]
        rw [hstep]
        refine Ends.pure ⟨.past rfl ?_ hreplac hlone (Or.inl ⟨cs, ?_, ?_⟩), ?_⟩
        · show s.length ≤ s.i + 1
          omega
        · show WellPaired (s.text.take s.length) cs
          rwa [hat.take_length, List.append_nil]
        · exact hx.resolve_left hhigh
        · rw [hleft, hread]
          simp only [PackState.left, PackState.count, List.length_nil, Bool.toNat_false, Bool.toNat_true]
          omega
    · rw [packStep_end (Bool.eq_false_iff.mpr hread) (by omega)]
      exact Ends.pure (Or.inr ⟨hreplac, hlone, past_of_uncounted hat hpaired hless⟩)
  · rw [List.length_cons] at hlen hleft
    by_cases hu : IsHigh u
    · rcases b with _ | ⟨v, b⟩
      · rw [List.length_nil, Nat.zero_add] at hlen
        rw [packStep_last_replac hat.text hi (fun _ => by omega) hlen.le hu hreplac]
        refine Ends.pure (Or.inr ⟨hreplac, hlone, Or.inl ⟨cs ++ [chr '?'], ?_, ?_⟩⟩)
        · dsimp only [List.append_eq, List.nil_append]
          rw [List.append_cons, List.take_left' (by rw [List.length_append, hlen]; rfl)]
          exact hpaired.concat (by decide)
        · rw [List.length_append]
          exact hless.trans (Nat.lt_succ_self _)
      · rw [List.length_cons] at hlen hleft
        by_cases hv : IsLow v
        · obtain ⟨kind, hstep, hat'⟩ := @packStep_pair mode a b tail s u v hat hu hv
          rw [hstep]
          refine Ends.pure ⟨.uncounted _ b tail _ hat' (hpaired.concat_pair hu hv) ?_ nofun hreplac hlone, ?_⟩
          · rw [List.length_append]
            exact Nat.succ_lt_succ hless
          · rw [hat'.left, hleft]
            simp only [PackState.count, Bool.toNat_false]
            omega
        · obtain ⟨s', tail', hstep, hat', hread', hcount, htail⟩ := packStep_replac hat hu hv hreplac
          rw [hstep]
          have hless' : s'.characterCount + 1 < (cs ++ [chr '?']).length := by
            rw [hcount, List.length_append]
            exact Nat.succ_lt_succ hless
          refine Ends.pure ⟨.uncounted _ b tail' _ hat' (hpaired.concat (by decide)) (Nat.lt_of_succ_lt hless')
            (fun _ hb => ⟨v, tail, htail hb, Or.inr hless'⟩) hreplac hlone, ?_⟩
          rw [hat'.left, hleft, hread']
          simp only [Bool.toNat_true]
          omega
    · obtain ⟨hstep, hat'⟩ := @packStep_unit mode a b tail s u hat hu
      rw [hstep]
      refine Ends.pure ⟨.uncounted _ b tail _ hat' (hpaired.concat hu) ?_ nofun hreplac hlone, ?_⟩
      · rw [List.length_append]
        exact Nat.succ_lt_succ hless
      · rw [hat'.left, hleft]
        simp only [PackState.count, Bool.toNat_false]
        omega

/-- The deleted unit is counted, but it is not in the text. -/
theorem PackInv.lost_round {x : ℕ} (hat : s.At a [] (x :: tail)) (hread : s.reading = true) (hx : ¬IsHigh x)
    (hlength : ∀ cs, decodeUtf16 mode units = some cs → s.characterCount + 2 = cs.length)
    (hreplac : mode.freplac) (hlone : HasLoneHigh units) : PackRound mode units s := by
  have hi := hat.i
  have hlen := hat.length
  rw [List.length_nil, Nat.add_zero] at hlen
  have hstep : packStep mode s = some (.next (s.count s.i x)) := by
    have hrd : Run.rd s.text s.i = some x := by
      rw [hat.text, hi]
      exact rd_append_cons
    unfold packStep
    rw [if_neg fun h => h.1 hread, hrd, some_bind, if_pos hx]
  unfold PackRound
  rw [hstep]
  refine Ends.pure ⟨.past rfl ?_ hreplac hlone (Or.inr fun cs hcs => ?_), ?_⟩
  · show s.length ≤ s.i + 1
    omega
  · have hcount : (s.count s.i x).characterCount = s.characterCount + 1 := rfl
    rw [hcount, ← hlength cs hcs]
    omega
  · rw [hat.left, hread]
    simp only [PackState.left, PackState.count, List.length_nil, Bool.toNat_false, Bool.toNat_true]
    omega

theorem PackInv.round (h : PackInv mode units s) : PackRound mode units s := by
  cases h with
  | counted a b tail cs hat hread hpaired hcounted hdecode hsame =>
    exact counted_round hat hread hpaired hcounted hdecode hsame
  | uncounted a b tail cs hat hpaired hless hpast hreplac hlone =>
    exact uncounted_round hat hpaired hless hpast hreplac hlone
  | lost a tail x hat hread hx hlength hreplac hlone => exact lost_round hat hread hx hlength hreplac hlone
  | past hread hend hreplac hlone hwrong =>
    unfold PackRound
    rw [packStep_end hread hend]
    exact Ends.pure (Or.inr ⟨hreplac, hlone, hwrong⟩)

end Scan

/-! ### The string -/

section Finish

variable {mode : ErrorMode} {units text cs : List ℕ} {s : PackState} {p : Packed}

theorem length_char16Utf8 {c : ℕ} (h : c ≤ 0xffff) : (char16Utf8 c).length = utf8Size c := by
  unfold char16Utf8 utf8Size
  split_ifs <;> rfl

theorem length_char32Utf8 (c : ℕ) : (char32Utf8 c).length = utf8Size c := by
  unfold char32Utf8 utf8Size
  split_ifs <;> rfl

theorem length_flatMap_utf8 {f : ℕ → List ℕ} (h : ∀ c ∈ cs, (f c).length = utf8Size c) :
    (cs.flatMap f).length = (cs.map utf8Size).sum := by
  rw [List.length_flatMap]
  exact congrArg List.sum (List.map_congr_left h)

theorem surrogateChars_of_wellPaired (h : WellPaired text cs) : surrogateChars text = some cs := by
  rw [surrogateChars_eq, h.decodeUtf16]

/-- The second pass agrees with counters that describe the text. -/
theorem PackState.Counted.finish (h : s.Counted cs) (hpaired : WellPaired (s.text.take s.length) cs)
    (hlen : s.length ≤ s.text.length) :
    ∃ p, s.finish = some p ∧ p.string.uData = cs ∧ p.string.sStr.length = p.string.sLen ∧
      p.string.uData.length = p.characterCount := by
  have htake : (s.text.take s.length).length = s.length := by rw [List.length_take, Nat.min_eq_left hlen]
  unfold PackState.finish
  dsimp only
  by_cases hascii : s.utf8Length = s.length
  · rw [if_pos hascii]
    obtain ⟨heq, hcs⟩ := hpaired.ascii_of_sum_eq (by rw [htake, ← h.utf8Length, hascii])
    have hmap : (s.text.take s.length).map (· % 2 ^ 8) = cs := by
      rw [heq]
      have hmod : ∀ c ∈ cs, c % 2 ^ 8 = id c := fun c hc => Nat.mod_eq_of_lt ((hcs c hc).trans_lt (by norm_num))
      rw [List.map_congr_left hmod, List.map_id]
    refine ⟨_, rfl, hmap, ?_, ?_⟩
    · dsimp only
      rw [List.length_map, htake, hascii]
    · dsimp only
      rw [hmap, h.characterCount]
  · rw [if_neg hascii, h.kind]
    by_cases hbmp : ∀ c ∈ cs, c ≤ 0xffff
    · have heq := hpaired.eq_of_forall_le hbmp
      rw [if_pos hbmp, if_pos rfl]
      refine ⟨_, rfl, heq, ?_, ?_⟩
      · dsimp only
        rw [heq, length_flatMap_utf8 fun c hc => length_char16Utf8 (hbmp c hc), h.utf8Length]
      · dsimp only
        rw [heq, h.characterCount]
    · rw [if_neg hbmp, if_neg (by decide), if_neg (by decide), surrogateChars_of_wellPaired hpaired, some_bind]
      refine ⟨_, rfl, rfl, ?_, h.characterCount.symm⟩
      dsimp only
      rw [length_flatMap_utf8 fun c _ => length_char32Utf8 c, h.utf8Length]

/-- A string with fewer counted characters than the text has, or than the text should have, is not right. -/
theorem PackState.Wrong.finish (h : s.Wrong mode units) (hp : s.finish = some p)
    (hchars : decodeUtf16 mode units = some p.string.uData) : p.string.uData.length ≠ p.characterCount := by
  have hcount : p.characterCount = s.characterCount ∧
      ∀ cs, WellPaired (s.text.take s.length) cs → cs.length ≤ p.string.uData.length := by
    unfold PackState.finish at hp
    dsimp only at hp
    split_ifs at hp with hascii h0 h1
    · obtain rfl := Option.some.inj hp
      refine ⟨rfl, fun cs hcs => ?_⟩
      dsimp only
      rw [List.length_map]
      exact hcs.length_le
    · obtain rfl := Option.some.inj hp
      exact ⟨rfl, fun cs hcs => hcs.length_le⟩
    · obtain ⟨chars, hread, hp⟩ := of_bind hp
      obtain rfl := Option.some.inj hp
      refine ⟨rfl, fun cs hcs => ?_⟩
      rw [surrogateChars_of_wellPaired hcs, Option.some.injEq] at hread
      dsimp only
      rw [hread, List.length_map]
    · obtain ⟨chars, hread, hp⟩ := of_bind hp
      obtain rfl := Option.some.inj hp
      refine ⟨rfl, fun cs hcs => ?_⟩
      rw [surrogateChars_of_wellPaired hcs, Option.some.injEq] at hread
      exact hread ▸ le_rfl
  rcases h with ⟨cs, hcs, hless⟩ | hlength
  · have := hcount.2 cs hcs
    omega
  · have := hlength _ hchars
    omega

end Finish

/-! ### The whole function -/

/-- What a caller may expect of `DeeString_PackUtf16Buffer`: an error where the units cannot be read, else their
characters, as many of them as were counted, and as many UTF-8 bytes as were allocated. -/
def PacksRight (units : List ℕ) (mode : ErrorMode) : Prop :=
  match decodeUtf16 mode units with
  | none => deeStringPackUtf16Buffer units mode = some none
  | some cs => ∃ p, deeStringPackUtf16Buffer units mode = some (some p) ∧ p.string.uData = cs ∧
      p.string.sStr.length = p.string.sLen ∧ p.string.uData.length = p.characterCount

section Pack

variable {mode : ErrorMode} {units : List ℕ}

theorem packLoop_ends :
    Ends (loop (packStep mode) (2 * units.length + 1) ⟨units ++ [0], units.length, 0, 0, 0, 0, false⟩)
      (PackOutcome mode units) := by
  have hat : PackState.At ⟨units ++ [0], units.length, 0, 0, 0, 0, false⟩ [] units [0] :=
    ⟨rfl, rfl, (Nat.zero_add _).symm⟩
  refine loop_ends (PackInv mode units) PackState.left ?_ ?_ fun s hs => hs.round
  · refine .counted [] units [0] [] hat rfl .nil ⟨rfl, rfl, rfl⟩ ?_ fun _ => rfl
    simp
  · rw [hat.left]
    exact Nat.lt_succ_self _

/-- Units that do not make the scan replace a surrogate are packed right. -/
theorem packsRight_of_not_replaced (h : mode.freplac → ¬HasLoneHigh units) : PacksRight units mode := by
  unfold PacksRight deeStringPackUtf16Buffer
  by_cases hempty : units.length = 0
  · obtain rfl := List.length_eq_zero_iff.mp hempty
    exact ⟨_, rfl, rfl, rfl, rfl⟩
  · rw [if_neg hempty]
    obtain ⟨r, hloop, hr⟩ := @packLoop_ends mode units
    rw [hloop, some_bind]
    rcases r with _ | s
    · have hdecode : decodeUtf16 mode units = none := hr
      rw [hdecode]
    · rcases hr with hfine | ⟨hreplac, hlone, -⟩
      · obtain ⟨cs, hpaired, hdecode, hcounted⟩ := hfine.chars
        obtain ⟨p, hp, hright⟩ := hcounted.finish hpaired hfine.length_le
        rw [hdecode]
        dsimp only
        rw [hp]
        exact ⟨p, rfl, hright⟩
      · exact absurd hlone (h hreplac)

/-- A replaced surrogate spoils the string. -/
theorem not_packsRight_of_replaced (hreplac : mode.freplac) (hlone : HasLoneHigh units) : ¬PacksRight units mode := by
  have hempty : units.length ≠ 0 := fun hempty => by
    obtain rfl := List.length_eq_zero_iff.mp hempty
    exact Option.some_ne_none _ (decodeUtf16_eq_none_iff.mpr hlone)
  obtain ⟨r, hloop, hr⟩ := @packLoop_ends mode units
  obtain ⟨cs, hdecode⟩ := @exists_decodeUtf16_of_replac mode units hreplac
  unfold PacksRight deeStringPackUtf16Buffer
  rw [if_neg hempty, hloop, some_bind, hdecode]
  rintro ⟨p, hp, hchars, -, hcount⟩
  rcases r with _ | s
  · rw [show decodeUtf16 mode units = none from hr] at hdecode
    cases hdecode
  · obtain ⟨q, hq, hqp⟩ := of_bind hp
    obtain rfl := Option.some.inj (Option.some.inj hqp)
    rcases hr with hfine | ⟨-, -, hwrong⟩
    · exact hfine.replac hreplac hlone
    · exact hwrong.finish hq (by rw [hdecode, hchars]) hcount

/-- `DeeString_PackUtf16Buffer` is right exactly when it replaces nothing. -/
theorem packsRight_iff (units : List ℕ) (mode : ErrorMode) :
    PacksRight units mode ↔ ¬(mode.freplac ∧ HasLoneHigh units) :=
  ⟨fun hright ⟨hreplac, hlone⟩ => not_packsRight_of_replaced hreplac hlone hright,
    fun h => packsRight_of_not_replaced fun hreplac hlone => h ⟨hreplac, hlone⟩⟩

/-- A high surrogate at the end of `"A"` becomes a `'?'` that is not counted. -/
theorem packsRight_counterexample : ¬PacksRight [0x41, 0xd800] .replac := by
  rintro ⟨p, hp, -, -, hcount⟩
  obtain rfl : p = ⟨⟨1, [0x41, 0x3f], .byte2, [0x41, 0x3f], none, some [some 0x41, some 0x3f], false⟩, 1⟩ :=
    (Option.some.inj (Option.some.inj hp)).symm
  exact absurd hcount (by decide)

end Pack

end Deemon.Unicode
