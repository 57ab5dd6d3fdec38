import Deemon.Lib.Run

/-!
# Ranges of indices

`DeeSeqRange_Clamp` and `DeeSeqRange_Clamp_n` move a range of indices into the bounds of a sequence. An index is a machine
word that counts from the end if it is negative, that is, from 2 ^ 63 on.
-/

namespace Deemon.Collections

variable {start stop size : ℕ}

/-! ### The code -/

/-- `do_fix_negative_range_index`. -/
def doFixNegativeRangeIndex (index size : ℕ) : ℕ := size - (2 ^ 64 - index) % 2 ^ 64 % size

/-- The start or the end of a range, when it is past the size and negative; `none` is `empty_range`. -/
def fixNegative (index size : ℕ) : Option ℕ :=
  let index := (index + size) % 2 ^ 64
  if 2 ^ 63 ≤ index then
    if size = 0 then none else some (doFixNegativeRangeIndex index size)
  else some index

/-- The start index in `DeeSeqRange_DoClamp`. -/
def clampStart (start size : ℕ) : Option ℕ :=
  if size ≤ start then if start < 2 ^ 63 then none else fixNegative start size else some start

/-- The end index in `DeeSeqRange_DoClamp`. -/
def clampEnd (stop size : ℕ) : Option ℕ :=
  if size < stop then if 2 ^ 63 ≤ stop then fixNegative stop size else some size else some stop

/-- `DeeSeqRange_DoClamp`. -/
def deeSeqRangeDoClamp (start stop size : ℕ) : ℕ × ℕ :=
  match clampStart start size, clampEnd stop size with
  | some start, some stop => (start, if stop < start then start else stop)
  | _, _ => (size, size)

/-- `DeeSeqRange_Clamp`. -/
def deeSeqRangeClamp (start stop size : ℕ) : ℕ × ℕ :=
  if start ≤ stop ∧ stop ≤ size then (start, stop) else deeSeqRangeDoClamp start stop size

/-- `DeeSeqRange_Clamp_n`. -/
def deeSeqRangeClampN (start size : ℕ) : ℕ :=
  if start ≤ size then start
  else if start < 2 ^ 63 then size
  else
    let start := (start + size) % 2 ^ 64
    if size ≤ start then if size = 0 then size else doFixNegativeRangeIndex start size else start

/-- The cast of a `Dee_ssize_t` to `size_t`. -/
def toSize (i : ℤ) : ℕ := (i % 2 ^ 64).toNat

/-- `DeeSeqRange_Clamp`, of `Dee_ssize_t` indices. -/
def seqRangeClamp (start stop : ℤ) (size : ℕ) : ℕ × ℕ := deeSeqRangeClamp (toSize start) (toSize stop) size

/-- `DeeSeqRange_Clamp_n`, of a `Dee_ssize_t` index. -/
def seqRangeClampN (start : ℤ) (size : ℕ) : ℕ := deeSeqRangeClampN (toSize start) size

/-! ### Casts -/

theorem toSize_lt (i : ℤ) : toSize i < 2 ^ 64 := by
  unfold toSize
  omega

theorem toSize_of_nonneg {i : ℤ} (h0 : 0 ≤ i) (h : i < 2 ^ 63) : (toSize i : ℤ) = i := by
  rw [toSize, Int.toNat_of_nonneg (Int.emod_nonneg i (by omega)), Int.emod_eq_of_lt h0 (by omega)]

theorem toSize_of_neg {i : ℤ} (h0 : i < 0) (h : -2 ^ 63 ≤ i) : (toSize i : ℤ) = i + 2 ^ 64 := by
  rw [toSize, Int.toNat_of_nonneg (Int.emod_nonneg i (by omega))]
  omega

/-! ### Clamped ranges -/

theorem doFix_le (index size : ℕ) : doFixNegativeRangeIndex index size ≤ size := Nat.sub_le _ _

theorem fixNegative_le {index i : ℕ} (hneg : 2 ^ 63 ≤ index) (hlt : index < 2 ^ 64)
    (h : fixNegative index size = some i) : i ≤ size := by
  unfold fixNegative at h
  dsimp only at h
  split_ifs at h
  · cases h
    exact doFix_le _ _
  · cases h
    omega

theorem clampStart_le {s : ℕ} (hstart : start < 2 ^ 64) (h : clampStart start size = some s) : s ≤ size := by
  unfold clampStart at h
  split_ifs at h with hout hneg
  · exact fixNegative_le (not_lt.mp hneg) hstart h
  · cases h
    exact (not_le.mp hout).le

theorem clampEnd_le {e : ℕ} (hstop : stop < 2 ^ 64) (h : clampEnd stop size = some e) : e ≤ size := by
  unfold clampEnd at h
  split_ifs at h with hout hneg
  · exact fixNegative_le hneg hstop h
  · cases h
    exact le_rfl
  · cases h
    exact not_lt.mp hout

/-- A clamped range is a range of the sequence. -/
theorem deeSeqRangeClamp_ok (hstart : start < 2 ^ 64) (hstop : stop < 2 ^ 64) :
    (deeSeqRangeClamp start stop size).1 ≤ (deeSeqRangeClamp start stop size).2 ∧
      (deeSeqRangeClamp start stop size).2 ≤ size := by
  unfold deeSeqRangeClamp deeSeqRangeDoClamp
  split_ifs with hin
  · exact hin
  cases hs : clampStart start size with
  | none => exact ⟨le_rfl, le_rfl⟩
  | some s =>
    cases he : clampEnd stop size with
    | none => exact ⟨le_rfl, le_rfl⟩
    | some e =>
      have hsle := clampStart_le hstart hs
      have hele := clampEnd_le hstop he
      dsimp only
      split_ifs <;> omega

theorem seqRangeClamp_valid (start stop : ℤ) (size : ℕ) :
    (seqRangeClamp start stop size).1 ≤ (seqRangeClamp start stop size).2 ∧ (seqRangeClamp start stop size).2 ≤ size :=
  deeSeqRangeClamp_ok (toSize_lt start) (toSize_lt stop)

theorem seqRangeClampN_le (start : ℤ) (size : ℕ) : seqRangeClampN start size ≤ size := by
  have hlt := toSize_lt start
  unfold seqRangeClampN deeSeqRangeClampN
  dsimp only
  split_ifs
  · assumption
  · exact le_rfl
  · exact le_rfl
  · exact doFix_le _ _
  · omega

/-- The start index, where `size` stands for an empty range, is that of the `_n` form. -/
theorem clampStart_getD (hstart : start < 2 ^ 64) (hsize : size < 2 ^ 63) :
    (clampStart start size).getD size = deeSeqRangeClampN start size := by
  unfold clampStart deeSeqRangeClampN fixNegative
  dsimp only
  split_ifs <;> first | rfl | omega | (rw [Option.getD_none]; omega)

/-- The `_n` form is the one with `SSIZE_MAX` for its end. -/
theorem seqRangeClampN_eq (start : ℤ) (hsize : size < 2 ^ 63) :
    (seqRangeClampN start size, size) = seqRangeClamp start (2 ^ 63 - 1) size := by
  have hlt := toSize_lt start
  have hle := seqRangeClampN_le start size
  have hend : clampEnd (2 ^ 63 - 1) size = some size := by
    unfold clampEnd
    split_ifs <;> first | rfl | omega | (congr 1; omega)
  have hstart := clampStart_getD hlt hsize
  unfold seqRangeClamp seqRangeClampN at *
  rw [show toSize (2 ^ 63 - 1) = 2 ^ 63 - 1 by decide]
  unfold deeSeqRangeClamp
  split_ifs with hin
  · unfold deeSeqRangeClampN
    rw [if_pos (hin.1.trans hin.2)]
    congr 1
    omega
  · unfold deeSeqRangeDoClamp
    rw [← hstart] at hle ⊢
    rw [hend]
    cases hs : clampStart (toSize start) size with
    | none => rfl
    | some s =>
      rw [hs] at hle
      exact congrArg (Prod.mk s) (if_neg (not_lt.mpr hle)).symm

/-- An index that does not count from the end starts the range itself, unless the range is empty. -/
theorem deeSeqRangeClamp_start (h : start < 2 ^ 63) (stop size : ℕ) :
    (deeSeqRangeClamp start stop size).1 = (deeSeqRangeClamp start stop size).2 ∨
      (deeSeqRangeClamp start stop size).1 = start := by
  unfold deeSeqRangeClamp deeSeqRangeDoClamp clampStart
  split_ifs
  · exact .inr rfl
  · exact .inl rfl
  · cases clampEnd stop size with
    | none => exact .inl rfl
    | some e => exact .inr rfl

theorem deeSeqRangeClampN_start (h : start < 2 ^ 63) (size : ℕ) :
    deeSeqRangeClampN start size = size ∨ deeSeqRangeClampN start size = start := by
  unfold deeSeqRangeClampN
  rw [if_pos h]
  split_ifs
  · exact .inr rfl
  · exact .inl rfl

end Deemon.Collections
