import Deemon.Lib.Run

/-!
# Reading case-folded text

`DeeUni_ToFolded` turns a character into one to three characters (`Folding`). A `unicode_foldreader` reads the folded
characters of a text one by one; what it has not read yet is `FoldReader.unread`.
-/

namespace Deemon.Unicode

open Deemon.Run

/-- `DeeUni_ToFolded`, which gives one to `Dee_UNICODE_FOLDED_MAX` characters. -/
structure Folding where
  toFolded : ℕ → List ℕ
  ne_nil : ∀ ch, toFolded ch ≠ []
  length_le : ∀ ch, (toFolded ch).length ≤ 3

/-- The case-folded text. -/
def Folding.foldText (F : Folding) (text : List ℕ) : List ℕ := text.flatMap F.toFolded

/-- `DeeUni_FoldedLength`. -/
def Folding.foldedLength (F : Folding) (text : List ℕ) : Option ℕ :=
  forLoop (fun i result => do fits 64 (result + (F.toFolded (← rd text i)).length)) 0 text.length 0

/-- `struct unicode_foldreader`: the data that is left, the buffer, and the index of the next character in it. -/
structure FoldReader where
  data : List ℕ
  buf : List ℕ
  idx : ℕ

/-- `unicode_foldreader_init`. -/
def FoldReader.init (data : List ℕ) : FoldReader := ⟨data, [], 0⟩

/-- `unicode_foldreader_empty`. -/
def FoldReader.empty (self : FoldReader) : Bool := self.data = [] ∧ self.buf.length ≤ self.idx

/-- `unicode_foldreader_getc`. -/
def FoldReader.getc (F : Folding) (self : FoldReader) : Option (ℕ × FoldReader) :=
  if self.idx < self.buf.length then do
    some (← rd self.buf self.idx, ⟨self.data, self.buf, self.idx + 1⟩)
  else
    match self.data with
    | [] => none
    | ch :: data => do
      let buf := F.toFolded ch
      -- `ufr_buf` has room for three characters
      assert (buf.length ≤ 3)
      some (← rd buf 0, ⟨data, buf, 1⟩)

/-- The folded characters that have not been read. -/
def FoldReader.unread (F : Folding) (self : FoldReader) : List ℕ := self.buf.drop self.idx ++ F.foldText self.data

section Reading

variable {F : Folding} {r : FoldReader} {c : ℕ} {cs text : List ℕ}

@[simp] theorem Folding.foldText_nil : F.foldText [] = [] := rfl

@[simp] theorem Folding.foldText_cons : F.foldText (c :: cs) = F.toFolded c ++ F.foldText cs := List.flatMap_cons

theorem Folding.foldText_eq_nil : F.foldText text = [] ↔ text = [] := by
  cases text with
  | nil => simp
  | cons c cs => simp [F.ne_nil c]

theorem Folding.length_foldText_le (text : List ℕ) : (F.foldText text).length ≤ 3 * text.length := by
  induction text with
  | nil => simp
  | cons c text ih =>
    have := F.length_le c
    rw [Folding.foldText_cons, List.length_append, List.length_cons]
    omega

@[simp] theorem FoldReader.unread_init : (FoldReader.init text).unread F = F.foldText text := rfl

theorem FoldReader.empty_iff : r.empty = true ↔ r.unread F = [] := by
  unfold FoldReader.empty FoldReader.unread
  rw [decide_eq_true_eq, List.append_eq_nil_iff, List.drop_eq_nil_iff, Folding.foldText_eq_nil]
  exact and_comm

theorem FoldReader.empty_eq_false (h : r.unread F = c :: cs) : r.empty = false := by
  rw [Bool.eq_false_iff, ne_eq, FoldReader.empty_iff (F := F), h]
  exact List.cons_ne_nil c cs

theorem FoldReader.empty_eq_true (h : r.unread F = []) : r.empty = true := FoldReader.empty_iff.mpr h

/-- Reading takes the next folded character. -/
theorem FoldReader.getc_cons (h : r.unread F = c :: cs) : Ends (r.getc F) fun p => p.1 = c ∧ p.2.unread F = cs := by
  unfold FoldReader.getc
  by_cases hidx : r.idx < r.buf.length
  · rw [FoldReader.unread, List.drop_eq_getElem_cons hidx, List.cons_append] at h
    obtain ⟨hc, hcs⟩ := List.cons.inj h
    rw [if_pos hidx, rd_of_lt hidx, some_bind]
    refine Ends.pure ⟨?_, hcs⟩
    rw [← hc]
    simp [cell, hidx]
  · rw [FoldReader.unread, List.drop_eq_nil_of_le (by omega), List.nil_append] at h
    rw [if_neg hidx]
    cases hdata : r.data with
    | nil =>
      rw [hdata] at h
      cases h
    | cons ch data =>
      rw [hdata, Folding.foldText_cons] at h
      dsimp only
      rw [assert_of (F.length_le ch), some_bind]
      obtain ⟨d, ds, hfold⟩ := List.exists_cons_of_ne_nil (F.ne_nil ch)
      rw [hfold, List.cons_append] at h
      obtain ⟨hc, hcs⟩ := List.cons.inj h
      rw [hfold, rd_of_lt (Nat.succ_pos _), some_bind]
      exact Ends.pure ⟨hc, hcs⟩

/-- There is nothing to read behind the last character. -/
theorem FoldReader.getc_nil (h : r.unread F = []) : r.getc F = none := by
  rw [FoldReader.unread, List.append_eq_nil_iff, List.drop_eq_nil_iff, Folding.foldText_eq_nil] at h
  unfold FoldReader.getc
  rw [if_neg (by omega), h.2]

/-- The folded length is that of the folded text. -/
theorem Folding.foldedLength_ends (h : (F.foldText text).length < 2 ^ 64) :
    Ends (F.foldedLength text) fun n => n = (F.foldText text).length := by
  have hsplit : ∀ i ≤ text.length, (F.foldText (text.take i)).length + (F.foldText (text.drop i)).length =
      (F.foldText text).length := by
    intro i _
    rw [← List.length_append, Folding.foldText, Folding.foldText, ← List.flatMap_append, List.take_append_drop]
    rfl
  refine (forLoop_ends_zero (fun i n => n = (F.foldText (text.take i)).length) rfl ?_).mono fun n hn => by
    rw [hn, List.take_length]
  rintro i n hi rfl
  have hnext : (F.foldText (text.take (i + 1))).length =
      (F.foldText (text.take i)).length + (F.toFolded (cell text i)).length := by
    rw [List.take_succ_eq_append_getElem hi, Folding.foldText, List.flatMap_append, List.length_append]
    simp [cell, hi, Folding.foldText]
  have hle := hsplit (i + 1) hi
  rw [rd_of_lt hi, some_bind, ← hnext, fits_of_lt (by omega)]
  exact Ends.pure rfl

end Reading

end Deemon.Unicode
