import Deemon.Lib.Iteration
import Mathlib.Data.Finset.Sort
import Mathlib.Data.Set.Finite.List

/-!
# Tuples in lexicographic order

Tuples of indices below a bound, by their cells: which of two comes first, and which one follows another in a set of
tuples. The next tuple grows by one in a cell behind which nothing can grow, and is as small as it can be behind it.
-/

namespace Deemon.Tuples

open Deemon.Run Deemon.Iteration

variable {n r i : ℕ} {s t t' : List ℕ} {Valid : List ℕ → Prop}

/-- An `r`-tuple of indices below `n`. -/
structure Tuple (n r : ℕ) (t : List ℕ) : Prop where
  length : t.length = r
  below : ∀ x ∈ t, x < n

theorem Tuple.cell_lt (h : Tuple n r t) (hi : i < r) : cell t i < n := by
  have hlen := h.length
  have hmem := List.getElem_mem (show i < t.length by omega)
  have hlt := h.below _ hmem
  simpa [cell, show i < t.length by omega] using hlt

theorem finite_tuples (n r : ℕ) : {t | Tuple n r t}.Finite := by
  refine ((List.finite_length_eq (Fin n) r).image (List.map Fin.val)).subset ?_
  intro t ht
  refine ⟨t.pmap Fin.mk ht.below, ?_, ?_⟩
  · rw [Set.mem_ofPred_eq, List.length_pmap, ht.length]
  · rw [List.map_pmap]
    simp

/-- A set of tuples can be listed. -/
theorem exists_lists (h : ∀ t, Valid t → Tuple n r t) : ∃ tuples, Lists Valid tuples := by
  have hfin : {t | Valid t}.Finite := (finite_tuples n r).subset h
  refine ⟨hfin.toFinset.sort (· ≤ ·), (hfin.toFinset.sortedLT_sort).pairwise, fun t => ?_⟩
  rw [Finset.mem_sort, Set.Finite.mem_toFinset, Set.mem_ofPred_eq]

/-- The first difference decides. -/
theorem lt_iff_cells (hlen : s.length = t.length) :
    s < t ↔ ∃ k < t.length, (∀ j < k, cell s j = cell t j) ∧ cell s k < cell t k := by
  rw [List.lt_iff_exists]
  constructor
  · rintro (⟨-, h⟩ | ⟨k, hk, hk', hsame, hlt⟩)
    · omega
    · refine ⟨k, hk', fun j hj => ?_, ?_⟩
      · simpa [cell, show j < s.length by omega, show j < t.length by omega] using hsame j hj
      · simpa [cell, hk, hk'] using hlt
  · rintro ⟨k, hk, hsame, hlt⟩
    refine .inr ⟨k, by omega, hk, fun j hj => ?_, ?_⟩
    · simpa [cell, show j < s.length by omega, show j < t.length by omega] using hsame j hj
    · simpa [cell, hk, show k < s.length by omega] using hlt

/-- The tuple that is as small in all cells is at most the other. -/
theorem le_of_cells (hlen : s.length = t.length) (h : ∀ j < t.length, cell s j ≤ cell t j) : s ≤ t := by
  by_contra hlt
  obtain ⟨k, hk, -, hless⟩ := (lt_iff_cells hlen.symm).mp (not_le.mp hlt)
  have := h k (by omega)
  omega

/-- One tuple grows to another in cell `i`, and is the least such. -/
structure Grows (Valid : List ℕ → Prop) (r i : ℕ) (t t' : List ℕ) : Prop where
  lt : i < r
  same : ∀ j < i, cell t' j = cell t j
  grown : cell t' i = cell t i + 1
  full : ∀ s, Valid s → ∀ j, i < j → j < r → (∀ k < j, cell s k = cell t k) → cell s j ≤ cell t j
  least : ∀ s, Valid s → (∀ k ≤ i, cell s k = cell t' k) → ∀ j, i < j → j < r → cell t' j ≤ cell s j

/-- A tuple that has grown is the next one. -/
theorem Grows.follows (h : Grows Valid r i t t') (hlen : t.length = r) (hlen' : t'.length = r) (hvalid : Valid t')
    (hlength : ∀ s, Valid s → s.length = r) : Follows Valid (t : WithBot (List ℕ)) (some t') := by
  refine ⟨hvalid, WithBot.coe_lt_coe.mpr ((lt_iff_cells (by omega)).mpr ⟨i, by have := h.lt; omega, ?_, ?_⟩), ?_⟩
  · exact fun j hj => (h.same j hj).symm
  · rw [h.grown]
    exact Nat.lt_succ_self _
  · intro s hs hts
    have hslen := hlength s hs
    obtain ⟨k, hk, hsame, hless⟩ := (lt_iff_cells (by omega)).mp (WithBot.coe_lt_coe.mp hts)
    by_contra hlt
    obtain ⟨k', hk', hsame', hless'⟩ := (lt_iff_cells (by omega)).mp (not_le.mp hlt)
    have hgrown := h.grown
    rcases lt_trichotomy k i with hki | rfl | hik
    · -- the tuple is greater before the cell that grows
      have hcell := h.same k hki
      rcases lt_trichotomy k' k with hk'k | rfl | hkk'
      · have hs := hsame k' hk'k
        have ht := h.same k' (by omega)
        omega
      · omega
      · have hs := hsame' k hkk'
        omega
    · rcases lt_trichotomy k' k with hk'k | rfl | hkk'
      · have hs := hsame k' hk'k
        have ht := h.same k' hk'k
        omega
      · omega
      · have hmin := h.least s hs (fun m hm => hsame' m (by omega)) k' hkk' (by omega)
        omega
    · have hmax := h.full s hs k hik (by omega) fun m hm => (hsame m hm).symm
      omega

/-- A tuple in which no cell can grow is the last one. -/
theorem follows_none (hlen : t.length = r) (hlength : ∀ s, Valid s → s.length = r)
    (hfull : ∀ s, Valid s → ∀ j < r, (∀ k < j, cell s k = cell t k) → cell s j ≤ cell t j) :
    Follows Valid (t : WithBot (List ℕ)) none := by
  intro s hs hts
  have hslen := hlength s hs
  obtain ⟨k, hk, hsame, hless⟩ := (lt_iff_cells (by omega)).mp (WithBot.coe_lt_coe.mp hts)
  have := hfull s hs k (by omega) fun m hm => (hsame m hm).symm
  omega

/-- The tuple that is as small as any in all cells is the first one. -/
theorem follows_bot (hlen : t.length = r) (hvalid : Valid t) (hlength : ∀ s, Valid s → s.length = r)
    (hleast : ∀ s, Valid s → ∀ j < r, cell t j ≤ cell s j) : Follows Valid ⊥ (some t) := by
  refine ⟨hvalid, WithBot.bot_lt_coe t, fun s hs _ => le_of_cells ?_ fun j hj => hleast s hs j ?_⟩
  · rw [hlen, hlength s hs]
  · rw [← hlength s hs]
    exact hj

/-! ### The cells of ascending tuples -/

theorem pairwise_cells {R : ℕ → ℕ → Prop} : t.Pairwise R ↔ ∀ i j, i < j → j < t.length → R (cell t i) (cell t j) := by
  rw [List.pairwise_iff_getElem]
  constructor
  · intro h i j hij hj
    simpa [cell, show i < t.length by omega, hj] using h i j (by omega) hj hij
  · intro h i j hi hj hij
    simpa [cell, hi, hj] using h i j hij hj

/-- The cells of a strictly ascending tuple are as far apart as their places. -/
theorem add_le_cell (h : t.Pairwise (· < ·)) (hi : i + n < t.length) : cell t i + n ≤ cell t (i + n) := by
  induction n with
  | zero => exact le_rfl
  | succ n ih =>
    have hprev := ih (by omega)
    have hlt := pairwise_cells.mp h (i + n) (i + (n + 1)) (by omega) hi
    omega

/-- More different indices than there are cannot be in a tuple. -/
theorem Tuple.le_of_nodup (h : Tuple n r t) (hnodup : t.Nodup) : r ≤ n := by
  have hsub : t ⊆ List.range n := fun x hx => List.mem_range.mpr (h.below x hx)
  have hle := (hnodup.subperm hsub).length_le
  rwa [h.length, List.length_range] at hle

end Deemon.Tuples
