import Deemon.Lib.EditDistance
import Deemon.Unicode.FoldReader

/-!
# Fuzzy comparison

`LOCAL_fuzzy_compare` fills two rows of a table of edit distances in turn. A cell of a fresh row holds whatever the
allocation left there: `none` is a cell that nobody has written, and a run that reads one breaks off.
-/

namespace Deemon.Unicode

open Deemon.Run Deemon.EditDistance

/-! ### The code -/

/-- A row of `size_t` cells. -/
abbrev Row := List (Option ℕ)

def readCell (row : Row) (j : ℕ) : Option ℕ := row[j]?.join

def writeCell (row : Row) (j v : ℕ) : Option Row := if j < row.length then some (row.set j (some v)) else none

/-- `memcpyc(dst, src, n, sizeof(size_t))`. -/
def copyRow (dst src : Row) (n : ℕ) : Option Row :=
  if n ≤ dst.length ∧ n ≤ src.length then some (src.take n ++ dst.drop n) else none

/-- `if (temp < cost) cost = temp;`. -/
def lowerCost (cost temp : ℕ) : ℕ := if temp < cost then temp else cost

/-- The body of the inner loop, behind the comparison of two characters. -/
def fuzzyCell (v0 v1 : Row) (j cost : ℕ) : Option Row := do
  let cost := (cost + (← readCell v0 j)) % 2 ^ 64
  let cost := lowerCost cost (((← readCell v1 j) + 1) % 2 ^ 64)
  let cost := lowerCost cost (((← readCell v0 (j + 1)) + 1) % 2 ^ 64)
  writeCell v1 (j + 1) cost

/-- `for (i = 0; i < rhs_len; ++i) v0[i] = i;`. -/
def fuzzyInit (v0 : Row) (rhsLen : ℕ) : Option Row := forLoop (fun i v0 => writeCell v0 i i) 0 rhsLen v0

/-- The inner loop. -/
def fuzzyRow (transform : ℕ → ℕ) (rhs : List ℕ) (lhsValue : ℕ) (v0 v1 : Row) : Option Row :=
  forLoop (fun j v1 => do
    fuzzyCell v0 v1 j (if lhsValue = transform (← rd rhs j) then 0 else 1)) 0 rhs.length v1

/-- `if (temp > (size_t)-2) temp = (size_t)-2;`. -/
def fuzzyResult (temp : ℕ) : ℕ := if 2 ^ 64 - 2 < temp then 2 ^ 64 - 2 else temp

/-- `LOCAL_fuzzy_compare` with the transformation `LOCAL_TRANSFORM`, on the freshly allocated rows `v0` and `v1`. -/
def fuzzyCompare (transform : ℕ → ℕ) (lhs rhs : List ℕ) (v0 v1 : Row) : Option ℕ :=
  if lhs.length = 0 then some rhs.length
  else if rhs.length = 0 then some lhs.length
  else do
    let v0 ← fuzzyInit v0 rhs.length
    let (_, v1) ← forLoop (fun i (v0, v1) => do
      let lhsValue := transform (← rd lhs i)
      let v1 ← fuzzyRow transform rhs lhsValue v0 (← writeCell v1 0 (i + 1))
      some (← copyRow v0 v1 rhs.length, v1)) 0 lhs.length (v0, v1)
    some (fuzzyResult (← readCell v1 rhs.length))

/-- The inner loop of `LOCAL_fuzzy_casecompare`. -/
def fuzzyCaseRow (F : Folding) (rhs : List ℕ) (foldedRhsLen aValue : ℕ) (v0 v1 : Row) : Option Row := do
  let (rhsReader, v1) ← forLoop (fun j (rhsReader, v1) => do
    let (bValue, rhsReader) ← rhsReader.getc F
    some (rhsReader, ← fuzzyCell v0 v1 j (if aValue = bValue then 0 else 1))) 0 foldedRhsLen (FoldReader.init rhs, v1)
  assert (rhsReader.empty = true)
  some v1

/-- `LOCAL_fuzzy_casecompare`. -/
def fuzzyCasecompare (F : Folding) (lhs rhs : List ℕ) (v0 v1 : Row) : Option ℕ := do
  let foldedLhsLen ← F.foldedLength lhs
  let foldedRhsLen ← F.foldedLength rhs
  if foldedLhsLen = 0 then some foldedRhsLen
  else if foldedRhsLen = 0 then some foldedLhsLen
  else do
    let v0 ← fuzzyInit v0 foldedRhsLen
    let (lhsReader, _, v1) ← forLoop (fun i (lhsReader, v0, v1) => do
      let (aValue, lhsReader) ← lhsReader.getc F
      let v1 ← fuzzyCaseRow F rhs foldedRhsLen aValue v0 (← writeCell v1 0 (i + 1))
      some (lhsReader, ← copyRow v0 v1 foldedRhsLen, v1)) 0 foldedLhsLen (FoldReader.init lhs, v0, v1)
    assert (lhsReader.empty = true)
    some (fuzzyResult (← readCell v1 foldedRhsLen))

/-! ### Rows -/

section Rows

variable {row row' v0 v1 : Row} {i j n v cost : ℕ}

theorem writeCell_of_lt (h : j < row.length) : writeCell row j v = some (row.set j (some v)) := if_pos h

theorem readCell_eq (h : row[j]? = some (some v)) : readCell row j = some v := by rw [readCell, h]; rfl

theorem lower_eq_min (cost temp : ℕ) : lowerCost cost temp = min cost temp := by
  unfold lowerCost
  split <;> omega

/-- The row holds the first `n` values of `f`. -/
def Written (f : ℕ → ℕ) (n : ℕ) (row : Row) : Prop := ∀ j < n, row[j]? = some (some (f j))

theorem Written.set {f : ℕ → ℕ} (h : Written f j row) (hlen : j < row.length) (hv : v = f j) :
    Written f (j + 1) (row.set j (some v)) := by
  intro i hi
  rcases Nat.lt_succ_iff_lt_or_eq.mp hi with hlt | rfl
  · rw [List.getElem?_set_ne (by omega)]
    exact h i hlt
  · rw [List.getElem?_set_self hlen, hv]

/-- The first loop writes every cell of the row but the last one. -/
theorem fuzzyInit_ends (hlen : v0.length = n + 1) :
    Ends (fuzzyInit v0 n) fun r => r.length = n + 1 ∧ Written id n r ∧ r[n]? = v0[n]? := by
  refine forLoop_ends_zero (fun i r => r.length = n + 1 ∧ Written id i r ∧ r[n]? = v0[n]?)
    ⟨hlen, fun j hj => absurd hj (Nat.not_lt_zero j), rfl⟩ ?_
  rintro i r hi ⟨hlen, hwritten, hlast⟩
  rw [writeCell_of_lt (by omega)]
  refine Ends.pure ⟨by rw [List.length_set, hlen], hwritten.set (by omega) rfl, ?_⟩
  rw [List.getElem?_set_ne (by omega), hlast]

theorem fuzzyCell_eq {x y z : ℕ} (hx : readCell v0 j = some x) (hy : readCell v1 j = some y)
    (hz : readCell v0 (j + 1) = some z) (hlen : j + 1 < v1.length) : fuzzyCell v0 v1 j cost =
      some (v1.set (j + 1) (some (min (min ((cost + x) % 2 ^ 64) ((y + 1) % 2 ^ 64)) ((z + 1) % 2 ^ 64)))) := by
  rw [fuzzyCell, hx, some_bind, hy, some_bind, hz, some_bind, writeCell_of_lt hlen, lower_eq_min, lower_eq_min]

theorem fuzzyCell_eq_none (hz : readCell v0 (j + 1) = none) : fuzzyCell v0 v1 j cost = none := by
  rw [fuzzyCell]
  cases readCell v0 j with
  | none => rfl
  | some x =>
    rw [some_bind]
    cases readCell v1 j with
    | none => rfl
    | some y => rw [some_bind, hz]; rfl

theorem copyRow_ends (hdst : v0.length = n + 1) (hsrc : v1.length = n + 1) {f : ℕ → ℕ} (hwritten : Written f n v1) :
    Ends (copyRow v0 v1 n) fun r => r.length = n + 1 ∧ Written f n r ∧ r[n]? = v0[n]? := by
  rw [copyRow, if_pos ⟨by omega, by omega⟩]
  have hlen : (v1.take n).length = n := by rw [List.length_take]; omega
  refine Ends.pure ⟨?_, fun j hj => ?_, ?_⟩
  · rw [List.length_append, hlen, List.length_drop]
    omega
  · rw [List.getElem?_append_left (by omega), List.getElem?_take_of_lt hj]
    exact hwritten j hj
  · rw [List.getElem?_append_right (by omega), hlen, List.getElem?_drop, Nat.sub_self, Nat.add_zero]

end Rows

/-! ### The table -/

section Table

variable {a b : List ℕ} {i j g : ℕ}

/-- The distance of the first `i` characters and the first `j` characters. -/
def tableDistance (a b : List ℕ) (i j : ℕ) : ℕ := editDistance (a.take i) (b.take j)

/-- The price of a substitution. -/
def substCost (x y : ℕ) : ℕ := if x = y then 0 else 1

theorem tableDistance_le (i j : ℕ) : tableDistance a b i j ≤ max i j := by
  refine (editDistance_le_max _ _).trans (max_le_max ?_ ?_) <;> exact List.length_take_le _ _

theorem take_succ_cell (hi : i < a.length) : a.take (i + 1) = a.take i ++ [cell a i] := by
  rw [List.take_succ_eq_append_getElem hi]
  simp [cell, hi]

theorem tableDistance_succ (hi : i < a.length) (hj : j < b.length) : tableDistance a b (i + 1) (j + 1) =
    min (min (substCost (cell a i) (cell b j) + tableDistance a b i j) (tableDistance a b (i + 1) j + 1))
      (tableDistance a b i (j + 1) + 1) := by
  unfold tableDistance substCost
  rw [take_succ_cell hi, take_succ_cell hj, editDistance_concat, Nat.add_comm (ite _ _ _), min_assoc]

/-- What the last cell of a row gets when the row before has `g` there. -/
def lastCell (a b : List ℕ) (g i : ℕ) : ℕ :=
  min (min (substCost (cell a i) (cell b (b.length - 1)) + tableDistance a b i (b.length - 1))
    (tableDistance a b (i + 1) (b.length - 1) + 1)) ((g + 1) % 2 ^ 64)

/-- The cells of row `i + 1`. -/
def rowCell (a b : List ℕ) (g i j : ℕ) : ℕ := if j < b.length then tableDistance a b (i + 1) j else lastCell a b g i

theorem substCost_le (x y : ℕ) : substCost x y ≤ 1 := by
  unfold substCost
  split <;> omega

theorem tableDistance_zero (hi : i ≤ a.length) : tableDistance a b i 0 = i := by
  rw [tableDistance, List.take_zero, editDistance_nil_right, List.length_take]
  omega

/-- The texts fit the memory. -/
def TextsFit (a b : List ℕ) : Prop := a.length + 1 < 2 ^ 64 ∧ b.length + 1 < 2 ^ 64

theorem rowCell_succ (hfit : TextsFit a b) (hi : i < a.length) (hj : j < b.length) :
    min (min ((substCost (cell a i) (cell b j) + tableDistance a b i j) % 2 ^ 64)
      ((rowCell a b g i j + 1) % 2 ^ 64)) (((if j + 1 < b.length then tableDistance a b i (j + 1) else g) + 1) % 2 ^ 64) =
    rowCell a b g i (j + 1) := by
  obtain ⟨ha, hb⟩ := hfit
  have hcost := substCost_le (cell a i) (cell b j)
  have hdiag := tableDistance_le (a := a) (b := b) i j
  have hleft := tableDistance_le (a := a) (b := b) (i + 1) j
  rw [rowCell, if_pos hj, Nat.mod_eq_of_lt (by omega), Nat.mod_eq_of_lt (by omega)]
  by_cases hlast : j + 1 < b.length
  · have habove := tableDistance_le (a := a) (b := b) i (j + 1)
    rw [if_pos hlast, rowCell, if_pos hlast, Nat.mod_eq_of_lt (by omega), tableDistance_succ hi hj]
  · obtain rfl : j = b.length - 1 := by omega
    rw [if_neg hlast, rowCell, if_neg hlast, lastCell]

end Table

section Rounds

variable {a b : List ℕ} {v0 v1 : Row} {i g : ℕ}

/-- A round of the outer loop fills the row. -/
theorem fuzzyRow_ends (hfit : TextsFit a b) (hi : i < a.length) (hpos : 0 < b.length)
    (hv0 : Written (tableDistance a b i) b.length v0) (hg : v0[b.length]? = some (some g))
    (hlen : v1.length = b.length + 1) :
    Ends (fuzzyRow id b (cell a i) v0 (v1.set 0 (some (i + 1)))) fun r => r.length = b.length + 1 ∧
      Written (rowCell a b g i) (b.length + 1) r := by
  refine forLoop_ends_zero (fun j r => r.length = b.length + 1 ∧ Written (rowCell a b g i) (j + 1) r)
    ⟨List.length_set.trans hlen, ?_⟩ ?_
  · intro j hj
    obtain rfl : j = 0 := by omega
    rw [List.getElem?_set_self (by omega), rowCell, if_pos hpos, tableDistance_zero (by omega)]
  · rintro j r hj ⟨hrlen, hr⟩
    have habove : readCell v0 (j + 1) = some (if j + 1 < b.length then tableDistance a b i (j + 1) else g) := by
      by_cases hlast : j + 1 < b.length
      · rw [if_pos hlast]
        exact readCell_eq (hv0 (j + 1) hlast)
      · rw [if_neg hlast, show j + 1 = b.length by omega]
        exact readCell_eq hg
    have hcell := rowCell_succ (g := g) hfit hi hj
    rw [substCost] at hcell
    rw [rd_of_lt hj, some_bind, id, fuzzyCell_eq (readCell_eq (hv0 j hj)) (readCell_eq (hr j (Nat.lt_succ_self j))) habove
      (by omega), hcell]
    exact Ends.pure ⟨by rw [List.length_set, hrlen], hr.set (by omega) rfl⟩

/-- A round breaks off when nobody has written the last cell of the row before. -/
theorem fuzzyRow_eq_none {x : ℕ} (hpos : 0 < b.length) (hg : readCell v0 b.length = none) :
    fuzzyRow id b x v0 v1 = none := by
  refine forLoop_eq_none (fun _ => True) (i := b.length - 1) trivial (Nat.zero_le _) (by omega)
    (fun _ _ _ _ _ => trivial) fun v1 _ => ?_
  rw [rd_of_lt (by omega), some_bind]
  apply fuzzyCell_eq_none
  rwa [Nat.sub_add_cancel hpos]

theorem lastCell_le (ha : 0 < a.length) (hb : 0 < b.length) : lastCell a b g (a.length - 1) ≤ max a.length b.length := by
  have hcost := substCost_le (cell a (a.length - 1)) (cell b (b.length - 1))
  have hdiag := tableDistance_le (a := a) (b := b) (a.length - 1) (b.length - 1)
  unfold lastCell
  omega

/-- The result when the last cell of the first row holds `g`. -/
theorem fuzzyCompare_filled (hfit : TextsFit a b) (ha : 0 < a.length) (hb : 0 < b.length) (hv0 : v0.length = b.length + 1)
    (hv1 : v1.length = b.length + 1) (hg : v0[b.length]? = some (some g)) :
    fuzzyCompare id a b v0 v1 = some (lastCell a b g (a.length - 1)) := by
  have hrun : Ends (fuzzyCompare id a b v0 v1) fun r => r = lastCell a b g (a.length - 1) := by
    unfold fuzzyCompare
    rw [if_neg (by omega), if_neg (by omega)]
    refine Ends.bind (fuzzyInit_ends hv0) ?_
    rintro v0 ⟨hv0, hwritten, hlast⟩
    rw [hg] at hlast
    refine Ends.bind (forLoop_ends_zero (fun i s => s.1.length = b.length + 1 ∧ s.2.length = b.length + 1 ∧
      Written (tableDistance a b i) b.length s.1 ∧ s.1[b.length]? = some (some g) ∧
      (0 < i → s.2[b.length]? = some (some (lastCell a b g (i - 1))))) ⟨hv0, hv1, ?_, hlast, by omega⟩ ?_) ?_
    · intro j hj
      rw [hwritten j hj, tableDistance, List.take_zero, editDistance_nil_left, List.length_take, id, min_eq_left hj.le]
    · rintro i ⟨v0, v1⟩ hi ⟨hv0, hv1, hrow, hlast, -⟩
      dsimp only at hv0 hv1 hrow hlast ⊢
      rw [rd_of_lt hi, some_bind, writeCell_of_lt (by omega), some_bind]
      refine Ends.bind (fuzzyRow_ends hfit hi hb hrow hlast hv1) ?_
      rintro v1 ⟨hv1, hnext⟩
      have hcells : Written (tableDistance a b (i + 1)) b.length v1 := by
        intro j hj
        rw [hnext j (by omega), rowCell, if_pos hj]
      refine Ends.bind (copyRow_ends hv0 hv1 hcells) ?_
      rintro v0' ⟨hv0', hrow', hlast'⟩
      refine Ends.pure ⟨hv0', hv1, hrow', by rw [hlast', hlast], fun _ => ?_⟩
      rw [hnext b.length (Nat.lt_succ_self _), rowCell, if_neg (lt_irrefl _)]
      rfl
    · rintro ⟨_, v1⟩ ⟨-, -, -, -, hlast⟩
      dsimp only at hlast ⊢
      have hle := lastCell_le (g := g) ha hb
      have := hfit.1
      have := hfit.2
      rw [readCell_eq (hlast ha), some_bind, fuzzyResult, if_neg (by omega)]
      exact Ends.pure rfl
  obtain ⟨r, hr, rfl⟩ := hrun
  exact hr

/-- A run on rows that nobody has written breaks off. -/
theorem fuzzyCompare_unwritten (ha : 0 < a.length) (hb : 0 < b.length) (hv0 : v0.length = b.length + 1)
    (hg : v0[b.length]? = some none) : fuzzyCompare id a b v0 v1 = none := by
  unfold fuzzyCompare
  rw [if_neg (by omega), if_neg (by omega)]
  obtain ⟨v0', hrun, -, -, hlast⟩ := fuzzyInit_ends hv0
  obtain ⟨n, hn⟩ : ∃ n, a.length = n + 1 := ⟨a.length - 1, by omega⟩
  rw [hrun, some_bind, hn, forLoop]
  dsimp only
  rw [rd_of_lt ha, some_bind]
  cases hwrite : writeCell v1 0 (0 + 1) with
  | none => rfl
  | some v1' =>
    rw [some_bind, fuzzyRow_eq_none hb (by rw [readCell, hlast, hg]; rfl)]
    rfl

end Rounds

/-! ### Transformed and folded characters -/

section Transformed

variable {f : ℕ → ℕ} {F : Folding} {lhs rhs : List ℕ} {v0 v1 : Row}

theorem cell_map {i : ℕ} (hi : i < lhs.length) : cell (lhs.map f) i = f (cell lhs i) := by simp [cell, hi]

theorem fuzzyRow_map (x : ℕ) : fuzzyRow f rhs x v0 v1 = fuzzyRow id (rhs.map f) x v0 v1 := by
  unfold fuzzyRow
  rw [List.length_map]
  refine forLoop_congr fun j v1 _ hj => ?_
  rw [rd_of_lt (by omega), rd_of_lt (by rw [List.length_map]; omega), some_bind, some_bind, cell_map (by omega), id]

/-- A comparison of transformed characters is one of the transformed texts. -/
theorem fuzzyCompare_map (f : ℕ → ℕ) (lhs rhs : List ℕ) (v0 v1 : Row) :
    fuzzyCompare f lhs rhs v0 v1 = fuzzyCompare id (lhs.map f) (rhs.map f) v0 v1 := by
  unfold fuzzyCompare
  simp only [List.length_map]
  congr 3
  funext v0
  congr 1
  refine forLoop_congr fun i s _ hi => ?_
  rw [rd_of_lt (by omega), rd_of_lt (by rw [List.length_map]; omega), some_bind, some_bind, cell_map (by omega)]
  have hrow : ∀ x v0 v1, fuzzyRow f rhs x v0 v1 = fuzzyRow id (rhs.map f) x v0 v1 := fun x _ _ => fuzzyRow_map x
  simp only [hrow, id]

/-- What is left to read is the rest of the folded text, character by character. -/
theorem FoldReader.getc_drop {a : List ℕ} {i : ℕ} {r : FoldReader} (hi : i < a.length) (h : r.unread F = a.drop i) :
    Ends (r.getc F) fun p => p.1 = cell a i ∧ p.2.unread F = a.drop (i + 1) := by
  rw [List.drop_eq_getElem_cons hi] at h
  refine (FoldReader.getc_cons h).mono fun p hp => ⟨?_, hp.2⟩
  rw [hp.1]
  simp [cell, hi]

theorem fuzzyCaseRow_eq (x : ℕ) :
    fuzzyCaseRow F rhs (F.foldText rhs).length x v0 v1 = fuzzyRow id (F.foldText rhs) x v0 v1 := by
  have hstep : ∀ (i : ℕ) (s s' : FoldReader × Row), 0 ≤ i → i < 0 + (F.foldText rhs).length →
      s.1.unread F = (F.foldText rhs).drop i → (do
        let (bValue, rhsReader) ← s.1.getc F
        some (rhsReader, ← fuzzyCell v0 s.2 i (if x = bValue then 0 else 1))) = some s' →
      s'.1.unread F = (F.foldText rhs).drop (i + 1) := by
    intro i s s' _ hi hs hrun
    obtain ⟨p, hp, -, hp2⟩ := FoldReader.getc_drop (by omega) hs
    rw [hp, some_bind] at hrun
    obtain ⟨v, -, hv⟩ := of_bind hrun
    cases hv
    exact hp2
  have hmap := forLoop_map (g := fun j v1 => do
      fuzzyCell v0 v1 j (if x = id (← rd (F.foldText rhs) j) then 0 else 1))
    (fun i (s : FoldReader × Row) => s.1.unread F = (F.foldText rhs).drop i) Prod.snd (a := 0)
    (n := (F.foldText rhs).length) (s := (FoldReader.init rhs, v1)) rfl (fun i s _ hi hs => ?_) hstep
  · unfold fuzzyCaseRow fuzzyRow
    rw [← hmap]
    cases hrun : forLoop (fun j (s : FoldReader × Row) => do
        let (bValue, rhsReader) ← s.1.getc F
        some (rhsReader, ← fuzzyCell v0 s.2 j (if x = bValue then 0 else 1))) 0 (F.foldText rhs).length
        (FoldReader.init rhs, v1) with
    | none => rfl
    | some s =>
      have hend := forLoop_post (fun i (s : FoldReader × Row) => s.1.unread F = (F.foldText rhs).drop i) rfl hstep hrun
      rw [Nat.zero_add, List.drop_length] at hend
      rw [some_bind]
      dsimp only
      rw [assert_of (FoldReader.empty_iff.mpr hend)]
      rfl
  · obtain ⟨⟨c, r⟩, hread, hc, -⟩ := FoldReader.getc_drop (by omega) hs
    dsimp only at hc
    subst hc
    rw [hread, some_bind, rd_of_lt (by omega), some_bind, id]
    dsimp only
    cases fuzzyCell v0 s.2 i (if x = cell (F.foldText rhs) i then 0 else 1) <;> rfl

/-- A comparison of case-folded characters is one of the case-folded texts. -/
theorem fuzzyCasecompare_eq (hl : (F.foldText lhs).length < 2 ^ 64) (hr : (F.foldText rhs).length < 2 ^ 64) :
    fuzzyCasecompare F lhs rhs v0 v1 = fuzzyCompare id (F.foldText lhs) (F.foldText rhs) v0 v1 := by
  obtain ⟨n, hn, rfl⟩ := Folding.foldedLength_ends hl
  obtain ⟨m, hm, rfl⟩ := Folding.foldedLength_ends hr
  unfold fuzzyCasecompare fuzzyCompare
  rw [hn, some_bind, hm, some_bind]
  congr 3
  funext v0
  have hstep : ∀ (i : ℕ) (s s' : FoldReader × Row × Row), 0 ≤ i → i < 0 + (F.foldText lhs).length →
      s.1.unread F = (F.foldText lhs).drop i → (do
        let (aValue, lhsReader) ← s.1.getc F
        let v1 ← fuzzyCaseRow F rhs (F.foldText rhs).length aValue s.2.1 (← writeCell s.2.2 0 (i + 1))
        some (lhsReader, ← copyRow s.2.1 v1 (F.foldText rhs).length, v1)) = some s' →
      s'.1.unread F = (F.foldText lhs).drop (i + 1) := by
    intro i s s' _ hi hs hrun
    obtain ⟨p, hp, -, hp2⟩ := FoldReader.getc_drop (by omega) hs
    rw [hp, some_bind] at hrun
    obtain ⟨w, -, hw⟩ := of_bind hrun
    obtain ⟨v1, -, hv1⟩ := of_bind hw
    obtain ⟨v0, -, hv0⟩ := of_bind hv1
    cases hv0
    exact hp2
  have hmap := forLoop_map (g := fun i (s : Row × Row) => do
      let lhsValue := id (← rd (F.foldText lhs) i)
      let v1 ← fuzzyRow id (F.foldText rhs) lhsValue s.1 (← writeCell s.2 0 (i + 1))
      some (← copyRow s.1 v1 (F.foldText rhs).length, v1))
    (fun i (s : FoldReader × Row × Row) => s.1.unread F = (F.foldText lhs).drop i) Prod.snd (a := 0)
    (n := (F.foldText lhs).length) (s := (FoldReader.init lhs, v0, v1)) rfl (fun i s _ hi hs => ?_) hstep
  · change _ = (forLoop _ 0 _ (Prod.snd (FoldReader.init lhs, v0, v1)) >>= _)
    rw [← hmap]
    cases hrun : forLoop (fun i (s : FoldReader × Row × Row) => do
        let (aValue, lhsReader) ← s.1.getc F
        let v1 ← fuzzyCaseRow F rhs (F.foldText rhs).length aValue s.2.1 (← writeCell s.2.2 0 (i + 1))
        some (lhsReader, ← copyRow s.2.1 v1 (F.foldText rhs).length, v1)) 0 (F.foldText lhs).length
        (FoldReader.init lhs, v0, v1) with
    | none => rfl
    | some s =>
      have hend := forLoop_post (fun i (s : FoldReader × Row × Row) => s.1.unread F = (F.foldText lhs).drop i) rfl hstep
        hrun
      rw [Nat.zero_add, List.drop_length] at hend
      rw [some_bind]
      dsimp only
      rw [assert_of (FoldReader.empty_iff.mpr hend)]
      rfl
  · obtain ⟨⟨c, r⟩, hread, hc, -⟩ := FoldReader.getc_drop (by omega) hs
    dsimp only at hc
    subst hc
    rw [hread, some_bind, rd_of_lt (by omega), some_bind, id]
    dsimp only
    cases writeCell s.2.2 0 (i + 1) with
    | none => rfl
    | some w =>
      rw [some_bind, some_bind, fuzzyCaseRow_eq]
      cases fuzzyRow id (F.foldText rhs) (cell (F.foldText lhs) i) s.2.1 w with
      | none => rfl
      | some v1 =>
        rw [some_bind, some_bind]
        cases copyRow s.2.1 v1 (F.foldText rhs).length <;> rfl

end Transformed

/-! ### Distances -/

/-- A row of `n + 1` cells that holds some numbers. -/
def FilledRow (n : ℕ) (row : Row) : Prop := row.length = n + 1 ∧ ∀ c ∈ row, ∃ g < 2 ^ 64, c = some g

/-- A row of `n + 1` cells that nobody has written. -/
abbrev freshRow (n : ℕ) : Row := List.replicate (n + 1) none

/-- The comparison returns the distance of the texts that it reads, whatever the rows held before, and reads no cell
before it has written it. -/
structure FuzzyExact (fuzzy : List ℕ → List ℕ → Row → Row → Option ℕ) (text : List ℕ → List ℕ) (lhs rhs : List ℕ) :
    Prop where
  distance : ∀ v0 v1, FilledRow (text rhs).length v0 → FilledRow (text rhs).length v1 →
    fuzzy lhs rhs v0 v1 = some (editDistance (text lhs) (text rhs))
  written : ∃ r, fuzzy lhs rhs (freshRow (text rhs).length) (freshRow (text rhs).length) = some r
  symmetric : ∀ v0 v1 w0 w1, FilledRow (text rhs).length v0 → FilledRow (text rhs).length v1 → FilledRow (text lhs).length w0 →
    FilledRow (text lhs).length w1 → fuzzy lhs rhs v0 v1 = fuzzy rhs lhs w0 w1
  triangle : ∀ mid v0 v1 r, FilledRow (text rhs).length v0 → FilledRow (text rhs).length v1 → fuzzy lhs rhs v0 v1 = some r →
    r ≤ editDistance (text lhs) (text mid) + editDistance (text mid) (text rhs)

section Exact

variable {fuzzy : List ℕ → List ℕ → Row → Row → Option ℕ} {text : List ℕ → List ℕ} {lhs rhs a b : List ℕ} {v0 v1 : Row}
  {n g : ℕ}

theorem filledRow_replicate (hg : g < 2 ^ 64) : FilledRow n (List.replicate (n + 1) (some g)) :=
  ⟨List.length_replicate, fun _ hc => ⟨g, hg, List.eq_of_mem_replicate hc⟩⟩

theorem fuzzyCompare_nil_left : fuzzyCompare id [] b v0 v1 = some b.length := rfl

theorem fuzzyCompare_nil_right : fuzzyCompare id a [] v0 v1 = some a.length := by
  cases a with
  | nil => rfl
  | cons x a => rfl

/-- An empty text needs no table. -/
theorem fuzzyCompare_empty (h : a = [] ∨ b = []) : fuzzyCompare id a b v0 v1 = some (editDistance a b) := by
  rcases h with rfl | rfl
  · rw [fuzzyCompare_nil_left, editDistance_nil_left]
  · rw [fuzzyCompare_nil_right, editDistance_nil_right]

/-- Equal texts have no distance, whatever the last cell holds. -/
theorem lastCell_self : lastCell a a g (a.length - 1) = 0 := by
  have hdiag : tableDistance a a (a.length - 1) (a.length - 1) = 0 := editDistance_eq_zero.mpr rfl
  rw [lastCell, hdiag, substCost, if_pos rfl, Nat.add_zero, Nat.zero_min, Nat.zero_min]

/-- The returned number is right for all rows just when a text is empty or the texts are the same. -/
theorem fuzzyCompare_distance_iff (hfit : TextsFit a b) : (∀ v0 v1, FilledRow b.length v0 → FilledRow b.length v1 →
    fuzzyCompare id a b v0 v1 = some (editDistance a b)) ↔ (a = [] ∨ b = []) ∨ a = b := by
  constructor
  · intro h
    by_cases hempty : a = [] ∨ b = []
    · exact .inl hempty
    · rw [not_or] at hempty
      have ha := List.length_pos_iff.mpr hempty.1
      have hb := List.length_pos_iff.mpr hempty.2
      -- the largest number wraps when it is incremented
      have hg : (List.replicate (b.length + 1) (some (2 ^ 64 - 1)))[b.length]? = some (some (2 ^ 64 - 1)) :=
        List.getElem?_replicate_of_lt (Nat.lt_succ_self _)
      have hrun := h _ _ (filledRow_replicate (g := 2 ^ 64 - 1) (by norm_num)) (filledRow_replicate (g := 0) (by norm_num))
      rw [fuzzyCompare_filled hfit ha hb List.length_replicate List.length_replicate hg, Option.some.injEq, lastCell,
        show (2 ^ 64 - 1 + 1) % 2 ^ 64 = 0 from rfl, Nat.min_zero] at hrun
      exact .inr (editDistance_eq_zero.mp hrun.symm)
  · rintro (hempty | rfl) v0 v1 hv0 hv1
    · exact fuzzyCompare_empty hempty
    · by_cases hempty : a = []
      · exact fuzzyCompare_empty (.inl hempty)
      · have ha := List.length_pos_iff.mpr hempty
        have hlt : a.length < v0.length := by rw [hv0.1]; exact Nat.lt_succ_self _
        obtain ⟨g, -, hg⟩ := hv0.2 _ (List.getElem_mem hlt)
        have hlast : v0[a.length]? = some (some g) := by rw [List.getElem?_eq_getElem hlt, hg]
        rw [fuzzyCompare_filled hfit ha ha hv0.1 hv1.1 hlast, lastCell_self, editDistance_eq_zero.mpr rfl]

/-- A comparison that works on the texts that it reads is exact just when one of them is empty. -/
theorem fuzzyExact_iff_empty (hrun : ∀ v0 v1, fuzzy lhs rhs v0 v1 = fuzzyCompare id (text lhs) (text rhs) v0 v1)
    (hswap : ∀ v0 v1, fuzzy rhs lhs v0 v1 = fuzzyCompare id (text rhs) (text lhs) v0 v1) :
    FuzzyExact fuzzy text lhs rhs ↔ text lhs = [] ∨ text rhs = [] := by
  constructor
  · intro h
    by_contra hempty
    rw [not_or] at hempty
    obtain ⟨r, hr⟩ := h.written
    rw [hrun, fuzzyCompare_unwritten (List.length_pos_iff.mpr hempty.1) (List.length_pos_iff.mpr hempty.2)
      List.length_replicate (List.getElem?_replicate_of_lt (Nat.lt_succ_self _))] at hr
    cases hr
  · intro hempty
    refine ⟨fun v0 v1 _ _ => ?_, ⟨editDistance (text lhs) (text rhs), ?_⟩, fun v0 v1 w0 w1 _ _ _ _ => ?_,
      fun mid v0 v1 r _ _ hr => ?_⟩
    · rw [hrun, fuzzyCompare_empty hempty]
    · rw [hrun, fuzzyCompare_empty hempty]
    · rw [hrun, hswap, fuzzyCompare_empty hempty, fuzzyCompare_empty hempty.symm, editDistance_comm]
    · rw [hrun, fuzzyCompare_empty hempty, Option.some.injEq] at hr
      exact hr ▸ editDistance_triangle _ _ _

end Exact

/-- Fuzzy comparison is the edit distance of the texts, or of the case-folded texts, just when one of them is empty:
otherwise it reads the last cell of the first row, which it has not written. The number that it returns is right
for every content of the rows just when the texts are the same besides. -/
theorem fuzzyExact_iff (f : ℕ → ℕ) (F : Folding) (lhs rhs : List ℕ) (hfit : TextsFit lhs rhs)
    (hfold : TextsFit (F.foldText lhs) (F.foldText rhs)) :
    (FuzzyExact (fuzzyCompare f) (List.map f) lhs rhs ↔ lhs = [] ∨ rhs = []) ∧
    (FuzzyExact (fuzzyCasecompare F) F.foldText lhs rhs ↔ lhs = [] ∨ rhs = []) ∧
    ((∀ v0 v1, FilledRow rhs.length v0 → FilledRow rhs.length v1 →
      fuzzyCompare f lhs rhs v0 v1 = some (editDistance (lhs.map f) (rhs.map f))) ↔
        (lhs = [] ∨ rhs = []) ∨ lhs.map f = rhs.map f) ∧
    ((∀ v0 v1, FilledRow (F.foldText rhs).length v0 → FilledRow (F.foldText rhs).length v1 →
      fuzzyCasecompare F lhs rhs v0 v1 = some (editDistance (F.foldText lhs) (F.foldText rhs))) ↔
        (lhs = [] ∨ rhs = []) ∨ F.foldText lhs = F.foldText rhs) := by
  obtain ⟨hl, hr⟩ := hfold
  have hcase : ∀ v0 v1, fuzzyCasecompare F lhs rhs v0 v1 = fuzzyCompare id (F.foldText lhs) (F.foldText rhs) v0 v1 :=
    fun v0 v1 => fuzzyCasecompare_eq (by omega) (by omega)
  have hcase' : ∀ v0 v1, fuzzyCasecompare F rhs lhs v0 v1 = fuzzyCompare id (F.foldText rhs) (F.foldText lhs) v0 v1 :=
    fun v0 v1 => fuzzyCasecompare_eq (by omega) (by omega)
  refine ⟨?_, ?_, ?_, ?_⟩
  · rw [fuzzyExact_iff_empty (fuzzyCompare_map f lhs rhs) (fuzzyCompare_map f rhs lhs), List.map_eq_nil_iff,
      List.map_eq_nil_iff]
  · rw [fuzzyExact_iff_empty hcase hcase', Folding.foldText_eq_nil, Folding.foldText_eq_nil]
  · have hmap : TextsFit (lhs.map f) (rhs.map f) := by
      rw [TextsFit, List.length_map, List.length_map]
      exact hfit
    have h := fuzzyCompare_distance_iff hmap
    rw [List.map_eq_nil_iff, List.map_eq_nil_iff, List.length_map] at h
    simp only [fuzzyCompare_map f lhs rhs]
    exact h
  · have h := fuzzyCompare_distance_iff (a := F.foldText lhs) (b := F.foldText rhs) ⟨hl, hr⟩
    rw [Folding.foldText_eq_nil, Folding.foldText_eq_nil] at h
    simp only [hcase]
    exact h

/-- Folding of characters that fold to themselves. -/
def plainFolding : Folding := ⟨fun ch => [ch], by simp, by simp⟩

theorem fuzzyExact_iff_letter : FuzzyExact (fuzzyCompare id) (List.map id) [0x61] [] ↔ [0x61] = [] ∨ ([] : List ℕ) = [] :=
  (fuzzyExact_iff id plainFolding [0x61] [] ⟨by decide, by decide⟩ ⟨by decide, by decide⟩).1

/-- The result for `a` and `b` depends on what the last cell of the first row held: here it is zero. -/
theorem fuzzyExact_fails : ¬FuzzyExact (fuzzyCompare id) (List.map id) [0x61] [0x62] ∧
    fuzzyCompare id [0x61] [0x62] [some 0, some (2 ^ 64 - 1)] [some 0, some 0] = some 0 := by
  refine ⟨fun h => ?_, rfl⟩
  obtain ⟨r, hr⟩ := h.written
  cases hr

end Deemon.Unicode
