import Deemon.Seq.Repeat

/-!
# Segments of sequences

`Segments` cuts a sequence into tuples of a given length. Iteration fills one tuple after the other; the size and the start
of a segment are computed with the arithmetic of sizes.
-/

namespace Deemon.Seq

open Deemon.Run Deemon.Iteration

variable {α : Type}

/-! ### The code -/

/-- `Segments`: a sequence and the length of a segment. -/
structure Segments (α : Type) where
  sSeq : List α
  sLen : ℕ
  size_lt : sSeq.length < 2 ^ 64 - 1
  len_pos : 0 < sLen
  len_lt : sLen < 2 ^ 64

/-- `seg_init`, which raises a `ValueError` for segments of length zero. -/
def Segments.init (seq : List α) (len : ℕ) (hseq : seq.length < 2 ^ 64 - 1) (hlen : len < 2 ^ 64) : Option (Segments α) :=
  if h : len = 0 then none else some ⟨seq, len, hseq, Nat.pos_of_ne_zero h, hlen⟩

/-- `segiter_next`; the state is what the iterator of the sequence has left. -/
def segiterNext (len : ℕ) : List α → Option (Option (List α) × List α)
  | [] => some (none, [])
  | elem :: rest => loop (fun (i, result, rest) =>
      if i < len then
        match rest with
        -- the last segment is truncated
        | [] => some (.done (some result, []))
        | elem :: rest => some (.next (i + 1, result ++ [elem], rest))
      else some (.done (some result, rest))) (rest.length + 1) (1, [elem], rest)

/-- `seg_size`. -/
def Segments.size (size : ℕ → Option ℕ) (self : Segments α) : Option ℕ := do
  some ((← size (self.sSeq.length + (self.sLen - 1))) / self.sLen)

/-- The loop of `seg_getitem_index`, which an `IndexError` truncates. -/
def Segments.fill (size : ℕ → Option ℕ) (self : Segments α) (start len : ℕ) : Option (List α) :=
  loop (fun (i, result) =>
    if i < len then do
      match getItemIndex self.sSeq (← size (start + i)) with
      | .ok temp => some (.next (i + 1, result ++ [temp]))
      | .error _ => some (.done result)
    else some (.done result)) (len + 1) (0, [])

/-- `seg_getitem_index`. -/
def Segments.getitemIndex (size : ℕ → Option ℕ) (self : Segments α) (index : ℕ) : Option (Except IndexError (List α)) := do
  let start ← size (index * self.sLen)
  let len := self.sSeq.length
  if len < (← size (start + self.sLen)) then
    if len ≤ start then some (.error (.outOfBounds index ((← size (len + (self.sLen - 1))) / self.sLen)))
    else some (.ok (← self.fill size start (len - start)))
  else some (.ok (← self.fill size start self.sLen))

/-! ### What it is to agree -/

/-- How many segments there are: the length divided by that of a segment, rounded up. -/
def Segments.count (self : Segments α) : ℕ := (self.sSeq.length + (self.sLen - 1)) / self.sLen

/-- Iteration, access to an index and size of the segments agree, and no product or sum that is used has wrapped. -/
structure Segments.Agrees (segs : Segments α) (index : ℕ) (items : List (List α)) : Prop where
  iter : Enumerates (segiterNext segs.sLen) segs.sSeq items
  flatten : items.flatten = segs.sSeq
  count : items.length = segs.count
  getitemIndex : Gives (segs.getitemIndex wrapped index) items[index]?
  size : segs.size wrapped = some items.length
  unwrapped : segs.getitemIndex (fits 64) index = segs.getitemIndex wrapped index ∧ segs.size (fits 64) = segs.size wrapped

/-! ### Iteration -/

section Iteration

variable {items : List α} {i n k : ℕ}

/-- The segment number `i`. -/
def segment (items : List α) (k i : ℕ) : List α := (items.drop (i * k)).take k

/-- The first `n` segments. -/
def segments (items : List α) (k n : ℕ) : List (List α) := (List.range n).map (segment items k)

theorem getElem?_segments (items : List α) (k n i : ℕ) :
    (segments items k n)[i]? = if i < n then some (segment items k i) else none := by
  rw [segments, List.getElem?_map]
  split
  · rw [List.getElem?_range (by assumption), Option.map_some]
  · rw [List.getElem?_eq_none (by rw [List.length_range]; omega), Option.map_none]

theorem flatten_segments (items : List α) (k n : ℕ) : (segments items k n).flatten = items.take (n * k) := by
  induction n with
  | zero => simp [segments]
  | succ n ih =>
    rw [segments, List.range_succ, List.map_append, List.flatten_append, ← segments, ih, Nat.succ_mul, List.take_add]
    simp [segment]

/-- The index of a segment is one whose start lies in the sequence. -/
theorem Segments.lt_count_iff (self : Segments α) {index : ℕ} : index < self.count ↔ index * self.sLen < self.sSeq.length := by
  have hpos := self.len_pos
  rw [Segments.count, Nat.lt_iff_add_one_le, Nat.le_div_iff_mul_le hpos, Nat.succ_mul]
  omega

theorem segiterNext_ends (hk : 0 < k) (items : List α) :
    Ends (segiterNext k items) fun r => r.1 = (if items = [] then none else some (items.take k)) ∧ r.2 = items.drop k := by
  cases items with
  | nil => exact Ends.pure ⟨rfl, by simp⟩
  | cons elem rest =>
    rw [segiterNext, if_neg (List.cons_ne_nil _ _)]
    refine loop_ends (fun s => s.1 ≤ k ∧ s.2.1 = (elem :: rest).take s.1 ∧ s.2.2 = (elem :: rest).drop s.1)
      (fun s => s.2.2.length) ⟨hk, by simp, by simp⟩ (Nat.lt_succ_self _) ?_
    rintro ⟨i, result, left⟩ ⟨hi, hresult, hleft⟩
    dsimp only at hi hresult hleft ⊢
    by_cases hmore : i < k
    · rw [if_pos hmore]
      have hhead : left.head? = (elem :: rest)[i]? := by rw [hleft, List.head?_drop]
      cases left with
      | nil =>
        have hlen := List.drop_eq_nil_iff.mp hleft.symm
        refine Ends.pure ⟨?_, ?_⟩
        · dsimp only
          rw [hresult, List.take_of_length_le hlen, List.take_of_length_le (by omega)]
        · exact (List.drop_eq_nil_of_le (by omega)).symm
      | cons e left =>
        refine Ends.pure ⟨⟨hmore, ?_, ?_⟩, Nat.lt_succ_self _⟩
        · dsimp only
          rw [hresult, List.take_add_one, ← hhead, List.head?_cons, Option.toList_some]
        · dsimp only
          rw [← List.tail_drop, ← hleft, List.tail_cons]
    · obtain rfl : i = k := by omega
      rw [if_neg hmore]
      exact Ends.pure ⟨congrArg some hresult, hleft⟩

theorem Segments.iter_enumerates (self : Segments α) :
    Enumerates (segiterNext self.sLen) self.sSeq (segments self.sSeq self.sLen self.count) := by
  refine enumerates_of_inv (fun i rest => rest = self.sSeq.drop (i * self.sLen)) (by simp) ?_
  rintro i _ rfl
  refine (segiterNext_ends self.len_pos _).mono ?_
  rintro ⟨item, rest⟩ ⟨hitem, hrest⟩
  dsimp only at hitem hrest ⊢
  refine ⟨?_, ?_⟩
  · rw [hitem, getElem?_segments, segment]
    by_cases hin : i < self.count
    · have hlt := self.lt_count_iff.mp hin
      rw [if_pos hin, if_neg fun h => absurd (List.drop_eq_nil_iff.mp h) (by omega)]
    · have hle := mt self.lt_count_iff.mpr hin
      rw [if_neg hin, if_pos (List.drop_eq_nil_of_le (by omega))]
  · rw [hrest, List.drop_drop, Nat.succ_mul]

/-- All segments together are the sequence. -/
theorem Segments.flatten_eq (self : Segments α) : (segments self.sSeq self.sLen self.count).flatten = self.sSeq := by
  have hend := mt self.lt_count_iff.mpr (lt_irrefl self.count)
  rw [flatten_segments, List.take_of_length_le (by omega)]

end Iteration

/-! ### Access and size -/

section Access

variable {self : Segments α} {size : ℕ → Option ℕ} {index start len : ℕ}

/-- The loop reads the items from the start, as long as there are any. -/
theorem Segments.fill_eq (hsize : ∀ n < 2 ^ 64, size n = some n) (hstart : start < 2 ^ 64) :
    self.fill size start len = some ((self.sSeq.drop start).take len) := by
  have hlt := self.size_lt
  suffices h : Ends (self.fill size start len) (· = (self.sSeq.drop start).take len) by
    obtain ⟨r, hr, rfl⟩ := h
    exact hr
  refine loop_ends (fun s => s.1 ≤ len ∧ (s.1 = 0 ∨ start + s.1 ≤ self.sSeq.length) ∧ s.2 = (self.sSeq.drop start).take s.1)
    (fun s => len - s.1) ⟨Nat.zero_le _, .inl rfl, by simp⟩ (by omega) ?_
  rintro ⟨i, result⟩ ⟨hi, hread, hresult⟩
  dsimp only at hi hread hresult ⊢
  by_cases hmore : i < len
  · rw [if_pos hmore, hsize _ (by omega), some_bind, getItemIndex]
    cases hitem : self.sSeq[start + i]? with
    | none =>
      have hout := List.getElem?_eq_none_iff.mp hitem
      have hdrop : (self.sSeq.drop start).length ≤ i := by
        rw [List.length_drop]
        omega
      refine Ends.pure ?_
      change result = _
      rw [hresult, List.take_of_length_le hdrop, List.take_of_length_le (by omega)]
    | some item =>
      have hin := (List.getElem?_eq_some_iff.mp hitem).1
      refine Ends.pure ⟨⟨hmore, .inr (by dsimp only; omega), ?_⟩, by dsimp only; omega⟩
      dsimp only
      rw [hresult, List.take_add_one, List.getElem?_drop, hitem, Option.toList_some]
  · obtain rfl : i = len := by omega
    rw [if_neg hmore]
    exact Ends.pure hresult

theorem Segments.getitemIndex_eq (hsize : ∀ n < 2 ^ 64, size n = some n) (hcount : self.sSeq.length + (self.sLen - 1) < 2 ^ 64)
    (hend : index * self.sLen + self.sLen < 2 ^ 64) : self.getitemIndex size index =
      some (if self.sSeq.length < index * self.sLen + self.sLen then
          if self.sSeq.length ≤ index * self.sLen then .error (.outOfBounds index self.count)
          else .ok ((self.sSeq.drop (index * self.sLen)).take (self.sSeq.length - index * self.sLen))
        else .ok ((self.sSeq.drop (index * self.sLen)).take self.sLen)) := by
  rw [Segments.getitemIndex, hsize (index * self.sLen) (by omega), some_bind, hsize _ hend, some_bind]
  split_ifs
  · rw [hsize _ hcount]
    rfl
  · rw [Segments.fill_eq hsize (by omega)]
    rfl
  · rw [Segments.fill_eq hsize (by omega)]
    rfl

/-- What the code answers, with the start and the end of the segment as the machine has them. -/
theorem Segments.getitemIndex_gives (self : Segments α) (index : ℕ) :
    Gives (self.getitemIndex wrapped index)
      (if self.sSeq.length < (index * self.sLen % 2 ^ 64 + self.sLen) % 2 ^ 64 ∧
          self.sSeq.length ≤ index * self.sLen % 2 ^ 64 then none
        else some ((self.sSeq.drop (index * self.sLen % 2 ^ 64)).take self.sLen)) := by
  have hsize : ∀ n < 2 ^ 64, wrapped n = some n := fun n hn => by rw [wrapped, Nat.mod_eq_of_lt hn]
  have hstart : index * self.sLen % 2 ^ 64 < 2 ^ 64 := Nat.mod_lt _ (by decide)
  have hstop := Nat.mod_le (index * self.sLen % 2 ^ 64 + self.sLen) (2 ^ 64)
  rw [Segments.getitemIndex, wrapped, some_bind, wrapped, some_bind]
  generalize index * self.sLen % 2 ^ 64 = start at *
  by_cases hlast : self.sSeq.length < (start + self.sLen) % 2 ^ 64
  · rw [if_pos hlast]
    by_cases hout : self.sSeq.length ≤ start
    · rw [if_pos hout, if_pos ⟨hlast, hout⟩]
      exact ⟨_, rfl, rfl⟩
    · rw [if_neg hout, if_neg fun h => hout h.2, Segments.fill_eq hsize hstart, some_bind]
      refine ⟨_, rfl, ?_⟩
      change some _ = some _
      rw [List.take_of_length_le (by rw [List.length_drop]), List.take_of_length_le (by rw [List.length_drop]; omega)]
  · rw [if_neg hlast, if_neg fun h => hlast h.1, Segments.fill_eq hsize hstart, some_bind]
    exact ⟨_, rfl, rfl⟩

/-- Indexed access is right for the segments there are, and for others where neither the start nor the end as the machine
has them falls into the sequence. -/
theorem Segments.getitemIndex_gives_iff (self : Segments α) (index : ℕ) :
    Gives (self.getitemIndex wrapped index) (segments self.sSeq self.sLen self.count)[index]? ↔
      index * self.sLen < self.sSeq.length ∨ (self.sSeq.length ≤ index * self.sLen % 2 ^ 64 ∧
        self.sSeq.length < (index * self.sLen % 2 ^ 64 + self.sLen) % 2 ^ 64) := by
  obtain ⟨r, hr, hitem⟩ := self.getitemIndex_gives index
  have hgives : ∀ item, Gives (self.getitemIndex wrapped index) item ↔ r.toOption = item := by
    intro item
    rw [hr]
    constructor
    · rintro ⟨e, he, rfl⟩
      cases he
      rfl
    · exact fun h => ⟨r, rfl, h⟩
  have hlt := self.size_lt
  rw [hgives, hitem, getElem?_segments]
  by_cases hin : index * self.sLen < self.sSeq.length
  · rw [if_pos (self.lt_count_iff.mpr hin), Nat.mod_eq_of_lt (show index * self.sLen < 2 ^ 64 by omega),
      if_neg fun h => absurd h.2 (by omega)]
    exact iff_of_true rfl (.inl hin)
  · rw [if_neg (mt self.lt_count_iff.mp hin)]
    split_ifs with hend
    · exact iff_of_true rfl (.inr hend.symm)
    · refine iff_of_false nofun ?_
      rintro (h | h)
      · exact hin h
      · exact hend h.symm

theorem Segments.size_iff (self : Segments α) :
    self.size wrapped = some self.count ↔ self.sSeq.length + (self.sLen - 1) < 2 ^ 64 := by
  have hlt := self.size_lt
  have hlen := self.len_lt
  have hpos := self.len_pos
  rw [Segments.size, wrapped, some_bind, Segments.count, Option.some.injEq]
  constructor
  · intro h
    by_contra hbig
    have hmod : (self.sSeq.length + (self.sLen - 1)) % 2 ^ 64 = self.sSeq.length + (self.sLen - 1) - 2 ^ 64 := by omega
    have hzero : (self.sSeq.length + (self.sLen - 1) - 2 ^ 64) / self.sLen = 0 := Nat.div_eq_of_lt (by omega)
    have hone : 0 < (self.sSeq.length + (self.sLen - 1)) / self.sLen := Nat.div_pos (by omega) hpos
    rw [hmod, hzero] at h
    omega
  · intro hfit
    rw [Nat.mod_eq_of_lt hfit]

/-- No product and no sum wraps just when the end of the segment and the sum of the size fit a machine word. -/
theorem Segments.unwrapped_iff (self : Segments α) (index : ℕ) :
    (self.getitemIndex (fits 64) index = self.getitemIndex wrapped index ∧ self.size (fits 64) = self.size wrapped) ↔
      self.sSeq.length + (self.sLen - 1) < 2 ^ 64 ∧ index * self.sLen + self.sLen < 2 ^ 64 := by
  have hfails : ∀ {n}, ¬ n < 2 ^ 64 → fits 64 n = none := fun h => if_neg h
  have hsize : ∀ n < 2 ^ 64, wrapped n = some n := fun n hn => by rw [wrapped, Nat.mod_eq_of_lt hn]
  constructor
  · rintro ⟨hitem, hcount⟩
    obtain ⟨r, hr, -⟩ := self.getitemIndex_gives index
    refine ⟨?_, ?_⟩
    · by_contra hbig
      rw [Segments.size, hfails hbig] at hcount
      cases hcount
    · by_contra hbig
      rw [hr, Segments.getitemIndex] at hitem
      by_cases hstart : index * self.sLen < 2 ^ 64
      · rw [fits_of_lt hstart, some_bind, hfails hbig] at hitem
        cases hitem
      · rw [hfails hstart] at hitem
        cases hitem
  · rintro ⟨hcount, hend⟩
    refine ⟨?_, ?_⟩
    · rw [Segments.getitemIndex_eq (fun n hn => fits_of_lt hn) hcount hend, Segments.getitemIndex_eq hsize hcount hend]
    · rw [Segments.size, Segments.size, fits_eq_wrapped hcount]

/-- Segments agree with their iteration at an index just when the sum for the size and the end of the segment there fit. -/
theorem Segments.agrees_iff (self : Segments α) (index : ℕ) : (∃ items, self.Agrees index items) ↔
    self.sSeq.length + (self.sLen - 1) < 2 ^ 64 ∧ index * self.sLen + self.sLen < 2 ^ 64 := by
  constructor
  · rintro ⟨items, h⟩
    exact (self.unwrapped_iff index).mp h.unwrapped
  · rintro ⟨hcount, hend⟩
    have hlt := self.size_lt
    have hpos := self.len_pos
    refine ⟨segments self.sSeq self.sLen self.count, self.iter_enumerates, self.flatten_eq, ?_, ?_, ?_,
      (self.unwrapped_iff index).mpr ⟨hcount, hend⟩⟩
    · simp [segments]
    · refine (self.getitemIndex_gives_iff index).mpr ?_
      rw [Nat.mod_eq_of_lt (show index * self.sLen < 2 ^ 64 by omega), Nat.mod_eq_of_lt hend]
      omega
    · rw [segments, List.length_map, List.length_range, self.size_iff]
      exact hcount

end Access

/-! ### Both proxies -/

/-- Repeated sequences and segments agree with their own iteration just when no size wraps: the product of a repeated
sequence is less than `(size_t)-1`, and the sum for the size of the segments and the end of the segment at the index fit a
machine word. Access alone is right for some indices more. -/
theorem proxies_agree_iff (rep : Repeat α) (segs : Segments α) (index : ℕ) (hindex : index < 2 ^ 64) :
    ((∃ items, rep.Agrees items) ↔ rep.rpSeq.length * rep.rpNum < 2 ^ 64 - 1) ∧
    ((∃ items, segs.Agrees index items) ↔
      segs.sSeq.length + (segs.sLen - 1) < 2 ^ 64 ∧ index * segs.sLen + segs.sLen < 2 ^ 64) ∧
    (Gives (rep.getitemIndex wrapped index) (repeated rep.rpSeq rep.rpNum)[index]? ↔
      rep.rpSeq.length * rep.rpNum < 2 ^ 64 ∨ index < rep.rpSeq.length * rep.rpNum % 2 ^ 64) ∧
    (Gives (segs.getitemIndex wrapped index) (segments segs.sSeq segs.sLen segs.count)[index]? ↔
      index * segs.sLen < segs.sSeq.length ∨ (segs.sSeq.length ≤ index * segs.sLen % 2 ^ 64 ∧
        segs.sSeq.length < (index * segs.sLen % 2 ^ 64 + segs.sLen) % 2 ^ 64)) :=
  ⟨rep.agrees_iff, segs.agrees_iff index, rep.getitemIndex_gives_iff hindex, segs.getitemIndex_gives_iff index⟩

theorem proxies_agree_iff_three : (∃ items, (⟨[1, 2, 3], 2, by decide, by decide, by decide⟩ : Repeat ℕ).Agrees items) ↔
    [1, 2, 3].length * 2 < 2 ^ 64 - 1 :=
  (proxies_agree_iff ⟨[1, 2, 3], 2, by decide, by decide, by decide⟩ ⟨[1, 2, 3], 2, by decide, by decide, by decide⟩ 1
    (by decide)).1

/-- Two items repeated `2^63` times have no item at index zero. -/
theorem proxies_agree_fails :
    (⟨[1, 2], 2 ^ 63, by decide, by decide, by decide⟩ : Repeat ℕ).getitemIndex wrapped 0 =
      some (.error (.outOfBounds 0 0)) ∧
    ¬ ∃ items, (⟨[1, 2], 2 ^ 63, by decide, by decide, by decide⟩ : Repeat ℕ).Agrees items := by
  refine ⟨rfl, ?_⟩
  rintro ⟨items, h⟩
  obtain ⟨e, he, hitem⟩ := h.getitemIndex 0 (by decide)
  have hnone : items[0]? = none := by
    cases he
    exact hitem.symm
  have hcount : items.length = 2 * 2 ^ 63 := h.count
  rw [List.getElem?_eq_none_iff] at hnone
  omega

end Deemon.Seq
