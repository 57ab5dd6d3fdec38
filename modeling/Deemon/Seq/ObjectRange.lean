import Deemon.Seq.IntRange

/-!
# Object ranges

A range whose start, end and step are no machine integers keeps them as objects. Here they are integers of any size; the
operations are those of `int`, whose division rounds down. The items are those that iteration yields, and the size, the
items by index, membership and slices are computed from the start, the end and the step.
-/

namespace Deemon.Seq

open Deemon.Run Deemon.Progression Deemon.Collections

/-! ### The code -/

/-- `RangeIterator`. -/
structure RangeIterator where
  riIndex : ℤ
  riEnd : ℤ
  riStep : Option ℤ
  riRev : Bool
  riFirst : Bool
  deriving DecidableEq

/-- `range_iter`. -/
def Range.iter (self : Range) : RangeIterator := ⟨self.rStart, self.rEnd, self.rStep, self.rRev, true⟩

/-- The index that `ri_next` goes to. -/
def RangeIterator.newIndex (self : RangeIterator) : ℤ :=
  if self.riFirst then self.riIndex
  else
    match self.riStep with
    | some step => self.riIndex + step
    | none => self.riIndex + 1

/-- `ri_next`; `none` is `ITER_DONE`. -/
def RangeIterator.next (self : RangeIterator) : RangeIterator × Option ℤ :=
  if (if self.riRev then self.riEnd < self.newIndex else self.newIndex < self.riEnd) then
    ({ self with
        riIndex := self.newIndex
        riFirst := false }, some self.newIndex)
  else (self, none)

/-- The results of `n` calls of `ri_next`. -/
def RangeIterator.nexts : ℕ → RangeIterator → List (Option ℤ)
  | 0, _ => []
  | n + 1, self => self.next.2 :: nexts n self.next.1

/-- `range_contains`. -/
def Range.contains (self : Range) (index : ℤ) : Bool :=
  if self.rRev then
    if self.rStart < index then false
    else if ¬ self.rEnd < index then false
    else ((self.rStart - index).fmod (-self.rStep.getD 1)) = 0
  else
    if ¬ self.rStart ≤ index then false
    else if self.rEnd ≤ index then false
    else
      match self.rStep with
      | some step => (index - self.rStart).fmod step = 0
      | none => true

/-- `range_bool`. -/
def Range.bool (self : Range) : Bool := if self.rRev then self.rEnd < self.rStart else self.rStart < self.rEnd

/-- `range_size`. -/
def Range.size (self : Range) : ℤ :=
  let result :=
    match self.rStep with
    | some step => (self.rEnd - self.rStart + step + if self.rRev then 1 else -1).fdiv step
    | none => self.rEnd - self.rStart
  if result < 0 then 0 else result

/-- A number of steps. -/
def Range.times (self : Range) (n : ℤ) : ℤ :=
  match self.rStep with
  | some step => step * n
  | none => n

/-- `range_getitem`. -/
def Range.getitem (self : Range) (index : ℤ) : Except RangeError ℤ :=
  let result := self.rStart + self.times index
  if (if self.rRev then result ≤ self.rEnd else self.rEnd ≤ result) then .error (.indexOutOfBoundsObj index)
  else .ok result

/-- `range_getrange`. -/
def Range.getrange (self : Range) (start stop : Option ℤ) : RangeObject :=
  let pack := fun newStart newEnd => RangeObject.range { self with
    rStart := newStart
    rEnd := newEnd }
  match start with
  | none =>
    match stop with
    | none => .range self
    | some stop =>
      if stop < 0 then pack self.rStart (self.rEnd + self.times stop)
      -- the comparison is the wrong way around
      else if stop ≤ self.size then .range self
      else pack self.rStart (self.rStart + self.times stop)
  | some start =>
    let newStart := if start < 0 then self.size + start else start
    let reuseOldEnd :=
      if self.size ≤ newStart then RangeObject.empty else pack (self.rStart + self.times newStart) self.rEnd
    match stop with
    | none => reuseOldEnd
    | some stop =>
      if 0 ≤ stop ∧ self.size ≤ stop then reuseOldEnd
      else
        let newEnd := if stop < 0 then self.size + stop else stop
        if newEnd ≤ newStart then .empty
        else pack (self.rStart + self.times newStart) (self.rEnd - self.times (self.size - newEnd))

/-- `intrange_getrange`; `none` is the integer 0 as a start. -/
def IntRange.getrange (self : IntRange) (start stop : Option ℤ) : Option (Except RangeError RangeObject) :=
  if ¬ IsSsize (start.getD 0) then some (.error .integerOverflow)
  else
    match stop with
    | none => (self.getrangeIndexN (start.getD 0)).map .ok
    | some stop =>
      if ¬ IsSsize stop then some (.error .integerOverflow) else (self.getrangeIndex (start.getD 0) stop).map .ok

/-! ### The sequence that is meant -/

/-- The step, which is 1 when there is none. -/
def Range.stepValue (self : Range) : ℤ := self.rStep.getD 1

/-- A range as `DeeRange_New` makes it. -/
structure Range.WellFormed (r : Range) : Prop where
  step_ne : r.stepValue ≠ 0
  rev : r.rRev = decide (r.stepValue < 0)

/-- The numbers of a range. -/
def Range.items (self : Range) : List ℤ := Progression.items self.rStart self.rEnd self.stepValue

/-- A sequence whose iteration yields a list. -/
def RangeObject.Iterates : RangeObject → List ℤ → Prop
  | .empty, xs => xs = []
  | .repeatForever _, _ => False
  | .intRange r, xs => ∀ n, r.iter.nexts n = (List.range n).map fun k => xs[k]?
  | .range r, xs => ∀ n, r.iter.nexts n = (List.range n).map fun k => xs[k]?

/-- The item at an index, which is not negative. -/
def itemAt (xs : List ℤ) (i : ℤ) : Option ℤ := if i < 0 then none else xs[i.toNat]?

/-- The position that an index of a slice stands for. -/
def position (size : ℕ) (i : ℤ) : ℕ := (if i < 0 then size + i else i).toNat

/-- The items from a start to an end, which may be missing. -/
def sliceOf (xs : List ℤ) (start stop : Option ℤ) : List ℤ :=
  (xs.take (stop.elim xs.length (position xs.length))).drop (start.elim 0 (position xs.length))

/-- An index of a slice that does not lie before the first item. -/
def Lands (size : ℕ) (i : Option ℤ) : Prop := ∀ z ∈ i, 0 ≤ size + z

/-- All operations agree with the items that iteration yields, and a slice is that of an integer range. -/
structure Range.Agrees (r : Range) (x i : ℤ) (start stop : Option ℤ) : Prop where
  next : ∀ n, r.iter.nexts n = (List.range n).map fun k => r.items[k]?
  size : r.size = r.items.length
  bool : r.bool = decide (0 < r.items.length)
  contains : r.contains x = decide (x ∈ r.items)
  getitem : r.getitem i = (itemAt r.items i).elim (.error (.indexOutOfBoundsObj i)) .ok
  getrange : (r.getrange start stop).Iterates (sliceOf r.items start stop)
  intRange : IsSsize r.rStart → IsSsize r.rEnd → Fits r.rStart r.rEnd r.stepValue → (∀ z ∈ start, IsSsize z) →
    (∀ z ∈ stop, IsSsize z) → ∃ slice, IntRange.getrange ⟨r.rStart, r.rEnd, r.stepValue⟩ start stop = some (.ok slice) ∧
      slice.Denotes (sliceOf r.items start stop)

/-! ### Iteration -/

section Iteration

variable {r : Range} {x : ℤ} {xs ys : List ℤ}

theorem before_of_rev {stop step : ℤ} {rev : Bool} (h : rev = decide (step < 0)) :
    (if rev = true then stop < x else x < stop) ↔ Before stop step x := by
  unfold Before
  by_cases hneg : step < 0
  · simp [h, hneg, not_le.mpr hneg]
  · simp [h, hneg, not_lt.mp hneg]

theorem RangeIterator.newIndex_eq (self : RangeIterator) :
    self.newIndex = if self.riFirst then self.riIndex else self.riIndex + self.riStep.getD 1 := by
  unfold RangeIterator.newIndex
  cases self.riStep <;> rfl

/-- An iterator yields the numbers from the index that it goes to. -/
theorem RangeIterator.nexts_eq : ∀ (n : ℕ) (self : RangeIterator), self.riStep.getD 1 ≠ 0 →
    self.riRev = decide (self.riStep.getD 1 < 0) →
      self.nexts n = (List.range n).map fun k => (items self.newIndex self.riEnd (self.riStep.getD 1))[k]? := by
  intro n
  induction n with
  | zero => intro self _ _; rfl
  | succ n ih =>
    intro self hstep hrev
    rw [RangeIterator.nexts, RangeIterator.next, List.range_succ_eq_map, List.map_cons, List.map_map]
    by_cases hbefore : Before self.riEnd (self.riStep.getD 1) self.newIndex
    · rw [if_pos ((before_of_rev hrev).mpr hbefore), items_eq_cons hstep hbefore]
      dsimp only
      rw [ih ⟨self.newIndex, self.riEnd, self.riStep, self.riRev, false⟩ hstep hrev, List.getElem?_cons_zero]
      congr 1
      rw [RangeIterator.newIndex_eq]
      rfl
    · rw [if_neg fun h => hbefore ((before_of_rev hrev).mp h)]
      dsimp only
      rw [ih _ hstep hrev, items_eq_nil hstep hbefore]
      rfl

theorem Range.nexts_iter (h : r.WellFormed) (n : ℕ) : r.iter.nexts n = (List.range n).map fun k => r.items[k]? :=
  RangeIterator.nexts_eq n r.iter h.step_ne h.rev

/-- A list is known from what iteration yields. -/
theorem eq_of_nexts (h : ∀ n, (List.range n).map (fun k => xs[k]?) = (List.range n).map fun k => ys[k]?) : xs = ys := by
  refine List.ext_getElem? fun i => ?_
  exact List.map_inj_left.mp (h (i + 1)) i (List.mem_range.mpr (Nat.lt_succ_self i))

theorem Range.iterates_iff (h : r.WellFormed) : (RangeObject.range r).Iterates xs ↔ r.items = xs := by
  constructor
  · intro hiter
    refine eq_of_nexts fun n => ?_
    rw [← Range.nexts_iter h, hiter n]
  · rintro rfl
    exact Range.nexts_iter h

end Iteration

/-! ### Size, items by index and membership -/

section Size

variable {r : Range} {x i : ℤ}

/-- The size is the number of items. -/
theorem Range.size_eq (h : r.WellFormed) : r.size = r.items.length := by
  have hstep := h.step_ne
  have hrev := h.rev
  unfold Range.stepValue at hstep hrev
  rw [Range.items, length_items]
  unfold Range.size count Range.stepValue
  cases hr : r.rStep with
  | none =>
    rw [Option.getD_none, if_pos (show (0 : ℤ) ≤ 1 by norm_num), Int.ediv_one]
    show (if r.rEnd - r.rStart < 0 then 0 else r.rEnd - r.rStart) = _
    split_ifs <;> omega
  | some step =>
    rw [hr, Option.getD_some] at hstep hrev
    rw [Option.getD_some, hrev]
    dsimp only
    rcases lt_or_gt_of_ne hstep with hneg | hpos
    · rw [decide_eq_true hneg, if_pos rfl, if_neg (show ¬ 0 ≤ step by omega), ← Int.neg_fdiv_neg, Int.fdiv_eq_ediv_of_nonneg _ (by omega)]
      have hnum : -(r.rEnd - r.rStart + step + 1) = r.rStart - r.rEnd - step - 1 := by ring
      rw [hnum]
      split_ifs <;> omega
    · rw [decide_eq_false (by omega), if_neg Bool.false_ne_true, if_pos hpos.le, Int.fdiv_eq_ediv_of_nonneg _ hpos.le,
        ← sub_eq_add_neg]
      split_ifs <;> omega

theorem Range.times_eq (r : Range) (n : ℤ) : r.times n = n * r.stepValue := by
  unfold Range.times Range.stepValue
  cases r.rStep with
  | none => exact (mul_one n).symm
  | some step => exact mul_comm step n

theorem Range.bool_eq (h : r.WellFormed) : r.bool = decide (0 < r.items.length) := by
  rw [Bool.eq_iff_iff, decide_eq_true_iff, Range.items, length_items, count_pos_iff h.step_ne, ← before_of_rev h.rev,
    Range.bool]
  split_ifs <;> exact decide_eq_true_iff

theorem Range.getitem_eq (h : r.WellFormed) (i : ℤ) :
    r.getitem i = if Before r.rEnd r.stepValue (r.rStart + i * r.stepValue) then .ok (r.rStart + i * r.stepValue)
      else .error (.indexOutOfBoundsObj i) := by
  have hbefore := @before_of_rev (r.rStart + i * r.stepValue) r.rEnd _ _ h.rev
  unfold Range.getitem
  rw [Range.times_eq]
  dsimp only
  by_cases hb : Before r.rEnd r.stepValue (r.rStart + i * r.stepValue)
  · have hin := hbefore.mpr hb
    rw [if_pos hb, if_neg]
    split_ifs at hin ⊢ <;> omega
  · rw [if_neg hb, if_pos]
    rw [← hbefore] at hb
    split_ifs at hb ⊢ <;> omega

/-- An item by its index is right unless a negative index leads to a number before the end. -/
theorem Range.getitem_iff (h : r.WellFormed) :
    r.getitem i = (itemAt r.items i).elim (.error (.indexOutOfBoundsObj i)) .ok ↔
      0 ≤ i ∨ ¬ Before r.rEnd r.stepValue (r.rStart + i * r.stepValue) := by
  rw [Range.getitem_eq h, itemAt]
  by_cases hneg : i < 0
  · rw [if_pos hneg, Option.elim_none]
    split_ifs with hbefore
    · constructor
      · intro heq
        cases heq
      · rintro (h0 | hnot)
        · omega
        · exact absurd hbefore hnot
    · exact ⟨fun _ => .inr hbefore, fun _ => rfl⟩
  · obtain ⟨k, rfl⟩ := Int.eq_ofNat_of_zero_le (not_lt.mp hneg)
    refine ⟨fun _ => .inl (not_lt.mp hneg), fun _ => ?_⟩
    rw [if_neg hneg, Int.toNat_natCast, Range.items]
    by_cases hk : k < count r.rStart r.rEnd r.stepValue
    · rw [if_pos ((lt_count_iff h.step_ne).mp hk), getElem?_items hk, Option.elim_some]
    · rw [if_neg fun hb => hk ((lt_count_iff h.step_ne).mpr hb),
        List.getElem?_eq_none (by rw [length_items]; omega), Option.elim_none]

theorem Range.contains_eq (h : r.WellFormed) (x : ℤ) : r.contains x = decide (x ∈ r.items) := by
  have hstep := h.step_ne
  have hrev := h.rev
  rw [Bool.eq_iff_iff, decide_eq_true_iff, Range.items]
  unfold Range.contains
  rcases lt_or_gt_of_ne hstep with hneg | hpos
  · rw [mem_items_of_neg hneg, if_pos (by rw [hrev, decide_eq_true hneg]), ← Int.fmod_eq_emod_of_nonneg _ (by omega)]
    unfold Range.stepValue
    split_ifs with h1 h2
    · exact iff_of_false id fun hin => absurd hin.1 (not_le.mpr h1)
    · rw [decide_eq_true_iff]
      exact ⟨fun hmod => ⟨not_lt.mp h1, h2, hmod⟩, fun hin => hin.2.2⟩
    · exact iff_of_false id fun hin => h2 hin.2.1
  · rw [mem_items_of_pos hpos, if_neg (by rw [hrev, decide_eq_false (by omega)]; exact Bool.false_ne_true),
      ← Int.fmod_eq_emod_of_nonneg _ hpos.le]
    unfold Range.stepValue
    split_ifs with h1 h2
    · exact iff_of_false id fun hin => absurd hin.2.1 (not_lt.mpr h2)
    · cases r.rStep with
      | none =>
        rw [Option.getD_none, Int.fmod_eq_emod_of_nonneg _ (by norm_num), Int.emod_one]
        exact iff_of_true rfl ⟨h1, not_le.mp h2, rfl⟩
      | some step =>
        rw [Option.getD_some, decide_eq_true_iff]
        exact ⟨fun hmod => ⟨h1, not_le.mp h2, hmod⟩, fun hin => hin.2.2⟩
    · exact iff_of_false id fun hin => h1 hin.1

end Size

/-! ### Slices -/

section Slices

variable {r : Range} {start stop : Option ℤ} {i : ℤ} {n : ℕ}

theorem Range.WellFormed.pack (h : r.WellFormed) (newStart newEnd : ℤ) :
    Range.WellFormed { r with
      rStart := newStart
      rEnd := newEnd } :=
  ⟨h.step_ne, h.rev⟩

/-- A range of the same steps has the items from position `first` to position `last`. -/
theorem Range.items_pack (h : r.WellFormed) {first last : ℕ} {newStart newEnd : ℤ} (hlast : last ≤ r.items.length)
    (hstart : newStart = r.rStart + r.times first) (hend : newEnd = r.rEnd - r.times (r.items.length - last : ℕ)) :
    Range.items { r with
      rStart := newStart
      rEnd := newEnd } = (r.items.take last).drop first := by
  rw [Range.times_eq] at hstart hend
  rw [Range.items, length_items] at hlast hend
  rw [hstart, hend]
  exact items_slice h.step_ne hlast

theorem position_of_lands (h : 0 ≤ n + i) : (position n i : ℤ) = if i < 0 then n + i else i := by
  unfold position
  split_ifs <;> omega

theorem sliceOf_nil {xs : List ℤ}
    (h : min (stop.elim xs.length (position xs.length)) xs.length ≤ start.elim 0 (position xs.length)) :
    sliceOf xs start stop = [] := by
  rw [sliceOf, List.drop_eq_nil_iff, List.length_take]
  exact h

theorem sliceOf_of_le {xs : List ℤ} {z : ℤ} (h : xs.length ≤ position xs.length z) :
    sliceOf xs start (some z) = sliceOf xs start none := by
  unfold sliceOf
  rw [Option.elim_some, Option.elim_none, List.take_of_length_le h, List.take_length]

/-- A slice without an end. -/
theorem Range.getrange_some_none (h : r.WellFormed) {first : ℤ} (hfirst : 0 ≤ r.items.length + first) :
    (r.getrange (some first) none).Iterates (sliceOf r.items (some first) none) := by
  have hpos := position_of_lands hfirst
  unfold Range.getrange
  dsimp only
  rw [Range.size_eq h, ← hpos]
  split_ifs with hle
  · exact sliceOf_nil (by rw [Option.elim_none, Option.elim_some, min_self]; omega)
  · rw [Range.iterates_iff (h.pack _ _)]
    refine Range.items_pack h le_rfl rfl ?_
    rw [Option.elim_none, Nat.sub_self, Range.times_eq]
    ring

/-- A slice with a start and an end. -/
theorem Range.getrange_some_some (h : r.WellFormed) {first last : ℤ} (hfirst : 0 ≤ r.items.length + first)
    (hlast : 0 ≤ r.items.length + last) :
    (r.getrange (some first) (some last)).Iterates (sliceOf r.items (some first) (some last)) := by
  have hpos := position_of_lands hfirst
  have hpos' := position_of_lands hlast
  by_cases hreuse : 0 ≤ last ∧ (r.items.length : ℤ) ≤ last
  · have hnone := Range.getrange_some_none h hfirst
    have hsame : r.getrange (some first) (some last) = r.getrange (some first) none := by
      unfold Range.getrange
      dsimp only
      rw [Range.size_eq h, if_pos hreuse]
    rw [if_neg (by omega)] at hpos'
    rwa [hsame, sliceOf_of_le (by omega)]
  · unfold Range.getrange
    dsimp only
    rw [Range.size_eq h, if_neg hreuse, ← hpos, ← hpos']
    have hle : position r.items.length last ≤ r.items.length := by
      split_ifs at hpos' <;> omega
    split_ifs with hempty
    · exact sliceOf_nil (by rw [Option.elim_some, Option.elim_some]; omega)
    · rw [Range.iterates_iff (h.pack _ _)]
      refine Range.items_pack h hle rfl ?_
      rw [Option.elim_some, Nat.cast_sub hle]

/-- A slice without a start, with an end that counts from the end of the range. -/
theorem Range.getrange_none_neg (h : r.WellFormed) {last : ℤ} (hneg : last < 0) (hlast : 0 ≤ r.items.length + last) :
    (r.getrange none (some last)).Iterates (sliceOf r.items none (some last)) := by
  have hpos := position_of_lands hlast
  rw [if_pos hneg] at hpos
  unfold Range.getrange
  dsimp only
  rw [if_pos hneg, Range.iterates_iff (h.pack _ _)]
  refine Range.items_pack h (by rw [Option.elim_some]; omega) ?_ ?_
  · rw [Option.elim_none, Range.times_eq, Nat.cast_zero, zero_mul, add_zero]
  · rw [Option.elim_some, Nat.cast_sub (by omega), hpos, Range.times_eq, Range.times_eq]
    ring

/-- A slice without a start, with an end that counts from the start of the range, is right for the size only. -/
theorem Range.getrange_none_nonneg (h : r.WellFormed) {last : ℕ} :
    (r.getrange none (some (last : ℤ))).Iterates (sliceOf r.items none (some (last : ℤ))) ↔ last = r.items.length := by
  have hslice : sliceOf r.items none (some (last : ℤ)) = r.items.take last := by
    rw [sliceOf, Option.elim_none, Option.elim_some, List.drop_zero, position, if_neg (by omega), Int.toNat_natCast]
  unfold Range.getrange
  dsimp only
  rw [hslice, if_neg (show ¬ (last : ℤ) < 0 by omega), Range.size_eq h]
  split_ifs with hle
  · rw [Range.iterates_iff h]
    constructor
    · intro hsame
      have hlength := congrArg List.length hsame
      rw [List.length_take] at hlength
      omega
    · rintro rfl
      exact List.take_length.symm
  · rw [Range.iterates_iff (h.pack _ _), List.take_of_length_le (by omega)]
    constructor
    · intro hsame
      have hlength := congrArg List.length hsame
      rw [Range.times_eq, Range.items, length_items] at hlength
      exact (count_steps h.step_ne).symm.trans hlength
    · intro heq
      omega

/-- A slice is right unless it has no start, and an end that is not negative and differs from the size. -/
theorem Range.getrange_iff (h : r.WellFormed) (hstart : Lands r.items.length start) (hstop : Lands r.items.length stop) :
    (r.getrange start stop).Iterates (sliceOf r.items start stop) ↔
      (start = none → ∀ z ∈ stop, 0 ≤ z → z = r.items.length) := by
  cases start with
  | some first =>
    refine iff_of_true ?_ fun heq => nomatch heq
    cases stop with
    | none => exact Range.getrange_some_none h (hstart first rfl)
    | some last => exact Range.getrange_some_some h (hstart first rfl) (hstop last rfl)
  | none =>
    cases stop with
    | none =>
      refine iff_of_true ?_ fun _ z hz => nomatch hz
      show (RangeObject.range r).Iterates _
      rw [Range.iterates_iff h, sliceOf, Option.elim_none, Option.elim_none, List.take_length, List.drop_zero]
    | some last =>
      have hforall : (none = (none : Option ℤ) → ∀ z ∈ some last, 0 ≤ z → z = (r.items.length : ℤ)) ↔
          (0 ≤ last → last = r.items.length) :=
        ⟨fun hall => hall rfl last rfl, fun hlast _ z hz => by rwa [← Option.some.inj hz]⟩
      rw [hforall]
      rcases lt_or_ge last 0 with hneg | hnonneg
      · exact iff_of_true (Range.getrange_none_neg h hneg (hstop last rfl)) fun hpos => absurd hneg (not_lt.mpr hpos)
      · obtain ⟨last, rfl⟩ := Int.eq_ofNat_of_zero_le hnonneg
        rw [Range.getrange_none_nonneg h, ← Nat.cast_inj (R := ℤ)]
        exact ⟨fun heq _ => heq, fun himp => himp hnonneg⟩

end Slices

/-! ### Slices of integer ranges -/

section IntSlices

variable {a b : ℤ} {start stop step : ℤ} {first last : Option ℤ} {xs : List ℤ}

theorem Fits.count_lt (h : Fits start stop step) : count start stop step < 2 ^ 63 := by
  have hle := @count_le start stop step h.step_ne
  have hlo := h.distance.1
  have hhi := h.distance.2
  have hlo' := h.distance_step.1
  by_contra hlarge
  have hbefore := (count_pos_iff h.step_ne).mp (by omega : 0 < count start stop step)
  have hne := h.step_ne
  unfold Before at hbefore
  split_ifs at hbefore <;> omega

theorem drop_take_congr {s e e' : ℕ} (h : max s (min e xs.length) = max s (min e' xs.length)) :
    (xs.take e).drop s = (xs.take e').drop s := by
  rw [List.drop_take, List.drop_take, List.take_eq_take_iff, List.length_drop]
  omega

/-- The clamped positions give the slice from one index to the other. -/
theorem slice_clamp (ha : IsSsize a) (hb : IsSsize b) (hn : xs.length < 2 ^ 63) (hpa : 0 ≤ xs.length + a)
    (hpb : 0 ≤ xs.length + b) :
    (xs.take (seqRangeClamp a b xs.length).2).drop (seqRangeClamp a b xs.length).1 = sliceOf xs (some a) (some b) := by
  have hposa := position_of_lands hpa
  have hposb := position_of_lands hpb
  have hsa : (toSize a : ℤ) = if a < 0 then a + 2 ^ 64 else a := by
    split_ifs with hneg
    · exact toSize_of_neg hneg ha.1
    · exact toSize_of_nonneg (not_lt.mp hneg) ha.2
  have hsb : (toSize b : ℤ) = if b < 0 then b + 2 ^ 64 else b := by
    split_ifs with hneg
    · exact toSize_of_neg hneg hb.1
    · exact toSize_of_nonneg (not_lt.mp hneg) hb.2
  obtain ⟨hla, hua⟩ := ha
  obtain ⟨hlb, hub⟩ := hb
  have hstart : clampStart (toSize a) xs.length =
      if xs.length ≤ position xs.length a then none else some (position xs.length a) := by
    unfold clampStart fixNegative
    dsimp only
    split_ifs at * <;> first | omega | rfl | (congr 1; omega)
  have hstop : clampEnd (toSize b) xs.length = some (min (position xs.length b) xs.length) := by
    unfold clampEnd fixNegative
    dsimp only
    split_ifs at * <;> first | omega | (congr 1; omega)
  unfold seqRangeClamp deeSeqRangeClamp
  split_ifs with hin
  · have heqa : toSize a = position xs.length a := by split_ifs at * <;> omega
    have heqb : toSize b = position xs.length b := by split_ifs at * <;> omega
    rw [heqa, heqb]
    rfl
  · unfold deeSeqRangeDoClamp
    rw [hstart, hstop]
    by_cases hout : xs.length ≤ position xs.length a
    · rw [if_pos hout]
      exact (List.drop_take_self).trans (sliceOf_nil ((min_le_right _ _).trans hout)).symm
    · rw [if_neg hout]
      refine drop_take_congr ?_
      rw [Option.elim_some]
      dsimp only
      generalize position xs.length a = s
      generalize position xs.length b = e
      clear * -
      split_ifs <;> omega

theorem slice_clampN (ha : IsSsize a) (hn : xs.length < 2 ^ 63) (hpa : 0 ≤ xs.length + a) :
    xs.drop (seqRangeClampN a xs.length) = sliceOf xs (some a) none := by
  have hclamp := seqRangeClampN_eq a hn
  have hslice := slice_clamp (b := 2 ^ 63 - 1) ha ⟨by norm_num, by norm_num⟩ hn hpa (by omega)
  rw [← hclamp, List.take_length, sliceOf_of_le] at hslice
  · exact hslice
  · have hpos := position_of_lands (n := xs.length) (i := 2 ^ 63 - 1) (by omega)
    omega

/-- A slice of an integer range has the same items. -/
theorem IntRange.getrange_denotes (hstart : IsSsize start) (hstop : IsSsize stop) (h : Fits start stop step)
    (hfirst : ∀ z ∈ first, IsSsize z) (hlast : ∀ z ∈ last, IsSsize z)
    (hlands : Lands (Progression.items start stop step).length first)
    (hlands' : Lands (Progression.items start stop step).length last) :
    ∃ slice, IntRange.getrange ⟨start, stop, step⟩ first last = some (.ok slice) ∧
      slice.Denotes (sliceOf (Progression.items start stop step) first last) := by
  have hn : (Progression.items start stop step).length < 2 ^ 63 := by
    rw [length_items]
    exact h.count_lt
  have hzero : sliceOf (Progression.items start stop step) first last =
      sliceOf (Progression.items start stop step) (some (first.getD 0)) last := by
    cases first <;> rfl
  have hfit : IsSsize (first.getD 0) := by
    cases first with
    | none => exact ⟨by norm_num, by norm_num⟩
    | some z => exact hfirst z rfl
  have hpos : 0 ≤ ((Progression.items start stop step).length : ℤ) + first.getD 0 := by
    cases first with
    | none => rw [Option.getD_none]; omega
    | some z => exact hlands z rfl
  unfold IntRange.getrange
  rw [hzero, if_neg (not_not.mpr hfit)]
  cases last with
  | none =>
    obtain ⟨slice, heq, hdenotes⟩ := IntRange.getrangeIndexN_denotes hstart hstop h (first.getD 0)
    rw [slice_clampN hfit hn hpos] at hdenotes
    exact ⟨slice, by rw [heq]; rfl, hdenotes⟩
  | some z =>
    obtain ⟨slice, heq, hdenotes⟩ := IntRange.getrangeIndex_denotes hstart hstop h (first.getD 0) z
    rw [slice_clamp hfit (hlast z rfl) hn hpos (hlands' z rfl)] at hdenotes
    dsimp only
    rw [if_neg (not_not.mpr (hlast z rfl))]
    exact ⟨slice, by rw [heq]; rfl, hdenotes⟩

end IntSlices

/-! ### When all operations agree -/

/-- The operations of an object range agree with its items if and only if a slice without a start has no end, an end
that counts from the end of the range or the size as its end, and no negative index leads to a number before the end. -/
theorem range_iff {r : Range} {x i : ℤ} {start stop : Option ℤ} (h : r.WellFormed)
    (hstart : Lands r.items.length start) (hstop : Lands r.items.length stop) :
    r.Agrees x i start stop ↔
      (start = none → ∀ z ∈ stop, 0 ≤ z → z = r.items.length) ∧
        (0 ≤ i ∨ ¬ Before r.rEnd r.stepValue (r.rStart + i * r.stepValue)) := by
  constructor
  · intro hagrees
    exact ⟨(Range.getrange_iff h hstart hstop).mp hagrees.getrange, (Range.getitem_iff h).mp hagrees.getitem⟩
  · rintro ⟨hslice, hindex⟩
    exact
      { next := Range.nexts_iter h
        size := Range.size_eq h
        bool := Range.bool_eq h
        contains := Range.contains_eq h x
        getitem := (Range.getitem_iff h).mpr hindex
        getrange := (Range.getrange_iff h hstart hstop).mpr hslice
        intRange := fun hlo hhi hfits hfirst hlast =>
          IntRange.getrange_denotes hlo hhi hfits hfirst hlast hstart hstop }

/-- The second and the third of four numbers that are no machine integers. -/
theorem range_iff_even : Range.Agrees ⟨2 ^ 64, 2 ^ 64 + 7, some 2, false⟩ (2 ^ 64 + 4) 1 (some 1) (some (-1)) :=
  (range_iff ⟨(by decide), (by decide)⟩ (by rintro z ⟨⟩; decide) (by rintro z ⟨⟩; decide)).mpr
    ⟨(by intro h; cases h), Or.inl (by decide)⟩

/-- The first three of ten numbers come out as all ten. -/
theorem range_first_three : ¬ Range.Agrees ⟨2 ^ 64, 2 ^ 64 + 10, none, false⟩ (2 ^ 64) 0 none (some 3) := by
  intro h
  have hnext := h.getrange 4
  revert hnext
  decide

end Deemon.Seq
