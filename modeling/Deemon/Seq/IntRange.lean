import Deemon.Collections.SeqRange
import Deemon.Lib.Progression

/-!
# Integer ranges

An integer range is a start, an end and a step of type `Dee_ssize_t`. Its size, its items, iteration and slices are all
computed from these with machine arithmetic; a signed value that would overflow, or a division by zero, ends the run.
Assertions are left out, as in a release build.
-/

namespace Deemon.Seq

open Deemon.Run Deemon.Progression Deemon.Collections

/-! ### Machine arithmetic -/

/-- A value of type `Dee_ssize_t`. -/
def IsSsize (z : ℤ) : Prop := -2 ^ 63 ≤ z ∧ z < 2 ^ 63

instance {z : ℤ} : Decidable (IsSsize z) := inferInstanceAs (Decidable (_ ∧ _))

/-- A result of signed arithmetic, which must not overflow. -/
def ssize (z : ℤ) : Option ℤ := if IsSsize z then some z else none

/-- `a / b`. -/
def sdiv (a b : ℤ) : Option ℤ := if b = 0 then none else ssize (a.tdiv b)

/-- `a % b`. -/
def srem (a b : ℤ) : Option ℤ := if b = 0 ∨ ¬ IsSsize (a.tdiv b) then none else some (a.tmod b)

/-- The cast of a `size_t` to `Dee_ssize_t`. -/
def ofSize (z : ℤ) : ℤ := Int.bmod z (2 ^ 64)

/-! ### The code -/

/-- `IntRange`. -/
structure IntRange where
  irStart : ℤ
  irEnd : ℤ
  irStep : ℤ
  deriving DecidableEq

/-- `Range`. -/
structure Range where
  rStart : ℤ
  rEnd : ℤ
  rStep : Option ℤ
  rRev : Bool
  deriving DecidableEq

/-- The sequences that ranges are. -/
inductive RangeObject where
  /-- `Dee_EmptySeq`. -/
  | empty
  /-- `DeeSeq_RepeatItemForever`. -/
  | repeatForever (item : ℤ)
  | intRange (range : IntRange)
  | range (range : Range)
  deriving DecidableEq

/-- What is thrown. -/
inductive RangeError where
  | integerOverflow
  | indexOutOfBounds (index size : ℕ)
  | indexOutOfBoundsObj (index : ℤ)
  deriving DecidableEq

/-- `DeeRange_NewInt`. -/
def deeRangeNewInt (start stop step : ℤ) : RangeObject := .intRange ⟨start, stop, step⟩

/-- `DeeRange_New`, of integers. -/
def deeRangeNew (start stop : ℤ) (step : Option ℤ) : RangeObject :=
  let objectRange := RangeObject.range ⟨start, stop, step, step.elim false fun step => step < 0⟩
  if IsSsize start ∧ IsSsize stop then
    match step with
    | none => deeRangeNewInt start stop 1
    | some iStep =>
      -- the test for a step of 0 tests the pointer to the step, which is never null here
      if IsSsize iStep then deeRangeNewInt start stop iStep else objectRange
  else objectRange

/-- `iter < self->ir_end`, or `>` when the step is negative. -/
def IntRange.reached (self : IntRange) (index : ℤ) : Bool :=
  if 0 ≤ self.irStep then self.irEnd ≤ index else index ≤ self.irEnd

/-- `intrange_size`. -/
def IntRange.size (self : IntRange) : Option ℕ := do
  let result ← ssize (self.irEnd - self.irStart)
  let result ← ssize (result + self.irStep)
  let result ← ssize (if 0 ≤ self.irStep then result - 1 else result + 1)
  let result ← sdiv result self.irStep
  some (if result < 0 then 0 else result).toNat

/-- `intrange_contains`. -/
def IntRange.contains (self : IntRange) (other : ℤ) : Option (Except RangeError Bool) :=
  if ¬ IsSsize other then some (.error .integerOverflow)
  else if 0 ≤ self.irStep then
    if self.irStart ≤ other ∧ other < self.irEnd then do
      let rest ← srem (← ssize (other - self.irStart)) self.irStep
      some (.ok (rest = 0))
    else some (.ok false)
  else if other ≤ self.irStart ∧ self.irEnd < other then do
    let rest ← srem (← ssize (self.irStart - other)) (← ssize (-self.irStep))
    some (.ok (rest = 0))
  else some (.ok false)

/-- `intrange_getitem_index`. -/
def IntRange.getitemIndex (self : IntRange) (index : ℕ) : Option (Except RangeError ℤ) :=
  let result := self.irStart + self.irStep * index
  if ¬ IsSsize (self.irStep * index) ∨ ¬ IsSsize result ∨ self.reached result then do
    some (.error (.indexOutOfBounds index (← self.size)))
  else some (.ok result)

/-- `intrange_getrange_index`; the products are of type `size_t`. -/
def IntRange.getrangeIndex (self : IntRange) (start stop : ℤ) : Option RangeObject := do
  let mylen ← self.size
  let range := seqRangeClamp start stop mylen
  some (if range.2 ≤ range.1 then .empty
    else deeRangeNewInt (ofSize (self.irStart + range.1 * self.irStep))
      (ofSize (self.irEnd - ((mylen - range.2 : ℕ) : ℤ) * self.irStep)) self.irStep)

/-- `intrange_getrange_index_n`. -/
def IntRange.getrangeIndexN (self : IntRange) (start : ℤ) : Option RangeObject := do
  let mylen ← self.size
  let start := seqRangeClampN start mylen
  some (if mylen ≤ start then .empty
    else deeRangeNewInt (ofSize (self.irStart + start * self.irStep)) self.irEnd self.irStep)

/-- `intrange_bool`. -/
def IntRange.bool (self : IntRange) : Bool :=
  if 0 ≤ self.irStep then self.irStart < self.irEnd else self.irEnd < self.irStart

/-- A round of the loop of `intrange_foreach`, with the index, the state of `proc` and the result. -/
def IntRange.foreachRound {σ : Type} (self : IntRange) (proc : σ → ℤ → σ × ℤ) (s : ℤ × σ × ℤ) :
    Option (Step (ℤ × σ × ℤ) (σ × ℤ)) :=
  if self.reached s.1 then some (.done s.2)
  else
    let called := proc s.2.1 s.1
    if called.2 < 0 then some (.done called)
    else do
      let result ← ssize (s.2.2 + called.2)
      let i ← ssize (s.1 + self.irStep)
      some (.next (i, called.1, result))

/-- `intrange_foreach`: the state of `proc` and the result. -/
def IntRange.foreach {σ : Type} (self : IntRange) (proc : σ → ℤ → σ × ℤ) (arg : σ) : Option (σ × ℤ) :=
  loop (self.foreachRound proc) ((self.irEnd - self.irStart).natAbs + 1) (self.irStart, arg, 0)

/-- `IntRangeIterator`. -/
structure IntRangeIterator where
  iriIndex : ℤ
  iriEnd : ℤ
  iriStep : ℤ
  deriving DecidableEq

/-- `intrange_iter`. -/
def IntRange.iter (self : IntRange) : IntRangeIterator := ⟨self.irStart, self.irEnd, self.irStep⟩

/-- Whether `iri_next` and `iri_bool` find the iteration done, also when the next index overflows. -/
def IntRangeIterator.isDone (self : IntRangeIterator) : Bool :=
  ¬ IsSsize (self.iriIndex + self.iriStep) ∨
    if 0 ≤ self.iriStep then self.iriEnd ≤ self.iriIndex else self.iriIndex ≤ self.iriEnd

/-- `iri_bool`. -/
def IntRangeIterator.bool (self : IntRangeIterator) : Bool := !self.isDone

/-- `iri_next`; `none` is `ITER_DONE`. -/
def IntRangeIterator.next (self : IntRangeIterator) : IntRangeIterator × Option ℤ :=
  if self.isDone then (self, none)
  else ({ self with iriIndex := self.iriIndex + self.iriStep }, some self.iriIndex)

/-- The results of `n` calls of `iri_next`. -/
def IntRangeIterator.nexts : ℕ → IntRangeIterator → List (Option ℤ)
  | 0, _ => []
  | n + 1, self => self.next.2 :: nexts n self.next.1

/-! ### The sequence that is meant -/

/-- The numbers of an integer range. -/
def IntRange.items (self : IntRange) : List ℤ := Progression.items self.irStart self.irEnd self.irStep

/-- `Dee_foreach_t` called with the items of a list, until it fails. -/
def foreachItems {σ : Type} (proc : σ → ℤ → σ × ℤ) : List ℤ → σ → ℤ → Option (σ × ℤ)
  | [], arg, result => some (arg, result)
  | x :: xs, arg, result =>
    let called := proc arg x
    if called.2 < 0 then some called
    else do
      let result ← ssize (result + called.2)
      foreachItems proc xs called.1 result

/-- A range that denotes a list. -/
def RangeObject.Denotes : RangeObject → List ℤ → Prop
  | .empty, xs => xs = []
  | .intRange r, xs => r.irStep ≠ 0 ∧ r.items = xs
  | _, _ => False

/-- All operations agree with the numbers of the range. -/
structure IntRange.Agrees (r : IntRange) : Prop where
  size : r.size = some r.items.length
  getitem : ∀ i < 2 ^ 64, r.getitemIndex i =
    some (r.items[i]?.elim (.error (.indexOutOfBounds i r.items.length)) .ok)
  foreach : ∀ {σ : Type} (proc : σ → ℤ → σ × ℤ) (arg : σ), r.foreach proc arg = foreachItems proc r.items arg 0
  next : ∀ n, r.iter.nexts n = (List.range n).map fun k => r.items[k]?
  bool : r.bool = decide (0 < r.items.length)
  contains : ∀ x, ∃ result, r.contains x = some result ∧ (result = .ok true ↔ x ∈ r.items)
  getrange : ∀ start stop, IsSsize start → IsSsize stop → ∃ slice, r.getrangeIndex start stop = some slice ∧
    slice.Denotes ((r.items.take (seqRangeClamp start stop r.items.length).2).drop
      (seqRangeClamp start stop r.items.length).1)
  getrangeN : ∀ start, IsSsize start → ∃ slice, r.getrangeIndexN start = some slice ∧
    slice.Denotes (r.items.drop (seqRangeClampN start r.items.length))

/-- A new range of integers is right: 0 as a step gives no integer range, any other one a range that agrees with its
numbers. -/
def NewRangeRight (start stop step : ℤ) : Prop :=
  if step = 0 then ∀ range, deeRangeNew start stop (some step) ≠ .intRange range
  else deeRangeNew start stop (some step) = .intRange ⟨start, stop, step⟩ ∧ IntRange.Agrees ⟨start, stop, step⟩

/-- The numbers that are computed fit: the distance from the start to the end, this with the step, and the number behind
the last one. -/
structure Fits (start stop step : ℤ) : Prop where
  step_ne : step ≠ 0
  distance : IsSsize (stop - start)
  distance_step : IsSsize (stop - start + step)
  behind : 0 < count start stop step → IsSsize (start + count start stop step * step)

/-! ### Sizes -/

section Size

variable {start stop step x : ℤ} {i : ℕ} {self : IntRange}

theorem ssize_of {z : ℤ} (h : IsSsize z) : ssize z = some z := if_pos h

theorem ofSize_of {z : ℤ} (h : IsSsize z) : ofSize z = z := by
  have hlo := h.1
  have hhi := h.2
  exact Int.bmod_eq_of_le (by norm_num; omega) (by norm_num; omega)

theorem tdiv_le_zero {a b : ℤ} (ha : a < 0) (hb : 0 < b) : a.tdiv b ≤ 0 := by
  have h := Int.tdiv_nonneg (a := -a) (b := b) (by omega) hb.le
  rw [Int.neg_tdiv] at h
  omega

theorem toNat_tdiv {a b : ℤ} (hb : 0 < b) : (a.tdiv b).toNat = (a / b).toNat := by
  rcases le_or_gt 0 a with ha | ha
  · rw [Int.tdiv_eq_ediv_of_nonneg ha]
  · have hneg := Int.ediv_neg_of_neg_of_pos ha hb
    have hle := tdiv_le_zero ha hb
    omega

theorem toNat_ite_neg (a : ℤ) : (if a < 0 then 0 else a).toNat = a.toNat := by
  split_ifs <;> omega

/-- The size is the number of items. -/
theorem IntRange.size_eq (h : Fits start stop step) : IntRange.size ⟨start, stop, step⟩ = some (count start stop step) := by
  have hne := h.step_ne
  have hlo := h.distance_step.1
  have hhi := h.distance_step.2
  have hlo' := h.distance.1
  have hhi' := h.distance.2
  unfold IntRange.size sdiv count
  rw [ssize_of h.distance, some_bind, ssize_of h.distance_step, some_bind]
  dsimp only
  by_cases hpos : 0 ≤ step
  · rw [if_pos hpos, if_pos hpos, ssize_of ⟨by omega, by omega⟩, some_bind, if_neg hne]
    have hdiv : IsSsize ((stop - start + step - 1).tdiv step) := by
      have habs := Int.natAbs_tdiv_le_natAbs (stop - start + step - 1) step
      have hsign := fun ha => @tdiv_le_zero (stop - start + step - 1) step ha (by omega)
      exact ⟨by omega, by omega⟩
    rw [ssize_of hdiv, some_bind, toNat_ite_neg, toNat_tdiv (by omega)]
  · rw [if_neg hpos, if_neg hpos, ssize_of ⟨by omega, by omega⟩, some_bind, if_neg hne]
    have hdiv : IsSsize ((stop - start + step + 1).tdiv step) := by
      have := Int.natAbs_tdiv_le_natAbs (stop - start + step + 1) step
      exact ⟨by omega, by omega⟩
    have hneg : (stop - start + step + 1).tdiv step = (start - stop - step - 1).tdiv (-step) := by
      rw [← Int.neg_tdiv_neg]
      congr 1
      omega
    rw [ssize_of hdiv, some_bind, toNat_ite_neg, hneg, toNat_tdiv (by omega)]

/-- Without the size there is an overflow or a division by zero. -/
theorem IntRange.fits_of_size {n : ℕ} (h : IntRange.size ⟨start, stop, step⟩ = some n) :
    step ≠ 0 ∧ IsSsize (stop - start) ∧ IsSsize (stop - start + step) := by
  unfold IntRange.size at h
  dsimp only at h
  obtain ⟨a, ha, h⟩ := of_bind h
  obtain ⟨b, hb, h⟩ := of_bind h
  obtain ⟨c, -, h⟩ := of_bind h
  obtain ⟨e, he, -⟩ := of_bind h
  unfold ssize at ha hb
  split_ifs at ha hb with hfit hfit'
  obtain rfl := Option.some.inj ha
  refine ⟨?_, hfit, hfit'⟩
  rintro rfl
  rw [sdiv, if_pos rfl] at he
  cases he

theorem IntRange.reached_iff : self.reached x = true ↔ ¬ Before self.irEnd self.irStep x := by
  unfold IntRange.reached Before
  by_cases hstep : 0 ≤ self.irStep
  · rw [if_pos hstep, if_pos hstep, decide_eq_true_iff, not_lt]
  · rw [if_neg hstep, if_neg hstep, decide_eq_true_iff, not_lt]

/-- Numbers before the stop lie between the start and the stop. -/
theorem between {k : ℕ} (h : Before stop step (start + k * step)) :
    (start ≤ start + k * step ∧ start + k * step < stop) ∨ (stop < start + k * step ∧ start + k * step ≤ start) := by
  unfold Before at h
  split_ifs at h with hstep
  · have := Int.mul_nonneg (Int.natCast_nonneg k) hstep
    exact .inl ⟨by omega, h⟩
  · have := Int.mul_nonneg (Int.natCast_nonneg k) (show 0 ≤ -step by omega)
    rw [Int.mul_neg] at this
    exact .inr ⟨h, by omega⟩

theorem isSsize_of_before (hstart : IsSsize start) (hstop : IsSsize stop) {k : ℕ}
    (h : Before stop step (start + k * step)) : IsSsize (start + k * step) := by
  have hlo := hstart.1
  have hhi := hstart.2
  have hlo' := hstop.1
  have hhi' := hstop.2
  rcases between h with h | h <;> exact ⟨by omega, by omega⟩

/-- An item is found by its index, and any other index is out of bounds. -/
theorem IntRange.getitemIndex_eq (hstart : IsSsize start) (hstop : IsSsize stop) (h : Fits start stop step) (i : ℕ) :
    IntRange.getitemIndex ⟨start, stop, step⟩ i =
      some ((Progression.items start stop step)[i]?.elim
        (.error (.indexOutOfBounds i (Progression.items start stop step).length)) .ok) := by
  have hreached := @IntRange.reached_iff (start + step * i) ⟨start, stop, step⟩
  have hbefore := @lt_count_iff start stop step i h.step_ne
  rw [mul_comm (i : ℤ)] at hbefore
  unfold IntRange.getitemIndex
  dsimp only at hreached ⊢
  by_cases hi : i < count start stop step
  · have hfit := isSsize_of_before hstart hstop ((lt_count_iff h.step_ne).mp hi)
    have hmul : IsSsize (step * i) := by
      have hlo := h.distance.1
      have hhi := h.distance.2
      have hbetween := between ((lt_count_iff h.step_ne).mp hi)
      rw [mul_comm] at hbetween
      rcases hbetween with hb | hb <;> exact ⟨by omega, by omega⟩
    rw [mul_comm (i : ℤ)] at hfit
    have hin : ¬ (¬ IsSsize (step * i) ∨ ¬ IsSsize (start + step * i) ∨
        IntRange.reached ⟨start, stop, step⟩ (start + step * i) = true) := by
      rw [hreached, ← hbefore]
      tauto
    rw [if_neg hin, getElem?_items hi, Option.elim_some, mul_comm]
  · have hout : ¬ IsSsize (step * i) ∨ ¬ IsSsize (start + step * i) ∨
        IntRange.reached ⟨start, stop, step⟩ (start + step * i) = true := by
      rw [hreached, ← hbefore]
      tauto
    rw [if_pos hout, IntRange.size_eq h, List.getElem?_eq_none (by rw [length_items]; omega), length_items]
    rfl

end Size

/-! ### Iteration -/

section Iteration

variable {start stop step i : ℤ}

/-- Every item leads to a number that fits. -/
theorem Fits.next_fits (hstart : IsSsize start) (hstop : IsSsize stop) (h : Fits start stop step) :
    ∀ x ∈ items start stop step, IsSsize (x + step) := by
  intro x hx
  obtain ⟨k, rfl, hbefore⟩ := (mem_items_iff h.step_ne).mp hx
  have hk := (lt_count_iff h.step_ne).mpr hbefore
  have hnext : start + k * step + step = start + ((k + 1 : ℕ) : ℤ) * step := by
    push_cast
    ring
  rw [hnext]
  by_cases hlast : k + 1 < count start stop step
  · exact isSsize_of_before hstart hstop ((lt_count_iff h.step_ne).mp hlast)
  · have hcount : k + 1 = count start stop step := by omega
    rw [hcount]
    exact h.behind (by omega)

theorem foreach_loop {σ : Type} (proc : σ → ℤ → σ × ℤ) (self : IntRange) (hstep : self.irStep ≠ 0) :
    ∀ (fuel : ℕ) (i : ℤ) (arg : σ) (result : ℤ), count i self.irEnd self.irStep < fuel →
      (∀ x ∈ items i self.irEnd self.irStep, IsSsize (x + self.irStep)) →
      loop (self.foreachRound proc) fuel (i, arg, result) =
        foreachItems proc (items i self.irEnd self.irStep) arg result := by
  intro fuel
  induction fuel with
  | zero => intro i arg result hfuel; omega
  | succ fuel ih =>
    intro i arg result hfuel hfit
    rw [loop, IntRange.foreachRound]
    dsimp only
    by_cases hbefore : Before self.irEnd self.irStep i
    · have hgo : ¬ self.reached i = true := fun h => IntRange.reached_iff.mp h hbefore
      rw [if_neg hgo]
      have hitems := items_eq_cons hstep hbefore
      have hcount := count_succ hstep hbefore
      rw [hitems, foreachItems]
      split_ifs with hneg
      · rfl
      · cases hsum : ssize (result + (proc arg i).2) with
        | none => rfl
        | some sum =>
          have hnext := hfit i (by rw [hitems]; exact List.mem_cons_self)
          rw [some_bind, some_bind, ssize_of hnext, some_bind, some_bind]
          exact ih _ _ _ (by omega) fun x hx => hfit x (by rw [hitems]; exact List.mem_cons_of_mem _ hx)
    · rw [if_pos (IntRange.reached_iff.mpr hbefore), items_eq_nil hstep hbefore, foreachItems]
      rfl

/-- The items are given to `proc` one after the other. -/
theorem IntRange.foreach_eq {σ : Type} (hstart : IsSsize start) (hstop : IsSsize stop) (h : Fits start stop step)
    (proc : σ → ℤ → σ × ℤ) (arg : σ) :
    IntRange.foreach ⟨start, stop, step⟩ proc arg = foreachItems proc (Progression.items start stop step) arg 0 :=
  foreach_loop proc ⟨start, stop, step⟩ h.step_ne _ start arg 0 (Nat.lt_succ_of_le (count_le h.step_ne))
    (h.next_fits hstart hstop)

theorem IntRangeIterator.isDone_iff {self : IntRangeIterator} : self.isDone = true ↔
    ¬ IsSsize (self.iriIndex + self.iriStep) ∨ ¬ Before self.iriEnd self.iriStep self.iriIndex := by
  unfold IntRangeIterator.isDone Before
  rw [decide_eq_true_iff]
  split_ifs <;> rw [not_lt]

/-- The calls of `iri_next` give the items and then report the end. -/
theorem IntRangeIterator.nexts_eq (hstep : step ≠ 0) : ∀ (n : ℕ) (i : ℤ), (∀ x ∈ items i stop step, IsSsize (x + step)) →
    IntRangeIterator.nexts n ⟨i, stop, step⟩ = (List.range n).map fun k => (items i stop step)[k]? := by
  intro n
  induction n with
  | zero => intro i _; rfl
  | succ n ih =>
    intro i hfit
    have hdone := @IntRangeIterator.isDone_iff ⟨i, stop, step⟩
    rw [IntRangeIterator.nexts, IntRangeIterator.next, List.range_succ_eq_map, List.map_cons, List.map_map]
    dsimp only at hdone ⊢
    by_cases hbefore : Before stop step i
    · have hitems := items_eq_cons hstep hbefore
      have hgo : ¬ IntRangeIterator.isDone ⟨i, stop, step⟩ = true := by
        rw [hdone, not_or, not_not, not_not]
        exact ⟨hfit i (by rw [hitems]; exact List.mem_cons_self), hbefore⟩
      rw [if_neg hgo, ih (i + step) fun x hx => hfit x (by rw [hitems]; exact List.mem_cons_of_mem _ hx), hitems]
      rfl
    · have hempty := items_eq_nil hstep hbefore
      rw [if_pos (hdone.mpr (.inr hbefore)), ih i hfit, hempty]
      rfl

theorem IntRange.bool_eq (hstep : step ≠ 0) :
    IntRange.bool ⟨start, stop, step⟩ = decide (0 < (Progression.items start stop step).length) := by
  have hbool : IntRange.bool ⟨start, stop, step⟩ = true ↔ Before stop step start := by
    unfold IntRange.bool Before
    split_ifs <;> exact decide_eq_true_iff
  rw [Bool.eq_iff_iff, hbool, decide_eq_true_iff, length_items, count_pos_iff hstep]

end Iteration

/-! ### Membership -/

section Contains

variable {start stop step x : ℤ}

theorem srem_of_nonneg {a b : ℤ} (ha : 0 ≤ a) (hfit : IsSsize a) (hb : 0 < b) : srem a b = some (a % b) := by
  have hdiv : IsSsize (a.tdiv b) := by
    have hhi := hfit.2
    have hpos := Int.tdiv_nonneg ha hb.le
    have hle := Int.natAbs_tdiv_le_natAbs a b
    exact ⟨by omega, by omega⟩
  rw [srem, if_neg (not_or.mpr ⟨hb.ne', not_not.mpr hdiv⟩), Int.tmod_eq_emod_of_nonneg ha]

/-- The numbers that are contained are the items. -/
theorem IntRange.contains_items (hstart : IsSsize start) (hstop : IsSsize stop) (h : Fits start stop step) (x : ℤ) :
    ∃ result, IntRange.contains ⟨start, stop, step⟩ x = some result ∧
      (result = .ok true ↔ x ∈ Progression.items start stop step) := by
  have hlo := h.distance.1
  have hhi := h.distance.2
  have hlo' := h.distance_step.1
  unfold IntRange.contains
  dsimp only
  by_cases hx : IsSsize x
  · rw [if_neg (not_not.mpr hx)]
    rcases lt_or_gt_of_ne h.step_ne with hneg | hpos
    · rw [if_neg (by omega), mem_items_of_neg hneg]
      split_ifs with hin
      · rw [ssize_of ⟨by omega, by omega⟩, some_bind, ssize_of ⟨by omega, by omega⟩, some_bind,
          srem_of_nonneg (by omega) ⟨by omega, by omega⟩ (by omega), some_bind]
        refine ⟨_, rfl, ?_⟩
        rw [Except.ok.injEq, decide_eq_true_iff]
        tauto
      · refine ⟨_, rfl, ?_⟩
        rw [Except.ok.injEq]
        tauto
    · rw [if_pos hpos.le, mem_items_of_pos hpos]
      split_ifs with hin
      · rw [ssize_of ⟨by omega, by omega⟩, some_bind, srem_of_nonneg (by omega) ⟨by omega, by omega⟩ hpos, some_bind]
        refine ⟨_, rfl, ?_⟩
        rw [Except.ok.injEq, decide_eq_true_iff]
        tauto
      · refine ⟨_, rfl, ?_⟩
        rw [Except.ok.injEq]
        tauto
  · rw [if_pos hx]
    refine ⟨_, rfl, ⟨fun hok => (by cases hok), fun hmem => ?_⟩⟩
    obtain ⟨k, rfl, hbefore⟩ := (mem_items_iff h.step_ne).mp hmem
    exact absurd (isSsize_of_before hstart hstop hbefore) hx

end Contains

/-! ### Slices -/

section Slices

variable {start stop step : ℤ}

/-- The stop of a slice lies between the start and the stop of the range. -/
theorem isSsize_stop (hstart : IsSsize start) (hstop : IsSsize stop) (hstep : step ≠ 0) {last : ℕ} (hpos : 0 < last)
    (hlast : last ≤ count start stop step) :
    IsSsize (stop - ((count start stop step - last : ℕ) : ℤ) * step) := by
  have hbefore := (@lt_count_iff start stop step (count start stop step - 1) hstep).mp (by omega)
  have hsplit : ((count start stop step - 1 : ℕ) : ℤ) * step =
      ((count start stop step - last : ℕ) : ℤ) * step + ((last - 1 : ℕ) : ℤ) * step := by
    rw [← add_mul]
    congr 1
    omega
  have hlo := hstart.1
  have hhi := hstart.2
  have hlo' := hstop.1
  have hhi' := hstop.2
  rw [hsplit] at hbefore
  rcases lt_or_gt_of_ne hstep with hneg | hpos
  · have hrest := Int.mul_nonneg (Int.natCast_nonneg (count start stop step - last)) (show 0 ≤ -step by omega)
    have hfirst := Int.mul_nonneg (Int.natCast_nonneg (last - 1)) (show 0 ≤ -step by omega)
    rw [Int.mul_neg] at hrest hfirst
    rw [before_of_neg hneg] at hbefore
    exact ⟨by omega, by omega⟩
  · have hrest := Int.mul_nonneg (Int.natCast_nonneg (count start stop step - last)) hpos.le
    have hfirst := Int.mul_nonneg (Int.natCast_nonneg (last - 1)) hpos.le
    rw [before_of_pos hpos] at hbefore
    exact ⟨by omega, by omega⟩

/-- A slice denotes the items from its start to its end. -/
theorem IntRange.getrangeIndex_denotes (hstart : IsSsize start) (hstop : IsSsize stop) (h : Fits start stop step)
    (first last : ℤ) :
    ∃ slice, IntRange.getrangeIndex ⟨start, stop, step⟩ first last = some slice ∧
      slice.Denotes (((Progression.items start stop step).take
        (seqRangeClamp first last (Progression.items start stop step).length).2).drop
          (seqRangeClamp first last (Progression.items start stop step).length).1) := by
  rw [length_items]
  have hvalid := seqRangeClamp_valid first last (count start stop step)
  unfold IntRange.getrangeIndex
  rw [IntRange.size_eq h, some_bind]
  generalize seqRangeClamp first last (count start stop step) = range at hvalid ⊢
  dsimp only
  split_ifs with hempty
  · refine ⟨_, rfl, ?_⟩
    rw [RangeObject.Denotes, List.drop_eq_nil_iff, List.length_take]
    omega
  · have hfirst := (@lt_count_iff start stop step range.1 h.step_ne).mp (by omega)
    refine ⟨_, rfl, h.step_ne, ?_⟩
    rw [ofSize_of (isSsize_of_before hstart hstop hfirst), ofSize_of (isSsize_stop hstart hstop h.step_ne (by omega) hvalid.2)]
    exact items_slice h.step_ne hvalid.2

theorem IntRange.getrangeIndexN_denotes (hstart : IsSsize start) (hstop : IsSsize stop) (h : Fits start stop step)
    (first : ℤ) :
    ∃ slice, IntRange.getrangeIndexN ⟨start, stop, step⟩ first = some slice ∧
      slice.Denotes ((Progression.items start stop step).drop
        (seqRangeClampN first (Progression.items start stop step).length)) := by
  rw [length_items]
  unfold IntRange.getrangeIndexN
  rw [IntRange.size_eq h, some_bind]
  generalize seqRangeClampN first (count start stop step) = first
  dsimp only
  split_ifs with hempty
  · refine ⟨_, rfl, ?_⟩
    rw [RangeObject.Denotes, List.drop_eq_nil_iff, length_items]
    exact hempty
  · have hfirst := (@lt_count_iff start stop step first h.step_ne).mp (by omega)
    have hslice := @items_slice start stop step h.step_ne first _ le_rfl
    rw [Nat.sub_self, Nat.cast_zero, zero_mul, sub_zero, ← length_items, List.take_length] at hslice
    refine ⟨_, rfl, h.step_ne, ?_⟩
    rw [ofSize_of (isSsize_of_before hstart hstop hfirst)]
    exact hslice

end Slices

/-! ### When all operations agree -/

section Agreement

variable {start stop step : ℤ}

theorem foreachItems_zero (xs : List ℤ) (result : ℤ) (hfit : IsSsize result) :
    foreachItems (fun (arg : Unit) _ => (arg, 0)) xs () result = some ((), result) := by
  induction xs with
  | nil => rfl
  | cons x xs ih =>
    rw [foreachItems]
    dsimp only
    rw [if_neg (lt_irrefl 0), add_zero, ssize_of hfit, some_bind]
    exact ih

/-- An item whose successor does not fit breaks the enumeration. -/
theorem foreach_loop_none {self : IntRange} (hstep : self.irStep ≠ 0) : ∀ (fuel : ℕ) (i x : ℤ),
    x ∈ items i self.irEnd self.irStep → ¬ IsSsize (x + self.irStep) →
      loop (self.foreachRound fun (arg : Unit) _ => (arg, 0)) fuel (i, (), 0) = none := by
  intro fuel
  induction fuel with
  | zero => intro i x _ _; rfl
  | succ fuel ih =>
    intro i x hx hover
    have hbefore : Before self.irEnd self.irStep i := by
      by_contra hnot
      rw [items_eq_nil hstep hnot] at hx
      cases hx
    have hgo : ¬ self.reached i = true := fun h => IntRange.reached_iff.mp h hbefore
    have hzero : ssize 0 = some 0 := ssize_of ⟨by norm_num, by norm_num⟩
    rw [loop, IntRange.foreachRound, if_neg hgo]
    dsimp only
    rw [if_neg (lt_irrefl 0), add_zero, hzero, some_bind]
    by_cases hfit : IsSsize (i + self.irStep)
    · rw [ssize_of hfit, some_bind, some_bind]
      rw [items_eq_cons hstep hbefore, List.mem_cons] at hx
      rcases hx with rfl | hx
      · exact absurd hfit hover
      · exact ih _ x hx hover
    · rw [ssize, if_neg hfit]
      rfl

/-- A range that agrees with its numbers computes only numbers that fit. -/
theorem IntRange.Agrees.fits (h : IntRange.Agrees ⟨start, stop, step⟩) : Fits start stop step := by
  obtain ⟨hne, hdistance, hsum⟩ := IntRange.fits_of_size h.size
  refine ⟨hne, hdistance, hsum, fun hpos => ?_⟩
  by_contra hover
  have hlast : start + (count start stop step - 1 : ℕ) * step ∈ Progression.items start stop step :=
    (mem_items_iff hne).mpr ⟨_, rfl, (lt_count_iff hne).mp (by omega)⟩
  have hnext : start + (count start stop step - 1 : ℕ) * step + step = start + count start stop step * step := by
    rw [Nat.cast_sub (by omega)]
    push_cast
    ring
  have hnone := @foreach_loop_none ⟨start, stop, step⟩ hne ((stop - start).natAbs + 1) start _ hlast
    (by rwa [hnext])
  have hforeach := h.foreach (fun (arg : Unit) _ => (arg, 0)) ()
  rw [foreachItems_zero _ _ ⟨by norm_num, by norm_num⟩, IntRange.foreach, hnone] at hforeach
  cases hforeach

/-- A range whose numbers fit agrees with them. -/
theorem Fits.agrees (hstart : IsSsize start) (hstop : IsSsize stop) (h : Fits start stop step) :
    IntRange.Agrees ⟨start, stop, step⟩ where
  size := by rw [IntRange.size_eq h, IntRange.items, length_items]
  getitem i _ := IntRange.getitemIndex_eq hstart hstop h i
  foreach proc arg := IntRange.foreach_eq hstart hstop h proc arg
  next n := IntRangeIterator.nexts_eq h.step_ne n start (h.next_fits hstart hstop)
  bool := IntRange.bool_eq h.step_ne
  contains x := IntRange.contains_items hstart hstop h x
  getrange first last _ _ := IntRange.getrangeIndex_denotes hstart hstop h first last
  getrangeN first _ := IntRange.getrangeIndexN_denotes hstart hstop h first

/-- A new range of integers is right if and only if its step is not 0 and the numbers it computes fit. -/
theorem intRange_iff (hstart : IsSsize start) (hstop : IsSsize stop) (hstep : IsSsize step) :
    deeRangeNew start stop none = .intRange ⟨start, stop, 1⟩ ∧
      (step ≠ 0 → ∀ i, i < (IntRange.items ⟨start, stop, step⟩).length ↔ Before stop step (start + i * step)) ∧
      (NewRangeRight start stop step ↔ Fits start stop step) := by
  have hnew : deeRangeNew start stop (some step) = .intRange ⟨start, stop, step⟩ := by
    rw [deeRangeNew, if_pos ⟨hstart, hstop⟩]
    exact if_pos hstep
  refine ⟨?_, fun hne i => ?_, ?_⟩
  · rw [deeRangeNew, if_pos ⟨hstart, hstop⟩]
    rfl
  · rw [IntRange.items, length_items]
    exact lt_count_iff hne
  · unfold NewRangeRight
    split_ifs with hzero
    · exact ⟨fun h => absurd hnew (h _), fun h => absurd hzero h.step_ne⟩
    · exact ⟨fun h => h.2.fits, fun h => ⟨hnew, h.agrees hstart hstop⟩⟩

/-- The numbers from 0 to 7 in steps of 2 fit. -/
theorem intRange_iff_even : NewRangeRight 0 7 2 :=
  (intRange_iff (by decide) (by decide) (by decide)).2.2.mpr
    ⟨by decide, by decide, by decide, fun _ => by decide⟩

/-- An iterator does not reach the only item when the number behind it does not fit. -/
theorem intRange_last_lost : ¬ NewRangeRight (2 ^ 63 - 2) (2 ^ 63 - 1) 5 := by
  intro h
  have hnext := h.2.next 1
  revert hnext
  decide

end Agreement

end Deemon.Seq
