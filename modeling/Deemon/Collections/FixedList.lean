import Deemon.Collections.ListSpliceExact
import Mathlib.Data.List.ReduceOption

/-!
# Ranges of fixed lists

A `FixedList` has slots that are bound to an object or not. `fl_delrange_index` and `fl_setrange_index` exchange the
slots of a range with a buffer under the lock and drop the references in the buffer afterwards; `fl_clear_impl` takes the
references out in portions of 16.
-/

namespace Deemon.Collections

open Deemon.Run

variable {α : Type}

/-! ### The operations -/

/-- `FixedList`: the slots, of pointer size, in one allocation. -/
structure FixedList (α : Type) where
  flElem : List (Option α)
  allocated : 8 * flElem.length < 2 ^ 64

/-- A `Dee_ssize_t`. -/
abbrev SSize := { i : ℤ // -2 ^ 63 ≤ i ∧ i < 2 ^ 63 }

/-- What an operation returns, the slots it leaves, and the references it drops in the order in which it does so. -/
structure FlRun (α : Type) where
  code : ℤ
  elems : List (Option α)
  dropped : List α
  deriving DecidableEq, Repr

/-- An exchange of the slots from `fl_elem[(size_t)i_begin]` on with `values_buf`, which holds the old content of the
slots afterwards. -/
def exchangeSlots (iBegin : ℤ) (valuesBuf : List (Option α)) (elems : List (Option α)) :
    Option (List (Option α) × List (Option α)) :=
  forLoop (fun i (elems, olds) => do
    let pSlot := (toSize iBegin + i) % 2 ^ 64
    let old ← elems[pSlot]?
    let new ← valuesBuf[i]?
    some (elems.set pSlot new, olds ++ [old])) 0 valuesBuf.length (elems, [])

/-- The part of `fl_delrange_index` and `fl_delrange_index_n` behind the clamping. -/
def delSlots (self : FixedList α) (memory : Bool) (iBegin : ℤ) (rangeSize : ℕ) : Option (FlRun α) :=
  if 0 < rangeSize then
    if memory = false then some ⟨-1, self.flElem, []⟩
    else do
      let (elems, olds) ← exchangeSlots iBegin (List.replicate rangeSize none) self.flElem
      some ⟨0, elems, olds.reduceOption⟩
  else some ⟨0, self.flElem, []⟩

/-- `seq_unpack_ub` with `rangeSize` for the smallest and the greatest number of items; `none` is an error. -/
def seqUnpackUb (values : List (Option α)) (rangeSize : ℕ) : Option (List (Option α)) :=
  if values.length = rangeSize then some values else none

section Setrange

variable (self : FixedList α) (memory : Bool)

/-- The part of `fl_setrange_index` and `fl_setrange_index_n` behind the clamping. -/
def setSlots (iBegin : ℤ) (rangeSize : ℕ) (values : List (Option α)) : Option (FlRun α) :=
  if memory = false then some ⟨-1, self.flElem, []⟩
  else
    match seqUnpackUb values rangeSize with
    | none => some ⟨-1, self.flElem, []⟩
    | some valuesBuf => do
      let (elems, olds) ← exchangeSlots iBegin valuesBuf self.flElem
      some ⟨0, elems, olds.reduceOption⟩

/-- `fl_delrange_index`. -/
def flDelrangeIndex (iBegin iEnd : ℤ) : Option (FlRun α) :=
  let range := seqRangeClamp iBegin iEnd self.flElem.length
  delSlots self memory iBegin (range.2 - range.1)

/-- `fl_delrange_index_n`. -/
def flDelrangeIndexN (iBegin : ℤ) : Option (FlRun α) :=
  let start := seqRangeClampN iBegin self.flElem.length
  delSlots self memory iBegin (self.flElem.length - start)

/-- `fl_setrange_index`. -/
def flSetrangeIndex (iBegin iEnd : ℤ) (values : List (Option α)) : Option (FlRun α) :=
  let range := seqRangeClamp iBegin iEnd self.flElem.length
  setSlots self memory iBegin (range.2 - range.1) values

/-- `fl_setrange_index_n`. -/
def flSetrangeIndexN (iBegin : ℤ) (values : List (Option α)) : Option (FlRun α) :=
  let start := seqRangeClampN iBegin self.flElem.length
  setSlots self memory iBegin (self.flElem.length - start) values

end Setrange

/-- What `fl_clear_impl` works on: the position of its loop, the slots, `buf[0 .. buflen]`, and the references dropped. -/
structure Clearing (α : Type) where
  i : ℕ
  elems : List (Option α)
  buf : List α
  dropped : List α

/-- A round of the loop of `fl_clear_impl`. A full buffer is dropped and the loop started again; `buflen` stays. -/
def clearRound (flSize : ℕ) (s : Clearing α) : Option (Step (Clearing α) (FlRun α)) :=
  if s.i < flSize then do
    match ← s.elems[s.i]? with
    | none => some (.next { s with i := s.i + 1 })
    | some ob =>
      let elems := s.elems.set s.i none
      if 16 ≤ s.buf.length then some (.next { s with i := 0, elems := elems, dropped := s.dropped ++ ob :: s.buf })
      else some (.next { s with i := s.i + 1, elems := elems, buf := s.buf ++ [ob] })
  else some (.done ⟨0, s.elems, s.dropped ++ s.buf⟩)

/-- `fl_clear_impl`. -/
def flClearImpl (self : FixedList α) : Option (FlRun α) :=
  let flSize := self.flElem.length
  loop (clearRound flSize) ((flSize + 1) * (flSize + 1)) ⟨0, self.flElem, [], []⟩

/-! ### What is asked of them -/

/-- The operations on ranges, and the one that clears. -/
inductive FlOp (α : Type) where
  | delrange (iBegin iEnd : SSize)
  | delrangeN (iBegin : SSize)
  | setrange (iBegin iEnd : SSize) (values : List (Option α))
  | setrangeN (iBegin : SSize) (values : List (Option α))
  | clear

namespace FlOp

/-- The operation, with memory for the buffer. -/
def run (self : FixedList α) : FlOp α → Option (FlRun α)
  | delrange iBegin iEnd => flDelrangeIndex self true iBegin iEnd
  | delrangeN iBegin => flDelrangeIndexN self true iBegin
  | setrange iBegin iEnd values => flSetrangeIndex self true iBegin iEnd values
  | setrangeN iBegin values => flSetrangeIndexN self true iBegin values
  | clear => flClearImpl self

/-- The positions that are selected. -/
def range (self : FixedList α) : FlOp α → ℕ × ℕ
  | delrange iBegin iEnd => seqRangeClamp iBegin iEnd self.flElem.length
  | delrangeN iBegin => (seqRangeClampN iBegin self.flElem.length, self.flElem.length)
  | setrange iBegin iEnd _ => seqRangeClamp iBegin iEnd self.flElem.length
  | setrangeN iBegin _ => (seqRangeClampN iBegin self.flElem.length, self.flElem.length)
  | clear => (0, self.flElem.length)

/-- What the selected slots hold afterwards. -/
def values (self : FixedList α) : FlOp α → List (Option α)
  | setrange _ _ values => values
  | setrangeN _ values => values
  | op => List.replicate ((op.range self).2 - (op.range self).1) none

/-- The replacement is as long as the range. -/
def Matching (self : FixedList α) (op : FlOp α) : Prop := (op.values self).length = (op.range self).2 - (op.range self).1

/-- The selected slots, and no others, hold the new values, and the references that were in them are dropped, once
each. -/
structure Exact (me : FixedList α) (op : FlOp α) (r : FlRun α) : Prop where
  code : r.code = 0
  elems : r.elems = me.flElem.take (op.range me).1 ++ op.values me ++ me.flElem.drop (op.range me).2
  dropped : r.dropped.Perm ((me.flElem.drop (op.range me).1).take ((op.range me).2 - (op.range me).1)).reduceOption

/-- The index the operation starts from. -/
def iBegin : FlOp α → ℤ
  | delrange iBegin _ => iBegin
  | delrangeN iBegin => iBegin
  | setrange iBegin _ _ => iBegin
  | setrangeN iBegin _ => iBegin
  | clear => 0

/-- The index the operation starts from does not count from the end, or the range is empty; and what is cleared fits
the buffer. -/
def Direct (self : FixedList α) (op : FlOp α) : Prop :=
  (0 ≤ op.iBegin ∨ (op.range self).1 = (op.range self).2) ∧ (op = clear → self.flElem.reduceOption.length ≤ 16)

end FlOp

/-! ### The exchange -/

/-- `k` slots from `s` on are exchanged. -/
structure Exchanged (elems values : List (Option α)) (s k : ℕ) (r : List (Option α) × List (Option α)) : Prop where
  length : r.1.length = elems.length
  slot : ∀ j, r.1[j]? = if s ≤ j ∧ j < s + k then values[j - s]? else elems[j]?
  olds : r.2 = (elems.drop s).take k

section Exchange

variable {elems values : List (Option α)} {iBegin : ℤ}

theorem exchangeSlots_ends (hroom : toSize iBegin + values.length ≤ elems.length) (hsmall : elems.length < 2 ^ 63) :
    Ends (exchangeSlots iBegin values elems) fun r =>
      r.1 = elems.take (toSize iBegin) ++ values ++ elems.drop (toSize iBegin + values.length) ∧
        r.2 = (elems.drop (toSize iBegin)).take values.length := by
  generalize hs : toSize iBegin = s at hroom ⊢
  refine Ends.mono (P := Exchanged elems values s values.length) ?_ ?_
  · refine forLoop_ends_zero (fun k => Exchanged elems values s k) ⟨rfl, fun j => ?_, by simp⟩ ?_
    · rw [if_neg (by omega)]
    rintro k ⟨cur, olds⟩ hk ⟨hlen, hcur, holds⟩
    dsimp only at hlen hcur holds ⊢
    have hslot : (s + k) % 2 ^ 64 = s + k := Nat.mod_eq_of_lt (by omega)
    have hold : cur[s + k]? = some elems[s + k] := by
      rw [hcur, if_neg (by omega), List.getElem?_eq_getElem (by omega)]
    rw [hs, hslot, hold, some_bind, List.getElem?_eq_getElem hk, some_bind]
    refine Ends.pure ⟨by simp [hlen], fun j => ?_, ?_⟩
    · rw [List.getElem?_set]
      split_ifs with heq hin hin
      · subst heq
        rw [Nat.add_sub_cancel_left, List.getElem?_eq_getElem hk]
      · omega
      · omega
      · omega
      · rw [hcur, if_pos (by omega)]
      · rw [hcur, if_neg (by omega)]
    · rw [holds, List.take_add_one, List.getElem?_drop, List.getElem?_eq_getElem (by omega)]
      rfl
  · rintro ⟨cur, olds⟩ ⟨hlen, hcur, holds⟩
    dsimp only at hlen hcur holds
    refine ⟨List.ext_getElem? fun j => ?_, holds⟩
    rw [hcur, List.append_assoc, List.getElem?_append, List.length_take, Nat.min_eq_left (by omega),
      List.getElem?_append, List.getElem?_drop]
    split_ifs with hin hbefore hinside hbefore hinside
    · omega
    · rfl
    · omega
    · rw [List.getElem?_take_of_lt hbefore]
    · omega
    · congr 1
      omega

/-- An index from the end is far behind the slots. -/
theorem exchangeSlots_negative (hneg : iBegin < 0) (hmin : -2 ^ 63 ≤ iBegin) (hpos : values ≠ [])
    (hsmall : elems.length < 2 ^ 63) : exchangeSlots iBegin values elems = none := by
  obtain ⟨n, hn⟩ := Nat.exists_eq_succ_of_ne_zero (mt List.length_eq_zero_iff.mp hpos)
  have hcast := toSize_of_neg hneg hmin
  have hslot : elems[(toSize iBegin + 0) % 2 ^ 64]? = none := List.getElem?_eq_none (by omega)
  unfold exchangeSlots
  rw [hn, forLoop]
  dsimp only
  rw [hslot]
  rfl

end Exchange

/-! ### The ranges -/

section Ranges

variable {self : FixedList α} {start stop : ℤ} {size s n : ℕ} {values : List (Option α)} {op : FlOp α}

theorem FixedList.small (self : FixedList α) : self.flElem.length < 2 ^ 63 := by
  have hbytes := self.allocated
  omega

/-- The cast of an index that does not count from the end. -/
theorem SSize.toSize_lt (i : SSize) (h0 : 0 ≤ i.1) : toSize i < 2 ^ 63 := by
  have hcast := toSize_of_nonneg h0 i.2.2
  have hlt := i.2.2
  omega

/-- The slots `s .. s + n` hold the new values, and the references in them are dropped. -/
def FlRun.replaced (self : FixedList α) (s n : ℕ) (values : List (Option α)) : FlRun α :=
  ⟨0, self.flElem.take s ++ values ++ self.flElem.drop (s + n), ((self.flElem.drop s).take n).reduceOption⟩

theorem delSlots_eq (hroom : s + n ≤ self.flElem.length) (hstart : n = 0 ∨ s = toSize start) :
    delSlots self true start n = some (FlRun.replaced self s n (List.replicate n none)) := by
  unfold delSlots FlRun.replaced
  split_ifs with hpos hmemory
  · exact absurd hmemory (by simp)
  · obtain rfl := hstart.resolve_left hpos.ne'
    have hfits : toSize start + (List.replicate n (none : Option α)).length ≤ self.flElem.length := by simpa using hroom
    obtain ⟨r, hr, helems, holds⟩ := exchangeSlots_ends hfits self.small
    rw [List.length_replicate] at helems holds
    rw [hr, some_bind, ← helems, ← holds]
  · obtain rfl : n = 0 := by omega
    simp

theorem setSlots_eq (hroom : s + n ≤ self.flElem.length) (hstart : n = 0 ∨ s = toSize start)
    (hlen : values.length = n) : setSlots self true start n values = some (FlRun.replaced self s n values) := by
  unfold setSlots seqUnpackUb FlRun.replaced
  rw [if_neg (by simp), if_pos hlen]
  dsimp only
  rcases Nat.eq_zero_or_pos n with rfl | hpos
  · rw [List.length_eq_zero_iff.mp hlen]
    simp [exchangeSlots, forLoop]
  · obtain rfl := hstart.resolve_left hpos.ne'
    have hfits : toSize start + values.length ≤ self.flElem.length := by omega
    obtain ⟨r, hr, helems, holds⟩ := exchangeSlots_ends hfits self.small
    rw [hlen] at helems holds
    rw [hr, some_bind, ← helems, ← holds]

theorem delSlots_negative (hneg : start < 0) (hmin : -2 ^ 63 ≤ start) (hn : n ≠ 0) : delSlots self true start n = none := by
  unfold delSlots
  rw [if_pos (Nat.pos_of_ne_zero hn), if_neg (by simp),
    exchangeSlots_negative hneg hmin (by simpa using hn) self.small]
  rfl

theorem setSlots_negative (hneg : start < 0) (hmin : -2 ^ 63 ≤ start) (hn : n ≠ 0) (hlen : values.length = n) :
    setSlots self true start n values = none := by
  have hne : values ≠ [] := fun h => hn (by rw [← hlen, h]; rfl)
  unfold setSlots seqUnpackUb
  rw [if_neg (by simp), if_pos hlen]
  dsimp only
  rw [exchangeSlots_negative hneg hmin hne self.small]
  rfl

theorem FlOp.range_valid (self : FixedList α) (op : FlOp α) :
    (op.range self).1 ≤ (op.range self).2 ∧ (op.range self).2 ≤ self.flElem.length := by
  cases op with
  | delrange iBegin iEnd => exact seqRangeClamp_valid _ _ _
  | delrangeN iBegin => exact ⟨seqRangeClampN_le _ _, le_rfl⟩
  | setrange iBegin iEnd values => exact seqRangeClamp_valid _ _ _
  | setrangeN iBegin values => exact ⟨seqRangeClampN_le _ _, le_rfl⟩
  | clear => exact ⟨Nat.zero_le _, le_rfl⟩

theorem FlOp.range_start (self : FixedList α) (hop : op ≠ .clear) (h0 : 0 ≤ op.iBegin) :
    (op.range self).1 = (op.range self).2 ∨ (op.range self).1 = toSize op.iBegin := by
  cases op with
  | delrange iBegin iEnd => exact deeSeqRangeClamp_start (SSize.toSize_lt iBegin h0) _ _
  | delrangeN iBegin => exact deeSeqRangeClampN_start (SSize.toSize_lt iBegin h0) _
  | setrange iBegin iEnd values => exact deeSeqRangeClamp_start (SSize.toSize_lt iBegin h0) _ _
  | setrangeN iBegin values => exact deeSeqRangeClampN_start (SSize.toSize_lt iBegin h0) _
  | clear => exact absurd rfl hop

theorem FlOp.iBegin_min (op : FlOp α) : -2 ^ 63 ≤ op.iBegin := by
  cases op with
  | delrange iBegin _ => exact iBegin.2.1
  | delrangeN iBegin => exact iBegin.2.1
  | setrange iBegin _ _ => exact iBegin.2.1
  | setrangeN iBegin _ => exact iBegin.2.1
  | clear => norm_num [FlOp.iBegin]

/-- An operation on a range does what it is asked for when it starts from the index it was given or has nothing to do. -/
theorem FlOp.run_range (hop : op ≠ .clear) (hlen : op.Matching self)
    (hdirect : 0 ≤ op.iBegin ∨ (op.range self).1 = (op.range self).2) :
    op.run self = some (FlRun.replaced self (op.range self).1 ((op.range self).2 - (op.range self).1) (op.values self)) := by
  obtain ⟨hle, hsize⟩ := op.range_valid self
  have hroom : (op.range self).1 + ((op.range self).2 - (op.range self).1) ≤ self.flElem.length := by omega
  have hstart : (op.range self).2 - (op.range self).1 = 0 ∨ (op.range self).1 = toSize op.iBegin := by
    rcases hdirect with h0 | hempty
    · exact (FlOp.range_start self hop h0).imp (fun h => by omega) id
    · exact .inl (by omega)
  cases op with
  | delrange iBegin iEnd => exact delSlots_eq hroom hstart
  | delrangeN iBegin => exact delSlots_eq hroom hstart
  | setrange iBegin iEnd values => exact setSlots_eq hroom hstart hlen
  | setrangeN iBegin values => exact setSlots_eq hroom hstart hlen
  | clear => exact absurd rfl hop

/-- With an index from the end and something to do the first slot it looks at is none of the list. -/
theorem FlOp.run_negative (hop : op ≠ .clear) (hlen : op.Matching self) (hneg : op.iBegin < 0)
    (hne : (op.range self).1 ≠ (op.range self).2) : op.run self = none := by
  have hn : (op.range self).2 - (op.range self).1 ≠ 0 := by
    have hvalid := op.range_valid self
    omega
  have hmin := op.iBegin_min
  cases op with
  | delrange iBegin iEnd => exact delSlots_negative hneg hmin hn
  | delrangeN iBegin => exact delSlots_negative hneg hmin hn
  | setrange iBegin iEnd values => exact setSlots_negative hneg hmin hn hlen
  | setrangeN iBegin values => exact setSlots_negative hneg hmin hn hlen
  | clear => exact absurd rfl hop

end Ranges

/-! ### Clearing -/

section Clear

variable {elems : List (Option α)} {i : ℕ} {ob : α}

/-- A reference taken out of its slot. -/
theorem reduceOption_set (h : elems[i]? = some (some ob)) :
    elems.reduceOption.Perm (ob :: (elems.set i none).reduceOption) := by
  induction elems generalizing i with
  | nil => simp at h
  | cons x elems ih =>
    cases i with
    | zero =>
      obtain rfl : x = some ob := by simpa using h
      simp
    | succ i =>
      have hrest := ih (i := i) (by simpa using h)
      cases x with
      | none => simpa using hrest
      | some y => simpa using (hrest.cons y).trans (List.Perm.swap _ _ _)

/-- Where the clearing of `orig` stands: `again` times the buffer was full, and each time a reference was dropped
together with the whole buffer. -/
structure ClearingOf (orig : List (Option α)) (s : Clearing α) (again : ℕ) : Prop where
  length : s.elems.length = orig.length
  le : s.i ≤ orig.length
  cleared : ∀ j < s.i, s.elems[j]? = some none
  count : s.buf.length + again + s.elems.reduceOption.length = orig.reduceOption.length
  dropped : s.dropped.length = 17 * again
  small : s.buf.length ≤ 16
  full : 0 < again → s.buf.length = 16
  taken : again = 0 → s.dropped = [] ∧ (s.buf ++ s.elems.reduceOption).Perm orig.reduceOption

theorem flClearImpl_ends (self : FixedList α) : Ends (flClearImpl self) fun r => ∃ s again,
    ClearingOf self.flElem s again ∧ s.elems.reduceOption = [] ∧
      r = ⟨0, List.replicate self.flElem.length none, s.dropped ++ s.buf⟩ := by
  unfold flClearImpl
  dsimp only
  have hbound := List.reduceOption_length_le self.flElem
  generalize hsize : self.flElem.length = size at hbound
  refine loop_ends (fun s => ∃ again, ClearingOf self.flElem s again)
    (fun s => s.elems.reduceOption.length * (size + 1) + (size - s.i))
    ⟨0, ⟨rfl, Nat.zero_le _, by simp, by simp, rfl, by simp, by simp, fun _ => ⟨rfl, by simp⟩⟩⟩ ?_ ?_
  · have hmul := Nat.mul_le_mul_right (size + 1) hbound
    dsimp only
    rw [Nat.succ_mul]
    omega
  rintro s ⟨again, hs⟩
  have hlen := hs.length
  have hle := hs.le
  unfold clearRound
  by_cases hlt : s.i < size
  · rw [if_pos hlt, List.getElem?_eq_getElem (by omega), some_bind]
    have hslot : s.elems[s.i]? = some s.elems[s.i] := List.getElem?_eq_getElem (by omega)
    generalize s.elems[s.i] = slot at hslot
    cases slot with
    | none =>
      refine Ends.pure ⟨⟨again, { hs with le := hsize ▸ hlt, cleared := fun j hj => ?_ }⟩, by dsimp only; omega⟩
      rcases Nat.lt_succ_iff_lt_or_eq.mp hj with hlt' | rfl
      · exact hs.cleared j hlt'
      · exact hslot
    | some ob =>
      have hperm := reduceOption_set hslot
      have hcount := hs.count
      have hbounded := hperm.length_eq
      rw [List.length_cons] at hbounded
      dsimp only
      split_ifs with hfull
      · refine Ends.pure ⟨⟨again + 1, ⟨by simpa using hlen, Nat.zero_le _, by simp, ?_, ?_, hs.small, ?_, by simp⟩⟩, ?_⟩
        · dsimp only
          omega
        · have hdropped := hs.dropped
          rw [List.length_append, List.length_cons]
          have hsmall := hs.small
          omega
        · intro _
          exact le_antisymm hs.small hfull
        · dsimp only
          rw [hbounded, Nat.succ_mul]
          omega
      · have hzero : again = 0 := by
          by_contra hpos
          exact hfull (hs.full (Nat.pos_of_ne_zero hpos)).ge
        subst hzero
        obtain ⟨hdropped, htaken⟩ := hs.taken rfl
        refine Ends.pure ⟨⟨0, ⟨by simpa using hlen, hsize ▸ hlt, fun j hj => ?_, ?_, hs.dropped, ?_, by simp, fun _ => ⟨hdropped, ?_⟩⟩⟩, ?_⟩
        · rw [List.getElem?_set]
          split_ifs with heq hin
          · rfl
          · omega
          · exact hs.cleared j (by dsimp only at hj; omega)
        · rw [List.length_append, List.length_singleton]
          dsimp only
          omega
        · rw [List.length_append, List.length_singleton]
          omega
        · rw [List.append_assoc, List.singleton_append]
          exact (hperm.symm.append_left s.buf).trans htaken
        · dsimp only
          rw [hbounded, Nat.succ_mul]
          omega
  · rw [if_neg hlt]
    have hend : s.elems = List.replicate size none := by
      refine List.ext_getElem? fun j => ?_
      rw [List.getElem?_replicate]
      split_ifs with hj
      · exact hs.cleared j (by omega)
      · exact List.getElem?_eq_none (by omega)
    have hempty : s.elems.reduceOption = [] := by
      rw [hend]
      simp
    refine Ends.pure ⟨s, again, hs, hempty, ?_⟩
    rw [hend]

/-- All references are dropped once when they fit the buffer together. -/
theorem flClearImpl_exact_iff (self : FixedList α) :
    Ends (flClearImpl self) (FlOp.Exact self .clear) ↔ self.flElem.reduceOption.length ≤ 16 := by
  obtain ⟨r, hr, s, again, hs, hempty, rfl⟩ := flClearImpl_ends self
  have hcount := hs.count
  rw [hempty, List.length_nil, Nat.add_zero] at hcount
  have hzero : again = 0 ↔ self.flElem.reduceOption.length ≤ 16 := by
    have hsmall := hs.small
    have hfull := hs.full
    omega
  rw [← hzero]
  constructor
  · rintro ⟨r', hr', hexact⟩
    obtain rfl := Option.some.inj (hr.symm.trans hr')
    have hlength := hexact.dropped.length_eq
    have hdropped := hs.dropped
    simp only [FlOp.range, List.drop_zero, Nat.sub_zero, List.take_length, List.length_append] at hlength
    omega
  · intro h
    obtain ⟨hdropped, htaken⟩ := hs.taken h
    rw [hempty, List.append_nil] at htaken
    refine ⟨_, hr, rfl, ?_, ?_⟩
    · simp [FlOp.values, FlOp.range]
    · simpa [FlOp.range, hdropped] using htaken

end Clear

/-- The operations do what they are asked for, and nothing else, when they start from the index they are given or have
nothing to do, and when what is cleared fits the buffer at once. -/
theorem flOp_exact_iff (self : FixedList α) (op : FlOp α) (hlen : op.Matching self) :
    Ends (op.run self) (op.Exact self) ↔ op.Direct self := by
  by_cases hop : op = .clear
  · subst hop
    exact (flClearImpl_exact_iff self).trans ⟨fun h => ⟨.inl le_rfl, fun _ => h⟩, fun h => h.2 rfl⟩
  constructor
  · rintro ⟨r, hr, -⟩
    refine ⟨?_, fun h => absurd h hop⟩
    by_contra hneither
    obtain ⟨hneg, hne⟩ := not_or.mp hneither
    rw [FlOp.run_negative hop hlen (not_le.mp hneg) hne] at hr
    cases hr
  · rintro ⟨hdirect, -⟩
    have hvalid := op.range_valid self
    rw [FlOp.run_range hop hlen hdirect]
    refine Ends.pure ⟨rfl, ?_, List.Perm.refl _⟩
    rw [FlRun.replaced, Nat.add_sub_cancel' hvalid.1]

theorem flOp_exact_iff_two : Ends (FlOp.run ⟨[some 7, none, some 9], by decide⟩ (.delrangeN ⟨1, by decide⟩))
      (FlOp.Exact (⟨[some 7, none, some 9], by decide⟩ : FixedList ℕ) (.delrangeN ⟨1, by decide⟩)) ↔
    FlOp.Direct (⟨[some 7, none, some 9], by decide⟩ : FixedList ℕ) (.delrangeN ⟨1, by decide⟩) :=
  flOp_exact_iff ⟨[some 7, none, some 9], by decide⟩ (.delrangeN ⟨1, by decide⟩) (by unfold FlOp.Matching; decide)

/-- `del fl[-1:]` of three bound slots writes behind the list, and clearing 17 slots drops 16 references twice. -/
theorem fixedList_fails :
    flDelrangeIndexN (⟨[some 7, some 8, some 9], by decide⟩ : FixedList ℕ) true (-1) = none ∧
    (flClearImpl (⟨(List.range 17).map some, by decide⟩ : FixedList ℕ)).map (·.dropped.count 3) = some 2 ∧
    ¬∀ (self : FixedList ℕ) (op : FlOp ℕ), op.Matching self → Ends (op.run self) (op.Exact self) := by
  refine ⟨by decide, by decide, fun hall => ?_⟩
  obtain ⟨r, hr, -⟩ := hall ⟨[some 7, some 8, some 9], by decide⟩ (.delrangeN ⟨-1, by decide⟩) (by unfold FlOp.Matching; decide)
  have hnone : flDelrangeIndexN (⟨[some 7, some 8, some 9], by decide⟩ : FixedList ℕ) true (-1) = none := by decide
  rw [FlOp.run, hnone] at hr
  cases hr

end Deemon.Collections
