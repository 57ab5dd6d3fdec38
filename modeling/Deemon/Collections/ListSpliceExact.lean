import Deemon.Collections.ListSplice
import Mathlib.Data.Nat.Log

/-!
# When a splice is exact

A section that replaces the range leaves prefix, items and suffix in the list and the removed elements in `delete_v`; any
other section leaves the list as it is. On the slow path, and where elements are only removed, this holds of every
section. On the fast path it depends on what the call finds: the trailing objects were shifted for as many items as were
announced (`AsVectorFits`), and the vector may have been replaced by a shorter one while `delete_v` was allocated
(`AsVectorRoom`).
-/

namespace Deemon.Collections

open Deemon.Run

/-! ### Ranges -/

/-- The functions that splice. -/
inductive IsSplice : SpliceRange → Prop where
  | setrangeIndex (start stop : ℤ) : IsSplice (listSetrangeIndex start stop)
  | setrangeIndexN (start : ℤ) : IsSplice (listSetrangeIndexN start)
  | insertSequence (index : ℕ) : IsSplice (deeListInsertSequence index)
  | appendSequence : IsSplice deeListAppendSequence

theorem IsSplice.range_valid {f : SpliceRange} (hf : IsSplice f) (size : ℕ) :
    (f.range size).1 ≤ (f.range size).2 ∧ (f.range size).2 ≤ size := by
  cases hf with
  | setrangeIndex start stop => exact seqRangeClamp_valid start stop size
  | setrangeIndexN start => exact ⟨seqRangeClampN_le start size, le_refl size⟩
  | insertSequence index =>
    simp only [deeListInsertSequence]
    split_ifs <;> omega
  | appendSequence => exact ⟨le_refl size, le_refl size⟩

/-- What is checked after `delete_v` was allocated is enough. -/
theorem IsSplice.range_unchanged {f : SpliceRange} (hf : IsSplice f) {size size' minElema itemsSizeFast : ℕ}
    (hne : (f.range size).1 < (f.range size).2)
    (h : f.unchanged (f.range size) minElema itemsSizeFast size' = true) : f.range size' = f.range size := by
  cases hf with
  | setrangeIndex start stop =>
    simp only [listSetrangeIndex, decide_eq_true_eq] at h
    exact h.1
  | setrangeIndexN start =>
    simp only [listSetrangeIndexN, decide_eq_true_eq] at h
    have hle := seqRangeClampN_le start size
    have hsize : size' = size := by omega
    rw [hsize]
  | insertSequence index =>
    simp only [deeListInsertSequence] at hne
    omega
  | appendSequence =>
    simp only [deeListAppendSequence] at hne
    omega

/-! ### Vectors -/

section Vectors

variable {α : Type} {β : Type} {l : List β} {d s n : ℕ}

/-- A move changes nothing before the place it goes to, and what it brings is followed by what was there. -/
theorem memmove_blocks (hs : s + n ≤ l.length) (hd : n = 0 ∨ d + n ≤ l.length) :
    ∃ b, memmove l d s n = some b ∧ b.length = l.length ∧ b.take d = l.take d ∧
      b.drop d = (l.drop s).take n ++ l.drop (d + n) := by
  unfold memmove
  split_ifs with h0 h
  · refine ⟨l, rfl, rfl, rfl, ?_⟩
    simp [h0]
  · have hlen : (l.take d).length = d := by simp; omega
    refine ⟨_, rfl, ?_, ?_, ?_⟩
    · simp
      omega
    · rw [List.append_assoc, List.take_append_of_le_length (by omega), List.take_take, min_self]
    · rw [List.append_assoc, List.drop_append_of_le_length (by omega), List.drop_of_length_le (by omega), List.nil_append]
  · omega

theorem memmove_self (h : s + n ≤ l.length) : memmove l s s n = some l := by
  unfold memmove
  split_ifs with h0
  · rfl
  · rw [← List.drop_drop, List.append_assoc, List.take_append_drop, List.take_append_drop]
  · omega

theorem memmove_out (h0 : n ≠ 0) (h : l.length < d + n) : memmove l d s n = none := by
  unfold memmove
  rw [if_neg h0, if_neg (by omega)]

theorem memcpy_in {v : List β} (h : d + v.length ≤ l.length) :
    memcpy l d v = some (l.take d ++ v ++ l.drop (d + v.length)) := if_pos h

theorem memcpy_out {v : List β} (h : l.length < d + v.length) : memcpy l d v = none := if_neg (by omega)

theorem memcpy_nil {c : List β} (h : memcpy l d [] = some c) : c = l := by
  unfold memcpy at h
  split_ifs at h
  cases h
  rw [List.append_nil, List.length_nil, Nat.add_zero, List.take_append_drop]

theorem take_append_congr {a b c : List β} {k : ℕ} (h : b.take (k - a.length) = c.take (k - a.length)) :
    (a ++ b).take k = (a ++ c).take k := by
  rw [List.take_append, List.take_append, h]

/-- The list has these elements. -/
structure Holds (me : ObjectList α) (xs : List α) : Prop where
  elemc : me.elemc = xs.length
  elems : me.elemv.take xs.length = xs.map some

variable {me : ObjectList α} {xs : List α}

theorem Holds.length_le (h : Holds me xs) : xs.length ≤ me.elemv.length := by
  have := congrArg List.length h.elems
  simp at this
  omega

theorem Holds.take_eq (h : Holds me xs) {s : ℕ} (hs : s ≤ xs.length) : me.elemv.take s = (xs.take s).map some := by
  have := congrArg (List.take s) h.elems
  rwa [List.take_take, min_eq_left hs, ← List.map_take] at this

theorem Holds.slice_eq (h : Holds me xs) {s n : ℕ} (hs : s + n ≤ xs.length) :
    (me.elemv.drop s).take n = ((xs.drop s).take n).map some := by
  have := congrArg (List.drop s) (h.take_eq hs)
  rw [← List.map_drop, List.drop_take, List.drop_take] at this
  simpa using this

theorem Holds.realloc (h : Holds me xs) (elema : ℕ) : Holds (me.realloc elema) xs := by
  refine ⟨h.elemc, ?_⟩
  rw [ObjectList.realloc, List.take_append_of_le_length h.length_le, h.elems]

/-- What slot `i` of a vector holds. -/
def slotAt (elemv : List (Option α)) (i : ℕ) : Option α := (elemv[i]?).join

theorem slotAt_realloc (me : ObjectList α) (elema i : ℕ) : slotAt (me.realloc elema).elemv i = slotAt me.elemv i := by
  unfold slotAt ObjectList.realloc
  rcases Nat.lt_or_ge i me.elemv.length with hi | hi
  · rw [List.getElem?_append_left hi]
  · rw [List.getElem?_append_right hi, List.getElem?_eq_none hi, List.getElem?_replicate]
    split_ifs <;> rfl

theorem slots_eq {elemv : List (Option α)} {a k : ℕ} (h : a + k ≤ elemv.length) :
    (elemv.drop a).take k = (List.range k).map fun i => slotAt elemv (a + i) := by
  apply List.ext_getElem
  · simp
    omega
  · intro i h1 h2
    simp only [List.length_map, List.length_range] at h2
    have hi : a + i < elemv.length := by omega
    simp [slotAt, hi]

end Vectors

/-! ### The call of `tp_asvector_nothrow` -/

section Calls

variable {α : Type}

/-- The documented answers to a vector of `dst_length` slots. -/
def AsVector.Valid (dstLength : ℕ) : AsVector α → Prop
  | .filled items => items.length ≤ dstLength
  | .tooShort itemsSize dst => dstLength < itemsSize ∧ itemsSize < 2 ^ 64 ∧ dst.length = dstLength

/-- The items that were returned. -/
def AsVector.items : AsVector α → List α
  | .filled items => items
  | .tooShort _ _ => []

/-- The slots that are written. -/
def AsVector.written : AsVector α → ℕ
  | .filled items => items.length
  | .tooShort _ dst => dst.length

/-- The elements that are removed, and those behind the range. -/
def removed (range : ℕ × ℕ) (xs : List α) : List α := (xs.drop range.1).take (range.2 - range.1)

def trailing (range : ℕ × ℕ) (xs : List α) : List α := xs.drop range.2

/-- The elements after a splice. -/
def splice (range : ℕ × ℕ) (items xs : List α) : List α := xs.take range.1 ++ items ++ trailing range xs

/-- What the shift of the trailing objects does not spoil: they were shifted by as many slots as items came, or the slots
in between happen to hold the same; if the vector was too short, the removed elements are still in place. -/
def AsVectorFits (itemsSizeFast : ℕ) (range : ℕ × ℕ) (elemv : List (Option α)) (xs : List α) : AsVector α → Prop
  | .filled items =>
    let unused := (List.range (itemsSizeFast - items.length)).map fun i => slotAt elemv (range.1 + items.length + i)
    (unused ++ (trailing range xs).map some).take (trailing range xs).length = (trailing range xs).map some
  | .tooShort _ dst =>
    (dst ++ (trailing range xs).map some ++
        ((removed range xs).drop (itemsSizeFast + (trailing range xs).length)).map some).take (range.2 - range.1) =
      (removed range xs).map some

/-- The vector is long enough. -/
def AsVectorRoom (itemsSizeFast : ℕ) (range : ℕ × ℕ) (elema : ℕ) (xs : List α) (asvector : AsVector α) : Prop :=
  (trailing range xs = [] ∨ range.1 + itemsSizeFast + (trailing range xs).length ≤ elema) ∧
    range.1 + asvector.written ≤ elema

/-- What a section may lead to. -/
def Outcome (range : ℕ × ℕ) (items xs : List α) (next : ObjectList α × SplicePlace α) : Prop :=
  match next.2 with
  | .done deleteV => Holds next.1 (splice range items xs) ∧ deleteV = (removed range xs).map some
  | _ => Holds next.1 xs

variable {me : ObjectList α} {xs : List α} {range : ℕ × ℕ} {itemsSizeFast : ℕ}

theorem length_trailing (hsize : range.2 ≤ xs.length) : range.2 + (trailing range xs).length = xs.length := by
  rw [trailing, List.length_drop]
  omega

theorem Holds.trailing_eq (h : Holds me xs) (hsize : range.2 ≤ xs.length) :
    (me.elemv.drop range.2).take (trailing range xs).length = (trailing range xs).map some := by
  rw [h.slice_eq (length_trailing hsize).le, ← trailing, List.take_length]

theorem Holds.removed_eq (h : Holds me xs) (hr : range.1 ≤ range.2) (hsize : range.2 ≤ xs.length) :
    (me.elemv.drop range.1).take (range.2 - range.1) = (removed range xs).map some :=
  h.slice_eq (by omega)

theorem elems_eq (xs : List α) (hr : range.1 ≤ range.2) :
    xs.take range.1 ++ removed range xs ++ trailing range xs = xs := by
  rw [removed, trailing, ← List.take_add, Nat.add_sub_cancel' hr, List.take_append_drop]

section Vector

variable (h : Holds me xs) (hr : range.1 ≤ range.2) (hsize : range.2 ≤ xs.length)
include h hr hsize

/-- Where the trailing objects are after the shift. -/
theorem shift_blocks (hroom : trailing range xs = [] ∨ range.1 + itemsSizeFast + (trailing range xs).length ≤ me.elemv.length) :
    ∃ b, (if range.2 - range.1 ≠ itemsSizeFast then
        memmove me.elemv (range.1 + itemsSizeFast) range.2 (me.elemc - range.2) else some me.elemv) = some b ∧
      b.length = me.elemv.length ∧ b.take (range.1 + itemsSizeFast) = me.elemv.take (range.1 + itemsSizeFast) ∧
      b.drop (range.1 + itemsSizeFast) = (trailing range xs).map some ++
        me.elemv.drop (range.1 + itemsSizeFast + (trailing range xs).length) := by
  have hlen := length_trailing hsize
  have hle := h.length_le
  have hn : me.elemc - range.2 = (trailing range xs).length := by
    rw [h.elemc]
    omega
  have hmove : (if range.2 - range.1 ≠ itemsSizeFast then
        memmove me.elemv (range.1 + itemsSizeFast) range.2 (me.elemc - range.2) else some me.elemv) =
      memmove me.elemv (range.1 + itemsSizeFast) range.2 (trailing range xs).length := by
    split_ifs with hne
    · rw [hn]
    · rw [show range.1 + itemsSizeFast = range.2 by omega, memmove_self (by omega)]
  rw [hmove, ← h.trailing_eq hsize]
  exact memmove_blocks (by omega) (hroom.imp_left fun h0 => by rw [h0, List.length_nil])

theorem asVectorSection_filled {items : List α}
    (hitems : items.length ≤ itemsSizeFast) (hroom : AsVectorRoom itemsSizeFast range me.elemv.length xs (.filled items)) :
    ∃ next, asVectorSection itemsSizeFast range (.filled items) me = some next ∧
      (Outcome range items xs next ↔ AsVectorFits itemsSizeFast range me.elemv xs (.filled items)) := by
  obtain ⟨b, hb, hblen, htake, hdrop⟩ := shift_blocks h hr hsize hroom.1
  have hlen := length_trailing hsize
  have hle := h.length_le
  have hcopy : range.1 + (items.map some).length ≤ b.length := by
    rw [List.length_map, hblen]
    exact hroom.2
  have hpre : b.take range.1 = (xs.take range.1).map some := by
    have := congrArg (List.take range.1) htake
    rw [List.take_take, List.take_take, min_eq_left (by omega)] at this
    rw [this, h.take_eq (by omega)]
  have hpost : (b.drop (range.1 + items.length)).take (trailing range xs).length =
      (((List.range (itemsSizeFast - items.length)).map fun i => slotAt me.elemv (range.1 + items.length + i)) ++
        (trailing range xs).map some).take (trailing range xs).length := by
    rcases hroom.1 with h0 | h0
    · simp [h0]
    · rw [← slots_eq (by omega), ← List.take_append_drop (range.1 + itemsSizeFast) b, htake, hdrop,
        List.drop_append_of_le_length (by simp; omega), List.drop_take, ← List.append_assoc,
        List.take_append_of_le_length (by simp), show range.1 + itemsSizeFast - (range.1 + items.length) =
          itemsSizeFast - items.length by omega]
  have hsplice : (splice range items xs).length = range.1 + items.length + (trailing range xs).length := by
    simp [splice]
    omega
  have hcells : (b.take range.1 ++ items.map some ++ b.drop (range.1 + items.length)).take (splice range items xs).length =
      (xs.take range.1 ++ items).map some ++ (b.drop (range.1 + items.length)).take (trailing range xs).length := by
    have hfront : (b.take range.1 ++ items.map some).length = range.1 + items.length := by
      simp
      omega
    rw [hsplice, ← hfront, List.take_length_add_append, hpre, List.map_append]
  unfold asVectorSection
  dsimp only
  rw [hb]
  simp only [some_bind, memcpy_in hcopy, List.length_map]
  refine ⟨_, rfl, ?_⟩
  have hdelete := h.removed_eq hr hsize
  unfold Outcome AsVectorFits
  dsimp only
  rw [← hpost]
  constructor
  · rintro ⟨hnew, _⟩
    have := hnew.elems
    rw [hcells, splice, @List.map_append _ _ _ _ (trailing range xs)] at this
    exact List.append_cancel_left this
  · intro hfit
    refine ⟨⟨?_, ?_⟩, hdelete⟩
    · rw [hsplice, h.elemc]
      simp only
      omega
    · rw [hcells, hfit, ← List.map_append]
      rfl

theorem asVectorSection_tooShort {itemsSize : ℕ} {dst : List (Option α)} (hdst : dst.length = itemsSizeFast)
    (hroom : AsVectorRoom itemsSizeFast range me.elemv.length xs (.tooShort itemsSize dst)) :
    ∃ next, asVectorSection itemsSizeFast range (.tooShort itemsSize dst) me = some next ∧
      (Outcome range [] xs next ↔ AsVectorFits itemsSizeFast range me.elemv xs (.tooShort itemsSize dst)) := by
  obtain ⟨b, hb, hblen, htake, hdrop⟩ := shift_blocks h hr hsize hroom.1
  have hlen := length_trailing hsize
  have hle := h.length_le
  have hwritten : range.1 + itemsSizeFast ≤ b.length := by
    rw [hblen, ← hdst]
    exact hroom.2
  have hcopy : range.1 + dst.length ≤ b.length := by rwa [hdst]
  have hn : me.elemc - range.2 = (trailing range xs).length := by
    rw [h.elemc]
    omega
  have hpre : b.take range.1 = (xs.take range.1).map some := by
    have := congrArg (List.take range.1) htake
    rw [List.take_take, List.take_take, min_eq_left (by omega)] at this
    rw [this, h.take_eq (by omega)]
  generalize hc : b.take range.1 ++ dst ++ b.drop (range.1 + itemsSizeFast) = c
  have hfront : (b.take range.1 ++ dst).length = range.1 + itemsSizeFast := by
    simp
    omega
  have hcdrop : c.drop (range.1 + itemsSizeFast) = b.drop (range.1 + itemsSizeFast) := by
    rw [← hc, List.drop_append_of_le_length (by omega), List.drop_of_length_le (by omega), List.nil_append]
  have hclen : c.length = me.elemv.length := by
    rw [← hc, List.length_append, hfront, List.length_drop]
    omega
  have hctrail : (c.drop (range.1 + itemsSizeFast)).take (trailing range xs).length = (trailing range xs).map some := by
    rw [hcdrop, hdrop, List.take_append_of_le_length (by simp), List.take_of_length_le (by simp)]
  have hcroom : range.1 + itemsSizeFast + (trailing range xs).length ≤ c.length := by
    rcases hroom.1 with h0 | h0
    · rw [h0, hclen, ← hblen]
      exact hwritten
    · rwa [hclen]
  -- the trailing objects are moved back
  obtain ⟨d, hd, hdlen, hdtake, hddrop⟩ : ∃ d, (if range.2 - range.1 ≠ itemsSizeFast then
      memmove c range.2 (range.1 + itemsSizeFast) (me.elemc - range.2) else some c) = some d ∧ d.length = c.length ∧
      d.take range.2 = c.take range.2 ∧ d.drop range.2 = (trailing range xs).map some ++ c.drop xs.length := by
    have hmove : (if range.2 - range.1 ≠ itemsSizeFast then
        memmove c range.2 (range.1 + itemsSizeFast) (me.elemc - range.2) else some c) =
        memmove c range.2 (range.1 + itemsSizeFast) (trailing range xs).length := by
      split_ifs with hne
      · rw [hn]
      · rw [show range.1 + itemsSizeFast = range.2 by omega, memmove_self (by omega)]
    rw [hmove, ← hctrail, ← hlen]
    exact memmove_blocks hcroom (.inr (by omega))
  have hmiddle : c.take range.2 = (xs.take range.1).map some ++ (dst ++ (trailing range xs).map some ++
      ((removed range xs).drop (itemsSizeFast + (trailing range xs).length)).map some).take (range.2 - range.1) := by
    have hkept := congrArg (List.drop (itemsSizeFast + (trailing range xs).length)) (h.removed_eq hr hsize)
    rw [List.drop_take, List.drop_drop, ← List.map_drop, ← Nat.add_assoc] at hkept
    have hfirst : (dst ++ (trailing range xs).map some).length = itemsSizeFast + (trailing range xs).length := by
      rw [List.length_append, hdst, List.length_map]
    have hstale : (me.elemv.drop (range.1 + itemsSizeFast + (trailing range xs).length)).take
          (range.2 - range.1 - (dst ++ (trailing range xs).map some).length) =
        (((removed range xs).drop (itemsSizeFast + (trailing range xs).length)).map some).take
          (range.2 - range.1 - (dst ++ (trailing range xs).map some).length) := by
      rw [hfirst, hkept, List.take_of_length_le]
      simp [removed]
      omega
    rw [← take_append_congr hstale, ← hc, hpre, hdrop, List.append_assoc, List.take_append, List.length_map,
      List.length_take, min_eq_left (by omega), List.take_of_length_le (by simp; omega), List.append_assoc]
  have hcells : d.take xs.length = (xs.take range.1).map some ++ (dst ++ (trailing range xs).map some ++
      ((removed range xs).drop (itemsSizeFast + (trailing range xs).length)).map some).take (range.2 - range.1) ++
      (trailing range xs).map some := by
    rw [← hmiddle, ← hdtake, ← hlen, List.take_add, hddrop, List.take_append_of_le_length (by simp),
      List.take_of_length_le (l := List.map some _) (by simp)]
  have hxs : xs.map some = (xs.take range.1).map some ++ (removed range xs).map some ++ (trailing range xs).map some := by
    rw [← List.map_append, ← List.map_append, elems_eq xs hr]
  unfold asVectorSection
  dsimp only
  rw [hb]
  simp only [some_bind, memcpy_in hcopy]
  rw [hdst, hc, hd]
  simp only [some_bind]
  refine ⟨_, rfl, ?_⟩
  unfold Outcome AsVectorFits
  dsimp only
  constructor
  · intro hnew
    have := hnew.elems
    rw [hcells, hxs] at this
    exact List.append_cancel_left (List.append_cancel_right this)
  · intro hfit
    refine ⟨h.elemc, ?_⟩
    rw [hcells, hfit, hxs]

theorem asVectorSection_none {asvector : AsVector α} (hroom : ¬ AsVectorRoom itemsSizeFast range me.elemv.length xs asvector) :
    asVectorSection itemsSizeFast range asvector me = none := by
  have hlen := length_trailing hsize
  have hle := h.length_le
  have hn : me.elemc - range.2 = (trailing range xs).length := by
    rw [h.elemc]
    omega
  unfold asVectorSection
  dsimp only
  by_cases hshift : trailing range xs = [] ∨ range.1 + itemsSizeFast + (trailing range xs).length ≤ me.elemv.length
  · obtain ⟨b, hb, hblen, -, -⟩ := shift_blocks h hr hsize hshift
    have hwritten : b.length < range.1 + asvector.written := by
      rw [hblen]
      by_contra hlt
      exact hroom ⟨hshift, by omega⟩
    rw [hb]
    cases asvector with
    | filled items =>
      simp only [some_bind]
      rw [memcpy_out (by rwa [List.length_map])]
      rfl
    | tooShort itemsSize dst =>
      simp only [some_bind]
      rw [memcpy_out hwritten]
      rfl
  · rw [not_or, ← List.length_eq_zero_iff] at hshift
    rw [if_pos (by omega), hn, memmove_out hshift.1 (by omega)]
    rfl

/-- When the section that ends in the call is right. -/
theorem asVectorSection_right {asvector : AsVector α} (hvalid : asvector.Valid itemsSizeFast) :
    (∃ next, asVectorSection itemsSizeFast range asvector me = some next ∧ Outcome range asvector.items xs next) ↔
      AsVectorRoom itemsSizeFast range me.elemv.length xs asvector ∧
        AsVectorFits itemsSizeFast range me.elemv xs asvector := by
  by_cases hroom : AsVectorRoom itemsSizeFast range me.elemv.length xs asvector
  · obtain ⟨next, hnext, hiff⟩ : ∃ next, asVectorSection itemsSizeFast range asvector me = some next ∧
        (Outcome range asvector.items xs next ↔ AsVectorFits itemsSizeFast range me.elemv xs asvector) := by
      cases asvector with
      | filled items => exact asVectorSection_filled h hr hsize hvalid hroom
      | tooShort itemsSize dst => exact asVectorSection_tooShort h hr hsize hvalid.2.2 hroom
    constructor
    · rintro ⟨next', hnext', hout⟩
      rw [hnext, Option.some.injEq] at hnext'
      exact ⟨hroom, hiff.mp (hnext' ▸ hout)⟩
    · rintro ⟨-, hfits⟩
      exact ⟨next, hnext, hiff.mpr hfits⟩
  · rw [asVectorSection_none h hr hsize hroom]
    constructor
    · rintro ⟨next, hnext, -⟩
      cases hnext
    · rintro ⟨hroom', -⟩
      exact absurd hroom' hroom

end Vector

end Calls

/-! ### More memory -/

section Growth

/-- Doubling the allocation gets to a size, in `size_t`. -/
def Doubles (elema minElema : ℕ) : Prop := ∃ k, minElema ≤ max elema 8 * 2 ^ (k + 1) % 2 ^ 64

/-- A round of `moreAlloc`. -/
theorem doubling_succ (minElema fuel newElema : ℕ) :
    loop (fun newElema =>
      let newElema := newElema * 2 % 2 ^ 64
      some (if newElema < minElema then .next newElema else .done newElema)) (fuel + 1) newElema =
    if newElema * 2 % 2 ^ 64 < minElema then
      loop (fun newElema =>
        let newElema := newElema * 2 % 2 ^ 64
        some (if newElema < minElema then .next newElema else .done newElema)) fuel (newElema * 2 % 2 ^ 64)
    else some (newElema * 2 % 2 ^ 64) := by
  rw [loop]
  dsimp only
  rw [some_bind]
  split_ifs <;> rfl

theorem moreAlloc_ge {elema minElema n : ℕ} (h : moreAlloc elema minElema = some n) : minElema ≤ n := by
  unfold moreAlloc at h
  generalize 65 = fuel at h
  generalize max elema 8 = e at h
  induction fuel generalizing e with
  | zero => cases h
  | succ fuel ih =>
    rw [doubling_succ] at h
    split_ifs at h with hlt
    · exact ih _ h
    · cases h
      omega

theorem doubling_isSome (minElema fuel e : ℕ) :
    (loop (fun newElema =>
      let newElema := newElema * 2 % 2 ^ 64
      some (if newElema < minElema then .next newElema else .done newElema)) fuel e).isSome ↔
      ∃ k < fuel, minElema ≤ e * 2 ^ (k + 1) % 2 ^ 64 := by
  induction fuel generalizing e with
  | zero => simp [loop]
  | succ fuel ih =>
    have hshift : ∀ k, e * 2 % 2 ^ 64 * 2 ^ (k + 1) % 2 ^ 64 = e * 2 ^ (k + 1 + 1) % 2 ^ 64 := by
      intro k
      rw [Nat.mod_mul_mod, Nat.mul_assoc, ← Nat.pow_succ']
    rw [doubling_succ]
    split_ifs with hlt
    · rw [ih]
      constructor
      · rintro ⟨k, hk, hmin⟩
        exact ⟨k + 1, by omega, by rwa [hshift] at hmin⟩
      · rintro ⟨k, hk, hmin⟩
        cases k with
        | zero =>
          rw [Nat.zero_add, Nat.pow_one] at hmin
          omega
        | succ k => exact ⟨k, by omega, by rwa [hshift]⟩
    · simp only [Option.isSome_some, true_iff]
      exact ⟨0, by omega, by rw [Nat.zero_add, Nat.pow_one]; omega⟩

theorem moreAlloc_isSome {elema minElema : ℕ} : (moreAlloc elema minElema).isSome ↔ Doubles elema minElema := by
  rw [moreAlloc, doubling_isSome]
  constructor
  · rintro ⟨k, -, hmin⟩
    exact ⟨k, hmin⟩
  · rintro ⟨k, hmin⟩
    rcases Nat.lt_or_ge k 65 with hk | hk
    · exact ⟨k, hk, hmin⟩
    · -- nothing is left after that many doublings
      have hzero : max elema 8 * 2 ^ (k + 1) % 2 ^ 64 = 0 := by
        rw [show k + 1 = (k - 63) + 64 by omega, Nat.pow_add, ← Nat.mul_assoc, Nat.mul_mod_left]
      exact ⟨0, by omega, by omega⟩

/-- What fits in memory is reached. -/
theorem doubles_of_le {elema minElema : ℕ} (helema : elema < 2 ^ 63) (hmin : minElema ≤ 2 ^ 63) : Doubles elema minElema := by
  generalize he : max elema 8 = e
  have hpos : e ≠ 0 := by omega
  have hlo := Nat.pow_log_le_self 2 hpos
  have hhi := Nat.lt_pow_succ_log_self Nat.one_lt_two e
  have hlog : Nat.log 2 e < 63 := Nat.log_lt_of_lt_pow hpos (by omega)
  refine ⟨62 - Nat.log 2 e, ?_⟩
  have hge : 2 ^ 63 ≤ e * 2 ^ (62 - Nat.log 2 e + 1) := by
    calc 2 ^ 63 = 2 ^ Nat.log 2 e * 2 ^ (62 - Nat.log 2 e + 1) := by
          rw [← Nat.pow_add]
          congr 1
          omega
      _ ≤ _ := Nat.mul_le_mul_right _ hlo
  have hlt : e * 2 ^ (62 - Nat.log 2 e + 1) < 2 ^ 64 := by
    calc e * 2 ^ (62 - Nat.log 2 e + 1) < 2 ^ (Nat.log 2 e + 1) * 2 ^ (62 - Nat.log 2 e + 1) :=
          Nat.mul_lt_mul_of_pos_right hhi (Nat.two_pow_pos _)
      _ = 2 ^ 64 := by
          rw [← Nat.pow_add]
          congr 1
          omega
  rw [he, Nat.mod_eq_of_lt hlt]
  omega

end Growth

/-! ### Sections -/

section Sections

variable {α : Type}

/-- What a call knows where it is. -/
def SplicePlace.Valid (f : SpliceRange) : SplicePlace α → Prop
  | .newDelete _ range _ _ => range.1 < range.2 ∧ ∃ size, range = f.range size
  | .again insertV => insertV.length * 8 < 2 ^ 64
  | _ => True

/-- The items of a section that replaces the range. -/
def SplicePlace.items (answers : Answers α) : SplicePlace α → List α
  | .againAsVector _ | .newDelete _ _ _ _ => answers.asvector.items
  | .again insertV => insertV
  | _ => []

/-- The call of `tp_asvector_nothrow` in a section does what it is documented to do. -/
def SplicePlace.Obeys (answers : Answers α) : SplicePlace α → Prop
  | .againAsVector itemsSizeFast | .newDelete itemsSizeFast _ _ _ => answers.asvector.Valid itemsSizeFast
  | _ => True

/-- Whether the call is made, with memory for the vector and for `delete_v`. -/
def Answers.Calls (answers : Answers α) (elema minElema deleteC : ℕ) : Prop :=
  (minElema ≤ elema ∨ answers.tryrealloc.isSome ∨ answers.tryreallocMin.isSome) ∧
    (deleteC = 0 ∨ answers.tryMallocDelete = true)

/-- The section does what it should: it ends, and either replaces the range or leaves the list as it is. -/
def SectionRight (f : SpliceRange) (answers : Answers α) (me : ObjectList α) (xs : List α) (place : SplicePlace α) : Prop :=
  ∃ next, spliceSection f answers me place = some next ∧ Outcome (f.range xs.length) (place.items answers) xs next

/-- When it does. -/
def SectionFits (f : SpliceRange) (answers : Answers α) (me : ObjectList α) (xs : List α) : SplicePlace α → Prop
  | .againAsVector itemsSizeFast =>
    let range := f.range xs.length
    let minElema := xs.length - (range.2 - range.1) + itemsSizeFast
    minElema < 2 ^ 64 →
      (me.elemv.length < minElema → Doubles me.elemv.length minElema) ∧
        (answers.Calls me.elemv.length minElema (range.2 - range.1) →
          AsVectorFits itemsSizeFast range me.elemv xs answers.asvector)
  | .newDelete itemsSizeFast range curElema minElema =>
    f.unchanged range minElema itemsSizeFast xs.length = true ∧ curElema = me.elemv.length →
      AsVectorRoom itemsSizeFast range me.elemv.length xs answers.asvector ∧
        AsVectorFits itemsSizeFast range me.elemv xs answers.asvector
  | _ => True

variable {f : SpliceRange} {me : ObjectList α} {xs : List α} {answers : Answers α} {range : ℕ × ℕ}
  {itemsSizeFast curElema minElema : ℕ}

theorem deleteSection_right (h : Holds me xs) (hr : range.1 ≤ range.2) (hsize : range.2 ≤ xs.length)
    (hvalid : answers.asvector.Valid itemsSizeFast)
    (hlong : xs.length - (range.2 - range.1) + itemsSizeFast ≤ me.elemv.length) :
    (∃ next, deleteSection itemsSizeFast range curElema minElema answers me = some next ∧
        Outcome range answers.asvector.items xs next) ↔
      (range.2 - range.1 = 0 ∨ answers.tryMallocDelete = true →
        AsVectorFits itemsSizeFast range me.elemv xs answers.asvector) := by
  have hlen := length_trailing hsize
  have hroom : AsVectorRoom itemsSizeFast range me.elemv.length xs answers.asvector := by
    refine ⟨.inr (by omega), ?_⟩
    have : answers.asvector.written ≤ itemsSizeFast := by
      cases hanswer : answers.asvector with
      | filled items => rwa [hanswer] at hvalid
      | tooShort itemsSize dst =>
        rw [hanswer] at hvalid
        exact hvalid.2.2.le
    omega
  unfold deleteSection
  by_cases hno : 0 < range.2 - range.1 ∧ answers.tryMallocDelete = false
  · rw [if_pos hno]
    have hfalse : ¬ (range.2 - range.1 = 0 ∨ answers.tryMallocDelete = true) := by
      rw [hno.2]
      simp only [Bool.false_eq_true, or_false]
      omega
    refine iff_of_true ?_ fun hcall => absurd hcall hfalse
    split_ifs
    · exact ⟨_, rfl, h⟩
    · exact ⟨_, rfl, h⟩
  · have hcall : range.2 - range.1 = 0 ∨ answers.tryMallocDelete = true := by
      rcases Nat.eq_zero_or_pos (range.2 - range.1) with h0 | h0
      · exact .inl h0
      · exact .inr (by simpa [h0] using hno)
    rw [if_neg hno, asVectorSection_right h hr hsize hvalid]
    exact ⟨fun hfit _ => hfit.2, fun hfit => ⟨hroom, hfit hcall⟩⟩

theorem asVectorFits_realloc (me : ObjectList α) (elema : ℕ) {asvector : AsVector α} :
    AsVectorFits itemsSizeFast range (me.realloc elema).elemv xs asvector ↔
      AsVectorFits itemsSizeFast range me.elemv xs asvector := by
  cases asvector with
  | filled items => simp only [AsVectorFits, slotAt_realloc]
  | tooShort itemsSize dst => exact Iff.rfl

theorem length_realloc (me : ObjectList α) (elema : ℕ) : elema ≤ (me.realloc elema).elemv.length := by
  simp [ObjectList.realloc]
  omega

theorem fastSection_right (hf : IsSplice f) (h : Holds me xs) (hvalid : answers.asvector.Valid itemsSizeFast) :
    SectionRight f answers me xs (.againAsVector itemsSizeFast) ↔
      SectionFits f answers me xs (.againAsVector itemsSizeFast) := by
  obtain ⟨hr, hsize⟩ := hf.range_valid xs.length
  unfold SectionRight SectionFits spliceSection fastSection SplicePlace.items Answers.Calls
  dsimp only
  rw [h.elemc]
  generalize f.range xs.length = range at hr hsize
  generalize hmin : xs.length - (range.2 - range.1) + itemsSizeFast = minElema
  split_ifs with hbig hgrow
  · refine iff_of_true ⟨_, rfl, h⟩ fun hlt => ?_
    omega
  · have hlt : minElema < 2 ^ 64 := by omega
    have hle : ¬ minElema ≤ me.elemv.length := by omega
    simp only [hlt, hgrow, hle, true_imp_iff, false_or]
    rw [← moreAlloc_isSome]
    cases hmore : moreAlloc me.elemv.length minElema with
    | none => simp
    | some newElema =>
      have hge := moreAlloc_ge hmore
      simp only [some_bind, Option.isSome_some, true_and]
      cases answers.tryrealloc with
      | some slack =>
        have hlong := length_realloc me (newElema + slack)
        simp only [Option.isSome_some, true_or, true_and]
        rw [deleteSection_right (h.realloc _) hr hsize hvalid (by omega), asVectorFits_realloc]
      | none =>
        cases answers.tryreallocMin with
        | some slack =>
          have hlong := length_realloc me (minElema + slack)
          simp only [Option.isSome_some, Option.isSome_none, or_true, true_and]
          rw [deleteSection_right (h.realloc _) hr hsize hvalid (by omega), asVectorFits_realloc]
        | none =>
          refine iff_of_true ?_ (by simp)
          cases answers.malloc with
          | some slack => exact ⟨_, rfl, h⟩
          | none => exact ⟨_, rfl, h⟩
  · have hlt : minElema < 2 ^ 64 := by omega
    have hle : minElema ≤ me.elemv.length := by omega
    simp only [hlt, hgrow, hle, true_imp_iff, false_imp_iff, true_and, true_or]
    exact deleteSection_right h hr hsize hvalid (by omega)

theorem newVectorSection_right (h : Holds me xs) (newElema usable : ℕ) :
    SectionRight f answers me xs (.newVector itemsSizeFast newElema usable) := by
  have hle := h.length_le
  unfold SectionRight spliceSection newVectorSection
  dsimp only
  split_ifs with hlt
  · refine ⟨_, rfl, h.elemc, ?_⟩
    rw [h.elemc, List.take_append_of_le_length (by simp; omega), List.take_take, min_self, h.elems]
  · exact ⟨_, rfl, h⟩

theorem newDeleteSection_right (hf : IsSplice f) (h : Holds me xs) (hvalid : answers.asvector.Valid itemsSizeFast)
    (hplace : (SplicePlace.newDelete itemsSizeFast range curElema minElema : SplicePlace α).Valid f) :
    SectionRight f answers me xs (.newDelete itemsSizeFast range curElema minElema) ↔
      SectionFits f answers me xs (.newDelete itemsSizeFast range curElema minElema) := by
  obtain ⟨hlt, size, rfl⟩ := hplace
  unfold SectionRight SectionFits spliceSection newDeleteSection SplicePlace.items
  dsimp only
  rw [h.elemc]
  split_ifs with hsame
  · have hrange := hf.range_unchanged hlt hsame.1
    obtain ⟨hr, hsize⟩ := hf.range_valid xs.length
    rw [hrange] at hr hsize ⊢
    rw [asVectorSection_right h hr hsize hvalid]
    exact ⟨fun hfit _ => hfit, fun hfit => hfit hsame⟩
  · exact iff_of_true ⟨_, rfl, h⟩ fun hsame' => absurd hsame' hsame

/-- The items are written where the trailing objects have made room for them. -/
theorem write_blocks (h : Holds me xs) (hr : range.1 ≤ range.2) (hsize : range.2 ≤ xs.length) {items : List α}
    (hlong : xs.length - (range.2 - range.1) + items.length ≤ me.elemv.length) :
    ∃ b, memmove me.elemv (range.1 + items.length) range.2 (xs.length - range.2) = some b ∧
      ∃ c, memcpy b range.1 (items.map some) = some c ∧
        c.take (splice range items xs).length = (splice range items xs).map some := by
  have hlen := length_trailing hsize
  have hle := h.length_le
  have hn : xs.length - range.2 = (trailing range xs).length := by omega
  obtain ⟨b, hb, hblen, htake, hdrop⟩ := memmove_blocks (l := me.elemv) (d := range.1 + items.length) (s := range.2)
    (n := (trailing range xs).length) (by omega) (.inr (by omega))
  refine ⟨b, by rw [hn, hb], _, memcpy_in (by rw [List.length_map]; omega), ?_⟩
  have hpre : b.take range.1 = (xs.take range.1).map some := by
    have := congrArg (List.take range.1) htake
    rw [List.take_take, List.take_take, min_eq_left (by omega)] at this
    rw [this, h.take_eq (by omega)]
  have hsplice : (splice range items xs).length =
      ((xs.take range.1).map some ++ items.map some).length + (trailing range xs).length := by
    simp [splice, Nat.add_assoc]
  rw [hsplice, List.length_map, hpre, List.take_length_add_append, hdrop, h.trailing_eq hsize,
    List.take_append_of_le_length (by simp), List.take_of_length_le (l := (trailing range xs).map some) (by simp),
    ← List.map_append, ← List.map_append]
  rfl

theorem writeSection_right (h : Holds me xs) (hr : range.1 ≤ range.2) (hsize : range.2 ≤ xs.length) {insertV : List α}
    (hlong : xs.length - (range.2 - range.1) + insertV.length ≤ me.elemv.length) :
    ∃ next, writeSection range insertV answers me = some next ∧ Outcome range insertV xs next := by
  obtain ⟨b, hb, c, hc, hcells⟩ := write_blocks h hr hsize hlong
  have hlen := length_trailing hsize
  have hsplice : (splice range insertV xs).length = range.1 + insertV.length + (trailing range xs).length := by
    simp [splice]
    omega
  unfold writeSection
  dsimp only
  rw [h.elemc]
  split_ifs with h0 hno hcollect hmove
  · rw [show range.2 = range.1 by omega] at hb
    rw [hb, some_bind, hc, some_bind]
    refine ⟨_, rfl, ⟨?_, hcells⟩, ?_⟩
    · simp only
      omega
    · rw [removed, h0, List.take_zero, List.map_nil]
  · exact ⟨_, rfl, h⟩
  · exact ⟨_, rfl, h⟩
  · rw [hb, some_bind, hc, some_bind]
    refine ⟨_, rfl, ⟨?_, hcells⟩, h.removed_eq hr hsize⟩
    simp only
    omega
  · have hself := memmove_self (l := me.elemv) (s := range.2) (n := xs.length - range.2)
      (by have := h.length_le; omega)
    rw [show range.1 + insertV.length = range.2 by omega, hself, Option.some.injEq] at hb
    subst hb
    rw [some_bind, hc, some_bind]
    refine ⟨_, rfl, ⟨?_, hcells⟩, h.removed_eq hr hsize⟩
    simp only
    omega

theorem slowSection_right (hf : IsSplice f) (h : Holds me xs) (hfits : me.elemv.length * 8 < 2 ^ 64) {insertV : List α}
    (hvalid : insertV.length * 8 < 2 ^ 64) : SectionRight f answers me xs (.again insertV) := by
  obtain ⟨hr, hsize⟩ := hf.range_valid xs.length
  have hle := h.length_le
  unfold SectionRight spliceSection slowSection SplicePlace.items
  dsimp only
  rw [h.elemc]
  generalize f.range xs.length = range at hr hsize
  by_cases hall : range.2 - range.1 = xs.length
  · -- the vectors are swapped
    have h1 : range.1 = 0 := by omega
    have h2 : range.2 = xs.length := by omega
    have hsplice : splice range insertV xs = insertV := by simp [splice, trailing, h1, h2]
    rw [if_pos hall]
    refine ⟨_, rfl, ?_⟩
    unfold Outcome
    dsimp only
    rw [hsplice]
    refine ⟨⟨rfl, ?_⟩, ?_⟩
    · rw [List.take_append_of_le_length (by simp), List.take_of_length_le (by simp)]
    · rw [h.elems, removed, h1, h2, List.drop_zero, Nat.sub_zero, List.take_length]
  rw [if_neg hall]
  by_cases hgrow : range.2 - range.1 < insertV.length ∧ me.elemv.length < xs.length - (range.2 - range.1) + insertV.length
  · obtain ⟨newElema, hmore⟩ := Option.isSome_iff_exists.mp (moreAlloc_isSome.mpr
      (@doubles_of_le me.elemv.length (xs.length - (range.2 - range.1) + insertV.length) (by omega) (by omega)))
    have hge := moreAlloc_ge hmore
    rw [if_pos hgrow, hmore, some_bind]
    cases answers.tryrealloc with
    | some slack =>
      have hlong := length_realloc me (newElema + slack)
      exact writeSection_right (h.realloc _) hr hsize (by omega)
    | none =>
      cases answers.tryreallocMin with
      | some slack =>
        have hlong := length_realloc me (xs.length - (range.2 - range.1) + insertV.length + slack)
        exact writeSection_right (h.realloc _) hr hsize (by omega)
      | none =>
        dsimp only
        split_ifs
        · exact ⟨_, rfl, h⟩
        · exact ⟨_, rfl, h⟩
  · rw [if_neg hgrow]
    exact writeSection_right h hr hsize (by omega)

theorem delrangeSection_right (hf : IsSplice f) (h : Holds me xs) : SectionRight f answers me xs .delrange := by
  obtain ⟨hr, hsize⟩ := hf.range_valid xs.length
  have hle := h.length_le
  unfold SectionRight spliceSection delrangeSection SplicePlace.items
  dsimp only
  rw [h.elemc]
  generalize f.range xs.length = range at hr hsize
  split_ifs with h0 hno hcollect
  · have hsplice : splice range [] xs = xs := by
      rw [splice, trailing, show range.2 = range.1 by omega, List.append_nil, List.take_append_drop]
    refine ⟨_, rfl, ?_⟩
    unfold Outcome
    dsimp only
    rw [hsplice]
    exact ⟨h, by rw [removed, h0, List.take_zero, List.map_nil]⟩
  · exact ⟨_, rfl, h⟩
  · exact ⟨_, rfl, h⟩
  · obtain ⟨b, hb, c, hc, hcells⟩ := write_blocks h hr hsize (show xs.length - (range.2 - range.1) + ([] : List _).length ≤ _ by simp; omega)
    rw [List.length_nil, Nat.add_zero] at hb
    rw [memcpy_nil hc] at hcells
    rw [hb, some_bind]
    refine ⟨_, rfl, ⟨?_, hcells⟩, h.removed_eq hr hsize⟩
    have hlen := length_trailing hsize
    simp [splice]
    omega

theorem asVectorSection_valid {asvector : AsVector α} {next : ObjectList α × SplicePlace α}
    (h : asVectorSection itemsSizeFast range asvector me = some next) : next.2.Valid f := by
  unfold asVectorSection at h
  cases asvector with
  | filled items =>
    simp only [Option.bind_eq_bind, Option.bind_eq_some_iff, Option.some.injEq] at h
    obtain ⟨_, _, _, _, rfl⟩ := h
    exact trivial
  | tooShort itemsSize dst =>
    simp only [Option.bind_eq_bind, Option.bind_eq_some_iff, Option.some.injEq] at h
    obtain ⟨_, _, _, _, _, _, rfl⟩ := h
    exact trivial

theorem deleteSection_valid {next : ObjectList α × SplicePlace α} {size : ℕ} (hrange : range = f.range size)
    (h : deleteSection itemsSizeFast range curElema minElema answers me = some next) : next.2.Valid f := by
  unfold deleteSection at h
  split_ifs at h with hno
  · cases h
    exact ⟨by omega, size, hrange⟩
  · cases h
    exact trivial
  · exact asVectorSection_valid h

theorem writeSection_valid {insertV : List α} (hvalid : insertV.length * 8 < 2 ^ 64)
    {next : ObjectList α × SplicePlace α} (h : writeSection range insertV answers me = some next) : next.2.Valid f := by
  unfold writeSection at h
  dsimp only at h
  split_ifs at h
  all_goals
    simp only [Option.bind_eq_bind, Option.bind_eq_some_iff, Option.some.injEq] at h
  · obtain ⟨_, _, _, _, rfl⟩ := h
    exact trivial
  · cases h
    exact hvalid
  · cases h
    exact trivial
  · obtain ⟨_, _, _, _, rfl⟩ := h
    exact trivial
  · obtain ⟨_, _, _, _, rfl⟩ := h
    exact trivial

/-- What a call knows is kept from one section to the next. -/
theorem spliceSection_valid {place : SplicePlace α} (hplace : place.Valid f) {next : ObjectList α × SplicePlace α}
    (h : spliceSection f answers me place = some next) : next.2.Valid f := by
  cases place with
  | againAsVector itemsSizeFast =>
    unfold spliceSection fastSection at h
    dsimp only at h
    split_ifs at h
    · cases h
      exact trivial
    · simp only [Option.bind_eq_bind, Option.bind_eq_some_iff] at h
      obtain ⟨newElema, -, h⟩ := h
      split at h
      · exact deleteSection_valid rfl h
      · exact deleteSection_valid rfl h
      · cases h
        exact trivial
      · cases h
        exact trivial
    · exact deleteSection_valid rfl h
  | newVector itemsSizeFast newElema usable =>
    unfold spliceSection newVectorSection at h
    dsimp only at h
    split_ifs at h <;> cases h <;> exact trivial
  | newDelete itemsSizeFast range curElema minElema =>
    unfold spliceSection newDeleteSection at h
    dsimp only at h
    split_ifs at h
    · exact asVectorSection_valid h
    · cases h
      exact trivial
  | again insertV =>
    unfold spliceSection slowSection at h
    dsimp only at h
    split_ifs at h
    · cases h
      exact trivial
    · simp only [Option.bind_eq_bind, Option.bind_eq_some_iff] at h
      obtain ⟨newElema, -, h⟩ := h
      split at h
      · exact writeSection_valid hplace h
      · exact writeSection_valid hplace h
      · cases h
        exact hplace
    · simp only [Option.bind_eq_bind, Option.bind_eq_some_iff] at h
      obtain ⟨newElema, -, h⟩ := h
      split at h
      · exact writeSection_valid hplace h
      · exact writeSection_valid hplace h
      · cases h
        exact trivial
    · exact writeSection_valid hplace h
  | delrange =>
    unfold spliceSection delrangeSection at h
    dsimp only at h
    split_ifs at h
    · cases h
      exact trivial
    · cases h
      exact trivial
    · cases h
      exact trivial
    · simp only [Option.bind_eq_bind, Option.bind_eq_some_iff, Option.some.injEq] at h
      obtain ⟨_, _, rfl⟩ := h
      exact trivial
  | done deleteV => cases h
  | failed => cases h

end Sections

/-! ### Calls -/

section Calls

variable {α : Type}

/-- The list at a section of a call, and what the section gets from outside. -/
structure Visit (α : Type) where
  me : ObjectList α
  elems : List α
  answers : Answers α
  holds : Holds me elems
  fits : me.elemv.length * 8 < 2 ^ 64

/-- Whether the call goes on. -/
def SplicePlace.running : SplicePlace α → Bool
  | .done _ | .failed => false
  | _ => true

/-- A property of all sections of a call; in between, other threads may do anything to the list. -/
def AlongCall (f : SpliceRange) (P : Visit α → SplicePlace α → Prop) : SplicePlace α → List (Visit α) → Prop
  | _, [] => True
  | place, visit :: visits =>
    place.running = true → P visit place ∧
      ∀ next, spliceSection f visit.answers visit.me place = some next → AlongCall f P next.2 visits

theorem AlongCall.mono {f : SpliceRange} {A P Q : Visit α → SplicePlace α → Prop}
    (hstep : ∀ visit place, place.Valid f → place.running = true → A visit place → P visit place → Q visit place) :
    ∀ (visits : List (Visit α)) (place : SplicePlace α), place.Valid f → AlongCall f A place visits →
      AlongCall f P place visits → AlongCall f Q place visits := by
  intro visits
  induction visits with
  | nil => exact fun _ _ _ _ => trivial
  | cons visit visits ih =>
    intro place hplace ha hp hrun
    obtain ⟨ha, has⟩ := ha hrun
    obtain ⟨hp, hps⟩ := hp hrun
    exact ⟨hstep visit place hplace hrun ha hp, fun next hnext =>
      ih next.2 (spliceSection_valid hplace hnext) (has next hnext) (hps next hnext)⟩

/-- One section. -/
theorem sectionRight_iff {f : SpliceRange} (hf : IsSplice f) (visit : Visit α) {place : SplicePlace α}
    (hplace : place.Valid f) (hrun : place.running = true) (hobeys : place.Obeys visit.answers) :
    SectionRight f visit.answers visit.me visit.elems place ↔ SectionFits f visit.answers visit.me visit.elems place := by
  cases place with
  | againAsVector itemsSizeFast => exact fastSection_right hf visit.holds hobeys
  | newVector itemsSizeFast newElema usable =>
    exact iff_of_true (newVectorSection_right visit.holds newElema usable) trivial
  | newDelete itemsSizeFast range curElema minElema => exact newDeleteSection_right hf visit.holds hobeys hplace
  | again insertV => exact iff_of_true (slowSection_right hf visit.holds visit.fits hplace) trivial
  | delrange => exact iff_of_true (delrangeSection_right hf visit.holds) trivial
  | done deleteV => cases hrun
  | failed => cases hrun

theorem spliceStart_valid {f : SpliceRange} {start : ℕ ⊕ List α}
    (hstart : ∀ insertV, start = .inr insertV → insertV.length * 8 < 2 ^ 64) : (spliceStart start).Valid f := by
  cases start with
  | inl itemsSizeFast =>
    unfold spliceStart
    dsimp only
    split_ifs <;> exact trivial
  | inr insertV =>
    unfold spliceStart
    dsimp only
    split_ifs
    · exact trivial
    · exact hstart insertV rfl

/-- `[1, 2]`, and a sequence that announced one item. -/
def announcedOne (items : List ℕ) : Visit ℕ where
  me := ⟨[some 1, some 2], 2⟩
  elems := [1, 2]
  answers := ⟨some 0, none, none, true, true, true, 0, .filled items⟩
  holds := ⟨rfl, rfl⟩
  fits := by decide

end Calls

end Deemon.Collections
