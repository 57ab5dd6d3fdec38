import Deemon.Collections.DictRemoveIf

/-!
# The iterator of a dict

An iterator holds a virtual index into `d_vtab`. `diter_nextpair` passes over the deleted items in front of the next
pair, and `diter_advance` skips several pairs at once: it adds to the index of a dict without deleted items, and walks
over the items of any other one.
-/

namespace Deemon.Collections

open Deemon.Run

variable {κ ν : Type}

/-! ### The code -/

/-- `DictIterator`: the dict, and the virtual index of the item that comes next. -/
structure DictIterator (κ ν : Type) where
  diDict : Dict κ ν
  diVidx : ℕ

/-- `_DeeDict_GetVirtVTab(dict)[vidx]`. -/
def Dict.virtItem (d : Dict κ ν) (vidx : ℕ) : Option (DictItem κ ν) := do
  assert (vidx ≠ 0)
  d.vtab[vidx - 1]?

/-- `diter_nextpair`, without a pair when it returns `1`. -/
def diterNextpair (self : DictIterator κ ν) : Option (Option (κ × ν) × DictIterator κ ν) :=
  loop (fun newVidx =>
    if self.diDict.vtab.length < newVidx then some (.done (none, self))
    else do
      let item ← self.diDict.virtItem newVidx
      match item.pair with
      | none => some (.next (newVidx + 1))
      | some pair => some (.done (some pair, { self with diVidx := newVidx + 1 })))
    (self.diDict.vtab.length + 2) self.diVidx

/-- `OVERFLOW_UADD`, with `(size_t)-1` for a sum that overflows. -/
def uaddOrMax (a b : ℕ) : ℕ := if a + b < 2 ^ 64 then a + b else 2 ^ 64 - 1

/-- The walk of `diter_advance` over a dict with deleted items. -/
def diterWalk (d : Dict κ ν) (vidx skip : ℕ) : Option ℕ :=
  loop (fun (newVidx, nSkip) =>
    if newVidx ≤ d.vtab.length ∧ nSkip ≠ 0 then do
      let item ← d.virtItem newVidx
      some (.next (newVidx + 1, if item.deleted then nSkip else nSkip - 1))
    else some (.done newVidx)) (d.vtab.length + 2) (vidx, skip)

/-- `diter_advance`. -/
def diterAdvance (dbg : Bool) (self : DictIterator κ ν) (skip : ℕ) : Option (ℕ × DictIterator κ ν) := do
  let d := self.diDict
  check dbg (d.vused ≤ d.vtab.length)
  let newVidx ← (if d.vused = d.vtab.length then some (min (uaddOrMax self.diVidx skip) (d.vtab.length + 1))
    else diterWalk d self.diVidx skip)
  some ((newVidx + 2 ^ 64 - self.diVidx) % 2 ^ 64, { self with diVidx := newVidx })

/-! ### What is left of an iteration -/

/-- The pairs that the iterator has not come to. -/
def DictIterator.remaining (self : DictIterator κ ν) : List (κ × ν) :=
  (self.diDict.vtab.drop (self.diVidx - 1)).filterMap DictItem.pair

/-- An iterator of a sound dict. The dict may have fewer items than the iterator has passed. -/
structure DictIterator.Valid (it : DictIterator κ ν) : Prop where
  dict : it.diDict.Sound
  pos : 1 ≤ it.diVidx
  vidx : it.diVidx < 2 ^ 64
  vsize : it.diDict.vtab.length + 1 < 2 ^ 64

/-- `n` calls of `diter_nextpair`, all of them with a pair. -/
def diterNextpairs : ℕ → DictIterator κ ν → Option (List (κ × ν) × DictIterator κ ν)
  | 0, self => some ([], self)
  | n + 1, self => do
    let (pair, self) ← diterNextpair self
    let pair ← pair
    let (pairs, self) ← diterNextpairs n self
    some (pair :: pairs, self)

/-- `diter_advance` returns how many pairs it has skipped, and leaves the iterator where as many calls of
`diter_nextpair` do. -/
def AdvancesExactly (dbg : Bool) (self : DictIterator κ ν) (skip : ℕ) : Prop :=
  Ends (diterAdvance dbg self skip) fun r => r.1 = min skip self.remaining.length ∧
    Ends (diterNextpairs (min skip self.remaining.length) self) fun s => r.2.remaining = s.2.remaining

/-- None of the items that are skipped is deleted, and the index is not behind the end of a dict without deleted
items. -/
def SkipsNoDeleted (self : DictIterator κ ν) (skip : ℕ) : Prop :=
  (self.diDict.vused = self.diDict.vtab.length → self.diVidx ≤ self.diDict.vtab.length + 1) ∧
    ∀ item ∈ (self.diDict.vtab.drop (self.diVidx - 1)).take skip, item.deleted = false

/-! ### Stepping -/

section Stepping

variable {dbg : Bool} {d : Dict κ ν} {it : DictIterator κ ν} {v n : ℕ} {item : DictItem κ ν}

theorem Dict.virtItem_of_le (hpos : 1 ≤ v) (hle : v ≤ d.vtab.length) :
    ∃ item, d.virtItem v = some item ∧ d.vtab.drop (v - 1) = item :: d.vtab.drop v := by
  have hlt : v - 1 < d.vtab.length := by omega
  refine ⟨d.vtab[v - 1], ?_, ?_⟩
  · unfold Dict.virtItem
    rw [assert_of (by omega), some_bind]
    exact List.getElem?_eq_getElem hlt
  · rw [List.drop_eq_getElem_cons hlt, Nat.sub_add_cancel hpos]

/-- An index behind the items has nothing in front of it. -/
theorem remaining_of_lt (h : it.diDict.vtab.length < it.diVidx) : it.remaining = [] := by
  unfold DictIterator.remaining
  rw [List.drop_of_length_le (by omega)]
  rfl

/-- A step takes the first of the remaining pairs. -/
theorem diterNextpair_ends (hpos : 1 ≤ it.diVidx) :
    Ends (diterNextpair it) fun r => r.1 = it.remaining.head? ∧ r.2.remaining = it.remaining.tail ∧
      1 ≤ r.2.diVidx := by
  unfold diterNextpair
  refine loop_ends (fun v => 1 ≤ v ∧ (it.diDict.vtab.drop (v - 1)).filterMap DictItem.pair = it.remaining)
    (fun v => it.diDict.vtab.length + 1 - v) ⟨hpos, rfl⟩ (by omega) ?_
  rintro v ⟨hv, hrest⟩
  by_cases hend : it.diDict.vtab.length < v
  · rw [if_pos hend]
    rw [List.drop_of_length_le (by omega)] at hrest
    refine Ends.pure ⟨?_, ?_, hpos⟩
    · rw [← hrest]
      rfl
    · rw [← hrest]
      rfl
  · rw [if_neg hend]
    obtain ⟨item, hitem, hdrop⟩ := Dict.virtItem_of_le (d := it.diDict) hv (not_lt.mp hend)
    rw [hitem, some_bind]
    rw [hdrop] at hrest
    cases hpair : item.pair with
    | none =>
      rw [List.filterMap_cons_none hpair] at hrest
      refine Ends.pure ⟨⟨by omega, ?_⟩, by dsimp only; omega⟩
      exact hrest
    | some pair =>
      rw [List.filterMap_cons_some hpair] at hrest
      refine Ends.pure ⟨?_, ?_, by dsimp only; omega⟩
      · rw [← hrest]
        rfl
      · rw [← hrest]
        rfl

/-- Stepping yields the remaining pairs in order. -/
theorem diterNextpairs_ends (hpos : 1 ≤ it.diVidx) (hn : n ≤ it.remaining.length) :
    Ends (diterNextpairs n it) fun r => r.1 = it.remaining.take n ∧ r.2.remaining = it.remaining.drop n := by
  induction n generalizing it with
  | zero => exact Ends.pure ⟨rfl, rfl⟩
  | succ n ih =>
    obtain ⟨⟨pair, next⟩, hrun, hhead, htail, hnext⟩ := diterNextpair_ends hpos
    dsimp only at hhead htail hnext
    cases hrest : it.remaining with
    | nil =>
      rw [hrest] at hn
      exact absurd hn (Nat.not_succ_le_zero n)
    | cons first rest =>
      rw [hrest] at hhead htail hn
      unfold diterNextpairs
      rw [hrun, some_bind]
      dsimp only
      rw [hhead, List.head?_cons, some_bind]
      have hlen : n ≤ next.remaining.length := by
        rw [htail]
        exact Nat.le_of_succ_le_succ hn
      refine Ends.bind (ih hnext hlen) ?_
      rintro ⟨pairs, last⟩ ⟨hpairs, hlast⟩
      dsimp only at hpairs hlast ⊢
      rw [htail] at hpairs hlast
      refine Ends.pure ⟨?_, ?_⟩
      · rw [hpairs]
        rfl
      · rw [hlast]
        rfl

end Stepping

/-! ### Skipping -/

/-- How many items the walk passes to skip a number of pairs. -/
def passedItems : ℕ → List (DictItem κ ν) → ℕ
  | 0, _ => 0
  | _ + 1, [] => 0
  | skip + 1, item :: items => 1 + passedItems (if item.deleted then skip + 1 else skip) items

section Skipping

variable {dbg : Bool} {d : Dict κ ν} {it : DictIterator κ ν} {v skip : ℕ} {items : List (DictItem κ ν)}

theorem passedItems_nil : passedItems skip ([] : List (DictItem κ ν)) = 0 := by
  cases skip with
  | zero => rfl
  | succ skip => rfl

theorem passedItems_le (skip : ℕ) (items : List (DictItem κ ν)) : passedItems skip items ≤ items.length := by
  induction items generalizing skip with
  | nil => exact le_of_eq passedItems_nil
  | cons item items ih =>
    cases skip with
    | zero => exact Nat.zero_le _
    | succ skip =>
      have := ih (if item.deleted then skip + 1 else skip)
      unfold passedItems
      rw [List.length_cons]
      omega

/-- Behind the items that are passed come the pairs that are not skipped. -/
theorem drop_passedItems :
    (items.drop (passedItems skip items)).filterMap DictItem.pair = (items.filterMap DictItem.pair).drop skip := by
  induction items generalizing skip with
  | nil => simp
  | cons item items ih =>
    cases skip with
    | zero => rfl
    | succ skip =>
      obtain ⟨hash, pair⟩ := item
      unfold passedItems
      rw [Nat.add_comm, List.drop_succ_cons, ih]
      cases pair with
      | none => rfl
      | some pair => rfl

theorem min_le_passedItems (skip : ℕ) (items : List (DictItem κ ν)) :
    min skip (items.filterMap DictItem.pair).length ≤ passedItems skip items := by
  have hrest := congrArg List.length (@drop_passedItems _ _ skip items)
  rw [List.length_drop] at hrest
  have hle := List.length_filterMap_le DictItem.pair (items.take (passedItems skip items))
  rw [List.length_take] at hle
  have hsplit : (items.filterMap DictItem.pair).length =
      ((items.take (passedItems skip items)).filterMap DictItem.pair).length +
        ((items.drop (passedItems skip items)).filterMap DictItem.pair).length := by
    rw [← List.length_append, ← List.filterMap_append, List.take_append_drop]
  omega

/-- As many items as pairs are passed when none of the first ones is deleted, and more otherwise. -/
theorem passedItems_eq_iff : passedItems skip items = min skip (items.filterMap DictItem.pair).length ↔
    ∀ item ∈ items.take skip, item.deleted = false := by
  induction items generalizing skip with
  | nil => simp [passedItems_nil]
  | cons item items ih =>
    cases skip with
    | zero => simp [passedItems]
    | succ skip =>
      obtain ⟨hash, pair⟩ := item
      rw [List.take_succ_cons]
      unfold passedItems
      cases pair with
      | none =>
        have := min_le_passedItems (skip + 1) items
        refine iff_of_false ?_ fun hall => ?_
        · show ¬1 + passedItems (skip + 1) items = min (skip + 1) (items.filterMap DictItem.pair).length
          omega
        · exact Bool.noConfusion (hall _ List.mem_cons_self)
      | some pair =>
        have hone : 1 + passedItems skip items = min (skip + 1) ((items.filterMap DictItem.pair).length + 1) ↔
            passedItems skip items = min skip (items.filterMap DictItem.pair).length := by omega
        refine Iff.trans ?_ ((hone.trans ih).trans ?_)
        · rfl
        · rw [List.forall_mem_cons]
          exact ⟨fun h => ⟨rfl, h⟩, fun h => h.2⟩

/-- The walk passes the items up to the last pair that is skipped, or all of them. -/
theorem diterWalk_ends (hpos : 1 ≤ v) :
    Ends (diterWalk d v skip) fun r => r = v + passedItems skip (d.vtab.drop (v - 1)) := by
  unfold diterWalk
  refine loop_ends (fun s => 1 ≤ s.1 ∧
      s.1 + passedItems s.2 (d.vtab.drop (s.1 - 1)) = v + passedItems skip (d.vtab.drop (v - 1)))
    (fun s => d.vtab.length + 1 - s.1) ⟨hpos, rfl⟩ (by dsimp only; omega) ?_
  rintro ⟨now, left⟩ ⟨hnow, hsum⟩
  dsimp only at hnow hsum ⊢
  by_cases hgo : now ≤ d.vtab.length ∧ left ≠ 0
  · rw [if_pos hgo]
    obtain ⟨item, hitem, hdrop⟩ := Dict.virtItem_of_le hnow hgo.1
    rw [hitem, some_bind]
    obtain ⟨left, rfl⟩ := Nat.exists_eq_succ_of_ne_zero hgo.2
    rw [hdrop, passedItems] at hsum
    refine Ends.pure ⟨⟨by dsimp only; omega, ?_⟩, by dsimp only; omega⟩
    dsimp only
    rw [Nat.add_sub_cancel, ← hsum, Nat.succ_sub_one, Nat.add_assoc]
  · rw [if_neg hgo]
    refine Ends.pure ?_
    rcases not_and_or.mp hgo with hend | hleft
    · rw [List.drop_of_length_le (by omega), passedItems_nil] at hsum
      exact hsum
    · rw [not_not.mp hleft, passedItems] at hsum
      exact hsum

/-- Dicts with as many items as keys have no deleted ones. -/
theorem Dict.Sound.not_deleted (h : d.Sound) (hused : d.vused = d.vtab.length) :
    ∀ item ∈ d.vtab, item.deleted = false := by
  intro item hitem
  have hall := List.countP_eq_length.mp (h.vused.symm.trans hused) item hitem
  simpa using hall

theorem passedItems_of_live (hlive : ∀ item ∈ items, item.deleted = false) :
    passedItems skip items = min skip items.length := by
  have hpairs : (items.filterMap DictItem.pair).length = items.length := by
    refine List.filterMap_length_eq_length.mpr fun item hitem => ?_
    have hitem := hlive item hitem
    unfold DictItem.deleted at hitem
    rwa [← Option.not_isNone, Bool.not_eq_true']
  rw [← hpairs]
  exact passedItems_eq_iff.mpr fun item hitem => hlive item (List.mem_of_mem_take hitem)

/-- On a dict without deleted items the addition passes as many items as the walk would. -/
theorem diterAdvance_compact (h : it.Valid) (hused : it.diDict.vused = it.diDict.vtab.length)
    (hle : it.diVidx ≤ it.diDict.vtab.length + 1) :
    min (uaddOrMax it.diVidx skip) (it.diDict.vtab.length + 1) =
      it.diVidx + passedItems skip (it.diDict.vtab.drop (it.diVidx - 1)) := by
  have hpos := h.pos
  have hroom := h.vsize
  rw [passedItems_of_live fun item hitem => h.dict.not_deleted hused item (List.mem_of_mem_drop hitem), List.length_drop]
  unfold uaddOrMax
  split_ifs with hfits
  · omega
  · omega

/-- The new index and the returned difference, for an iterator that is not behind the end. -/
theorem diterAdvance_ends (dbg : Bool) (skip : ℕ) (h : it.Valid)
    (hle : it.diDict.vused = it.diDict.vtab.length → it.diVidx ≤ it.diDict.vtab.length + 1) :
    Ends (diterAdvance dbg it skip) fun r =>
      r.1 = passedItems skip (it.diDict.vtab.drop (it.diVidx - 1)) ∧ r.2.remaining = it.remaining.drop skip := by
  have hpos := h.pos
  have hroom := h.vsize
  have hpassed := passedItems_le skip (it.diDict.vtab.drop (it.diVidx - 1))
  rw [List.length_drop] at hpassed
  have hcount : it.diDict.vused ≤ it.diDict.vtab.length := by
    rw [h.dict.vused]
    exact List.countP_le_length
  unfold diterAdvance
  dsimp only
  rw [check_of hcount, some_bind]
  refine Ends.bind
    (P := fun v => v = it.diVidx + passedItems skip (it.diDict.vtab.drop (it.diVidx - 1))) ?_ ?_
  · by_cases hused : it.diDict.vused = it.diDict.vtab.length
    · rw [if_pos hused, diterAdvance_compact h hused (hle hused)]
      exact Ends.pure rfl
    · rw [if_neg hused]
      exact diterWalk_ends hpos
  · rintro _ rfl
    refine Ends.pure ⟨?_, ?_⟩
    · dsimp only
      omega
    · unfold DictIterator.remaining
      dsimp only
      rw [← drop_passedItems, List.drop_drop]
      congr 2
      omega

/-- Behind the end of a dict without deleted items the addition goes back to the end, and the difference wraps. -/
theorem diterAdvance_behind (dbg : Bool) (skip : ℕ) (h : it.Valid) (hused : it.diDict.vused = it.diDict.vtab.length)
    (hlt : it.diDict.vtab.length + 1 < it.diVidx) :
    Ends (diterAdvance dbg it skip) fun r => r.1 ≠ 0 := by
  have hroom := h.vsize
  have hfits := h.vidx
  unfold diterAdvance
  dsimp only
  rw [check_of hused.le, some_bind, if_pos hused, some_bind]
  refine Ends.pure ?_
  have hend : min (uaddOrMax it.diVidx skip) (it.diDict.vtab.length + 1) = it.diDict.vtab.length + 1 := by
    unfold uaddOrMax
    split_ifs with hsum
    · omega
    · omega
  dsimp only
  rw [hend]
  omega

/-- Skipping agrees with stepping exactly when nothing deleted is skipped. -/
theorem advancesExactly_iff (h : it.Valid) : AdvancesExactly dbg it skip ↔ SkipsNoDeleted it skip := by
  by_cases hle : it.diDict.vused = it.diDict.vtab.length → it.diVidx ≤ it.diDict.vtab.length + 1
  · have hcount : passedItems skip (it.diDict.vtab.drop (it.diVidx - 1)) = min skip it.remaining.length ↔
        ∀ item ∈ (it.diDict.vtab.drop (it.diVidx - 1)).take skip, item.deleted = false := passedItems_eq_iff
    refine Iff.trans ?_ (hcount.trans (and_iff_right hle).symm)
    obtain ⟨r, hrun, hr, hrest⟩ := diterAdvance_ends dbg skip h hle
    constructor
    · intro hexact
      exact hr.symm.trans (hexact.of_eq hrun).1
    · intro heq
      refine ⟨r, hrun, hr.trans heq, ?_⟩
      refine (diterNextpairs_ends h.pos (Nat.min_le_right skip it.remaining.length)).mono fun s hs => ?_
      rw [hrest, hs.2]
      rcases Nat.le_total skip it.remaining.length with hskip | hskip
      · rw [Nat.min_eq_left hskip]
      · rw [Nat.min_eq_right hskip, List.drop_length, List.drop_of_length_le hskip]
  · obtain ⟨hused, hlt⟩ := Classical.not_imp.mp hle
    refine iff_of_false ?_ fun hskips => hle hskips.1
    intro hexact
    obtain ⟨r, hrun, hr⟩ := diterAdvance_behind dbg skip h hused (not_le.mp hlt)
    have hzero := (hexact.of_eq hrun).1
    rw [remaining_of_lt (by omega), List.length_nil, Nat.min_zero] at hzero
    exact hr hzero

end Skipping

/-! ### A dict whose first item is deleted -/

/-- `{2: 20, 3: 30}`, after the deletion of `1`. -/
def deletedFirst : Dict ℕ ℕ :=
  ⟨[⟨1, none⟩, ⟨2, some (2, 20)⟩, ⟨3, some (3, 30)⟩], 3, 2, 7, [0, 1, 2, 3, 0, 0, 0, 0], false⟩

theorem deletedFirst_valid : DictIterator.Valid ⟨deletedFirst, 1⟩ := by
  have hdelete := threeItems_sound.deleteAt (q := 0) rfl rfl
  exact ⟨(hdelete.of_eq (show threeItems.deleteAt 0 = some deletedFirst from rfl)).1, le_rfl, by decide, by decide⟩

theorem advancesExactly_iff_deletedFirst :
    AdvancesExactly true ⟨deletedFirst, 1⟩ 1 ↔ SkipsNoDeleted ⟨deletedFirst, 1⟩ 1 :=
  advancesExactly_iff deletedFirst_valid

/-- The skip of one pair is reported as two. -/
theorem advancesExactly_fails : DictIterator.Valid ⟨deletedFirst, 1⟩ ∧ ¬AdvancesExactly true ⟨deletedFirst, 1⟩ 1 := by
  refine ⟨deletedFirst_valid, fun hexact => ?_⟩
  have hrun : diterAdvance true ⟨deletedFirst, 1⟩ 1 = some (2, ⟨deletedFirst, 3⟩) := by rfl
  exact absurd (hexact.of_eq hrun).1 (by decide)

end Deemon.Collections
