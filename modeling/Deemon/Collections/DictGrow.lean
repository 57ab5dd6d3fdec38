import Deemon.Collections.DictSizes
import Mathlib.Order.Interval.Finset.Nat

/-!
# Growing the tables of a dict

Before an item is appended its slot must be there. The tables are first grown with the lock held, which may fail for
want of memory: with some room to spare, then with just enough. When both fail the lock is dropped for an allocation
that throws.

A table can only be used with the slots of the hash table that hold different indices (`Slots`). Then there are no more
slots in use than there are items, and the probes of a table that is not full come to an end.
-/

namespace Deemon.Collections

open Deemon.Run Deemon.Probing

variable {κ ν : Type}

/-! ### The code -/

/-- Which of the allocations of larger tables succeed. -/
structure GrowAnswers where
  tryRealloc : Bool
  tryReallocSmall : Bool
  malloc : Bool

/-- `dict_tiny_hmask_from_count`. -/
def dictTinyHmaskFromCount (numItem : ℕ) : ℕ := if numItem = 0 then 0 else 1 <<< numItem.size - 1

/-- `_DeeDict_ShouldGrowHTab`. -/
def Dict.ShouldGrowHtab (d : Dict κ ν) : Prop := d.hmask * 3 ≤ dictSuggestedMaxVallocFromCount (d.vused + 1) * 2

/-- `_DeeDict_MustGrowHTab`. -/
def Dict.MustGrowHtab (d : Dict κ ν) : Prop := d.hmask ≤ d.valloc

/-- `_DeeDict_MustGrowVTab`. -/
def Dict.MustGrowVtab (d : Dict κ ν) : Prop := d.valloc ≤ d.vtab.length

/-- `_DeeDict_CanGrowVTab`. -/
def Dict.CanGrowVtab (d : Dict κ ν) : Prop := d.valloc < d.hmask

/-- `_DeeDict_ShouldOptimizeVTab`. -/
def Dict.ShouldOptimizeVtab (d : Dict κ ν) : Prop := d.vused < d.vtab.length >>> 1

instance (d : Dict κ ν) : Decidable d.ShouldGrowHtab := inferInstanceAs (Decidable (_ ≤ _))
instance (d : Dict κ ν) : Decidable d.MustGrowHtab := inferInstanceAs (Decidable (_ ≤ _))
instance (d : Dict κ ν) : Decidable d.MustGrowVtab := inferInstanceAs (Decidable (_ ≤ _))
instance (d : Dict κ ν) : Decidable d.CanGrowVtab := inferInstanceAs (Decidable (_ < _))
instance (d : Dict κ ν) : Decidable d.ShouldOptimizeVtab := inferInstanceAs (Decidable (_ < _))

/-- `dict_htab_rebuild`. -/
def Dict.htabRebuild (dbg : Bool) (d : Dict κ ν) : Option (Dict κ ν) := do
  let d ← (if d.CanOptimizeVtab then d.doOptimizeVtabWithoutRebuild dbg else some d)
  d.htabRebuildAfterOptimize dbg

/-- `dict_trygrow_vtab`, with `none` when it returns false. -/
def Dict.trygrowVtab (dbg : Bool) (answers : GrowAnswers) (d : Dict κ ν) : Option (Option (Dict κ ν)) := do
  check dbg d.CanGrowVtab
  if answers.tryRealloc || answers.tryReallocSmall then do
    -- the hash table moves along, which the constant one cannot
    assert (d.emptyTab = false)
    let newValloc := dictVallocFromHmaskAndCount d.hmask (d.vtab.length + 1) answers.tryRealloc
    some (some { d with valloc := newValloc })
  else some none

/-- The tables of `dict_trygrow_vtab_and_htab_with` are put to use. -/
def Dict.useGrown (dbg : Bool) (d : Dict κ ν) (newHmask newValloc : ℕ) : Option (Dict κ ν) :=
  if d.hmask = newHmask then do
    assert (d.emptyTab = false)
    some { d with valloc := newValloc }
  else
    Dict.htabRebuild dbg { d with
      valloc := newValloc
      hmask := newHmask
      emptyTab := false }

/-- The mask that `dict_trygrow_vtab_and_htab_with` wants. -/
def Dict.grownHmask (d : Dict κ ν) (minValloc : ℕ) : ℕ :=
  let newHmask := if dictHmaskFromCount minValloc < d.hmask then d.hmask else dictHmaskFromCount minValloc
  if newHmask ≤ d.hmask ∧ d.ShouldGrowHtab then (newHmask <<< 1 ||| 1) % 2 ^ 64 else newHmask

/-- `dict_trygrow_vtab_and_htab_with`, with `none` when it returns false. -/
def Dict.trygrowVtabAndHtabWith (dbg : Bool) (answers : GrowAnswers) (d : Dict κ ν) (minValloc : ℕ)
    (allowOveralloc : Bool) : Option (Option (Dict κ ν)) := do
  check dbg (d.valloc < minValloc)
  if answers.tryRealloc then do
    let newHmask := d.grownHmask minValloc
    let grown ← d.useGrown dbg newHmask (dictVallocFromHmaskAndCount newHmask minValloc allowOveralloc)
    some (some grown)
  else if answers.tryReallocSmall then do
    let newHmask := dictTinyHmaskFromCount minValloc
    let grown ← d.useGrown dbg newHmask (dictVallocFromHmaskAndCount newHmask minValloc false)
    some (some grown)
  else some none

/-- `dict_trygrow_vtab_and_htab`. -/
def Dict.trygrowVtabAndHtab (dbg : Bool) (answers : GrowAnswers) (d : Dict κ ν) : Option (Option (Dict κ ν)) :=
  d.trygrowVtabAndHtabWith dbg answers (d.vtab.length + 1) true

/-- `dict_grow_vtab_and_htab_and_relock`, with `none` when it throws. Nobody changes the dict while its lock is
released. -/
def Dict.growVtabAndHtabAndRelock (dbg : Bool) (answers : GrowAnswers) (d : Dict κ ν) : Option (Option (Dict κ ν)) := do
  check dbg d.MustGrowVtab
  let newHmask := if d.MustGrowHtab then dictTinyHmaskFromCount (d.vtab.length + 1) else d.hmask
  check dbg (d.MustGrowHtab → d.hmask < newHmask)
  if answers.malloc = false then some none
  else do
    let newValloc := dictVallocFromHmaskAndCount newHmask (d.vtab.length + 1) false
    let grown ← (if d.hmask = newHmask then some { d with valloc := newValloc }
      else do
        let optimized ← (if d.CanOptimizeVtab then d.doOptimizeVtabWithoutRebuild dbg else some d)
        -- `d_hmask` stays as it was
        Dict.htabRebuildAfterOptimize dbg { optimized with
          valloc := newValloc
          emptyTab := false })
    -- the old tables are freed, which the constant ones cannot be
    assert (d.emptyTab = false)
    assert (¬grown.MustGrowVtab)
    some (some grown)

/-! ### Slots -/

/-- No two slots hold the same index. -/
def SlotsDiffer (htab : List ℕ) : Prop := ∀ i j, cell htab i = cell htab j → cell htab i ≠ 0 → i = j

/-- A sound dict whose slots differ; the constant tables have one slot. -/
structure Dict.Exact (d : Dict κ ν) : Prop extends Dict.Sound d where
  slots : SlotsDiffer d.htab
  single : d.emptyTab = true → d.hmask = 0

section Slots

variable {dbg : Bool} {htab : List ℕ} {hmask n i v : ℕ} {d : Dict κ ν}

/-- With fewer items than slots there is an empty slot. -/
theorem exists_eof (hbound : ∀ i, cell htab i ≤ n) (h : SlotsDiffer htab) (hn : n ≤ hmask) :
    ∃ i ≤ hmask, cell htab i = 0 := by
  by_contra hnone
  push Not at hnone
  have hcard : (Finset.Icc 1 n).card < (Finset.range (hmask + 1)).card := by
    rw [Nat.card_Icc, Finset.card_range]
    omega
  obtain ⟨i, hi, j, -, hij, heq⟩ := Finset.exists_ne_map_eq_of_card_lt_of_maps_to (f := cell htab) hcard fun i hi => by
    have hne := hnone i (Nat.lt_succ_iff.mp (Finset.mem_range.mp hi))
    exact Finset.mem_coe.mpr (Finset.mem_Icc.mpr ⟨Nat.pos_of_ne_zero hne, hbound i⟩)
  exact hij (h i j heq (hnone i (Nat.lt_succ_iff.mp (Finset.mem_range.mp hi))))

theorem SlotsDiffer.set (h : SlotsDiffer htab) (hi : i < htab.length) (hnew : ∀ j, j ≠ i → cell htab j ≠ v) :
    SlotsDiffer (htab.set i v) := by
  intro j k heq hne
  by_cases hj : i = j
  · by_cases hk : i = k
    · rw [← hj, hk]
    · rw [← hj, cell_set_self hi, cell_set_of_ne hk] at heq
      exact absurd heq.symm (hnew k (Ne.symm hk))
  · rw [cell_set_of_ne hj] at heq hne
    by_cases hk : i = k
    · rw [← hk, cell_set_self hi] at heq
      exact absurd heq (hnew j (Ne.symm hj))
    · rw [cell_set_of_ne hk] at heq
      exact h j k heq hne

theorem slotsDiffer_replicate (n : ℕ) : SlotsDiffer (List.replicate n 0) := by
  intro i j _ hne
  refine absurd ?_ hne
  by_cases hi : i < n
  · exact cell_replicate hi
  · exact cell_of_le (by rw [List.length_replicate]; omega)

end Slots

/-! ### What growing does -/

section Grow

variable {dbg : Bool} {answers : GrowAnswers} {n newHmask newValloc : ℕ} {d r : Dict κ ν}

theorem tinyHmaskFromCount_spec (h : n < 2 ^ 64) :
    n ≤ dictTinyHmaskFromCount n ∧ ∃ k ≤ 64, dictTinyHmaskFromCount n + 1 = 2 ^ k := by
  unfold dictTinyHmaskFromCount
  by_cases h0 : n = 0
  · rw [if_pos h0]
    exact ⟨h0.le, 0, by omega, rfl⟩
  · rw [if_neg h0, Nat.one_shiftLeft]
    have hlt := Nat.lt_size_self n
    exact ⟨by omega, _, Nat.size_le.mpr h, Nat.sub_add_cancel Nat.one_le_two_pow⟩

/-- The mask is large enough, and the next larger one if the table is full. -/
theorem Dict.grownHmask_spec (hpow : ∃ k ≤ 64, d.hmask + 1 = 2 ^ k) (h : n < 2 ^ 64) :
    n ≤ d.grownHmask n ∧ d.hmask ≤ d.grownHmask n ∧ ∃ k ≤ 64, d.grownHmask n + 1 = 2 ^ k := by
  obtain ⟨hle, hcount⟩ := hmaskFromCount_spec h
  have hmax : ∃ m, (if dictHmaskFromCount n < d.hmask then d.hmask else dictHmaskFromCount n) = m ∧ n ≤ m ∧
      d.hmask ≤ m ∧ ∃ k ≤ 64, m + 1 = 2 ^ k := by
    by_cases hlt : dictHmaskFromCount n < d.hmask
    · rw [if_pos hlt]
      exact ⟨_, rfl, by omega, le_rfl, hpow⟩
    · rw [if_neg hlt]
      exact ⟨_, rfl, hle, not_lt.mp hlt, hcount⟩
  obtain ⟨m, heq, hm, hmask, k, hk, hmk⟩ := hmax
  unfold Dict.grownHmask
  dsimp only
  rw [heq]
  by_cases hgrow : m ≤ d.hmask ∧ d.ShouldGrowHtab
  · rw [if_pos hgrow]
    have hdouble : m <<< 1 ||| 1 = 2 * m + 1 := by
      rw [← Nat.shiftLeft_add_eq_or_of_lt (by norm_num : 1 < 2 ^ 1), Nat.shiftLeft_eq, pow_one, Nat.mul_comm]
    rw [hdouble]
    rcases Nat.lt_or_ge k 64 with hlt | hge
    · have hpow64 : 2 ^ (k + 1) ≤ 2 ^ 64 := Nat.pow_le_pow_right Nat.two_pos hlt
      rw [pow_succ] at hpow64
      rw [Nat.mod_eq_of_lt (by omega)]
      exact ⟨by omega, by omega, k + 1, hlt, by rw [pow_succ]; omega⟩
    · obtain rfl : k = 64 := by omega
      have hwrap : (2 * m + 1) % 2 ^ 64 = m := by omega
      rw [hwrap]
      exact ⟨hm, hmask, 64, le_rfl, hmk⟩
  · rw [if_neg hgrow]
    exact ⟨hm, hmask, k, hk, hmk⟩

/-- Rebuilding leaves a hash table in which every item is found, and the slots differ. -/
theorem Dict.rebuild_differ {k : ℕ} (hused : d.vtab.length = d.vused) (hempty : d.emptyTab = false)
    (hle : d.vtab.length ≤ d.hmask) (hk : k ≤ 64) (hmask2 : d.hmask + 1 = 2 ^ k)
    (hhash : ∀ item ∈ d.vtab, item.diHash < 2 ^ 64) :
    Ends (d.htabRebuildAfterOptimize dbg) fun r => ∃ htab, r = { d with htab := htab } ∧
      HtabVerify d.vtab d.hmask htab ∧ SlotsDiffer htab := by
  have hdiffer : Ends (d.htabRebuildAfterOptimize dbg) fun r => SlotsDiffer r.htab := by
    unfold Dict.htabRebuildAfterOptimize
    rw [check_of hused, some_bind, assert_of hempty, some_bind]
    refine Ends.bind (forLoop_ends_zero (fun i htab => Rebuilding d.vtab d.hmask i htab ∧ SlotsDiffer htab)
      ⟨.start, slotsDiffer_replicate _⟩ ?_) fun htab hbuilt => Ends.pure hbuilt.2
    rintro i htab hi ⟨hbuilt, hdiffer⟩
    have hitem : d.vtab[i]? = some d.vtab[i] := List.getElem?_eq_getElem hi
    have hmem := hhash _ (List.getElem_mem hi)
    rw [hitem, some_bind]
    obtain ⟨htab', hrun, hnext⟩ := hbuilt.step (by omega) hitem hmem hk hmask2
    refine ⟨htab', hrun, hnext, ?_⟩
    obtain ⟨m, hzero, -, rfl⟩ := (hxioInsert_ends hbuilt.length hk hmask2 hmem (hbuilt.eof (by omega))).of_eq hrun
    refine hdiffer.set ?_ fun j _ heq => ?_
    · have := @htabIndex_le d.hmask d.vtab[i].diHash m
      have := hbuilt.length
      omega
    · have := hbuilt.bound j
      omega
  obtain ⟨_, hrun, htab, rfl, hverify⟩ := @Dict.rebuild_ends _ _ dbg _ _ hused hempty hle hk hmask2 hhash
  exact ⟨_, hrun, htab, rfl, hverify, hdiffer.of_eq hrun⟩

theorem Dict.Sound.vused_le (h : d.Sound) : d.vused ≤ d.vtab.length := by
  rw [h.vused]
  exact List.countP_le_length

/-- The items that are not deleted are put into tables of other sizes. -/
theorem Dict.Exact.rebuildAfterOptimize (h : d.Exact) (hroom : d.vused ≤ newValloc) (hle : newValloc ≤ newHmask)
    (hpow : ∃ k ≤ 64, newHmask + 1 = 2 ^ k) :
    Ends (Dict.htabRebuildAfterOptimize dbg ⟨liveItems d.vtab, newValloc, d.vused, newHmask, d.htab, false⟩) fun r =>
      r.Exact ∧ r.vtab = liveItems d.vtab ∧ r.vused = d.vused ∧ r.valloc = newValloc ∧ r.hmask = newHmask := by
  have hlen : (liveItems d.vtab).length = d.vused := by rw [length_liveItems, ← h.vused]
  have hsound : Dict.Sound { d with emptyTab := false } :=
    ⟨⟨⟨h.vused, h.vsize, h.valloc, h.hmask⟩, h.htab⟩, h.hashes, h.keys, fun hcontra => absurd hcontra Bool.false_ne_true⟩
  obtain ⟨k, hk, hmask2⟩ := hpow
  refine (Dict.rebuild_differ (d := ⟨liveItems d.vtab, newValloc, d.vused, newHmask, d.htab, false⟩) hlen rfl
    (by dsimp only; omega) hk hmask2 fun item hitem => h.hashes item (List.mem_of_mem_filter hitem)).mono ?_
  rintro _ ⟨htab, rfl, hverify, hdiffer⟩
  exact ⟨⟨hsound.resized rfl hroom hle ⟨k, hk, hmask2⟩ hverify, hdiffer, fun hcontra => absurd hcontra Bool.false_ne_true⟩,
    rfl, rfl, rfl, rfl⟩

/-- Optimizing drops the deleted items. -/
theorem Dict.Exact.optimizeVtab (h : d.Exact) (hopt : d.CanOptimizeVtab) :
    Ends (d.optimizeVtab dbg) fun r => r.Exact ∧ r.vtab = liveItems d.vtab ∧ r.vused = d.vused ∧ r.valloc = d.valloc ∧
      r.hmask = d.hmask := by
  have hroom : d.vused < d.valloc := lt_of_lt_of_le hopt h.vsize
  have hempty := h.allocated_of_lt (Nat.zero_lt_of_lt hopt)
  unfold Dict.optimizeVtab
  rw [check_of hopt, some_bind]
  refine Ends.bind (doOptimize_ends h.toSizesVerify hroom) ?_
  rintro _ rfl
  have hrun := @Dict.Exact.rebuildAfterOptimize _ _ dbg _ _ _ h hroom.le h.valloc h.hmask
  rwa [← hempty] at hrun

/-- A dict after its tables have been grown. -/
structure Grown (d r : Dict κ ν) : Prop where
  exact : r.Exact
  room : r.vtab.length < r.valloc
  vused : r.vused = d.vused
  /-- The hash table is kept together with the items, or rebuilt from the items that are not deleted. -/
  kept : r.hmask = d.hmask → r.vtab = d.vtab ∧ r.htab = d.htab
  rebuilt : r.hmask ≠ d.hmask → r.vtab = liveItems d.vtab

theorem Grown.liveItems (h : Grown d r) : Collections.liveItems r.vtab = Collections.liveItems d.vtab := by
  by_cases hmask : r.hmask = d.hmask
  · rw [(h.kept hmask).1]
  · rw [h.rebuilt hmask, liveItems_liveItems]

/-- A dict that is rebuilt in larger tables. -/
theorem Dict.Exact.rebuild (h : d.Exact) (hroom : d.vtab.length < newValloc) (hle : newValloc ≤ newHmask)
    (hpow : ∃ k ≤ 64, newHmask + 1 = 2 ^ k) :
    Ends (Dict.htabRebuild dbg { d with valloc := newValloc, hmask := newHmask, emptyTab := false }) fun r =>
      r.Exact ∧ r.vtab = Collections.liveItems d.vtab ∧ r.vused = d.vused ∧ r.valloc = newValloc ∧
        r.hmask = newHmask := by
  have hused := h.vused_le
  have hsizes : SizesVerify { d with valloc := newValloc, hmask := newHmask, emptyTab := false } :=
    ⟨h.vused, hroom.le, hle, hpow⟩
  unfold Dict.htabRebuild
  refine Ends.bind (P := fun r => r = ⟨liveItems d.vtab, newValloc, d.vused, newHmask, d.htab, false⟩) ?_ ?_
  · by_cases hopt : Dict.CanOptimizeVtab { d with valloc := newValloc, hmask := newHmask, emptyTab := false }
    · rw [if_pos hopt]
      exact doOptimize_ends hsizes (by dsimp only; omega)
    · rw [if_neg hopt, liveItems_of_full h.toSound hopt]
      exact Ends.pure rfl
  · rintro _ rfl
    exact h.rebuildAfterOptimize (by omega) hle hpow

/-- Larger tables are put to use. -/
theorem Dict.Exact.useGrown (h : d.Exact) (hroom : d.vtab.length < newValloc) (hle : newValloc ≤ newHmask)
    (hpow : ∃ k ≤ 64, newHmask + 1 = 2 ^ k) :
    Ends (d.useGrown dbg newHmask newValloc) fun r => Grown d r ∧ r.hmask = newHmask := by
  unfold Dict.useGrown
  by_cases hsame : d.hmask = newHmask
  · have hempty : d.emptyTab = false := by
      cases hempty : d.emptyTab with
      | false => rfl
      | true =>
        have := h.single hempty
        omega
    rw [if_pos hsame, assert_of hempty, some_bind]
    refine Ends.pure ⟨⟨⟨⟨⟨⟨h.vused, hroom.le, hsame ▸ hle, h.hmask⟩, h.htab⟩, h.hashes, h.keys, ?_⟩, h.slots, h.single⟩,
      hroom, rfl, fun _ => ⟨rfl, rfl⟩, fun hne => absurd rfl hne⟩, hsame⟩
    exact fun hcontra => absurd (hempty.symm.trans hcontra) Bool.false_ne_true
  · rw [if_neg hsame]
    refine (h.rebuild hroom hle hpow).mono ?_
    rintro r ⟨hexact, hvtab, hused, hvalloc, hmask⟩
    refine ⟨⟨hexact, ?_, hused, fun heq => absurd (heq.symm.trans hmask) hsame, fun _ => hvtab⟩, hmask⟩
    rw [hvtab, hvalloc]
    exact (List.length_filter_le _ _).trans_lt hroom

/-- `dict_trygrow_vtab` fails for want of memory only. -/
theorem Dict.Exact.trygrowVtab (h : d.Exact) (hcan : d.CanGrowVtab) (hfull : d.MustGrowVtab) :
    Ends (d.trygrowVtab dbg answers) fun r => (r = none ↔ answers.tryRealloc = false ∧ answers.tryReallocSmall = false) ∧
      ∀ grown, r = some grown → Grown d grown ∧ (answers.tryRealloc = true → d.hmask ≤ grown.hmask) := by
  have hlen : d.vtab.length = d.valloc := le_antisymm h.vsize hfull
  have hlt : d.valloc < d.hmask := hcan
  obtain ⟨k, hk, hmask2⟩ := h.hmask
  have hpow : 2 ^ k ≤ 2 ^ 64 := Nat.pow_le_pow_right Nat.two_pos hk
  have hempty : d.emptyTab = false := by
    cases hempty : d.emptyTab with
    | false => rfl
    | true =>
      have := h.single hempty
      omega
  unfold Dict.trygrowVtab
  rw [check_of hcan, some_bind]
  by_cases hmem : answers.tryRealloc || answers.tryReallocSmall
  · rw [if_pos hmem, assert_of hempty, some_bind]
    obtain ⟨hge, hle⟩ := @vallocFromHmaskAndCount_spec (d.vtab.length + 1) d.hmask answers.tryRealloc (by omega)
      (by omega)
    refine Ends.pure ⟨⟨fun hnone => (Option.some_ne_none _ hnone).elim, fun hno => ?_⟩, ?_⟩
    · rw [hno.1, hno.2] at hmem
      cases hmem
    · rintro _ ⟨⟩
      refine ⟨⟨⟨⟨⟨⟨h.vused, by dsimp only; omega, hle, h.hmask⟩, h.htab⟩, h.hashes, h.keys, ?_⟩, h.slots, h.single⟩,
        by dsimp only; omega, rfl, fun _ => ⟨rfl, rfl⟩, fun hne => absurd rfl hne⟩, fun _ => le_rfl⟩
      exact fun hcontra => absurd (hempty.symm.trans hcontra) Bool.false_ne_true
  · rw [if_neg hmem]
    rw [Bool.or_eq_true, not_or, Bool.not_eq_true, Bool.not_eq_true] at hmem
    exact Ends.pure ⟨⟨fun _ => hmem, fun _ => rfl⟩, fun grown hcontra => (Option.some_ne_none _ hcontra.symm).elim⟩

/-- `dict_trygrow_vtab_and_htab_with` fails for want of memory only. -/
theorem Dict.Exact.trygrowVtabAndHtabWith (h : d.Exact) {minValloc : ℕ} {allowOveralloc : Bool}
    (hmin : d.valloc < minValloc) (hlt : minValloc < 2 ^ 64) :
    Ends (d.trygrowVtabAndHtabWith dbg answers minValloc allowOveralloc) fun r =>
      (r = none ↔ answers.tryRealloc = false ∧ answers.tryReallocSmall = false) ∧
        ∀ grown, r = some grown → Grown d grown ∧ (answers.tryRealloc = true → d.hmask ≤ grown.hmask) := by
  have hsize := h.vsize
  have hgrown : ∀ {newHmask newValloc : ℕ}, d.vtab.length < newValloc → newValloc ≤ newHmask →
      (∃ k ≤ 64, newHmask + 1 = 2 ^ k) → ¬(answers.tryRealloc = false ∧ answers.tryReallocSmall = false) →
      (answers.tryRealloc = true → d.hmask ≤ newHmask) →
      Ends (d.useGrown dbg newHmask newValloc >>= fun grown => some (some grown)) fun r =>
        (r = none ↔ answers.tryRealloc = false ∧ answers.tryReallocSmall = false) ∧
          ∀ grown, r = some grown → Grown d grown ∧ (answers.tryRealloc = true → d.hmask ≤ grown.hmask) := by
    intro newHmask newValloc hroom hle hpow hmem hmask
    refine Ends.bind (h.useGrown hroom hle hpow) fun grown hg => Ends.pure ⟨?_, ?_⟩
    · exact ⟨fun hnone => (Option.some_ne_none _ hnone).elim, fun hno => absurd hno hmem⟩
    · rintro _ ⟨⟩
      exact ⟨hg.1, hg.2.symm ▸ hmask⟩
  unfold Dict.trygrowVtabAndHtabWith
  rw [check_of hmin, some_bind]
  by_cases hfirst : answers.tryRealloc = true
  · rw [if_pos hfirst]
    obtain ⟨hge, hmask, hpow⟩ := Dict.grownHmask_spec h.hmask hlt
    obtain ⟨hroom, hle⟩ := vallocFromHmaskAndCount_spec allowOveralloc hlt hge
    exact hgrown (by omega) hle hpow (fun hno => absurd (hno.1.symm.trans hfirst) Bool.false_ne_true) fun _ => hmask
  · rw [if_neg hfirst]
    by_cases hsecond : answers.tryReallocSmall = true
    · rw [if_pos hsecond]
      obtain ⟨hge, hpow⟩ := tinyHmaskFromCount_spec hlt
      obtain ⟨hroom, hle⟩ := vallocFromHmaskAndCount_spec false hlt hge
      exact hgrown (by omega) hle hpow (fun hno => absurd (hno.2.symm.trans hsecond) Bool.false_ne_true) fun hcontra =>
        absurd hcontra hfirst
    · rw [if_neg hsecond]
      rw [Bool.not_eq_true] at hfirst hsecond
      exact Ends.pure ⟨⟨fun _ => ⟨hfirst, hsecond⟩, fun _ => rfl⟩, fun grown hcontra =>
        (Option.some_ne_none _ hcontra.symm).elim⟩

end Grow

end Deemon.Collections
