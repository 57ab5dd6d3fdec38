import Deemon.Lib.Probing
import Mathlib.Data.List.TakeWhile

/-!
# The tables of dicts and hash sets

`d_vtab` holds the items in the order in which they came; a deleted item stays there without a key until the table is
optimized. `d_htab` leads from the hash of a key to its item: the probe of the hash visits slots that hold a virtual
index (the index of the item plus one), and ends at the key or at a slot with `Dee_HASH_HTAB_EOF`.

The functions come in two builds: with `dbg` a failed `ASSERT` ends the run, without it the assertion is not there.
A hash set is a dict without values.
-/

namespace Deemon.Collections

open Deemon.Run Deemon.Probing

variable {κ ν : Type}

/-- `ASSERT(p)` in a build with or without assertions. -/
def check (dbg : Bool) (p : Prop) [Decidable p] : Option Unit := if dbg then assert p else some ()

/-- `struct Dee_dict_item`; a deleted item has no key. -/
structure DictItem (κ ν : Type) where
  diHash : ℕ
  pair : Option (κ × ν)

/-- `di_key == NULL`. -/
def DictItem.deleted (item : DictItem κ ν) : Bool := item.pair.isNone

/-- `di_key = NULL`. -/
def DictItem.delete (item : DictItem κ ν) : DictItem κ ν := { item with pair := none }

/-- `DeeDictObject`. The list `vtab` has the `d_vsize` items that are in use. -/
structure Dict (κ ν : Type) where
  vtab : List (DictItem κ ν)
  valloc : ℕ
  vused : ℕ
  hmask : ℕ
  htab : List ℕ
  /-- The tables are the constant `_DeeHash_EmptyTab`. -/
  emptyTab : Bool

/-- The pairs of a dict, in order. -/
def Dict.pairs (d : Dict κ ν) : List (κ × ν) := d.vtab.filterMap DictItem.pair

/-! ### The hash table -/

/-- The slot that the probe of a hash visits after `n` steps. -/
def htabIndex (hmask hash n : ℕ) : ℕ := probeSlot hmask (hash &&& hmask, hash) n

/-- `hxio_insert`. -/
def hxioInsert (htab : List ℕ) (hmask itHash itVidx : ℕ) : Option (List ℕ) :=
  probeWith (fun i => do
    if (← rd htab i) = 0 then some (some (← wr htab i itVidx)) else some none) hmask (itHash &&& hmask, itHash)

/-- `dict_htab_rebuild_after_optimize`. -/
def Dict.htabRebuildAfterOptimize (dbg : Bool) (d : Dict κ ν) : Option (Dict κ ν) := do
  check dbg (d.vtab.length = d.vused)
  -- `_DeeHash_EmptyTab` cannot be written to
  assert (d.emptyTab = false)
  let htab ← forLoop (fun i htab => do
    let item ← d.vtab[i]?
    hxioInsert htab d.hmask item.diHash (i + 1)) 0 d.vtab.length (List.replicate (d.hmask + 1) 0)
  some { d with htab := htab }

/-! ### Optimizing -/

/-- `_DeeDict_CanOptimizeVTab`. -/
def Dict.CanOptimizeVtab (d : Dict κ ν) : Prop := d.vused < d.vtab.length

instance (d : Dict κ ν) : Decidable d.CanOptimizeVtab := inferInstanceAs (Decidable (_ < _))

/-- One round of the loop of `dict_do_optimize_vtab_without_rebuild`. -/
def optimizeRound (vused : ℕ) : ℕ × List (DictItem κ ν) → Option (Step (ℕ × List (DictItem κ ν)) (List (DictItem κ ν)))
  | (i, vtab) =>
    match vtab[i]? with
    | none => some (.done vtab)
    | some item =>
      if !item.deleted then some (.next (i + 1, vtab))
      else
        -- the next item with a key, or the end
        let j := i + 1 + ((vtab.drop (i + 1)).takeWhile DictItem.deleted).length
        let moved := vtab.take i ++ vtab.drop j
        some (if moved.length ≤ vused then .done moved else .next (i, moved))

/-- `dict_do_optimize_vtab_without_rebuild`. -/
def Dict.doOptimizeVtabWithoutRebuild (dbg : Bool) (d : Dict κ ν) : Option (Dict κ ν) := do
  let vtab ← loop (optimizeRound d.vused) (d.vtab.length + 1) (0, d.vtab)
  check dbg (vtab.length = d.vused)
  check dbg (vtab.length < d.valloc)
  some { d with vtab := vtab }

/-- `dict_optimize_vtab`. -/
def Dict.optimizeVtab (dbg : Bool) (d : Dict κ ν) : Option (Dict κ ν) := do
  check dbg d.CanOptimizeVtab
  let d ← d.doOptimizeVtabWithoutRebuild dbg
  d.htabRebuildAfterOptimize dbg

/-- `DeeDict_LockReadAndOptimize`. -/
def Dict.lockReadAndOptimize (dbg : Bool) (d : Dict κ ν) : Option (Dict κ ν) :=
  if d.CanOptimizeVtab then d.optimizeVtab dbg else some d

/-! ### Shrinking -/

/-- `_DeeDict_ShouldShrinkVTab`. -/
def Dict.ShouldShrinkVtab (d : Dict κ ν) : Prop := d.vused <<< 1 < d.valloc

instance (d : Dict κ ν) : Decidable d.ShouldShrinkVtab := inferInstanceAs (Decidable (_ < _))

/-- `_DeeDict_ShouldShrinkHTab2`. -/
def ShouldShrinkHtab2 (valloc hmask : ℕ) : Prop := valloc * 3 ≤ (hmask >>> 1) * 2 ∧ hmask ≠ 0

/-- `_DeeDict_CanShrinkHTab2`. -/
def CanShrinkHtab2 (valloc hmask : ℕ) : Prop := valloc ≤ hmask >>> 1 ∧ hmask ≠ 0

instance (valloc hmask : ℕ) : Decidable (ShouldShrinkHtab2 valloc hmask) := inferInstanceAs (Decidable (_ ∧ _))
instance (valloc hmask : ℕ) : Decidable (CanShrinkHtab2 valloc hmask) := inferInstanceAs (Decidable (_ ∧ _))

/-- The new mask of `dict_shrink_vtab_and_htab`. -/
def shrunkHmask (fullyShrink : Bool) (newValloc hmask : ℕ) : Option ℕ :=
  loop (fun hmask => some (if (if fullyShrink then CanShrinkHtab2 newValloc hmask else ShouldShrinkHtab2 newValloc hmask)
    then .next (hmask >>> 1) else .done hmask)) (hmask + 1) hmask

/-- `dict_shrink_vtab_and_htab`. A `realloc` that fails leaves the block as it is. -/
def Dict.shrinkVtabAndHtab (dbg : Bool) (d : Dict κ ν) (fullyShrink : Bool) : Option (Dict κ ν) := do
  check dbg (d.vused < d.valloc)
  check dbg (d.ShouldShrinkVtab ∨ fullyShrink)
  if d.vused = 0 then some ⟨[], 0, 0, 0, [0], true⟩
  else do
    let mustRebuildHtab := decide d.CanOptimizeVtab
    let d ← (if mustRebuildHtab then d.doOptimizeVtabWithoutRebuild dbg else some d)
    check dbg (d.vtab.length < d.valloc)
    let newValloc := if fullyShrink then d.vtab.length else d.vused <<< 1
    check dbg (d.vtab.length ≤ newValloc)
    let newHmask ← shrunkHmask fullyShrink newValloc d.hmask
    check dbg (newHmask ≤ d.hmask)
    check dbg (newValloc ≤ newHmask)
    check dbg (newValloc < d.valloc)
    let shrunk := { d with valloc := newValloc, hmask := newHmask }
    if mustRebuildHtab ∨ newHmask ≠ d.hmask then shrunk.htabRebuildAfterOptimize dbg
    else some shrunk

/-- `dict_autoshrink`. -/
def Dict.autoshrink (dbg : Bool) (d : Dict κ ν) : Option (Dict κ ν) :=
  if d.ShouldShrinkVtab then d.shrinkVtabAndHtab dbg false else some d

/-! ### What the tables hold -/

/-- The probe of a hash comes to a slot that holds `v` before it comes to an empty one. -/
def Reaches (htab : List ℕ) (hmask hash v : ℕ) : Prop :=
  ∃ n, cell htab (htabIndex hmask hash n) = v ∧ ∀ m < n, cell htab (htabIndex hmask hash m) ≠ 0

/-- What `dict_verify` asserts of the hash table. -/
structure HtabVerify (vtab : List (DictItem κ ν)) (hmask : ℕ) (htab : List ℕ) : Prop where
  length : htab.length = hmask + 1
  bound : ∀ i, cell htab i ≤ vtab.length
  eof : ∃ i ≤ hmask, cell htab i = 0
  reach : ∀ i item, vtab[i]? = some item → item.deleted = false → Reaches htab hmask item.diHash (i + 1)

/-- What `dict_verify` asserts of the sizes. -/
structure SizesVerify (d : Dict κ ν) : Prop where
  vused : d.vused = d.vtab.countP fun item => !item.deleted
  vsize : d.vtab.length ≤ d.valloc
  valloc : d.valloc ≤ d.hmask
  hmask : ∃ k ≤ 64, d.hmask + 1 = 2 ^ k

/-- `dict_verify`. -/
structure Dict.Verify (d : Dict κ ν) : Prop extends SizesVerify d where
  htab : HtabVerify d.vtab d.hmask d.htab

/-- A dict as the functions leave it: verified, with hashes of 64 bits and without duplicate keys, and with the
constant tables only as long as nothing has been allocated. -/
structure Dict.Sound (d : Dict κ ν) : Prop extends Dict.Verify d where
  hashes : ∀ item ∈ d.vtab, item.diHash < 2 ^ 64
  keys : (d.pairs.map Prod.fst).Nodup
  allocated : d.emptyTab = true → d.valloc = 0

/-! ### Building the hash table -/

section Rebuild

variable {dbg : Bool} {htab : List ℕ} {hmask hash v k i : ℕ} {item : DictItem κ ν} {vtab : List (DictItem κ ν)}
  {d : Dict κ ν}

theorem check_of {p : Prop} [Decidable p] (h : p) : check dbg p = some () := by
  unfold check
  cases dbg
  · rfl
  · exact assert_of h

theorem htabIndex_le (n : ℕ) : htabIndex hmask hash n ≤ hmask := Nat.and_le_right

theorem htabIndex_lt (h : htab.length = hmask + 1) (n : ℕ) : htabIndex hmask hash n < htab.length :=
  h.symm ▸ Nat.lt_succ_of_le (htabIndex_le n)

/-- An insertion takes the first empty slot of the probe. -/
theorem hxioInsert_ends (hlen : htab.length = hmask + 1) (hk : k ≤ 64) (hmask2 : hmask + 1 = 2 ^ k)
    (hhash : hash < 2 ^ 64) (heof : ∃ i ≤ hmask, cell htab i = 0) :
    Ends (hxioInsert htab hmask hash v) fun htab' => ∃ n, cell htab (htabIndex hmask hash n) = 0 ∧
      (∀ m < n, cell htab (htabIndex hmask hash m) ≠ 0) ∧ htab' = htab.set (htabIndex hmask hash n) v := by
  obtain ⟨t, ht, hzero⟩ := heof
  have hvisit : ∀ i ≤ hmask, (do
      if (← rd htab i) = 0 then some (some (← wr htab i v)) else some none) =
      some (if cell htab i = 0 then some (htab.set i v) else none) := by
    intro i hi
    rw [rd_of_lt (by omega), some_bind]
    by_cases h0 : cell htab i = 0
    · rw [if_pos h0, if_pos h0, wr_of_lt (by omega), some_bind]
    · rw [if_neg h0, if_neg h0]
  obtain ⟨n, r, hr, hfirst, hrun⟩ := exists_probeWith_eq (s := (hash &&& hmask, hash)) hmask2 hk hhash
    (fun i hi => ⟨_, hvisit i hi⟩) ht (by rw [hvisit t ht, if_pos hzero])
  have hhere := (hvisit (htabIndex hmask hash n) (htabIndex_le n)).symm.trans hr
  have hslot : cell htab (htabIndex hmask hash n) = 0 := by
    by_contra h0
    rw [if_neg h0] at hhere
    cases hhere
  rw [if_pos hslot] at hhere
  refine ⟨r, hrun, n, hslot, fun m hm h0 => ?_, (Option.some.inj (Option.some.inj hhere)).symm⟩
  have hnone := (hvisit (htabIndex hmask hash m) (htabIndex_le m)).symm.trans (hfirst m hm)
  rw [if_pos h0] at hnone
  cases hnone

/-- A write to an empty slot leaves what the other probes find. -/
theorem Reaches.set {w : ℕ} (h : Reaches htab hmask hash v) (hv : v ≠ 0) (hzero : cell htab i = 0) :
    Reaches (htab.set i w) hmask hash v := by
  obtain ⟨n, hn, hfirst⟩ := h
  have hcell : ∀ j, cell htab j ≠ 0 → cell (htab.set i w) j = cell htab j := by
    intro j hj
    refine cell_set_of_ne ?_
    rintro rfl
    exact hj hzero
  refine ⟨n, ?_, fun m hm => ?_⟩
  · rw [hcell _ (by rw [hn]; exact hv), hn]
  · rw [hcell _ (hfirst m hm)]
    exact hfirst m hm

/-- The table while it is being built: `i` slots are taken. -/
structure Rebuilding (vtab : List (DictItem κ ν)) (hmask i : ℕ) (htab : List ℕ) : Prop where
  length : htab.length = hmask + 1
  bound : ∀ j, cell htab j ≤ i
  count : htab.count 0 + i = hmask + 1
  reach : ∀ j item, j < i → vtab[j]? = some item → Reaches htab hmask item.diHash (j + 1)

theorem Rebuilding.start : Rebuilding vtab hmask 0 (List.replicate (hmask + 1) 0) := by
  refine ⟨by simp, fun j => ?_, by simp, fun j item hj => absurd hj (Nat.not_lt_zero j)⟩
  by_cases hj : j < hmask + 1
  · rw [cell_replicate hj]
  · rw [cell_of_le (by rw [List.length_replicate]; omega)]

theorem Rebuilding.eof (h : Rebuilding vtab hmask i htab) (hi : i ≤ hmask) : ∃ t ≤ hmask, cell htab t = 0 := by
  have hcount := h.count
  have hmem : 0 ∈ htab := List.count_pos_iff.mp (by omega)
  obtain ⟨t, ht, hget⟩ := List.getElem_of_mem hmem
  have hlen := h.length
  exact ⟨t, by omega, by simp [cell, ht, hget]⟩

theorem Rebuilding.step (h : Rebuilding vtab hmask i htab) (hi : i < hmask) (hitem : vtab[i]? = some item)
    (hhash : item.diHash < 2 ^ 64) (hk : k ≤ 64) (hmask2 : hmask + 1 = 2 ^ k) :
    Ends (hxioInsert htab hmask item.diHash (i + 1)) (Rebuilding vtab hmask (i + 1)) := by
  refine (hxioInsert_ends h.length hk hmask2 hhash (h.eof hi.le)).mono ?_
  rintro _ ⟨n, hzero, hfirst, rfl⟩
  have hlen := h.length
  have hslot : htabIndex hmask item.diHash n < htab.length := htabIndex_lt hlen n
  have hself : cell (htab.set (htabIndex hmask item.diHash n) (i + 1)) (htabIndex hmask item.diHash n) = i + 1 :=
    cell_set_self hslot
  refine ⟨by rw [List.length_set, hlen], fun j => ?_, ?_, fun j other hj hother => ?_⟩
  · by_cases hj : htabIndex hmask item.diHash n = j
    · rw [← hj, hself]
    · rw [cell_set_of_ne hj]
      exact (h.bound j).trans (Nat.le_succ i)
  · have hget : htab[htabIndex hmask item.diHash n] = 0 := by
      rw [← hzero]
      simp [cell, hslot]
    have hpos : 0 < htab.count 0 := List.count_pos_iff.mpr (hget ▸ List.getElem_mem hslot)
    have hcount := h.count
    rw [List.count_set hslot, hget]
    simp only [beq_self_eq_true, if_true, Nat.succ_ne_zero, beq_iff_eq, if_false]
    omega
  · rcases Nat.lt_succ_iff_lt_or_eq.mp hj with hlt | rfl
    · exact (h.reach j other hlt hother).set (Nat.succ_ne_zero j) hzero
    · obtain rfl := Option.some.inj (hitem.symm.trans hother)
      refine ⟨n, hself, fun m hm => ?_⟩
      have hne := hfirst m hm
      rw [cell_set_of_ne ?_]
      · exact hne
      · intro heq
        exact hne (heq ▸ hzero)

/-- Rebuilding finds a slot for every item, and every item is found again. -/
theorem Dict.rebuild_ends (hused : d.vtab.length = d.vused) (hempty : d.emptyTab = false) (hle : d.vtab.length ≤ d.hmask)
    (hk : k ≤ 64) (hmask2 : d.hmask + 1 = 2 ^ k) (hhash : ∀ item ∈ d.vtab, item.diHash < 2 ^ 64) :
    Ends (d.htabRebuildAfterOptimize dbg) fun r => ∃ htab, r = { d with htab := htab } ∧
      HtabVerify d.vtab d.hmask htab := by
  unfold Dict.htabRebuildAfterOptimize
  rw [check_of hused, some_bind, assert_of hempty, some_bind]
  refine Ends.bind (forLoop_ends_zero (fun i htab => Rebuilding d.vtab d.hmask i htab) .start ?_) ?_
  · intro i htab hi hbuilt
    have hitem : d.vtab[i]? = some d.vtab[i] := List.getElem?_eq_getElem hi
    rw [hitem, some_bind]
    exact hbuilt.step (by omega) hitem (hhash _ (List.getElem_mem hi)) hk hmask2
  · intro htab hbuilt
    refine Ends.pure ⟨htab, rfl, hbuilt.length, hbuilt.bound, hbuilt.eof hle, fun i item hitem _ => ?_⟩
    exact hbuilt.reach i item (List.getElem?_eq_some_iff.mp hitem).1 hitem

end Rebuild

/-! ### Removing the deleted items -/

section Optimize

variable {dbg : Bool} {vused : ℕ} {vtab : List (DictItem κ ν)} {d : Dict κ ν}

/-- The items that are not deleted. -/
def liveItems (vtab : List (DictItem κ ν)) : List (DictItem κ ν) := vtab.filter fun item => !item.deleted

theorem liveItems_liveItems (vtab : List (DictItem κ ν)) : liveItems (liveItems vtab) = liveItems vtab :=
  List.filter_filter.trans (List.filter_congr fun _ _ => Bool.and_self _)

theorem filterMap_pair_liveItems : (liveItems vtab).filterMap DictItem.pair = vtab.filterMap DictItem.pair := by
  induction vtab with
  | nil => rfl
  | cons item vtab ih =>
    obtain ⟨hash, pair⟩ := item
    cases pair with
    | none => exact ih
    | some pair => exact congrArg (pair :: ·) ih

/-- A list of items in which the first `i` have keys, with the same items not deleted as `orig`. -/
structure Optimizing (orig : List (DictItem κ ν)) (i : ℕ) (vtab : List (DictItem κ ν)) : Prop where
  live : liveItems vtab = liveItems orig
  done : ∀ item ∈ vtab.take i, item.deleted = false

theorem Optimizing.eq_of_all {orig : List (DictItem κ ν)} {i : ℕ} (h : Optimizing orig i vtab)
    (hall : ∀ item ∈ vtab, item.deleted = false) : vtab = liveItems orig := by
  rw [← h.live]
  refine (List.filter_eq_self.mpr fun item hitem => ?_).symm
  rw [hall item hitem]
  rfl

/-- The run of deleted items at `i` goes. -/
theorem Optimizing.moved {orig : List (DictItem κ ν)} {i j : ℕ} {item : DictItem κ ν} (h : Optimizing orig i vtab)
    (hitem : vtab[i]? = some item) (hdel : item.deleted = true)
    (hj : j = i + 1 + ((vtab.drop (i + 1)).takeWhile DictItem.deleted).length) :
    Optimizing orig i (vtab.take i ++ vtab.drop j) ∧ (vtab.take i ++ vtab.drop j).length < vtab.length := by
  obtain ⟨hlt, hget⟩ := List.getElem?_eq_some_iff.mp hitem
  have hrun : (vtab.drop (i + 1)).takeWhile DictItem.deleted ++ vtab.drop j = vtab.drop (i + 1) := by
    have happ : (vtab.drop (i + 1)).takeWhile DictItem.deleted ++ (vtab.drop (i + 1)).dropWhile DictItem.deleted =
      vtab.drop (i + 1) := List.takeWhile_append_dropWhile
    have hdrop : vtab.drop j = (vtab.drop (i + 1)).dropWhile DictItem.deleted := by
      rw [hj, ← List.drop_drop]
      nth_rewrite 2 [← happ]
      exact List.drop_left
    rw [hdrop, happ]
  have hsplit : vtab = vtab.take i ++ item :: ((vtab.drop (i + 1)).takeWhile DictItem.deleted ++ vtab.drop j) := by
    rw [hrun, ← hget, ← List.drop_eq_getElem_cons hlt, List.take_append_drop]
  have hdead : liveItems ((vtab.drop (i + 1)).takeWhile DictItem.deleted) = [] := by
    refine List.filter_eq_nil_iff.mpr fun other hother => ?_
    rw [List.mem_takeWhile_imp hother]
    exact Bool.false_ne_true
  have hcons : ∀ rest, liveItems (item :: rest) = liveItems rest := fun rest =>
    List.filter_cons_of_neg (by rw [hdel]; exact Bool.false_ne_true)
  refine ⟨⟨?_, ?_⟩, ?_⟩
  · rw [← h.live]
    conv_rhs => rw [hsplit]
    unfold liveItems at hdead hcons ⊢
    rw [List.filter_append, List.filter_append, hcons, List.filter_append, hdead, List.nil_append]
  · rw [List.take_append_of_le_length (by rw [List.length_take]; omega), List.take_take, min_self]
    exact h.done
  · rw [List.length_append, List.length_take, List.length_drop]
    omega

theorem length_liveItems : (liveItems vtab).length = vtab.countP fun item => !item.deleted :=
  List.countP_eq_length_filter.symm

theorem optimizeLoop_ends (hused : vused = vtab.countP fun item => !item.deleted) :
    Ends (loop (optimizeRound vused) (vtab.length + 1) (0, vtab)) fun r => r = liveItems vtab := by
  refine loop_ends (fun s => Optimizing vtab s.1 s.2) (fun s => s.2.length - s.1)
    ⟨rfl, fun item hitem => nomatch hitem⟩ (by dsimp only; omega) ?_
  rintro ⟨i, now⟩ h
  dsimp only at h
  unfold optimizeRound
  dsimp only
  cases hitem : now[i]? with
  | none =>
    refine Ends.pure (h.eq_of_all fun item hmem => h.done item ?_)
    rwa [List.take_of_length_le (List.getElem?_eq_none_iff.mp hitem)]
  | some item =>
    obtain ⟨hlt, hget⟩ := List.getElem?_eq_some_iff.mp hitem
    dsimp only
    cases hdel : item.deleted with
    | false =>
      rw [if_pos (by rfl)]
      refine Ends.pure ⟨⟨h.live, fun other hother => ?_⟩, by dsimp only; omega⟩
      rw [List.take_succ_eq_append_getElem hlt] at hother
      rcases List.mem_append.mp hother with hold | hnew
      · exact h.done other hold
      · rw [List.mem_singleton.mp hnew, hget, hdel]
    | true =>
      rw [if_neg (by decide)]
      obtain ⟨hmoved, hshorter⟩ := h.moved hitem hdel rfl
      by_cases hfull : (now.take i ++ now.drop (i + 1 +
          ((now.drop (i + 1)).takeWhile DictItem.deleted).length)).length ≤ vused
      · rw [if_pos hfull]
        -- as many items as keys: none of them is deleted
        refine Ends.pure (hmoved.eq_of_all ?_)
        have hcount := hmoved.live
        have hlen := congrArg List.length hcount
        rw [length_liveItems, length_liveItems, ← hused] at hlen
        have hall := List.countP_eq_length.mp (le_antisymm List.countP_le_length (hlen ▸ hfull))
        intro other hother
        simpa using hall other hother
      · rw [if_neg hfull]
        refine Ends.pure ⟨hmoved, ?_⟩
        have := List.length_take_le i now
        dsimp only
        have hi : i ≤ (now.take i).length := by
          rw [List.length_take]
          omega
        rw [List.length_append] at hshorter ⊢
        omega

theorem doOptimize_ends (h : SizesVerify d) (hroom : d.vused < d.valloc) :
    Ends (d.doOptimizeVtabWithoutRebuild dbg) fun r => r = { d with vtab := liveItems d.vtab } := by
  have hlen : (liveItems d.vtab).length = d.vused := by rw [length_liveItems, ← h.vused]
  unfold Dict.doOptimizeVtabWithoutRebuild
  refine Ends.bind (optimizeLoop_ends h.vused) ?_
  rintro _ rfl
  rw [check_of hlen, some_bind, check_of (by omega), some_bind]
  exact Ends.pure rfl

end Optimize

/-! ### Sound dicts -/

section Sound

variable {dbg : Bool} {d r : Dict κ ν} {q : ℕ} {item : DictItem κ ν}

/-- The deletion of an item: `di_key = NULL, --d_vused`. -/
def Dict.deleteAt (d : Dict κ ν) (q : ℕ) : Option (Dict κ ν) := do
  let item ← d.vtab[q]?
  some { d with
    vtab := d.vtab.set q item.delete
    vused := d.vused - 1 }

theorem Dict.Sound.allocated_of_lt (h : d.Sound) {n : ℕ} (hn : n < d.vtab.length) : d.emptyTab = false := by
  have hsize := h.vsize
  cases hempty : d.emptyTab with
  | false => rfl
  | true =>
    have := h.allocated hempty
    omega

theorem pairs_set (hitem : d.vtab[q]? = some item) :
    (d.vtab.set q item.delete).filterMap DictItem.pair =
      (d.vtab.take q).filterMap DictItem.pair ++ (d.vtab.drop (q + 1)).filterMap DictItem.pair := by
  obtain ⟨hlt, -⟩ := List.getElem?_eq_some_iff.mp hitem
  rw [List.set_eq_take_append_cons_drop, if_pos hlt, List.filterMap_append, List.filterMap_cons_none rfl]

/-- A deletion keeps the tables sound. -/
theorem Dict.Sound.deleteAt (h : d.Sound) (hitem : d.vtab[q]? = some item) (hlive : item.deleted = false) :
    Ends (d.deleteAt q) fun r => r.Sound ∧ r.CanOptimizeVtab ∧ r.vused + 1 = d.vused ∧ r.valloc = d.valloc ∧
      r.vtab = d.vtab.set q item.delete := by
  obtain ⟨hlt, hget⟩ := List.getElem?_eq_some_iff.mp hitem
  have hused := h.vused
  have hcount : (d.vtab.set q item.delete).countP (fun item => !item.deleted) + 1 = d.vused := by
    have hpos : 0 < d.vtab.countP fun item => !item.deleted :=
      List.countP_pos_iff.mpr ⟨item, List.mem_of_getElem? hitem, by rw [hlive]; rfl⟩
    have hdead : item.delete.deleted = true := rfl
    rw [List.countP_set hlt, hget, hlive, hdead, hused, if_pos (by rfl), if_neg (by decide)]
    omega
  have hle : d.vused ≤ d.vtab.length := by
    rw [hused]
    exact List.countP_le_length
  unfold Dict.deleteAt
  rw [hitem, some_bind]
  refine Ends.pure ⟨⟨⟨⟨?_, ?_, h.valloc, h.hmask⟩, h.htab.length, ?_, h.htab.eof, ?_⟩, ?_, ?_, h.allocated⟩, ?_, ?_, rfl, rfl⟩
  · exact (Nat.eq_sub_of_add_eq hcount).symm
  · dsimp only
    rw [List.length_set]
    exact h.vsize
  · dsimp only
    rw [List.length_set]
    exact h.htab.bound
  · intro i other hother hdel
    dsimp only at hother
    by_cases hi : q = i
    · subst hi
      rw [List.getElem?_set_self hlt, Option.some.injEq] at hother
      rw [← hother] at hdel
      cases hdel
    · rw [List.getElem?_set_ne hi] at hother
      exact h.htab.reach i other hother hdel
  · intro other hother
    rcases List.mem_or_eq_of_mem_set hother with hold | rfl
    · exact h.hashes other hold
    · exact h.hashes item (List.mem_of_getElem? hitem)
  · refine h.keys.sublist (List.Sublist.map _ ?_)
    show List.Sublist ((d.vtab.set q item.delete).filterMap DictItem.pair) (d.vtab.filterMap DictItem.pair)
    rw [pairs_set hitem, ← List.filterMap_append]
    refine List.Sublist.filterMap _ ?_
    conv_rhs => rw [← List.take_append_drop q d.vtab]
    exact List.Sublist.append_left (List.drop_sublist_drop_left _ (Nat.le_succ q)) _
  · show d.vused - 1 < (d.vtab.set q item.delete).length
    rw [List.length_set]
    omega
  · dsimp only
    omega

/-- The same items in tables of other sizes. -/
theorem Dict.Sound.resized (h : d.Sound) {valloc hmask : ℕ} {htab : List ℕ} (hempty : d.emptyTab = false)
    (hvalloc : d.vused ≤ valloc) (hmask' : valloc ≤ hmask) (hpow : ∃ k ≤ 64, hmask + 1 = 2 ^ k)
    (hverify : HtabVerify (liveItems d.vtab) hmask htab) :
    Dict.Sound ⟨liveItems d.vtab, valloc, d.vused, hmask, htab, d.emptyTab⟩ := by
  have hlen : (liveItems d.vtab).length = d.vused := by rw [length_liveItems, ← h.vused]
  refine ⟨⟨⟨?_, hlen ▸ hvalloc, hmask', hpow⟩, hverify⟩, fun item hitem => h.hashes item (List.mem_of_mem_filter hitem), ?_,
    fun hcontra => ?_⟩
  · show d.vused = (liveItems d.vtab).countP fun item => !item.deleted
    rw [← hlen, eq_comm, List.countP_eq_length]
    exact fun item hitem => (List.mem_filter.mp hitem).2
  · show (((liveItems d.vtab).filterMap DictItem.pair).map Prod.fst).Nodup
    rw [filterMap_pair_liveItems]
    exact h.keys
  · rw [hempty] at hcontra
    cases hcontra

theorem Dict.Sound.emptyTab_of_room (h : d.Sound) (hroom : d.vused < d.valloc) : d.emptyTab = false := by
  refine Bool.eq_false_iff.mpr fun hempty => ?_
  have := h.allocated hempty
  omega

/-- Optimizing drops the deleted items; without assertions also when there are none. -/
theorem Dict.Sound.optimize_of_room (h : d.Sound) (hcheck : check dbg d.CanOptimizeVtab = some ())
    (hroom : d.vused < d.valloc) :
    Ends (d.optimizeVtab dbg) fun r => r.Sound ∧ r.vtab = liveItems d.vtab ∧ r.vused = d.vused ∧ r.valloc = d.valloc := by
  have hempty := h.emptyTab_of_room hroom
  have hlen : (liveItems d.vtab).length = d.vused := by rw [length_liveItems, ← h.vused]
  obtain ⟨k, hk, hpow⟩ := h.hmask
  have hvalloc := h.valloc
  unfold Dict.optimizeVtab
  rw [hcheck, some_bind]
  refine Ends.bind (doOptimize_ends h.toSizesVerify hroom) ?_
  rintro _ rfl
  refine (Dict.rebuild_ends (d := { d with vtab := liveItems d.vtab }) hlen hempty (by dsimp only; omega) hk hpow
    fun item hitem => h.hashes item (List.mem_of_mem_filter hitem)).mono ?_
  rintro _ ⟨htab, rfl, hverify⟩
  exact ⟨h.resized hempty hroom.le hvalloc ⟨k, hk, hpow⟩ hverify, rfl, rfl, rfl⟩

theorem Dict.Sound.optimizeVtab (h : d.Sound) (hopt : d.CanOptimizeVtab) :
    Ends (d.optimizeVtab dbg) fun r => r.Sound ∧ r.vtab = liveItems d.vtab ∧ r.vused = d.vused ∧ r.valloc = d.valloc :=
  h.optimize_of_room (check_of hopt) (lt_of_lt_of_le hopt h.vsize)

theorem liveItems_of_full (h : d.Sound) (hfull : ¬d.CanOptimizeVtab) : liveItems d.vtab = d.vtab := by
  refine List.filter_eq_self.mpr (List.countP_eq_length.mp (le_antisymm List.countP_le_length ?_))
  rw [← h.vused]
  exact not_lt.mp hfull

/-- Taking the lock optimizes when there is something to optimize. -/
theorem Dict.Sound.lockReadAndOptimize (h : d.Sound) :
    Ends (d.lockReadAndOptimize dbg) fun r => r.Sound ∧ r.vtab = liveItems d.vtab ∧ r.vused = d.vused ∧
      r.valloc = d.valloc := by
  unfold Dict.lockReadAndOptimize
  by_cases hopt : d.CanOptimizeVtab
  · rw [if_pos hopt]
    exact h.optimizeVtab hopt
  · rw [if_neg hopt]
    exact Ends.pure ⟨h, (liveItems_of_full h hopt).symm, rfl, rfl⟩

theorem shrunkHmask_ends {fullyShrink : Bool} {newValloc hmask k : ℕ} (hle : newValloc ≤ hmask) (hpow : hmask + 1 = 2 ^ k) :
    Ends (shrunkHmask fullyShrink newValloc hmask) fun m => m ≤ hmask ∧ newValloc ≤ m ∧ ∃ j ≤ k, m + 1 = 2 ^ j := by
  unfold shrunkHmask
  refine loop_ends (fun m => m ≤ hmask ∧ newValloc ≤ m ∧ ∃ j ≤ k, m + 1 = 2 ^ j) id ⟨le_rfl, hle, k, le_rfl, hpow⟩
    (Nat.lt_succ_self _) ?_
  rintro m ⟨hm, hnew, j, hj, hmpow⟩
  by_cases hshrink : if fullyShrink then CanShrinkHtab2 newValloc m else ShouldShrinkHtab2 newValloc m
  · rw [if_pos hshrink]
    have hhalf : newValloc ≤ m >>> 1 ∧ m ≠ 0 := by
      cases fullyShrink with
      | false =>
        obtain ⟨h1, h2⟩ : ShouldShrinkHtab2 newValloc m := hshrink
        exact ⟨by omega, h2⟩
      | true => exact hshrink
    have hjpos : j ≠ 0 := by
      rintro rfl
      rw [pow_zero] at hmpow
      exact hhalf.2 (by omega)
    obtain ⟨i, rfl⟩ := Nat.exists_eq_succ_of_ne_zero hjpos
    rw [Nat.shiftRight_eq_div_pow, pow_one] at hhalf ⊢
    rw [Nat.pow_succ] at hmpow
    refine Ends.pure ⟨⟨by omega, hhalf.1, i, by omega, by omega⟩, ?_⟩
    show m / 2 < m
    omega
  · rw [if_neg hshrink]
    exact Ends.pure ⟨hm, hnew, j, hj, hmpow⟩

/-- Shrinking a dict half of whose slots would be enough: the hash table is rebuilt when the items or the mask change. -/
theorem Dict.Sound.shrink_eq (h : d.Sound) (hshould : d.ShouldShrinkVtab) (hused : d.vused ≠ 0) :
    ∃ m, d.vused <<< 1 ≤ m ∧ (∃ k ≤ 64, m + 1 = 2 ^ k) ∧
      d.shrinkVtabAndHtab dbg false = if decide d.CanOptimizeVtab = true ∨ m ≠ d.hmask then
        Dict.htabRebuildAfterOptimize dbg ⟨liveItems d.vtab, d.vused <<< 1, d.vused, m, d.htab, d.emptyTab⟩
      else some ⟨liveItems d.vtab, d.vused <<< 1, d.vused, m, d.htab, d.emptyTab⟩ := by
  have hnew : d.vused <<< 1 = 2 * d.vused := by rw [Nat.shiftLeft_eq, pow_one, Nat.mul_comm]
  have hlt : d.vused <<< 1 < d.valloc := hshould
  have hroom : d.vused < d.valloc := by omega
  have hlen : (liveItems d.vtab).length = d.vused := by rw [length_liveItems, ← h.vused]
  obtain ⟨k, hk, hpow⟩ := h.hmask
  have hvalloc := h.valloc
  have hoptimized : (if decide d.CanOptimizeVtab then d.doOptimizeVtabWithoutRebuild dbg else some d) =
      some { d with vtab := liveItems d.vtab } := by
    by_cases hopt : d.CanOptimizeVtab
    · obtain ⟨_, hrun, rfl⟩ := @doOptimize_ends _ _ dbg d h.toSizesVerify hroom
      rw [decide_eq_true hopt, if_pos rfl, hrun]
    · rw [decide_eq_false hopt, if_neg Bool.false_ne_true, liveItems_of_full h hopt]
  obtain ⟨m, hrun, hm, hnewm, j, hj, hmpow⟩ := @shrunkHmask_ends false (d.vused <<< 1) d.hmask k (by omega) hpow
  refine ⟨m, hnewm, ⟨j, hj.trans hk, hmpow⟩, ?_⟩
  unfold Dict.shrinkVtabAndHtab
  rw [check_of hroom, some_bind, check_of (Or.inl hshould), some_bind, if_neg hused]
  dsimp only
  rw [hoptimized, some_bind]
  dsimp only
  rw [check_of (by omega), some_bind, if_neg Bool.false_ne_true, check_of (by omega), some_bind, hrun, some_bind,
    check_of hm, some_bind, check_of hnewm, some_bind, check_of hlt, some_bind]

theorem Dict.Sound.shrink (h : d.Sound) (hshould : d.ShouldShrinkVtab) (hused : d.vused ≠ 0) :
    Ends (d.shrinkVtabAndHtab dbg false) fun r => r.Sound ∧ r.vtab = liveItems d.vtab ∧ r.vused = d.vused ∧
      r.valloc = 2 * d.vused := by
  have hnew : d.vused <<< 1 = 2 * d.vused := by rw [Nat.shiftLeft_eq, pow_one, Nat.mul_comm]
  have hlt : d.vused <<< 1 < d.valloc := hshould
  have hempty := h.emptyTab_of_room (by omega)
  have hlen : (liveItems d.vtab).length = d.vused := by rw [length_liveItems, ← h.vused]
  have hle : d.vused ≤ d.vused <<< 1 := by omega
  obtain ⟨m, hnewm, ⟨j, hj, hmpow⟩, heq⟩ := @Dict.Sound.shrink_eq _ _ dbg d h hshould hused
  rw [heq]
  by_cases hrebuild : decide d.CanOptimizeVtab = true ∨ m ≠ d.hmask
  · rw [if_pos hrebuild]
    refine (Dict.rebuild_ends (d := ⟨liveItems d.vtab, _, d.vused, m, d.htab, d.emptyTab⟩) hlen hempty
      (by dsimp only; omega) hj hmpow fun item hitem => h.hashes item (List.mem_of_mem_filter hitem)).mono ?_
    rintro _ ⟨htab, rfl, hverify⟩
    exact ⟨h.resized hempty hle hnewm ⟨j, hj, hmpow⟩ hverify, rfl, rfl, hnew⟩
  · rw [if_neg hrebuild]
    obtain ⟨hopt, hmeq⟩ := not_or.mp hrebuild
    have hfull := liveItems_of_full h fun hcan => hopt (decide_eq_true hcan)
    have hverify : HtabVerify (liveItems d.vtab) m d.htab := by
      rw [hfull, not_not.mp hmeq]
      exact h.htab
    exact Ends.pure ⟨h.resized hempty hle hnewm ⟨j, hj, hmpow⟩ hverify, rfl, rfl, hnew⟩

theorem liveItems_of_unused (h : d.Sound) (hused : d.vused = 0) : liveItems d.vtab = [] := by
  rw [← List.length_eq_zero_iff, length_liveItems, ← h.vused, hused]

/-- The dict that shares the constant tables. -/
theorem emptyDict_sound : Dict.Sound (⟨[], 0, 0, 0, [0], true⟩ : Dict κ ν) where
  vused := rfl
  vsize := le_rfl
  valloc := le_rfl
  hmask := ⟨0, Nat.zero_le _, rfl⟩
  htab := by
    refine ⟨rfl, fun i => ?_, ⟨0, le_rfl, rfl⟩, fun i item hitem => ?_⟩
    · cases i with
      | zero => exact le_rfl
      | succ i => exact le_rfl
    · cases hitem
  hashes := List.forall_mem_nil _
  keys := List.nodup_nil
  allocated _ := rfl

/-- Shrinking keeps the pairs. -/
theorem Dict.Sound.autoshrink (h : d.Sound) : Ends (d.autoshrink dbg) fun r => r.Sound ∧ r.pairs = d.pairs := by
  unfold Dict.autoshrink
  by_cases hshould : d.ShouldShrinkVtab
  · rw [if_pos hshould]
    by_cases hused : d.vused = 0
    · have hlt : d.vused <<< 1 < d.valloc := hshould
      rw [hused, Nat.zero_shiftLeft] at hlt
      unfold Dict.shrinkVtabAndHtab
      rw [check_of (by omega), some_bind, check_of (Or.inl hshould), some_bind, if_pos hused]
      refine Ends.pure ⟨emptyDict_sound, ?_⟩
      unfold Dict.pairs
      rw [← @filterMap_pair_liveItems _ _ d.vtab, liveItems_of_unused h hused]
    · refine (h.shrink hshould hused).mono fun r hr => ⟨hr.1, ?_⟩
      unfold Dict.pairs
      rw [hr.2.1, filterMap_pair_liveItems]
  · rw [if_neg hshould]
    exact Ends.pure ⟨h, rfl⟩

end Sound

end Deemon.Collections
