import Deemon.Collections.DictInsert

/-!
# Dicts of a vector of pairs

`DeeDict_NewKeyValuesInherited` makes a dict with just enough room for the pairs of a vector and takes over their
references. As long as the keys are new the items are appended. From the first duplicate on, the pairs that are
replaced are collected in a list, which is released at the end. When something is thrown the tables and the list are
freed, and the caller keeps all references.
-/

namespace Deemon.Collections

open Deemon.Run Deemon.Probing Deemon.KeyedList

variable {κ ν : Type}

/-! ### The code -/

/-- `dict_new_with_hint`, with `none` when there is no memory. -/
def dictNewWithHint (numItems : ℕ) (mem allowOveralloc : Bool) : Option (Dict κ ν) :=
  if mem = false then none
  else if numItems = 0 then some ⟨[], 0, 0, 0, [0], true⟩
  else
    let hmask := dictHmaskFromCount numItems
    let valloc := dictVallocFromHmaskAndCount hmask numItems allowOveralloc
    some ⟨[], valloc, 0, hmask, List.replicate (hmask + 1) 0, false⟩

/-- How the search for a key among the items ends: a comparison throws, the hash-chain ends, or the key is there. -/
inductive BulkSearch where
  | err
  | eof (htabIdx : ℕ)
  | dup (htabIdx vtabIdx : ℕ)

/-- One slot of the search. -/
def Dict.bulkSlot (ops : KeyOps κ) (d : Dict κ ν) (key : κ) (htabIdx : ℕ) : Option (Option BulkSearch) := do
  let vtabIdx ← rd d.htab htabIdx
  if vtabIdx = 0 then some (some (.eof htabIdx))
  else do
    let item ← d.vtab[vtabIdx - 1]?
    if item.diHash ≠ ops.hash key then some none
    else match item.pair with
      | none => some none
      | some pair =>
        match ops.tryCompareEq key pair.1 with
        | none => some (some .err)
        | some false => some none
        | some true => some (some (.dup htabIdx vtabIdx))

/-- The search of both loops. -/
def Dict.bulkSearch (ops : KeyOps κ) (d : Dict κ ν) (key : κ) : Option BulkSearch :=
  probeWith (d.bulkSlot ops key) d.hmask (ops.hash key &&& d.hmask, ops.hash key)

/-- An item is deleted, and its slot led to the pair that is appended. -/
def Dict.overrideDuplicate (dbg : Bool) (d : Dict κ ν) (hash : ℕ) (pair : κ × ν) (htabIdx vtabIdx : ℕ) :
    Option (Dict κ ν × (κ × ν)) := do
  let item ← d.vtab[vtabIdx - 1]?
  let old ← item.pair
  check dbg (d.vtab.length < d.valloc)
  -- the item is written into the table
  assert (d.vtab.length < d.valloc)
  let htab ← wr d.htab htabIdx (d.vtab.length + 1)
  some ({ d with
    vtab := d.vtab.set (vtabIdx - 1) item.delete ++ [DictItem.mk hash (some pair)]
    htab := htab }, old)

/-- `Dee_objectlist_fini`: the objects of the list are released. -/
def objectlistFini (dups : List (κ × ν)) : List (κ × ν) := dups

/-- `Dee_objectlist_elemv_free`: the list is freed, and none of its objects released. -/
def objectlistElemvFree (_ : List (κ × ν)) : List (κ × ν) := []

/-- What a call leaves: the dict, or an exception, and the pairs whose references it has released. -/
structure BulkRun (κ ν : Type) where
  result : Option (Dict κ ν)
  released : List (κ × ν)

/-- The loop of `dict_insert_items_inherited_after_first_duplicate`. The list of duplicates may get room for one more
pair when it has `n` of them if `dupAlloc n`. -/
def insertRemainingItems (ops : KeyOps κ) (dbg : Bool) (dupAlloc : ℕ → Bool) :
    Dict κ ν → List (κ × ν) → List (κ × ν) → Option (BulkRun κ ν)
  | self, dups, [] => some ⟨some self, objectlistFini dups⟩
  | self, dups, pair :: keyValues => do
    match ← self.bulkSearch ops pair.1 with
    | .err => some ⟨none, objectlistElemvFree dups⟩
    | .dup htabIdx vtabIdx =>
      if dupAlloc dups.length = false then some ⟨none, objectlistElemvFree dups⟩
      else do
        let (self, old) ← self.overrideDuplicate dbg (ops.hash pair.1) pair htabIdx vtabIdx
        insertRemainingItems ops dbg dupAlloc self (dups ++ [old]) keyValues
    | .eof htabIdx => do
      let self ← self.appendItem dbg (ops.hash pair.1) pair htabIdx
      insertRemainingItems ops dbg dupAlloc self dups keyValues

/-- `dict_insert_items_inherited_after_first_duplicate`; `pair` is the duplicate. -/
def dictInsertItemsInheritedAfterFirstDuplicate (ops : KeyOps κ) (dbg : Bool) (dupAlloc : ℕ → Bool) (self : Dict κ ν)
    (vtabIdx htabIdx : ℕ) (pair : κ × ν) (keyValues : List (κ × ν)) : Option (BulkRun κ ν) :=
  if dupAlloc 0 = false then some ⟨none, objectlistElemvFree []⟩
  else do
    let item ← self.vtab[vtabIdx - 1]?
    let (self, old) ← self.overrideDuplicate dbg item.diHash pair htabIdx vtabIdx
    insertRemainingItems ops dbg dupAlloc self [old] keyValues

/-- The loop of `DeeDict_NewKeyValuesInherited`. When it fails the tables are freed with the references in them. -/
def insertItems (ops : KeyOps κ) (dbg : Bool) (dupAlloc : ℕ → Bool) :
    Dict κ ν → List (κ × ν) → Option (BulkRun κ ν)
  | result, [] => some ⟨some result, []⟩
  | result, pair :: keyValues => do
    match ← result.bulkSearch ops pair.1 with
    | .err => some ⟨none, []⟩
    | .dup htabIdx vtabIdx =>
      dictInsertItemsInheritedAfterFirstDuplicate ops dbg dupAlloc result vtabIdx htabIdx pair keyValues
    | .eof htabIdx => do
      check dbg (result.vused = result.vtab.length)
      let result ← result.appendItem dbg (ops.hash pair.1) pair htabIdx
      insertItems ops dbg dupAlloc result keyValues

/-- `DeeDict_NewKeyValuesInherited`. -/
def deeDictNewKeyValuesInherited (ops : KeyOps κ) (dbg mem : Bool) (dupAlloc : ℕ → Bool) (keyValues : List (κ × ν)) :
    Option (BulkRun κ ν) :=
  match dictNewWithHint keyValues.length mem false with
  | none => some ⟨none, []⟩
  | some result => insertItems ops dbg dupAlloc result keyValues

/-- The pairs are set one after the other with `dict_setitem`, until one of the calls throws. -/
def setitems (ops : KeyOps κ) (dbg : Bool) (answers : ℕ → GrowAnswers) :
    ℕ → Dict κ ν → List (κ × ν) → Option (Dict κ ν × Bool)
  | _, d, [] => some (d, true)
  | n, d, pair :: keyValues => do
    let (d, success) ← dictSetitem ops dbg (answers n) d pair
    if success then setitems ops dbg answers (n + 1) d keyValues else some (d, false)

/-! ### What it is for -/

/-- A comparison of two keys of the vector throws. -/
def CompareThrows (ops : KeyOps κ) (keyValues : List (κ × ν)) : Prop :=
  ∃ p ∈ keyValues, ∃ q ∈ keyValues, ops.tryCompareEq p.1 q.1 = none

/-- The dict of a vector of pairs: verified, with the room that was chosen for the pairs, and with the pairs that are
left when they are set one by one in an empty dict. Every pair is in the dict or has been released. -/
structure DictOf (ops : KeyOps κ) (dbg : Bool) (keyValues : List (κ × ν)) (d : Dict κ ν) (released : List (κ × ν)) :
    Prop where
  verify : d.Verify
  valloc : d.valloc = keyValues.length
  vsize : d.vtab.length = keyValues.length
  owned : List.Perm (d.pairs ++ released) keyValues
  sequential : ∀ answers : ℕ → GrowAnswers, (∀ n, (answers n).tryRealloc = true) →
    Ends (setitems ops dbg answers 0 ⟨[], 0, 0, 0, [0], true⟩ keyValues) fun r =>
      (r.2 = false → CompareThrows ops keyValues) ∧ (r.2 = true → r.1.pairs = d.pairs)

/-! ### One pair -/

section Pair

variable {ops : KeyOps κ} {same : κ → κ → Prop} {dbg mem : Bool} {d : Dict κ ν} {pair : κ × ν} {key : κ}
  {n htabIdx vtabIdx : ℕ}

/-- What the search among the items has found, in the terms of `dict_setitem`. -/
def BulkSearch.toSearch : BulkSearch → Search
  | .err => .err
  | .eof htabIdx => .absent htabIdx
  | .dup htabIdx vtabIdx => .present htabIdx vtabIdx none

/-- One slot of the search among the items, as `dict_setitem` searches. -/
theorem Dict.searchSlot_of_bulkSlot {i : ℕ} {found : Option BulkSearch} (h : d.bulkSlot ops key i = some found) :
    ∃ result, d.searchSlot ops key i none = some (found.elim (.next result) fun r => .done r.toSearch) := by
  unfold Dict.bulkSlot at h
  unfold Dict.searchSlot
  obtain ⟨vtabIdx, hread, h⟩ := of_bind h
  rw [hread, some_bind]
  by_cases hzero : vtabIdx = 0
  · rw [if_pos hzero] at h ⊢
    cases h
    exact ⟨none, rfl⟩
  · rw [if_neg hzero] at h ⊢
    obtain ⟨⟨hash, stored⟩, hitem, h⟩ := of_bind h
    rw [hitem, some_bind]
    dsimp only at h ⊢
    by_cases hhash : hash ≠ ops.hash key
    · rw [if_pos hhash] at h
      cases h
      cases stored with
      | none => exact ⟨_, rfl⟩
      | some stored => exact ⟨_, if_pos hhash⟩
    · rw [if_neg hhash] at h
      cases stored with
      | none =>
        cases h
        exact ⟨_, rfl⟩
      | some stored =>
        dsimp only at h ⊢
        rw [if_neg hhash]
        cases hcompare : ops.tryCompareEq key stored.1 with
        | none =>
          rw [hcompare] at h
          cases h
          exact ⟨none, rfl⟩
        | some equal =>
          rw [hcompare] at h
          cases equal <;> cases h <;> exact ⟨none, rfl⟩

/-- One slot of the search among the items. -/
theorem Dict.bulkSlot_spec {found : Option BulkSearch} (hpassed : d.Passed ops key n)
    (hrun : d.bulkSlot ops key (htabIndex d.hmask (ops.hash key) n) = some found) :
    (found = none → d.Passed ops key (n + 1)) ∧ ∀ r, found = some r → d.Found ops key r.toSearch := by
  obtain ⟨result, hstep⟩ := Dict.searchSlot_of_bulkSlot hrun
  have hpost := Dict.searchSlot_spec hpassed (fun slot hslot => (Option.some_ne_none _ hslot.symm).elim) hstep
  cases found with
  | none => exact ⟨fun _ => hpost.1, fun r hr => (Option.some_ne_none _ hr.symm).elim⟩
  | some r =>
    refine ⟨fun hr => (Option.some_ne_none _ hr).elim, ?_⟩
    rintro _ ⟨⟩
    exact hpost

/-- The search among the items comes to an end. -/
theorem Dict.Verify.bulkSearch (h : d.Verify) (hhash : ops.hash key < 2 ^ 64) :
    Ends (d.bulkSearch ops key) fun r => d.Found ops key r.toSearch := by
  obtain ⟨k, hk, hmask2⟩ := h.hmask
  obtain ⟨t, ht, hzero⟩ := h.htab.eof
  have hread : ∀ i ≤ d.hmask, rd d.htab i = some (cell d.htab i) := fun i hi =>
    rd_of_lt (by rw [h.htab.length]; omega)
  have htotal : ∀ i ≤ d.hmask, ∃ found, d.bulkSlot ops key i = some found := by
    intro i hi
    unfold Dict.bulkSlot
    rw [hread i hi, some_bind]
    by_cases h0 : cell d.htab i = 0
    · rw [if_pos h0]
      exact ⟨_, rfl⟩
    · rw [if_neg h0]
      have hbound := h.htab.bound i
      rw [List.getElem?_eq_getElem (show _ - 1 < d.vtab.length by omega), some_bind]
      split_ifs
      · exact ⟨_, rfl⟩
      · cases d.vtab[cell d.htab i - 1].pair with
        | none => exact ⟨_, rfl⟩
        | some pair =>
          dsimp only
          split <;> exact ⟨_, rfl⟩
  have hend : d.bulkSlot ops key t = some (some (.eof t)) := by
    unfold Dict.bulkSlot
    rw [hread t ht, some_bind, if_pos hzero]
  obtain ⟨n, r, hr, hfirst, hrun⟩ := exists_probeWith_eq (s := (ops.hash key &&& d.hmask, ops.hash key)) hmask2 hk hhash
    htotal ht hend
  have hpassed : ∀ m ≤ n, d.Passed ops key m := by
    intro m hm
    induction m with
    | zero => exact .zero
    | succ m ih => exact (Dict.bulkSlot_spec (ih (by omega)) (hfirst m hm)).1 rfl
  exact ⟨r, hrun, (Dict.bulkSlot_spec (hpassed n le_rfl) hr).2 r rfl⟩

/-- A throwing search has compared the key with one of the dict. -/
theorem Dict.Found.throws (h : d.Found ops key .err) : ∃ p ∈ d.pairs, ops.tryCompareEq key p.1 = none := by
  obtain ⟨n, -, pair, ⟨-, hitem⟩, hnone⟩ := h
  exact ⟨pair, List.mem_filterMap.mpr ⟨_, List.mem_of_getElem? hitem, rfl⟩, hnone⟩

/-- A duplicate takes the place of the pair with its key, which is handed out. -/
theorem Dict.Keyed.overrideDuplicate [DecidableRel same] (h : d.Keyed ops same) (hlaw : ops.Lawful same)
    (hroom : d.vtab.length < d.valloc) (hfound : d.Found ops pair.1 (.present htabIdx vtabIdx none)) :
    Ends (d.overrideDuplicate dbg (ops.hash pair.1) pair htabIdx vtabIdx) fun r => r.1.Keyed ops same ∧
      r.1.pairs = insertLast same d.pairs pair ∧ List.Perm (r.1.pairs ++ [r.2]) (d.pairs ++ [pair]) ∧
      r.1.vtab.length = d.vtab.length + 1 ∧ r.1.valloc = d.valloc ∧
      ∃ item, d.vtab[vtabIdx - 1]? = some item ∧ item.diHash = ops.hash pair.1 := by
  obtain ⟨n, hpassed, rfl, rfl, ⟨old, ⟨hne, hitem⟩, hequal⟩, -⟩ := hfound
  have hsame : same pair.1 old.1 := (hlaw.compare _ _ _ hequal).mp rfl
  obtain ⟨q, hq⟩ := Nat.exists_eq_succ_of_ne_zero hne
  rw [Nat.succ_eq_add_one] at hq
  rw [hq, Nat.add_sub_cancel] at hitem
  have hidx : htabIndex d.hmask (ops.hash pair.1) n < d.htab.length := htabIndex_lt h.htab.length n
  have hplaced := h.placedWithRoom hlaw hitem hsame hq hpassed hroom
  have hover := hplaced.overridden h hlaw hplaced.exact rfl le_rfl
  have hperm : List.Perm (insertLast same d.pairs pair ++ [old]) (d.pairs ++ [pair]) := by
    rw [← h.insert_of_mem hlaw.equivalence hitem hsame, pairs_split hitem]
    refine (List.perm_append_singleton old _).trans ?_
    rw [List.append_assoc, List.append_assoc, List.cons_append]
    exact List.perm_middle.symm
  unfold Dict.overrideDuplicate
  rw [hq, Nat.add_sub_cancel, hitem, some_bind, some_bind, check_of hroom, some_bind, assert_of hroom, some_bind,
    wr_of_lt hidx, some_bind]
  refine Ends.pure ⟨hover.keyed, hover.pairs, ?_, ?_, rfl, _, rfl, rfl⟩
  · rw [← hover.pairs] at hperm
    exact hperm
  · rw [List.length_append, List.length_set]
    rfl

end Pair

/-! ### All pairs -/

section Run

variable {ops : KeyOps κ} {same : κ → κ → Prop} [DecidableRel same] {dbg mem : Bool} {dupAlloc : ℕ → Bool}
  {d : Dict κ ν} {pair : κ × ν} {n hmask valloc htabIdx vtabIdx : ℕ} {done rest keyValues dups : List (κ × ν)}

omit [DecidableRel same] in
/-- Fresh tables without items. -/
theorem freshDict_keyed (hvalloc : valloc ≤ hmask) (hpow : ∃ k ≤ 64, hmask + 1 = 2 ^ k) :
    Dict.Keyed ops same (⟨[], valloc, 0, hmask, List.replicate (hmask + 1) 0, false⟩ : Dict κ ν) where
  vused := rfl
  vsize := Nat.zero_le _
  valloc := hvalloc
  hmask := hpow
  htab := by
    refine ⟨List.length_replicate, fun i => ?_, ⟨0, Nat.zero_le _, cell_replicate (Nat.succ_pos _)⟩, fun i item hitem => ?_⟩
    · by_cases hi : i < hmask + 1
      · exact (cell_replicate hi).le
      · exact (cell_of_le (by rw [List.length_replicate]; omega)).le
    · cases hitem
  hashes := List.forall_mem_nil _
  keys := List.nodup_nil
  allocated hcontra := absurd hcontra Bool.false_ne_true
  slots := slotsDiffer_replicate _
  single hcontra := absurd hcontra Bool.false_ne_true
  hash := List.forall_mem_nil _
  distinct := List.Pairwise.nil

/-- The dict when the pairs `done` have been inserted, in tables for `n` items. -/
structure Bulk (ops : KeyOps κ) (same : κ → κ → Prop) [DecidableRel same] (n : ℕ) (done : List (κ × ν)) (d : Dict κ ν)
    (dups : List (κ × ν)) : Prop where
  keyed : d.Keyed ops same
  valloc : d.valloc = n
  length : d.vtab.length = done.length
  pairs : d.pairs = done.foldl (insertLast same) []
  owned : List.Perm (d.pairs ++ dups) done

theorem Bulk.append (h : Bulk ops same n done d dups) (hlaw : ops.Lawful same) (hroom : done.length < n)
    (hfound : d.Found ops pair.1 (.absent htabIdx)) :
    Ends (d.appendItem dbg (ops.hash pair.1) pair htabIdx) fun r => Bulk ops same n (done ++ [pair]) r dups ∧
      r.vused = d.vused + 1 := by
  have hnew := h.keyed.new_of_absent hlaw hfound
  refine (h.keyed.appendItem hlaw (by rw [h.length, h.valloc]; exact hroom) (Dict.freeSlot_of_absent hfound) hnew).mono ?_
  rintro r ⟨hr, hpairs, hlen, hvalloc, hused⟩
  refine ⟨⟨hr, hvalloc.trans h.valloc, ?_, ?_, ?_⟩, hused⟩
  · rw [hlen, h.length, List.length_append]
    rfl
  · rw [hpairs, List.foldl_append, ← h.pairs]
    exact (insertLast_of_new hnew).symm
  · rw [hpairs, List.append_assoc]
    refine (List.Perm.append_left _ List.perm_append_comm).trans ?_
    rw [← List.append_assoc]
    exact h.owned.append_right _

theorem Bulk.override (h : Bulk ops same n done d dups) (hlaw : ops.Lawful same) (hroom : done.length < n)
    (hfound : d.Found ops pair.1 (.present htabIdx vtabIdx none)) :
    Ends (d.overrideDuplicate dbg (ops.hash pair.1) pair htabIdx vtabIdx) fun r =>
      Bulk ops same n (done ++ [pair]) r.1 (dups ++ [r.2]) := by
  refine (h.keyed.overrideDuplicate hlaw (by rw [h.length, h.valloc]; exact hroom) hfound).mono ?_
  rintro r ⟨hr, hpairs, hperm, hlen, hvalloc, -⟩
  refine ⟨hr, hvalloc.trans h.valloc, ?_, ?_, ?_⟩
  · rw [hlen, h.length, List.length_append]
    rfl
  · rw [hpairs, List.foldl_append, ← h.pairs]
    rfl
  · have hmove : List.Perm (r.1.pairs ++ (dups ++ [r.2])) (r.1.pairs ++ [r.2] ++ dups) := by
      rw [List.append_assoc]
      exact List.Perm.append_left _ List.perm_append_comm
    refine hmove.trans ((hperm.append_right dups).trans ?_)
    rw [List.append_assoc]
    refine (List.Perm.append_left _ List.perm_append_comm).trans ?_
    rw [← List.append_assoc]
    exact h.owned.append_right _

/-- A comparison that throws is one of two keys of the vector. -/
theorem Bulk.throws (h : Bulk ops same n done d dups) (hfound : d.Found ops pair.1 .err)
    (hsplit : done ++ pair :: rest = keyValues) : CompareThrows ops keyValues := by
  obtain ⟨p, hp, hnone⟩ := hfound.throws
  have hdone : p ∈ done := h.owned.subset (List.mem_append_left _ hp)
  rw [← hsplit]
  exact ⟨pair, List.mem_append_right _ List.mem_cons_self, p, List.mem_append_left _ hdone, hnone⟩

/-- The end of both loops. -/
def BulkEnd (ops : KeyOps κ) (same : κ → κ → Prop) [DecidableRel same] (n : ℕ) (dupAlloc : ℕ → Bool)
    (keyValues : List (κ × ν)) (r : BulkRun κ ν) : Prop :=
  (r.result = none → r.released = [] ∧ ((∃ m, dupAlloc m = false) ∨ CompareThrows ops keyValues)) ∧
    ∀ d, r.result = some d → Bulk ops same n keyValues d r.released

theorem BulkEnd.err (h : (∃ m, dupAlloc m = false) ∨ CompareThrows ops keyValues) :
    BulkEnd ops same n dupAlloc keyValues ⟨none, []⟩ :=
  ⟨fun _ => ⟨rfl, h⟩, fun d hcontra => (Option.some_ne_none d hcontra.symm).elim⟩

theorem BulkEnd.ok (h : Bulk ops same n keyValues d dups) : BulkEnd ops same n dupAlloc keyValues ⟨some d, dups⟩ := by
  refine ⟨fun hcontra => (Option.some_ne_none d hcontra).elim, ?_⟩
  rintro _ ⟨⟩
  exact h

theorem insertRemainingItems_ends (hlaw : ops.Lawful same) (hlen : keyValues.length = n)
    (h : Bulk ops same n done d dups) (hsplit : done ++ rest = keyValues) :
    Ends (insertRemainingItems ops dbg dupAlloc d dups rest) (BulkEnd ops same n dupAlloc keyValues) := by
  induction rest generalizing done d dups with
  | nil =>
    rw [List.append_nil] at hsplit
    exact Ends.pure (.ok (hsplit ▸ h))
  | cons pair rest ih =>
    have hroom : done.length < n := by
      rw [← hlen, ← hsplit, List.length_append, List.length_cons]
      omega
    have hsplit' : done ++ [pair] ++ rest = keyValues := by rw [← hsplit, List.append_assoc, List.singleton_append]
    rw [insertRemainingItems]
    refine Ends.bind (h.keyed.toVerify.bulkSearch (hlaw.hash_lt pair.1)) fun found hfound => ?_
    cases found with
    | err => exact Ends.pure (.err (.inr (h.throws hfound hsplit)))
    | dup htabIdx vtabIdx =>
      dsimp only
      by_cases halloc : dupAlloc dups.length = false
      · rw [if_pos halloc]
        exact Ends.pure (.err (.inl ⟨_, halloc⟩))
      · rw [if_neg halloc]
        exact Ends.bind (h.override hlaw hroom hfound) fun r hr => ih hr hsplit'
    | eof htabIdx => exact Ends.bind (h.append hlaw hroom hfound) fun r hr => ih hr.1 hsplit'

theorem insertItems_ends (hlaw : ops.Lawful same) (hlen : keyValues.length = n) (h : Bulk ops same n done d [])
    (hused : d.vused = d.vtab.length) (hsplit : done ++ rest = keyValues) :
    Ends (insertItems ops dbg dupAlloc d rest) (BulkEnd ops same n dupAlloc keyValues) := by
  induction rest generalizing done d with
  | nil =>
    rw [List.append_nil] at hsplit
    exact Ends.pure (.ok (hsplit ▸ h))
  | cons pair rest ih =>
    have hroom : done.length < n := by
      rw [← hlen, ← hsplit, List.length_append, List.length_cons]
      omega
    have hsplit' : done ++ [pair] ++ rest = keyValues := by rw [← hsplit, List.append_assoc, List.singleton_append]
    rw [insertItems]
    refine Ends.bind (h.keyed.toVerify.bulkSearch (hlaw.hash_lt pair.1)) fun found hfound => ?_
    cases found with
    | err => exact Ends.pure (.err (.inr (h.throws hfound hsplit)))
    | dup htabIdx vtabIdx =>
      dsimp only
      unfold dictInsertItemsInheritedAfterFirstDuplicate
      by_cases halloc : dupAlloc 0 = false
      · rw [if_pos halloc]
        exact Ends.pure (.err (.inl ⟨0, halloc⟩))
      · have hover : Ends (d.overrideDuplicate dbg (ops.hash pair.1) pair htabIdx vtabIdx) _ :=
          h.keyed.overrideDuplicate hlaw (by rw [h.length, h.valloc]; exact hroom) hfound
        obtain ⟨_, -, -, -, -, -, -, item, hitem, hhash⟩ := hover
        rw [if_neg halloc, hitem, some_bind, hhash]
        exact Ends.bind (h.override hlaw hroom hfound) fun r hr => insertRemainingItems_ends hlaw hlen hr hsplit'
    | eof htabIdx =>
      dsimp only
      rw [check_of hused, some_bind]
      refine Ends.bind (h.append hlaw hroom hfound) fun r hr => ih hr.1 ?_ hsplit'
      rw [hr.2, hused, hr.1.length, h.length, List.length_append]
      rfl

/-- Setting the pairs one by one. -/
theorem setitems_ends (hlaw : ops.Lawful same) (hlt : keyValues.length < 2 ^ 64) {answers : ℕ → GrowAnswers}
    (hmem : ∀ n, (answers n).tryRealloc = true) (h : d.Keyed ops same)
    (hpairs : d.pairs = done.foldl (insertLast same) []) (hlen : d.vtab.length ≤ done.length)
    (hsplit : done ++ rest = keyValues) :
    Ends (setitems ops dbg answers n d rest) fun r => (r.2 = false → CompareThrows ops keyValues) ∧
      (r.2 = true → r.1.pairs = keyValues.foldl (insertLast same) []) := by
  induction rest generalizing n done d with
  | nil =>
    rw [List.append_nil] at hsplit
    exact Ends.pure ⟨fun hcontra => absurd hcontra.symm Bool.false_ne_true, fun _ => hsplit ▸ hpairs⟩
  | cons pair rest ih =>
    have hroom : done.length + 1 < 2 ^ 64 := by
      rw [← hsplit, List.length_append, List.length_cons] at hlt
      omega
    rw [setitems]
    refine Ends.bind (h.setitem hlaw (by omega) (hmem n)) ?_
    rintro ⟨e, success⟩ ⟨hthrows, hset⟩
    dsimp only
    cases success with
    | false =>
      refine Ends.pure ⟨fun _ => ?_, fun hcontra => absurd hcontra Bool.false_ne_true⟩
      obtain ⟨p, hp, hnone⟩ := (hthrows rfl).2.throws
      rw [hpairs] at hp
      have hdone : p ∈ done := (mem_of_mem_foldl hp).resolve_left List.not_mem_nil
      rw [← hsplit]
      exact ⟨pair, List.mem_append_right _ List.mem_cons_self, p, List.mem_append_left _ hdone, hnone⟩
    | true =>
      have he := hset rfl
      rw [if_pos rfl]
      refine ih he.keyed ?_ ?_ (by rw [← hsplit, List.append_assoc, List.singleton_append] : done ++ [pair] ++ rest = _)
      · rw [he.pairs, hpairs, List.foldl_append]
        rfl
      · rw [List.length_append]
        exact he.length.trans (Nat.succ_le_succ hlen)

end Run

/-- **A dict of a vector of pairs is the dict in which they have been set one by one.** The call fails for want of
memory or when a comparison throws, and keeps no reference then. -/
theorem newKeyValuesInherited_dictOf {ops : KeyOps κ} {same : κ → κ → Prop} (hlaw : ops.Lawful same) (dbg mem : Bool)
    (dupAlloc : ℕ → Bool) {keyValues : List (κ × ν)} (hlen : keyValues.length < 2 ^ 64) :
    Ends (deeDictNewKeyValuesInherited ops dbg mem dupAlloc keyValues) fun r =>
      (r.result = none → r.released = [] ∧
        (mem = false ∨ (∃ n, dupAlloc n = false) ∨ CompareThrows ops keyValues)) ∧
      ∀ d, r.result = some d → DictOf ops dbg keyValues d r.released := by
  classical
  unfold deeDictNewKeyValuesInherited dictNewWithHint
  by_cases hmem : mem = false
  · rw [if_pos hmem]
    exact Ends.pure ⟨fun _ => ⟨rfl, .inl hmem⟩, fun d hcontra => (Option.some_ne_none d hcontra.symm).elim⟩
  · rw [if_neg hmem]
    have hstart : ∀ start : Dict κ ν, Bulk ops same keyValues.length [] start [] → start.vused = start.vtab.length →
        Ends (insertItems ops dbg dupAlloc start keyValues) fun r => (r.result = none → r.released = [] ∧
          (mem = false ∨ (∃ n, dupAlloc n = false) ∨ CompareThrows ops keyValues)) ∧
          ∀ d, r.result = some d → DictOf ops dbg keyValues d r.released := by
      intro start hstart hused
      refine (insertItems_ends hlaw rfl hstart hused (List.nil_append _)).mono ?_
      rintro r ⟨hnone, hsome⟩
      refine ⟨fun h => ⟨(hnone h).1, .inr (hnone h).2⟩, fun d hd => ?_⟩
      have hbulk := hsome d hd
      refine ⟨hbulk.keyed.toVerify, hbulk.valloc, hbulk.length, hbulk.owned, fun answers hanswers => ?_⟩
      rw [hbulk.pairs]
      exact setitems_ends hlaw hlen hanswers emptyDict_keyed rfl le_rfl (List.nil_append _)
    by_cases hzero : keyValues.length = 0
    · rw [if_pos hzero]
      exact hstart _ ⟨emptyDict_keyed, hzero.symm, rfl, rfl, .nil⟩ rfl
    · rw [if_neg hzero]
      obtain ⟨hle, hpow⟩ := hmaskFromCount_spec hlen
      obtain ⟨-, hvalloc⟩ := vallocFromHmaskAndCount_spec false hlen hle
      exact hstart _ ⟨freshDict_keyed hvalloc hpow, rfl, rfl, rfl, .nil⟩ rfl

/-- Three pairs, two of them with the same key. -/
theorem newKeyValuesInherited_dictOf_duplicate :
    Ends (deeDictNewKeyValuesInherited numberOps true true (fun _ => true) [(7, 1), (8, 2), (7, 3)]) fun r =>
      (r.result = none → r.released = [] ∧
        (true = false ∨ (∃ n : ℕ, (fun _ => true) n = false) ∨ CompareThrows numberOps [(7, 1), (8, 2), (7, 3)])) ∧
      ∀ d, r.result = some d → DictOf numberOps true [(7, 1), (8, 2), (7, 3)] d r.released :=
  newKeyValuesInherited_dictOf numberOps_lawful true true (fun _ => true) (by decide)

end Deemon.Collections
