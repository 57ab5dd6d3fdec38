import Deemon.Collections.DictGrow
import Deemon.Lib.KeyedList

/-!
# Setting items of a dict

`LOCAL_dict_setitem` probes for a key. Where the key is new the item is appended, in the last slot of the probe that
leads to a deleted item, or in the empty slot that ends it. Where it is not, the old item is dropped and a new one
appended all the same, so that items are in the order in which they were last set.
-/

namespace Deemon.Collections

open Deemon.Run Deemon.Probing Deemon.KeyedList

variable {κ ν : Type}

/-! ### The code -/

/-- The operators of keys. -/
structure KeyOps (κ : Type) where
  /-- `DeeObject_Hash`. -/
  hash : κ → ℕ
  /-- `DeeObject_TryCompareEq`, with `none` when it throws. -/
  tryCompareEq : κ → κ → Option Bool

/-- How the search for a key ends: a comparison throws, the key is new and gets a slot, or it is there, and the search
may have come by a slot of a deleted item. -/
inductive Search where
  | err
  | absent (resultHtabIdx : ℕ)
  | present (htabIdx vtabIdx : ℕ) (resultHtabIdx : Option ℕ)

/-- One slot of the search. -/
def Dict.searchSlot (ops : KeyOps κ) (d : Dict κ ν) (key : κ) (htabIdx : ℕ) (resultHtabIdx : Option ℕ) :
    Option (Step (Option ℕ) Search) := do
  let vtabIdx ← rd d.htab htabIdx
  if vtabIdx = 0 then some (.done (.absent (resultHtabIdx.getD htabIdx)))
  else do
    let item ← d.vtab[vtabIdx - 1]?
    match item.pair with
    | none => some (.next (some htabIdx))
    | some pair =>
      if item.diHash ≠ ops.hash key then some (.next resultHtabIdx)
      else match ops.tryCompareEq key pair.1 with
        | none => some (.done .err)
        | some true => some (.done (.present htabIdx vtabIdx resultHtabIdx))
        | some false => some (.next resultHtabIdx)

/-- The loop of `LOCAL_dict_setitem`. Nobody changes the dict while keys are compared. -/
def Dict.search (ops : KeyOps κ) (d : Dict κ ν) (key : κ) : Option Search :=
  probeFold (d.searchSlot ops key) d.hmask (ops.hash key &&& d.hmask, ops.hash key) none

/-- The end of the hash-chain, once the hash table has been rebuilt. -/
def Dict.rediscover (d : Dict κ ν) (hash : ℕ) : Option ℕ :=
  probeWith (fun htabIdx => do
    let vtabIdx ← rd d.htab htabIdx
    some (if vtabIdx = 0 then some htabIdx else none)) d.hmask (hash &&& d.hmask, hash)

/-- `hxio_decafter`. -/
def hxioDecafter (htab : List ℕ) (vtabThreshold : ℕ) : List ℕ :=
  htab.map fun v => if vtabThreshold ≤ v then v - 1 else v

/-- The slot of a deleted item is swapped with the one of the item behind it. -/
def Dict.swapDeleted (dbg : Bool) (d : Dict κ ν) (htabIdx resultVidx : ℕ) : Option ℕ → Option (Dict κ ν)
  | none => some d
  | some resultHtabIdx => do
    let knownDeletedVidx ← rd d.htab resultHtabIdx
    check dbg (knownDeletedVidx ≠ 0)
    check dbg (d.vtab[knownDeletedVidx - 1]?.map DictItem.deleted = some true)
    let htab ← wr d.htab htabIdx knownDeletedVidx
    let htab ← wr htab resultHtabIdx resultVidx
    some { d with htab := htab }

/-- `if (_DeeDict_ShouldOptimizeVTab(self)) dict_optimize_vtab(self)`. -/
def Dict.optimizeIfShould (dbg : Bool) (d : Dict κ ν) : Option (Dict κ ν) :=
  if d.ShouldOptimizeVtab then d.optimizeVtab dbg else some d

/-- The end of an override in a full table. -/
def Dict.optimizeOrGrow (dbg : Bool) (answers : GrowAnswers) (d : Dict κ ν) : Option (Dict κ ν) :=
  if d.ShouldOptimizeVtab then d.optimizeVtab dbg
  else do
    match ← d.trygrowVtabAndHtab dbg answers with
    | some grown => some grown
    | none => if d.CanOptimizeVtab then d.optimizeVtab dbg else some d

/-- The item is overridden where it is. -/
def Dict.overrideInPlace (dbg : Bool) (d : Dict κ ν) (hash : ℕ) (pair : κ × ν) (htabIdx vtabIdx : ℕ)
    (resultHtabIdx : Option ℕ) : Option (Dict κ ν) := do
  let item ← d.vtab[vtabIdx - 1]?
  check dbg (item.diHash = hash)
  let d ← Dict.swapDeleted dbg { d with vtab := d.vtab.set (vtabIdx - 1) { item with pair := some pair } }
    htabIdx vtabIdx resultHtabIdx
  d.optimizeIfShould dbg

/-- The new item is appended, and the old one deleted. -/
def Dict.overrideWithRoom (dbg : Bool) (d : Dict κ ν) (hash : ℕ) (pair : κ × ν) (htabIdx vtabIdx : ℕ)
    (resultHtabIdx : Option ℕ) : Option (Dict κ ν) := do
  let item ← d.vtab[vtabIdx - 1]?
  let htab ← wr d.htab htabIdx (d.vtab.length + 1)
  let d ← Dict.swapDeleted dbg { d with
    vtab := d.vtab.set (vtabIdx - 1) item.delete ++ [DictItem.mk hash (some pair)]
    htab := htab } htabIdx (d.vtab.length + 1) resultHtabIdx
  d.optimizeIfShould dbg

/-- The items behind the old one move down, and the new one takes the last place. -/
def Dict.overrideFull (dbg : Bool) (answers : GrowAnswers) (d : Dict κ ν) (hash : ℕ) (pair : κ × ν)
    (htabIdx vtabIdx : ℕ) (resultHtabIdx : Option ℕ) : Option (Dict κ ν) := do
  check dbg (d.vtab.length = d.valloc)
  let htab ← wr (hxioDecafter d.htab vtabIdx) htabIdx d.vtab.length
  let d ← Dict.swapDeleted dbg { d with
    vtab := d.vtab.eraseIdx (vtabIdx - 1) ++ [DictItem.mk hash (some pair)]
    htab := htab } htabIdx d.vtab.length resultHtabIdx
  d.optimizeOrGrow dbg answers

/-- `OVERRIDE EXISTING "item"`, where the new item goes to the end. -/
def Dict.overrideItem (dbg : Bool) (answers : GrowAnswers) (d : Dict κ ν) (hash : ℕ) (pair : κ × ν)
    (htabIdx vtabIdx : ℕ) (resultHtabIdx : Option ℕ) : Option (Dict κ ν) :=
  if vtabIdx - 1 = d.vtab.length - 1 then d.overrideInPlace dbg hash pair htabIdx vtabIdx resultHtabIdx
  else if d.vtab.length < d.valloc then d.overrideWithRoom dbg hash pair htabIdx vtabIdx resultHtabIdx
  else d.overrideFull dbg answers hash pair htabIdx vtabIdx resultHtabIdx

/-- The allocation with the lock held. -/
def Dict.trygrow (dbg : Bool) (answers : GrowAnswers) (d : Dict κ ν) : Option (Option (Dict κ ν)) :=
  if d.ShouldGrowHtab then d.trygrowVtabAndHtab dbg answers
  else if d.CanGrowVtab then d.trygrowVtab dbg answers
  else d.trygrowVtabAndHtab dbg answers

/-- `result_htab_idx` in the tables that have been grown. -/
def Dict.afterGrowth (ops : KeyOps κ) (dbg : Bool) (d grown : Dict κ ν) (key : κ) (resultHtabIdx : ℕ) :
    Option (Dict κ ν × Search) := do
  check dbg (d.hmask ≤ grown.hmask)
  let resultHtabIdx ← (if d.hmask ≠ grown.hmask then grown.rediscover (ops.hash key) else some resultHtabIdx)
  some (grown, .absent resultHtabIdx)

/-- `LOCAL_dict_setitem` up to the change of an item: the search, and for a new key the room for its item. With
`unlocked` the caller is the only one who knows the dict. -/
def Dict.locate (ops : KeyOps κ) (dbg unlocked : Bool) (answers : GrowAnswers) (d : Dict κ ν) (key : κ) :
    Option (Dict κ ν × Search) := do
  match ← d.search ops key with
  | .absent resultHtabIdx =>
    if d.MustGrowVtab then do
      match ← d.trygrow dbg answers with
      | some grown => d.afterGrowth ops dbg grown key resultHtabIdx
      | none => do
        match ← d.growVtabAndHtabAndRelock dbg answers with
        | none => some (d, .err)
        | some grown =>
          if unlocked then d.afterGrowth ops dbg grown key resultHtabIdx
          else do
            -- the search starts again, and there is room now
            let found ← grown.search ops key
            some (grown, found)
    else some (d, .absent resultHtabIdx)
  | found => some (d, found)

/-- `APPEND NEW ITEM`. -/
def Dict.appendItem (dbg : Bool) (d : Dict κ ν) (hash : ℕ) (pair : κ × ν) (resultHtabIdx : ℕ) : Option (Dict κ ν) := do
  check dbg (¬d.MustGrowVtab)
  -- the item is written into the table
  assert (d.vtab.length < d.valloc)
  let htab ← wr d.htab resultHtabIdx (d.vtab.length + 1)
  some { d with
    vtab := d.vtab ++ [DictItem.mk hash (some pair)]
    vused := d.vused + 1
    htab := htab }

/-- `LOCAL_dict_setitem` without a `getindex`: the dict that it leaves, and whether it returns 0; otherwise it returns
-1 with an exception. -/
def Dict.setitem (ops : KeyOps κ) (dbg unlocked : Bool) (answers : GrowAnswers) (d : Dict κ ν) (pair : κ × ν) :
    Option (Dict κ ν × Bool) := do
  let (d, found) ← d.locate ops dbg unlocked answers pair.1
  match found with
  | .err => some (d, false)
  | .present htabIdx vtabIdx resultHtabIdx => do
    let d ← d.overrideItem dbg answers (ops.hash pair.1) pair htabIdx vtabIdx resultHtabIdx
    some (d, true)
  | .absent resultHtabIdx => do
    let d ← d.appendItem dbg (ops.hash pair.1) pair resultHtabIdx
    some (d, true)

/-- `dict_setitem`. -/
def dictSetitem (ops : KeyOps κ) (dbg : Bool) (answers : GrowAnswers) (self : Dict κ ν) (pair : κ × ν) :
    Option (Dict κ ν × Bool) := self.setitem ops dbg false answers pair

/-- `dict_setitem_unlocked`. -/
def dictSetitemUnlocked (ops : KeyOps κ) (dbg : Bool) (answers : GrowAnswers) (self : Dict κ ν) (pair : κ × ν) :
    Option (Dict κ ν × Bool) := self.setitem ops dbg true answers pair

/-! ### Searching -/

/-- The slot holds the index of a deleted item. -/
def Dict.DeletedSlot (d : Dict κ ν) (slot : ℕ) : Prop :=
  cell d.htab slot ≠ 0 ∧ ∃ item, d.vtab[cell d.htab slot - 1]? = some item ∧ item.pair = none

section Search

variable (ops : KeyOps κ) (d : Dict κ ν) (key : κ)

/-- The slot leads to an item with the hash of the key. -/
def Dict.Leads (slot : ℕ) (pair : κ × ν) : Prop :=
  cell d.htab slot ≠ 0 ∧ d.vtab[cell d.htab slot - 1]? = some ⟨ops.hash key, some pair⟩

/-- The probe of the key goes on behind its first `n` slots: none of them is empty, and the keys that they lead to are
not the one that is looked for. -/
def Dict.Passed (n : ℕ) : Prop :=
  ∀ m < n, cell d.htab (htabIndex d.hmask (ops.hash key) m) ≠ 0 ∧
    ∀ pair, d.Leads ops key (htabIndex d.hmask (ops.hash key) m) pair → ops.tryCompareEq key pair.1 = some false

/-- The search has come by the slot of a deleted item. -/
def Dict.CameBy (n slot : ℕ) : Prop :=
  ∃ m < n, slot = htabIndex d.hmask (ops.hash key) m ∧ d.DeletedSlot slot

/-- What a search has found. -/
def Dict.Found : Search → Prop
  | .err => ∃ n, d.Passed ops key n ∧ ∃ pair, d.Leads ops key (htabIndex d.hmask (ops.hash key) n) pair ∧
      ops.tryCompareEq key pair.1 = none
  | .absent slot => ∃ n, d.Passed ops key n ∧ cell d.htab (htabIndex d.hmask (ops.hash key) n) = 0 ∧
      (slot = htabIndex d.hmask (ops.hash key) n ∨ d.CameBy ops key n slot)
  | .present htabIdx vtabIdx result => ∃ n, d.Passed ops key n ∧ htabIdx = htabIndex d.hmask (ops.hash key) n ∧
      vtabIdx = cell d.htab htabIdx ∧ (∃ pair, d.Leads ops key htabIdx pair ∧ ops.tryCompareEq key pair.1 = some true) ∧
      ∀ slot, result = some slot → d.CameBy ops key n slot

end Search

section Searching

variable {ops : KeyOps κ} {d : Dict κ ν} {key : κ} {n slot : ℕ} {item : DictItem κ ν} {pair : κ × ν}

theorem Dict.Passed.zero : d.Passed ops key 0 := fun _ hm => absurd hm (Nat.not_lt_zero _)

theorem Dict.Passed.succ (h : d.Passed ops key n) (hslot : cell d.htab (htabIndex d.hmask (ops.hash key) n) ≠ 0)
    (hpair : ∀ pair, d.Leads ops key (htabIndex d.hmask (ops.hash key) n) pair →
      ops.tryCompareEq key pair.1 = some false) : d.Passed ops key (n + 1) := by
  intro m hm
  rcases Nat.lt_succ_iff_lt_or_eq.mp hm with hlt | rfl
  · exact h m hlt
  · exact ⟨hslot, hpair⟩

theorem Dict.CameBy.succ (h : d.CameBy ops key n slot) : d.CameBy ops key (n + 1) slot := by
  obtain ⟨m, hm, hrest⟩ := h
  exact ⟨m, hm.trans (Nat.lt_succ_self n), hrest⟩

/-- One slot of the search: it is passed, or the search ends there. -/
theorem Dict.searchSlot_spec {result : Option ℕ} {step : Step (Option ℕ) Search} (hpassed : d.Passed ops key n)
    (hresult : ∀ slot, result = some slot → d.CameBy ops key n slot)
    (hrun : d.searchSlot ops key (htabIndex d.hmask (ops.hash key) n) result = some step) :
    step.Post (fun result => d.Passed ops key (n + 1) ∧ ∀ slot, result = some slot → d.CameBy ops key (n + 1) slot)
      (d.Found ops key) := by
  generalize hslot : htabIndex d.hmask (ops.hash key) n = slot at hrun
  have hpass : cell d.htab slot ≠ 0 → (∀ pair, d.Leads ops key slot pair → ops.tryCompareEq key pair.1 = some false) →
      d.Passed ops key (n + 1) := by
    rw [← hslot]
    exact hpassed.succ
  unfold Dict.searchSlot at hrun
  obtain ⟨vtabIdx, hread, hrun⟩ := of_bind hrun
  have hcell : vtabIdx = cell d.htab slot := by
    unfold rd at hread
    split_ifs at hread
    exact (Option.some.inj hread).symm
  by_cases hzero : vtabIdx = 0
  · rw [if_pos hzero] at hrun
    cases hrun
    refine ⟨n, hpassed, by rw [hslot, ← hcell, hzero], ?_⟩
    cases result with
    | none => exact .inl hslot.symm
    | some slot => exact .inr (hresult slot rfl)
  · rw [if_neg hzero] at hrun
    obtain ⟨item, hitem, hrun⟩ := of_bind hrun
    rw [hcell] at hitem hzero
    have hleads : ∀ pair, d.Leads ops key slot pair → item = ⟨ops.hash key, some pair⟩ := fun pair h =>
      Option.some.inj (hitem.symm.trans h.2)
    obtain ⟨hash, stored⟩ := item
    cases stored with
    | none =>
      cases hrun
      refine ⟨hpass hzero fun pair h => ?_, ?_⟩
      · cases hleads pair h
      · rintro _ ⟨⟩
        exact ⟨n, Nat.lt_succ_self n, hslot.symm, hzero, _, hitem, rfl⟩
    | some stored =>
      dsimp only at hrun
      by_cases hhash : hash = ops.hash key
      · subst hhash
        rw [if_neg (not_not.mpr rfl)] at hrun
        cases hcompare : ops.tryCompareEq key stored.1 with
        | none =>
          rw [hcompare] at hrun
          cases hrun
          exact ⟨n, hpassed, stored, hslot ▸ ⟨hzero, hitem⟩, hcompare⟩
        | some equal =>
          rw [hcompare] at hrun
          cases equal with
          | true =>
            cases hrun
            exact ⟨n, hpassed, hslot.symm, hcell, ⟨stored, ⟨hzero, hitem⟩, hcompare⟩, hresult⟩
          | false =>
            cases hrun
            refine ⟨hpass hzero fun pair h => ?_, fun slot h => (hresult slot h).succ⟩
            cases hleads pair h
            exact hcompare
      · rw [if_pos hhash] at hrun
        cases hrun
        refine ⟨hpass hzero fun pair h => ?_, fun slot h => (hresult slot h).succ⟩
        cases hleads pair h
        exact absurd rfl hhash

/-- In a verified dict the search comes to an end. -/
theorem Dict.Verify.search (h : d.Verify) (hhash : ops.hash key < 2 ^ 64) :
    Ends (d.search ops key) (d.Found ops key) := by
  obtain ⟨k, hk, hmask2⟩ := h.hmask
  obtain ⟨t, ht, hzero⟩ := h.htab.eof
  have hread : ∀ i ≤ d.hmask, rd d.htab i = some (cell d.htab i) := fun i hi =>
    rd_of_lt (by rw [h.htab.length]; omega)
  unfold Dict.search
  refine probeFold_ends (fun n result => d.Passed ops key n ∧ ∀ slot, result = some slot → d.CameBy ops key n slot)
    hmask2 hk hhash ⟨.zero, fun slot hslot => (Option.some_ne_none _ hslot.symm).elim⟩ ?_ ht ?_
  · rintro n result ⟨hpassed, hresult⟩
    have htotal : ∃ step, d.searchSlot ops key (htabIndex d.hmask (ops.hash key) n) result = some step := by
      unfold Dict.searchSlot
      rw [hread _ (htabIndex_le n), some_bind]
      by_cases h0 : cell d.htab (htabIndex d.hmask (ops.hash key) n) = 0
      · rw [if_pos h0]
        exact ⟨_, rfl⟩
      · rw [if_neg h0]
        have hbound := h.htab.bound (htabIndex d.hmask (ops.hash key) n)
        rw [List.getElem?_eq_getElem (show _ - 1 < d.vtab.length by omega), some_bind]
        cases d.vtab[cell d.htab (htabIndex d.hmask (ops.hash key) n) - 1].pair with
        | none => exact ⟨_, rfl⟩
        | some pair =>
          dsimp only
          split_ifs
          · exact ⟨_, rfl⟩
          · split <;> exact ⟨_, rfl⟩
    obtain ⟨step, hstep⟩ := htotal
    exact ⟨step, hstep, Dict.searchSlot_spec hpassed hresult hstep⟩
  · intro result result' hstep
    unfold Dict.searchSlot at hstep
    rw [hread t ht, some_bind, if_pos hzero] at hstep
    cases hstep

end Searching

/-! ### Moving items -/

section Moving

variable {d : Dict κ ν} {htab htab' : List ℕ} {hmask hash v v' slot q n m : ℕ} {item : DictItem κ ν} {pair : κ × ν}

/-- What a probe finds when slots in use stay in use. -/
theorem Reaches.renumber (h : Reaches htab hmask hash v) (hkeep : ∀ i, cell htab i ≠ 0 → cell htab' i ≠ 0)
    (hslot : ∀ i, cell htab i = v → cell htab' i = v') : Reaches htab' hmask hash v' := by
  obtain ⟨n, hn, hfirst⟩ := h
  exact ⟨n, hslot _ hn, fun m hm => hkeep _ (hfirst m hm)⟩

/-- A slot for an item of a hash: empty or of a deleted item, and not behind an empty one. -/
def Dict.FreeSlot (d : Dict κ ν) (hash slot : ℕ) : Prop :=
  (cell d.htab slot = 0 ∨ d.DeletedSlot slot) ∧
    ∃ n, slot = htabIndex d.hmask hash n ∧ ∀ m < n, cell d.htab (htabIndex d.hmask hash m) ≠ 0

/-- An item that is not deleted has slots that no deleted item has. -/
theorem Dict.DeletedSlot.ne (h : d.DeletedSlot slot) (hitem : d.vtab[q]? = some item) (hlive : item.deleted = false) :
    cell d.htab slot ≠ q + 1 := by
  intro heq
  obtain ⟨-, other, hother, hdead⟩ := h
  rw [heq, Nat.add_sub_cancel] at hother
  obtain rfl := Option.some.inj (hitem.symm.trans hother)
  rw [DictItem.deleted, hdead] at hlive
  cases hlive

/-- An item is appended. -/
theorem Dict.Exact.append (h : d.Exact) (hroom : d.vtab.length < d.valloc) (hhash : hash < 2 ^ 64)
    (hfree : d.FreeSlot hash slot) (hkeys : ((d.pairs ++ [pair]).map Prod.fst).Nodup) :
    Dict.Exact { d with
      vtab := d.vtab ++ [⟨hash, some pair⟩]
      vused := d.vused + 1
      htab := d.htab.set slot (d.vtab.length + 1) } := by
  obtain ⟨hslot, n, rfl, hfirst⟩ := hfree
  have hlt : htabIndex d.hmask hash n < d.htab.length := htabIndex_lt h.htab.length n
  have hself := cell_set_self (v := d.vtab.length + 1) hlt
  have hkeep : ∀ i, cell d.htab i ≠ 0 → cell (d.htab.set (htabIndex d.hmask hash n) (d.vtab.length + 1)) i ≠ 0 := by
    intro i hi
    by_cases heq : htabIndex d.hmask hash n = i
    · rw [← heq, hself]
      exact Nat.succ_ne_zero _
    · rwa [cell_set_of_ne heq]
  have hbound : ∀ i, cell (d.htab.set (htabIndex d.hmask hash n) (d.vtab.length + 1)) i ≤ d.vtab.length + 1 := by
    intro i
    by_cases heq : htabIndex d.hmask hash n = i
    · rw [← heq, hself]
    · rw [cell_set_of_ne heq]
      exact (h.htab.bound i).trans (Nat.le_succ _)
  have hdiffer := h.slots.set (v := d.vtab.length + 1) hlt fun j _ heq => by
    have := h.htab.bound j
    omega
  have hvalloc := h.valloc
  refine ⟨⟨⟨⟨?_, ?_, h.valloc, h.hmask⟩, ?_, ?_, ?_, ?_⟩, ?_, ?_, h.allocated⟩, hdiffer, h.single⟩
  · dsimp only
    rw [List.countP_append, ← h.vused]
    rfl
  · dsimp only
    rw [List.length_append]
    exact hroom
  · dsimp only
    rw [List.length_set, h.htab.length]
  · dsimp only
    rw [List.length_append]
    exact hbound
  · exact exists_eof hbound hdiffer (by dsimp only; omega)
  · intro i item hitem hlive
    dsimp only at hitem ⊢
    rcases Nat.lt_or_ge i d.vtab.length with hi | hi
    · rw [List.getElem?_append_left hi] at hitem
      refine (h.htab.reach i item hitem hlive).renumber hkeep fun j hj => ?_
      rw [cell_set_of_ne ?_, hj]
      rintro rfl
      rcases hslot with hzero | hdead
      · omega
      · exact hdead.ne hitem hlive hj
    · rw [List.getElem?_append_right hi] at hitem
      obtain ⟨hi', heq⟩ := List.getElem?_eq_some_iff.mp hitem
      rw [List.length_singleton] at hi'
      obtain rfl : i = d.vtab.length := by omega
      rw [List.getElem_singleton] at heq
      rw [← heq]
      exact ⟨n, hself, fun m hm => hkeep _ (hfirst m hm)⟩
  · intro item hitem
    rcases List.mem_append.mp hitem with hold | hnew
    · exact h.hashes item hold
    · rw [List.mem_singleton.mp hnew]
      exact hhash
  · unfold Dict.pairs at hkeys ⊢
    dsimp only
    rw [List.filterMap_append]
    exact hkeys

/-- An item is deleted. -/
theorem Dict.Exact.delete (h : d.Exact) (hitem : d.vtab[q]? = some item) (hlive : item.deleted = false) :
    Dict.Exact { d with
      vtab := d.vtab.set q item.delete
      vused := d.vused - 1 } ∧ d.vused - 1 + 1 = d.vused := by
  obtain ⟨r, hrun, hsound, -, hused, -⟩ := h.toSound.deleteAt hitem hlive
  unfold Dict.deleteAt at hrun
  rw [hitem, some_bind] at hrun
  cases hrun
  exact ⟨⟨hsound, h.slots, h.single⟩, hused⟩

/-- The slots of an item and of a deleted one in front of it are swapped. -/
theorem Dict.Exact.swap (h : d.Exact) (hitem : d.vtab[q]? = some item) (hslot : cell d.htab slot = q + 1)
    (hdead : d.DeletedSlot (htabIndex d.hmask item.diHash m))
    (hfirst : ∀ j < m, cell d.htab (htabIndex d.hmask item.diHash j) ≠ 0) :
    Dict.Exact { d with
      htab := (d.htab.set slot (cell d.htab (htabIndex d.hmask item.diHash m))).set
        (htabIndex d.hmask item.diHash m) (q + 1) } := by
  have hs' : htabIndex d.hmask item.diHash m < d.htab.length := htabIndex_lt h.htab.length m
  generalize hs : htabIndex d.hmask item.diHash m = s at hdead hs' ⊢
  have ht : slot < d.htab.length := by
    by_contra hge
    rw [cell_of_le (not_lt.mp hge)] at hslot
    omega
  have hcell : ∀ i, cell ((d.htab.set slot (cell d.htab s)).set s (q + 1)) i = cell d.htab (Equiv.swap s slot i) := by
    intro i
    by_cases his : s = i
    · subst his
      rw [cell_set_self (by rwa [List.length_set]), Equiv.swap_apply_left, hslot]
    · rw [cell_set_of_ne his]
      by_cases hit : slot = i
      · subst hit
        rw [cell_set_self ht, Equiv.swap_apply_right]
      · rw [cell_set_of_ne hit, Equiv.swap_apply_of_ne_of_ne (Ne.symm his) (Ne.symm hit)]
  have hkeep : ∀ i, cell d.htab i ≠ 0 → cell d.htab (Equiv.swap s slot i) ≠ 0 := by
    intro i hi
    by_cases his : i = s
    · rw [his, Equiv.swap_apply_left, hslot]
      exact Nat.succ_ne_zero q
    · by_cases hit : i = slot
      · rw [hit, Equiv.swap_apply_right]
        exact hdead.1
      · rwa [Equiv.swap_apply_of_ne_of_ne his hit]
  refine ⟨⟨⟨⟨h.vused, h.vsize, h.valloc, h.hmask⟩, ?_, ?_, ?_, ?_⟩, h.hashes, h.keys, h.allocated⟩, ?_, h.single⟩
  · dsimp only
    rw [List.length_set, List.length_set, h.htab.length]
  · intro i
    dsimp only
    rw [hcell]
    exact h.htab.bound _
  · obtain ⟨i, hi, hzero⟩ := h.htab.eof
    refine ⟨i, hi, ?_⟩
    dsimp only
    rw [hcell, Equiv.swap_apply_of_ne_of_ne ?_ ?_, hzero]
    · rintro rfl
      exact hdead.1 hzero
    · rintro rfl
      omega
  · intro i other hother hlive
    dsimp only at hother ⊢
    by_cases hi : i = q
    · subst hi
      obtain rfl := Option.some.inj (hitem.symm.trans hother)
      refine ⟨m, ?_, fun j hj => ?_⟩
      · rw [hs, hcell, Equiv.swap_apply_left, hslot]
      · rw [hcell]
        exact hkeep _ (hfirst j hj)
    · refine (h.htab.reach i other hother hlive).renumber (fun j hj => ?_) fun j hj => ?_
      · rw [hcell]
        exact hkeep j hj
      · rw [hcell, Equiv.swap_apply_of_ne_of_ne ?_ ?_, hj]
        · rintro rfl
          exact hdead.ne hother hlive hj
        · rintro rfl
          omega
  · intro i j heq hne
    dsimp only at heq hne
    rw [hcell, hcell] at heq
    rw [hcell] at hne
    exact (Equiv.swap s slot).injective (h.slots _ _ heq hne)

theorem cell_decafter {t : ℕ} (ht : 0 < t) (i : ℕ) :
    cell (hxioDecafter htab t) i = if t ≤ cell htab i then cell htab i - 1 else cell htab i := by
  unfold hxioDecafter
  by_cases hi : i < htab.length
  · simp [cell, hi]
  · rw [cell_of_le (by rw [List.length_map]; omega), cell_of_le (by omega), if_neg (by omega)]

/-- The items behind an item move down over it, and another one with its hash is appended. -/
theorem Dict.Exact.shift (h : d.Exact) (hitem : d.vtab[q]? = some item) (hlive : item.deleted = false)
    (hn : cell d.htab (htabIndex d.hmask item.diHash n) = q + 1)
    (hfirst : ∀ m < n, cell d.htab (htabIndex d.hmask item.diHash m) ≠ 0)
    (hkeys : (((d.vtab.eraseIdx q).filterMap DictItem.pair ++ [pair]).map Prod.fst).Nodup) :
    Dict.Exact { d with
      vtab := d.vtab.eraseIdx q ++ [⟨item.diHash, some pair⟩]
      htab := (hxioDecafter d.htab (q + 1)).set (htabIndex d.hmask item.diHash n) d.vtab.length } := by
  obtain ⟨hq, hget⟩ := List.getElem?_eq_some_iff.mp hitem
  have htlt : htabIndex d.hmask item.diHash n < (hxioDecafter d.htab (q + 1)).length :=
    htabIndex_lt (by rw [hxioDecafter, List.length_map, h.htab.length]) n
  generalize ht : htabIndex d.hmask item.diHash n = t at hn htlt ⊢
  have hself : cell ((hxioDecafter d.htab (q + 1)).set t d.vtab.length) t = d.vtab.length := cell_set_self htlt
  have hother : ∀ i, i ≠ t → cell ((hxioDecafter d.htab (q + 1)).set t d.vtab.length) i =
      if q + 1 ≤ cell d.htab i then cell d.htab i - 1 else cell d.htab i := by
    intro i hi
    rw [cell_set_of_ne (Ne.symm hi), cell_decafter (Nat.succ_pos q)]
  have hne : ∀ i, i ≠ t → cell d.htab i ≠ q + 1 := fun i hi heq => hi (h.slots i t (heq.trans hn.symm) (by omega))
  have hkeep : ∀ i, cell d.htab i ≠ 0 → cell ((hxioDecafter d.htab (q + 1)).set t d.vtab.length) i ≠ 0 := by
    intro i hi
    by_cases hit : i = t
    · rw [hit, hself]
      omega
    · have := hne i hit
      rw [hother i hit]
      split_ifs <;> omega
  have hlen : (d.vtab.eraseIdx q).length = d.vtab.length - 1 := List.length_eraseIdx_of_lt hq
  have hcount : d.vtab.countP (fun item => !item.deleted) = (d.vtab.eraseIdx q).countP (fun item => !item.deleted) + 1 := by
    conv_lhs => rw [← List.take_append_drop q d.vtab, List.drop_eq_getElem_cons hq, hget]
    rw [List.eraseIdx_eq_take_drop_succ, List.countP_append, List.countP_append, List.countP_cons_of_pos (by rw [hlive]; rfl)]
    omega
  have hmax := h.valloc
  have hsize := h.vsize
  refine ⟨⟨⟨⟨?_, ?_, h.valloc, h.hmask⟩, ?_, ?_, ?_, ?_⟩, ?_, ?_, h.allocated⟩, ?_, h.single⟩
  · dsimp only
    rw [List.countP_append, h.vused, hcount]
    rfl
  · dsimp only
    rw [List.length_append, hlen, List.length_singleton]
    omega
  · dsimp only
    rw [List.length_set, hxioDecafter, List.length_map, h.htab.length]
  · intro i
    dsimp only
    rw [List.length_append, hlen, List.length_singleton]
    by_cases hit : i = t
    · rw [hit, hself]
      omega
    · have := h.htab.bound i
      rw [hother i hit]
      split_ifs <;> omega
  · obtain ⟨i, hi, hzero⟩ := h.htab.eof
    refine ⟨i, hi, ?_⟩
    have hit : i ≠ t := by
      rintro rfl
      omega
    dsimp only
    rw [hother i hit, hzero, if_neg (by omega)]
  · intro i other hitem' hlive'
    dsimp only at hitem' ⊢
    rcases Nat.lt_or_ge i (d.vtab.length - 1) with hi | hi
    · rw [List.getElem?_append_left (by omega), List.getElem?_eraseIdx] at hitem'
      by_cases hiq : i < q
      · rw [if_pos hiq] at hitem'
        refine (h.htab.reach i other hitem' hlive').renumber hkeep fun j hj => ?_
        rw [hother j (by rintro rfl; omega), hj, if_neg (by omega)]
      · rw [if_neg hiq] at hitem'
        refine (h.htab.reach (i + 1) other hitem' hlive').renumber hkeep fun j hj => ?_
        rw [hother j (by rintro rfl; omega), hj, if_pos (by omega), Nat.add_sub_cancel]
    · rw [List.getElem?_append_right (by omega), hlen] at hitem'
      obtain ⟨hi', heq⟩ := List.getElem?_eq_some_iff.mp hitem'
      rw [List.length_singleton] at hi'
      obtain rfl : i = d.vtab.length - 1 := by omega
      rw [List.getElem_singleton] at heq
      rw [← heq, Nat.sub_add_cancel (by omega)]
      exact ⟨n, by rw [ht, hself], fun m hm => hkeep _ (hfirst m hm)⟩
  · intro other hmem
    rcases List.mem_append.mp hmem with hold | hnew
    · exact h.hashes other (List.mem_of_mem_eraseIdx hold)
    · rw [List.mem_singleton.mp hnew]
      exact h.hashes item (List.mem_of_getElem? hitem)
  · unfold Dict.pairs
    dsimp only
    rw [List.filterMap_append]
    exact hkeys
  · intro i j heq hnz
    dsimp only at heq hnz
    have hi := h.htab.bound i
    have hj := h.htab.bound j
    by_cases hit : i = t
    · by_cases hjt : j = t
      · rw [hit, hjt]
      · have := hne j hjt
        rw [hit, hself, hother j hjt] at heq
        split_ifs at heq <;> omega
    · have hiq := hne i hit
      rw [hother i hit] at heq hnz
      by_cases hjt : j = t
      · rw [hjt, hself] at heq
        split_ifs at heq <;> omega
      · have hjq := hne j hjt
        rw [hother j hjt] at heq
        refine h.slots i j ?_ ?_
        · split_ifs at heq <;> omega
        · split_ifs at hnz <;> omega

/-- An item gets another pair. -/
theorem Dict.Exact.replace (h : d.Exact) (hitem : d.vtab[q]? = some item) (hlive : item.deleted = false)
    (hkeys : (((d.vtab.set q ⟨item.diHash, some pair⟩).filterMap DictItem.pair).map Prod.fst).Nodup) :
    Dict.Exact { d with vtab := d.vtab.set q ⟨item.diHash, some pair⟩ } := by
  obtain ⟨hq, hget⟩ := List.getElem?_eq_some_iff.mp hitem
  refine ⟨⟨⟨⟨?_, ?_, h.valloc, h.hmask⟩, h.htab.length, ?_, h.htab.eof, ?_⟩, ?_, hkeys, h.allocated⟩, h.slots, h.single⟩
  · have hpos : 0 < d.vtab.countP fun item => !item.deleted :=
      List.countP_pos_iff.mpr ⟨item, List.mem_of_getElem? hitem, by rw [hlive]; rfl⟩
    dsimp only
    rw [List.countP_set hq, hget, hlive, h.vused, if_pos (by rfl), if_pos (by rfl)]
    omega
  · dsimp only
    rw [List.length_set]
    exact h.vsize
  · dsimp only
    rw [List.length_set]
    exact h.htab.bound
  · intro i other hother hlive'
    dsimp only at hother ⊢
    by_cases hi : q = i
    · subst hi
      rw [List.getElem?_set_self hq, Option.some.injEq] at hother
      rw [← hother]
      exact h.htab.reach q item hitem hlive
    · rw [List.getElem?_set_ne hi] at hother
      exact h.htab.reach i other hother hlive'
  · intro other hmem
    rcases List.mem_or_eq_of_mem_set hmem with hold | rfl
    · exact h.hashes other hold
    · exact h.hashes item (List.mem_of_getElem? hitem)

end Moving

/-! ### Keys -/

/-- The operators compare and hash keys in agreement with an equivalence, where they do not throw. -/
structure KeyOps.Lawful (ops : KeyOps κ) (same : κ → κ → Prop) : Prop where
  equivalence : Equivalence same
  compare : ∀ a b r, ops.tryCompareEq a b = some r → (r = true ↔ same a b)
  hash_eq : ∀ a b, same a b → ops.hash a = ops.hash b
  hash_lt : ∀ a, ops.hash a < 2 ^ 64

/-- A dict in which keys are found: the items hold the hashes of their keys, and no two of them have the same key. -/
structure Dict.Searchable (ops : KeyOps κ) (same : κ → κ → Prop) (d : Dict κ ν) : Prop extends Dict.Verify d where
  hash : ∀ item ∈ d.vtab, ∀ pair, item.pair = some pair → item.diHash = ops.hash pair.1
  distinct : Distinct same d.pairs

/-- A dict in which keys are found, and items may be set. -/
structure Dict.Keyed (ops : KeyOps κ) (same : κ → κ → Prop) (d : Dict κ ν) : Prop
  extends Dict.Exact d, Dict.Searchable ops same d

section Keys

variable {ops : KeyOps κ} {same : κ → κ → Prop} {dbg : Bool} {answers : GrowAnswers} {d r : Dict κ ν} {pair old : κ × ν}
  {hash q n slot htabIdx vtabIdx : ℕ} {result : Option ℕ}

theorem emptyDict_keyed : Dict.Keyed ops same (⟨[], 0, 0, 0, [0], true⟩ : Dict κ ν) where
  toSound := emptyDict_sound
  slots := slotsDiffer_replicate 1
  single _ := rfl
  hash := List.forall_mem_nil _
  distinct := List.Pairwise.nil

/-- Tables with the same items not deleted hold the same pairs. -/
theorem Dict.Keyed.of_live (h : d.Keyed ops same) (hr : r.Exact) (hlive : liveItems r.vtab = liveItems d.vtab) :
    r.Keyed ops same ∧ r.pairs = d.pairs := by
  have hpairs : r.pairs = d.pairs := by
    unfold Dict.pairs
    rw [← filterMap_pair_liveItems, hlive, filterMap_pair_liveItems]
  refine ⟨⟨hr, fun item hitem pair hpair => ?_, hpairs ▸ h.distinct⟩, hpairs⟩
  have hmem : item ∈ liveItems r.vtab := List.mem_filter.mpr ⟨hitem, by rw [DictItem.deleted, hpair]; rfl⟩
  rw [hlive] at hmem
  exact h.hash item (List.mem_of_mem_filter hmem) pair hpair

/-- The pairs in front of an item and behind it. -/
theorem pairs_split (hitem : d.vtab[q]? = some ⟨hash, some old⟩) :
    d.pairs = (d.vtab.take q).filterMap DictItem.pair ++ old :: (d.vtab.drop (q + 1)).filterMap DictItem.pair := by
  obtain ⟨hq, hget⟩ := List.getElem?_eq_some_iff.mp hitem
  unfold Dict.pairs
  conv_lhs => rw [← List.take_append_drop q d.vtab, List.drop_eq_getElem_cons hq, hget]
  rw [List.filterMap_append]
  rfl

/-- The pair of an item is replaced, and goes to the end. -/
theorem Dict.Keyed.insert_of_mem [DecidableRel same] (h : d.Keyed ops same) (hsame : Equivalence same)
    (hitem : d.vtab[q]? = some ⟨hash, some old⟩) (hold : same pair.1 old.1) :
    (d.vtab.take q).filterMap DictItem.pair ++ (d.vtab.drop (q + 1)).filterMap DictItem.pair ++ [pair] =
      insertLast same d.pairs pair := by
  have hdistinct := h.distinct
  rw [pairs_split hitem] at hdistinct ⊢
  exact (insertLast_of_mem hsame hdistinct hold).symm

/-- A key that the search has not found is new. -/
theorem Dict.Searchable.new_of_absent (h : d.Searchable ops same) (hlaw : ops.Lawful same) {key : κ}
    (hfound : d.Found ops key (.absent slot)) : ∀ p ∈ d.pairs, ¬same key p.1 := by
  obtain ⟨n, hpassed, hzero, -⟩ := hfound
  intro p hp hkey
  obtain ⟨item, hmem, hpair⟩ := List.mem_filterMap.mp hp
  obtain ⟨i, hi, hget⟩ := List.getElem_of_mem hmem
  have hitem : d.vtab[i]? = some item := hget ▸ List.getElem?_eq_getElem hi
  have hhash : item.diHash = ops.hash key := (h.hash item hmem p hpair).trans (hlaw.hash_eq key p.1 hkey).symm
  obtain ⟨m, hm, hfirst⟩ := h.htab.reach i item hitem (by rw [DictItem.deleted, hpair]; rfl)
  rw [hhash] at hm hfirst
  have hmn : m < n := by
    rcases Nat.lt_trichotomy m n with hlt | rfl | hgt
    · exact hlt
    · omega
    · exact absurd hzero (hfirst n hgt)
  have hfalse := (hpassed m hmn).2 p ⟨(hpassed m hmn).1, by rw [hm, Nat.add_sub_cancel, hitem, ← hhash, ← hpair]⟩
  exact absurd ((hlaw.compare key p.1 false hfalse).mpr hkey) Bool.false_ne_true

theorem Dict.Passed.first {key : κ} (h : d.Passed ops key n) :
    ∀ m < n, cell d.htab (htabIndex d.hmask (ops.hash key) m) ≠ 0 := fun m hm => (h m hm).1

/-- The slot that the search has chosen for a new key. -/
theorem Dict.freeSlot_of_absent {key : κ} (hfound : d.Found ops key (.absent slot)) : d.FreeSlot (ops.hash key) slot := by
  obtain ⟨n, hpassed, hzero, hslot⟩ := hfound
  rcases hslot with rfl | ⟨m, hm, rfl, hdead⟩
  · exact ⟨.inl hzero, n, rfl, hpassed.first⟩
  · exact ⟨.inr hdead, m, rfl, fun j hj => hpassed.first j (hj.trans hm)⟩

theorem Dict.Verify.rediscover (h : d.Verify) (hhash : hash < 2 ^ 64) :
    Ends (d.rediscover hash) (d.FreeSlot hash) := by
  obtain ⟨k, hk, hmask2⟩ := h.hmask
  obtain ⟨t, ht, hzero⟩ := h.htab.eof
  have hvisit : ∀ i ≤ d.hmask, (do
      let vtabIdx ← rd d.htab i
      some (if vtabIdx = 0 then some i else none)) = some (if cell d.htab i = 0 then some i else none) := by
    intro i hi
    rw [rd_of_lt (by rw [h.htab.length]; omega), some_bind]
  obtain ⟨n, slot, hslot, hfirst, hrun⟩ := exists_probeWith_eq (s := (hash &&& d.hmask, hash)) hmask2 hk hhash
    (fun i hi => ⟨_, hvisit i hi⟩) ht (by rw [hvisit t ht, if_pos hzero])
  have hhere := Option.some.inj ((hvisit _ (htabIndex_le n)).symm.trans hslot)
  have hcell : cell d.htab (htabIndex d.hmask hash n) = 0 := by
    by_contra hne
    rw [if_neg hne] at hhere
    cases hhere
  rw [if_pos hcell] at hhere
  refine ⟨slot, hrun, .inl (Option.some.inj hhere ▸ hcell), n, (Option.some.inj hhere).symm, fun m hm h0 => ?_⟩
  have hnone := Option.some.inj ((hvisit _ (htabIndex_le m)).symm.trans (hfirst m hm))
  rw [if_pos h0] at hnone
  cases hnone

end Keys

/-! ### Setting an item -/

section Setting

variable {ops : KeyOps κ} {same : κ → κ → Prop} {dbg unlocked : Bool} {answers : GrowAnswers} {d r : Dict κ ν}
  {pair : κ × ν} {slot htabIdx vtabIdx q n : ℕ} {result : Option ℕ} {item : DictItem κ ν}

/-- The swap leaves everything but the hash table. -/
theorem Dict.Exact.swapDeleted (h : d.Exact) (hitem : d.vtab[q]? = some item) (hslot : cell d.htab htabIdx = q + 1)
    (hfirst : ∀ m < n, cell d.htab (htabIndex d.hmask item.diHash m) ≠ 0)
    (hresult : ∀ slot, result = some slot → ∃ m < n, slot = htabIndex d.hmask item.diHash m ∧ d.DeletedSlot slot) :
    Ends (d.swapDeleted dbg htabIdx (q + 1) result) fun r => r.Exact ∧ r.vtab = d.vtab ∧ r.valloc = d.valloc := by
  cases result with
  | none => exact Ends.pure ⟨h, rfl, rfl⟩
  | some slot =>
    obtain ⟨m, hm, rfl, hdead⟩ := hresult slot rfl
    have hlt : htabIndex d.hmask item.diHash m < d.htab.length := htabIndex_lt h.htab.length m
    have hidx : htabIdx < d.htab.length := by
      by_contra hge
      rw [cell_of_le (not_lt.mp hge)] at hslot
      omega
    obtain ⟨hne, other, hother, hnone⟩ := hdead
    have hdeleted : d.vtab[cell d.htab (htabIndex d.hmask item.diHash m) - 1]?.map DictItem.deleted = some true := by
      rw [hother, Option.map_some, DictItem.deleted, hnone]
      rfl
    unfold Dict.swapDeleted
    dsimp only
    rw [rd_of_lt hlt, some_bind, check_of hne, some_bind, check_of hdeleted, some_bind, wr_of_lt hidx, some_bind,
      wr_of_lt (by rwa [List.length_set]), some_bind]
    exact Ends.pure ⟨h.swap hitem hslot ⟨hne, other, hother, hnone⟩ fun j hj => hfirst j (hj.trans hm), rfl, rfl⟩

theorem Dict.Exact.optimizeIfShould (h : d.Exact) :
    Ends (d.optimizeIfShould dbg) fun r => r.Exact ∧ liveItems r.vtab = liveItems d.vtab ∧
      r.vtab.length ≤ d.vtab.length := by
  unfold Dict.optimizeIfShould
  by_cases hshould : d.ShouldOptimizeVtab
  · rw [if_pos hshould]
    refine (h.optimizeVtab (lt_of_lt_of_le hshould ?_)).mono ?_
    · rw [Nat.shiftRight_eq_div_pow]
      exact Nat.div_le_self _ _
    · rintro r ⟨hr, hvtab, -⟩
      exact ⟨hr, by rw [hvtab, liveItems_liveItems], hvtab ▸ List.length_filter_le _ _⟩
  · rw [if_neg hshould]
    exact Ends.pure ⟨h, rfl, le_rfl⟩

theorem Grown.length_le (h : Grown d r) : r.vtab.length ≤ d.vtab.length := by
  by_cases hmask : r.hmask = d.hmask
  · rw [(h.kept hmask).1]
  · rw [h.rebuilt hmask]
    exact List.length_filter_le _ _

theorem Dict.Exact.optimizeOrGrow (h : d.Exact) (hfull : d.vtab.length = d.valloc) (hlt : d.vtab.length + 1 < 2 ^ 64) :
    Ends (d.optimizeOrGrow dbg answers) fun r => r.Exact ∧ liveItems r.vtab = liveItems d.vtab ∧
      r.vtab.length ≤ d.vtab.length := by
  have hoptimize : d.CanOptimizeVtab → Ends (d.optimizeVtab dbg) fun r => r.Exact ∧
      liveItems r.vtab = liveItems d.vtab ∧ r.vtab.length ≤ d.vtab.length := by
    intro hopt
    refine (h.optimizeVtab hopt).mono ?_
    rintro r ⟨hr, hvtab, -⟩
    exact ⟨hr, by rw [hvtab, liveItems_liveItems], hvtab ▸ List.length_filter_le _ _⟩
  unfold Dict.optimizeOrGrow
  by_cases hshould : d.ShouldOptimizeVtab
  · rw [if_pos hshould]
    refine hoptimize (lt_of_lt_of_le hshould ?_)
    rw [Nat.shiftRight_eq_div_pow]
    exact Nat.div_le_self _ _
  · rw [if_neg hshould]
    refine Ends.bind (h.trygrowVtabAndHtabWith (by omega) hlt) ?_
    rintro grown ⟨-, hgrown⟩
    cases grown with
    | some grown =>
      have hg := (hgrown grown rfl).1
      exact Ends.pure ⟨hg.exact, hg.liveItems, hg.length_le⟩
    | none =>
      dsimp only
      by_cases hopt : d.CanOptimizeVtab
      · rw [if_pos hopt]
        exact hoptimize hopt
      · rw [if_neg hopt]
        exact Ends.pure ⟨h, rfl, le_rfl⟩

/-- Appending an item with a new key. -/
theorem Dict.Keyed.appendItem (h : d.Keyed ops same) (hlaw : ops.Lawful same) (hroom : d.vtab.length < d.valloc)
    (hfree : d.FreeSlot (ops.hash pair.1) slot) (hnew : ∀ p ∈ d.pairs, ¬same pair.1 p.1) :
    Ends (d.appendItem dbg (ops.hash pair.1) pair slot) fun r => r.Keyed ops same ∧ r.pairs = d.pairs ++ [pair] ∧
      r.vtab.length = d.vtab.length + 1 ∧ r.valloc = d.valloc ∧ r.vused = d.vused + 1 := by
  have hslot : slot < d.htab.length := by
    obtain ⟨-, n, rfl, -⟩ := hfree
    exact htabIndex_lt h.htab.length n
  have hdistinct : Distinct same (d.pairs ++ [pair]) := by
    refine List.pairwise_append.mpr ⟨h.distinct, List.pairwise_singleton _ _, fun p hp p' hp' heq => ?_⟩
    rw [List.mem_singleton.mp hp'] at heq
    exact hnew p hp (hlaw.equivalence.symm heq)
  have hpairs : Dict.pairs { d with
      vtab := d.vtab ++ [⟨ops.hash pair.1, some pair⟩]
      vused := d.vused + 1
      htab := d.htab.set slot (d.vtab.length + 1) } = d.pairs ++ [pair] := by
    unfold Dict.pairs
    rw [List.filterMap_append]
    rfl
  unfold Dict.appendItem
  rw [check_of (show ¬d.MustGrowVtab from not_le.mpr hroom), some_bind, assert_of hroom, some_bind, wr_of_lt hslot,
    some_bind]
  refine Ends.pure ⟨⟨h.toExact.append hroom (hlaw.hash_lt _) hfree (hdistinct.nodup hlaw.equivalence), ?_,
    hpairs ▸ hdistinct⟩, hpairs, by rw [List.length_append]; rfl, rfl, rfl⟩
  intro item hitem p hp
  rcases List.mem_append.mp hitem with hold | hlast
  · exact h.hash item hold p hp
  · rw [List.mem_singleton.mp hlast] at hp ⊢
    cases hp
    rfl

/-- The hashes stay those of the keys when items are moved and one is added. -/
theorem Dict.Keyed.hash_append (h : d.Keyed ops same) {vtab : List (DictItem κ ν)}
    (hvtab : ∀ item ∈ vtab, item.deleted = false → item ∈ d.vtab) :
    ∀ item ∈ vtab ++ [⟨ops.hash pair.1, some pair⟩], ∀ p, item.pair = some p → item.diHash = ops.hash p.1 := by
  intro item hmem p hp
  rcases List.mem_append.mp hmem with hold | hnew
  · exact h.hash item (hvtab item hold (by rw [DictItem.deleted, hp]; rfl)) p hp
  · rw [List.mem_singleton.mp hnew] at hp ⊢
    cases hp
    rfl

/-- A pair has been set. -/
structure Overridden (ops : KeyOps κ) (same : κ → κ → Prop) [DecidableRel same] (d : Dict κ ν) (pair : κ × ν)
    (r : Dict κ ν) : Prop where
  keyed : r.Keyed ops same
  pairs : r.pairs = insertLast same d.pairs pair
  length : r.vtab.length ≤ d.vtab.length + 1

/-- An override once the new item is in its place, and the `n`-th slot of the probe leads to it. -/
structure Placed (ops : KeyOps κ) (same : κ → κ → Prop) [DecidableRel same] (d : Dict κ ν) (pair : κ × ν) (n q : ℕ)
    (e : Dict κ ν) : Prop where
  exact : e.Exact
  hmask : e.hmask = d.hmask
  pairs : e.pairs = insertLast same d.pairs pair
  hash : ∀ item ∈ e.vtab, ∀ p, item.pair = some p → item.diHash = ops.hash p.1
  length : e.vtab.length ≤ d.vtab.length + 1
  item : e.vtab[q]? = some ⟨ops.hash pair.1, some pair⟩
  slot : cell e.htab (htabIndex d.hmask (ops.hash pair.1) n) = q + 1
  used : ∀ i, cell d.htab i ≠ 0 → cell e.htab i ≠ 0
  deleted : ∀ slot, d.DeletedSlot slot → e.DeletedSlot slot

section Override

variable [DecidableRel same] {e : Dict κ ν} {old : κ × ν}

/-- The slot of a deleted item that the search has come by is swapped in. -/
theorem Placed.swapDeleted (h : Placed ops same d pair n q e) (hpassed : d.Passed ops pair.1 n)
    (hresult : ∀ slot, result = some slot → d.CameBy ops pair.1 n slot) :
    Ends (e.swapDeleted dbg (htabIndex d.hmask (ops.hash pair.1) n) (q + 1) result) fun r => r.Exact ∧
      r.vtab = e.vtab ∧ r.valloc = e.valloc := by
  refine h.exact.swapDeleted (n := n) h.item h.slot ?_ ?_
  · intro m hm
    rw [h.hmask]
    exact h.used _ (hpassed.first m hm)
  · intro slot hslot
    obtain ⟨m, hm, heq, hdead⟩ := hresult slot hslot
    exact ⟨m, hm, by rw [h.hmask, heq], h.deleted slot hdead⟩

/-- The same items in other tables. -/
theorem Placed.overridden (h : Placed ops same d pair n q e) (hkeyed : d.Keyed ops same) (hlaw : ops.Lawful same)
    (hr : r.Exact) (hlive : liveItems r.vtab = liveItems e.vtab) (hle : r.vtab.length ≤ e.vtab.length) :
    Overridden ops same d pair r := by
  have he : e.Keyed ops same := ⟨h.exact, h.hash, h.pairs ▸ hkeyed.distinct.insertLast hlaw.equivalence⟩
  obtain ⟨hr', hpairs⟩ := he.of_live hr hlive
  exact ⟨hr', hpairs.trans h.pairs, hle.trans h.length⟩

section Place

variable (h : d.Keyed ops same) (hlaw : ops.Lawful same)
  (hitem : d.vtab[q]? = some ⟨ops.hash pair.1, some old⟩) (hsame : same pair.1 old.1)
include h hlaw hitem hsame

/-- The last item gets the new pair. -/
theorem Dict.Keyed.placedLast (hslot : cell d.htab (htabIndex d.hmask (ops.hash pair.1) n) = q + 1)
    (hlast : q = d.vtab.length - 1) :
    Placed ops same d pair n q { d with vtab := d.vtab.set q ⟨ops.hash pair.1, some pair⟩ } := by
  obtain ⟨hq, -⟩ := List.getElem?_eq_some_iff.mp hitem
  have hset : d.vtab.set q ⟨ops.hash pair.1, some pair⟩ = d.vtab.take q ++ [⟨ops.hash pair.1, some pair⟩] := by
    rw [List.set_eq_take_append_cons_drop, if_pos hq, List.drop_of_length_le (show d.vtab.length ≤ q + 1 by omega)]
  have hpairs : (d.vtab.set q ⟨ops.hash pair.1, some pair⟩).filterMap DictItem.pair = insertLast same d.pairs pair := by
    rw [← h.insert_of_mem hlaw.equivalence hitem hsame, hset, List.filterMap_append,
      List.drop_of_length_le (show d.vtab.length ≤ q + 1 by omega), List.filterMap_nil, List.append_nil]
    rfl
  have hkeys := (h.distinct.insertLast (p := pair) hlaw.equivalence).nodup hlaw.equivalence
  refine ⟨h.toExact.replace hitem rfl (by rwa [hpairs]), rfl, hpairs, ?_, ?_, List.getElem?_set_self hq, hslot,
    fun _ hne => hne, ?_⟩
  · dsimp only
    rw [hset]
    exact h.hash_append fun item hmem _ => List.mem_of_mem_take hmem
  · dsimp only
    rw [List.length_set]
    exact Nat.le_succ _
  · rintro slot ⟨hne, other, hother, hnone⟩
    refine ⟨hne, other, ?_, hnone⟩
    dsimp only
    rw [List.getElem?_set_ne ?_, hother]
    intro heq
    rw [← heq, hitem] at hother
    cases hother
    cases hnone

/-- The old item is deleted, and the new one appended. -/
theorem Dict.Keyed.placedWithRoom (hslot : cell d.htab (htabIndex d.hmask (ops.hash pair.1) n) = q + 1)
    (hpassed : d.Passed ops pair.1 n) (hroom : d.vtab.length < d.valloc) :
    Placed ops same d pair n d.vtab.length { d with
      vtab := d.vtab.set q ⟨ops.hash pair.1, none⟩ ++ [⟨ops.hash pair.1, some pair⟩]
      htab := d.htab.set (htabIndex d.hmask (ops.hash pair.1) n) (d.vtab.length + 1) } := by
  obtain ⟨hq, -⟩ := List.getElem?_eq_some_iff.mp hitem
  have hidx : htabIndex d.hmask (ops.hash pair.1) n < d.htab.length := htabIndex_lt h.htab.length n
  have hpairs : (d.vtab.set q ⟨ops.hash pair.1, none⟩ ++ [DictItem.mk (ops.hash pair.1) (some pair)]).filterMap
      DictItem.pair = insertLast same d.pairs pair := by
    rw [List.filterMap_append, ← h.insert_of_mem hlaw.equivalence hitem hsame]
    exact congrArg (· ++ [pair]) (pairs_set hitem)
  have hkeys := (h.distinct.insertLast (p := pair) hlaw.equivalence).nodup hlaw.equivalence
  -- deleting the item makes its slot a free one
  obtain ⟨hdeleted, hused⟩ := h.toExact.delete hitem rfl
  have hfree : Dict.FreeSlot { d with
      vtab := d.vtab.set q ⟨ops.hash pair.1, none⟩
      vused := d.vused - 1 } (ops.hash pair.1) (htabIndex d.hmask (ops.hash pair.1) n) := by
    refine ⟨.inr ⟨by dsimp only; omega, ⟨ops.hash pair.1, none⟩, ?_, rfl⟩, n, rfl, hpassed.first⟩
    dsimp only
    rw [hslot, Nat.add_sub_cancel, List.getElem?_set_self hq]
  have happended := @Dict.Exact.append _ _ _ _ _ pair hdeleted (by dsimp only; rwa [List.length_set]) (hlaw.hash_lt _) hfree (by
    have heq : Dict.pairs { d with
        vtab := d.vtab.set q ⟨ops.hash pair.1, none⟩
        vused := d.vused - 1 } ++ [pair] = insertLast same d.pairs pair := by
      rw [← hpairs, List.filterMap_append]
      rfl
    exact heq ▸ hkeys)
  dsimp only at happended
  rw [hused, List.length_set] at happended
  refine ⟨happended, rfl, hpairs, ?_, by rw [List.length_append, List.length_set]; rfl, ?_, cell_set_self hidx, ?_, ?_⟩
  · refine h.hash_append fun item hmem hlive => ?_
    rcases List.mem_or_eq_of_mem_set hmem with hold | rfl
    · exact hold
    · cases hlive
  · dsimp only
    rw [List.getElem?_append_right (by rw [List.length_set]), List.length_set, Nat.sub_self]
    rfl
  · intro i hne
    dsimp only
    by_cases heq : htabIndex d.hmask (ops.hash pair.1) n = i
    · rw [← heq, cell_set_self hidx]
      exact Nat.succ_ne_zero _
    · rwa [cell_set_of_ne heq]
  · intro slot hdead
    have hslot' : htabIndex d.hmask (ops.hash pair.1) n ≠ slot := by
      rintro rfl
      exact hdead.ne hitem rfl hslot
    obtain ⟨hne, other, hother, hnone⟩ := hdead
    have hbound := h.htab.bound slot
    refine ⟨?_, other, ?_, hnone⟩
    · dsimp only
      rwa [cell_set_of_ne hslot']
    · dsimp only
      rw [cell_set_of_ne hslot', List.getElem?_append_left (by rw [List.length_set]; omega), List.getElem?_set_ne ?_,
        hother]
      intro heq
      rw [← heq, hitem] at hother
      cases hother
      cases hnone

/-- In a full table the items behind the old one move down. -/
theorem Dict.Keyed.placedFull (hslot : cell d.htab (htabIndex d.hmask (ops.hash pair.1) n) = q + 1)
    (hpassed : d.Passed ops pair.1 n) :
    Placed ops same d pair n (d.vtab.length - 1) { d with
      vtab := d.vtab.eraseIdx q ++ [⟨ops.hash pair.1, some pair⟩]
      htab := (hxioDecafter d.htab (q + 1)).set (htabIndex d.hmask (ops.hash pair.1) n) d.vtab.length } := by
  obtain ⟨hq, -⟩ := List.getElem?_eq_some_iff.mp hitem
  have hidx : htabIndex d.hmask (ops.hash pair.1) n < (hxioDecafter d.htab (q + 1)).length :=
    htabIndex_lt (by rw [hxioDecafter, List.length_map, h.htab.length]) n
  have hlen : (d.vtab.eraseIdx q).length = d.vtab.length - 1 := List.length_eraseIdx_of_lt hq
  have hpairs : (d.vtab.eraseIdx q).filterMap DictItem.pair ++ [pair] = insertLast same d.pairs pair := by
    rw [← h.insert_of_mem hlaw.equivalence hitem hsame, List.eraseIdx_eq_take_drop_succ, List.filterMap_append]
  have hkeys := (h.distinct.insertLast (p := pair) hlaw.equivalence).nodup hlaw.equivalence
  have hother : ∀ i, i ≠ htabIndex d.hmask (ops.hash pair.1) n → cell d.htab i ≠ 0 →
      cell d.htab i ≠ q + 1 ∧ cell ((hxioDecafter d.htab (q + 1)).set (htabIndex d.hmask (ops.hash pair.1) n)
        d.vtab.length) i = if q + 1 ≤ cell d.htab i then cell d.htab i - 1 else cell d.htab i := by
    intro i hi hne
    exact ⟨fun heq => hi (h.slots i _ (heq.trans hslot.symm) hne),
      by rw [cell_set_of_ne (Ne.symm hi), cell_decafter (Nat.succ_pos q)]⟩
  refine ⟨h.toExact.shift hitem rfl hslot hpassed.first (by rwa [hpairs]), rfl, ?_, ?_, ?_, ?_, ?_, ?_, ?_⟩
  · unfold Dict.pairs
    rw [List.filterMap_append]
    exact hpairs
  · exact h.hash_append fun item hmem _ => List.mem_of_mem_eraseIdx hmem
  · dsimp only
    rw [List.length_append, hlen, List.length_singleton]
    omega
  · dsimp only
    rw [List.getElem?_append_right (by omega), hlen, Nat.sub_self]
    rfl
  · rw [cell_set_self hidx]
    omega
  · intro i hne
    dsimp only
    by_cases hi : i = htabIndex d.hmask (ops.hash pair.1) n
    · rw [hi, cell_set_self hidx]
      omega
    · obtain ⟨hne', hcell⟩ := hother i hi hne
      rw [hcell]
      split_ifs <;> omega
  · intro slot hdead
    have hslot' : slot ≠ htabIndex d.hmask (ops.hash pair.1) n := by
      rintro rfl
      exact hdead.ne hitem rfl hslot
    obtain ⟨hne, other, hother', hnone⟩ := hdead
    obtain ⟨hne', hcell⟩ := hother slot hslot' hne
    have hbound := h.htab.bound slot
    refine ⟨?_, other, ?_, hnone⟩
    · dsimp only
      rw [hcell]
      split_ifs <;> omega
    · dsimp only
      rw [hcell]
      by_cases hle : q + 1 ≤ cell d.htab slot
      · rw [if_pos hle, List.getElem?_append_left (by omega), List.getElem?_eraseIdx, if_neg (by omega),
          Nat.sub_add_cancel (by omega), hother']
      · rw [if_neg hle, List.getElem?_append_left (by omega), List.getElem?_eraseIdx, if_pos (by omega), hother']

end Place

/-- Overriding an item: the old pair is gone, and the new one at the end. -/
theorem Dict.Keyed.overrideItem (h : d.Keyed ops same) (hlaw : ops.Lawful same) (hlt : d.vtab.length + 1 < 2 ^ 64)
    (hfound : d.Found ops pair.1 (.present htabIdx vtabIdx result)) :
    Ends (d.overrideItem dbg answers (ops.hash pair.1) pair htabIdx vtabIdx result) (Overridden ops same d pair) := by
  obtain ⟨n, hpassed, rfl, rfl, ⟨old, ⟨hne, hitem⟩, hequal⟩, hresult⟩ := hfound
  have hsame : same pair.1 old.1 := (hlaw.compare _ _ _ hequal).mp rfl
  obtain ⟨q, hq⟩ := Nat.exists_eq_succ_of_ne_zero hne
  rw [Nat.succ_eq_add_one] at hq
  rw [hq, Nat.add_sub_cancel] at hitem
  have hidx : htabIndex d.hmask (ops.hash pair.1) n < d.htab.length := htabIndex_lt h.htab.length n
  unfold Dict.overrideItem
  rw [hq, Nat.add_sub_cancel]
  by_cases hlast : q = d.vtab.length - 1
  · have hplaced := h.placedLast hlaw hitem hsame hq hlast
    rw [if_pos hlast]
    unfold Dict.overrideInPlace
    rw [Nat.add_sub_cancel, hitem, some_bind, check_of rfl, some_bind]
    refine Ends.bind (hplaced.swapDeleted hpassed hresult) ?_
    rintro e ⟨he, hvtab, -⟩
    refine he.optimizeIfShould.mono ?_
    rintro r ⟨hr, hlive, hle⟩
    exact hplaced.overridden h hlaw hr (hvtab ▸ hlive) (hvtab ▸ hle)
  · rw [if_neg hlast]
    by_cases hroom : d.vtab.length < d.valloc
    · have hplaced := h.placedWithRoom hlaw hitem hsame hq hpassed hroom
      rw [if_pos hroom]
      unfold Dict.overrideWithRoom
      rw [Nat.add_sub_cancel, hitem, some_bind, wr_of_lt hidx, some_bind]
      refine Ends.bind (hplaced.swapDeleted hpassed hresult) ?_
      rintro e ⟨he, hvtab, -⟩
      refine he.optimizeIfShould.mono ?_
      rintro r ⟨hr, hlive, hle⟩
      exact hplaced.overridden h hlaw hr (hvtab ▸ hlive) (hvtab ▸ hle)
    · have hfull : d.vtab.length = d.valloc := le_antisymm h.vsize (not_lt.mp hroom)
      have hplaced := h.placedFull hlaw hitem hsame hq hpassed
      obtain ⟨hqlt, -⟩ := List.getElem?_eq_some_iff.mp hitem
      have hswap : Ends (Dict.swapDeleted dbg _ _ _ _) _ := hplaced.swapDeleted hpassed hresult
      rw [Nat.sub_add_cancel (by omega)] at hswap
      rw [if_neg hroom]
      unfold Dict.overrideFull
      rw [check_of hfull, some_bind, wr_of_lt (by rwa [hxioDecafter, List.length_map]), some_bind, Nat.add_sub_cancel]
      refine Ends.bind hswap ?_
      rintro e ⟨he, hvtab, hvalloc⟩
      have hlen : e.vtab.length = d.vtab.length := by
        rw [hvtab, List.length_append, List.length_eraseIdx_of_lt hqlt, List.length_singleton]
        omega
      refine (he.optimizeOrGrow (by rw [hlen, hvalloc, hfull]) (by rw [hlen]; exact hlt)).mono ?_
      rintro r ⟨hr, hlive, hle⟩
      exact hplaced.overridden h hlaw hr (hvtab ▸ hlive) (hvtab ▸ hle)

end Override

theorem Dict.Exact.trygrow (h : d.Exact) (hfull : d.MustGrowVtab) (hlt : d.vtab.length + 1 < 2 ^ 64) :
    Ends (d.trygrow dbg answers) fun r => (r = none ↔ answers.tryRealloc = false ∧ answers.tryReallocSmall = false) ∧
      ∀ grown, r = some grown → Grown d grown ∧ (answers.tryRealloc = true → d.hmask ≤ grown.hmask) := by
  have hboth : Ends (d.trygrowVtabAndHtab dbg answers) _ :=
    h.trygrowVtabAndHtabWith (Nat.lt_succ_of_le hfull) hlt
  unfold Dict.trygrow
  by_cases hshould : d.ShouldGrowHtab
  · rw [if_pos hshould]
    exact hboth
  · rw [if_neg hshould]
    by_cases hcan : d.CanGrowVtab
    · rw [if_pos hcan]
      exact h.trygrowVtab hcan hfull
    · rw [if_neg hcan]
      exact hboth

/-- What `locate` leaves: an item that may be overridden, or room and a slot for a new one. -/
def Located (ops : KeyOps κ) (same : κ → κ → Prop) (d : Dict κ ν) (key : κ) (e : Dict κ ν) : Search → Prop
  | .err => e = d ∧ d.Found ops key .err
  | .present htabIdx vtabIdx result => e = d ∧ d.Found ops key (.present htabIdx vtabIdx result)
  | .absent slot => e.Keyed ops same ∧ e.pairs = d.pairs ∧ e.vtab.length ≤ d.vtab.length ∧
      e.vtab.length < e.valloc ∧ e.FreeSlot (ops.hash key) slot ∧ ∀ p ∈ d.pairs, ¬same key p.1

/-- A slot for a new key in the tables that have been grown. -/
theorem Dict.Keyed.afterGrowth (h : d.Keyed ops same) (hlaw : ops.Lawful same) {key : κ} {grown : Dict κ ν}
    (hgrown : Grown d grown) (hmask : d.hmask ≤ grown.hmask) (hfound : d.Found ops key (.absent slot)) :
    Ends (d.afterGrowth ops dbg grown key slot) fun r => Located ops same d key r.1 r.2 := by
  obtain ⟨hkeyed, hpairs⟩ := h.of_live hgrown.exact hgrown.liveItems
  have hnew := h.new_of_absent hlaw hfound
  unfold Dict.afterGrowth
  rw [check_of hmask, some_bind]
  by_cases hsame : d.hmask = grown.hmask
  · obtain ⟨hvtab, hhtab⟩ := hgrown.kept hsame.symm
    have hfree := Dict.freeSlot_of_absent hfound
    unfold Dict.FreeSlot Dict.DeletedSlot at hfree
    rw [if_neg (not_not.mpr hsame), some_bind]
    refine Ends.pure ⟨hkeyed, hpairs, hgrown.length_le, hgrown.room, ?_, hnew⟩
    unfold Dict.FreeSlot Dict.DeletedSlot
    rwa [hvtab, hhtab, ← hsame]
  · rw [if_pos hsame]
    refine Ends.bind (hkeyed.toVerify.rediscover (hlaw.hash_lt key)) fun slot' hfree => Ends.pure ?_
    exact ⟨hkeyed, hpairs, hgrown.length_le, hgrown.room, hfree, hnew⟩

/-- With the memory for larger tables the search ends at the item, or with room for a new one. -/
theorem Dict.Keyed.locate (h : d.Keyed ops same) (hlaw : ops.Lawful same) (hlt : d.vtab.length + 1 < 2 ^ 64)
    (hmem : answers.tryRealloc = true) (key : κ) :
    Ends (d.locate ops dbg unlocked answers key) fun r => Located ops same d key r.1 r.2 := by
  unfold Dict.locate
  refine Ends.bind (h.toVerify.search (hlaw.hash_lt key)) fun found hfound => ?_
  cases found with
  | err => exact Ends.pure ⟨rfl, hfound⟩
  | present htabIdx vtabIdx result => exact Ends.pure ⟨rfl, hfound⟩
  | absent slot =>
    dsimp only
    by_cases hfull : d.MustGrowVtab
    · rw [if_pos hfull]
      refine Ends.bind (h.toExact.trygrow hfull hlt) ?_
      rintro grown ⟨hnone, hgrown⟩
      cases grown with
      | none => exact absurd ((hnone.mp rfl).1.symm.trans hmem) Bool.false_ne_true
      | some grown =>
        obtain ⟨hg, hmask⟩ := hgrown grown rfl
        exact h.afterGrowth hlaw hg (hmask hmem) hfound
    · rw [if_neg hfull]
      exact Ends.pure ⟨h, rfl, le_rfl, not_le.mp hfull, Dict.freeSlot_of_absent hfound, h.new_of_absent hlaw hfound⟩

/-- Setting an item: a comparison throws and the dict stays as it is, or the pair is set. -/
theorem Dict.Keyed.setitem [DecidableRel same] (h : d.Keyed ops same) (hlaw : ops.Lawful same)
    (hlt : d.vtab.length + 1 < 2 ^ 64) (hmem : answers.tryRealloc = true) :
    Ends (d.setitem ops dbg unlocked answers pair) fun r => (r.2 = false → r.1 = d ∧ d.Found ops pair.1 .err) ∧
      (r.2 = true → Overridden ops same d pair r.1) := by
  unfold Dict.setitem
  refine Ends.bind (h.locate hlaw hlt hmem pair.1) ?_
  rintro ⟨e, found⟩ hlocated
  dsimp only
  cases found with
  | err => exact Ends.pure ⟨fun _ => hlocated, fun hcontra => absurd hcontra Bool.false_ne_true⟩
  | present htabIdx vtabIdx result =>
    obtain ⟨rfl, hfound⟩ := hlocated
    refine Ends.bind (h.overrideItem hlaw hlt hfound) fun r hr => Ends.pure ⟨fun hcontra => ?_, fun _ => hr⟩
    exact absurd hcontra.symm Bool.false_ne_true
  | absent slot =>
    obtain ⟨hkeyed, hpairs, hle, hroom, hfree, hnew⟩ := hlocated
    refine Ends.bind (hkeyed.appendItem hlaw hroom hfree (hpairs.symm ▸ hnew)) ?_
    rintro r ⟨hr, hrpairs, hlen, -⟩
    refine Ends.pure ⟨fun hcontra => absurd hcontra.symm Bool.false_ne_true, fun _ => ⟨hr, ?_, hlen.le.trans (Nat.succ_le_succ hle)⟩⟩
    rw [hrpairs, hpairs, insertLast_of_new hnew]

end Setting

/-- Keys that are numbers, with their low bits as hash. -/
def numberOps : KeyOps ℕ where
  hash k := k % 2 ^ 64
  tryCompareEq a b := some (a == b)

theorem numberOps_lawful : numberOps.Lawful Eq where
  equivalence := eq_equivalence
  compare a b r h := by
    obtain rfl := Option.some.inj h
    exact beq_iff_eq
  hash_eq a b h := congrArg numberOps.hash h
  hash_lt a := Nat.mod_lt a (Nat.two_pow_pos 64)

end Deemon.Collections
