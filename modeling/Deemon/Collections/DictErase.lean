import Deemon.Collections.DictIter

/-!
# Erasing a range of a dict

`dict_mh_seq_erase` moves the keys and values of a range of items to a buffer, so that they can be released when the
lock is no longer held. The buffer has room for the objects of the range; when it cannot be allocated under the lock,
the lock is dropped, and the range is computed again afterwards.
-/

namespace Deemon.Collections

open Deemon.Run

variable {κ ν ο : Type}

/-! ### The code -/

/-- `LOCAL_OBJECTS_PER_ITEM`: the items of a hash set have no values. -/
def objectsPerItem (isSet : Bool) : ℕ := if isSet then 1 else 2

/-- `struct dict_seq_erase_data`. -/
structure EraseData where
  dseStart : ℕ
  dseEnd : ℕ
  dseCount : ℕ

/-- `dict_seq_erase_data_init`, with `none` when it returns true. -/
def eraseDataInit (d : Dict κ ν) (start count : ℕ) : Option EraseData :=
  let dseStart := min start d.vused
  let dseEnd := min (uaddOrMax dseStart count) d.vused
  if dseEnd < dseStart then none else some ⟨dseStart, dseEnd, dseEnd - dseStart⟩

/-- `old_objv[i] = ob`. -/
def putObject (objv : List (Option ο)) (i : ℕ) (ob : ο) : Option (List (Option ο)) :=
  if i < objv.length then some (objv.set i (some ob)) else none

/-- The body of the loop that empties the items. -/
def eraseItem (isSet : Bool) (i : ℕ) (s : List (DictItem κ ν) × List (Option (κ ⊕ ν))) :
    Option (List (DictItem κ ν) × List (Option (κ ⊕ ν))) := do
  let item ← s.1[i]?
  let pair ← item.pair
  let objv ← putObject s.2 (i * objectsPerItem isSet) (.inl pair.1)
  let objv ← (if isSet then some objv else putObject objv (i * objectsPerItem isSet + 1) (.inr pair.2))
  some (s.1.set i item.delete, objv)

/-- `Dee_Decrefv`: every slot is read. -/
def decrefv : List (Option ο) → Option (List ο)
  | [] => some []
  | ob :: objv => do
    let ob ← ob
    let released ← decrefv objv
    some (ob :: released)

/-- How the call ends: with an exception, or with the dict and the objects that were released. -/
inductive EraseResult (κ ν : Type) where
  | err
  | erased (self : Dict κ ν) (released : List (κ ⊕ ν))

/-- The part of `dict_mh_seq_erase` behind the allocation of the buffer. -/
def Dict.eraseRange (dbg isSet : Bool) (self : Dict κ ν) (used : EraseData) : Option (EraseResult κ ν) := do
  let self ← (if self.CanOptimizeVtab then self.optimizeVtab dbg else some self)
  check dbg (used.dseCount ≤ self.vused)
  let (vtab, objv) ← forLoop (eraseItem isSet) used.dseStart (used.dseEnd - used.dseStart)
    (self.vtab, List.replicate (used.dseCount * objectsPerItem isSet) none)
  let erased := { self with
    vtab := vtab
    vused := self.vused - used.dseCount }
  let self ← erased.autoshrink dbg
  some (.erased self (← decrefv objv))

/-- What happens after `Dee_TryMallocac` has failed: whether `Dee_Mallocac` succeeds, what other threads have made of
the dict meanwhile, and what they have made of it when the lock is taken once more. -/
structure EraseRetry (κ ν : Type) where
  mallocOk : Bool
  relocked : Dict κ ν
  again : Dict κ ν

/-- `dict_mh_seq_erase`. The list has an element for each failure of `Dee_TryMallocac`. -/
def dictMhSeqErase (dbg isSet : Bool) (start count : ℕ) :
    List (EraseRetry κ ν) → Dict κ ν → Option (EraseResult κ ν)
  | [], self =>
    match eraseDataInit self start count with
    | none => some (.erased self [])
    | some used => self.eraseRange dbg isSet used
  | retry :: retries, self =>
    match eraseDataInit self start count with
    | none => some (.erased self [])
    | some used =>
      if retry.mallocOk = false then some .err
      else match eraseDataInit retry.relocked start count with
        | none => some (.erased retry.relocked [])
        | some newUsed =>
          if newUsed.dseCount ≠ used.dseCount then dictMhSeqErase dbg isSet start count retries retry.again
          else retry.relocked.eraseRange dbg isSet { used with
            dseStart := newUsed.dseStart
            dseEnd := newUsed.dseEnd }

/-! ### What it is for -/

/-- The objects of a pair. -/
def itemObjects (isSet : Bool) (pair : κ × ν) : List (κ ⊕ ν) :=
  if isSet then [.inl pair.1] else [.inl pair.1, .inr pair.2]

/-- The pairs that are erased from a dict. -/
def Dict.erasedPairs (d : Dict κ ν) (start count : ℕ) : List (κ × ν) := inRange start (start + count) d.pairs

/-- The dict that the range is erased from: the one that is found under the last lock. -/
def eraseTable (start count : ℕ) : List (EraseRetry κ ν) → Dict κ ν → Option (Dict κ ν)
  | [], self => some self
  | retry :: retries, self =>
    if retry.mallocOk = false then none
    else if (retry.relocked.erasedPairs start count).length ≠ (self.erasedPairs start count).length then
      eraseTable start count retries retry.again
    else some retry.relocked

/-- The call stays inside of its buffer, leaves the dict without the pairs of the range, and releases the objects of
these pairs. -/
def ErasesExactly (dbg isSet : Bool) (start count : ℕ) (retries : List (EraseRetry κ ν)) (self : Dict κ ν) : Prop :=
  ∀ d, eraseTable start count retries self = some d →
    Ends (dictMhSeqErase dbg isSet start count retries self) fun r => ∃ erased,
      r = .erased erased ((d.erasedPairs start count).flatMap (itemObjects isSet)) ∧
        erased.pairs = replaceRange start (start + count) d.pairs [] ∧ erased.Verify

/-- The range begins at the first item, or is empty. -/
def ErasesFront (start count : ℕ) (retries : List (EraseRetry κ ν)) (self : Dict κ ν) : Prop :=
  ∀ d, eraseTable start count retries self = some d → start = 0 ∨ d.erasedPairs start count = []

/-! ### The buffer -/

section Buffer

variable {isSet : Bool} {i n : ℕ} {objv : List (Option ο)} {vtab : List (DictItem κ ν)}

theorem decrefv_map (obs : List ο) : decrefv (obs.map some) = some obs := by
  induction obs with
  | nil => rfl
  | cons ob obs ih =>
    rw [List.map_cons, decrefv, some_bind, ih, some_bind]

theorem length_itemObjects (pair : κ × ν) : (itemObjects isSet pair).length = objectsPerItem isSet := by
  cases isSet with
  | false => rfl
  | true => rfl

/-- The next object goes to the first free slot. -/
theorem putObject_append {obs : List ο} {ob : ο} (hi : i = obs.length) :
    putObject (obs.map some ++ List.replicate (n + 1) none) i ob =
      some ((obs ++ [ob]).map some ++ List.replicate n none) := by
  have hlen : i = (obs.map some).length := by rw [List.length_map, hi]
  unfold putObject
  rw [if_pos (by rw [List.length_append, List.length_replicate]; omega), hlen, List.replicate_succ,
    List.set_append_right _ _ le_rfl, Nat.sub_self, List.set_cons_zero, List.map_append, List.append_assoc]
  rfl

/-- The objects of an item go behind those of the items in front of it. -/
theorem eraseItem_ends {obs : List (κ ⊕ ν)} {pair : κ × ν} {hash : ℕ} (hitem : vtab[i]? = some ⟨hash, some pair⟩)
    (hobs : obs.length = i * objectsPerItem isSet) :
    eraseItem isSet i (vtab, obs.map some ++ List.replicate (n + objectsPerItem isSet) none) =
      some (vtab.set i ⟨hash, none⟩, (obs ++ itemObjects isSet pair).map some ++ List.replicate n none) := by
  unfold eraseItem
  dsimp only
  rw [hitem, some_bind, some_bind]
  cases isSet with
  | true =>
    rw [show n + objectsPerItem true = n + 1 from rfl, putObject_append hobs.symm, some_bind, if_pos rfl, some_bind]
    rfl
  | false =>
    have hobs' : i * objectsPerItem false + 1 = (obs ++ [Sum.inl pair.1]).length := by
      rw [List.length_append, hobs]
      rfl
    rw [show n + objectsPerItem false = n + 1 + 1 from rfl, putObject_append hobs.symm, some_bind,
      if_neg Bool.false_ne_true, putObject_append hobs', some_bind, List.append_assoc]
    rfl

theorem eraseItem_length {s s' : List (DictItem κ ν) × List (Option (κ ⊕ ν))} (hrun : eraseItem isSet i s = some s') :
    s'.2.length = s.2.length := by
  have hput : ∀ {j : ℕ} {ob : κ ⊕ ν} {objv objv' : List (Option (κ ⊕ ν))}, putObject objv j ob = some objv' →
      objv'.length = objv.length := by
    intro j ob objv objv' h
    unfold putObject at h
    split_ifs at h
    cases h
    exact List.length_set
  unfold eraseItem at hrun
  obtain ⟨item, -, hrun⟩ := of_bind hrun
  obtain ⟨pair, -, hrun⟩ := of_bind hrun
  obtain ⟨objv, hkey, hrun⟩ := of_bind hrun
  obtain ⟨objv', hvalue, hrun⟩ := of_bind hrun
  cases hrun
  rw [← hput hkey]
  cases isSet with
  | true =>
    rw [if_pos rfl] at hvalue
    cases hvalue
    rfl
  | false =>
    rw [if_neg Bool.false_ne_true] at hvalue
    exact hput hvalue

/-- An item whose slots are behind the buffer. -/
theorem eraseItem_none {s : List (DictItem κ ν) × List (Option (κ ⊕ ν))} (hlen : s.2.length ≤ i * objectsPerItem isSet) :
    eraseItem isSet i s = none := by
  unfold eraseItem
  cases s.1[i]? with
  | none => rfl
  | some item =>
    rw [some_bind]
    cases item.pair with
    | none => rfl
    | some pair =>
      rw [some_bind, putObject, if_neg (not_lt.mpr hlen)]
      rfl

end Buffer

/-! ### Emptying the items -/

section Erase

variable {dbg isSet : Bool} {start count i n : ℕ} {d self : Dict κ ν} {retries : List (EraseRetry κ ν)}

/-- The items, of which the first `i` have been emptied, and the buffer with their objects. -/
structure Erasing (isSet : Bool) (d : Dict κ ν) (n i : ℕ) (s : List (DictItem κ ν) × List (Option (κ ⊕ ν))) : Prop where
  sound : Dict.Sound ⟨s.1, d.valloc, d.vused - i, d.hmask, d.htab, d.emptyTab⟩
  rest : s.1.drop i = d.vtab.drop i
  pairs : s.1.filterMap DictItem.pair = d.pairs.drop i
  objv : s.2 = ((d.pairs.take i).flatMap (itemObjects isSet)).map some ++
    List.replicate ((n - i) * objectsPerItem isSet) none

theorem Erasing.initial (h : d.Sound) : Erasing isSet d n 0 (d.vtab, List.replicate (n * objectsPerItem isSet) none) :=
  ⟨h, rfl, rfl, rfl⟩

theorem length_flatMap_itemObjects (pairs : List (κ × ν)) :
    (pairs.flatMap (itemObjects isSet)).length = pairs.length * objectsPerItem isSet := by
  induction pairs with
  | nil => rw [List.flatMap_nil, List.length_nil, List.length_nil, Nat.zero_mul]
  | cons pair pairs ih =>
    rw [List.flatMap_cons, List.length_append, length_itemObjects, ih, List.length_cons, Nat.succ_mul, Nat.add_comm]

theorem Erasing.step {s : List (DictItem κ ν) × List (Option (κ ⊕ ν))} (h : d.Sound) (hlive : d.vtab = liveItems d.vtab)
    (hi : i < n) (hn : n ≤ d.vused) (he : Erasing isSet d n i s) :
    Ends (eraseItem isSet i s) (Erasing isSet d n (i + 1)) := by
  have hlt : i < d.pairs.length := by
    rw [length_pairs h]
    omega
  obtain ⟨item, hitem, hpair⟩ := exists_item hlive (List.getElem?_eq_getElem hlt)
  obtain ⟨items, objv⟩ := s
  obtain ⟨hash, pair⟩ := item
  have hrest := he.rest
  dsimp only at hrest hpair
  have hhere : items[i]? = some ⟨hash, pair⟩ := by
    have hcell := congrArg (fun l => l[0]?) hrest
    simp only [List.getElem?_drop, Nat.add_zero] at hcell
    rw [hcell, hitem]
  subst hpair
  have hobs : ((d.pairs.take i).flatMap (itemObjects isSet)).length = i * objectsPerItem isSet := by
    rw [length_flatMap_itemObjects, List.length_take, Nat.min_eq_left hlt.le]
  have hslots : (n - i) * objectsPerItem isSet = (n - (i + 1)) * objectsPerItem isSet + objectsPerItem isSet := by
    rw [← Nat.succ_mul, show (n - (i + 1)).succ = n - i by omega]
  have hobjv := he.objv
  dsimp only at hobjv
  rw [hobjv, hslots, eraseItem_ends hhere hobs]
  refine Ends.pure ⟨?_, ?_, ?_, ?_⟩
  · have hdelete := he.sound.deleteAt hhere rfl
    have hrun : Dict.deleteAt ⟨items, d.valloc, d.vused - i, d.hmask, d.htab, d.emptyTab⟩ i =
        some ⟨items.set i ⟨hash, none⟩, d.valloc, d.vused - i - 1, d.hmask, d.htab, d.emptyTab⟩ := by
      unfold Dict.deleteAt
      dsimp only
      rw [hhere, some_bind]
      rfl
    exact (hdelete.of_eq hrun).1
  · dsimp only
    rw [List.drop_set_of_lt (Nat.lt_add_one i), ← List.drop_drop, hrest, List.drop_drop]
  · -- the pairs of the first items are gone already
    have hfirst : (items.take i).filterMap DictItem.pair = [] := by
      have hall := he.pairs
      dsimp only at hall
      rw [← List.take_append_drop i items, List.filterMap_append, hrest,
        (filterMap_take_drop (live_of_eq hlive)).2] at hall
      exact List.append_left_eq_self.mp hall
    have hdeleted := pairs_set (d := ⟨items, d.valloc, d.vused, d.hmask, d.htab, d.emptyTab⟩) hhere
    dsimp only at hdeleted ⊢
    rw [show (⟨hash, none⟩ : DictItem κ ν) = DictItem.delete ⟨hash, some d.pairs[i]⟩ from rfl, hdeleted, hfirst,
      List.nil_append, ← List.drop_drop, hrest, List.drop_drop]
    exact (filterMap_take_drop (live_of_eq hlive)).2
  · dsimp only
    rw [List.take_succ_eq_append_getElem hlt, List.flatMap_append, List.flatMap_singleton]

/-- The first `n` items are emptied. -/
theorem eraseLoop_ends (h : d.Sound) (hlive : d.vtab = liveItems d.vtab) (hn : n ≤ d.vused) :
    Ends (forLoop (eraseItem isSet) 0 n (d.vtab, List.replicate (n * objectsPerItem isSet) none))
      (Erasing isSet d n n) :=
  forLoop_ends_zero (Erasing isSet d n) (Erasing.initial h) fun _ _ hi he => he.step h hlive hi hn

theorem length_erasedPairs (start count : ℕ) (h : d.Sound) :
    (d.erasedPairs start count).length = min (start + count) d.vused - start := by
  unfold Dict.erasedPairs
  rw [inRange_length, length_pairs h]

/-- The clamped range. -/
theorem eraseDataInit_eq (h : d.Sound) : eraseDataInit d start count =
    some ⟨min start d.vused, min (start + count) d.vused, (d.erasedPairs start count).length⟩ := by
  obtain ⟨k, hk, hpow⟩ := h.hmask
  have hword : 2 ^ k ≤ 2 ^ 64 := Nat.pow_le_pow_right Nat.two_pos hk
  have hvalloc := h.valloc
  have hvsize := h.vsize
  have hused : d.vused ≤ d.vtab.length := by
    rw [h.vused]
    exact List.countP_le_length
  have hend : min (uaddOrMax (min start d.vused) count) d.vused = min (start + count) d.vused := by
    unfold uaddOrMax
    split_ifs with hfits
    · omega
    · omega
  unfold eraseDataInit
  dsimp only
  rw [hend, if_neg (by omega), length_erasedPairs start count h]
  congr 2
  omega

/-- With the first item in front, or nothing to erase, the objects fill the buffer. -/
theorem Dict.Sound.eraseRange (h : d.Sound) (hfront : start = 0 ∨ d.erasedPairs start count = []) :
    Ends (d.eraseRange dbg isSet
        ⟨min start d.vused, min (start + count) d.vused, (d.erasedPairs start count).length⟩) fun r => ∃ erased,
      r = .erased erased ((d.erasedPairs start count).flatMap (itemObjects isSet)) ∧
        erased.pairs = replaceRange start (start + count) d.pairs [] ∧ erased.Verify := by
  have hlen := length_erasedPairs start count h
  have hsize := length_pairs h
  have htake : d.pairs.take (d.erasedPairs start count).length = d.erasedPairs start count := by
    rcases hfront with rfl | hnone
    · unfold Dict.erasedPairs inRange
      rw [List.drop_zero, List.length_take, List.take_eq_take_iff]
      omega
    · rw [hnone]
      rfl
  have hdrop : d.pairs.drop (d.erasedPairs start count).length = replaceRange start (start + count) d.pairs [] := by
    rcases hfront with rfl | hnone
    · rw [replaceRange, List.take_zero, List.nil_append, List.nil_append, hlen, hsize, Nat.zero_max, Nat.sub_zero]
    · rw [replaceRange_nil]
      · rw [hnone]
        rfl
      · have hzero := congrArg List.length hnone
        rw [hlen, List.length_nil] at hzero
        omega
  unfold Dict.eraseRange
  refine Ends.bind h.lockReadAndOptimize ?_
  rintro d1 ⟨h1, hvtab, hused, -⟩
  have hlive : d1.vtab = liveItems d1.vtab := by rw [hvtab, liveItems_liveItems]
  have hpairs : d1.pairs = d.pairs := by
    unfold Dict.pairs
    rw [hvtab, filterMap_pair_liveItems]
  have hcount : (d.erasedPairs start count).length ≤ d1.vused := by omega
  dsimp only
  rw [check_of hcount, some_bind]
  have hloop : Ends (forLoop (eraseItem isSet) (min start d.vused) (min (start + count) d.vused - min start d.vused)
      (d1.vtab, List.replicate ((d.erasedPairs start count).length * objectsPerItem isSet) none))
      (Erasing isSet d1 (d.erasedPairs start count).length (d.erasedPairs start count).length) := by
    rcases hfront with rfl | hnone
    · rw [Nat.zero_min, Nat.sub_zero, show min (0 + count) d.vused = (d.erasedPairs 0 count).length by omega]
      exact eraseLoop_ends h1 hlive hcount
    · have hzero := congrArg List.length hnone
      rw [List.length_nil] at hzero
      rw [show min (start + count) d.vused - min start d.vused = 0 by omega, hzero]
      exact Ends.pure (Erasing.initial h1)
  refine Ends.bind hloop ?_
  rintro ⟨vtab, objv⟩ he
  dsimp only
  refine Ends.bind he.sound.autoshrink ?_
  rintro d2 ⟨h2, hpairs2⟩
  have hobjv := he.objv
  dsimp only at hobjv
  rw [Nat.sub_self, Nat.zero_mul, List.replicate_zero, List.append_nil, hpairs, htake] at hobjv
  rw [hobjv, decrefv_map, some_bind]
  refine Ends.pure ⟨d2, rfl, ?_, h2.toVerify⟩
  rw [hpairs2, ← hdrop, ← hpairs]
  exact he.pairs

/-- With items in front of the range, the objects of its last item go behind the buffer. -/
theorem Dict.Sound.eraseRange_none (h : d.Sound) (hstart : start ≠ 0) (hne : d.erasedPairs start count ≠ []) :
    d.eraseRange dbg isSet
      ⟨min start d.vused, min (start + count) d.vused, (d.erasedPairs start count).length⟩ = none := by
  have hlen := length_erasedPairs start count h
  have hpos := List.length_pos_iff.mpr hne
  obtain ⟨d1, hrun, h1, -, hused, -⟩ := @Dict.Sound.lockReadAndOptimize κ ν dbg d h
  unfold Dict.lockReadAndOptimize at hrun
  unfold Dict.eraseRange
  dsimp only
  rw [hrun, some_bind, check_of (by omega), some_bind]
  rw [forLoop_eq_none (i := start + (d.erasedPairs start count).length - 1)
    (fun s => s.2.length = (d.erasedPairs start count).length * objectsPerItem isSet) List.length_replicate (by omega)
    (by omega) (fun j s s' hs hstep => (eraseItem_length hstep).trans hs) fun s hs => eraseItem_none ?_]
  · rfl
  · rw [hs]
    exact Nat.mul_le_mul_right _ (by omega)

/-- The call comes to the table that is found under the last lock, with the range for this table. -/
theorem dictMhSeqErase_eq (dbg isSet : Bool) (hself : self.Sound)
    (hretries : ∀ retry ∈ retries, retry.relocked.Sound ∧ retry.again.Sound)
    (ht : eraseTable start count retries self = some d) :
    d.Sound ∧ dictMhSeqErase dbg isSet start count retries self = d.eraseRange dbg isSet
      ⟨min start d.vused, min (start + count) d.vused, (d.erasedPairs start count).length⟩ := by
  induction retries generalizing self with
  | nil =>
    cases ht
    refine ⟨hself, ?_⟩
    rw [dictMhSeqErase, eraseDataInit_eq hself]
  | cons retry retries ih =>
    obtain ⟨hrelocked, hagain⟩ := hretries retry List.mem_cons_self
    rw [eraseTable] at ht
    rw [dictMhSeqErase, eraseDataInit_eq hself]
    dsimp only
    split_ifs at ht with hmalloc hcount
    · rw [if_neg hmalloc, eraseDataInit_eq hrelocked]
      dsimp only
      rw [if_pos hcount]
      exact ih hagain (fun other hother => hretries other (List.mem_cons_of_mem _ hother)) ht
    · cases ht
      refine ⟨hrelocked, ?_⟩
      rw [if_neg hmalloc, eraseDataInit_eq hrelocked]
      dsimp only
      rw [if_neg hcount, not_not.mp hcount]

/-- Erasing is exact, and stays inside of the buffer, exactly when the range begins at the first item or is empty. -/
theorem erasesExactly_iff (hself : self.Sound)
    (hretries : ∀ retry ∈ retries, retry.relocked.Sound ∧ retry.again.Sound) :
    ErasesExactly dbg isSet start count retries self ↔ ErasesFront start count retries self := by
  refine forall_congr' fun d => forall_congr' fun ht => ?_
  obtain ⟨hd, hrun⟩ := dictMhSeqErase_eq dbg isSet hself hretries ht
  rw [hrun]
  constructor
  · intro hends
    by_contra hfront
    obtain ⟨hstart, hne⟩ := not_or.mp hfront
    obtain ⟨r, hr, -⟩ := hends
    rw [hd.eraseRange_none hstart hne] at hr
    cases hr
  · intro hfront
    exact hd.eraseRange hfront

end Erase

/-! ### Erasing from three items -/

theorem erasesExactly_iff_threeItems :
    ErasesExactly true false 0 2 [] threeItems ↔ ErasesFront 0 2 [] threeItems :=
  erasesExactly_iff threeItems_sound (List.forall_mem_nil _)

/-- The second of three items: its key would go to the third slot of a buffer with two. -/
theorem erasesExactly_fails : ¬ErasesExactly true false 1 1 [] threeItems := by
  intro hexact
  obtain ⟨r, hrun, -⟩ := hexact threeItems rfl
  have hnone : dictMhSeqErase true false 1 1 [] threeItems = none := by rfl
  rw [hnone] at hrun
  cases hrun

end Deemon.Collections
