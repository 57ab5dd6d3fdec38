import Deemon.Collections.Dict
import Deemon.Collections.RemoveFirst

/-!
# Removing the items of a dict that a predicate picks

`dict_mh_seq_removeif` walks over the positions `start ≤ i < end`. After a removal it shrinks and optimizes the table,
so that the item behind the removed one moves to its position, and goes on at the next position.
-/

namespace Deemon.Collections

open Deemon.Run

variable {κ ν : Type}

/-! ### The code -/

/-- The local variables of the loop, and the pairs that `should` has been called with. With `locked` the loop goes on at
`again_index_start`, else at its head. -/
structure RemoveIf (κ ν : Type) where
  locked : Bool
  start : ℕ
  stop : ℕ
  result : ℕ
  self : Dict κ ν
  offered : List (κ × ν)

/-- The removal of the item at an index. -/
def Dict.removeItem (dbg : Bool) (d : Dict κ ν) (start : ℕ) : Option (Dict κ ν) := do
  let d ← d.deleteAt start
  let d ← d.autoshrink dbg
  let d ← d.optimizeVtab dbg
  check dbg (d.vused = d.vtab.length)
  some d

/-- The rest of a round from `again_index_start`. Nothing else changes the dict, so that the item is still there when
`should` has returned. -/
def againIndexStart (dbg : Bool) (should : κ × ν → Bool) (max : ℕ) (s : RemoveIf κ ν) :
    Option (Step (RemoveIf κ ν) (RemoveIf κ ν)) :=
  let stop := min s.stop s.self.vused
  if s.self.vused < s.stop ∧ stop ≤ s.start then some (.done { s with stop := stop })
  else do
    let item ← s.self.vtab[s.start]?
    let pair ← item.pair
    let offered := s.offered ++ [pair]
    if !should pair then some (.next ⟨false, s.start + 1, stop, s.result, s.self, offered⟩)
    else do
      let self ← s.self.lockReadAndOptimize dbg
      let self ← self.removeItem dbg s.start
      let s : RemoveIf κ ν := ⟨true, s.start + 1, stop, s.result + 1, self, offered⟩
      some (if s.stop ≤ s.start ∨ max ≤ s.result then .done s else .next s)

/-- One round of the loop, from its head or from `again_index_start`. -/
def removeIfRound (dbg : Bool) (should : κ × ν → Bool) (max : ℕ) (s : RemoveIf κ ν) :
    Option (Step (RemoveIf κ ν) (RemoveIf κ ν)) :=
  if s.locked then againIndexStart dbg should max s
  else if s.start < s.stop ∧ s.result < max then do
    let self ← s.self.lockReadAndOptimize dbg
    againIndexStart dbg should max { s with self := self }
  else some (.done s)

/-- `dict_mh_seq_removeif`. -/
def dictMhSeqRemoveIf (dbg : Bool) (self : Dict κ ν) (should : κ × ν → Bool) (start stop max : ℕ) :
    Option (RemoveIf κ ν) :=
  loop (removeIfRound dbg should max) (self.vtab.length + 2) ⟨false, start, stop, 0, self, []⟩

/-! ### What it is for -/

/-- The call removes the first `max` pairs in the range that `should` picks and no others, counts them, and offers every
pair in the range to `should` until the count is reached. -/
def RemovesExactly (dbg : Bool) (self : Dict κ ν) (should : κ × ν → Bool) (start stop max : ℕ) : Prop :=
  Ends (dictMhSeqRemoveIf dbg self should start stop max) fun r =>
    r.self.pairs = replaceRange start stop self.pairs (removeFirst should max (inRange start stop self.pairs)) ∧
    r.result = min max ((inRange start stop self.pairs).countP should) ∧
    r.offered = (inRange start stop self.pairs).take (comparisons should max (inRange start stop self.pairs))

/-- A removal neither shrinks the table (with assertions) nor leaves it empty (without). -/
def KeepsTable (dbg : Bool) (self : Dict κ ν) : Prop :=
  if dbg then self.valloc ≤ 2 * (self.vused - 1) else self.vused ≠ 1

/-- Nothing is removed, or one item that the loop stops behind. -/
def RemovesAtMostOne (dbg : Bool) (self : Dict κ ν) (should : κ × ν → Bool) (start stop max : ℕ) : Prop :=
  max = 0 ∨ (∀ x ∈ inRange start stop self.pairs, should x = false) ∨
    KeepsTable dbg self ∧ (max = 1 ∨ ∀ x ∈ (inRange start stop self.pairs).dropLast, should x = false)

/-! ### Optimized tables -/

section Live

variable {dbg : Bool} {vtab : List (DictItem κ ν)} {d r : Dict κ ν} {q i : ℕ} {item : DictItem κ ν} {pair : κ × ν}

theorem length_pairs (h : d.Sound) : d.pairs.length = d.vused := by
  rw [h.vused]
  unfold Dict.pairs
  induction d.vtab with
  | nil => rfl
  | cons item vtab ih =>
    obtain ⟨hash, pair⟩ := item
    cases pair with
    | none =>
      rw [List.filterMap_cons_none rfl, ih, List.countP_cons_of_neg]
      exact Bool.false_ne_true
    | some pair =>
      rw [List.filterMap_cons_some (show DictItem.pair ⟨hash, some pair⟩ = some pair from rfl), List.length_cons, ih,
          List.countP_cons_of_pos]
      rfl

/-- Without deleted items the pairs are at the indices of their items. -/
theorem pairs_getElem? (hlive : ∀ item ∈ vtab, item.deleted = false) :
    (vtab.filterMap DictItem.pair)[i]? = vtab[i]?.bind DictItem.pair := by
  induction vtab generalizing i with
  | nil => rfl
  | cons item vtab ih =>
    have hitem := hlive item List.mem_cons_self
    obtain ⟨hash, pair⟩ := item
    cases pair with
    | none => cases hitem
    | some pair =>
      rw [List.filterMap_cons_some (show DictItem.pair ⟨hash, some pair⟩ = some pair from rfl)]
      cases i with
      | zero => rfl
      | succ i => exact ih fun item hmem => hlive item (List.mem_cons_of_mem _ hmem)

theorem live_of_eq (h : vtab = liveItems vtab) : ∀ item ∈ vtab, item.deleted = false := by
  intro item hitem
  rw [h] at hitem
  simpa using (List.mem_filter.mp hitem).2

/-- The item of a pair. -/
theorem exists_item (hlive : d.vtab = liveItems d.vtab) (hpair : d.pairs[i]? = some pair) :
    ∃ item, d.vtab[i]? = some item ∧ item.pair = some pair := by
  unfold Dict.pairs at hpair
  rw [pairs_getElem? (live_of_eq hlive)] at hpair
  exact of_bind hpair

theorem filterMap_take_drop (hlive : ∀ item ∈ vtab, item.deleted = false) :
    (vtab.take q).filterMap DictItem.pair = (vtab.filterMap DictItem.pair).take q ∧
      (vtab.drop q).filterMap DictItem.pair = (vtab.filterMap DictItem.pair).drop q := by
  induction vtab generalizing q with
  | nil => simp
  | cons item vtab ih =>
    have hitem := hlive item List.mem_cons_self
    obtain ⟨hash, pair⟩ := item
    cases pair with
    | none => cases hitem
    | some pair =>
      rw [List.filterMap_cons_some (show DictItem.pair ⟨hash, some pair⟩ = some pair from rfl)]
      cases q with
      | zero => exact ⟨rfl, List.filterMap_cons_some rfl⟩
      | succ q =>
        obtain ⟨htake, hdrop⟩ := @ih q fun item hmem => hlive item (List.mem_cons_of_mem _ hmem)
        refine ⟨?_, hdrop⟩
        rw [List.take_succ_cons, List.take_succ_cons,
          List.filterMap_cons_some (show DictItem.pair ⟨hash, some pair⟩ = some pair from rfl), htake]

/-- The pairs of a table after the deletion of an item. -/
theorem pairs_deleted (hlive : d.vtab = liveItems d.vtab) (hitem : d.vtab[q]? = some item)
    (hr : r.vtab = liveItems (d.vtab.set q item.delete)) : r.pairs = d.pairs.take q ++ d.pairs.drop (q + 1) := by
  unfold Dict.pairs
  rw [hr, filterMap_pair_liveItems, pairs_set hitem, (filterMap_take_drop (live_of_eq hlive)).1,
    (filterMap_take_drop (live_of_eq hlive)).2]

theorem length_of_live (h : d.Sound) (hlive : d.vtab = liveItems d.vtab) : d.vtab.length = d.vused := by
  rw [h.vused, hlive, length_liveItems, ← hlive]

theorem shouldShrink_iff : d.ShouldShrinkVtab ↔ 2 * d.vused < d.valloc := by
  unfold Dict.ShouldShrinkVtab
  rw [Nat.shiftLeft_eq, pow_one, Nat.mul_comm]

/-- The removal of an item that neither shrinks the table nor leaves it empty. -/
theorem Dict.Sound.removeItem (h : d.Sound) (hlive : d.vtab = liveItems d.vtab) (hitem : d.vtab[q]? = some item)
    (hkeeps : KeepsTable dbg d) : Ends (d.removeItem dbg q) fun r => r.Sound ∧ r.vtab = liveItems r.vtab ∧
      r.pairs = d.pairs.take q ++ d.pairs.drop (q + 1) ∧ r.vused + 1 = d.vused := by
  have hdel := live_of_eq hlive item (List.mem_of_getElem? hitem)
  unfold Dict.removeItem
  refine Ends.bind (h.deleteAt hitem hdel) ?_
  rintro d1 ⟨h1, hopt1, hused1, hvalloc1, hvtab1⟩
  -- both ways lead to an optimized table
  refine Ends.bind (P := fun d2 => d2.Sound ∧ liveItems d2.vtab = liveItems d1.vtab ∧ d2.vused = d1.vused ∧
    check dbg d2.CanOptimizeVtab = some () ∧ d2.vused < d2.valloc) ?_ ?_
  · unfold Dict.autoshrink
    by_cases hshrink : d1.ShouldShrinkVtab
    · rw [if_pos hshrink]
      have hlt := shouldShrink_iff.mp hshrink
      cases dbg with
      | true =>
        have hle : d.valloc ≤ 2 * (d.vused - 1) := hkeeps
        omega
      | false =>
        have hne : d.vused ≠ 1 := hkeeps
        refine (h1.shrink hshrink (by omega)).mono ?_
        rintro d2 ⟨h2, hvtab2, hused2, hvalloc2⟩
        exact ⟨h2, by rw [hvtab2, liveItems_liveItems], hused2, rfl, by omega⟩
    · rw [if_neg hshrink]
      exact Ends.pure ⟨h1, rfl, rfl, check_of hopt1, lt_of_lt_of_le hopt1 h1.vsize⟩
  · rintro d2 ⟨h2, hvtab2, hused2, hcheck2, hroom2⟩
    refine Ends.bind (h2.optimize_of_room hcheck2 hroom2) ?_
    rintro r ⟨hr, hvtab, hused, -⟩
    have hrlive : r.vtab = liveItems r.vtab := by rw [hvtab, liveItems_liveItems]
    rw [check_of (length_of_live hr hrlive).symm, some_bind]
    refine Ends.pure ⟨hr, hrlive, pairs_deleted hlive hitem ?_, by omega⟩
    rw [hvtab, hvtab2, hvtab1]

/-- The removal of an item that shrinks the table (with assertions) or leaves it empty (without). -/
theorem Dict.Sound.removeItem_none (h : d.Sound) (hlive : d.vtab = liveItems d.vtab) (hitem : d.vtab[q]? = some item)
    (hkeeps : ¬KeepsTable dbg d) : d.removeItem dbg q = none := by
  have hdel := live_of_eq hlive item (List.mem_of_getElem? hitem)
  obtain ⟨d1, hdelete, h1, hopt1, hused1, hvalloc1, -⟩ := h.deleteAt hitem hdel
  have hsize1 := h1.vsize
  have hopt1' : d1.vused < d1.vtab.length := hopt1
  have hshrink : d1.ShouldShrinkVtab := by
    refine shouldShrink_iff.mpr ?_
    cases dbg with
    | true =>
      have hlt : ¬d.valloc ≤ 2 * (d.vused - 1) := hkeeps
      omega
    | false =>
      have hone : ¬d.vused ≠ 1 := hkeeps
      omega
  unfold Dict.removeItem Dict.autoshrink
  rw [hdelete, some_bind, if_pos hshrink]
  by_cases hused : d1.vused = 0
  · -- the last item is gone: the tables are the constant ones now
    unfold Dict.shrinkVtabAndHtab
    rw [check_of (show d1.vused < d1.valloc by omega), some_bind, check_of (Or.inl hshrink), some_bind, if_pos hused,
      some_bind]
    cases dbg <;> rfl
  · have htrue : dbg = true := by
      cases dbg with
      | true => rfl
      | false =>
        have hone : ¬d.vused ≠ 1 := hkeeps
        omega
    subst htrue
    obtain ⟨d2, hrun2, h2, hvtab2, hused2, -⟩ := @Dict.Sound.shrink κ ν true d1 h1 hshrink hused
    have hlen2 := length_of_live h2 (by rw [hvtab2, liveItems_liveItems])
    have hnot : ¬d2.CanOptimizeVtab := by
      unfold Dict.CanOptimizeVtab
      omega
    rw [hrun2, some_bind, Dict.optimizeVtab, check, if_pos rfl, assert, if_neg hnot]
    rfl

end Live

/-! ### The rounds -/

section Rounds

variable {dbg : Bool} {should : κ × ν → Bool} {max : ℕ} {s : RemoveIf κ ν} {d : Dict κ ν} {pair : κ × ν}

theorem lockReadAndOptimize_of_live (h : d.Sound) (hlive : d.vtab = liveItems d.vtab) :
    d.lockReadAndOptimize dbg = some d := by
  refine if_neg ?_
  show ¬d.vused < d.vtab.length
  rw [length_of_live h hlive]
  exact lt_irrefl _

/-- The range ends in front of the index. -/
theorem again_end (hlt : s.start < s.stop) (hend : min s.stop s.self.vused ≤ s.start) :
    againIndexStart dbg should max s = some (.done { s with stop := min s.stop s.self.vused }) := by
  have hused : s.self.vused < s.stop := by omega
  exact if_pos ⟨hused, hend⟩

/-- The item at the index stays. -/
theorem again_miss (hlive : s.self.vtab = liveItems s.self.vtab) (hlt : s.start < min s.stop s.self.vused)
    (hpair : s.self.pairs[s.start]? = some pair) (hno : should pair = false) :
    againIndexStart dbg should max s =
      some (.next ⟨false, s.start + 1, min s.stop s.self.vused, s.result, s.self, s.offered ++ [pair]⟩) := by
  obtain ⟨item, hitem, hget⟩ := exists_item hlive hpair
  unfold againIndexStart
  dsimp only
  rw [if_neg (by omega), hitem, some_bind, hget, some_bind, hno]
  rfl

/-- The item at the index is removed. -/
theorem again_hit (h : s.self.Sound) (hlive : s.self.vtab = liveItems s.self.vtab)
    (hlt : s.start < min s.stop s.self.vused) (hpair : s.self.pairs[s.start]? = some pair) (hyes : should pair = true) :
    againIndexStart dbg should max s = (do
      let self ← s.self.removeItem dbg s.start
      let s : RemoveIf κ ν :=
        ⟨true, s.start + 1, min s.stop s.self.vused, s.result + 1, self, s.offered ++ [pair]⟩
      some (if s.stop ≤ s.start ∨ max ≤ s.result then .done s else .next s)) := by
  obtain ⟨item, hitem, hget⟩ := exists_item hlive hpair
  unfold againIndexStart
  dsimp only
  rw [if_neg (by omega), hitem, some_bind, hget, some_bind, hyes, lockReadAndOptimize_of_live h hlive]
  rfl

/-- Rounds that end at `again_index_start` with nothing to offer, or offer the item at the index. -/
theorem again_offered {step : Step (RemoveIf κ ν) (RemoveIf κ ν)} (hrun : againIndexStart dbg should max s = some step) :
    (∃ r, step = .done r ∧ r.offered = s.offered) ∨
      ∃ item pair r, s.self.vtab[s.start]? = some item ∧ item.pair = some pair ∧
        (step = .done r ∨ step = .next r) ∧ r.offered = s.offered ++ [pair] := by
  unfold againIndexStart at hrun
  dsimp only at hrun
  split at hrun
  · cases hrun
    exact .inl ⟨_, rfl, rfl⟩
  · obtain ⟨item, hitem, hrun⟩ := of_bind hrun
    obtain ⟨pair, hpair, hrun⟩ := of_bind hrun
    refine .inr ⟨item, pair, ?_⟩
    split at hrun
    · cases hrun
      exact ⟨_, hitem, hpair, .inr rfl, rfl⟩
    · obtain ⟨self, -, hrun⟩ := of_bind hrun
      obtain ⟨self', -, hrun⟩ := of_bind hrun
      cases hrun
      split
      · exact ⟨_, hitem, hpair, .inl rfl, rfl⟩
      · exact ⟨_, hitem, hpair, .inr rfl, rfl⟩

/-- Every round but one that goes nowhere passes `again_index_start`. -/
theorem round_again {step : Step (RemoveIf κ ν) (RemoveIf κ ν)} (hrun : removeIfRound dbg should max s = some step) :
    (s.locked = false ∧ step = .done s) ∨ ∃ self, (s.locked = true → self = s.self) ∧
      againIndexStart dbg should max { s with self := self } = some step := by
  unfold removeIfRound at hrun
  split_ifs at hrun with hlocked hgo
  · exact .inr ⟨s.self, fun _ => rfl, hrun⟩
  · obtain ⟨self, -, hrun⟩ := of_bind hrun
    exact .inr ⟨self, fun hcontra => absurd hcontra hlocked, hrun⟩
  · cases hrun
    exact .inl ⟨Bool.not_eq_true _ ▸ hlocked, rfl⟩

/-- The calls of `should` only get more, and under the lock the next one is with the item at the index. -/
theorem loop_offered {fuel : ℕ} {r : RemoveIf κ ν} (hrun : loop (removeIfRound dbg should max) fuel s = some r) :
    ∃ t, r.offered = s.offered ++ t ∧ (s.locked = true → ∀ pair ∈ t.head?,
      ∃ item, s.self.vtab[s.start]? = some item ∧ item.pair = some pair) := by
  induction fuel generalizing s with
  | zero => cases hrun
  | succ fuel ih =>
    -- what comes after a round that made a call
    have hmore : ∀ r', (removeIfRound dbg should max s = some (.done r') ∨
        removeIfRound dbg should max s = some (.next r')) → ∃ t, r.offered = r'.offered ++ t := by
      intro r' hr'
      rcases loop_eq_some hrun with hdone | ⟨s', hnext, hrest⟩
      · rw [hdone] at hr'
        rcases hr' with h | h <;> cases h
        exact ⟨[], (List.append_nil _).symm⟩
      · rw [hnext] at hr'
        rcases hr' with h | h <;> cases h
        obtain ⟨t, ht, -⟩ := ih hrest
        exact ⟨t, ht⟩
    cases hstep : removeIfRound dbg should max s with
    | none =>
      rw [loop, hstep] at hrun
      cases hrun
    | some step =>
      rcases round_again hstep with ⟨-, rfl⟩ | ⟨self, hself, hagain⟩
      · rw [loop_done hstep] at hrun
        cases hrun
        exact ⟨[], (List.append_nil _).symm, fun _ pair hmem => absurd hmem (Option.not_mem_none pair)⟩
      · rcases again_offered hagain with ⟨r', rfl, hr'⟩ | ⟨item, pair, r', hitem, hpair, hend, hr'⟩
        · rw [loop_done hstep] at hrun
          cases hrun
          exact ⟨[], by rw [hr', List.append_nil], fun _ pair hmem => absurd hmem (Option.not_mem_none pair)⟩
        · have hround : removeIfRound dbg should max s = some (.done r') ∨
              removeIfRound dbg should max s = some (.next r') := by
            rcases hend with rfl | rfl
            · exact .inl hstep
            · exact .inr hstep
          obtain ⟨t, ht⟩ := hmore r' hround
          refine ⟨pair :: t, by rw [ht, hr', List.append_assoc, List.singleton_append], ?_⟩
          rintro hlocked _ ⟨⟩
          rw [hself hlocked] at hitem
          exact ⟨item, hitem, hpair⟩

end Rounds

/-! ### The walk -/

section Walk

variable {dbg : Bool} {should : κ × ν → Bool} {start stop max : ℕ} {s : RemoveIf κ ν} {d : Dict κ ν} {m : κ × ν}
  {A B P R : List (κ × ν)}

/-- The loop is at its head, and nothing has been removed. -/
structure Walking (d : Dict κ ν) (s : RemoveIf κ ν) : Prop where
  unlocked : s.locked = false
  sound : s.self.Sound
  pairs : s.self.pairs = d.pairs
  vused : s.self.vused = d.vused
  valloc : s.self.valloc = d.valloc

variable (dbg should) in
/-- The way from the head to `again_index_start`. -/
theorem Walking.enter (h : Walking d s) (hlt : s.start < s.stop) (hmax : s.result < max) :
    ∃ self, self.Sound ∧ self.vtab = liveItems self.vtab ∧ Walking d { s with self := self } ∧
      removeIfRound dbg should max s = againIndexStart dbg should max { s with self := self } := by
  obtain ⟨self, hrun, hsound, hvtab, hused, hvalloc⟩ := @Dict.Sound.lockReadAndOptimize κ ν dbg s.self h.sound
  have hpairs : self.pairs = s.self.pairs := by
    unfold Dict.pairs
    rw [hvtab, filterMap_pair_liveItems]
  refine ⟨self, hsound, by rw [hvtab, liveItems_liveItems],
    ⟨h.unlocked, hsound, hpairs.trans h.pairs, hused.trans h.vused, hvalloc.trans h.valloc⟩, ?_⟩
  unfold removeIfRound
  rw [h.unlocked, if_neg Bool.false_ne_true, if_pos ⟨hlt, hmax⟩, hrun, some_bind, ← h.unlocked]

variable (dbg) in
/-- The rounds over items that `should` does not pick. -/
theorem Walking.scan (h : Walking d s) (hmax : s.result < max) (hA : ∀ a ∈ A, should a = false)
    (hsplit : d.pairs.drop s.start = A ++ R) (hstop : s.start + A.length ≤ min s.stop d.vused) :
    ∃ s', Walking d s' ∧ s'.start = s.start + A.length ∧ min s'.stop d.vused = min s.stop d.vused ∧
      s'.result = s.result ∧ s'.offered = s.offered ++ A ∧
      ∀ fuel, loop (removeIfRound dbg should max) (fuel + A.length) s = loop (removeIfRound dbg should max) fuel s' := by
  induction A generalizing s with
  | nil => exact ⟨s, h, rfl, rfl, rfl, (List.append_nil _).symm, fun _ => rfl⟩
  | cons a A ih =>
    rw [List.length_cons] at hstop
    have hlt : s.start < min s.stop d.vused := by omega
    obtain ⟨self, -, hlive, hself, hround⟩ := h.enter dbg should (by omega) hmax
    have hpair : self.pairs[s.start]? = some a := by
      have hget := @List.getElem?_drop _ d.pairs s.start 0
      rw [hsplit, Nat.add_zero] at hget
      exact (congrArg (fun l : List (κ × ν) => l[s.start]?) hself.pairs).trans hget.symm
    have hmiss : againIndexStart dbg should max { s with self := self } = _ :=
      again_miss hlive (hself.vused.symm ▸ hlt) hpair (hA a List.mem_cons_self)
    dsimp only at hmiss
    obtain ⟨s', hs', hstart, hstop', hresult, hoffered, hloop⟩ := @ih
      ⟨false, s.start + 1, min s.stop self.vused, s.result, self, s.offered ++ [a]⟩
      ⟨rfl, hself.sound, hself.pairs, hself.vused, hself.valloc⟩ hmax (fun x hx => hA x (List.mem_cons_of_mem _ hx))
      (by rw [← List.drop_drop, hsplit]; rfl) (by have := hself.vused; dsimp only at this ⊢; omega)
    refine ⟨s', hs', ?_, ?_, hresult, ?_, fun fuel => ?_⟩
    · rw [hstart, List.length_cons]
      dsimp only
      omega
    · have := hself.vused
      dsimp only at this hstop'
      omega
    · rw [hoffered, List.append_assoc]
      rfl
    · rw [List.length_cons, ← Nat.add_assoc, loop_next (hround.trans hmiss), hloop]

variable (dbg should max) in
/-- The loop ends behind the range. -/
theorem Walking.finish (h : Walking d s) (hend : min s.stop d.vused ≤ s.start) :
    Ends (removeIfRound dbg should max s) fun step => ∃ r, step = .done r ∧ r.self.pairs = d.pairs ∧
      r.result = s.result ∧ r.offered = s.offered := by
  by_cases hgo : s.start < s.stop ∧ s.result < max
  · obtain ⟨self, -, -, hself, hround⟩ := h.enter dbg should hgo.1 hgo.2
    rw [hround, again_end (s := { s with self := self }) hgo.1 (hself.vused.symm ▸ hend)]
    exact Ends.pure ⟨_, rfl, hself.pairs, rfl, rfl⟩
  · unfold removeIfRound
    rw [h.unlocked, if_neg Bool.false_ne_true, if_neg hgo]
    exact Ends.pure ⟨s, rfl, h.pairs, rfl, rfl⟩

variable (dbg) in
/-- The start of the call, up to the first item that might be picked. -/
theorem scanned (h : d.Sound) (hmax : 0 < max) (hseg : inRange start stop d.pairs = A ++ B)
    (hA : ∀ a ∈ A, should a = false) :
    ∃ s' fuel, Walking d s' ∧ s'.start = start + A.length ∧ min s'.stop d.vused = min stop d.vused ∧ s'.result = 0 ∧
      s'.offered = A ∧ dictMhSeqRemoveIf dbg d should start stop max =
        loop (removeIfRound dbg should max) (fuel + 1) s' := by
  have hwalk : Walking d ⟨false, start, stop, 0, d, []⟩ := ⟨rfl, h, rfl, rfl, rfl⟩
  have hlen := length_pairs h
  have hrange := congrArg List.length hseg
  rw [inRange_length, hlen, List.length_append] at hrange
  have hle : d.vused ≤ d.vtab.length := by
    rw [h.vused]
    exact List.countP_le_length
  rcases Nat.lt_or_ge start (min stop d.vused) with hlt | hge
  · have hsplit := inRange_split (hlen.symm ▸ hlt : start < min stop d.pairs.length)
    have hdrop : d.pairs.drop start = A ++ (B ++ d.pairs.drop (min stop d.pairs.length)) := by
      conv_lhs => rw [hsplit.eq, hseg, List.append_assoc]
      exact List.drop_left' hsplit.length
    obtain ⟨s', hs', hstart, hstop, hresult, hoffered, hloop⟩ :=
      hwalk.scan dbg hmax hA hdrop (by dsimp only; omega)
    refine ⟨s', d.vtab.length + 1 - A.length, hs', hstart, hstop, hresult, hoffered, ?_⟩
    rw [← hloop]
    unfold dictMhSeqRemoveIf
    congr 1
    omega
  · have hnil : A = [] := List.length_eq_zero_iff.mp (by omega)
    subst hnil
    exact ⟨_, d.vtab.length + 1, hwalk, rfl, rfl, rfl, rfl, rfl⟩

/-- The call picks nothing. -/
theorem removesExactly_of_none (h : d.Sound) (hmax : 0 < max)
    (hnone : ∀ x ∈ inRange start stop d.pairs, should x = false) : RemovesExactly dbg d should start stop max := by
  obtain ⟨s, fuel, hs, hstart, hstop, hresult, hoffered, hrun⟩ :=
    scanned dbg h hmax (List.append_nil (inRange start stop d.pairs)).symm hnone
  have hend : min s.stop d.vused ≤ s.start := by
    have hrange := @inRange_length _ start stop d.pairs
    rw [length_pairs h] at hrange
    omega
  obtain ⟨_, hround, r, rfl, hpairs, hcount, hcalls⟩ := hs.finish dbg should max hend
  obtain ⟨max, rfl⟩ := Nat.exists_eq_succ_of_ne_zero hmax.ne'
  unfold RemovesExactly
  rw [hrun, loop_done hround]
  refine Ends.pure ⟨?_, ?_, ?_⟩
  · rw [hpairs, removeFirst_none hnone, replaceRange_inRange]
  · rw [hcount, hresult, countP_none hnone, Nat.min_zero]
  · rw [hcalls, hoffered, comparisons_none hnone, List.take_length]

variable (max) in
/-- The round that picks an item. -/
theorem Walking.hit (h : Walking d s) (hlt : s.start < min s.stop d.vused) (hmax : s.result < max)
    (hpair : d.pairs[s.start]? = some m) (hyes : should m = true) (hkeeps : KeepsTable dbg d) :
    ∃ r : RemoveIf κ ν, r.locked = true ∧ r.start = s.start + 1 ∧ r.stop = min s.stop d.vused ∧
      r.result = s.result + 1 ∧ r.offered = s.offered ++ [m] ∧ r.self.vtab = liveItems r.self.vtab ∧
      r.self.pairs = d.pairs.take s.start ++ d.pairs.drop (s.start + 1) ∧
      removeIfRound dbg should max s = some (if r.stop ≤ r.start ∨ max ≤ r.result then .done r else .next r) := by
  obtain ⟨self, hsound, hlive, hself, hround⟩ := h.enter dbg should (by omega) hmax
  have hpairs : self.pairs = d.pairs := hself.pairs
  have hused : self.vused = d.vused := hself.vused
  have hvalloc : self.valloc = d.valloc := hself.valloc
  have hagain : againIndexStart dbg should max { s with self := self } = _ :=
    again_hit hsound hlive (hused.symm ▸ hlt) (hpairs.symm ▸ hpair) hyes
  obtain ⟨item, hitem, -⟩ := exists_item hlive (hpairs.symm ▸ hpair)
  have hkeeps' : KeepsTable dbg self := by
    unfold KeepsTable
    rw [hused, hvalloc]
    exact hkeeps
  obtain ⟨d', hremove, -, hlive', hpairs', -⟩ := hsound.removeItem hlive hitem hkeeps'
  dsimp only at hagain
  rw [hremove, some_bind, hused] at hagain
  rw [hpairs] at hpairs'
  exact ⟨⟨true, s.start + 1, min s.stop d.vused, s.result + 1, d', s.offered ++ [m]⟩, rfl, rfl, rfl, rfl, rfl, hlive',
    hpairs', hround.trans hagain⟩

/-- The round that breaks an assertion, or writes to the constant tables. -/
theorem Walking.hit_none (h : Walking d s) (hlt : s.start < min s.stop d.vused) (hmax : s.result < max)
    (hpair : d.pairs[s.start]? = some m) (hyes : should m = true) (hkeeps : ¬KeepsTable dbg d) :
    removeIfRound dbg should max s = none := by
  obtain ⟨self, hsound, hlive, hself, hround⟩ := h.enter dbg should (by omega) hmax
  have hpairs : self.pairs = d.pairs := hself.pairs
  have hused : self.vused = d.vused := hself.vused
  have hvalloc : self.valloc = d.valloc := hself.valloc
  have hagain : againIndexStart dbg should max { s with self := self } = _ :=
    again_hit hsound hlive (hused.symm ▸ hlt) (hpairs.symm ▸ hpair) hyes
  obtain ⟨item, hitem, -⟩ := exists_item hlive (hpairs.symm ▸ hpair)
  have hkeeps' : ¬KeepsTable dbg self := by
    unfold KeepsTable
    rw [hused, hvalloc]
    exact hkeeps
  dsimp only at hagain
  rw [hround, hagain, hsound.removeItem_none hlive hitem hkeeps']
  rfl

end Walk

/-! ### When the right items are removed -/

section Removes

variable {dbg : Bool} {should : κ × ν → Bool} {start stop max : ℕ} {d : Dict κ ν} {m : κ × ν} {A B : List (κ × ν)}

variable (dbg) in
/-- The call reaches its first removal. -/
theorem reached (h : d.Sound) (hmax : 0 < max) (hseg : inRange start stop d.pairs = A ++ m :: B)
    (hA : ∀ a ∈ A, should a = false) : ∃ s fuel, Walking d s ∧ s.start = start + A.length ∧ s.result = 0 ∧
      s.offered = A ∧ min s.stop d.vused = s.start + 1 + B.length ∧ d.pairs[s.start]? = some m ∧
      dictMhSeqRemoveIf dbg d should start stop max = loop (removeIfRound dbg should max) (fuel + 1) s := by
  obtain ⟨s, fuel, hs, hstart, hstop, hresult, hoffered, hrun⟩ := scanned dbg h hmax hseg hA
  have hrange := congrArg List.length hseg
  rw [inRange_length, length_pairs h, List.length_append, List.length_cons] at hrange
  refine ⟨s, fuel, hs, hstart, hresult, hoffered, by omega, ?_, hrun⟩
  rw [hstart, ← @inRange_getElem? _ start stop _ _ (by omega), hseg, List.getElem?_append_right le_rfl, Nat.sub_self]
  rfl

theorem pairs_removed (hlt : start < min stop d.pairs.length) (hseg : inRange start stop d.pairs = A ++ m :: B) :
    d.pairs.take (start + A.length) ++ d.pairs.drop (start + A.length + 1) =
      replaceRange start stop d.pairs (A ++ B) := by
  have hsplit := inRange_split hlt
  have hall : d.pairs = (d.pairs.take start ++ A) ++ m :: (B ++ d.pairs.drop (min stop d.pairs.length)) := by
    conv_lhs => rw [hsplit.eq, hseg]
    simp only [List.append_assoc, List.cons_append]
  have hlen : (d.pairs.take start ++ A).length = start + A.length := by rw [List.length_append, hsplit.length]
  have htake : d.pairs.take (start + A.length) = d.pairs.take start ++ A := by
    conv_lhs => rw [hall]
    exact List.take_left' hlen
  have hdrop : d.pairs.drop (start + A.length + 1) = B ++ d.pairs.drop (min stop d.pairs.length) := by
    conv_lhs => rw [hall, ← hlen, ← List.drop_drop, List.drop_left]
    rfl
  rw [htake, hdrop, replaceRange_split hlt, List.append_assoc, List.append_assoc]

/-- The call that ends behind its first removal. -/
theorem removesExactly_of_last (h : d.Sound) (hmax : 0 < max) (hseg : inRange start stop d.pairs = A ++ m :: B)
    (hA : ∀ a ∈ A, should a = false) (hm : should m = true) (hkeeps : KeepsTable dbg d) (hlast : max = 1 ∨ B = []) :
    RemovesExactly dbg d should start stop max := by
  obtain ⟨s, fuel, hs, hstart, hresult, hoffered, hstop, hpair, hrun⟩ := reached dbg h hmax hseg hA
  obtain ⟨r, -, hrstart, hrstop, hrresult, hroffered, -, hrpairs, hround⟩ := hs.hit max (by omega) (by omega) hpair hm hkeeps
  have hend : r.stop ≤ r.start ∨ max ≤ r.result := by
    rcases hlast with rfl | rfl
    · exact .inr (by omega)
    · rw [List.length_nil] at hstop
      exact .inl (by omega)
  rw [if_pos hend] at hround
  obtain ⟨max, rfl⟩ := Nat.exists_eq_succ_of_ne_zero hmax.ne'
  have hlt : start < min stop d.pairs.length := by
    have hrange := congrArg List.length hseg
    rw [inRange_length, List.length_append, List.length_cons] at hrange
    omega
  -- nothing more is removed, and nothing more is compared
  have hrest : removeFirst should max B = B ∧ comparisons should max B = 0 ∧ min (max + 1) (1 + B.countP should) = 1 := by
    rcases hlast with hone | rfl
    · obtain rfl : max = 0 := by omega
      exact ⟨by rw [removeFirst], by rw [comparisons], by omega⟩
    · refine ⟨removeFirst_nil, ?_, ?_⟩
      · cases max <;> rfl
      · rw [List.countP_nil]
        omega
  unfold RemovesExactly
  rw [hrun, loop_done hround, hseg]
  refine Ends.pure ⟨?_, ?_, ?_⟩
  · rw [removeFirst_match hA hm, hrest.1, hrpairs, hstart, pairs_removed hlt hseg]
  · rw [List.countP_append, countP_none hA, List.countP_cons_of_pos hm, Nat.zero_add, Nat.add_comm _ 1, hrest.2.2,
      hrresult, hresult]
  · rw [comparisons_match hA hm, hrest.2.1, hroffered, hoffered, Nat.add_zero, List.take_append,
      List.take_of_length_le (Nat.le_succ _), Nat.add_sub_cancel_left]
    rfl

/-- The call that breaks an assertion, or writes to the constant tables. -/
theorem not_removesExactly_of_gives (h : d.Sound) (hmax : 0 < max) (hseg : inRange start stop d.pairs = A ++ m :: B)
    (hA : ∀ a ∈ A, should a = false) (hm : should m = true) (hgives : ¬KeepsTable dbg d) :
    ¬RemovesExactly dbg d should start stop max := by
  rintro ⟨r, hcall, -⟩
  obtain ⟨s, fuel, hs, -, hresult, -, hstop, hpair, hrun⟩ := reached dbg h hmax hseg hA
  have hnone := hs.hit_none (show s.start < min s.stop d.vused by omega) (show s.result < max by omega) hpair hm hgives
  rw [hrun, loop, hnone] at hcall
  cases hcall

/-- The call that goes on behind its first removal passes over the item that has moved there. -/
theorem not_removesExactly (h : d.Sound) (hmax : 1 < max) (hseg : inRange start stop d.pairs = A ++ m :: B)
    (hA : ∀ a ∈ A, should a = false) (hm : should m = true) (hB : B ≠ []) (hkeeps : KeepsTable dbg d) :
    ¬RemovesExactly dbg d should start stop max := by
  rintro ⟨r, hcall, -, -, hcalls⟩
  obtain ⟨s, fuel, hs, hstart, hresult, hoffered, hstop, hpair, hrun⟩ :=
    reached dbg h (show 0 < max by omega) hseg hA
  have hlen := List.length_pos_of_ne_nil hB
  rw [hrun] at hcall
  obtain ⟨s', hlocked, hstart', hstop', hresult', hoffered', hlive, hpairs, hround⟩ :=
    hs.hit max (by omega) (by omega) hpair hm hkeeps
  rw [if_neg (by omega)] at hround
  rw [loop_next hround] at hcall
  obtain ⟨t, ht, hhead⟩ := loop_offered hcall
  -- the spec offers the next item of the range
  obtain ⟨b, B, rfl⟩ := List.exists_cons_of_ne_nil hB
  obtain ⟨max, rfl⟩ := Nat.exists_eq_add_of_lt hmax
  rw [hseg, show 1 + max + 1 = max + 1 + 1 by omega, comparisons_match hA hm] at hcalls
  have hmore : 0 < comparisons should (max + 1) (b :: B) := comparisons_pos hB
  have hnext : t.head? = some b := by
    have hindex := congrArg (fun l : List (κ × ν) => l[A.length + 1]?) (hcalls.symm.trans ht)
    rw [List.getElem?_take_of_lt (by omega), List.getElem?_append_right (by omega), hoffered', hoffered,
      List.getElem?_append_right (by rw [List.length_append, List.length_singleton]), List.length_append,
      List.length_singleton, Nat.sub_self, Nat.add_sub_cancel_left] at hindex
    rw [List.head?_eq_getElem?, ← hindex]
    rfl
  have hhere : d.pairs[s.start + 1]? = some b := by
    have hrange := congrArg List.length hseg
    rw [inRange_length, List.length_append, List.length_cons] at hrange
    rw [hstart, Nat.add_assoc, ← @inRange_getElem? _ start stop _ _ (by omega), hseg,
      List.getElem?_append_right (Nat.le_add_right _ 1), Nat.add_sub_cancel_left]
    rfl
  -- the code offers the one behind it
  obtain ⟨item, hitem, hitempair⟩ := hhead hlocked b hnext
  have hbehind : d.pairs[s.start + 2]? = some b := by
    have hget : s'.self.pairs[s'.start]? = some b := by
      unfold Dict.pairs
      rw [pairs_getElem? (live_of_eq hlive), hitem]
      exact hitempair
    obtain ⟨hlt, -⟩ := List.getElem?_eq_some_iff.mp hpair
    rwa [hpairs, hstart', List.getElem?_append_right (by rw [List.length_take]; omega),
      List.length_take_of_le hlt.le, Nat.add_sub_cancel_left, List.getElem?_drop] at hget
  have hlt := (List.getElem?_eq_some_iff.mp hhere).1
  have heq := (List.getElem?_inj hlt (h.keys.of_map _)).mp (hhere.trans hbehind.symm)
  omega

/-- The right items are removed exactly when at most one is, and without the table giving way under it. -/
theorem removesExactly_iff (h : d.Sound) :
    RemovesExactly dbg d should start stop max ↔ RemovesAtMostOne dbg d should start stop max := by
  rcases Nat.eq_zero_or_pos max with rfl | hmax
  · refine ⟨fun _ => .inl rfl, fun _ => ?_⟩
    have hdone : removeIfRound dbg should 0 ⟨false, start, stop, 0, d, []⟩ =
        some (.done ⟨false, start, stop, 0, d, []⟩) := by
      unfold removeIfRound
      rw [if_neg Bool.false_ne_true, if_neg]
      exact fun hgo => Nat.not_lt_zero _ hgo.2
    unfold RemovesExactly dictMhSeqRemoveIf
    rw [loop_done hdone]
    refine Ends.pure ⟨?_, (Nat.zero_min _).symm, ?_⟩
    · rw [removeFirst, replaceRange_inRange]
    · rw [comparisons, List.take_zero]
  · rcases firstMatch should (inRange start stop d.pairs) with hnone | ⟨A, m, B, hseg, hA, hm⟩
    · exact ⟨fun _ => .inr (.inl hnone), fun _ => removesExactly_of_none h hmax hnone⟩
    · have hmem : m ∈ inRange start stop d.pairs := by
        rw [hseg]
        exact List.mem_append_right _ List.mem_cons_self
      constructor
      · intro hremoves
        have hkeeps : KeepsTable dbg d := by
          by_contra hgives
          exact not_removesExactly_of_gives h hmax hseg hA hm hgives hremoves
        have hlast : max = 1 ∨ B = [] := by
          by_contra hgoes
          rw [not_or] at hgoes
          exact not_removesExactly h (by omega) hseg hA hm hgoes.2 hkeeps hremoves
        refine .inr (.inr ⟨hkeeps, hlast.imp_right ?_⟩)
        rintro rfl x hx
        rw [hseg, List.dropLast_concat] at hx
        exact hA x hx
      · rintro (hzero | hnone | ⟨hkeeps, hlast⟩)
        · omega
        · exact absurd hm (by rw [hnone m hmem]; exact Bool.false_ne_true)
        · refine removesExactly_of_last h hmax hseg hA hm hkeeps (hlast.imp_right fun hothers => ?_)
          by_contra hB
          have hx := hothers m (by
            rw [hseg, List.dropLast_append_of_ne_nil (List.cons_ne_nil _ _), List.dropLast_cons_of_ne_nil hB]
            exact List.mem_append_right _ List.mem_cons_self)
          rw [hx] at hm
          cases hm

end Removes

/-! ### A table of three items -/

/-- The dict `{1: 10, 2: 20, 3: 30}`, whose keys are their hashes. -/
def threeItems : Dict ℕ ℕ :=
  ⟨[⟨1, some (1, 10)⟩, ⟨2, some (2, 20)⟩, ⟨3, some (3, 30)⟩], 3, 3, 7, [0, 1, 2, 3, 0, 0, 0, 0], false⟩

theorem threeItems_sound : threeItems.Sound where
  vused := rfl
  vsize := le_rfl
  valloc := by decide
  hmask := ⟨3, by decide, rfl⟩
  htab := by
    refine ⟨rfl, fun i => ?_, ⟨0, by decide, rfl⟩, fun i item hitem _ => ⟨0, ?_, fun m hm => absurd hm (Nat.not_lt_zero m)⟩⟩
    · rcases Nat.lt_or_ge i 8 with hlt | hge
      · revert i
        decide
      · rw [cell_of_le hge]
        exact Nat.zero_le _
    · rcases i with _ | _ | _ | i <;> cases hitem <;> rfl
  hashes := by decide
  keys := by decide
  allocated := nofun

/-- The last of three items goes. -/
theorem removesExactly_iff_threeItems : RemovesExactly true threeItems (fun pair => pair.1 = 3) 0 3 3 ↔
    RemovesAtMostOne true threeItems (fun pair => pair.1 = 3) 0 3 3 :=
  removesExactly_iff threeItems_sound

/-- After the first of three items has gone, the second one is passed over. -/
theorem removesExactly_fails : ¬RemovesExactly true threeItems (fun pair => pair.1 = 1 ∨ pair.1 = 2) 0 3 3 := by
  rintro ⟨r, hrun, hpairs, -⟩
  have hleft : (dictMhSeqRemoveIf true threeItems (fun pair => pair.1 = 1 ∨ pair.1 = 2) 0 3 3).map
      (fun r => r.self.pairs) = some [(2, 20), (3, 30)] := by decide
  rw [hrun, Option.map_some, Option.some.injEq, hpairs] at hleft
  revert hleft
  decide

end Deemon.Collections
