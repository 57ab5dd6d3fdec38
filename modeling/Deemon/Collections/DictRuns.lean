import Deemon.Collections.DictCopy
import Deemon.Collections.DictRemoveIf
import Deemon.Collections.DictBulk
import Deemon.Lib.Simulation

/-!
# A `Dict` is an association list

What a `Dict` is for: a list of pairs in the order in which their keys were set. In every run the operations return
what they return for that list, whichever items are still in the tables as deleted ones, and whenever the tables are
optimized, grown or shrunk.
-/

namespace Deemon.Collections

open Deemon.Run Deemon.KeyedList Deemon.Simulation

variable {κ ν : Type}

/-- What an operation returns: an exception, nothing, a value or `ITER_DONE`, a pair or `none`. -/
inductive DictResult (κ ν : Type) where
  | err
  | done
  | value (value : Option ν)
  | pair (pair : Option (κ × ν))

/-! ### The code -/

section Code

variable (ops : KeyOps κ) (dbg : Bool) (answers : GrowAnswers)

/-- The pair of the item with a virtual index. -/
def Dict.virtPair (d : Dict κ ν) (vtabIdx : ℕ) : Option (κ × ν) := d.vtab[vtabIdx - 1]?.bind DictItem.pair

/-- `LOCAL_dict_getitem`. Its loop is that of `LOCAL_dict_setitem`, but for `result_htab_idx`. -/
def Dict.getitem (missing : DictResult κ ν) (self : Dict κ ν) (key : κ) : Option (DictResult κ ν) := do
  match ← self.search ops key with
  | .err => some .err
  | .absent _ => some missing
  | .present _ vtabIdx _ => do
    let old ← self.virtPair vtabIdx
    some (.value (some old.2))

/-- `dict_getitem`. -/
def dictGetitem (self : Dict κ ν) (key : κ) : Option (DictResult κ ν) := self.getitem ops .err key

/-- `dict_trygetitem`. -/
def dictTrygetitem (self : Dict κ ν) (key : κ) : Option (DictResult κ ν) := self.getitem ops (.value none) key

/-- An item is deleted, and its pair handed out. -/
def Dict.takeItem (d : Dict κ ν) (i : ℕ) : Option (Dict κ ν × (κ × ν)) := do
  let item ← d.vtab[i]?
  let old ← item.pair
  let d ← d.deleteAt i
  let d ← d.autoshrink dbg
  some (d, old)

/-- `LOCAL_dict_delitem`, with the same loop. -/
def Dict.delitem (present : ν → DictResult κ ν) (missing : DictResult κ ν) (self : Dict κ ν) (key : κ) :
    Option (Dict κ ν × DictResult κ ν) := do
  match ← self.search ops key with
  | .err => some (self, .err)
  | .absent _ => some (self, missing)
  | .present _ vtabIdx _ => do
    let r ← self.takeItem dbg (vtabIdx - 1)
    some (r.1, present r.2.2)

/-- `dict_delitem`. -/
def dictDelitem (self : Dict κ ν) (key : κ) : Option (Dict κ ν × DictResult κ ν) :=
  self.delitem ops dbg (fun _ => .done) .done key

/-- `dict_popvalue`. -/
def dictPopvalue (self : Dict κ ν) (key : κ) : Option (Dict κ ν × DictResult κ ν) :=
  self.delitem ops dbg (fun v => .value (some v)) (.value none) key

/-- `dict_mh_pop`. -/
def dictMhPop (self : Dict κ ν) (key : κ) : Option (Dict κ ν × DictResult κ ν) :=
  self.delitem ops dbg (fun v => .value (some v)) .err key

/-- `dict_mh_pop_with_default`. -/
def dictMhPopWithDefault (self : Dict κ ν) (key : κ) (default : ν) : Option (Dict κ ν × DictResult κ ν) :=
  self.delitem ops dbg (fun v => .value (some v)) (.value (some default)) key

/-- `dict_mh_setnew_ex`: a key that is there keeps its value. -/
def dictMhSetnewEx (self : Dict κ ν) (pair : κ × ν) : Option (Dict κ ν × DictResult κ ν) := do
  let r ← self.locate ops dbg false answers pair.1
  match r.2 with
  | .err => some (r.1, .err)
  | .present _ vtabIdx _ => do
    let old ← r.1.virtPair vtabIdx
    some (r.1, .value (some old.2))
  | .absent resultHtabIdx => do
    let d ← r.1.appendItem dbg (ops.hash pair.1) pair resultHtabIdx
    some (d, .value none)

/-- `dict_mh_setold_ex`: a key that is not there stays away. -/
def dictMhSetoldEx (self : Dict κ ν) (pair : κ × ν) : Option (Dict κ ν × DictResult κ ν) := do
  match ← self.search ops pair.1 with
  | .err => some (self, .err)
  | .absent _ => some (self, .value none)
  | .present htabIdx vtabIdx resultHtabIdx => do
    let old ← self.virtPair vtabIdx
    let d ← self.overrideItem dbg answers (ops.hash pair.1) pair htabIdx vtabIdx resultHtabIdx
    some (d, .value (some old.2))

/-- The loop of `dict_mh_popitem`, which starts behind the last item. -/
def Dict.lastItem (d : Dict κ ν) : ℕ → Option ℕ
  | 0 => none
  | i + 1 => do
    let item ← d.vtab[i]?
    if item.deleted then do
      check dbg d.CanOptimizeVtab
      check dbg (0 < i)
      d.lastItem i
    else some i

/-- `dict_mh_popitem`. -/
def dictMhPopitem (self : Dict κ ν) : Option (Dict κ ν × DictResult κ ν) :=
  if self.vused = 0 then some (self, .pair none)
  else do
    let i ← self.lastItem dbg self.vtab.length
    let r ← self.takeItem dbg i
    some (r.1, .pair (some r.2))

/-- `dict_mh_seq_getitem_index_impl`, which throws. -/
def dictMhSeqGetitemIndex (self : Dict κ ν) (index : ℕ) : Option (Dict κ ν × DictResult κ ν) := do
  let self ← self.lockReadAndOptimize dbg
  if self.vused ≤ index then some (self, .err)
  else do
    let item ← self.vtab[index]?
    let pair ← item.pair
    some (self, .pair (some pair))

/-- The item at an index is taken out of an optimized table. -/
def Dict.takeIndex (self : Dict κ ν) (result : κ × ν → DictResult κ ν) (index : ℕ) : Option (Dict κ ν × DictResult κ ν) :=
  if self.vused ≤ index then some (self, .err)
  else do
    let d ← (if self.CanOptimizeVtab then self.optimizeVtab dbg else some self)
    let r ← d.takeItem dbg index
    some (r.1, result r.2)

/-- `dict_mh_seq_delitem_index`. -/
def dictMhSeqDelitemIndex (self : Dict κ ν) (index : ℕ) : Option (Dict κ ν × DictResult κ ν) :=
  self.takeIndex dbg (fun _ => .done) index

/-- `dict_mh_seq_pop`. A negative index counts from the end; the sum is read as a `size_t`. -/
def dictMhSeqPop (self : Dict κ ν) (index : ℤ) : Option (Dict κ ν × DictResult κ ν) :=
  let index := if index < 0 then index + self.vused else index
  self.takeIndex dbg (fun pair => .pair (some pair)) (index % 2 ^ 64).toNat

/-- `dict_mh_clear`. -/
def dictMhClear (self : Dict κ ν) : Dict κ ν := if self.vtab.length = 0 then self else ⟨[], 0, 0, 0, [0], true⟩

end Code

/-! ### The list -/

/-- The operations on a dict. -/
inductive DictOp (κ ν : Type) where
  | getitem (key : κ)
  | trygetitem (key : κ)
  | setitem (pair : κ × ν)
  | setnew (pair : κ × ν)
  | setold (pair : κ × ν)
  | delitem (key : κ)
  | popvalue (key : κ)
  | pop (key : κ)
  | popWithDefault (key : κ) (default : ν)
  | popitem
  | getitemIndex (index : ℕ)
  | delitemIndex (index : ℕ)
  | seqPop (index : ℤ)
  | clear

/-- The key that an operation compares. -/
def DictOp.key : DictOp κ ν → Option κ
  | .getitem key | .trygetitem key | .delitem key | .popvalue key | .pop key | .popWithDefault key _ => some key
  | .setitem pair | .setnew pair | .setold pair => some pair.1
  | .popitem | .getitemIndex _ | .delitemIndex _ | .seqPop _ | .clear => none

section Meaning

variable (ops : KeyOps κ) (same : κ → κ → Prop) [DecidableRel same] (t : List (κ × ν))

/-- The pair at an index is taken out. -/
def takeAt (result : κ × ν → DictResult κ ν) (index : ℕ) : List (κ × ν) × DictResult κ ν :=
  match t[index]? with
  | none => (t, .err)
  | some pair => (t.take index ++ t.drop (index + 1), result pair)

/-- What the operations mean for the list. -/
def dictMeaning : DictOp κ ν → List (κ × ν) × DictResult κ ν
  | .getitem key => (t, ((lookup same key t).map fun v => .value (some v)).getD .err)
  | .trygetitem key => (t, .value (lookup same key t))
  | .setitem pair => (insertLast same t pair, .done)
  | .setnew pair => (if lookup same pair.1 t = none then t ++ [pair] else t, .value (lookup same pair.1 t))
  | .setold pair => (if lookup same pair.1 t = none then t else insertLast same t pair, .value (lookup same pair.1 t))
  | .delitem key => (without same key t, .done)
  | .popvalue key => (without same key t, .value (lookup same key t))
  | .pop key => (without same key t, ((lookup same key t).map fun v => .value (some v)).getD .err)
  | .popWithDefault key default => (without same key t, .value (some ((lookup same key t).getD default)))
  | .popitem => (t.dropLast, .pair t.getLast?)
  | .getitemIndex index => (t, (t[index]?.map fun pair => .pair (some pair)).getD .err)
  | .delitemIndex index => takeAt t (fun _ => .done) index
  | .seqPop index =>
    if (if index < 0 then index + t.length else index) < 0 then (t, .err)
    else takeAt t (fun pair => .pair (some pair)) (if index < 0 then index + t.length else index).toNat
  | .clear => ([], .done)

/-- An operation does what it means, or a comparison of its key throws, and the list stays as it is. -/
def DictMeans (op : DictOp κ ν) (t' : List (κ × ν)) (r : DictResult κ ν) : Prop :=
  (t', r) = dictMeaning same t op ∨ (t', r) = (t, .err) ∧ ∃ key, op.key = some key ∧ ∃ p ∈ t, ops.tryCompareEq key p.1 = none

end Meaning

/-- A new item makes `dict_trygrow_vtab` widen the words of the hash table. -/
def Dict.WidensWords (answers : GrowAnswers) (d : Dict κ ν) : Prop :=
  d.MustGrowVtab ∧ ¬d.ShouldGrowHtab ∧ d.CanGrowVtab ∧ hidxioFromValloc d.valloc ≠
    hidxioFromValloc (dictVallocFromHmaskAndCount d.hmask (d.vtab.length + 1) answers.tryRealloc)

/-- The index of an item with this key is written as wide as the words of the hash table are. Where a growth has widened
them, `ops` of `LOCAL_dict_setitem` still writes the narrow ones, and the index of a new item goes astray. -/
def Dict.WritesWords (ops : KeyOps κ) (answers : GrowAnswers) (d : Dict κ ν) (key : κ) : Prop :=
  d.WidensWords answers → ∃ p ∈ d.pairs, ops.tryCompareEq key p.1 = some true

instance (answers : GrowAnswers) (d : Dict κ ν) : Decidable (d.WidensWords answers) :=
  inferInstanceAs (Decidable (_ ∧ _))
instance (ops : KeyOps κ) (answers : GrowAnswers) (d : Dict κ ν) (key : κ) : Decidable (d.WritesWords ops answers key) :=
  inferInstanceAs (Decidable (_ → _))

/-- One operation on a dict. The tables have no words of different widths, so the run ends at an index that would go
astray. -/
def dictStep (ops : KeyOps κ) (dbg : Bool) (answers : GrowAnswers) (d : Dict κ ν) :
    DictOp κ ν → Option (Dict κ ν × DictResult κ ν)
  | .getitem key => (dictGetitem ops d key).map fun r => (d, r)
  | .trygetitem key => (dictTrygetitem ops d key).map fun r => (d, r)
  | .setitem pair => do
    assert (d.WritesWords ops answers pair.1)
    (dictSetitem ops dbg answers d pair).map fun r => (r.1, if r.2 then .done else .err)
  | .setnew pair => do
    assert (d.WritesWords ops answers pair.1)
    dictMhSetnewEx ops dbg answers d pair
  | .setold pair => dictMhSetoldEx ops dbg answers d pair
  | .delitem key => dictDelitem ops dbg d key
  | .popvalue key => dictPopvalue ops dbg d key
  | .pop key => dictMhPop ops dbg d key
  | .popWithDefault key default => dictMhPopWithDefault ops dbg d key default
  | .popitem => dictMhPopitem dbg d
  | .getitemIndex index => dictMhSeqGetitemIndex dbg d index
  | .delitemIndex index => dictMhSeqDelitemIndex dbg d index
  | .seqPop index => dictMhSeqPop dbg d index
  | .clear => some (dictMhClear d, .done)

/-- There are fewer than `2 ^ 64 - 1` items, a signed index has 64 bits, and no index goes astray. -/
def DictAllows (ops : KeyOps κ) (answers : GrowAnswers) (d : Dict κ ν) : DictOp κ ν → Prop
  | .seqPop index => -2 ^ 63 ≤ index ∧ index < 2 ^ 63
  | .setitem pair | .setnew pair => d.vtab.length + 1 < 2 ^ 64 ∧ d.WritesWords ops answers pair.1
  | _ => d.vtab.length + 1 < 2 ^ 64

instance decidableDictAllows (ops : KeyOps κ) (answers : GrowAnswers) (d : Dict κ ν) :
    ∀ op : DictOp κ ν, Decidable (DictAllows ops answers d op)
  | .seqPop _ | .setitem _ | .setnew _ => inferInstanceAs (Decidable (_ ∧ _))
  | .getitem _ | .trygetitem _ | .setold _ | .delitem _ | .popvalue _ | .pop _ | .popWithDefault _ _ | .popitem
  | .getitemIndex _ | .delitemIndex _ | .clear => inferInstanceAs (Decidable (_ < _))

/-! ### Taking items out -/

section Taking

variable {ops : KeyOps κ} {same : κ → κ → Prop} {dbg : Bool} {d : Dict κ ν} {old : κ × ν} {key : κ} {hash q n : ℕ}

theorem emptyDict_exact : Dict.Exact (⟨[], 0, 0, 0, [0], true⟩ : Dict κ ν) :=
  ⟨emptyDict_sound, slotsDiffer_replicate 1, fun _ => rfl⟩

/-- Shrinking keeps the items that are not deleted. -/
theorem Dict.Exact.autoshrink (h : d.Exact) :
    Ends (d.autoshrink dbg) fun r => r.Exact ∧ liveItems r.vtab = liveItems d.vtab := by
  unfold Dict.autoshrink
  by_cases hshould : d.ShouldShrinkVtab
  · have hlt : d.vused <<< 1 < d.valloc := hshould
    have hle : d.vused ≤ d.vused <<< 1 := by
      rw [Nat.shiftLeft_eq]
      omega
    rw [if_pos hshould]
    by_cases hused : d.vused = 0
    · unfold Dict.shrinkVtabAndHtab
      rw [check_of (by omega), some_bind, check_of (Or.inl hshould), some_bind, if_pos hused,
        liveItems_of_unused h.toSound hused]
      exact Ends.pure ⟨emptyDict_exact, rfl⟩
    · have hempty := h.toSound.emptyTab_of_room (by omega)
      have hsound := @Dict.Sound.shrink _ _ dbg d h.toSound hshould hused
      obtain ⟨m, hnewm, hpow, heq⟩ := @Dict.Sound.shrink_eq _ _ dbg d h.toSound hshould hused
      rw [heq, hempty] at hsound ⊢
      by_cases hrebuild : decide d.CanOptimizeVtab = true ∨ m ≠ d.hmask
      · rw [if_pos hrebuild]
        refine (h.rebuildAfterOptimize hle hnewm hpow).mono fun r hr => ⟨hr.1, ?_⟩
        rw [hr.2.1, liveItems_liveItems]
      · rw [if_neg hrebuild] at hsound ⊢
        exact Ends.pure ⟨⟨(hsound.of_eq rfl).1, h.slots, fun hcontra => absurd hcontra Bool.false_ne_true⟩,
          liveItems_liveItems _⟩
  · rw [if_neg hshould]
    exact Ends.pure ⟨h, rfl⟩

/-- The pair of an item is taken out. -/
theorem Dict.Keyed.takeItem (h : d.Keyed ops same) (hitem : d.vtab[q]? = some ⟨hash, some old⟩) :
    Ends (d.takeItem dbg q) fun r => r.1.Keyed ops same ∧ r.2 = old ∧
      r.1.pairs = (d.vtab.take q).filterMap DictItem.pair ++ (d.vtab.drop (q + 1)).filterMap DictItem.pair := by
  have hexact := (h.toExact.delete hitem rfl).1
  have hpairs : Dict.pairs { d with vtab := d.vtab.set q (DictItem.delete ⟨hash, some old⟩), vused := d.vused - 1 } =
      (d.vtab.take q).filterMap DictItem.pair ++ (d.vtab.drop (q + 1)).filterMap DictItem.pair := pairs_set hitem
  have hkeyed : Dict.Keyed ops same { d with
      vtab := d.vtab.set q (DictItem.delete ⟨hash, some old⟩), vused := d.vused - 1 } := by
    refine ⟨hexact, fun item hmem pair hpair => ?_, ?_⟩
    · rcases List.mem_or_eq_of_mem_set hmem with hold | rfl
      · exact h.hash item hold pair hpair
      · cases hpair
    · rw [hpairs]
      have hdistinct := h.distinct
      rw [pairs_split hitem] at hdistinct
      exact hdistinct.sublist ((List.sublist_cons_self _ _).append_left _)
  unfold Dict.takeItem Dict.deleteAt
  rw [hitem, some_bind, some_bind, some_bind, some_bind]
  refine Ends.bind hexact.autoshrink ?_
  rintro r ⟨hr, hlive⟩
  obtain ⟨hr', hrpairs⟩ := hkeyed.of_live hr hlive
  exact Ends.pure ⟨hr', rfl, hrpairs.trans hpairs⟩

/-- The last item that is not deleted. -/
theorem Dict.Sound.lastItem (h : d.Sound) (hn : n ≤ d.vtab.length) (hrest : (d.vtab.drop n).filterMap DictItem.pair = [])
    (hne : d.pairs ≠ []) : Ends (d.lastItem dbg n) fun q => ∃ hash old, d.vtab[q]? = some ⟨hash, some old⟩ ∧
      (d.vtab.drop (q + 1)).filterMap DictItem.pair = [] := by
  induction n with
  | zero => exact absurd hrest hne
  | succ i ih =>
    have hitem : d.vtab[i]? = some d.vtab[i] := List.getElem?_eq_getElem hn
    unfold Dict.lastItem
    rw [hitem, some_bind]
    rcases hget : d.vtab[i] with ⟨hash, pair⟩
    rw [hget] at hitem
    cases pair with
    | some old =>
      rw [if_neg (by exact Bool.false_ne_true)]
      exact Ends.pure ⟨hash, old, hitem, hrest⟩
    | none =>
      have hdrop : (d.vtab.drop i).filterMap DictItem.pair = [] := by
        rw [List.drop_eq_getElem_cons hn, hget, List.filterMap_cons_none rfl, hrest]
      have hopt : d.CanOptimizeVtab := by
        unfold Dict.CanOptimizeVtab
        rw [h.vused]
        refine lt_of_le_of_ne List.countP_le_length fun heq => ?_
        exact absurd (List.countP_eq_length.mp heq _ (List.mem_of_getElem? hitem)) Bool.false_ne_true
      have hpos : 0 < i := by
        refine Nat.pos_of_ne_zero ?_
        rintro rfl
        exact hne hdrop
      rw [if_pos (by rfl), check_of hopt, some_bind, check_of hpos, some_bind]
      exact ih (Nat.le_of_succ_le hn) hdrop

/-- The table without deleted items. -/
theorem Dict.Keyed.lock (h : d.Keyed ops same) : Ends (d.lockReadAndOptimize dbg) fun e => e.Keyed ops same ∧
    e.pairs = d.pairs ∧ e.vtab = liveItems e.vtab ∧ e.vused = d.vused := by
  unfold Dict.lockReadAndOptimize
  by_cases hopt : d.CanOptimizeVtab
  · rw [if_pos hopt]
    refine (h.toExact.optimizeVtab hopt).mono ?_
    rintro e ⟨he, hvtab, hused, -⟩
    obtain ⟨hkeyed, hpairs⟩ := h.of_live he (by rw [hvtab, liveItems_liveItems])
    exact ⟨hkeyed, hpairs, by rw [hvtab, liveItems_liveItems], hused⟩
  · rw [if_neg hopt]
    exact Ends.pure ⟨h, rfl, (liveItems_of_full h.toSound hopt).symm, rfl⟩

theorem Dict.Keyed.takeIndex (h : d.Keyed ops same) (result : κ × ν → DictResult κ ν) :
    Ends (d.takeIndex dbg result n) fun r => r.1.Keyed ops same ∧ (r.1.pairs, r.2) = takeAt d.pairs result n := by
  have hlen := length_pairs h.toSound
  unfold Dict.takeIndex takeAt
  by_cases hn : d.vused ≤ n
  · rw [if_pos hn, List.getElem?_eq_none_iff.mpr (by omega)]
    exact Ends.pure ⟨h, rfl⟩
  · rw [if_neg hn]
    refine Ends.bind h.lock ?_
    rintro e ⟨he, hpairs, hlive, -⟩
    have hget : d.pairs[n]? = some d.pairs[n] := List.getElem?_eq_getElem (by omega)
    obtain ⟨⟨hash, pair⟩, hitem, hpair⟩ := exists_item (d := e) hlive ((congrArg (·[n]?) hpairs).trans hget)
    obtain rfl : pair = _ := hpair
    obtain ⟨htake, hdrop⟩ := filterMap_take_drop (q := n) (live_of_eq hlive)
    refine (he.takeItem hitem).bind ?_
    rintro r ⟨hr, hold, hrpairs⟩
    refine Ends.pure ⟨hr, ?_⟩
    dsimp only
    rw [hget, hold, hrpairs, htake, (filterMap_take_drop (q := n + 1) (live_of_eq hlive)).2]
    exact congrArg (fun l : List (κ × ν) => (l.take n ++ l.drop (n + 1), _)) hpairs

end Taking

/-! ### Steps -/

section Steps

variable {ops : KeyOps κ} {same : κ → κ → Prop} [DecidableRel same] {dbg : Bool} {answers : GrowAnswers} {d : Dict κ ν}
  {t : List (κ × ν)} {key : κ} {pair : κ × ν} {htabIdx vtabIdx slot : ℕ} {result : Option ℕ}

/-- The pairs of a dict. -/
def IsDictOf (ops : KeyOps κ) (same : κ → κ → Prop) (d : Dict κ ν) (t : List (κ × ν)) : Prop :=
  d.Keyed ops same ∧ d.pairs = t

/-- What an operation with a key leaves: a list and a result, or a comparison has thrown. -/
def KeyOutcome (ops : KeyOps κ) (same : κ → κ → Prop) (d : Dict κ ν) (key : κ) (t' : List (κ × ν)) (res : DictResult κ ν)
    (r : Dict κ ν × DictResult κ ν) : Prop :=
  IsDictOf ops same r.1 t' ∧ r.2 = res ∨ r = (d, .err) ∧ ∃ p ∈ d.pairs, ops.tryCompareEq key p.1 = none

section Keyed

variable (h : d.Keyed ops same) (hlaw : ops.Lawful same)
include h hlaw

/-- The pair that the search has found. -/
theorem Dict.Keyed.present (hfound : d.Found ops key (.present htabIdx vtabIdx result)) :
    ∃ old, d.vtab[vtabIdx - 1]? = some ⟨ops.hash key, some old⟩ ∧
      d.virtPair vtabIdx = some old ∧ lookup same key d.pairs = some old.2 ∧
      without same key d.pairs = (d.vtab.take (vtabIdx - 1)).filterMap DictItem.pair ++
        (d.vtab.drop (vtabIdx - 1 + 1)).filterMap DictItem.pair := by
  obtain ⟨n, -, -, hidx, ⟨old, ⟨-, hitem⟩, hequal⟩, -⟩ := hfound
  rw [← hidx] at hitem
  have hsame : same key old.1 := (hlaw.compare _ _ _ hequal).mp rfl
  have hdistinct := h.distinct
  rw [pairs_split hitem] at hdistinct ⊢
  refine ⟨old, hitem, ?_, lookup_of_mem hlaw.equivalence hdistinct hsame,
    without_of_mem hlaw.equivalence hdistinct hsame⟩
  rw [Dict.virtPair, hitem, Option.bind_some]

theorem Dict.Keyed.getitem_ends (missing : DictResult κ ν) :
    Ends ((d.getitem ops missing key).map fun r => (d, r))
      (KeyOutcome ops same d key d.pairs (((lookup same key d.pairs).map fun v => .value (some v)).getD missing)) := by
  refine Ends.map (P := fun r => KeyOutcome ops same d key d.pairs _ (d, r)) ?_ fun _ hr => hr
  unfold Dict.getitem
  refine (h.toVerify.search (hlaw.hash_lt key)).bind fun found hfound => ?_
  cases found with
  | err => exact Ends.pure (.inr ⟨rfl, hfound.throws⟩)
  | absent slot =>
    rw [lookup_of_new (h.new_of_absent hlaw hfound)]
    exact Ends.pure (.inl ⟨⟨h, rfl⟩, rfl⟩)
  | present htabIdx vtabIdx result =>
    obtain ⟨old, -, hpair, hlookup, -⟩ := h.present hlaw hfound
    dsimp only
    rw [hpair, some_bind, hlookup]
    exact Ends.pure (.inl ⟨⟨h, rfl⟩, rfl⟩)

theorem Dict.Keyed.delitem_ends (present : ν → DictResult κ ν)
    (missing : DictResult κ ν) : Ends (d.delitem ops dbg present missing key)
      (KeyOutcome ops same d key (without same key d.pairs) (((lookup same key d.pairs).map present).getD missing)) := by
  unfold Dict.delitem
  refine (h.toVerify.search (hlaw.hash_lt key)).bind fun found hfound => ?_
  cases found with
  | err => exact Ends.pure (.inr ⟨rfl, hfound.throws⟩)
  | absent slot =>
    have hnew := h.new_of_absent hlaw hfound
    rw [lookup_of_new hnew, without_of_new hnew]
    exact Ends.pure (.inl ⟨⟨h, rfl⟩, rfl⟩)
  | present htabIdx vtabIdx result =>
    obtain ⟨old, hitem, -, hlookup, hwithout⟩ := h.present hlaw hfound
    refine (h.takeItem hitem).bind fun r hr => Ends.pure (.inl ⟨⟨hr.1, hr.2.2.trans hwithout.symm⟩, ?_⟩)
    rw [hlookup, hr.2.1]
    rfl

theorem Dict.Keyed.setnew_ends (hlt : d.vtab.length + 1 < 2 ^ 64)
    (hmem : answers.tryRealloc = true) : Ends (dictMhSetnewEx ops dbg answers d pair) (KeyOutcome ops same d pair.1
      (if lookup same pair.1 d.pairs = none then d.pairs ++ [pair] else d.pairs) (.value (lookup same pair.1 d.pairs))) := by
  unfold dictMhSetnewEx
  refine (h.locate hlaw hlt hmem pair.1).bind ?_
  rintro ⟨e, found⟩ hlocated
  dsimp only
  cases found with
  | err =>
    obtain ⟨rfl, hfound⟩ := hlocated
    exact Ends.pure (.inr ⟨rfl, hfound.throws⟩)
  | present htabIdx vtabIdx result =>
    obtain ⟨rfl, hfound⟩ := hlocated
    obtain ⟨old, -, hpair, hlookup, -⟩ := h.present hlaw hfound
    dsimp only
    rw [hpair, some_bind, hlookup, if_neg (Option.some_ne_none _)]
    exact Ends.pure (.inl ⟨⟨h, rfl⟩, rfl⟩)
  | absent slot =>
    obtain ⟨hkeyed, hpairs, -, hroom, hfree, hnew⟩ := hlocated
    rw [lookup_of_new hnew, if_pos rfl]
    refine (hkeyed.appendItem hlaw hroom hfree (hpairs.symm ▸ hnew)).bind ?_
    rintro r ⟨hr, hrpairs, -⟩
    exact Ends.pure (.inl ⟨⟨hr, by rw [hrpairs, hpairs]⟩, rfl⟩)

theorem Dict.Keyed.setold_ends (hlt : d.vtab.length + 1 < 2 ^ 64) :
    Ends (dictMhSetoldEx ops dbg answers d pair) (KeyOutcome ops same d pair.1
      (if lookup same pair.1 d.pairs = none then d.pairs else insertLast same d.pairs pair)
      (.value (lookup same pair.1 d.pairs))) := by
  unfold dictMhSetoldEx
  refine (h.toVerify.search (hlaw.hash_lt pair.1)).bind fun found hfound => ?_
  cases found with
  | err => exact Ends.pure (.inr ⟨rfl, hfound.throws⟩)
  | absent slot =>
    rw [lookup_of_new (h.new_of_absent hlaw hfound), if_pos rfl]
    exact Ends.pure (.inl ⟨⟨h, rfl⟩, rfl⟩)
  | present htabIdx vtabIdx result =>
    obtain ⟨old, -, hpair, hlookup, -⟩ := h.present hlaw hfound
    dsimp only
    rw [hpair, some_bind, hlookup, if_neg (Option.some_ne_none _)]
    refine (h.overrideItem hlaw hlt hfound).bind fun r hr => ?_
    exact Ends.pure (.inl ⟨⟨hr.keyed, hr.pairs⟩, rfl⟩)

end Keyed

omit [DecidableRel same] in
theorem Dict.Keyed.popitem_ends (h : d.Keyed ops same) : Ends (dictMhPopitem dbg d) fun r =>
    IsDictOf ops same r.1 d.pairs.dropLast ∧ r.2 = .pair d.pairs.getLast? := by
  have hlen := length_pairs h.toSound
  unfold dictMhPopitem
  by_cases hused : d.vused = 0
  · have hnil := List.length_eq_zero_iff.mp (hlen.trans hused)
    rw [if_pos hused, hnil]
    exact Ends.pure ⟨⟨h, hnil⟩, rfl⟩
  · rw [if_neg hused]
    have hne : d.pairs ≠ [] := by
      rintro hnil
      rw [hnil] at hlen
      exact hused hlen.symm
    refine (h.toSound.lastItem le_rfl (by rw [List.drop_length, List.filterMap_nil]) hne).bind ?_
    rintro q ⟨hash, old, hitem, hrest⟩
    refine (h.takeItem hitem).bind ?_
    rintro r ⟨hr, hold, hpairs⟩
    rw [hrest, List.append_nil] at hpairs
    rw [pairs_split hitem, hrest, List.dropLast_concat, List.getLast?_concat, hold]
    exact Ends.pure ⟨⟨hr, hpairs⟩, rfl⟩

omit [DecidableRel same] in
theorem Dict.Keyed.getitemIndex_ends (h : d.Keyed ops same) (index : ℕ) : Ends (dictMhSeqGetitemIndex dbg d index) fun r =>
    IsDictOf ops same r.1 d.pairs ∧ r.2 = (d.pairs[index]?.map fun pair => .pair (some pair)).getD .err := by
  unfold dictMhSeqGetitemIndex
  refine h.lock.bind ?_
  rintro e ⟨he, hpairs, hlive, -⟩
  have hlen := length_pairs he.toSound
  rw [← hpairs]
  by_cases hindex : e.vused ≤ index
  · rw [if_pos hindex, List.getElem?_eq_none_iff.mpr (by omega)]
    exact Ends.pure ⟨⟨he, rfl⟩, rfl⟩
  · have hget : e.pairs[index]? = some e.pairs[index] := List.getElem?_eq_getElem (by omega)
    obtain ⟨item, hitem, hpair⟩ := exists_item hlive hget
    rw [if_neg hindex, hitem, some_bind, hpair, some_bind, hget]
    exact Ends.pure ⟨⟨he, rfl⟩, rfl⟩

theorem Dict.Keyed.seqPop_ends (h : d.Keyed ops same) {index : ℤ} (hlo : -2 ^ 63 ≤ index) (hhi : index < 2 ^ 63) :
    Ends (dictMhSeqPop dbg d index) fun r => r.1.Keyed ops same ∧
      (r.1.pairs, r.2) = dictMeaning same d.pairs (.seqPop index) := by
  have hlen := length_pairs h.toSound
  have hused := h.toSound.vused_lt
  unfold dictMhSeqPop
  refine (h.takeIndex _).mono ?_
  rintro r ⟨hr, hpairs⟩
  refine ⟨hr, hpairs.trans ?_⟩
  rw [dictMeaning, hlen]
  by_cases hneg : (if index < 0 then index + (d.vused : ℤ) else index) < 0
  · -- the sum is a large `size_t`
    have hbig : d.pairs.length ≤ ((if index < 0 then index + (d.vused : ℤ) else index) % 2 ^ 64).toNat := by
      split_ifs at hneg ⊢ <;> omega
    rw [if_pos hneg, takeAt, List.getElem?_eq_none_iff.mpr hbig]
  · have hmod : (if index < 0 then index + (d.vused : ℤ) else index) % 2 ^ 64 =
        if index < 0 then index + (d.vused : ℤ) else index := by
      refine Int.emod_eq_of_lt (not_lt.mp hneg) ?_
      split_ifs <;> omega
    rw [if_neg hneg, hmod]

end Steps

/-! ### Runs -/

section Runs

variable {ops : KeyOps κ} {same : κ → κ → Prop} [DecidableRel same] {dbg : Bool} {answers : GrowAnswers} {d : Dict κ ν}
  {t : List (κ × ν)}

theorem KeyOutcome.means {op : DictOp κ ν} {key : κ} {t' : List (κ × ν)} {res : DictResult κ ν}
    {x : Option (Dict κ ν × DictResult κ ν)} (hx : Ends x (KeyOutcome ops same d key t' res)) (h : d.Keyed ops same)
    (hkey : op.key = some key) (hmeans : (t', res) = dictMeaning same d.pairs op) :
    Ends x fun r => ∃ t', DictMeans ops same d.pairs op t' r.2 ∧ IsDictOf ops same r.1 t' := by
  refine hx.mono ?_
  rintro r (⟨hr, rfl⟩ | ⟨rfl, hthrows⟩)
  · exact ⟨t', .inl hmeans, hr⟩
  · exact ⟨d.pairs, .inr ⟨rfl, key, hkey, hthrows⟩, h, rfl⟩

/-- Each operation does to the list what it means. -/
theorem dictStep_ends (hlaw : ops.Lawful same) (hmem : answers.tryRealloc = true) (h : IsDictOf ops same d t)
    (op : DictOp κ ν) (hop : DictAllows ops answers d op) : Ends (dictStep ops dbg answers d op) fun r =>
      ∃ t', DictMeans ops same t op t' r.2 ∧ IsDictOf ops same r.1 t' := by
  obtain ⟨h, rfl⟩ := h
  unfold dictStep
  cases op with
  | getitem key => exact KeyOutcome.means (h.getitem_ends hlaw _) h rfl rfl
  | trygetitem key =>
    refine KeyOutcome.means (h.getitem_ends hlaw _) h rfl ?_
    rw [dictMeaning]
    cases lookup same key d.pairs <;> rfl
  | setitem pair =>
    dsimp only
    rw [assert_of hop.2, some_bind]
    have hset : Ends (dictSetitem ops dbg answers d pair) _ := h.setitem hlaw hop.1 hmem
    refine KeyOutcome.means (hset.map ?_) h rfl rfl
    rintro ⟨r, success⟩ ⟨hfalse, htrue⟩
    cases success with
    | false =>
      obtain ⟨rfl, hfound⟩ := hfalse rfl
      exact .inr ⟨rfl, hfound.throws⟩
    | true => exact .inl ⟨⟨(htrue rfl).keyed, (htrue rfl).pairs⟩, rfl⟩
  | setnew pair =>
    dsimp only
    rw [assert_of hop.2, some_bind]
    exact KeyOutcome.means (h.setnew_ends hlaw hop.1 hmem) h rfl rfl
  | setold pair => exact KeyOutcome.means (h.setold_ends hlaw hop) h rfl rfl
  | delitem key =>
    refine KeyOutcome.means (h.delitem_ends hlaw _ _) h rfl ?_
    rw [dictMeaning]
    cases lookup same key d.pairs <;> rfl
  | popvalue key =>
    refine KeyOutcome.means (h.delitem_ends hlaw _ _) h rfl ?_
    rw [dictMeaning]
    cases lookup same key d.pairs <;> rfl
  | pop key => exact KeyOutcome.means (h.delitem_ends hlaw _ _) h rfl rfl
  | popWithDefault key default =>
    refine KeyOutcome.means (h.delitem_ends hlaw _ _) h rfl ?_
    rw [dictMeaning]
    cases lookup same key d.pairs <;> rfl
  | popitem => exact h.popitem_ends.mono fun r hr => ⟨_, .inl (by rw [hr.2]; rfl), hr.1⟩
  | getitemIndex index => exact (h.getitemIndex_ends index).mono fun r hr => ⟨_, .inl (by rw [hr.2]; rfl), hr.1⟩
  | delitemIndex index => exact (h.takeIndex _).mono fun r hr => ⟨_, .inl hr.2, hr.1, rfl⟩
  | seqPop index => exact (h.seqPop_ends hop.1 hop.2).mono fun r hr => ⟨_, .inl hr.2, hr.1, rfl⟩
  | clear =>
    refine Ends.pure ⟨[], .inl rfl, ?_⟩
    unfold dictMhClear
    split_ifs with hlen
    · refine ⟨h, ?_⟩
      rw [Dict.pairs, List.length_eq_zero_iff.mp hlen, List.filterMap_nil]
    · exact ⟨emptyDict_keyed, rfl⟩

/-- In every run the operations on a dict do to a list of pairs what they mean, with and without assertions, as long as
there is memory for larger tables and no index goes astray. -/
theorem dict_refines_list (hlaw : ops.Lawful same) (hmem : answers.tryRealloc = true) (l : List (DictOp κ ν))
    (hl : AllSteps (DictAllows ops answers) (dictStep ops dbg answers) ⟨[], 0, 0, 0, [0], true⟩ l) :
    Ends (trace (dictStep ops dbg answers) ⟨[], 0, 0, 0, [0], true⟩ l)
      (Follows (IsDictOf ops same) (DictMeans ops same) [] l) :=
  trace_follows (IsDictOf ops same) (fun _ _ op h hop => dictStep_ends hlaw hmem h op hop) ⟨emptyDict_keyed, rfl⟩ hl

/-- Keys that come, change, go and come again. -/
def someDictOps : List (DictOp ℕ ℕ) :=
  [.setitem (1, 10), .setnew (2, 20), .setitem (1, 11), .setold (3, 30), .seqPop (-1), .setitem (5, 50), .getitem 2,
    .getitemIndex 0, .popWithDefault 7 70, .delitem 2, .popitem, .pop 5, .clear]

theorem someDictOps_refine : Ends (trace (dictStep numberOps true ⟨true, true, true⟩) ⟨[], 0, 0, 0, [0], true⟩ someDictOps)
    (Follows (IsDictOf numberOps Eq) (DictMeans numberOps Eq) [] someDictOps) :=
  dict_refines_list numberOps_lawful rfl someDictOps (by decide)

end Runs

end Deemon.Collections
