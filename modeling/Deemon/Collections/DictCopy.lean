import Deemon.Collections.DictSizes
import Deemon.Lib.Words

/-!
# Copies of dicts and hash sets

A copy gets tables that fit the number of items, so its index words can be narrower than those of the source while the
masks agree. The hash table is then converted word by word. One width down the code takes the conversion of the copy's
own width and not the one of the source's: for 8-bit words there is no such function, and for wider ones it reads the
source at half its width and writes half of the copy.
-/

namespace Deemon.Collections

open Deemon.Run Deemon.Radix Deemon.Words

variable {κ ν ν' : Type}

/-! ### Index words -/

/-- `hxio_upr` of the words of `2 ^ w` bytes. -/
def hxioUpr (w : ℕ) (dst src : List ℕ) (nWords : ℕ) : Option (List ℕ) :=
  if w < 3 then forDown (fun i dst => do setWord (w + 1) dst i (← getWord w src i)) nWords dst else none

/-- `hxio_lwr` of the words of `2 ^ w` bytes. -/
def hxioLwr (w : ℕ) (dst src : List ℕ) (nWords : ℕ) : Option (List ℕ) :=
  if 0 < w then convertWords w (w - 1) dst src nWords else none

/-- The hash table of a copy with the same mask. -/
def copyHtab (dbg : Bool) (copyHidxio origHidxio : ℕ) (dst src : List ℕ) (htabWords : ℕ) : Option (List ℕ) := do
  check dbg (copyHidxio ≤ origHidxio ∨ copyHidxio + 1 = origHidxio)
  if origHidxio = copyHidxio then copyCells dst 0 src 0 (htabWords <<< copyHidxio)
  else if origHidxio < copyHidxio then hxioUpr copyHidxio dst src htabWords
  else if copyHidxio + 1 = origHidxio then hxioLwr copyHidxio dst src htabWords
  else do
    check dbg (copyHidxio < origHidxio)
    convertWords origHidxio copyHidxio dst src htabWords

/-! ### `dict_init_fromcopy` -/

/-- Which of the allocations of the tables succeed. -/
structure CopyAnswers where
  tryMalloc : Bool
  tryMallocSmall : Bool
  malloc : Bool

/-- `copy_valloc` for the first allocation. -/
def firstCopyValloc (otherValloc copyHmask copyVsize : ℕ) : ℕ :=
  if otherValloc ≤ dictVallocFromHmaskAndCount copyHmask copyVsize true then otherValloc
  else if otherValloc < dictVallocFromHmaskAndCount copyHmask copyVsize false then otherValloc
  else dictVallocFromHmaskAndCount copyHmask copyVsize false

/-- `copy_valloc` for the others. -/
def smallCopyValloc (otherValloc copyHmask copyVsize : ℕ) : ℕ :=
  if otherValloc < dictVallocFromHmaskAndCount copyHmask copyVsize false then otherValloc
  else dictVallocFromHmaskAndCount copyHmask copyVsize false

/-- `copy_valloc` of the tables that are allocated in the end. -/
def CopyAnswers.copyValloc (answers : CopyAnswers) (otherValloc copyHmask copyVsize : ℕ) : Option ℕ :=
  if answers.tryMalloc then some (firstCopyValloc otherValloc copyHmask copyVsize)
  else if answers.tryMallocSmall || answers.malloc then some (smallCopyValloc otherValloc copyHmask copyVsize)
  else none

/-- An item of the copy. -/
def DictItem.withValue (value : ν → ν') (item : DictItem κ ν) : DictItem κ ν' :=
  { diHash := item.diHash
    pair := item.pair.map (Prod.map id value) }

/-- `LOCAL_dict_init_fromcopy` from the sizes on: the copy, or no copy when there is no memory for it. The tables are
allocated with the bytes `content` in them, and nobody changes the source while its lock is released. -/
def copyOptimized (value : ν → ν') (dbg : Bool) (answers : CopyAnswers) (content : ℕ → ℕ) (other : Dict κ ν) :
    Option (Option (Dict κ ν')) := do
  let copyVsize := other.vtab.length
  let copyHmask := dictHmaskFromCount copyVsize
  match answers.copyValloc other.valloc copyHmask copyVsize with
  | none => some none
  | some copyValloc => do
    let copyHidxio := hidxioFromValloc copyValloc
    -- all keys get a reference
    assert (∀ item ∈ other.vtab, item.deleted = false)
    let copyVtab := other.vtab.map (DictItem.withValue value)
    let htabWords := copyHmask + 1
    if copyHmask = other.hmask then do
      let origHidxio := hidxioFromValloc other.valloc
      let fresh := (List.range (htabWords * 2 ^ copyHidxio)).map fun i => content i % 256
      let htab ← copyHtab dbg copyHidxio origHidxio fresh (toBytes origHidxio other.htab) htabWords
      some (some ⟨copyVtab, copyValloc, other.vused, copyHmask, words copyHidxio htab htabWords, false⟩)
    else do
      let copy ← Dict.htabRebuildAfterOptimize dbg ⟨copyVtab, copyValloc, other.vused, copyHmask, [], false⟩
      some (some copy)

/-- `LOCAL_dict_init_fromcopy`: the source, which may have been optimized, and its copy. -/
def initFromcopy (value : ν → ν') (dbg : Bool) (answers : CopyAnswers) (content : ℕ → ℕ) (other : Dict κ ν) :
    Option (Dict κ ν × Option (Dict κ ν')) := do
  let other ← other.lockReadAndOptimize dbg
  let copy ← copyOptimized value dbg answers content other
  some (other, copy)

section Copies

variable (dbg : Bool) (answers : CopyAnswers) (content : ℕ → ℕ)

/-- `dict_init_fromcopy`. -/
def dictInitFromcopy (other : Dict κ ν) :
    Option (Dict κ ν × Option (Dict κ ν)) := initFromcopy id dbg answers content other

/-- `dict_init_fromcopy_keysonly`: the caller stores the values. -/
def dictInitFromcopyKeysonly (other : Dict κ ν) :
    Option (Dict κ ν × Option (Dict κ Unit)) := initFromcopy (fun _ => ()) dbg answers content other

/-- `dict_init_fromhashset_keysonly`: the caller stores the values. -/
def dictInitFromhashsetKeysonly (other : Dict κ Unit) :
    Option (Dict κ Unit × Option (Dict κ Unit)) := initFromcopy (fun _ => ()) dbg answers content other

/-- `hashset_init_fromcopy`. -/
def hashsetInitFromcopy (other : Dict κ Unit) :
    Option (Dict κ Unit × Option (Dict κ Unit)) := initFromcopy id dbg answers content other

end Copies

/-! ### What the sizes are -/

section Sizes

variable {n v hmask otherValloc : ℕ} {answers : CopyAnswers}

/-- The copy has room for the items, and no more than the source; where it has less it has just enough. -/
theorem CopyAnswers.copyValloc_spec (h : n < 2 ^ 64) (hmask' : n ≤ hmask) (hother : n ≤ otherValloc)
    (hv : answers.copyValloc otherValloc hmask n = some v) : n ≤ v ∧ v ≤ hmask ∧ v ≤ otherValloc ∧
      (v = otherValloc ∨ v = n) := by
  have hover := vallocFromHmaskAndCount_spec true h hmask'
  have hexact : dictVallocFromHmaskAndCount hmask n false = n := rfl
  unfold CopyAnswers.copyValloc firstCopyValloc smallCopyValloc at hv
  rw [hexact] at hv
  split_ifs at hv
  all_goals
    obtain rfl := Option.some.inj hv
    omega

end Sizes

/-! ### What the conversions leave -/

section Conversions

variable {dbg : Bool} {w n B : ℕ} {htab dst : List ℕ} {content : ℕ → ℕ}

/-- A block of fresh memory. -/
theorem length_fresh (content : ℕ → ℕ) (n : ℕ) : ((List.range n).map fun i => content i % 256).length = n := by
  rw [List.length_map, List.length_range]

theorem cell_toBytes_words {i : ℕ} (hlen : htab.length = n) (hi : i < n) (hlt : ∀ i, cell htab i < 256 ^ 2 ^ w) :
    wordAt w (toBytes w htab) i = cell htab i := by
  rw [wordAt_toBytes (by omega), Nat.mod_eq_of_lt (hlt i)]

/-- Words of the source's width are copied as they are. -/
theorem copyHtab_same (hlen : htab.length = n) (hlt : ∀ i, cell htab i < 256 ^ 2 ^ w) (hdst : dst.length = n * 2 ^ w) :
    Ends (copyHtab dbg w w dst (toBytes w htab) n) fun r => words w r n = htab := by
  unfold copyHtab
  rw [check_of (.inl le_rfl), some_bind, if_pos rfl, Nat.shiftLeft_eq]
  refine (copyCells_ends (by omega) (by rw [length_toBytes, hlen]; omega)).mono ?_
  rintro r ⟨-, hcopy⟩
  refine words_eq hlen fun i hi => ?_
  rw [← cell_toBytes_words hlen hi hlt]
  refine seg_congr fun k hk => ?_
  have hcell := hcopy (i * 2 ^ w + k) (lt_of_lt_of_le (Nat.add_lt_add_left hk _) (slot_le hi))
  rwa [Nat.zero_add] at hcell

/-- More than one width down every word is read and written on its own. -/
theorem copyHtab_narrow {w' : ℕ} (hw : w + 1 < w') (hlen : htab.length = n) (hlt : ∀ i, cell htab i < 256 ^ 2 ^ w)
    (hlt' : ∀ i, cell htab i < 256 ^ 2 ^ w') (hdst : dst.length = n * 2 ^ w) :
    Ends (copyHtab dbg w w' dst (toBytes w' htab) n) fun r => words w r n = htab := by
  unfold copyHtab
  rw [check_of (.inl (by omega)), some_bind, if_neg (by omega), if_neg (by omega), if_neg (by omega),
    check_of (by omega), some_bind]
  refine (convertWords_ends (by rw [length_toBytes, hlen]) hdst.ge).mono ?_
  rintro r ⟨-, hconv, -⟩
  refine words_eq hlen fun i hi => ?_
  rw [hconv i hi, cell_toBytes_words hlen hi hlt', Nat.mod_eq_of_lt (hlt i)]

/-- One width down from 16-bit words there is no function to call. -/
theorem copyHtab_eight : copyHtab dbg 0 1 dst (toBytes 1 htab) n = none := by
  unfold copyHtab hxioLwr
  rw [check_of (.inl (by omega)), some_bind]
  rfl

/-- One width down the source is read at half its width: nothing but the low halves of the indices gets into a block
that was zero. -/
theorem copyHtab_lower (hlen : htab.length = n) (hlt : ∀ i, cell htab i < 256 ^ 2 ^ (w + 1))
    (hdst : dst.length = n * 2 ^ (w + 1)) (hzero : ∀ p, cell dst p = 0) :
    Ends (copyHtab dbg (w + 1) (w + 2) dst (toBytes (w + 2) htab) n) fun r => ∀ i < n, wordAt (w + 1) r i < 256 ^ 2 ^ w := by
  have hpos : 0 < 256 ^ 2 ^ w := Nat.pow_pos (by decide)
  have hsize : 2 ^ (w + 1) = 2 * 2 ^ w := by rw [pow_succ, Nat.mul_comm]
  have hlt2 : ∀ i, cell htab i < 256 ^ 2 ^ (w + 2) := fun i =>
    (hlt i).trans_le (Nat.pow_le_pow_right (by decide) (Nat.pow_le_pow_right Nat.two_pos (Nat.le_succ _)))
  unfold copyHtab hxioLwr
  rw [check_of (.inl (by omega)), some_bind, if_neg (by omega), if_neg (by omega), if_pos rfl, if_pos (Nat.succ_pos w),
    Nat.add_sub_cancel]
  refine (convertWords_ends ?_ ?_).mono ?_
  · rw [length_toBytes, hlen, pow_succ 2 (w + 1)]
    exact Nat.mul_le_mul_left _ (by omega)
  · rw [hdst, hsize]
    exact Nat.mul_le_mul_left _ (by omega)
  · rintro r ⟨-, hconv, hrest⟩ i hi
    have hhigh : wordAt w r (2 * i + 1) = 0 := by
      rcases Nat.lt_or_ge (2 * i + 1) n with hlt' | hge
      · -- the upper half of the index at `i` in the source, which is zero
        have hword := cell_toBytes_words (w := w + 2) hlen hi hlt2
        rw [wordAt_succ] at hword
        have hsmall : 256 ^ 2 ^ (w + 1) * wordAt (w + 1) (toBytes (w + 2) htab) (2 * i + 1) < 256 ^ 2 ^ (w + 1) * 1 := by
          have := hlt i
          omega
        have hzero' := Nat.lt_one_iff.mp (Nat.lt_of_mul_lt_mul_left hsmall)
        rw [hconv _ hlt', hzero', Nat.zero_mod]
      · rw [hrest _ hge, wordAt_eq_zero hzero]
    rw [wordAt_succ, hhigh, Nat.mul_zero, Nat.add_zero]
    rcases Nat.lt_or_ge (2 * i) n with hlt' | hge
    · rw [hconv _ hlt']
      exact Nat.mod_lt _ hpos
    · rw [hrest _ hge, wordAt_eq_zero hzero]
      exact hpos

end Conversions

/-! ### Copies -/

/-- A copy that passes `dict_verify`, with the keys and values of the source in order. -/
structure CopyOf (value : ν → ν') (d : Dict κ ν) (copy : Dict κ ν') : Prop where
  verify : copy.Verify
  pairs : copy.pairs = d.pairs.map (Prod.map id value)

/-- Whatever is in the fresh tables, a copy is made as long as there is memory, and the source keeps its pairs. -/
def CopiesExactly (value : ν → ν') (init : (ℕ → ℕ) → Option (Dict κ ν × Option (Dict κ ν'))) (answers : CopyAnswers)
    (d : Dict κ ν) : Prop :=
  ∀ content, Ends (init content) fun r => r.1.pairs = d.pairs ∧
    (r.2 = none → answers.tryMalloc = false ∧ answers.tryMallocSmall = false ∧ answers.malloc = false) ∧
    ∀ copy, r.2 = some copy → CopyOf value d copy

/-- The copy has the mask of the source, and its index words are one width narrower. -/
def NarrowedByOne (answers : CopyAnswers) (d : Dict κ ν) : Prop :=
  dictHmaskFromCount d.vused = d.hmask ∧ ∃ valloc, answers.copyValloc d.valloc d.hmask d.vused = some valloc ∧
    hidxioFromValloc valloc + 1 = hidxioFromValloc d.valloc

section Copies

variable {value : ν → ν'} {dbg : Bool} {answers : CopyAnswers} {content : ℕ → ℕ} {d e : Dict κ ν} {hmask : ℕ}
  {htab : List ℕ} {vtab : List (DictItem κ ν)} {item : DictItem κ ν}

@[simp] theorem diHash_withValue : (item.withValue value).diHash = item.diHash := rfl

@[simp] theorem deleted_withValue : (item.withValue value).deleted = item.deleted := by
  unfold DictItem.withValue DictItem.deleted
  cases item.pair with
  | none => rfl
  | some pair => rfl

theorem filterMap_pair_withValue : (vtab.map (DictItem.withValue value)).filterMap DictItem.pair =
    (vtab.filterMap DictItem.pair).map (Prod.map id value) := by
  induction vtab with
  | nil => rfl
  | cons item vtab ih =>
    obtain ⟨hash, pair⟩ := item
    cases pair with
    | none => exact ih
    | some pair => exact congrArg (Prod.map id value pair :: ·) ih

theorem HtabVerify.withValue (h : HtabVerify vtab hmask htab) :
    HtabVerify (vtab.map (DictItem.withValue value)) hmask htab := by
  refine ⟨h.length, fun i => ?_, h.eof, fun i item hitem hlive => ?_⟩
  · rw [List.length_map]
    exact h.bound i
  · rw [List.getElem?_map, Option.map_eq_some_iff] at hitem
    obtain ⟨item', hitem', rfl⟩ := hitem
    rw [deleted_withValue] at hlive
    exact h.reach i item' hitem' hlive

/-- A dict without deleted items. -/
structure Dict.Full (d : Dict κ ν) : Prop extends Dict.Sound d where
  live : ∀ item ∈ d.vtab, item.deleted = false

theorem Dict.Full.length_eq (h : e.Full) : e.vtab.length = e.vused := by
  rw [h.vused, eq_comm, List.countP_eq_length]
  intro item hitem
  rw [h.live item hitem]
  rfl

theorem Dict.Sound.vused_lt (h : d.Sound) : d.vused < 2 ^ 64 := by
  obtain ⟨k, hk, hpow⟩ := h.hmask
  have hle : 2 ^ k ≤ 2 ^ 64 := Nat.pow_le_pow_right Nat.two_pos hk
  have hused : d.vused ≤ d.vtab.length := by
    rw [h.vused]
    exact List.countP_le_length
  have := h.vsize
  have := h.valloc
  omega

theorem lockReadAndOptimize_hmask (h : d.lockReadAndOptimize dbg = some e) : e.hmask = d.hmask := by
  unfold Dict.lockReadAndOptimize Dict.optimizeVtab Dict.doOptimizeVtabWithoutRebuild Dict.htabRebuildAfterOptimize at h
  split_ifs at h
  · simp only [Option.bind_eq_bind, Option.bind_eq_some_iff, Option.some.injEq] at h
    obtain ⟨-, -, -, ⟨-, -, -, -, -, -, rfl⟩, -, -, -, -, -, -, rfl⟩ := h
    rfl
  · rw [Option.some.inj h]

/-- What the lock gives: the same dict without deleted items. -/
theorem Dict.Sound.lock_full (h : d.Sound) : Ends (d.lockReadAndOptimize dbg) fun e => e.Full ∧ e.pairs = d.pairs ∧
    e.vused = d.vused ∧ e.valloc = d.valloc ∧ e.hmask = d.hmask := by
  obtain ⟨e, he, hsound, hvtab, hused, hvalloc⟩ := @Dict.Sound.lockReadAndOptimize _ _ dbg d h
  refine ⟨e, he, ⟨hsound, fun item hitem => ?_⟩, ?_, hused, hvalloc, lockReadAndOptimize_hmask he⟩
  · rw [hvtab] at hitem
    simpa using (List.mem_filter.mp hitem).2
  · unfold Dict.pairs
    rw [hvtab, filterMap_pair_liveItems]

theorem Dict.Full.copyOf (h : e.Full) {v : ℕ} (hv : e.vused ≤ v) (hmask' : v ≤ hmask) (hpow : ∃ k ≤ 64, hmask + 1 = 2 ^ k)
    (hverify : HtabVerify (e.vtab.map (DictItem.withValue value)) hmask htab) :
    CopyOf value e ⟨e.vtab.map (DictItem.withValue value), v, e.vused, hmask, htab, false⟩ := by
  refine ⟨⟨⟨?_, ?_, hmask', hpow⟩, hverify⟩, filterMap_pair_withValue⟩
  · dsimp only
    rw [List.countP_map, h.vused]
    exact List.countP_congr fun item _ => by rw [Function.comp_apply, deleted_withValue]
  · dsimp only
    rw [List.length_map, h.length_eq]
    exact hv

/-- The hash table of a copy with the same mask, unless its words are one width narrower. -/
theorem copyHtab_ends {v : ℕ} {dst : List ℕ} (h : e.Full) (hv : e.vused ≤ v) (hother : v ≤ e.valloc)
    (hwidth : hidxioFromValloc v + 1 ≠ hidxioFromValloc e.valloc)
    (hdst : dst.length = (e.hmask + 1) * 2 ^ hidxioFromValloc v) :
    Ends (copyHtab dbg (hidxioFromValloc v) (hidxioFromValloc e.valloc) dst
      (toBytes (hidxioFromValloc e.valloc) e.htab) (e.hmask + 1)) fun r =>
      words (hidxioFromValloc v) r (e.hmask + 1) = e.htab := by
  obtain ⟨k, hk, hpow⟩ := h.hmask
  have hle : 2 ^ k ≤ 2 ^ 64 := Nat.pow_le_pow_right Nat.two_pos hk
  have hvalloc := h.valloc
  have hlen := h.length_eq
  have hbound : ∀ u, v ≤ u → u ≤ e.valloc → ∀ i, cell e.htab i < 256 ^ 2 ^ hidxioFromValloc u := fun u hu hu' i => by
    have hcell := h.htab.bound i
    have := lt_two_pow_hidxio (v := u) (by omega)
    omega
  rcases Nat.lt_or_ge (hidxioFromValloc v) (hidxioFromValloc e.valloc) with hlt | hge
  · exact copyHtab_narrow (by omega) h.htab.length (hbound v le_rfl hother) (hbound e.valloc hother le_rfl) hdst
  · rw [← le_antisymm (hidxio_mono hother) hge]
    exact copyHtab_same h.htab.length (hbound v le_rfl hother) hdst

theorem copyOptimized_ends (h : e.Full) (hcond : ¬NarrowedByOne answers e) :
    Ends (copyOptimized value dbg answers content e) fun r =>
      (r = none → answers.tryMalloc = false ∧ answers.tryMallocSmall = false ∧ answers.malloc = false) ∧
      ∀ copy, r = some copy → CopyOf value e copy := by
  have hlen := h.length_eq
  have hlt := h.vused_lt
  obtain ⟨hcount, hpow⟩ := hmaskFromCount_spec hlt
  unfold copyOptimized
  dsimp only
  rw [hlen]
  cases hanswers : answers.copyValloc e.valloc (dictHmaskFromCount e.vused) e.vused with
  | none =>
    refine Ends.pure ⟨fun _ => ?_, fun copy hcopy => (Option.some_ne_none _ hcopy.symm).elim⟩
    unfold CopyAnswers.copyValloc at hanswers
    split_ifs at hanswers with h1 h2
    rw [Bool.or_eq_true, not_or, Bool.not_eq_true, Bool.not_eq_true] at h2
    exact ⟨Bool.not_eq_true _ ▸ h1, h2⟩
  | some v =>
    obtain ⟨hv, hvmask, hother, -⟩ := CopyAnswers.copyValloc_spec hlt hcount (hlen ▸ h.vsize) hanswers
    dsimp only
    rw [assert_of h.live, some_bind]
    by_cases hmask : dictHmaskFromCount e.vused = e.hmask
    · rw [if_pos hmask]
      rw [hmask] at hanswers hvmask
      have hwidth : hidxioFromValloc v + 1 ≠ hidxioFromValloc e.valloc := fun heq => hcond ⟨hmask, v, hanswers, heq⟩
      rw [hmask]
      refine Ends.bind (copyHtab_ends h hv hother hwidth (length_fresh content _)) fun r hr => ?_
      rw [hr]
      refine Ends.pure ⟨fun hnone => (Option.some_ne_none _ hnone).elim, ?_⟩
      rintro _ ⟨⟩
      exact h.copyOf hv hvmask h.hmask h.htab.withValue
    · rw [if_neg hmask]
      obtain ⟨k, hk, hpow'⟩ := hpow
      refine Ends.bind (Dict.rebuild_ends (d := ⟨e.vtab.map (DictItem.withValue value), v, e.vused,
        dictHmaskFromCount e.vused, [], false⟩) ?_ rfl ?_ hk hpow' ?_) ?_
      · rw [List.length_map, hlen]
      · rw [List.length_map, hlen]
        exact hcount
      · intro item hitem
        obtain ⟨item', hitem', rfl⟩ := List.mem_map.mp hitem
        exact h.hashes item' hitem'
      · rintro _ ⟨htab, rfl, hverify⟩
        refine Ends.pure ⟨fun hnone => (Option.some_ne_none _ hnone).elim, ?_⟩
        rintro _ ⟨⟩
        exact h.copyOf hv hvmask ⟨k, hk, hpow'⟩ hverify

/-- One width down no copy is right in memory that was zero: some item is not found. -/
theorem copyOptimized_narrowed (h : e.Full) (hnarrow : NarrowedByOne answers e) :
    ¬Ends (copyOptimized value dbg answers (fun _ => 0) e) fun r => ∀ copy, r = some copy → CopyOf value e copy := by
  obtain ⟨hmask, v, hanswers, hwidth⟩ := hnarrow
  have hlen := h.length_eq
  have hlt := h.vused_lt
  have hsize := h.vsize
  obtain ⟨hv, -, hother, hexact⟩ := CopyAnswers.copyValloc_spec hlt (by have := h.valloc; omega) (hlen ▸ hsize) hanswers
  obtain rfl : v = e.vused := hexact.resolve_left fun heq => by
    rw [heq] at hwidth
    omega
  rintro ⟨r, hr, hcopy⟩
  unfold copyOptimized at hr
  dsimp only at hr
  rw [hlen, hmask, hanswers] at hr
  dsimp only at hr
  rw [assert_of h.live, some_bind, if_pos rfl, ← hwidth] at hr
  have hbound : ∀ i, cell e.htab i < 256 ^ 2 ^ hidxioFromValloc e.vused := fun i => by
    have hcell := h.htab.bound i
    have := lt_two_pow_hidxio hlt
    omega
  have hzero : ∀ n p, cell ((List.range n).map fun _ => 0 % 256) p = 0 := fun n p => by
    rw [List.map_const', List.length_range]
    rcases Nat.lt_or_ge p n with hp | hp
    · exact cell_replicate hp
    · exact cell_of_le (by rw [List.length_replicate]; exact hp)
  cases hw : hidxioFromValloc e.vused with
  | zero =>
    rw [hw, copyHtab_eight] at hr
    cases hr
  | succ w =>
    rw [hw] at hr hbound
    have hconv := @copyHtab_lower dbg w _ _ _ h.htab.length hbound
      (length_fresh (fun _ => 0) ((e.hmask + 1) * 2 ^ (w + 1))) (hzero _)
    obtain ⟨bytes, hbytes, hsmall⟩ := hconv
    rw [hbytes, some_bind] at hr
    obtain rfl := Option.some.inj hr
    have hverify := (hcopy _ rfl).verify.htab
    have hpos : 0 < 256 ^ 2 ^ w := Nat.pow_pos (by decide)
    have hle := le_of_hidxio hw
    generalize 256 ^ 2 ^ w = B at hsmall hpos hle
    obtain ⟨item, hitem⟩ : ∃ item, e.vtab[B - 1]? = some item := ⟨_, List.getElem?_eq_getElem (by omega)⟩
    obtain ⟨n, hn, -⟩ := hverify.reach (B - 1) (item.withValue value) (by rw [List.getElem?_map, hitem]; rfl)
      (by rw [deleted_withValue]; exact h.live _ (List.mem_of_getElem? hitem))
    have hslot := @htabIndex_le e.hmask (item.withValue value).diHash n
    dsimp only at hn
    rw [cell_words (by omega)] at hn
    have hword := hsmall _ (Nat.lt_succ_of_le hslot)
    omega

/-- A copy is right exactly if its words are not one width narrower than those of a source with the same mask. -/
theorem initFromcopy_iff (h : d.Sound) :
    CopiesExactly value (fun content => initFromcopy value dbg answers content d) answers d ↔
      ¬NarrowedByOne answers d := by
  obtain ⟨e, he, hfull, hpairs, hused, hvalloc, hmask⟩ := @Dict.Sound.lock_full _ _ dbg d h
  have hcond : NarrowedByOne answers e ↔ NarrowedByOne answers d := by
    unfold NarrowedByOne
    rw [hused, hvalloc, hmask]
  unfold CopiesExactly initFromcopy
  rw [he]
  constructor
  · intro hall hnarrow
    obtain ⟨r, hr, -, -, hcopy⟩ := hall fun _ => 0
    dsimp only at hr
    rw [some_bind] at hr
    have hends : Ends (copyOptimized value dbg answers (fun _ => 0) e) fun r => ∀ copy, r = some copy →
        CopyOf value e copy := by
      cases hrun : copyOptimized value dbg answers (fun _ => 0) e with
      | none =>
        rw [hrun] at hr
        cases hr
      | some copy =>
        rw [hrun, some_bind] at hr
        obtain rfl := Option.some.inj hr
        refine Ends.pure fun c hc => ⟨(hcopy c hc).verify, ?_⟩
        rw [hpairs]
        exact (hcopy c hc).pairs
    exact copyOptimized_narrowed hfull (hcond.mpr hnarrow) hends
  · intro hnot content
    dsimp only
    rw [some_bind]
    refine Ends.bind (copyOptimized_ends hfull fun hnarrow => hnot (hcond.mp hnarrow)) fun copy hcopy => ?_
    refine Ends.pure ⟨hpairs, hcopy.1, fun c hc => ⟨(hcopy.2 c hc).verify, ?_⟩⟩
    rw [← hpairs]
    exact (hcopy.2 c hc).pairs

end Copies

/-! ### Results -/

/-- The dict of the first `n` numbers, each of which is its own hash. -/
def rangeDict (n valloc hmask : ℕ) : Dict ℕ ℕ :=
  ⟨(List.range n).map fun i => ⟨i, some (i, i)⟩, valloc, n, hmask,
    (List.range (hmask + 1)).map fun i => if i < n then i + 1 else 0, false⟩

theorem rangeDict_sound {n valloc hmask k : ℕ} (hn : n ≤ valloc) (hvalloc : valloc ≤ hmask) (hk : k ≤ 64)
    (hpow : hmask + 1 = 2 ^ k) : (rangeDict n valloc hmask).Sound := by
  have hlt : hmask < 2 ^ 64 := by
    have : 2 ^ k ≤ 2 ^ 64 := Nat.pow_le_pow_right Nat.two_pos hk
    omega
  have hcell : ∀ i, cell (rangeDict n valloc hmask).htab i = if i < n then i + 1 else 0 := by
    intro i
    unfold rangeDict cell
    rw [List.getD_eq_getElem?_getD, List.getElem?_map]
    rcases Nat.lt_or_ge i (hmask + 1) with hi | hi
    · rw [List.getElem?_range hi]
      rfl
    · rw [List.getElem?_eq_none (by rw [List.length_range]; exact hi), if_neg (by omega)]
      rfl
  refine ⟨⟨⟨?_, ?_, hvalloc, k, hk, hpow⟩, ?_, fun i => ?_, ⟨n, hn.trans hvalloc, ?_⟩, fun i item hitem _ => ?_⟩,
    fun item hitem => ?_, ?_, fun h => (Bool.false_ne_true h).elim⟩
  · show n = ((List.range n).map fun i => (⟨i, some (i, i)⟩ : DictItem ℕ ℕ)).countP fun item => !item.deleted
    rw [List.countP_map]
    exact ((List.countP_eq_length.mpr fun _ _ => rfl).trans List.length_range).symm
  · show ((List.range n).map _).length ≤ valloc
    rw [List.length_map, List.length_range]
    exact hn
  · show ((List.range (hmask + 1)).map _).length = hmask + 1
    rw [List.length_map, List.length_range]
  · rw [hcell]
    show _ ≤ ((List.range n).map _).length
    rw [List.length_map, List.length_range]
    split_ifs
    · omega
    · omega
  · rw [hcell, if_neg (lt_irrefl n)]
  · obtain ⟨hi, rfl⟩ : i < n ∧ item = ⟨i, some (i, i)⟩ := by
      change ((List.range n).map _)[i]? = some item at hitem
      rw [List.getElem?_map, Option.map_eq_some_iff] at hitem
      obtain ⟨j, hj, rfl⟩ := hitem
      obtain ⟨hlt, hget⟩ := List.getElem?_eq_some_iff.mp hj
      rw [List.getElem_range] at hget
      rw [List.length_range] at hlt
      exact ⟨hlt, by rw [hget]⟩
    -- the probe starts at the slot of the item
    have hindex : htabIndex hmask i 0 = i := by
      have hle : i < 2 ^ k := by omega
      have hand : i &&& hmask = i := by
        rw [show hmask = 2 ^ k - 1 by omega, Nat.and_two_pow_sub_one_eq_mod, Nat.mod_eq_of_lt hle]
      show (i &&& hmask) &&& hmask = i
      rw [hand, hand]
    refine ⟨0, ?_, fun m hm => absurd hm (Nat.not_lt_zero m)⟩
    show cell (rangeDict n valloc hmask).htab (htabIndex hmask i 0) = i + 1
    rw [hindex, hcell, if_pos hi]
  · obtain ⟨i, hi, rfl⟩ := List.mem_map.mp hitem
    have := List.mem_range.mp hi
    exact lt_of_lt_of_le this (by omega)
  · have hpairs : (rangeDict n valloc hmask).pairs.map Prod.fst = List.range n := by
      unfold rangeDict Dict.pairs
      rw [List.filterMap_map, List.map_filterMap]
      exact List.filterMap_some
    rw [hpairs]
    exact List.nodup_range

/-- The empty set. -/
def emptySet (κ : Type) : Dict κ Unit := ⟨[], 0, 0, 0, [0], true⟩

/-- All four copies are right for the same sources: those whose hash table need not become one width narrower. -/
theorem copiesExactly_iff (dbg : Bool) (answers : CopyAnswers) (d : Dict κ ν) (s : Dict κ Unit) (hd : d.Sound)
    (hs : s.Sound) :
    (CopiesExactly id (fun content => dictInitFromcopy dbg answers content d) answers d ↔ ¬NarrowedByOne answers d) ∧
    (CopiesExactly (fun _ => ()) (fun content => dictInitFromcopyKeysonly dbg answers content d) answers d ↔
      ¬NarrowedByOne answers d) ∧
    (CopiesExactly (fun _ => ()) (fun content => dictInitFromhashsetKeysonly dbg answers content s) answers s ↔
      ¬NarrowedByOne answers s) ∧
    (CopiesExactly id (fun content => hashsetInitFromcopy dbg answers content s) answers s ↔
      ¬NarrowedByOne answers s) :=
  ⟨initFromcopy_iff hd, initFromcopy_iff hd, initFromcopy_iff hs, initFromcopy_iff hs⟩

/-- A dict of three items, and the empty set. -/
theorem copiesExactly_iff_threeItems :
    (CopiesExactly id (fun content => dictInitFromcopy true ⟨true, true, true⟩ content (rangeDict 3 4 7)) ⟨true, true, true⟩
      (rangeDict 3 4 7) ↔ ¬NarrowedByOne ⟨true, true, true⟩ (rangeDict 3 4 7)) ∧
    (CopiesExactly (fun _ => ()) (fun content => dictInitFromcopyKeysonly true ⟨true, true, true⟩ content (rangeDict 3 4 7))
      ⟨true, true, true⟩ (rangeDict 3 4 7) ↔ ¬NarrowedByOne ⟨true, true, true⟩ (rangeDict 3 4 7)) ∧
    (CopiesExactly (fun _ => ()) (fun content => dictInitFromhashsetKeysonly true ⟨true, true, true⟩ content (emptySet ℕ))
      ⟨true, true, true⟩ (emptySet ℕ) ↔ ¬NarrowedByOne ⟨true, true, true⟩ (emptySet ℕ)) ∧
    (CopiesExactly id (fun content => hashsetInitFromcopy true ⟨true, true, true⟩ content (emptySet ℕ)) ⟨true, true, true⟩
      (emptySet ℕ) ↔ ¬NarrowedByOne ⟨true, true, true⟩ (emptySet ℕ)) :=
  copiesExactly_iff true ⟨true, true, true⟩ (rangeDict 3 4 7) (emptySet ℕ)
    (rangeDict_sound (k := 3) (by decide) (by decide) (by decide) rfl) emptyDict_sound

/-- 250 items in tables for 350 are copied to tables for 250, with the same mask and 8-bit instead of 16-bit words. -/
theorem copiesExactly_fails : (rangeDict 250 350 511).Sound ∧
    ¬CopiesExactly id (fun content => dictInitFromcopy false ⟨true, true, true⟩ content (rangeDict 250 350 511))
      ⟨true, true, true⟩ (rangeDict 250 350 511) := by
  have hsound : (rangeDict 250 350 511).Sound :=
    rangeDict_sound (k := 9) (by decide) (by decide) (by decide) rfl
  refine ⟨hsound, fun h => ?_⟩
  refine (initFromcopy_iff hsound).mp h ⟨?_, 250, ?_, ?_⟩
  · show dictHmaskFromCount 250 = 511
    decide
  · show CopyAnswers.copyValloc ⟨true, true, true⟩ 350 511 250 = some 250
    decide
  · show hidxioFromValloc 250 + 1 = hidxioFromValloc 350
    decide

end Deemon.Collections
