import Mathlib.Data.Multiset.AddSub
import Deemon.Lib.WeakOrder

/-!
# Sorting of sequences

The functions behind `DeeSeq_SortVector`, `DeeSeq_SortGetItemIndexFast` and `DeeSeq_SortTryGetItemIndex`, each with
and without a key: the merge sort over two buffers, the merge sort with a cache of keys, the insertion sort used when
there is no memory for the buffers, and the choice among them.

A run holds references. It also calls out, to an item getter, to the key function and to the comparison, and any such
call may fail. A run that uses an unbound slot as an object, or that drops a reference it does not hold, crashes.
-/

namespace Deemon.Seq

open Deemon.WeakOrder

/-! ### Runs -/

/-- What a run changes: the calls out that still succeed (`none`: all of them), whether one has failed, and the
references that the run holds. -/
structure World (α : Type) where
  budget : Option ℕ
  failed : Bool
  live : Multiset α

/-- A run; `none` is a crash. -/
abbrev SortM (α β : Type) := StateT (World α) Option β

/-- An item of a sequence, or an unbound slot. -/
abbrev Slot (α : Type) := Option α

variable {α β σ : Type} [DecidableEq α]

/-- Undefined behaviour. -/
def crash : SortM α β := fun _ => none

/-- A call out; whether it succeeds. -/
def callOut : SortM α Bool := fun w =>
  match w.budget with
  | none => some (true, w)
  | some 0 => some (false, { w with failed := true })
  | some (n + 1) => some (true, { w with budget := some n })

/-- `Dee_Incref`. -/
def incref (ob : α) : SortM α Unit := fun w => some ((), { w with live := ob ::ₘ w.live })

/-- `Dee_Decref`. -/
def decref (ob : α) : SortM α Unit := fun w =>
  if ob ∈ w.live then some ((), { w with live := w.live.erase ob }) else none

/-- A new reference to what is in a slot. -/
def increfSlot : Slot α → SortM α Unit
  | none => pure ()
  | some ob => incref ob

/-- `LOCAL_DecrefIfNotUnbound`. -/
def decrefIfNotUnbound : Slot α → SortM α Unit
  | none => pure ()
  | some ob => decref ob

/-- `LOCAL_DecrefvIfNotUnbound`. -/
def decrefvIfNotUnbound : List (Slot α) → SortM α Unit
  | [] => pure ()
  | ob :: obs => do
    decrefIfNotUnbound ob
    decrefvIfNotUnbound obs

/-! ### Calls of objects -/

/-- `DeeObject_Call(key, 1, &ob)`: `none` when the call fails. -/
def deeObjectCall (key : α → α) : Slot α → SortM α (Option α)
  | none => crash
  | some ob => do
    if ← callOut then
      incref (key ob)
      pure (some (key ob))
    else pure none

/-- `DeeObject_CmpLoAsBool`: `none` is `-1`. -/
def deeObjectCmpLoAsBool (lt : α → α → Bool) : Slot α → Slot α → SortM α (Option Bool)
  | some lhs, some rhs => do
    if ← callOut then pure (some (lt lhs rhs)) else pure none
  | _, _ => crash

/-- `DeeObject_CmpLoAsBoolWithKey`. -/
def deeObjectCmpLoAsBoolWithKey (lt : α → α → Bool) (key : α → α) (lhs rhs : Slot α) : SortM α (Option Bool) := do
  match ← deeObjectCall key lhs with
  | none => pure none
  | some lhs =>
    match ← deeObjectCall key rhs with
    | none => do
      decref lhs
      pure none
    | some rhs => do
      let result ← deeObjectCmpLoAsBool lt (some lhs) (some rhs)
      decref rhs
      decref lhs
      pure result

/-! ### Sources -/

/-- Where the items come from, one constructor for each pair of variants. -/
inductive Source (α : Type) where
  /-- A vector of objects, whose references the sort takes over. -/
  | vector (items : List α)
  /-- `getitem_index_fast`, which does not fail. -/
  | getItemIndexFast (slots : List (Slot α))
  /-- `trygetitem_index`, which may. -/
  | tryGetItemIndex (slots : List (Slot α))

/-- `LOCAL_HAS_GETITEM`: with it come `LOCAL_GETITEM_ISREF` and `LOCAL_GETITEM_UNBOUND`. -/
def Source.hasGetitem : Source α → Bool
  | .vector _ => false
  | _ => true

/-- The slots of the source. -/
def Source.slots : Source α → List (Slot α)
  | .vector items => items.map some
  | .getItemIndexFast slots => slots
  | .tryGetItemIndex slots => slots

/-- What a variant is called with. -/
structure Args (α : Type) where
  src : Source α
  key : Option (α → α)
  lt : α → α → Bool

/-- `LOCAL_GETITEM`: the outer `none` is `LOCAL_GETITEM_ERROR`. -/
def Args.getitem (args : Args α) (i : ℕ) : SortM α (Option (Slot α)) :=
  match args.src with
  | .vector items =>
    match items[i]? with
    | some ob => pure (some (some ob))
    | none => crash
  | .getItemIndexFast slots =>
    match slots[i]? with
    | some ob => do
      increfSlot ob
      pure (some ob)
    | none => crash
  | .tryGetItemIndex slots =>
    match slots[i]? with
    | some ob => do
      if ← callOut then
        increfSlot ob
        pure (some ob)
      else pure none
    | none => crash

/-- `LOCAL_DeeObject_CmpLoAsBool`. -/
def Args.cmpLoAsBool (args : Args α) (lhs rhs : Slot α) : SortM α (Option Bool) :=
  match args.key with
  | none => deeObjectCmpLoAsBool args.lt lhs rhs
  | some key => deeObjectCmpLoAsBoolWithKey args.lt key lhs rhs

/-- A comparison behind the checks of `LOCAL_GETITEM_UNBOUND`: an unbound slot is less than an item. -/
def Args.cmpSlots (args : Args α) (cmp : Slot α → Slot α → SortM α (Option Bool)) (lhs rhs : Slot α) :
    SortM α (Option Bool) :=
  if args.src.hasGetitem then
    match lhs, rhs with
    | none, none => pure (some false)
    | none, some _ => pure (some true)
    | some _, none => pure (some false)
    | some _, some _ => cmp lhs rhs
  else cmp lhs rhs

/-- `LOCAL_IF_GETITEM_ISREF(LOCAL_DecrefvIfNotUnbound(obs))`. -/
def Args.decrefvIfRef (args : Args α) (obs : List (Slot α)) : SortM α Unit :=
  if args.src.hasGetitem then decrefvIfNotUnbound obs else pure ()

/-! ### Merge sort -/

/-- What the two merge sorts do differently; `σ` is what they keep of an item. -/
structure Layout (α σ : Type) where
  /-- Item `i`, of a part of one item. -/
  load1 : ℕ → SortM α (Option σ)
  /-- Items `i` and `i + 1`, of a part of two, and whether the first is less. -/
  load2 : ℕ → SortM α (Option (σ × σ × Bool))
  /-- The comparison of a merge. -/
  cmp : σ → σ → SortM α (Option Bool)
  /-- The end of the references in a part of a buffer. -/
  drop : List σ → SortM α Unit

/-- The cells `off, …, off + n - 1` of a buffer. -/
def slice (buf : ℕ → σ) (off : ℕ) : ℕ → List σ
  | 0 => []
  | n + 1 => buf off :: slice buf (off + 1) n

/-- `memcpyc(dst + d, src + s, n)`. -/
def memcpyc (dst : ℕ → σ) (d : ℕ) (src : ℕ → σ) (s n : ℕ) : ℕ → σ := fun j =>
  if d ≤ j ∧ j < d + n then src (s + (j - d)) else dst j

/-- The loop of a merge and the copy after it: `none` when a comparison fails. -/
def mergeLoop (layout : Layout α σ) (scratch : ℕ → σ) :
    ℕ → (iter1 s1 iter2 s2 out : ℕ) → (dst : ℕ → σ) → SortM α (Option (ℕ → σ))
  | 0, _, _, _, _, _, _ => crash
  | fuel + 1, iter1, s1, iter2, s2, out, dst =>
    if s1 ≠ 0 ∧ s2 ≠ 0 then do
      match ← layout.cmp (scratch iter1) (scratch iter2) with
      | none => pure none
      | some false => do
        let dst := Function.update dst out (scratch iter2)
        mergeLoop layout scratch fuel iter1 s1 (iter2 + 1) (s2 - 1) (out + 1) dst
      | some true => do
        let dst := Function.update dst out (scratch iter1)
        mergeLoop layout scratch fuel (iter1 + 1) (s1 - 1) iter2 s2 (out + 1) dst
    else if s1 ≠ 0 then pure (some (memcpyc dst out scratch iter1 s1))
    else pure (some (memcpyc dst out scratch iter2 s2))

/-- Both merge sorts, over the items from `off` on. `bufs d` is the destination and `bufs (!d)` the scratch buffer; the
recursion sorts both halves into the scratch buffer. -/
def mergeSortWith (layout : Layout α σ) :
    ℕ → (objc off : ℕ) → (d : Bool) → (bufs : Bool → ℕ → σ) → SortM α (Bool × (Bool → ℕ → σ))
  | 0, _, _, _, _ => crash
  | fuel + 1, objc, off, d, bufs =>
    if objc = 1 then do
      match ← layout.load1 off with
      | none => pure (false, bufs)
      | some src0 => pure (true, Function.update bufs d (Function.update (bufs d) off src0))
    else if objc = 2 then do
      match ← layout.load2 off with
      | none => pure (false, bufs)
      | some (src0, src1, src0LoSrc1) =>
        if src0LoSrc1 then
          pure (true, Function.update bufs d (Function.update (Function.update (bufs d) off src0) (off + 1) src1))
        else
          pure (true, Function.update bufs d (Function.update (Function.update (bufs d) off src1) (off + 1) src0))
    else do
      let s1 := objc / 2
      let s2 := objc - s1
      let (ok, bufs) ← mergeSortWith layout fuel s1 off (!d) bufs
      if !ok then pure (false, bufs)
      else do
        let (ok, bufs) ← mergeSortWith layout fuel s2 (off + s1) (!d) bufs
        if !ok then do
          layout.drop (slice (bufs (!d)) off s1)
          pure (false, bufs)
        else
          match ← mergeLoop layout (bufs (!d)) (objc + 1) off s1 (off + s1) s2 off (bufs d) with
          | none => do
            layout.drop (slice (bufs (!d)) off objc)
            pure (false, bufs)
          | some dst => pure (true, Function.update bufs d dst)

/-- The parts of `LOCAL_mergesort_impl`. -/
def mergesortLayout (args : Args α) : Layout α (Slot α) where
  load1 := args.getitem
  load2 i := do
    match ← args.getitem i with
    | none => pure none
    | some src0 =>
      match ← args.getitem (i + 1) with
      | none => do
        args.decrefvIfRef [src0]
        pure none
      | some src1 =>
        match ← args.cmpSlots args.cmpLoAsBool src0 src1 with
        -- the references to both items are not dropped
        | none => pure none
        | some src0LoSrc1 => pure (some (src0, src1, src0LoSrc1))
  cmp := args.cmpSlots args.cmpLoAsBool
  drop := args.decrefvIfRef

/-- `LOCAL_mergesort_impl`. -/
def mergesortImpl (args : Args α) (objc : ℕ) (bufs : Bool → ℕ → Slot α) : SortM α (Bool × (Bool → ℕ → Slot α)) :=
  mergeSortWith (mergesortLayout args) objc objc 0 false bufs

/-- The key of a slot; that of an unbound one is unbound. -/
def Args.keyOf (args : Args α) (key : α → α) (ob : Slot α) : SortM α (Option (Slot α)) :=
  if args.src.hasGetitem ∧ ob = none then pure (some none)
  else do
    match ← deeObjectCall key ob with
    | none => pure none
    | some keyed => pure (some (some keyed))

/-- The parts of `LOCAL_mergesort_impl_with_key_cache`; a slot is kept with its key. -/
def keyCacheLayout (args : Args α) (key : α → α) : Layout α (Slot α × Slot α) where
  load1 i := do
    match ← args.getitem i with
    | none => pure none
    | some src0 =>
      match ← args.keyOf key src0 with
      | none => do
        args.decrefvIfRef [src0]
        pure none
      | some src0Keyed => pure (some (src0, src0Keyed))
  load2 i := do
    match ← args.getitem i with
    | none => pure none
    | some src0 =>
      match ← args.getitem (i + 1) with
      | none => do
        args.decrefvIfRef [src0]
        pure none
      | some src1 =>
        -- the four cases of the source make the calls of these lines that are about bound slots
        match ← args.keyOf key src0 with
        | none => do
          args.decrefvIfRef [src1, src0]
          pure none
        | some src0Keyed =>
          match ← args.keyOf key src1 with
          | none => do
            decrefIfNotUnbound src0Keyed
            args.decrefvIfRef [src1, src0]
            pure none
          | some src1Keyed =>
            match ← args.cmpSlots (deeObjectCmpLoAsBool args.lt) src0Keyed src1Keyed with
            -- the references to both items and to both keys are not dropped
            | none => pure none
            | some src0LoSrc1 => pure (some ((src0, src0Keyed), (src1, src1Keyed), src0LoSrc1))
  cmp lhs rhs := args.cmpSlots (deeObjectCmpLoAsBool args.lt) lhs.2 rhs.2
  drop cells := do
    args.decrefvIfRef (cells.map Prod.fst)
    decrefvIfNotUnbound (cells.map Prod.snd)

/-- `LOCAL_mergesort_impl_with_key_cache`. -/
def mergesortImplWithKeyCache (args : Args α) (key : α → α) (objc : ℕ) (bufs : Bool → ℕ → Slot α × Slot α) :
    SortM α (Bool × (Bool → ℕ → Slot α × Slot α)) :=
  mergeSortWith (keyCacheLayout args key) objc objc 0 false bufs

/-! ### Insertion sort -/

/-- The search of `LOCAL_insertsort_impl` for the place of `ob`, from `dst[j]` on: `none` on an error. -/
def Args.insertPlace (args : Args α) (ob : Slot α) : List (Slot α) → ℕ → SortM α (Option ℕ)
  | [], j => pure (some j)
  | dstJ :: dst, j =>
    match args.key with
    | some key => do
      match ← deeObjectCall key dstJ with
      | none => pure none
      | some keyedDstJ => do
        -- compared is the item and not its key
        let temp ← deeObjectCmpLoAsBool args.lt ob (some keyedDstJ)
        decref keyedDstJ
        match temp with
        | none => pure none
        | some true => pure (some j)
        | some false => args.insertPlace ob dst (j + 1)
    | none => do
      match ← deeObjectCmpLoAsBool args.lt ob dstJ with
      | none => pure none
      | some true => pure (some j)
      | some false => args.insertPlace ob dst (j + 1)

/-- The index `j` at which an item is inserted. -/
def Args.insertIndex (args : Args α) (ob : Slot α) (dst : List (Slot α)) : SortM α (Option ℕ) :=
  if args.src.hasGetitem ∧ ob = none then pure (some 0)
  else
    match args.key with
    | none => args.insertPlace ob dst 0
    | some key => do
      match ← deeObjectCall key ob with
      | none => do
        args.decrefvIfRef [ob]
        pure none
      | some keyedOb =>
        match ← args.insertPlace ob dst 0 with
        | none => do
          decref keyedOb
          pure none
        -- the reference to the key is not dropped
        | some j => pure (some j)

/-- The loop of `LOCAL_insertsort_impl`; `dst` is the part already written. -/
def Args.insertLoop (args : Args α) : ℕ → (i : ℕ) → (dst : List (Slot α)) → SortM α (Option (List (Slot α)))
  | 0, _, dst => pure (some dst)
  | n + 1, i, dst => do
    match ← args.getitem i with
    | none => do
      args.decrefvIfRef dst
      pure none
    | some ob =>
      match ← args.insertIndex ob dst with
      | none => do
        args.decrefvIfRef dst
        pure none
      | some j => args.insertLoop n (i + 1) (dst.insertIdx j ob)

/-- `LOCAL_insertsort_impl`. -/
def insertsortImpl (args : Args α) (objc : ℕ) : SortM α (Option (List (Slot α))) := args.insertLoop objc 0 []

/-! ### The choice -/

/-- The outcome of the two allocations of scratch buffers, and what the memory in use held before. -/
structure Memory (α : Type) where
  alloc3 : Bool
  alloc1 : Bool
  content : Bool → ℕ → Slot α

/-- `LOCAL_DeeSeq_Sort` for two items, where unbound slots are not looked for. -/
def sortTwo (args : Args α) : SortM α (Option (List (Slot α))) := do
  match ← args.getitem 0 with
  | none => pure none
  | some src0 =>
    match ← args.getitem 1 with
    | none => do
      args.decrefvIfRef [src0]
      pure none
    | some src1 =>
      match ← args.cmpLoAsBool src0 src1 with
      -- the references to both items are not dropped
      | none => pure none
      | some true => pure (some [src0, src1])
      | some false => pure (some [src1, src0])

/-- The sort without a key cache. -/
def sortUncached (args : Args α) (mem : Memory α) (objc : ℕ) : SortM α (Option (List (Slot α))) :=
  if mem.alloc1 then do
    let (ok, bufs) ← mergesortImpl args objc mem.content
    if ok then pure (some (slice (bufs false) 0 objc)) else pure none
  else insertsortImpl args objc

/-- The sort with a key cache. -/
def sortCached (args : Args α) (key : α → α) (mem : Memory α) (objc : ℕ) : SortM α (Option (List (Slot α))) := do
  let (ok, bufs) ← mergesortImplWithKeyCache args key objc fun d i => (mem.content d i, mem.content d i)
  if ok then do
    decrefvIfNotUnbound ((slice (bufs false) 0 objc).map Prod.snd)
    pure (some ((slice (bufs false) 0 objc).map Prod.fst))
  else pure none

/-- `LOCAL_DeeSeq_Sort`: the content of `dst`, or `none` for `-1`. -/
def deeSeqSort (args : Args α) (mem : Memory α) : SortM α (Option (List (Slot α))) :=
  match args.src.slots.length with
  | 0 => pure (some [])
  | 1 => do
    match ← args.getitem 0 with
    | none => pure none
    | some src0 => pure (some [src0])
  | 2 => sortTwo args
  | objc =>
    match args.key with
    | some key => if mem.alloc3 then sortCached args key mem objc else sortUncached args mem objc
    | none => sortUncached args mem objc

end Deemon.Seq
