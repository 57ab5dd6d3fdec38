import Deemon.Collections.SeqRange

/-!
# Splicing lists

`list_setrange_index`, `list_setrange_index_n`, `DeeList_InsertSequence` and `DeeList_AppendSequence` replace a range of
a list by other items. Where the items can be written to a vector while the list is locked (`tp_asvector_nothrow`), room
is made for as many as `DeeObject_SizeFast` announced, and the call tells how many there are; else they are collected in
a vector first. Each of the functions is a sequence of sections in which the list is locked; in between, other threads may
change it.

The four functions differ in the range. Where there is nothing behind the range, or nothing in it, those for which this is
always so leave out to move no elements, or to remember none.
-/

namespace Deemon.Collections

open Deemon.Run

/-! ### Vectors -/

section Vectors

variable {α : Type}

/-- `memmovec(l + d, l + s, n)`. -/
def memmove (l : List α) (d s n : ℕ) : Option (List α) :=
  if n = 0 then some l
  else if s + n ≤ l.length ∧ d + n ≤ l.length then some (l.take d ++ (l.drop s).take n ++ l.drop (d + n))
  else none

/-- `memcpyc(l + d, v, n)`. -/
def memcpy (l : List α) (d : ℕ) (v : List α) : Option (List α) :=
  if d + v.length ≤ l.length then some (l.take d ++ v ++ l.drop (d + v.length)) else none

/-- `struct Dee_objectlist`: the vector, as long as its usable size, and the number of used entries. -/
structure ObjectList (α : Type) where
  elemv : List (Option α)
  elemc : ℕ

/-- `Dee_objectlist_elemv_tryrealloc` to a larger size. -/
def ObjectList.realloc (me : ObjectList α) (elema : ℕ) : ObjectList α :=
  { me with elemv := me.elemv ++ List.replicate (elema - me.elemv.length) none }

/-- The loop that doubles the allocation, in `size_t`. It does not end if the size gets 0. -/
def moreAlloc (oldElema minElema : ℕ) : Option ℕ :=
  loop (fun newElema =>
    let newElema := newElema * 2 % 2 ^ 64
    some (if newElema < minElema then .next newElema else .done newElema)) 65 (max oldElema 8)

/-- The answer of `tp_asvector_nothrow`: items that fit, or a greater size, and what is in `dst` then. -/
inductive AsVector (α : Type) where
  | filled (items : List α)
  | tooShort (itemsSize : ℕ) (dst : List (Option α))

/-- What a section gets from outside: memory (of a usable size that is greater by this much) and items. -/
structure Answers (α : Type) where
  tryrealloc : Option ℕ
  tryreallocMin : Option ℕ
  malloc : Option ℕ
  tryMallocDelete : Bool
  mallocDelete : Bool
  collectMemory : Bool
  insertSlack : ℕ
  asvector : AsVector α

/-- Where a call is between the sections. -/
inductive SplicePlace (α : Type) where
  /-- `again_with_tp_asvector_nothrow`. -/
  | againAsVector (itemsSizeFast : ℕ)
  /-- Has allocated a new vector without the lock. -/
  | newVector (itemsSizeFast newElema usable : ℕ)
  /-- Has allocated `delete_v` without the lock. -/
  | newDelete (itemsSizeFast : ℕ) (range : ℕ × ℕ) (curElema minElema : ℕ)
  /-- `again`, with the items in `insert_v`. -/
  | again (insertV : List α)
  /-- `list_delrange_index`. -/
  | delrange
  /-- Returns after the references in `delete_v` were dropped. -/
  | done (deleteV : List (Option α))
  | failed

/-! ### Sections -/

/-- The range in which a list is changed, and what is checked after `delete_v` was allocated without the lock. -/
structure SpliceRange where
  range : ℕ → ℕ × ℕ
  unchanged : (old : ℕ × ℕ) → (minElema itemsSizeFast size : ℕ) → Bool

/-- `delete_v` is filled, the trailing objects are shifted, and the items are written. -/
def asVectorSection (itemsSizeFast : ℕ) (range : ℕ × ℕ) (asvector : AsVector α) (me : ObjectList α) :
    Option (ObjectList α × SplicePlace α) := do
  let deleteC := range.2 - range.1
  let deleteV := (me.elemv.drop range.1).take deleteC
  let numTrailing := me.elemc - range.2
  let elemv ← (if deleteC ≠ itemsSizeFast then memmove me.elemv (range.1 + itemsSizeFast) range.2 numTrailing
    else some me.elemv)
  match asvector with
  | .filled items => do
    let elemv ← memcpy elemv range.1 (items.map some)
    some ({ elemv := elemv, elemc := range.1 + items.length + numTrailing }, .done deleteV)
  | .tooShort itemsSize dst => do
    let elemv ← memcpy elemv range.1 dst
    let elemv ← (if deleteC ≠ itemsSizeFast then memmove elemv range.2 (range.1 + itemsSizeFast) numTrailing
      else some elemv)
    some ({ me with elemv := elemv }, .againAsVector itemsSize)

/-- From `delete_v` on. -/
def deleteSection (itemsSizeFast : ℕ) (range : ℕ × ℕ) (curElema minElema : ℕ) (answers : Answers α) (me : ObjectList α) :
    Option (ObjectList α × SplicePlace α) :=
  if 0 < range.2 - range.1 ∧ answers.tryMallocDelete = false then
    if answers.mallocDelete then some (me, .newDelete itemsSizeFast range curElema minElema) else some (me, .failed)
  else asVectorSection itemsSizeFast range answers.asvector me

/-- The section at `again_with_tp_asvector_nothrow`. -/
def fastSection (f : SpliceRange) (itemsSizeFast : ℕ) (answers : Answers α) (me : ObjectList α) :
    Option (ObjectList α × SplicePlace α) :=
  let range := f.range me.elemc
  let minElema := me.elemc - (range.2 - range.1) + itemsSizeFast
  let curElema := me.elemv.length
  if 2 ^ 64 ≤ minElema then some (me, .failed)
  else if curElema < minElema then do
    let newElema ← moreAlloc curElema minElema
    match answers.tryrealloc, answers.tryreallocMin, answers.malloc with
    | some slack, _, _ =>
      deleteSection itemsSizeFast range curElema minElema answers (me.realloc (newElema + slack))
    | none, some slack, _ =>
      deleteSection itemsSizeFast range curElema minElema answers (me.realloc (minElema + slack))
    | none, none, some slack => some (me, .newVector itemsSizeFast minElema (minElema + slack))
    | none, none, none => some (me, .failed)
  else deleteSection itemsSizeFast range curElema minElema answers me

/-- The section that puts in place a vector that was allocated without the lock. -/
def newVectorSection (itemsSizeFast newElema usable : ℕ) (me : ObjectList α) : ObjectList α × SplicePlace α :=
  if me.elemv.length < newElema then
    ({ me with elemv := me.elemv.take me.elemc ++ List.replicate (usable - me.elemc) none }, .againAsVector itemsSizeFast)
  else (me, .againAsVector itemsSizeFast)

/-- The section after `delete_v` was allocated without the lock. -/
def newDeleteSection (f : SpliceRange) (itemsSizeFast : ℕ) (range : ℕ × ℕ) (curElema minElema : ℕ) (answers : Answers α)
    (me : ObjectList α) : Option (ObjectList α × SplicePlace α) :=
  if f.unchanged range minElema itemsSizeFast me.elemc ∧ curElema = me.elemv.length then
    asVectorSection itemsSizeFast range answers.asvector me
  else some (me, .againAsVector itemsSizeFast)

/-- The items of `insert_v` are written. -/
def writeSection (range : ℕ × ℕ) (insertV : List α) (answers : Answers α) (me : ObjectList α) :
    Option (ObjectList α × SplicePlace α) :=
  let deleteC := range.2 - range.1
  if deleteC = 0 then do
    let elemv ← memmove me.elemv (range.1 + insertV.length) range.1 (me.elemc - range.1)
    let elemv ← memcpy elemv range.1 (insertV.map some)
    some ({ elemv := elemv, elemc := me.elemc + insertV.length }, .done [])
  else if answers.tryMallocDelete = false then
    some (me, if answers.collectMemory then .again insertV else .failed)
  else do
    let deleteV := (me.elemv.drop range.1).take deleteC
    let elemv ← (if range.1 + insertV.length ≠ range.2 then
      memmove me.elemv (range.1 + insertV.length) range.2 (me.elemc - range.2) else some me.elemv)
    let elemv ← memcpy elemv range.1 (insertV.map some)
    some ({ elemv := elemv, elemc := me.elemc - deleteC + insertV.length }, .done deleteV)

/-- The section at `again`. -/
def slowSection (f : SpliceRange) (insertV : List α) (answers : Answers α) (me : ObjectList α) :
    Option (ObjectList α × SplicePlace α) :=
  let range := f.range me.elemc
  let deleteC := range.2 - range.1
  let minElema := me.elemc - deleteC + insertV.length
  if deleteC = me.elemc then
    some (⟨insertV.map some ++ List.replicate answers.insertSlack none, insertV.length⟩, .done (me.elemv.take me.elemc))
  else if deleteC < insertV.length ∧ me.elemv.length < minElema then do
    let newElema ← moreAlloc me.elemv.length minElema
    match answers.tryrealloc, answers.tryreallocMin with
    | some slack, _ => writeSection range insertV answers (me.realloc (newElema + slack))
    | none, some slack => writeSection range insertV answers (me.realloc (minElema + slack))
    | none, none => some (me, if answers.collectMemory then .again insertV else .failed)
  else writeSection range insertV answers me

/-- The section of `list_delrange_index`. -/
def delrangeSection (f : SpliceRange) (answers : Answers α) (me : ObjectList α) : Option (ObjectList α × SplicePlace α) :=
  let range := f.range me.elemc
  let deleteC := range.2 - range.1
  if deleteC = 0 then some (me, .done [])
  else if answers.tryMallocDelete = false then some (me, if answers.collectMemory then .delrange else .failed)
  else do
    let deleteV := (me.elemv.drop range.1).take deleteC
    let elemv ← memmove me.elemv range.1 range.2 (me.elemc - range.2)
    some ({ elemv := elemv, elemc := me.elemc - deleteC }, .done deleteV)

/-- The next section of a call. -/
def spliceSection (f : SpliceRange) (answers : Answers α) (me : ObjectList α) :
    SplicePlace α → Option (ObjectList α × SplicePlace α)
  | .againAsVector itemsSizeFast => fastSection f itemsSizeFast answers me
  | .newVector itemsSizeFast newElema usable => some (newVectorSection itemsSizeFast newElema usable me)
  | .newDelete itemsSizeFast range curElema minElema => newDeleteSection f itemsSizeFast range curElema minElema answers me
  | .again insertV => slowSection f insertV answers me
  | .delrange => delrangeSection f answers me
  | .done _ => none
  | .failed => none

/-- Where a call starts: with the announced size, or with the items of `DeeSeq_AsHeapVector`. -/
def spliceStart : ℕ ⊕ List α → SplicePlace α
  | .inl itemsSizeFast => if itemsSizeFast = 0 then .delrange else .againAsVector itemsSizeFast
  | .inr insertV => if insertV = [] then .delrange else .again insertV

end Vectors

/-! ### The functions -/

/-- `list_setrange_index`. -/
def listSetrangeIndex (start stop : ℤ) : SpliceRange where
  range := seqRangeClamp start stop
  unchanged := fun old minElema itemsSizeFast size =>
    seqRangeClamp start stop size = old ∧ minElema = size - (old.2 - old.1) + itemsSizeFast

/-- `list_setrange_index_n`; only the elements from `start` on are checked to be as many as before. -/
def listSetrangeIndexN (start : ℤ) : SpliceRange where
  range := fun size => (seqRangeClampN start size, size)
  unchanged := fun old _ _ size => old.1 = seqRangeClampN old.1 size ∧ size = old.1 + (old.2 - old.1)

/-- `DeeList_InsertSequence`. -/
def deeListInsertSequence (index : ℕ) : SpliceRange where
  range := fun size => (if size < index then size else index, if size < index then size else index)
  unchanged := fun _ _ _ _ => true

/-- `DeeList_AppendSequence`. -/
def deeListAppendSequence : SpliceRange where
  range := fun size => (size, size)
  unchanged := fun _ _ _ _ => true

end Deemon.Collections
