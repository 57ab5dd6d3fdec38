import Deemon.Lib.Run

/-!
# Deques

`Deque` keeps its items in a chain of buckets of one size. A deque is empty, or has one bucket with free cells at
both ends, or has a head that is used up to its end, full buckets, and a tail that is used from its start. Locks,
versions and references are left out, and memory does not run out.
-/

namespace Deemon.Collections

open Deemon.Run

variable {α : Type}

/-- `db_items` of a bucket; a cell that was not written is `none`. -/
abbrev DequeBucket (α : Type) := List (Option α)

/-- `struct Deque`; the chain goes from `d_head` to `d_tail`. -/
structure Deque (α : Type) where
  dChain : List (DequeBucket α)
  dSize : ℕ
  dHeadIdx : ℕ
  dHeadUse : ℕ
  dTailSz : ℕ
  dBucketSz : ℕ
  deriving DecidableEq

/-- `TRY_NEW_BUCKET`, which gets its memory. Sizes whose bytes wrap `size_t`, from about 2 ^ 61 items on, are left out. -/
def tryNewBucket (bucketSize : ℕ) : DequeBucket α := List.replicate bucketSize none

/-- A counter going down, which must not wrap. -/
def decr : ℕ → Option ℕ
  | 0 => none
  | n + 1 => some n

/-- A read of `db_items[i]` of a bucket of the chain. -/
def Deque.read (self : Deque α) (b i : ℕ) : Option α :=
  match self.dChain[b]? with
  | some bucket => bucket[i]?.join
  | none => none

/-- A write `db_items[i] = item` to a bucket of the chain. -/
def Deque.write (self : Deque α) (b i : ℕ) (item : α) : Option (Deque α) :=
  match self.dChain[b]? with
  | some bucket =>
    if i < bucket.length then some { self with dChain := self.dChain.set b (bucket.set i (some item)) } else none
  | none => none

/-! ### Both ends -/

/-- `Deque_PushFront_unlocked`. -/
def Deque.pushFrontUnlocked (self : Deque α) (item : α) : Option (Deque α) := do
  assert (self.dHeadIdx < self.dBucketSz)
  assert (self.dHeadUse ≤ self.dBucketSz)
  assert (self.dTailSz ≤ self.dBucketSz)
  if self.dHeadIdx ≠ 0 then
    Deque.write { self with
      dHeadIdx := self.dHeadIdx - 1
      dSize := self.dSize + 1
      dHeadUse := self.dHeadUse + 1 } 0 (self.dHeadIdx - 1) item
  else if self.dChain ≠ [] then do
    assert (self.dChain.length = 1 → self.dSize ≤ self.dBucketSz)
    Deque.write { self with
      dChain := tryNewBucket self.dBucketSz :: self.dChain
      dHeadIdx := self.dBucketSz - 1
      dHeadUse := 1
      dTailSz := if self.dChain.length = 1 then self.dSize else self.dTailSz
      dSize := self.dSize + 1 } 0 (self.dBucketSz - 1) item
  else do
    assert (self.dSize = 0)
    assert (self.dTailSz = 0)
    Deque.write { self with
      dChain := [tryNewBucket self.dBucketSz]
      dHeadIdx := self.dBucketSz / 2
      dHeadUse := 1
      dSize := self.dSize + 1 } 0 (self.dBucketSz / 2) item

/-- The part of `Deque_PushBack_unlocked` that needs a new bucket. -/
def Deque.pushBackBucket (self : Deque α) (item : α) : Option (Deque α) :=
  if self.dChain = [] then do
    assert (self.dTailSz = 0)
    Deque.write { self with
      dChain := [tryNewBucket self.dBucketSz]
      dHeadIdx := self.dBucketSz / 2
      dHeadUse := 1
      dSize := self.dSize + 1 } 0 (self.dBucketSz / 2) item
  else
    Deque.write { self with
      dChain := self.dChain ++ [tryNewBucket self.dBucketSz]
      dTailSz := 1
      dSize := self.dSize + 1 } self.dChain.length 0 item

/-- `Deque_PushBack_unlocked`. -/
def Deque.pushBackUnlocked (self : Deque α) (item : α) : Option (Deque α) := do
  assert (self.dHeadIdx < self.dBucketSz)
  assert (self.dHeadUse ≤ self.dBucketSz)
  assert (self.dTailSz ≤ self.dBucketSz)
  if 2 ≤ self.dChain.length then
    if self.dTailSz < self.dBucketSz then
      Deque.write { self with dTailSz := self.dTailSz + 1, dSize := self.dSize + 1 } (self.dChain.length - 1)
        self.dTailSz item
    else self.pushBackBucket item
  else if self.dChain ≠ [] then do
    assert (self.dTailSz = 0)
    assert (self.dSize ≠ 0)
    assert (self.dHeadIdx + self.dHeadUse ≤ self.dBucketSz)
    if self.dHeadIdx + self.dHeadUse < self.dBucketSz then
      Deque.write { self with dHeadUse := self.dHeadUse + 1, dSize := self.dSize + 1 } 0
        (self.dHeadIdx + self.dHeadUse) item
    else self.pushBackBucket item
  else self.pushBackBucket item

/-- `Deque_PopFront_unlocked`. -/
def Deque.popFrontUnlocked (self : Deque α) : Option (Deque α × α) := do
  assert (self.dSize ≠ 0)
  let result ← self.read 0 self.dHeadIdx
  let size ← decr self.dSize
  let headUse ← decr self.dHeadUse
  if headUse = 0 then do
    assert (size = 0 ↔ self.dChain.length = 1)
    if self.dChain.length = 1 then
      some ({ self with dChain := [], dSize := size, dHeadIdx := 0, dHeadUse := 0 }, result)
    else if self.dChain.length = 2 then do
      assert (size ≤ self.dBucketSz)
      some ({ self with
        dChain := self.dChain.tail
        dSize := size
        dHeadIdx := 0
        dHeadUse := self.dTailSz
        dTailSz := 0 }, result)
    else
      some ({ self with
        dChain := self.dChain.tail
        dSize := size
        dHeadIdx := 0
        dHeadUse := self.dBucketSz }, result)
  else some ({ self with dSize := size, dHeadIdx := self.dHeadIdx + 1, dHeadUse := headUse }, result)

/-- `Deque_PopBack_unlocked`. -/
def Deque.popBackUnlocked (self : Deque α) : Option (Deque α × α) := do
  assert (self.dChain ≠ [])
  if self.dChain.length = 1 then do
    assert (self.dSize ≤ self.dBucketSz)
    assert (self.dSize = self.dHeadUse)
    assert (self.dTailSz = 0)
    let size ← decr self.dSize
    let headUse ← decr self.dHeadUse
    let result ← self.read 0 (self.dHeadIdx + headUse)
    if headUse = 0 then
      some ({ self with dChain := [], dSize := size, dHeadIdx := 0, dHeadUse := 0 }, result)
    else some ({ self with dSize := size, dHeadUse := headUse }, result)
  else do
    assert (self.dTailSz ≠ 0)
    let size ← decr self.dSize
    let tailSz ← decr self.dTailSz
    let result ← self.read (self.dChain.length - 1) tailSz
    if tailSz = 0 then
      if self.dChain.length = 2 then do
        assert (size ≤ self.dBucketSz)
        assert (self.dHeadIdx + self.dHeadUse = self.dBucketSz)
        assert (size = self.dHeadUse)
        some ({ self with dChain := self.dChain.dropLast, dSize := size, dTailSz := 0 }, result)
      else
        some ({ self with dChain := self.dChain.dropLast, dSize := size, dTailSz := self.dBucketSz }, result)
    else some ({ self with dSize := size, dTailSz := tailSz }, result)

/-! ### Positions -/

/-- The walk to the right end of `Deque_ItemPointer`, over the buckets before bucket `b`. -/
def searchRight (bucketSz : ℕ) : ℕ → ℕ → Option (ℕ × ℕ)
  | 0, _ => none
  | b + 1, rindex => if rindex ≤ bucketSz then some (b, bucketSz - rindex) else searchRight bucketSz b (rindex - bucketSz)

/-- The walk to the left, over the buckets after bucket `b`; `n` are left. -/
def searchLeft (bucketSz : ℕ) : (n b : ℕ) → ℕ → Option (ℕ × ℕ)
  | 0, _, _ => none
  | n + 1, b, index =>
    if index < bucketSz then some (b + 1, index) else searchLeft bucketSz n (b + 1) (index - bucketSz)

/-- `Deque_ItemPointer`: a bucket of the chain and a cell of it. -/
def Deque.itemPointer (self : Deque α) (index : ℕ) : Option (ℕ × ℕ) := do
  assert (index < self.dSize)
  if index < self.dHeadUse then some (0, self.dHeadIdx + index)
  else if self.dSize / 2 ≤ index then
    if self.dSize - index ≤ self.dTailSz then some (self.dChain.length - 1, self.dTailSz - (self.dSize - index))
    else searchRight self.dBucketSz (self.dChain.length - 1) (self.dSize - index - self.dTailSz)
  else searchLeft self.dBucketSz self.dChain.length 0 (index - self.dHeadUse)

/-- `DEQUE_ITEM(self, index)`. -/
def Deque.item (self : Deque α) (index : ℕ) : Option α := do
  let p ← self.itemPointer index
  self.read p.1 p.2

/-- The items at all positions, front to back. -/
def Deque.listing (self : Deque α) : Option (List α) := (List.range self.dSize).mapM self.item

/-- `struct DequeIterator`. -/
structure DequeIterator where
  diBucket : ℕ
  diIndex : ℕ

/-- `DequeIterator_InitBegin`. -/
def Deque.iterBegin (self : Deque α) : DequeIterator := ⟨0, self.dHeadIdx⟩

/-- `DequeIterator_InitRBegin`. -/
def Deque.iterRBegin (self : Deque α) : Option DequeIterator :=
  if self.dChain.length ≤ 1 then do
    assert (self.dHeadUse ≠ 0)
    some ⟨0, self.dHeadIdx + self.dHeadUse - 1⟩
  else do
    assert (self.dTailSz ≠ 0)
    some ⟨self.dChain.length - 1, self.dTailSz - 1⟩

/-- `DequeIterator_HasNext`. -/
def DequeIterator.hasNext (it : DequeIterator) (deq : Deque α) : Bool :=
  if it.diBucket ≠ deq.dChain.length - 1 then true
  else if 2 ≤ deq.dChain.length then it.diIndex + 1 < deq.dTailSz
  else it.diIndex + 1 < deq.dHeadIdx + deq.dHeadUse

/-- `DequeIterator_Prev`. -/
def DequeIterator.prev (it : DequeIterator) (deq : Deque α) : Option DequeIterator :=
  if it.diIndex = 0 then do
    let bucket ← decr it.diBucket
    some ⟨bucket, deq.dBucketSz - 1⟩
  else some ⟨it.diBucket, it.diIndex - 1⟩

/-- `DequeIterator_Next`. -/
def DequeIterator.next (it : DequeIterator) (deq : Deque α) : DequeIterator :=
  if deq.dBucketSz ≤ it.diIndex + 1 then ⟨it.diBucket + 1, 0⟩ else ⟨it.diBucket, it.diIndex + 1⟩

/-- `DequeIterator_NextItemPointer`. -/
def DequeIterator.nextItemPointer (it : DequeIterator) (deq : Deque α) : Option (ℕ × ℕ) := do
  assert (it.hasNext deq = true)
  if it.diIndex + 1 < deq.dBucketSz then some (it.diBucket, it.diIndex + 1) else some (it.diBucket + 1, 0)

/-! ### Rotation -/

/-- A round of the loop of `Deque_llrot_unlocked`. -/
def llrotStep (s : Deque α × DequeIterator) : Option (Deque α × DequeIterator) := do
  let p ← s.2.nextItemPointer s.1
  let next ← s.1.read p.1 p.2
  let self ← s.1.write s.2.diBucket s.2.diIndex next
  some (self, s.2.next self)

/-- `Deque_llrot_unlocked`. -/
def Deque.llrotUnlocked (self : Deque α) (numObjects : ℕ) : Option (Deque α) :=
  if numObjects ≤ 1 then some self
  else do
    assert (numObjects ≤ self.dSize)
    let lobj ← self.read self.iterBegin.diBucket self.iterBegin.diIndex
    let s ← forLoop (fun _ s => llrotStep s) 0 (numObjects - 2) (self, self.iterBegin)
    s.1.write s.2.diBucket s.2.diIndex lobj

/-- A round of the loop of `Deque_rrrot_unlocked`. -/
def rrrotStep (s : Deque α × DequeIterator) : Option (Deque α × DequeIterator) := do
  let it ← s.2.prev s.1
  let cur ← s.1.read it.diBucket it.diIndex
  let p ← it.nextItemPointer s.1
  let self ← s.1.write p.1 p.2 cur
  some (self, it)

/-- `Deque_rrrot_unlocked`. -/
def Deque.rrrotUnlocked (self : Deque α) (numObjects : ℕ) : Option (Deque α) :=
  if numObjects ≤ 1 then some self
  else do
    assert (numObjects ≤ self.dSize)
    let it ← self.iterRBegin
    let robj ← self.read it.diBucket it.diIndex
    let s ← forLoop (fun _ s => rrrotStep s) 0 (numObjects - 2) (self, it)
    s.1.write s.2.diBucket s.2.diIndex robj

/-! ### Any position -/

/-- `Deque_Insert_unlocked`; the size of an empty deque less one wraps. -/
def Deque.insertUnlocked (self : Deque α) (index : ℕ) (item : α) : Option (Deque α) := do
  assert (index ≤ self.dSize)
  if index = 0 then self.pushFrontUnlocked item
  else if index + 1 = self.dSize then self.pushBackUnlocked item
  else if index < self.dSize / 2 then do
    let self ← self.pushFrontUnlocked item
    self.llrotUnlocked (index + 1)
  else do
    let self ← self.pushBackUnlocked item
    self.rrrotUnlocked (self.dSize - index)

/-- `Deque_Pop_unlocked`. -/
def Deque.popUnlocked (self : Deque α) (index : ℕ) : Option (Deque α × α) := do
  assert (index < self.dSize)
  if index = 0 then self.popFrontUnlocked
  else if index + 1 = self.dSize then self.popBackUnlocked
  else if index < self.dSize / 2 then do
    let self ← self.llrotUnlocked (index + 1)
    self.popFrontUnlocked
  else do
    let self ← self.rrrotUnlocked (self.dSize - index)
    self.popBackUnlocked

/-- `Deque_Insert`. -/
def Deque.insert (self : Deque α) (index : ℕ) (item : α) : Option (Deque α) :=
  self.insertUnlocked (min index self.dSize) item

/-- The loop of `Deque_Erase` that pops from the left. -/
def Deque.eraseLeft (self : Deque α) (index count : ℕ) : Option (Deque α) :=
  forLoop (fun _ self => (self.popUnlocked index).map Prod.fst) 0 count self

/-- The loop of `Deque_Erase` that pops from the right. -/
def Deque.eraseRight (self : Deque α) (index count : ℕ) : Option (Deque α) :=
  forLoop (fun i self => (self.popUnlocked ((index + i + (2 ^ 64 - 1)) % 2 ^ 64)).map Prod.fst) 0 count self

/-- `Deque_Erase`. -/
def Deque.erase (self : Deque α) (index count : ℕ) : Option (Deque α) :=
  let index := min index self.dSize
  let result := min (self.dSize - index) count
  if index < self.dSize - index + result then self.eraseLeft index result else self.eraseRight index result

/-- A result and the deque after it; the result is `none` when an exception is thrown. -/
def withResult (r : Option (Deque α × α)) : Option (Deque α × Option α) := r.map fun r => (r.1, some r.2)

/-- `Deque_PopFront`. -/
def Deque.popFront (self : Deque α) : Option (Deque α × Option α) :=
  if self.dSize = 0 then some (self, none) else withResult self.popFrontUnlocked

/-- `Deque_PopBack`. -/
def Deque.popBack (self : Deque α) : Option (Deque α × Option α) :=
  if self.dSize = 0 then some (self, none) else withResult self.popBackUnlocked

/-- `Deque_Pop`. -/
def Deque.pop (self : Deque α) (index : ℕ) : Option (Deque α × Option α) :=
  if self.dSize ≤ index then
    if self.dSize = 0 then some (self, none) else withResult (self.popUnlocked (self.dSize - 1))
  else withResult (self.popUnlocked index)

/-- `Deque_Pops`, with the index as a `size_t` after the sum. -/
def Deque.pops (self : Deque α) (index : ℤ) : Option (Deque α × Option α) :=
  let index := ((if index < 0 then index + self.dSize else index) % 2 ^ 64).toNat
  if self.dSize ≤ index then
    if self.dSize = 0 then some (self, none) else withResult (self.popUnlocked self.dSize)
  else withResult (self.popUnlocked index)

/-- `deq_setitem_index`: whether the index is in bounds, and the deque after it. -/
def Deque.setitemIndex (self : Deque α) (index : ℕ) (value : α) : Option (Deque α × Bool) :=
  if self.dSize ≤ index then some (self, false)
  else do
    let p ← self.itemPointer index
    let _ ← self.read p.1 p.2
    let self ← self.write p.1 p.2 value
    some (self, true)

/-! ### Whole deques -/

/-- `copy_bucket`. -/
def copyBucket (self : DequeBucket α) (bucketSize start usedSize : ℕ) : Option (DequeBucket α) := do
  assert (start + usedSize ≤ bucketSize)
  let items ← ((self.drop start).take usedSize).mapM id
  some (List.replicate start none ++ items.map some ++ List.replicate (bucketSize - start - usedSize) none)

/-- The loop of `deq_copy` over the buckets after the head. -/
def copyBuckets (bucketSz tailSz : ℕ) : List (DequeBucket α) → Option (List (DequeBucket α))
  | [] => some []
  | iter :: chain => do
    let copy ← copyBucket iter bucketSz 0 (if chain = [] then tailSz else bucketSz)
    let copies ← copyBuckets bucketSz tailSz chain
    some (copy :: copies)

/-- `deq_copy`. -/
def Deque.copy (other : Deque α) : Option (Deque α) :=
  match other.dChain with
  | [] => some { other with dChain := [] }
  | head :: chain => do
    let copy ← copyBucket head other.dBucketSz other.dHeadIdx other.dHeadUse
    let copies ← copyBuckets other.dBucketSz other.dTailSz chain
    some { other with dChain := copy :: copies }

/-- A deque without items. -/
def Deque.empty (bucketSz : ℕ) : Deque α := ⟨[], 0, 0, 0, 0, bucketSz⟩

/-- `DeeObject_Foreach(seq, &Deque_PushBack, self)`. -/
def Deque.pushAll (self : Deque α) (seq : List α) : Option (Deque α) := seq.foldlM Deque.pushBackUnlocked self

/-- `deq_init`: no deque for a bucket size of 0. -/
def deqInit (seq : List α) (bucketSize : ℕ) : Option (Option (Deque α)) :=
  if bucketSize = 0 then some none else ((Deque.empty bucketSize).pushAll seq).map some

/-- `DEQUE_BUCKET_DEFAULT_SIZE`. -/
def dequeBucketDefaultSize : ℕ := 62

/-- The deque that `bzero` of all its fields leaves. -/
def Deque.zero : Deque α := ⟨[], 0, 0, 0, 0, 0⟩

/-! ### Programs with deques -/

/-- An operation on the deques of a program, which are known by their number. -/
inductive DequeOp (α : Type) where
  | init (seq : List α) (bucketSize : ℕ)
  | pushFront (j : ℕ) (item : α)
  | pushBack (j : ℕ) (item : α)
  | popFront (j : ℕ)
  | popBack (j : ℕ)
  | insert (j index : ℕ) (item : α)
  | pop (j index : ℕ)
  | pops (j : ℕ) (index : ℤ)
  | erase (j index count : ℕ)
  | setitemIndex (j index : ℕ) (value : α)
  | clear (j : ℕ)
  | assign (j k : ℕ)
  | assignSeq (j : ℕ) (seq : List α)
  | moveassign (j k : ℕ)
  | copy (k : ℕ)

/-- An operation on deque `j` with a result. -/
def onDeque (heap : List (Deque α)) (j : ℕ) (f : Deque α → Option (Deque α × Option α)) :
    Option (List (Deque α) × Option α) := do
  let r ← f (← heap[j]?)
  some (heap.set j r.1, r.2)

/-- An operation on deque `j` without a result. -/
def onDeque' (heap : List (Deque α)) (j : ℕ) (f : Deque α → Option (Deque α)) : Option (List (Deque α) × Option α) :=
  onDeque heap j fun self => (f self).map fun self => (self, none)

/-- One operation: the deques after it and the item that it returns. -/
def dequeStep (heap : List (Deque α)) : DequeOp α → Option (List (Deque α) × Option α)
  | .init seq bucketSize => do
    match ← deqInit seq bucketSize with
    | none => some (heap, none)
    | some self => some (heap ++ [self], none)
  | .pushFront j item => onDeque' heap j fun self => self.pushFrontUnlocked item
  | .pushBack j item => onDeque' heap j fun self => self.pushBackUnlocked item
  | .popFront j => onDeque heap j Deque.popFront
  | .popBack j => onDeque heap j Deque.popBack
  | .insert j index item => onDeque' heap j fun self => self.insert index item
  | .pop j index => onDeque heap j fun self => self.pop index
  | .pops j index => onDeque heap j fun self => self.pops index
  | .erase j index count => onDeque' heap j fun self => self.erase index count
  | .setitemIndex j index value => onDeque' heap j fun self => (self.setitemIndex index value).map Prod.fst
  | .clear j => onDeque' heap j fun _ => some Deque.zero
  | .assign j k => do
    let other ← heap[k]?
    onDeque' heap j fun _ => other.copy
  | .assignSeq j seq => onDeque' heap j fun _ => (Deque.empty dequeBucketDefaultSize).pushAll seq
  | .moveassign j k =>
    if j = k then some (heap, none)
    else do
      let other ← heap[k]?
      onDeque' (heap.set k Deque.zero) j fun _ => some other
  | .copy k => do
    let other ← heap[k]?
    let self ← other.copy
    some (heap ++ [self], none)

end Deemon.Collections
