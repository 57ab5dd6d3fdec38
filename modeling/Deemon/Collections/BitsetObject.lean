import Deemon.Hybrid.BitsetUpdate
import Deemon.Collections.BitsetCompare
import Deemon.Collections.SeqRange

/-!
# Bitset objects

The constructors and the mutating operations of `Bitset`, over a heap of bitsets. Memory from the allocator holds
what was there before (`Block`); the operands of an operation may be views of the bitset that it changes. A failed
operation (a wrong index, an exception of a callback, no memory) leaves the heap as it was.
-/

namespace Deemon.Collections

open Deemon.Run Deemon.BitString Deemon.Hybrid

/-! ### Objects -/

/-- `struct Bitset`. -/
structure BitsetObject where
  bsNbits : ℕ
  bsBitset : List Word
  deriving DecidableEq

/-- The bitsets of a program. -/
abbrev Heap := List BitsetObject

/-- What the allocator hands out: the old content of the memory, or nothing. -/
abbrev Block := Option (ℕ → Word)

/-- `Bitset_Alloc`. -/
def bitsetAlloc (content : ℕ → Word) (nBits : ℕ) : List Word := (List.range (bitsetLengthof nBits)).map content

/-- `Bitset_Calloc`. -/
def bitsetCalloc (nBits : ℕ) : List Word := List.replicate (bitsetLengthof nBits) 0

/-- `Bitset_Realloc` and `Bitset_TryRealloc`, where they succeed. -/
def bitsetRealloc (content : ℕ → Word) (self : List Word) (nBits : ℕ) : List Word :=
  (List.range (bitsetLengthof nBits)).map fun i => if i < self.length then word self i else content i

/-! ### Operands -/

/-- What `DeeObject_AsBitset` accepts: a bitset of the heap, a view of one, or bits of another buffer. -/
inductive Operand where
  | object (j : ℕ)
  | slice (j : ℕ) (startbit endbit : ℕ)
  | view (words : List Word) (startbit endbit : ℕ)

/-- `struct bitset_ref` of an operand. -/
structure SrcRef where
  bsrBitset : Src
  bsrStartbit : ℕ
  bsrEndbit : ℕ

/-- `bitset_ref_nbits`. -/
def SrcRef.nbits (ref : SrcRef) : ℕ := ref.bsrEndbit - ref.bsrStartbit

/-- `bitset_ref_fix`. -/
def SrcRef.fix (ref : SrcRef) : SrcRef :=
  if 7 < ref.bsrStartbit then
    { bsrBitset := ref.bsrBitset.add (ref.bsrStartbit >>> 3)
      bsrEndbit := ref.bsrEndbit - (ref.bsrStartbit - (ref.bsrStartbit &&& 7))
      bsrStartbit := ref.bsrStartbit &&& 7 }
  else ref

/-- The words of bitset `j`, for an operation that writes bitset `dst`. -/
def heapSrc (heap : Heap) (dst : Option ℕ) (j : ℕ) : Src :=
  if dst = some j then .own 0
  else match heap[j]? with
    | some b => .other b.bsBitset 0
    | none => .other [] 0

/-- `DeeObject_AsBitset`. -/
def asBitset (heap : Heap) (dst : Option ℕ) : Operand → SrcRef
  | .object j => ⟨heapSrc heap dst j, 0, ((heap[j]?).map BitsetObject.bsNbits).getD 0⟩
  | .slice j startbit endbit => SrcRef.fix ⟨heapSrc heap dst j, startbit, endbit⟩
  | .view words startbit endbit => SrcRef.fix ⟨.other words 0, startbit, endbit⟩

/-! ### Copies without stale bits -/

/-- `bitset_ncopy0_and_zero_unused_bits`: the loops of the part that is not aligned zero no bits. -/
def bitsetNcopy0AndZeroUnusedBits (before : Bool) (dst : List Word) (src : Src) (srcStartbitno nBits : ℕ) :
    Option (List Word) := do
  let (src, srcStartbitno) := src.advance srcStartbitno
  assert (srcStartbitno ≤ 7)
  if srcStartbitno = 0 then do
    let wholeWords := nBits >>> 3
    let dst ← moveWords dst 0 src wholeWords
    if bitsetBit nBits ≠ 0 then do
      let s ← (src.add wholeWords).read dst 0
      updateWord dst wholeWords fun _ => s &&& bitsetLoMaskin (bitsetBit nBits)
    else some dst
  else copyLoop (src.ge before 0) (copyBit 0 0 src srcStartbitno) nBits dst

/-- The mask of the last word after `setall` and `flipall`. -/
def zeroUnusedBits (self : List Word) (nBits : ℕ) : Option (List Word) :=
  if bitsetBit nBits ≠ 0 then updateWord self (nBits >>> 3) fun w => w &&& bitsetLoMaskin (bitsetBit nBits)
  else some self

/-- `bitset_setall_and_zero_unused_bits`. -/
def bitsetSetallAndZeroUnusedBits (self : List Word) (nBits : ℕ) : Option (List Word) := do
  zeroUnusedBits (← bitsetSetall self nBits) nBits

/-- `bitset_flipall_and_zero_unused_bits`. -/
def bitsetFlipallAndZeroUnusedBits (self : List Word) (nBits : ℕ) : Option (List Word) := do
  zeroUnusedBits (← bitsetFlipall self nBits) nBits

/-! ### Bitsets from sequences -/

/-- An item of a sequence, and the allocator while it is added. -/
structure SeqItem where
  /-- The item as `size_t`, or an exception. -/
  bitno : Option ℕ
  tryRealloc : Bool
  realloc : Bool
  content : ℕ → Word

/-- `struct bitset_fromseq_data`. -/
structure BitsetFromseqData where
  bsfsdBitset : BitsetObject
  bsfsdAbits : ℕ

/-- `do { new_abits <<= 1; } while (bitno >= new_abits && new_abits);`, which ends when all 64 bits are shifted out. -/
def doubleAbits (bitno : ℕ) : ℕ → ℕ → ℕ
  | 0, newAbits => newAbits
  | fuel + 1, newAbits =>
    let newAbits := newAbits <<< 1 % 2 ^ 64
    if newAbits ≤ bitno ∧ newAbits ≠ 0 then doubleAbits bitno fuel newAbits else newAbits

/-- The new size for a bit past the end, or the overflow error. -/
def newAbits (abits bitno : ℕ) : Option ℕ :=
  let doubled := doubleAbits bitno 65 abits
  if doubled ≤ bitno then
    let next := (bitno + 1) % 2 ^ 64
    if next ≤ bitno then none else some next
  else some doubled

/-- The size that is allocated in the end, or an error. -/
def growAbits (item : SeqItem) (abits bitno : ℕ) : Option ℕ := do
  let new ← newAbits abits bitno
  if item.tryRealloc then some new else if item.realloc then some ((bitno + 1) % 2 ^ 64) else none

/-- `bitset_fromseq_cb`; the inner `none` is the error. -/
def bitsetFromseqCb (me : BitsetFromseqData) (item : SeqItem) : Option (Option BitsetFromseqData) := do
  let add (me : BitsetFromseqData) (bitno : ℕ) : Option (Option BitsetFromseqData) := do
    let nbits := if me.bsfsdBitset.bsNbits ≤ bitno then bitno + 1 else me.bsfsdBitset.bsNbits
    let words ← bitsetSet me.bsfsdBitset.bsBitset 0 bitno
    some (some { me with bsfsdBitset := ⟨nbits, words⟩ })
  match item.bitno with
  | none => some none
  | some bitno =>
    if me.bsfsdAbits ≤ bitno then
      match growAbits item me.bsfsdAbits bitno with
      | none => some none
      | some new => do
        let words := bitsetRealloc item.content me.bsfsdBitset.bsBitset new
        let words ← bitsetNclear words 0 me.bsfsdBitset.bsNbits new
        add ⟨⟨me.bsfsdBitset.bsNbits, words⟩, new⟩ bitno
    else add me bitno

/-- `DeeObject_Foreach` with `bitset_fromseq_cb`. -/
def bitsetFromseq : List SeqItem → BitsetFromseqData → Option (Option BitsetFromseqData)
  | [], me => some (some me)
  | item :: items, me => do
    match ← bitsetFromseqCb me item with
    | none => some none
    | some me => bitsetFromseq items me

/-- A sequence argument: its items, whether the iteration ends without an exception, and the allocator. -/
structure SeqArg where
  items : List SeqItem
  finished : Bool
  calloc : Bool
  shrink : Bool

/-- The first allocation of `bs_init_fromseq`. -/
def initAbits (minbits : ℕ) : ℕ :=
  if 128 < minbits then (minbits + 7) % 2 ^ 64 - (minbits + 7) % 2 ^ 64 % 8 else 128

/-- `bs_init_fromseq`; the inner `none` is the error. -/
def bsInitFromseq (seq : SeqArg) (minbits : ℕ) : Option (Option BitsetObject) := do
  if !seq.calloc then some none
  else
    match ← bitsetFromseq seq.items ⟨⟨minbits, bitsetCalloc (initAbits minbits)⟩, initAbits minbits⟩ with
    | none => some none
    | some data =>
      if !seq.finished then some none
      else do
        let result := data.bsfsdBitset
        assert (result.bsNbits ≤ data.bsfsdAbits)
        if result.bsNbits < data.bsfsdAbits ∧ seq.shrink then
          some (some { result with bsBitset := bitsetRealloc (fun _ => 0) result.bsBitset result.bsNbits })
        else some (some result)

/-! ### Constructors -/

/-- `bs_init_fromseq_or_bitset` with a bitset; `before` is the order of the new memory and the operand. -/
def bsInitBitset (heap : Heap) (block : Block) (before : Bool) (seq : Operand) (minbits : Option ℕ) :
    Option (Option BitsetObject) := do
  let ref := asBitset heap none seq
  let fresh (words : List Word) (nbits : ℕ) : Option (Option BitsetObject) := do
    let words ← bitsetNcopy0AndZeroUnusedBits before words ref.bsrBitset ref.bsrStartbit ref.nbits
    some (some ⟨nbits, words⟩)
  match block, minbits with
  | none, _ => some none
  | some content, none => fresh (bitsetAlloc content ref.nbits) ref.nbits
  | some content, some minbits =>
    if ref.nbits < minbits then do
      assert (ref.bsrStartbit ≤ 7)
      fresh (bitsetCalloc minbits) minbits
    else fresh (bitsetAlloc content ref.nbits) ref.nbits

/-- `bs_ctor`. -/
def bsCtor (block : Block) : Option (Option BitsetObject) :=
  match block with
  | none => some none
  | some content => some (some ⟨0, bitsetAlloc content 0⟩)

/-- `bs_init` with a bit count. -/
def bsInitNbits (block : Block) (nbits : ℕ) (init : Bool) : Option (Option BitsetObject) := do
  match block with
  | none => some none
  | some content =>
    if init then do
      let words ← bitsetSetallAndZeroUnusedBits (bitsetAlloc content nbits) nbits
      some (some ⟨nbits, words⟩)
    else some (some ⟨nbits, bitsetCalloc nbits⟩)

/-- `bs_copy`. -/
def bsCopy (heap : Heap) (block : Block) (j : ℕ) : Option (Option BitsetObject) := do
  match block, heap[j]? with
  | some content, some self => do
    let words ← moveWords (bitsetAlloc content self.bsNbits) 0 (.other self.bsBitset 0) (bitsetLengthof self.bsNbits)
    some (some ⟨self.bsNbits, words⟩)
  | _, _ => some none

/-! ### Mutating operations -/

/-- The bitset after a write to its words. -/
def BitsetObject.write (self : BitsetObject) (words : Option (List Word)) : Option BitsetObject := do
  some { self with bsBitset := ← words }

/-- What becomes of the bits that an operation is about. -/
inductive BitUpdate where
  | set | clear | flip

/-- `bs_setitem_index`, `bs_delitem_index`, and `set`, `clear`, `flip`, `insert` and `remove` of one bit. -/
def bsUpdateIndex (self : BitsetObject) (update : BitUpdate) (bitno : ℕ) : Option BitsetObject :=
  if self.bsNbits ≤ bitno then some self
  else self.write <|
    match update with
    | .set => bitsetSet self.bsBitset 0 bitno
    | .clear => bitsetClear self.bsBitset 0 bitno
    | .flip => bitsetFlip self.bsBitset 0 bitno

/-- `bs_set`, `bs_clear` and `bs_flip` without arguments. -/
def bsUpdateAll (self : BitsetObject) (update : BitUpdate) : Option BitsetObject :=
  self.write <|
    match update with
    | .set => bitsetSetallAndZeroUnusedBits self.bsBitset self.bsNbits
    | .clear => bitsetClearall self.bsBitset self.bsNbits
    | .flip => bitsetFlipallAndZeroUnusedBits self.bsBitset self.bsNbits

/-- The update of a clamped range. -/
def updateRange (self : BitsetObject) (update : BitUpdate) (start stop : ℕ) : Option BitsetObject :=
  self.write <|
    match update with
    | .set => bitsetNset self.bsBitset 0 start stop
    | .clear => bitsetNclear self.bsBitset 0 start stop
    | .flip => bitsetNflip self.bsBitset 0 start stop

/-- `bs_set`, `bs_clear` and `bs_flip` of a range. -/
def bsUpdateRange (self : BitsetObject) (update : BitUpdate) (start stop : ℕ) : Option BitsetObject :=
  let stop := if self.bsNbits < stop then self.bsNbits else stop
  let start := if stop < start then stop else start
  updateRange self update start stop

/-- `bs_setrange_index` with a `bool` or `none`, and `bs_delrange_index`. -/
def bsSetrangeBool (self : BitsetObject) (value : Bool) (start stop : ℕ) : Option BitsetObject :=
  let range := deeSeqRangeClamp start stop self.bsNbits
  updateRange self (if value then .set else .clear) range.1 range.2

/-- `bs_delrange_index_n`. -/
def bsDelrangeIndexN (self : BitsetObject) (start : ℕ) : Option BitsetObject :=
  updateRange self .clear (deeSeqRangeClampN start self.bsNbits) self.bsNbits

/-- The check for bits past the end of the destination, and the part of the source that fits. -/
def trimSource (buf : List Word) (src : SrcRef) (dstBits : ℕ) : Option (Option SrcRef) :=
  if dstBits < src.nbits then do
    let oobIndex ← bitsetNffs (src.bsrBitset.words buf) (src.bsrStartbit + dstBits) src.bsrEndbit
    if oobIndex < src.bsrEndbit then do
      assert (dstBits ≤ oobIndex - src.bsrStartbit)
      some none
    else some (some { src with bsrEndbit := src.bsrStartbit + dstBits })
  else some (some src)

/-- `bitset_ref_assign` into the bits `dstStartbit` to `dstEndbit` of a buffer, at word `dst`. -/
def bitsetRefAssign (before : Bool) (buf : List Word) (dst dstStartbit dstEndbit : ℕ) (src : SrcRef) :
    Option (List Word) := do
  let dstBits := dstEndbit - dstStartbit
  match ← trimSource buf src dstBits with
  | none => some buf
  | some src => do
    let srcBits := src.nbits
    assert (dstStartbit ≤ 7)
    assert (src.bsrStartbit ≤ 7)
    let buf ← bitsetNcopy before buf dst dstStartbit src.bsrBitset src.bsrStartbit srcBits
    -- clear out all bits that were not copied from the source
    if srcBits < dstBits then bitsetNclear buf dst (dstStartbit + srcBits) dstEndbit else some buf

/-- `bs_setrange_index` with a bitset. -/
def bsSetrangeBitset (before : Bool) (self : BitsetObject) (start stop : ℕ) (src : SrcRef) : Option BitsetObject :=
  let range := deeSeqRangeClamp start stop self.bsNbits
  self.write <|
    if 7 < range.1 then
      bitsetRefAssign before self.bsBitset (range.1 >>> 3) (range.1 &&& 7) (range.2 - (range.1 - (range.1 &&& 7))) src
    else bitsetRefAssign before self.bsBitset 0 range.1 range.2 src

/-- `bs_assign_bitset`. -/
def bsAssignBitset (before : Bool) (self : BitsetObject) (ref : SrcRef) : Option BitsetObject := do
  match ← trimSource self.bsBitset ref self.bsNbits with
  | none => some self
  | some ref => self.write do
    let copyBits := ref.nbits
    assert (ref.bsrStartbit ≤ 7)
    let words ← bitsetNcopy0AndZeroUnusedBits before self.bsBitset ref.bsrBitset ref.bsrStartbit copyBits
    if copyBits < self.bsNbits then bitsetNclear words 0 copyBits self.bsNbits else some words

/-- The part of an operand that `bs_inplaceop_bitset` uses: `&=` ignores the bits past the end. -/
def inplaceopSource (op : BitsetOp) (self : BitsetObject) (ref : SrcRef) : Option (Option SrcRef) :=
  if op = .and then
    some (some (if self.bsNbits < ref.nbits then { ref with bsrEndbit := ref.bsrStartbit + self.bsNbits } else ref))
  else trimSource self.bsBitset ref self.bsNbits

/-- `bs_inplaceop_bitset`. -/
def bsInplaceopBitset (before : Bool) (op : BitsetOp) (self : BitsetObject) (ref : SrcRef) : Option BitsetObject := do
  match ← inplaceopSource op self ref with
  | none => some self
  | some ref => self.write do
    let copyBits := ref.nbits
    assert (ref.bsrStartbit ≤ 7)
    let words ← bitsetNbitop before self.bsBitset 0 0 ref.bsrBitset ref.bsrStartbit copyBits op
    if copyBits < self.bsNbits ∧ op = .and then bitsetNclear words 0 copyBits self.bsNbits else some words

/-! ### Runs -/

/-- The right hand side of an assignment: a bitset, or a sequence. -/
inductive RangeValue where
  | bitset (other : Operand)
  | seq (other : SeqArg)

/-- An operation on bitset `i`; `before` is the order of its memory and that of the operand. -/
inductive Mutation where
  | index (update : BitUpdate) (bitno : ℕ)
  | all (update : BitUpdate)
  | range (update : BitUpdate) (start stop : ℕ)
  | setrangeBool (value : Bool) (start stop : ℕ)
  | delrangeN (start : ℕ)
  | setrange (start stop : ℕ) (value : RangeValue)
  | assign (value : RangeValue)
  | inplaceop (op : BitsetOp) (value : RangeValue)

/-- An operation of a program. -/
inductive Op where
  | ctor (block : Block)
  | initNbits (block : Block) (nbits : ℕ) (init : Bool)
  | initSeq (seq : SeqArg) (minbits : ℕ)
  | initBitset (block : Block) (before : Bool) (seq : Operand) (minbits : Option ℕ)
  | copy (block : Block) (j : ℕ)
  | mutate (i : ℕ) (before : Bool) (mutation : Mutation)

/-- The reference to an assigned value, a temporary bitset for a sequence; the inner `none` is an exception. -/
def valueRef (heap : Heap) (i : ℕ) : RangeValue → Option (Option SrcRef)
  | .bitset other => some (some (asBitset heap (some i) other))
  | .seq other => do
    match ← bsInitFromseq other 0 with
    | none => some none
    | some temp => some (some ⟨.other temp.bsBitset 0, 0, temp.bsNbits⟩)

/-- An operation with the reference to a value. -/
def withValue (heap : Heap) (i : ℕ) (self : BitsetObject) (value : RangeValue)
    (f : SrcRef → Option BitsetObject) : Option BitsetObject := do
  match ← valueRef heap i value with
  | none => some self
  | some ref => f ref

/-- What a mutation makes of a bitset. -/
def applyMutation (heap : Heap) (i : ℕ) (before : Bool) (self : BitsetObject) : Mutation → Option BitsetObject
  | .index update bitno => bsUpdateIndex self update bitno
  | .all update => bsUpdateAll self update
  | .range update start stop => bsUpdateRange self update start stop
  | .setrangeBool value start stop => bsSetrangeBool self value start stop
  | .delrangeN start => bsDelrangeIndexN self start
  | .setrange start stop value => withValue heap i self value (bsSetrangeBitset before self start stop)
  | .assign value => withValue heap i self value (bsAssignBitset before self)
  | .inplaceop op value => withValue heap i self value (bsInplaceopBitset before op self)

/-- A new bitset, or none after an error. -/
def addObject (heap : Heap) (result : Option (Option BitsetObject)) : Option Heap := do
  match ← result with
  | none => some heap
  | some b => some (heap ++ [b])

/-- One operation. -/
def step (heap : Heap) : Op → Option Heap
  | .ctor block => addObject heap (bsCtor block)
  | .initNbits block nbits init => addObject heap (bsInitNbits block nbits init)
  | .initSeq seq minbits => addObject heap (bsInitFromseq seq minbits)
  | .initBitset block before seq minbits => addObject heap (bsInitBitset heap block before seq minbits)
  | .copy block j => addObject heap (bsCopy heap block j)
  | .mutate i before mutation =>
    match heap[i]? with
    | none => some heap
    | some self => do some (heap.set i (← applyMutation heap i before self mutation))

end Deemon.Collections
