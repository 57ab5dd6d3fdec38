import Mathlib
import Deemon.Hybrid.Bitset

/-!
# Relations between bitsets

`Bitset`, its read-only sibling `RoBitset` (`Bitset.Frozen`) and `BitsetView` are sets of bit numbers. Their
comparison operators look at the common range of both operands, and at the rest of the longer one. `==`, `!=`,
`<=` and `>=` are the set relations; `<` and `>` negate `>=` and `<=`, which is something else for operands that
are not comparable, and the part past the end of the shorter operand is looked at the wrong way round.
-/

namespace Deemon.Collections

open Deemon.Run Deemon.BitString Deemon.Hybrid

/-! ### Bitsets and views -/

/-- `Bitset`, and `RoBitset` too: the bits are in allocated memory. -/
structure Bitset where
  bsNbits : ℕ
  bsBitset : List Word
  fits : bsNbits ≤ 8 * bsBitset.length
  addressable : bsBitset.length < 2 ^ 61

/-- `BitsetView`: the bits `bsv_startbit` to `bsv_endbit` of a buffer. -/
structure BitsetView where
  bsvBuf : List Word
  bsvStartbit : ℕ
  bsvEndbit : ℕ
  start_le : bsvStartbit ≤ bsvEndbit
  fits : bsvEndbit ≤ 8 * bsvBuf.length

/-- The objects that `DeeObject_AsBitset` accepts. -/
inductive BitsetLike where
  | bitset (me : Bitset)
  | robitset (me : Bitset)
  | view (me : BitsetView)

/-- `struct bitset_ref`; the bitset is the words from the pointer on. -/
structure BitsetRef where
  bsrBitset : List Word
  bsrStartbit : ℕ
  bsrEndbit : ℕ

/-- `bitset_ref_nbits`. -/
def BitsetRef.nbits (self : BitsetRef) : ℕ := self.bsrEndbit - self.bsrStartbit

/-- `bitset_ref_fix`. -/
def bitsetRefFix (self : BitsetRef) : BitsetRef :=
  if 7 < self.bsrStartbit then
    { bsrBitset := self.bsrBitset.drop (self.bsrStartbit >>> 3)
      bsrEndbit := self.bsrEndbit - (self.bsrStartbit - (self.bsrStartbit &&& 7))
      bsrStartbit := self.bsrStartbit &&& 7 }
  else self

/-- `bitset_ref_fromview`. -/
def bitsetRefFromview (view : BitsetView) : BitsetRef :=
  bitsetRefFix ⟨view.bsvBuf, view.bsvStartbit, view.bsvEndbit⟩

/-- `DeeObject_AsBitset`, on the objects it accepts. -/
def deeObjectAsBitset : BitsetLike → BitsetRef
  | .bitset me | .robitset me => ⟨me.bsBitset, 0, me.bsNbits⟩
  | .view me => bitsetRefFromview me

/-! ### The operators of `Bitset` -/

/-- `bs_cmp_eqne_bitset_ref`. -/
def bsCmpEqneBitsetRef (self : Bitset) (ref : BitsetRef) : Option Bool := do
  let compare (ref : BitsetRef) (selfNbits : ℕ) : Option Bool := do
    assert (ref.bsrStartbit ≤ 7)
    bitsetNcmpeq self.bsBitset 0 ref.bsrBitset ref.bsrStartbit selfNbits
  let selfNbits := self.bsNbits
  if selfNbits ≠ ref.nbits then
    -- trim trailing 0-bits from `other`
    let otNbits ← bitsetNfls ref.bsrBitset ref.bsrStartbit ref.bsrEndbit
    if ref.bsrEndbit ≤ otNbits then
      -- `other` is empty
      some (!(← bitsetAnyset self.bsBitset self.bsNbits))
    else
      let ref := { ref with bsrEndbit := otNbits + 1 }
      if selfNbits ≠ ref.nbits then
        -- trim trailing 0-bits from `self`
        let lastset ← bitsetFls self.bsBitset selfNbits
        if selfNbits ≤ lastset then some false
        else
          let selfNbits := lastset + 1
          if selfNbits ≠ ref.nbits then some false else compare ref selfNbits
      else compare ref selfNbits
  else compare ref selfNbits

section Compare

variable (self : Bitset) (other : BitsetLike)

/-- `bs_eq`. -/
def bsEq : Option Bool := bsCmpEqneBitsetRef self (deeObjectAsBitset other)

/-- `bs_ne`. -/
def bsNe : Option Bool := do
  some (!(← bsCmpEqneBitsetRef self (deeObjectAsBitset other)))

/-- `bs_le`. -/
def bsLe : Option Bool := do
  let ref := deeObjectAsBitset other
  let nBits := self.bsNbits
  let common (nBits : ℕ) : Option Bool := do
    assert (ref.bsrStartbit ≤ 7)
    bitsetNcmple self.bsBitset 0 ref.bsrBitset ref.bsrStartbit nBits
  -- all bits from `self` must also be set in `other`
  if ref.nbits < nBits then
    if ← bitsetNanyset self.bsBitset ref.nbits nBits then some false else common ref.nbits
  else common nBits

/-- `bs_ge`. -/
def bsGe : Option Bool := do
  let ref := deeObjectAsBitset other
  let nBits := ref.nbits
  let common (nBits : ℕ) : Option Bool := do
    assert (ref.bsrStartbit ≤ 7)
    bitsetNcmpge self.bsBitset 0 ref.bsrBitset ref.bsrStartbit nBits
  -- all bits from `other` must also be set in `self`
  if self.bsNbits < nBits then
    if ← bitsetNanyset ref.bsrBitset (ref.bsrStartbit + self.bsNbits) (ref.bsrStartbit + nBits) then some false
    else common self.bsNbits
  else common nBits

/-- `bs_gr`. -/
def bsGr : Option Bool := do
  let ref := deeObjectAsBitset other
  let nBits := self.bsNbits
  let common (nBits : ℕ) : Option Bool := do
    assert (ref.bsrStartbit ≤ 7)
    bitsetNcmpgr self.bsBitset 0 ref.bsrBitset ref.bsrStartbit nBits
  -- not(all bits from `self` must also be set in `other`)
  if ref.nbits < nBits then
    if !(← bitsetNanyset self.bsBitset ref.nbits nBits) then some false else common ref.nbits
  else common nBits

/-- `bs_lo`. -/
def bsLo : Option Bool := do
  let ref := deeObjectAsBitset other
  let nBits := ref.nbits
  let common (nBits : ℕ) : Option Bool := do
    assert (ref.bsrStartbit ≤ 7)
    bitsetNcmplo self.bsBitset 0 ref.bsrBitset ref.bsrStartbit nBits
  -- not(all bits from `other` must also be set in `self`)
  if self.bsNbits < nBits then
    if !(← bitsetNanyset ref.bsrBitset (ref.bsrStartbit + self.bsNbits) (ref.bsrStartbit + nBits)) then some false
    else common self.bsNbits
  else common nBits

end Compare

/-! ### The operators of `BitsetView` -/

/-- `bitset_ref_cmp_eq`. -/
def bitsetRefCmpEq (a b : BitsetRef) : Option Bool := do
  assert (a.bsrStartbit ≤ 7)
  assert (b.bsrStartbit ≤ 7)
  let compare (a b : BitsetRef) : Option Bool :=
    bitsetNcmpeq a.bsrBitset a.bsrStartbit b.bsrBitset b.bsrStartbit a.nbits
  if a.nbits ≠ b.nbits then
    -- trim trailing 0-bits from `b`
    let bNbits ← bitsetNfls b.bsrBitset b.bsrStartbit b.bsrEndbit
    if b.bsrEndbit ≤ bNbits then
      some (!(← bitsetNanyset a.bsrBitset a.bsrStartbit a.bsrEndbit))
    else
      let b := { b with bsrEndbit := bNbits + 1 }
      if a.nbits ≠ b.nbits then
        -- trim trailing 0-bits from `a`
        let lastset ← bitsetNfls a.bsrBitset a.bsrStartbit a.bsrEndbit
        if a.bsrEndbit ≤ lastset then some false
        else
          let a := { a with bsrEndbit := lastset + 1 }
          if a.nbits ≠ b.nbits then some false else compare a b
      else compare a b
  else compare a b

/-- `bitset_ref_cmp_le`. -/
def bitsetRefCmpLe (a b : BitsetRef) : Option Bool := do
  let common (nBits : ℕ) : Option Bool := do
    assert (a.bsrStartbit ≤ 7)
    assert (b.bsrStartbit ≤ 7)
    bitsetNcmple a.bsrBitset a.bsrStartbit b.bsrBitset b.bsrStartbit nBits
  -- all bits from `a` must also be set in `b`
  if b.nbits < a.nbits then
    if ← bitsetNanyset a.bsrBitset (a.bsrStartbit + b.nbits) a.bsrEndbit then some false else common b.nbits
  else common a.nbits

/-- `bitset_ref_cmp_ne`. -/
def bitsetRefCmpNe (a b : BitsetRef) : Option Bool := do some (!(← bitsetRefCmpEq a b))

/-- `bitset_ref_cmp_ge`. -/
def bitsetRefCmpGe (a b : BitsetRef) : Option Bool := bitsetRefCmpLe b a

/-- `bitset_ref_cmp_lo`. -/
def bitsetRefCmpLo (a b : BitsetRef) : Option Bool := do some (!(← bitsetRefCmpGe a b))

/-- `bitset_ref_cmp_gr`. -/
def bitsetRefCmpGr (a b : BitsetRef) : Option Bool := do some (!(← bitsetRefCmpLe a b))

/-! ### The operator tables -/

/-- The comparison operators of `struct type_cmp`. -/
inductive CmpKind where
  | eq | ne | lo | le | gr | ge

/-- `bs_cmp`; `robs_cmp` has the same functions. -/
def bsCmp (self : Bitset) (other : BitsetLike) : CmpKind → Option Bool
  | .eq => bsEq self other
  | .ne => bsNe self other
  | .lo => bsLo self other
  | .le => bsLe self other
  | .gr => bsGr self other
  | .ge => bsGe self other

/-- `bsv_cmp`. -/
def bsvCmp (self : BitsetView) (other : BitsetLike) : CmpKind → Option Bool
  | .eq => bitsetRefCmpEq (bitsetRefFromview self) (deeObjectAsBitset other)
  | .ne => bitsetRefCmpNe (bitsetRefFromview self) (deeObjectAsBitset other)
  | .lo => bitsetRefCmpLo (bitsetRefFromview self) (deeObjectAsBitset other)
  | .le => bitsetRefCmpLe (bitsetRefFromview self) (deeObjectAsBitset other)
  | .gr => bitsetRefCmpGr (bitsetRefFromview self) (deeObjectAsBitset other)
  | .ge => bitsetRefCmpGe (bitsetRefFromview self) (deeObjectAsBitset other)

/-- The operator of the type of the left operand. -/
def compareBitsets (op : CmpKind) : BitsetLike → BitsetLike → Option Bool
  | .bitset me, other | .robitset me, other => bsCmp me other op
  | .view me, other => bsvCmp me other op

/-! ### Members -/

/-- The set of the bits of a bitset. -/
def members : BitsetLike → Set ℕ
  | .bitset me | .robitset me => {i | i < me.bsNbits ∧ Bits me.bsBitset i}
  | .view me => {i | i < me.bsvEndbit - me.bsvStartbit ∧ Bits me.bsvBuf (me.bsvStartbit + i)}

/-- The number of bits of a bitset. -/
def nbits : BitsetLike → ℕ
  | .bitset me | .robitset me => me.bsNbits
  | .view me => me.bsvEndbit - me.bsvStartbit

/-- The set relation that an operator stands for. -/
def CmpKind.Holds (A B : Set ℕ) : CmpKind → Prop
  | .eq => A = B
  | .ne => A ≠ B
  | .lo => A ⊂ B
  | .le => A ⊆ B
  | .gr => B ⊂ A
  | .ge => B ⊆ A

/-! ### References -/

/-- What `DeeObject_AsBitset` promises: the range is inside the buffer, and starts in its first word. -/
structure BitsetRef.Ok (ref : BitsetRef) : Prop where
  startbit_le : ref.bsrStartbit ≤ 7
  start_le : ref.bsrStartbit ≤ ref.bsrEndbit
  fits : ref.bsrEndbit ≤ 8 * ref.bsrBitset.length

/-- The set of the bits of a reference. -/
def BitsetRef.bits (self : BitsetRef) : Set ℕ :=
  {i | i < self.nbits ∧ Bits self.bsrBitset (self.bsrStartbit + i)}

/-- The reference to all bits of a `Bitset`. -/
def Bitset.ref (me : Bitset) : BitsetRef := ⟨me.bsBitset, 0, me.bsNbits⟩

theorem Bitset.ref_ok (me : Bitset) : me.ref.Ok := ⟨Nat.zero_le _, Nat.zero_le _, me.fits⟩

theorem bitsetRefFromview_ok (view : BitsetView) : (bitsetRefFromview view).Ok := by
  have hle := view.start_le
  have hfits := view.fits
  have hand : view.bsvStartbit &&& 7 = view.bsvStartbit % 8 := Nat.and_two_pow_sub_one_eq_mod _ 3
  unfold bitsetRefFromview bitsetRefFix
  by_cases hfix : 7 < view.bsvStartbit
  · rw [if_pos hfix]
    constructor <;> dsimp only <;> rw [hand]
    · omega
    · omega
    · rw [List.length_drop, Nat.shiftRight_eq_div_pow]
      omega
  · rw [if_neg hfix]
    exact ⟨not_lt.mp hfix, hle, hfits⟩

theorem bitsetRefFromview_nbits (view : BitsetView) :
    (bitsetRefFromview view).nbits = view.bsvEndbit - view.bsvStartbit := by
  have hle := view.start_le
  have hand : view.bsvStartbit &&& 7 = view.bsvStartbit % 8 := Nat.and_two_pow_sub_one_eq_mod _ 3
  unfold bitsetRefFromview bitsetRefFix
  by_cases hfix : 7 < view.bsvStartbit
  · rw [if_pos hfix, BitsetRef.nbits]
    dsimp only
    omega
  · rw [if_neg hfix]
    rfl

/-- Fixing a reference moves whole words only. -/
theorem bitsetRefFromview_bits (view : BitsetView) : (bitsetRefFromview view).bits = members (.view view) := by
  have hword : ∀ i, Bits (bitsetRefFromview view).bsrBitset ((bitsetRefFromview view).bsrStartbit + i) ↔
      Bits view.bsvBuf (view.bsvStartbit + i) := by
    intro i
    have hand : view.bsvStartbit &&& 7 = view.bsvStartbit % 8 := Nat.and_two_pow_sub_one_eq_mod _ 3
    unfold bitsetRefFromview bitsetRefFix
    by_cases hfix : 7 < view.bsvStartbit
    · rw [if_pos hfix]
      dsimp only
      rw [hand, Nat.shiftRight_eq_div_pow, Bits, bitAt_drop, ← add_assoc, show (2 : ℕ) ^ 3 = 8 from rfl,
        Nat.div_add_mod, Bits]
    · rw [if_neg hfix]
  ext i
  rw [BitsetRef.bits, Set.mem_ofPred_eq, bitsetRefFromview_nbits, hword]
  rfl

theorem deeObjectAsBitset_ok (self : BitsetLike) : (deeObjectAsBitset self).Ok := by
  cases self with
  | bitset me => exact me.ref_ok
  | robitset me => exact me.ref_ok
  | view me => exact bitsetRefFromview_ok me

theorem Bitset.ref_bits (me : Bitset) : me.ref.bits = {i | i < me.bsNbits ∧ Bits me.bsBitset i} := by
  ext i
  rw [BitsetRef.bits, Set.mem_ofPred_eq, Set.mem_ofPred_eq, Bitset.ref, Nat.zero_add]
  rfl

theorem deeObjectAsBitset_bits (self : BitsetLike) : (deeObjectAsBitset self).bits = members self := by
  cases self with
  | bitset me => exact me.ref_bits
  | robitset me => exact me.ref_bits
  | view me => exact bitsetRefFromview_bits me

theorem deeObjectAsBitset_nbits (self : BitsetLike) : (deeObjectAsBitset self).nbits = nbits self := by
  cases self with
  | bitset me => rfl
  | robitset me => rfl
  | view me => exact bitsetRefFromview_nbits me

/-! ### Sets with a bound -/

section Bounded

variable {A B : Set ℕ} {n m : ℕ}

/-- Inclusion of a longer bitset: its tail is empty, and its common part is included. -/
theorem subset_iff_of_lt (hA : ∀ i ∈ A, i < m) (hB : ∀ i ∈ B, i < n) :
    A ⊆ B ↔ ¬AnyIn (· ∈ A) n m ∧ ∀ i < n, i ∈ A → i ∈ B := by
  constructor
  · intro h
    refine ⟨?_, fun i _ hi => h hi⟩
    rintro ⟨i, hlo, -, hi⟩
    exact absurd (hB i (h hi)) (not_lt.mpr hlo)
  · rintro ⟨htail, hcommon⟩ i hi
    by_cases hin : i < n
    · exact hcommon i hin hi
    · exact absurd ⟨i, not_lt.mp hin, hA i hi, hi⟩ htail

theorem subset_iff_common (hA : ∀ i ∈ A, i < n) : A ⊆ B ↔ ∀ i < n, i ∈ A → i ∈ B :=
  ⟨fun h _ _ hi => h hi, fun h i hi => h i (hA i hi) hi⟩

/-- `¬A ⊆ B` is the strict relation only for comparable sets. -/
theorem not_subset_iff_ssubset : (¬A ⊆ B ↔ B ⊂ A) ↔ A ⊆ B ∨ B ⊆ A := by
  rw [ssubset_iff_subset_not_subset]
  tauto

end Bounded

/-! ### What the operators compute -/

variable {a b : BitsetRef} {self : Bitset} {view : BitsetView} {other : BitsetLike}

theorem mem_bits_iff {i : ℕ} (h : i < a.nbits) : i ∈ a.bits ↔ Bits a.bsrBitset (a.bsrStartbit + i) :=
  ⟨fun hi => hi.2, fun hi => ⟨h, hi⟩⟩

/-- A search through a part of the buffer is a search through the set. -/
theorem anyIn_bits {lo hi : ℕ} (h : hi ≤ a.nbits) :
    AnyIn (Bits a.bsrBitset) (a.bsrStartbit + lo) (a.bsrStartbit + hi) ↔ AnyIn (· ∈ a.bits) lo hi := by
  constructor
  · rintro ⟨i, hlo, hhi, hbit⟩
    refine ⟨i - a.bsrStartbit, by omega, by omega, (mem_bits_iff (by omega)).mpr ?_⟩
    rwa [Nat.add_sub_cancel' (by omega)]
  · rintro ⟨i, hlo, hhi, hbit⟩
    exact ⟨a.bsrStartbit + i, by omega, by omega, hbit.2⟩

theorem ncmple_common (ha : a.Ok) (hb : b.Ok) {n : ℕ} (hna : n ≤ a.nbits) (hnb : n ≤ b.nbits) :
    Ends (bitsetNcmple a.bsrBitset a.bsrStartbit b.bsrBitset b.bsrStartbit n) fun r =>
      r = true ↔ ∀ i < n, i ∈ a.bits → i ∈ b.bits := by
  have hafits := ha.fits
  have hbfits := hb.fits
  have hale := ha.start_le
  have hble := hb.start_le
  unfold BitsetRef.nbits at hna hnb
  refine (bitsetNcmple_ends (by omega) (by omega)).mono fun r hr => hr.trans ?_
  refine forall₂_congr fun i hi => ?_
  rw [mem_bits_iff (by unfold BitsetRef.nbits; omega), mem_bits_iff (by unfold BitsetRef.nbits; omega)]

theorem ncmpeq_common (ha : a.Ok) (hb : b.Ok) (hn : a.nbits = b.nbits) :
    Ends (bitsetNcmpeq a.bsrBitset a.bsrStartbit b.bsrBitset b.bsrStartbit a.nbits) fun r =>
      r = true ↔ a.bits = b.bits := by
  have hafits := ha.fits
  have hbfits := hb.fits
  have hale := ha.start_le
  have hble := hb.start_le
  have hna : a.nbits = a.bsrEndbit - a.bsrStartbit := rfl
  have hnb : b.nbits = b.bsrEndbit - b.bsrStartbit := rfl
  refine (bitsetNcmpeq_ends (by omega) (by omega)).mono fun r hr => hr.trans ?_
  rw [Set.ext_iff]
  constructor
  · intro h i
    by_cases hi : i < a.nbits
    · rw [mem_bits_iff hi, mem_bits_iff (hn ▸ hi), h i hi]
    · exact iff_of_false (fun hmem => hi hmem.1) fun hmem => hi (hn ▸ hmem.1)
  · intro h i hi
    rw [← mem_bits_iff hi, ← mem_bits_iff (hn ▸ hi), h i]

/-- A tail that must be empty, then the common part. -/
theorem Ends.unless {tail common : Option Bool} {P Q : Prop} (ht : Ends tail fun r => r = true ↔ P)
    (hc : Ends common fun r => r = true ↔ Q) :
    Ends (do if ← tail then some false else common) fun r => r = true ↔ ¬P ∧ Q := by
  refine Ends.bind ht fun t ht => ?_
  by_cases hp : P
  · rw [if_pos (ht.mpr hp)]
    exact Ends.pure (iff_of_false (by decide) fun h => h.1 hp)
  · rw [if_neg fun h => hp (ht.mp h)]
    exact hc.mono fun r hr => hr.trans (and_iff_right hp).symm

/-- A tail that must not be empty, then the common part. -/
theorem Ends.when {tail common : Option Bool} {P Q : Prop} (ht : Ends tail fun r => r = true ↔ P)
    (hc : Ends common fun r => r = true ↔ Q) :
    Ends (do if !(← tail) then some false else common) fun r => r = true ↔ P ∧ Q := by
  refine Ends.bind ht fun t ht => ?_
  by_cases hp : P
  · rw [if_neg (by rw [ht.mpr hp]; decide)]
    exact hc.mono fun r hr => hr.trans (and_iff_right hp).symm
  · rw [if_pos (by rw [Bool.not_eq_true', Bool.eq_false_iff]; exact fun h => hp (ht.mp h))]
    exact Ends.pure (iff_of_false (by decide) fun h => hp h.1)

theorem Ends.not {m : Option Bool} {P : Prop} (hm : Ends m fun r => r = true ↔ P) :
    Ends (do some (!(← m))) fun r => r = true ↔ ¬P := by
  refine Ends.bind hm fun r hr => Ends.pure ?_
  rw [Bool.not_eq_true', Bool.eq_false_iff, Ne, hr]

theorem Bitset.tail_ends (n : ℕ) (h : n < self.bsNbits) :
    Ends (bitsetNanyset self.bsBitset n self.bsNbits) fun r =>
      r = true ↔ AnyIn (· ∈ self.ref.bits) n self.ref.nbits := by
  refine (bitsetNanyset_ends h.le (Or.inl h) self.fits).mono fun r hr => hr.trans ?_
  have hany := @anyIn_bits self.ref n _ le_rfl
  rw [Bitset.ref, Nat.zero_add, Nat.zero_add] at hany
  exact hany

theorem BitsetRef.tail_ends (ha : a.Ok) (n : ℕ) (h : n < a.nbits) :
    Ends (bitsetNanyset a.bsrBitset (a.bsrStartbit + n) (a.bsrStartbit + a.nbits)) fun r =>
      r = true ↔ AnyIn (· ∈ a.bits) n a.nbits := by
  have hfits := ha.fits
  have hle := ha.start_le
  have hn : a.nbits = a.bsrEndbit - a.bsrStartbit := rfl
  exact (bitsetNanyset_ends (by omega) (by omega) (by omega)).mono fun r hr => hr.trans (anyIn_bits le_rfl)

theorem bsLe_ends : Ends (bsLe self other) fun r => r = true ↔ self.ref.bits ⊆ (deeObjectAsBitset other).bits := by
  have hok := deeObjectAsBitset_ok other
  obtain ⟨ref, href⟩ : ∃ ref, ref = deeObjectAsBitset other := ⟨_, rfl⟩
  rw [← href] at hok ⊢
  unfold bsLe
  rw [← href]
  dsimp only
  rw [assert_of hok.startbit_le]
  by_cases h : ref.nbits < self.bsNbits
  · rw [if_pos h]
    refine (Ends.unless (self.tail_ends _ h) (ncmple_common self.ref_ok hok h.le le_rfl)).mono fun r hr => hr.trans ?_
    exact (subset_iff_of_lt (fun i hi => hi.1) fun i hi => hi.1).symm
  · rw [if_neg h]
    refine (ncmple_common self.ref_ok hok le_rfl (not_lt.mp h)).mono fun r hr => hr.trans ?_
    exact (subset_iff_common fun i hi => hi.1).symm

theorem bsGe_ends : Ends (bsGe self other) fun r => r = true ↔ (deeObjectAsBitset other).bits ⊆ self.ref.bits := by
  have hok := deeObjectAsBitset_ok other
  obtain ⟨ref, href⟩ : ∃ ref, ref = deeObjectAsBitset other := ⟨_, rfl⟩
  rw [← href] at hok ⊢
  unfold bsGe
  rw [← href]
  dsimp only
  rw [assert_of hok.startbit_le]
  by_cases h : self.bsNbits < ref.nbits
  · rw [if_pos h]
    refine (Ends.unless (BitsetRef.tail_ends hok _ h) (ncmple_common hok self.ref_ok h.le le_rfl)).mono ?_
    intro r hr
    exact hr.trans (subset_iff_of_lt (fun i hi => hi.1) fun i hi => hi.1).symm
  · rw [if_neg h]
    refine (ncmple_common hok self.ref_ok le_rfl (not_lt.mp h)).mono fun r hr => hr.trans ?_
    exact (subset_iff_common fun i hi => hi.1).symm

/-- What `bs_gr` and `bs_lo` compute: the longer operand must have a bit in its tail, and a bit of its common part
that the other one has not. -/
def NotWithin (A B : Set ℕ) (n m : ℕ) : Prop :=
  if m < n then AnyIn (· ∈ A) m n ∧ ¬∀ i < m, i ∈ A → i ∈ B else ¬A ⊆ B

theorem bsGr_ends : Ends (bsGr self other) fun r =>
    r = true ↔ NotWithin self.ref.bits (deeObjectAsBitset other).bits self.bsNbits (deeObjectAsBitset other).nbits := by
  have hok := deeObjectAsBitset_ok other
  obtain ⟨ref, href⟩ : ∃ ref, ref = deeObjectAsBitset other := ⟨_, rfl⟩
  rw [← href] at hok ⊢
  unfold bsGr NotWithin
  rw [← href]
  dsimp only
  rw [assert_of hok.startbit_le]
  by_cases h : ref.nbits < self.bsNbits
  · rw [if_pos h, if_pos h]
    exact Ends.when (self.tail_ends _ h) (Ends.not (ncmple_common self.ref_ok hok h.le le_rfl))
  · rw [if_neg h, if_neg h]
    refine (Ends.not (ncmple_common self.ref_ok hok le_rfl (not_lt.mp h))).mono fun r hr => hr.trans ?_
    exact not_congr (subset_iff_common fun i hi => hi.1).symm

theorem bsLo_ends : Ends (bsLo self other) fun r =>
    r = true ↔ NotWithin (deeObjectAsBitset other).bits self.ref.bits (deeObjectAsBitset other).nbits self.bsNbits := by
  have hok := deeObjectAsBitset_ok other
  obtain ⟨ref, href⟩ : ∃ ref, ref = deeObjectAsBitset other := ⟨_, rfl⟩
  rw [← href] at hok ⊢
  unfold bsLo NotWithin
  rw [← href]
  dsimp only
  rw [assert_of hok.startbit_le]
  by_cases h : self.bsNbits < ref.nbits
  · rw [if_pos h, if_pos h]
    exact Ends.when (BitsetRef.tail_ends hok _ h) (Ends.not (ncmple_common hok self.ref_ok h.le le_rfl))
  · rw [if_neg h, if_neg h]
    refine (Ends.not (ncmple_common hok self.ref_ok le_rfl (not_lt.mp h))).mono fun r hr => hr.trans ?_
    exact not_congr (subset_iff_common fun i hi => hi.1).symm

/-! ### Equality -/

/-- The trailing zero bits cut off. -/
theorem bits_trim {j : ℕ} (h : LastIn (Bits a.bsrBitset) a.bsrStartbit a.bsrEndbit (some j)) :
    ({ a with bsrEndbit := j + 1 } : BitsetRef).bits = a.bits := by
  obtain ⟨hlo, hhi, -, habove⟩ := h
  ext i
  constructor
  · rintro ⟨hi, hbit⟩
    refine ⟨?_, hbit⟩
    unfold BitsetRef.nbits at hi ⊢
    dsimp only at hi
    omega
  · rintro ⟨hi, hbit⟩
    refine ⟨?_, hbit⟩
    unfold BitsetRef.nbits at hi ⊢
    dsimp only
    by_contra hno
    exact habove _ (by omega) (by omega) hbit

/-- After the cut the last bit is set. -/
theorem last_mem_trim {j : ℕ} (h : LastIn (Bits a.bsrBitset) a.bsrStartbit a.bsrEndbit (some j)) :
    ({ a with bsrEndbit := j + 1 } : BitsetRef).nbits - 1 ∈ ({ a with bsrEndbit := j + 1 } : BitsetRef).bits := by
  obtain ⟨hlo, -, hbit, -⟩ := h
  unfold BitsetRef.bits BitsetRef.nbits
  refine ⟨by dsimp only; omega, ?_⟩
  dsimp only
  rwa [show a.bsrStartbit + (j + 1 - a.bsrStartbit - 1) = j by omega]

theorem trim_ok {j : ℕ} (ha : a.Ok) (h : LastIn (Bits a.bsrBitset) a.bsrStartbit a.bsrEndbit (some j)) :
    ({ a with bsrEndbit := j + 1 } : BitsetRef).Ok := by
  obtain ⟨hlo, hhi, -, -⟩ := h
  exact ⟨ha.startbit_le, hlo.trans (Nat.le_succ j), (Nat.succ_le_of_lt hhi).trans ha.fits⟩

/-- Bitsets whose last bits are set differ when their lengths do. -/
theorem bits_ne_of_nbits_ne (ha : a.nbits - 1 ∈ a.bits) (hb : b.nbits - 1 ∈ b.bits) (h : a.nbits ≠ b.nbits) :
    a.bits ≠ b.bits := by
  intro heq
  have h1 : a.nbits - 1 < b.nbits := (heq ▸ ha : a.nbits - 1 ∈ b.bits).1
  have h2 : b.nbits - 1 < a.nbits := (heq ▸ hb : b.nbits - 1 ∈ a.bits).1
  have h3 := ha.1
  omega

theorem bits_eq_empty (h : LastIn (Bits a.bsrBitset) a.bsrStartbit a.bsrEndbit none) : a.bits = ∅ := by
  ext i
  refine iff_of_false ?_ (Set.notMem_empty i)
  rintro ⟨hi, hbit⟩
  unfold BitsetRef.nbits at hi
  exact h _ (by omega) (by omega) hbit

theorem bits_ne_empty_iff : AnyIn (Bits a.bsrBitset) a.bsrStartbit a.bsrEndbit ↔ a.bits ≠ ∅ := by
  rw [← Set.nonempty_iff_ne_empty]
  constructor
  · rintro ⟨i, hlo, hhi, hbit⟩
    refine ⟨i - a.bsrStartbit, ?_, ?_⟩
    · unfold BitsetRef.nbits
      omega
    · rwa [Nat.add_sub_cancel' hlo]
  · rintro ⟨i, hi, hbit⟩
    unfold BitsetRef.nbits at hi
    exact ⟨a.bsrStartbit + i, by omega, by omega, hbit⟩

theorem Bitset.fls_ends : Ends (bitsetFls self.bsBitset self.bsNbits) fun r =>
    LastIn (Bits self.bsBitset) 0 self.bsNbits (found self.bsNbits r) := by
  have hfits := self.fits
  have haddr := self.addressable
  exact bitsetFls_ends hfits (by omega)

/-- The search for the last bit, as its caller tests it. -/
theorem found_cases {q : ℕ → Prop} {lo hi r : ℕ} (h : LastIn q lo hi (found hi r)) :
    (hi ≤ r ∧ LastIn q lo hi none) ∨ (¬hi ≤ r ∧ LastIn q lo hi (some r)) := by
  by_cases hr : hi ≤ r
  · rw [found_of_le hr] at h
    exact Or.inl ⟨hr, h⟩
  · rw [found_of_lt (not_le.mp hr)] at h
    exact Or.inr ⟨hr, h⟩

theorem bsCmpEqneBitsetRef_ends {ref : BitsetRef} (hok : ref.Ok) :
    Ends (bsCmpEqneBitsetRef self ref) fun r => r = true ↔ self.ref.bits = ref.bits := by
  unfold bsCmpEqneBitsetRef
  dsimp only
  by_cases hlen : self.bsNbits ≠ ref.nbits
  · rw [if_pos hlen]
    refine Ends.bind (bitsetNfls_ends hok.start_le hok.fits) fun j hj => ?_
    rcases found_cases hj with ⟨hle, hno⟩ | ⟨hle, hlast⟩
    · -- `other` is empty
      rw [if_pos hle, bits_eq_empty hno]
      refine (Ends.not (bitsetAnyset_ends self.fits)).mono fun r hr => hr.trans ?_
      exact (not_congr (bits_ne_empty_iff (a := self.ref))).trans not_not
    · rw [if_neg hle, ← bits_trim hlast]
      have hok' := trim_ok hok hlast
      have htop := last_mem_trim hlast
      by_cases hlen' : self.bsNbits ≠ ({ ref with bsrEndbit := j + 1 } : BitsetRef).nbits
      · rw [if_pos hlen']
        refine Ends.bind self.fls_ends fun k hk => ?_
        rcases found_cases hk with ⟨hle, hno⟩ | ⟨hle, hlast⟩
        · -- `self` is empty, `other` is not
          rw [if_pos hle, bits_eq_empty (a := self.ref) hno]
          exact Ends.pure (iff_of_false (by decide) fun h => Set.notMem_empty _ (h ▸ htop))
        · rw [if_neg hle, ← bits_trim (a := self.ref) hlast]
          by_cases hlen'' : k + 1 ≠ ({ ref with bsrEndbit := j + 1 } : BitsetRef).nbits
          · rw [if_pos hlen'']
            exact Ends.pure (iff_of_false (by decide) (bits_ne_of_nbits_ne (last_mem_trim (a := self.ref) hlast) htop hlen''))
          · rw [if_neg hlen'', assert_of hok.startbit_le]
            exact ncmpeq_common (trim_ok self.ref_ok hlast) hok' (not_not.mp hlen'')
      · rw [if_neg hlen', assert_of hok.startbit_le]
        exact ncmpeq_common self.ref_ok hok' (not_not.mp hlen')
  · rw [if_neg hlen, assert_of hok.startbit_le]
    exact ncmpeq_common self.ref_ok hok (not_not.mp hlen)

theorem bitsetRefCmpEq_ends (ha : a.Ok) (hb : b.Ok) :
    Ends (bitsetRefCmpEq a b) fun r => r = true ↔ a.bits = b.bits := by
  unfold bitsetRefCmpEq
  rw [assert_of ha.startbit_le, some_bind, assert_of hb.startbit_le, some_bind]
  dsimp only
  by_cases hlen : a.nbits ≠ b.nbits
  · rw [if_pos hlen]
    refine Ends.bind (bitsetNfls_ends hb.start_le hb.fits) fun j hj => ?_
    rcases found_cases hj with ⟨hle, hno⟩ | ⟨hle, hlast⟩
    · rw [if_pos hle, bits_eq_empty hno]
      have hstart := ha.startbit_le
      refine (Ends.not (bitsetNanyset_ends ha.start_le (by omega) ha.fits)).mono fun r hr => hr.trans ?_
      exact (not_congr bits_ne_empty_iff).trans not_not
    · rw [if_neg hle, ← bits_trim hlast]
      have hok := trim_ok hb hlast
      have htop := last_mem_trim hlast
      by_cases hlen' : a.nbits ≠ ({ b with bsrEndbit := j + 1 } : BitsetRef).nbits
      · rw [if_pos hlen']
        refine Ends.bind (bitsetNfls_ends ha.start_le ha.fits) fun k hk => ?_
        rcases found_cases hk with ⟨hle, hno⟩ | ⟨hle, hlast⟩
        · rw [if_pos hle, bits_eq_empty hno]
          exact Ends.pure (iff_of_false (by decide) fun h => Set.notMem_empty _ (h ▸ htop))
        · rw [if_neg hle, ← bits_trim hlast]
          by_cases hlen'' :
              ({ a with bsrEndbit := k + 1 } : BitsetRef).nbits ≠ ({ b with bsrEndbit := j + 1 } : BitsetRef).nbits
          · rw [if_pos hlen'']
            exact Ends.pure (iff_of_false (by decide) (bits_ne_of_nbits_ne (last_mem_trim hlast) htop hlen''))
          · rw [if_neg hlen'']
            exact ncmpeq_common (trim_ok ha hlast) hok (not_not.mp hlen'')
      · rw [if_neg hlen']
        exact ncmpeq_common ha hok (not_not.mp hlen')
  · rw [if_neg hlen]
    exact ncmpeq_common ha hb (not_not.mp hlen)

theorem bitsetRefCmpLe_ends (ha : a.Ok) (hb : b.Ok) :
    Ends (bitsetRefCmpLe a b) fun r => r = true ↔ a.bits ⊆ b.bits := by
  unfold bitsetRefCmpLe
  dsimp only
  rw [assert_of ha.startbit_le, some_bind, assert_of hb.startbit_le, some_bind]
  by_cases h : b.nbits < a.nbits
  · have htail := BitsetRef.tail_ends ha _ h
    rw [show a.bsrStartbit + a.nbits = a.bsrEndbit from Nat.add_sub_cancel' ha.start_le] at htail
    rw [if_pos h]
    refine (Ends.unless htail (ncmple_common ha hb h.le le_rfl)).mono fun r hr => hr.trans ?_
    exact (subset_iff_of_lt (fun i hi => hi.1) fun i hi => hi.1).symm
  · rw [if_neg h]
    refine (ncmple_common ha hb le_rfl (not_lt.mp h)).mono fun r hr => hr.trans ?_
    exact (subset_iff_common fun i hi => hi.1).symm

/-! ### When the strict operators are right -/

/-- The demand of `bs_gr` and `bs_lo` on a longer operand `A` that is a proper superset: it is one in the common
part already, and it has a bit in its tail. -/
def TailRule (A B : Set ℕ) (n m : ℕ) : Prop :=
  m < n → B ⊂ A → B ⊂ A ∩ Set.Iio m ∧ (A \ Set.Iio m).Nonempty

section Strict

variable {A B : Set ℕ} {n m : ℕ}

theorem anyIn_iff_nonempty (hA : ∀ i ∈ A, i < n) : AnyIn (· ∈ A) m n ↔ (A \ Set.Iio m).Nonempty := by
  constructor
  · rintro ⟨i, hlo, -, hi⟩
    exact ⟨i, hi, not_lt.mpr hlo⟩
  · rintro ⟨i, hi, hno⟩
    exact ⟨i, not_lt.mp hno, hA i hi, hi⟩

theorem common_iff_inter : (∀ i < m, i ∈ A → i ∈ B) ↔ A ∩ Set.Iio m ⊆ B :=
  ⟨fun h i hi => h i hi.2 hi.1, fun h _ hlt hi => h ⟨hi, hlt⟩⟩

theorem notWithin_of_lt (hA : ∀ i ∈ A, i < n) (h : m < n) :
    NotWithin A B n m ↔ (A \ Set.Iio m).Nonempty ∧ ¬A ∩ Set.Iio m ⊆ B := by
  rw [NotWithin, if_pos h, anyIn_iff_nonempty hA, common_iff_inter]

theorem notWithin_of_le (h : n ≤ m) : NotWithin A B n m ↔ ¬A ⊆ B := by
  rw [NotWithin, if_neg (not_lt.mpr h)]

theorem TailRule.of_le (h : n ≤ m) : TailRule A B n m := fun hlt => absurd hlt (not_lt.mpr h)

/-- Both strict operators, for a longer left operand. -/
theorem strict_iff_of_lt (hA : ∀ i ∈ A, i < n) (hB : ∀ i ∈ B, i < m) (h : m < n) :
    ((NotWithin A B n m ↔ B ⊂ A) ∧ (NotWithin B A m n ↔ A ⊂ B)) ↔ (A ⊆ B ∨ B ⊆ A) ∧ TailRule A B n m := by
  have hinter : B ⊂ A → B ⊆ A ∩ Set.Iio m := fun hsub i hi => ⟨hsub.1 hi, hB i hi⟩
  rw [notWithin_of_lt hA h, notWithin_of_le h.le, not_subset_iff_ssubset, or_comm (a := B ⊆ A)]
  constructor
  · rintro ⟨hgr, hcomparable⟩
    refine ⟨hcomparable, fun _ hsub => ?_⟩
    obtain ⟨htail, hcommon⟩ := hgr.mpr hsub
    exact ⟨⟨hinter hsub, hcommon⟩, htail⟩
  · rintro ⟨hcomparable, hrule⟩
    refine ⟨⟨?_, fun hsub => ?_⟩, hcomparable⟩
    · rintro ⟨-, hcommon⟩
      have hnot : ¬A ⊆ B := fun hsub => hcommon (Set.inter_subset_left.trans hsub)
      exact ⟨hcomparable.resolve_left hnot, hnot⟩
    · obtain ⟨hcommon, htail⟩ := hrule h hsub
      exact ⟨htail, hcommon.2⟩

/-- Both strict operators of a `Bitset`. -/
theorem strict_iff (hA : ∀ i ∈ A, i < n) (hB : ∀ i ∈ B, i < m) :
    ((NotWithin A B n m ↔ B ⊂ A) ∧ (NotWithin B A m n ↔ A ⊂ B)) ↔
      (A ⊆ B ∨ B ⊆ A) ∧ TailRule A B n m ∧ TailRule B A m n := by
  rcases lt_trichotomy m n with h | rfl | h
  · rw [strict_iff_of_lt hA hB h, and_iff_left (TailRule.of_le h.le)]
  · rw [notWithin_of_le le_rfl, notWithin_of_le le_rfl, not_subset_iff_ssubset, not_subset_iff_ssubset,
      or_comm (a := B ⊆ A), and_self, and_iff_left ⟨TailRule.of_le le_rfl, TailRule.of_le le_rfl⟩]
  · rw [and_comm, strict_iff_of_lt hB hA h, or_comm (a := B ⊆ A), and_iff_right (a := TailRule A B n m)
      (TailRule.of_le h.le)]

end Strict

/-! ### The relations -/

/-- The operator returns true exactly for the operands in the set relation that it stands for. -/
def Correct (op : CmpKind) (self other : BitsetLike) : Prop :=
  Ends (compareBitsets op self other) fun r => r = true ↔ op.Holds (members self) (members other)

/-- The operands for which `<` and `>` are the strict set relations: one includes the other, and for a `Bitset` on
the left a longer proper superset obeys the tail rule. -/
def StrictOk (self other : BitsetLike) : Prop :=
  match self with
  | .bitset _ | .robitset _ =>
    (members self ⊆ members other ∨ members other ⊆ members self) ∧
      TailRule (members self) (members other) (nbits self) (nbits other) ∧
      TailRule (members other) (members self) (nbits other) (nbits self)
  | .view _ => members self ⊆ members other ∨ members other ⊆ members self

theorem lt_nbits_of_mem (self : BitsetLike) : ∀ i ∈ members self, i < nbits self := by
  cases self <;> exact fun i hi => hi.1

theorem Ends.iff_iff {m : Option Bool} {P Q : Prop} (h : Ends m fun r => r = true ↔ P) :
    (Ends m fun r => r = true ↔ Q) ↔ (P ↔ Q) := by
  constructor
  · intro h'
    obtain ⟨r, hr, hP⟩ := h
    exact hP.symm.trans (h'.of_eq hr)
  · intro hPQ
    exact h.mono fun r hr => hr.trans hPQ

theorem bsCmp_correct {op : CmpKind} (hlo : op ≠ .lo) (hgr : op ≠ .gr) :
    Ends (bsCmp self other op) fun r => r = true ↔ op.Holds self.ref.bits (deeObjectAsBitset other).bits := by
  cases op with
  | eq => exact bsCmpEqneBitsetRef_ends (deeObjectAsBitset_ok other)
  | ne => exact Ends.not (bsCmpEqneBitsetRef_ends (deeObjectAsBitset_ok other))
  | le => exact bsLe_ends
  | ge => exact bsGe_ends
  | lo => exact absurd rfl hlo
  | gr => exact absurd rfl hgr

theorem bsvCmp_correct {op : CmpKind} (hlo : op ≠ .lo) (hgr : op ≠ .gr) :
    Ends (bsvCmp view other op) fun r =>
      r = true ↔ op.Holds (bitsetRefFromview view).bits (deeObjectAsBitset other).bits := by
  have hview := bitsetRefFromview_ok view
  have hother := deeObjectAsBitset_ok other
  cases op with
  | eq => exact bitsetRefCmpEq_ends hview hother
  | ne => exact Ends.not (bitsetRefCmpEq_ends hview hother)
  | le => exact bitsetRefCmpLe_ends hview hother
  | ge => exact bitsetRefCmpLe_ends hother hview
  | lo => exact absurd rfl hlo
  | gr => exact absurd rfl hgr

/-- `==`, `!=`, `<=` and `>=` are set relations for all operands. -/
theorem compareBitsets_correct {op : CmpKind} (hlo : op ≠ .lo) (hgr : op ≠ .gr) (self other : BitsetLike) :
    Correct op self other := by
  unfold Correct
  rw [← deeObjectAsBitset_bits self, ← deeObjectAsBitset_bits other]
  cases self with
  | bitset me => exact bsCmp_correct hlo hgr
  | robitset me => exact bsCmp_correct hlo hgr
  | view me => exact bsvCmp_correct hlo hgr

theorem bsCmp_strict (me : Bitset) (self : BitsetLike) (hbits : me.ref.bits = members self)
    (hnbits : me.bsNbits = nbits self) :
    ((Ends (bsCmp me other .gr) fun r => r = true ↔ members other ⊂ members self) ∧
      Ends (bsCmp me other .lo) fun r => r = true ↔ members self ⊂ members other) ↔
    (members self ⊆ members other ∨ members other ⊆ members self) ∧
      TailRule (members self) (members other) (nbits self) (nbits other) ∧
      TailRule (members other) (members self) (nbits other) (nbits self) := by
  have hgr : Ends (bsGr me other) _ := bsGr_ends
  have hlo : Ends (bsLo me other) _ := bsLo_ends
  rw [hbits, hnbits, deeObjectAsBitset_bits, deeObjectAsBitset_nbits] at hgr hlo
  exact (and_congr (Ends.iff_iff hgr) (Ends.iff_iff hlo)).trans
    (strict_iff (lt_nbits_of_mem self) (lt_nbits_of_mem other))

theorem bsvCmp_strict (view : BitsetView) :
    ((Ends (bsvCmp view other .gr) fun r => r = true ↔ members other ⊂ members (.view view)) ∧
      Ends (bsvCmp view other .lo) fun r => r = true ↔ members (.view view) ⊂ members other) ↔
    (members (.view view) ⊆ members other ∨ members other ⊆ members (.view view)) := by
  have hview := bitsetRefFromview_ok view
  have hother := deeObjectAsBitset_ok other
  have hgr := Ends.not (bitsetRefCmpLe_ends hview hother)
  have hlo := Ends.not (bitsetRefCmpLe_ends hother hview)
  rw [bitsetRefFromview_bits, deeObjectAsBitset_bits] at hgr hlo
  refine (and_congr (Ends.iff_iff hgr) (Ends.iff_iff hlo)).trans ?_
  rw [not_subset_iff_ssubset, not_subset_iff_ssubset, or_comm (a := members other ⊆ _), and_self]

/-- All six operators are the set relations exactly for the operands of `StrictOk`. -/
theorem bitset_relations (self other : BitsetLike) : (∀ op, Correct op self other) ↔ StrictOk self other := by
  have hsplit : (∀ op, Correct op self other) ↔ Correct .gr self other ∧ Correct .lo self other := by
    refine ⟨fun h => ⟨h .gr, h .lo⟩, fun h op => ?_⟩
    by_cases hlo : op = .lo
    · exact hlo ▸ h.2
    by_cases hgr : op = .gr
    · exact hgr ▸ h.1
    exact compareBitsets_correct hlo hgr self other
  rw [hsplit]
  cases self with
  | bitset me => exact bsCmp_strict me (.bitset me) me.ref_bits rfl
  | robitset me => exact bsCmp_strict me (.robitset me) me.ref_bits rfl
  | view me => exact bsvCmp_strict me

/-- `Bitset` of 16 bits. -/
def bitset16 (lo hi : Word) : Bitset := ⟨16, [lo, hi], by simp, by simp⟩

/-- `{0} < {1}` is true. -/
theorem bitset_relations_disjoint : ¬Correct .lo (.bitset (bitset16 1 0)) (.bitset (bitset16 2 0)) := by
  intro h
  have hlt := (h.of_eq (show _ = some true by decide)).mp rfl
  have hmem : (0 : ℕ) ∈ members (.bitset (bitset16 2 0)) := hlt.1 ⟨by decide, by decide⟩
  exact absurd hmem.2 (by decide)

end Deemon.Collections
