import Deemon.Collections.BitsetObject

/-!
# The unused bits of a bitset

The bits of the last word of a `Bitset` past its bit count should be 0. All mutating operations keep it so, since
they turn no bit on past the end. Of the constructors, the copy of a bitset or a view into fresh memory keeps it only
if its source starts at a word, or no stale bit of the memory is left: the loop for a source that is not aligned
copies bits one at a time and leaves the rest of the last word as the allocator handed it out. A growth to a size
that is not a multiple of the word size leaves stale bits in the same way.
-/

namespace Deemon.Collections

open Deemon.Run Deemon.BitString Deemon.Hybrid

/-! ### The invariant -/

/-- The unused bits are 0. -/
structure TailZero (b : BitsetObject) : Prop where
  nbits_lt : b.bsNbits + 7 < 2 ^ 64
  fits : b.bsNbits ≤ 8 * b.bsBitset.length
  tail : ∀ i, b.bsNbits ≤ i → ¬Bits b.bsBitset i

theorem TailZero.of_setsBelow {b : BitsetObject} {words : List Word} (h : TailZero b)
    (hw : SetsBelow b.bsNbits b.bsBitset words) : TailZero { b with bsBitset := words } :=
  ⟨h.nbits_lt, by rw [hw.length]; exact h.fits, hw.none h.tail⟩

/-- A mutation keeps the bit count and turns no bit on past the end. -/
def Within (b b' : BitsetObject) : Prop := ∃ words, b' = { b with bsBitset := words } ∧ SetsBelow b.bsNbits b.bsBitset words

theorem TailZero.of_within {b b' : BitsetObject} (h : TailZero b) (hw : Within b b') : TailZero b' := by
  obtain ⟨words, rfl, hwords⟩ := hw
  exact h.of_setsBelow hwords

theorem Within.refl {b : BitsetObject} : Within b b := ⟨b.bsBitset, rfl, SetsBelow.refl⟩

/-! ### Fresh memory -/

theorem bits_lt_of_length {l : List Word} {i : ℕ} (h : Bits l i) : i < 8 * l.length := by
  by_contra hle
  unfold Bits bitAt word at h
  rw [List.getD_eq_default _ _ (by omega)] at h
  simp at h

theorem length_bitsetAlloc (content : ℕ → Word) (n : ℕ) : (bitsetAlloc content n).length = bitsetLengthof n := by
  rw [bitsetAlloc, List.length_map, List.length_range]

theorem length_bitsetCalloc (n : ℕ) : (bitsetCalloc n).length = bitsetLengthof n := List.length_replicate

theorem length_bitsetRealloc (content : ℕ → Word) (self : List Word) (n : ℕ) :
    (bitsetRealloc content self n).length = bitsetLengthof n := by
  rw [bitsetRealloc, List.length_map, List.length_range]

theorem bitsetLengthof_le {n : ℕ} (h : n + 7 < 2 ^ 64) : n ≤ 8 * bitsetLengthof n := by
  rw [bitsetLengthof_eq h]
  omega

theorem not_bits_calloc (n i : ℕ) : ¬Bits (bitsetCalloc n) i := by
  have hword : word (bitsetCalloc n) (i / 8) = 0 := by
    simp only [word, bitsetCalloc, List.getD_eq_getElem?_getD, List.getElem?_replicate]
    by_cases h : i / 8 < bitsetLengthof n
    · rw [if_pos h, Option.getD_some]
    · rw [if_neg h, Option.getD_none]
  rw [Bits, bitAt, hword]
  simp

/-- Memory that shrinks keeps its bits. -/
theorem bits_of_realloc_zero {self : List Word} {n i : ℕ} (h : Bits (bitsetRealloc (fun _ => 0) self n) i) :
    Bits self i := by
  have hlt := bits_lt_of_length h
  rw [length_bitsetRealloc] at hlt
  have hword : word (bitsetRealloc (fun _ => 0) self n) (i / 8) = word self (i / 8) := by
    unfold bitsetRealloc
    rw [word, List.getD_eq_getElem _ _ (by simpa using by omega), List.getElem_map, List.getElem_range]
    by_cases hi : i / 8 < self.length
    · rw [if_pos hi]
    · rw [if_neg hi, word, List.getD_eq_default _ _ (not_lt.mp hi)]
  rwa [Bits, bitAt, hword] at h

/-! ### Copies and masks -/

section Copies

variable {dst : List Word} {src : Src} {n : ℕ}

/-- Without unused bits in the words of `n` bits. -/
def LastWordClean (words : List Word) (n : ℕ) : Prop := ∀ i, n ≤ i → i < 8 * bitsetLengthof n → ¬Bits words i

/-- The copy cleans the last word if the source is aligned. -/
theorem bitsetNcopy0AndZeroUnusedBits_ends {before : Bool} {start : ℕ} (hn : n + 7 < 2 ^ 64)
    (hdst : n ≤ 8 * dst.length) (hsrc : start + n ≤ 8 * src.room dst.length) :
    Ends (bitsetNcopy0AndZeroUnusedBits before dst src start n) fun r =>
      SetsBelow n dst r ∧ (start % 8 = 0 → LastWordClean r n) := by
  have hroom : (src.add (start / 8)).room dst.length = src.room dst.length - start / 8 := Src.room_add _ _
  have hsplit := bitno_eq n
  have hbit := bitsetBit_lt n
  rw [bitsetWord_eq] at hsplit
  unfold bitsetNcopy0AndZeroUnusedBits
  rw [Src.advance_eq]
  dsimp only
  rw [assert_of (by omega), some_bind]
  by_cases halign : start % 8 = 0
  · rw [if_pos halign, Nat.shiftRight_eq_div_pow]
    refine Ends.bind (moveWords_ends (by omega) (by omega)) fun s hs => ?_
    have hlen := hs.length
    by_cases hpart : bitsetBit n ≠ 0
    · rw [if_pos hpart]
      refine Ends.bind (Src.read_ends (by rw [Src.room_add, hlen]; omega)) fun w _ => ?_
      have hmask := isMask_loMaskin _ hbit
      have hoff : ∀ k < 8, n ≤ 8 * (n / 2 ^ 3) + k →
          ¬(w &&& bitsetLoMaskin (bitsetBit n)).getLsbD k = true := by
        intro k hk hle h
        have hcut := (hmask.getLsbD_and w hk).mp h
        omega
      have hupdate := updateWord_ends (l := s) (n := n) (i := n / 2 ^ 3)
        (f := fun _ => w &&& bitsetLoMaskin (bitsetBit n)) (by omega) fun k hk hle h => absurd h (hoff k hk hle)
      refine hupdate.mono ?_
      rintro r ⟨hr, hword⟩
      refine ⟨(hs.mono (by omega)).trans hr, fun _ i hlo hhi => ?_⟩
      rw [bitsetLengthof_eq hn] at hhi
      obtain ⟨k, hk, rfl⟩ : ∃ k < 8, i = 8 * (n / 2 ^ 3) + k := ⟨i - 8 * (n / 2 ^ 3), by omega, by omega⟩
      rw [bits_word _ _ hk, hword]
      exact hoff k hk hlo
    · rw [if_neg hpart]
      refine Ends.pure ⟨hs.mono (by omega), fun _ i hlo hhi => ?_⟩
      rw [bitsetLengthof_eq hn] at hhi
      omega
  · rw [if_neg halign]
    refine (copyLoop_ends (N := n) fun i s hi hlen => ?_).mono fun s hs => ⟨hs, fun h => absurd h halign⟩
    exact copyBit_ends (by omega) (by rw [hlen]; omega) (by omega)

/-- The mask cleans the last word. -/
theorem zeroUnusedBits_ends {s : List Word} (hn : n + 7 < 2 ^ 64) (hlen : n ≤ 8 * dst.length)
    (hs : SetsBelow (8 * bitsetLengthof n) dst s) :
    Ends (zeroUnusedBits s n) fun r => SetsBelow n dst r ∧ LastWordClean r n := by
  have hsplit := bitno_eq n
  have hbit := bitsetBit_lt n
  have hslen := hs.length
  rw [bitsetWord_eq] at hsplit
  rw [bitsetLengthof_eq hn] at hs
  unfold zeroUnusedBits LastWordClean
  rw [bitsetLengthof_eq hn]
  by_cases hpart : bitsetBit n ≠ 0
  · rw [if_pos hpart, Nat.shiftRight_eq_div_pow]
    refine (updateAnd_ends (by omega)).mono ?_
    rintro r ⟨hr, hoff⟩
    have hclean : ∀ i, n ≤ i → i < 8 * ((n + 7) / 8) → ¬Bits r i := by
      intro i hlo hhi
      obtain ⟨k, hk, rfl⟩ : ∃ k < 8, i = 8 * (n / 2 ^ 3) + k := ⟨i - 8 * (n / 2 ^ 3), by omega, by omega⟩
      exact hoff k hk (by rw [isMask_loMaskin _ hbit k hk, decide_eq_false (by omega)])
    refine ⟨⟨hr.length.trans hslen, fun i hi hset => ?_⟩, hclean⟩
    by_cases hlast : i < 8 * ((n + 7) / 8)
    · exact absurd hset (hclean i hi hlast)
    · exact hs.bits i (by omega) (hr.bits i (Nat.zero_le i) hset)
  · rw [if_neg hpart]
    exact Ends.pure ⟨hs.mono (by omega), fun i hlo hhi => by omega⟩

theorem bitsetSetallAndZeroUnusedBits_ends (hn : n + 7 < 2 ^ 64) (hlen : n ≤ 8 * dst.length) :
    Ends (bitsetSetallAndZeroUnusedBits dst n) fun r => SetsBelow n dst r ∧ LastWordClean r n :=
  Ends.bind (bitsetSetall_ends (by rw [bitsetLengthof_eq hn]; omega)) fun _ hs => zeroUnusedBits_ends hn hlen hs

theorem bitsetFlipallAndZeroUnusedBits_ends (hn : n + 7 < 2 ^ 64) (hlen : n ≤ 8 * dst.length) :
    Ends (bitsetFlipallAndZeroUnusedBits dst n) fun r => SetsBelow n dst r ∧ LastWordClean r n :=
  Ends.bind (bitsetFlipall_ends (by rw [bitsetLengthof_eq hn]; omega)) fun _ hs => zeroUnusedBits_ends hn hlen hs

end Copies

/-! ### Operands -/

/-- A view is made of bits of its buffer. -/
def Operand.Ok (heap : Heap) : Operand → Prop
  | .object _ => True
  | .slice j startbit endbit => startbit ≤ endbit ∧ ∃ b, heap[j]? = some b ∧ endbit ≤ b.bsNbits
  | .view words startbit endbit => startbit ≤ endbit ∧ endbit ≤ 8 * words.length ∧ words.length < 2 ^ 61

/-- What `DeeObject_AsBitset` promises, next to a destination buffer of `len` words. -/
structure SrcRef.Ok (len : ℕ) (ref : SrcRef) : Prop where
  startbit_le : ref.bsrStartbit ≤ 7
  start_le : ref.bsrStartbit ≤ ref.bsrEndbit
  fits : ref.bsrEndbit ≤ 8 * ref.bsrBitset.room len
  nbits_lt : ref.nbits + 7 < 2 ^ 64

theorem SrcRef.fix_ok {len : ℕ} {ref : SrcRef} (hle : ref.bsrStartbit ≤ ref.bsrEndbit)
    (hfits : ref.bsrEndbit ≤ 8 * ref.bsrBitset.room len) (hn : ref.nbits + 7 < 2 ^ 64) : ref.fix.Ok len := by
  have hand : ref.bsrStartbit &&& 7 = ref.bsrStartbit % 8 := Nat.and_two_pow_sub_one_eq_mod _ 3
  unfold SrcRef.nbits at hn
  unfold SrcRef.fix
  by_cases hfix : 7 < ref.bsrStartbit
  · rw [if_pos hfix]
    constructor
    · dsimp only
      omega
    · dsimp only
      omega
    · dsimp only
      rw [Src.room_add, Nat.shiftRight_eq_div_pow]
      omega
    · dsimp only [SrcRef.nbits]
      omega
  · rw [if_neg hfix]
    exact ⟨not_lt.mp hfix, hle, hfits, hn⟩

/-- The length of the buffer that an operation writes. -/
def DstLen (heap : Heap) (dst : Option ℕ) (len : ℕ) : Prop :=
  ∀ i, dst = some i → ∃ b, heap[i]? = some b ∧ b.bsBitset.length = len

theorem heapSrc_room {heap : Heap} {dst : Option ℕ} {len j : ℕ} {b : BitsetObject} (hdst : DstLen heap dst len)
    (hj : heap[j]? = some b) : (heapSrc heap dst j).room len = b.bsBitset.length := by
  unfold heapSrc
  by_cases h : dst = some j
  · obtain ⟨b', hb', hlen⟩ := hdst j h
    rw [if_pos h, Src.room, Nat.sub_zero, ← hlen]
    rw [hj, Option.some.injEq] at hb'
    rw [hb']
  · rw [if_neg h, hj]
    rfl

theorem asBitset_ok {heap : Heap} {dst : Option ℕ} {len : ℕ} {op : Operand} (hheap : ∀ b ∈ heap, TailZero b)
    (hdst : DstLen heap dst len) (hop : op.Ok heap) : (asBitset heap dst op).Ok len := by
  cases op with
  | object j =>
    have hbits : ∀ n, ((heap[j]?).map BitsetObject.bsNbits).getD 0 = n → n ≤ 8 * (heapSrc heap dst j).room len →
        n + 7 < 2 ^ 64 → (asBitset heap dst (.object j)).Ok len := by
      rintro n rfl hfits hlt
      exact ⟨Nat.zero_le _, Nat.zero_le _, hfits, hlt⟩
    cases hj : heap[j]? with
    | none => exact hbits 0 (by rw [hj]; rfl) (Nat.zero_le _) (by decide)
    | some b =>
      have hb := hheap b (List.mem_of_getElem? hj)
      refine hbits b.bsNbits (by rw [hj]; rfl) ?_ hb.nbits_lt
      rw [heapSrc_room hdst hj]
      exact hb.fits
  | slice j startbit endbit =>
    obtain ⟨hle, b, hj, hend⟩ := hop
    have hb := hheap b (List.mem_of_getElem? hj)
    have hfits := hb.fits
    have hlt := hb.nbits_lt
    refine SrcRef.fix_ok hle ?_ ?_
    · dsimp only
      rw [heapSrc_room hdst hj]
      omega
    · dsimp only [SrcRef.nbits]
      omega
  | view words startbit endbit =>
    obtain ⟨hle, hfits, hlen⟩ := hop
    refine SrcRef.fix_ok hle hfits ?_
    dsimp only [SrcRef.nbits]
    omega

theorem Src.length_words (buf : List Word) (src : Src) : (src.words buf).length = src.room buf.length := by
  cases src with
  | own p => exact List.length_drop
  | other words p => exact List.length_drop

/-- A reference cut down to its first bits. -/
theorem SrcRef.Ok.trim {len n : ℕ} {ref : SrcRef} (h : ref.Ok len) (hn : n ≤ ref.nbits) :
    ({ ref with bsrEndbit := ref.bsrStartbit + n } : SrcRef).Ok len := by
  have hfits := h.fits
  have hle := h.start_le
  have hlt := h.nbits_lt
  have hnbits : ref.nbits = ref.bsrEndbit - ref.bsrStartbit := rfl
  refine ⟨h.startbit_le, Nat.le_add_right _ _, ?_, ?_⟩
  · dsimp only
    omega
  · dsimp only [SrcRef.nbits]
    omega

theorem trimSource_ends {buf : List Word} {src : SrcRef} {n : ℕ} (hsrc : src.Ok buf.length) :
    Ends (trimSource buf src n) fun r => ∀ ref, r = some ref → ref.Ok buf.length ∧ ref.nbits ≤ n := by
  have hstart := hsrc.start_le
  have hfits := hsrc.fits
  have hlt := hsrc.nbits_lt
  have hnbits : src.nbits = src.bsrEndbit - src.bsrStartbit := rfl
  unfold trimSource
  by_cases h : n < src.nbits
  · rw [if_pos h]
    have hsearch : Ends (bitsetNffs (src.bsrBitset.words buf) (src.bsrStartbit + n) src.bsrEndbit) _ :=
      bitsetNffs_ends (by omega) (by rw [Src.length_words]; exact hfits)
    refine Ends.bind hsearch fun oob hoob => ?_
    by_cases hfound : oob < src.bsrEndbit
    · rw [found_of_lt hfound] at hoob
      obtain ⟨hlo, -⟩ := hoob
      rw [if_pos hfound, assert_of (by omega), some_bind]
      exact Ends.pure (by simp)
    · rw [if_neg hfound]
      refine Ends.pure ?_
      rintro ref ⟨⟩
      exact ⟨hsrc.trim h.le, (Nat.add_sub_cancel_left _ _).le⟩
  · rw [if_neg h]
    refine Ends.pure ?_
    rintro ref ⟨⟩
    exact ⟨hsrc, not_lt.mp h⟩

/-! ### Mutations -/

section Mutations

variable {self : BitsetObject} {update : BitUpdate} {before : Bool}

theorem write_ends {words : Option (List Word)} (h : Ends words (SetsBelow self.bsNbits self.bsBitset)) :
    Ends (self.write words) (Within self) :=
  Ends.bind h fun words hs => Ends.pure ⟨words, rfl, hs⟩

theorem bsUpdateIndex_ends (h : TailZero self) (bitno : ℕ) : Ends (bsUpdateIndex self update bitno) (Within self) := by
  have hfits := h.fits
  unfold bsUpdateIndex
  by_cases hout : self.bsNbits ≤ bitno
  · rw [if_pos hout]
    exact Ends.pure Within.refl
  · rw [if_neg hout]
    apply write_ends
    cases update with
    | set => exact bitsetSet_ends (by omega) (by omega)
    | clear => exact (bitsetClear_ends (by omega)).mono fun _ hs => hs.mono (Nat.zero_le _)
    | flip => exact bitsetFlip_ends (by omega) (by omega)

theorem bsUpdateAll_ends (h : TailZero self) : Ends (bsUpdateAll self update) (Within self) := by
  have hfits := h.fits
  have hlt := h.nbits_lt
  apply write_ends
  cases update with
  | set => exact (bitsetSetallAndZeroUnusedBits_ends hlt hfits).mono fun _ hs => hs.1
  | clear =>
    refine (bitsetClearall_ends ?_).mono fun _ hs => hs.mono (Nat.zero_le _)
    rw [bitsetLengthof_eq hlt]
    omega
  | flip => exact (bitsetFlipallAndZeroUnusedBits_ends hlt hfits).mono fun _ hs => hs.1

theorem updateRange_ends {start stop : ℕ} (h : TailZero self) (hstop : stop ≤ self.bsNbits) :
    Ends (updateRange self update start stop) (Within self) := by
  have hfits := h.fits
  apply write_ends
  cases update with
  | set => exact (bitsetNset_ends (by omega)).mono fun _ hs => hs.mono (by omega)
  | clear => exact (bitsetNclear_ends (by omega)).mono fun _ hs => hs.1.mono (Nat.zero_le _)
  | flip => exact (bitsetNflip_ends (by omega)).mono fun _ hs => hs.mono (by omega)

theorem bsUpdateRange_ends (h : TailZero self) (start stop : ℕ) :
    Ends (bsUpdateRange self update start stop) (Within self) := by
  refine updateRange_ends h ?_
  by_cases hstop : self.bsNbits < stop
  · rw [if_pos hstop]
  · rw [if_neg hstop]
    omega

theorem bsDelrangeIndexN_ends (h : TailZero self) (start : ℕ) : Ends (bsDelrangeIndexN self start) (Within self) := by
  unfold bsDelrangeIndexN
  exact updateRange_ends h le_rfl

theorem bitsetRefAssign_ends {buf : List Word} {dst lo hi : ℕ} {src : SrcRef} (hsrc : src.Ok buf.length)
    (hlo : lo ≤ 7) (hle : lo ≤ hi) (hfits : 8 * dst + hi ≤ 8 * buf.length) :
    Ends (bitsetRefAssign before buf dst lo hi src) (SetsBelow (8 * dst + hi) buf) := by
  unfold bitsetRefAssign
  dsimp only
  refine Ends.bind (trimSource_ends hsrc) fun trimmed htrim => ?_
  cases trimmed with
  | none => exact Ends.pure SetsBelow.refl
  | some ref =>
    obtain ⟨hok, hn⟩ := htrim ref rfl
    have hreffits := hok.fits
    have hrefle := hok.start_le
    have hnbits : ref.nbits = ref.bsrEndbit - ref.bsrStartbit := rfl
    dsimp only
    rw [assert_of hlo, some_bind, assert_of hok.startbit_le, some_bind]
    refine Ends.bind (bitsetNcopy_ends (by omega) (by omega)) fun s hs => ?_
    have hlen := hs.length
    by_cases hrest : ref.nbits < hi - lo
    · rw [if_pos hrest]
      refine (bitsetNclear_ends (by omega)).mono fun s' hs' => ?_
      exact (hs.mono (by omega)).trans (hs'.1.mono (Nat.zero_le _))
    · rw [if_neg hrest]
      exact Ends.pure (hs.mono (by omega))

theorem bsSetrangeBitset_ends {start stop : ℕ} {src : SrcRef} (h : TailZero self) (hstart : start < 2 ^ 64)
    (hstop : stop < 2 ^ 64) (hsrc : src.Ok self.bsBitset.length) :
    Ends (bsSetrangeBitset before self start stop src) (Within self) := by
  have hfits := h.fits
  obtain ⟨hle, hsize⟩ := @deeSeqRangeClamp_ok _ _ self.bsNbits hstart hstop
  obtain ⟨range, hrange⟩ : ∃ range, range = deeSeqRangeClamp start stop self.bsNbits := ⟨_, rfl⟩
  have hand : range.1 &&& 7 = range.1 % 8 := Nat.and_two_pow_sub_one_eq_mod _ 3
  rw [← hrange] at hle hsize
  unfold bsSetrangeBitset
  rw [← hrange]
  apply write_ends
  by_cases hfix : 7 < range.1
  · rw [if_pos hfix, hand, Nat.shiftRight_eq_div_pow]
    exact (bitsetRefAssign_ends hsrc (by omega) (by omega) (by omega)).mono fun _ hs => hs.mono (by omega)
  · rw [if_neg hfix]
    exact (bitsetRefAssign_ends hsrc (by omega) hle (by omega)).mono fun _ hs => hs.mono (by omega)

/-- The bits of a destination that no source bit is for are cleared, or left alone. -/
theorem clearRest_ends {words : List Word} {n : ℕ} {p : Prop} [Decidable p] (h : TailZero self)
    (hs : SetsBelow self.bsNbits self.bsBitset words) :
    Ends (if p then bitsetNclear words 0 n self.bsNbits else some words)
      (SetsBelow self.bsNbits self.bsBitset) := by
  have hfits := h.fits
  have hlen := hs.length
  by_cases hp : p
  · rw [if_pos hp]
    exact (bitsetNclear_ends (by omega)).mono fun _ hs' => hs.trans (hs'.1.mono (Nat.zero_le _))
  · rw [if_neg hp]
    exact Ends.pure hs

theorem bsAssignBitset_ends {ref : SrcRef} (h : TailZero self) (href : ref.Ok self.bsBitset.length) :
    Ends (bsAssignBitset before self ref) (Within self) := by
  have hfits := h.fits
  unfold bsAssignBitset
  refine Ends.bind (trimSource_ends href) fun trimmed htrim => ?_
  cases trimmed with
  | none => exact Ends.pure Within.refl
  | some ref =>
    obtain ⟨hok, hn⟩ := htrim ref rfl
    have hreffits := hok.fits
    have hrefle := hok.start_le
    have hnbits : ref.nbits = ref.bsrEndbit - ref.bsrStartbit := rfl
    apply write_ends
    rw [assert_of hok.startbit_le, some_bind]
    refine Ends.bind (bitsetNcopy0AndZeroUnusedBits_ends hok.nbits_lt (by omega) (by omega)) ?_
    rintro s ⟨hs, -⟩
    exact clearRest_ends h (hs.mono hn)

theorem inplaceopSource_ends {op : BitsetOp} {ref : SrcRef} (href : ref.Ok self.bsBitset.length) :
    Ends (inplaceopSource op self ref) fun r =>
      ∀ ref', r = some ref' → ref'.Ok self.bsBitset.length ∧ ref'.nbits ≤ self.bsNbits := by
  unfold inplaceopSource
  by_cases hop : op = .and
  · rw [if_pos hop]
    refine Ends.pure ?_
    rintro ref' ⟨⟩
    by_cases hlong : self.bsNbits < ref.nbits
    · rw [if_pos hlong]
      exact ⟨href.trim hlong.le, (Nat.add_sub_cancel_left _ _).le⟩
    · rw [if_neg hlong]
      exact ⟨href, not_lt.mp hlong⟩
  · rw [if_neg hop]
    exact trimSource_ends href

theorem bsInplaceopBitset_ends {op : BitsetOp} {ref : SrcRef} (h : TailZero self)
    (href : ref.Ok self.bsBitset.length) : Ends (bsInplaceopBitset before op self ref) (Within self) := by
  have hfits := h.fits
  unfold bsInplaceopBitset
  refine Ends.bind (inplaceopSource_ends href) fun trimmed htrim => ?_
  cases trimmed with
  | none => exact Ends.pure Within.refl
  | some ref =>
    obtain ⟨hok, hn⟩ := htrim ref rfl
    have hreffits := hok.fits
    have hrefle := hok.start_le
    have hnbits : ref.nbits = ref.bsrEndbit - ref.bsrStartbit := rfl
    apply write_ends
    rw [assert_of hok.startbit_le, some_bind]
    refine Ends.bind (bitsetNbitop_ends (by omega) (by omega)) fun s hs => ?_
    exact clearRest_ends h (hs.mono (by omega))

end Mutations

/-! ### Sequences -/

/-- The memory of a growing bitset holds no stale bits past the new size. -/
def ItemOk (me : BitsetFromseqData) (item : SeqItem) : Prop :=
  ∀ bitno new, item.bitno = some bitno → me.bsfsdAbits ≤ bitno → growAbits item me.bsfsdAbits bitno = some new →
    new + 7 < 2 ^ 64 ∧ ∀ i, new ≤ i → ¬Bits (bitsetRealloc item.content me.bsfsdBitset.bsBitset new) i

/-- All growths of a sequence are such. -/
def ItemsOk : List SeqItem → BitsetFromseqData → Prop
  | [], _ => True
  | item :: items, me => ItemOk me item ∧ ∀ me', bitsetFromseqCb me item = some (some me') → ItemsOk items me'

/-- The sequence makes a bitset without stale bits. -/
def SeqArg.Ok (seq : SeqArg) (minbits : ℕ) : Prop :=
  minbits + 7 < 2 ^ 64 ∧ ItemsOk seq.items ⟨⟨minbits, bitsetCalloc (initAbits minbits)⟩, initAbits minbits⟩

/-- The invariant of `struct bitset_fromseq_data`: all allocated bits past the end are 0. -/
structure DataOk (me : BitsetFromseqData) : Prop where
  tail : TailZero me.bsfsdBitset
  nbits_le : me.bsfsdBitset.bsNbits ≤ me.bsfsdAbits
  abits_lt : me.bsfsdAbits + 7 < 2 ^ 64
  abits_le : me.bsfsdAbits ≤ 8 * me.bsfsdBitset.bsBitset.length

/-- Doubling ends with a size that is large enough, or when all bits are shifted out. -/
theorem doubleAbits_exit (bitno k abits : ℕ) :
    bitno < doubleAbits bitno (k + 1) abits ∨ doubleAbits bitno (k + 1) abits = 2 ^ (k + 1) * abits % 2 ^ 64 := by
  induction k generalizing abits with
  | zero =>
    refine Or.inr ?_
    simp only [doubleAbits, Nat.shiftLeft_eq]
    split_ifs <;> rw [Nat.mul_comm]
  | succ k ih =>
    rw [doubleAbits]
    by_cases h : abits <<< 1 % 2 ^ 64 ≤ bitno ∧ abits <<< 1 % 2 ^ 64 ≠ 0
    · rw [if_pos h]
      rcases ih (abits <<< 1 % 2 ^ 64) with hlt | heq
      · exact Or.inl hlt
      · refine Or.inr ?_
        rw [heq, Nat.mul_mod_mod, Nat.shiftLeft_eq, pow_succ 2 (k + 1)]
        congr 1
        ring
    · rw [if_neg h]
      rw [not_and_or, not_le, not_not] at h
      rcases h with hlt | hzero
      · exact Or.inl hlt
      · refine Or.inr ?_
        rw [hzero, eq_comm, ← Nat.dvd_iff_mod_eq_zero]
        rw [← Nat.dvd_iff_mod_eq_zero, Nat.shiftLeft_eq] at hzero
        exact hzero.trans ⟨2 ^ (k + 1), by rw [pow_succ 2 (k + 1)]; ring⟩

/-- The loop is left: 65 rounds are more than it takes. -/
theorem doubleAbits_done (bitno abits : ℕ) : bitno < doubleAbits bitno 65 abits ∨ doubleAbits bitno 65 abits = 0 := by
  refine (doubleAbits_exit bitno 64 abits).imp_right fun h => h.trans ?_
  rw [show 2 ^ (64 + 1) * abits = 2 ^ 64 * (2 * abits) by ring, Nat.mul_mod_right]

theorem doubleAbits_lt (bitno k abits : ℕ) : doubleAbits bitno (k + 1) abits < 2 ^ 64 := by
  induction k generalizing abits with
  | zero =>
    simp only [doubleAbits]
    split_ifs <;> exact Nat.mod_lt _ (by decide)
  | succ k ih =>
    rw [doubleAbits]
    split_ifs
    · exact ih _
    · exact Nat.mod_lt _ (by decide)

theorem newAbits_bounds {abits bitno new : ℕ} (h : newAbits abits bitno = some new) : bitno < new ∧ new < 2 ^ 64 := by
  unfold newAbits at h
  dsimp only at h
  split_ifs at h with h1 h2
  · cases h
    exact ⟨not_le.mp h2, Nat.mod_lt _ (by decide)⟩
  · cases h
    exact ⟨not_le.mp h1, doubleAbits_lt bitno 64 abits⟩

/-- A growth makes room for the bit. -/
theorem lt_growAbits {item : SeqItem} {abits bitno new : ℕ} (h : growAbits item abits bitno = some new) :
    bitno < new := by
  unfold growAbits at h
  cases hm : newAbits abits bitno with
  | none =>
    rw [hm] at h
    exact absurd h (by simp)
  | some m =>
    obtain ⟨hlt, hsize⟩ := newAbits_bounds hm
    rw [hm, some_bind] at h
    split_ifs at h
    · cases h
      exact hlt
    · cases h
      rw [Nat.mod_eq_of_lt (by omega)]
      omega

/-- One more bit in a bitset that has room for it. -/
theorem addBit_ends (me : BitsetFromseqData) {bitno : ℕ} (h : DataOk me) (hroom : bitno < me.bsfsdAbits) :
    Ends (do
      let nbits := if me.bsfsdBitset.bsNbits ≤ bitno then bitno + 1 else me.bsfsdBitset.bsNbits
      let words ← bitsetSet me.bsfsdBitset.bsBitset 0 bitno
      some (some ({ me with bsfsdBitset := ⟨nbits, words⟩ } : BitsetFromseqData)))
      fun r => ∀ me', r = some me' → DataOk me' := by
  have hlt := h.abits_lt
  have hle := h.abits_le
  have hnle := h.nbits_le
  dsimp only
  obtain ⟨n, hn⟩ : ∃ n, n = (if me.bsfsdBitset.bsNbits ≤ bitno then bitno + 1 else me.bsfsdBitset.bsNbits) := ⟨_, rfl⟩
  have hnge : me.bsfsdBitset.bsNbits ≤ n ∧ bitno < n ∧ n ≤ me.bsfsdAbits := by
    rw [hn]
    split_ifs <;> omega
  rw [← hn]
  refine Ends.bind (bitsetSet_ends (n := n) (by omega) (by omega)) fun words hs => Ends.pure ?_
  have hlen := hs.length
  rintro me' ⟨⟩
  refine ⟨⟨?_, ?_, hs.none fun i hi => h.tail.tail i (by omega)⟩, hnge.2.2, hlt, ?_⟩
  · dsimp only
    omega
  · dsimp only
    omega
  · dsimp only
    omega

theorem bitsetFromseqCb_ends {me : BitsetFromseqData} {item : SeqItem} (h : DataOk me) (hitem : ItemOk me item) :
    Ends (bitsetFromseqCb me item) fun r => ∀ me', r = some me' → DataOk me' := by
  unfold bitsetFromseqCb
  dsimp only
  cases hbitno : item.bitno with
  | none => exact Ends.pure (by simp)
  | some bitno =>
    dsimp only
    by_cases hgrow : me.bsfsdAbits ≤ bitno
    · rw [if_pos hgrow]
      cases hnew : growAbits item me.bsfsdAbits bitno with
      | none => exact Ends.pure (by simp)
      | some new =>
        obtain ⟨hlt, hstale⟩ := hitem bitno new hbitno hgrow hnew
        have hbit := lt_growAbits hnew
        have hlen := length_bitsetRealloc item.content me.bsfsdBitset.bsBitset new
        have hroom := bitsetLengthof_le hlt
        have hnle := h.nbits_le
        dsimp only
        refine Ends.bind (@bitsetNclear_ends _ _ me.bsfsdBitset.bsNbits _ (by omega)) ?_
        rintro words ⟨hs, hoff⟩
        have hslen := hs.length
        refine addBit_ends ⟨⟨me.bsfsdBitset.bsNbits, words⟩, new⟩ ⟨⟨?_, ?_, ?_⟩, ?_, hlt, ?_⟩ hbit
        · exact h.tail.nbits_lt
        · dsimp only
          omega
        · intro i hi hset
          by_cases hin : i < new
          · exact hoff i hi hin (by rwa [Nat.mul_zero, Nat.zero_add])
          · exact hstale i (not_lt.mp hin) (hs.bits i (Nat.zero_le i) hset)
        · dsimp only
          omega
        · dsimp only
          omega
    · rw [if_neg hgrow]
      exact addBit_ends me h (not_le.mp hgrow)

theorem bitsetFromseq_ends {items : List SeqItem} {me : BitsetFromseqData} (h : DataOk me) (hitems : ItemsOk items me) :
    Ends (bitsetFromseq items me) fun r => ∀ me', r = some me' → DataOk me' := by
  induction items generalizing me with
  | nil =>
    refine Ends.pure ?_
    rintro me' ⟨⟩
    exact h
  | cons item items ih =>
    obtain ⟨r, hr, hok⟩ := bitsetFromseqCb_ends h hitems.1
    rw [bitsetFromseq, hr, some_bind]
    cases r with
    | none => exact Ends.pure (by simp)
    | some me' => exact ih (hok me' rfl) (hitems.2 me' hr)

theorem initAbits_ok {minbits : ℕ} (h : minbits + 7 < 2 ^ 64) :
    minbits ≤ initAbits minbits ∧ initAbits minbits + 7 < 2 ^ 64 := by
  unfold initAbits
  split_ifs with hlarge
  · rw [Nat.mod_eq_of_lt h]
    omega
  · omega

theorem bsInitFromseq_ends {seq : SeqArg} {minbits : ℕ} (h : seq.Ok minbits) :
    Ends (bsInitFromseq seq minbits) fun r => ∀ b, r = some b → TailZero b := by
  obtain ⟨hmin, hitems⟩ := h
  obtain ⟨hle, hlt⟩ := initAbits_ok hmin
  have hlen := length_bitsetCalloc (initAbits minbits)
  have hroom := bitsetLengthof_le hlt
  have hdata : DataOk ⟨⟨minbits, bitsetCalloc (initAbits minbits)⟩, initAbits minbits⟩ := by
    refine ⟨⟨hmin, ?_, fun i _ => not_bits_calloc _ i⟩, hle, hlt, ?_⟩
    · dsimp only
      omega
    · dsimp only
      omega
  unfold bsInitFromseq
  by_cases hcalloc : (!seq.calloc) = true
  · rw [if_pos hcalloc]
    exact Ends.pure (by simp)
  · rw [if_neg hcalloc]
    refine Ends.bind (bitsetFromseq_ends hdata hitems) fun r hr => ?_
    cases r with
    | none => exact Ends.pure (by simp)
    | some data =>
      have hok := hr data rfl
      dsimp only
      by_cases hfinished : (!seq.finished) = true
      · rw [if_pos hfinished]
        exact Ends.pure (by simp)
      · rw [if_neg hfinished, assert_of hok.nbits_le, some_bind]
        by_cases hshrink : data.bsfsdBitset.bsNbits < data.bsfsdAbits ∧ seq.shrink = true
        · rw [if_pos hshrink]
          refine Ends.pure ?_
          rintro b ⟨⟩
          refine ⟨hok.tail.nbits_lt, ?_, fun i hi hset => hok.tail.tail i hi (bits_of_realloc_zero hset)⟩
          rw [length_bitsetRealloc]
          exact bitsetLengthof_le hok.tail.nbits_lt
        · rw [if_neg hshrink]
          refine Ends.pure ?_
          rintro b ⟨⟩
          exact hok.tail

/-! ### Constructors -/

/-- A new bitset, if there is one, has no stale bits. -/
def NewOk (result : Option (Option BitsetObject)) : Prop := Ends result fun r => ∀ b, r = some b → TailZero b

theorem newOk_some {b : BitsetObject} (h : TailZero b) : NewOk (some (some b)) := by
  refine Ends.pure ?_
  rintro b' ⟨⟩
  exact h

theorem newOk_none : NewOk (some none) := Ends.pure (by simp)

theorem tailZero_of_clean {words : List Word} {n : ℕ} (hn : n + 7 < 2 ^ 64) (hlen : words.length = bitsetLengthof n)
    (h : LastWordClean words n) : TailZero ⟨n, words⟩ := by
  refine ⟨hn, ?_, fun i hi hset => ?_⟩
  · dsimp only
    rw [hlen]
    exact bitsetLengthof_le hn
  · have hlt := bits_lt_of_length hset
    rw [hlen] at hlt
    exact h i hi hlt hset

theorem bsCtor_ok (block : Block) : NewOk (bsCtor block) := by
  cases block with
  | none => exact newOk_none
  | some content =>
    refine newOk_some (tailZero_of_clean (by norm_num) (length_bitsetAlloc content 0) fun i _ hi => ?_)
    exact absurd hi (by simp [bitsetLengthof])

theorem bsInitNbits_ok (block : Block) {nbits : ℕ} (init : Bool) (hn : nbits + 7 < 2 ^ 64) :
    NewOk (bsInitNbits block nbits init) := by
  unfold bsInitNbits
  cases block with
  | none => exact newOk_none
  | some content =>
    dsimp only
    by_cases hinit : init = true
    · have hlen := length_bitsetAlloc content nbits
      have hroom := bitsetLengthof_le hn
      rw [if_pos hinit]
      refine Ends.bind (bitsetSetallAndZeroUnusedBits_ends hn (by omega)) ?_
      rintro words ⟨hs, hclean⟩
      exact newOk_some (tailZero_of_clean hn (hs.length.trans hlen) hclean)
    · rw [if_neg hinit]
      exact newOk_some (tailZero_of_clean hn (length_bitsetCalloc nbits) fun i _ _ => not_bits_calloc nbits i)

theorem bsCopy_ok {heap : Heap} (hheap : ∀ b ∈ heap, TailZero b) (block : Block) (j : ℕ) :
    NewOk (bsCopy heap block j) := by
  unfold bsCopy
  cases block with
  | none => exact newOk_none
  | some content =>
    cases hj : heap[j]? with
    | none => exact newOk_none
    | some self =>
      have hself := hheap self (List.mem_of_getElem? hj)
      have hlt := hself.nbits_lt
      have hfits := hself.fits
      dsimp only
      have hlen := length_bitsetAlloc content self.bsNbits
      have hwords := bitsetLengthof_eq hlt
      refine Ends.bind (moveWords_other_ends (by omega) (by omega)) ?_
      rintro words ⟨hwlen, hcopy⟩
      refine newOk_some (tailZero_of_clean hlt (hwlen.trans hlen) fun i hlo hhi hset => hself.tail i hlo ?_)
      have hword := hcopy (i / 8) (by omega)
      rw [Nat.zero_add] at hword
      rwa [Bits, bitAt, hword] at hset

/-- The copy of a bitset needs no clean memory if it starts at a word, or is put into zeroed memory. -/
def CopyOk (ref : SrcRef) (content : ℕ → Word) (minbits : Option ℕ) : Prop :=
  (∃ m, minbits = some m ∧ ref.nbits < m) ∨ ref.bsrStartbit = 0 ∨
    ∀ i, ref.nbits ≤ i → ¬Bits (bitsetAlloc content ref.nbits) i

theorem bsInitBitset_ok {heap : Heap} {block : Block} {before : Bool} {seq : Operand} {minbits : Option ℕ}
    (hheap : ∀ b ∈ heap, TailZero b) (hseq : seq.Ok heap) (hmin : ∀ m, minbits = some m → m + 7 < 2 ^ 64)
    (hcopy : ∀ content, block = some content → CopyOk (asBitset heap none seq) content minbits) :
    NewOk (bsInitBitset heap block before seq minbits) := by
  obtain ⟨ref, href⟩ : ∃ ref, ref = asBitset heap none seq := ⟨_, rfl⟩
  have hok : ∀ len, ref.Ok len := fun len => href ▸ asBitset_ok hheap (fun _ h => absurd h (by simp)) hseq
  have hlt := (hok 0).nbits_lt
  have hroom := bitsetLengthof_le hlt
  rw [← href] at hcopy
  -- the copy into memory for `ref.nbits` bits or more
  have hfits : ∀ len, ref.bsrStartbit + ref.nbits ≤ 8 * ref.bsrBitset.room len := by
    intro len
    have hle := (hok len).start_le
    have hend := (hok len).fits
    have hnbits : ref.nbits = ref.bsrEndbit - ref.bsrStartbit := rfl
    omega
  have hfresh : ∀ content, ref.bsrStartbit = 0 ∨ (∀ i, ref.nbits ≤ i → ¬Bits (bitsetAlloc content ref.nbits) i) →
      NewOk (do
        let words ← bitsetNcopy0AndZeroUnusedBits before (bitsetAlloc content ref.nbits) ref.bsrBitset ref.bsrStartbit
          ref.nbits
        some (some ⟨ref.nbits, words⟩)) := by
    intro content hclean
    have hlen := length_bitsetAlloc content ref.nbits
    refine Ends.bind (bitsetNcopy0AndZeroUnusedBits_ends hlt (by omega) (hfits _)) ?_
    rintro words ⟨hs, haligned⟩
    refine newOk_some (tailZero_of_clean hlt (hs.length.trans hlen) ?_)
    rcases hclean with hstart | hstale
    · exact haligned (by omega)
    · exact fun i hlo _ => hs.none hstale i hlo
  unfold bsInitBitset
  rw [← href]
  dsimp only
  cases block with
  | none => exact newOk_none
  | some content =>
    cases minbits with
    | none => exact hfresh content ((hcopy content rfl).resolve_left (by simp))
    | some m =>
      dsimp only
      by_cases hpad : ref.nbits < m
      · have hmlt := hmin m rfl
        have hlen := length_bitsetCalloc m
        have hmroom := bitsetLengthof_le hmlt
        rw [if_pos hpad, assert_of (hok 0).startbit_le, some_bind]
        refine Ends.bind (bitsetNcopy0AndZeroUnusedBits_ends hlt (by omega) (hfits _)) ?_
        rintro words ⟨hs, -⟩
        refine newOk_some (tailZero_of_clean hmlt (hs.length.trans hlen) fun i hlo _ hset => ?_)
        exact not_bits_calloc m i (hs.bits i (by omega) hset)
      · rw [if_neg hpad]
        refine hfresh content ((hcopy content rfl).resolve_left ?_)
        rintro ⟨m', ⟨⟩, hm'⟩
        exact hpad hm'

/-! ### Runs -/

/-- A value that an operation on bitset `i` is given. -/
def RangeValue.Ok (heap : Heap) : RangeValue → Prop
  | .bitset other => other.Ok heap
  | .seq other => other.Ok 0

/-- The arguments of a mutation: `size_t` indices, and bitsets without stale bits from sequences. -/
def Mutation.Ok (heap : Heap) : Mutation → Prop
  | .index _ _ | .all _ | .range _ _ _ | .delrangeN _ => True
  | .setrangeBool _ start stop => start < 2 ^ 64 ∧ stop < 2 ^ 64
  | .setrange start stop value => start < 2 ^ 64 ∧ stop < 2 ^ 64 ∧ value.Ok heap
  | .assign value => value.Ok heap
  | .inplaceop _ value => value.Ok heap

/-- The condition of an operation: sizes do not wrap, and no stale bits of fresh memory are left in a last word. -/
def StepOk (heap : Heap) : Op → Prop
  | .ctor _ => True
  | .initNbits _ nbits _ => nbits + 7 < 2 ^ 64
  | .initSeq seq minbits => seq.Ok minbits
  | .initBitset block _ seq minbits =>
    seq.Ok heap ∧ (∀ m, minbits = some m → m + 7 < 2 ^ 64) ∧
      ∀ content, block = some content → CopyOk (asBitset heap none seq) content minbits
  | .copy _ _ => True
  | .mutate _ _ mutation => mutation.Ok heap

theorem withValue_ends {heap : Heap} {i : ℕ} {self : BitsetObject} {value : RangeValue}
    {f : SrcRef → Option BitsetObject} (hheap : ∀ b ∈ heap, TailZero b) (hself : heap[i]? = some self)
    (hvalue : value.Ok heap) (hf : ∀ ref : SrcRef, ref.Ok self.bsBitset.length → Ends (f ref) (Within self)) :
    Ends (withValue heap i self value f) (Within self) := by
  unfold withValue
  cases value with
  | bitset other =>
    refine hf _ (asBitset_ok hheap ?_ hvalue)
    rintro j ⟨⟩
    exact ⟨self, hself, rfl⟩
  | seq other =>
    unfold valueRef
    rw [Option.bind_eq_bind, Option.bind_eq_bind, Option.bind_assoc]
    refine Ends.bind (bsInitFromseq_ends hvalue) fun r hr => ?_
    cases r with
    | none => exact Ends.pure Within.refl
    | some temp =>
      have htemp := hr temp rfl
      exact hf _ ⟨Nat.zero_le _, Nat.zero_le _, htemp.fits, htemp.nbits_lt⟩

/-- Every mutation turns no bit on past the end. -/
theorem applyMutation_ends {heap : Heap} {i : ℕ} {before : Bool} {self : BitsetObject} {mutation : Mutation}
    (hheap : ∀ b ∈ heap, TailZero b) (hself : heap[i]? = some self) (hok : mutation.Ok heap) :
    Ends (applyMutation heap i before self mutation) (Within self) := by
  have htail := hheap self (List.mem_of_getElem? hself)
  cases mutation with
  | index update bitno => exact bsUpdateIndex_ends htail bitno
  | all update => exact bsUpdateAll_ends htail
  | range update start stop => exact bsUpdateRange_ends htail start stop
  | setrangeBool value start stop => exact updateRange_ends htail (deeSeqRangeClamp_ok hok.1 hok.2).2
  | delrangeN start => exact bsDelrangeIndexN_ends htail start
  | setrange start stop value =>
    exact withValue_ends hheap hself hok.2.2 fun ref href => bsSetrangeBitset_ends htail hok.1 hok.2.1 href
  | assign value => exact withValue_ends hheap hself hok fun ref href => bsAssignBitset_ends htail href
  | inplaceop op value => exact withValue_ends hheap hself hok fun ref href => bsInplaceopBitset_ends htail href

theorem addObject_ends {heap : Heap} {result : Option (Option BitsetObject)} (hheap : ∀ b ∈ heap, TailZero b)
    (h : NewOk result) : Ends (addObject heap result) fun heap' => ∀ b ∈ heap', TailZero b := by
  refine Ends.bind h fun r hr => ?_
  cases r with
  | none => exact Ends.pure hheap
  | some b =>
    refine Ends.pure fun b' hb' => ?_
    rcases List.mem_append.mp hb' with hold | hnew
    · exact hheap b' hold
    · rw [List.mem_singleton] at hnew
      exact hnew ▸ hr b rfl

/-- One operation keeps the unused bits of all bitsets 0. -/
theorem step_ends {heap : Heap} {op : Op} (hheap : ∀ b ∈ heap, TailZero b) (hok : StepOk heap op) :
    Ends (step heap op) fun heap' => ∀ b ∈ heap', TailZero b := by
  cases op with
  | ctor block => exact addObject_ends hheap (bsCtor_ok block)
  | initNbits block nbits init => exact addObject_ends hheap (bsInitNbits_ok block init hok)
  | initSeq seq minbits => exact addObject_ends hheap (bsInitFromseq_ends hok)
  | initBitset block before seq minbits =>
    exact addObject_ends hheap (bsInitBitset_ok hheap hok.1 hok.2.1 hok.2.2)
  | copy block j => exact addObject_ends hheap (bsCopy_ok hheap block j)
  | mutate i before mutation =>
    unfold step
    dsimp only
    cases hi : heap[i]? with
    | none => exact Ends.pure hheap
    | some self =>
      refine Ends.bind (applyMutation_ends hheap hi hok) fun b hb => Ends.pure fun b' hb' => ?_
      rcases List.mem_or_eq_of_mem_set hb' with hold | rfl
      · exact hheap b' hold
      · exact (hheap self (List.mem_of_getElem? hi)).of_within hb

/-- The heaps that runs reach whose steps all meet the condition. -/
inductive Reachable : Heap → Prop where
  | empty : Reachable []
  | step {heap heap' : Heap} {op : Op} : Reachable heap → StepOk heap op → step heap op = some heap' → Reachable heap'

/-- In such a run the unused bits of all bitsets are 0, and no step breaks an assertion or leaves a buffer. -/
theorem reachable_tailZero {heap : Heap} (h : Reachable heap) :
    (∀ b ∈ heap, TailZero b) ∧ ∀ op, StepOk heap op → (Collections.step heap op).isSome := by
  have hheap : ∀ b ∈ heap, TailZero b := by
    induction h with
    | empty => simp
    | step _ hok hstep ih => exact (step_ends ih hok).of_eq hstep
  refine ⟨hheap, fun op hok => ?_⟩
  obtain ⟨heap', hstep, -⟩ := step_ends hheap hok
  rw [hstep]
  rfl

/-- A copy of three bits at bit 1, into memory that was used before. -/
def staleCopy : Op := .initBitset (some fun _ => 0xff) true (.view [0x03, 0] 1 4) none

/-- The copy has five stale bits. -/
theorem staleCopy_tail : ∃ heap, step [] staleCopy = some heap ∧ ∃ b ∈ heap, ¬TailZero b := by
  refine ⟨[⟨3, [0xf9]⟩], by decide, ⟨3, [0xf9]⟩, by simp, fun h => ?_⟩
  exact h.tail 3 le_rfl (by decide)

/-- A run that copies the aligned bits of a view into used memory. -/
theorem reachable_tailZero_aligned : (∀ b ∈ ([⟨3, [0x03]⟩] : Heap), TailZero b) ∧
    ∀ op, StepOk [⟨3, [0x03]⟩] op → (step [⟨3, [0x03]⟩] op).isSome :=
  reachable_tailZero (@Reachable.step _ _ (.initBitset (some fun _ => 0xff) true (.view [0, 0x03] 8 11) none) .empty
    ⟨by simp [Operand.Ok], by simp, fun _ _ => Or.inr (Or.inl (by decide))⟩ (by decide))

end Deemon.Collections
