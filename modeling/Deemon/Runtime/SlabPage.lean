import Mathlib.Data.Finset.Card
import Mathlib.Tactic.Linarith

/-!
# Pages of the slab allocator

A page of a slab holds chunks of one size. Its bitset `sp_used` has a bit for every chunk that is in use, of whose last
word only the lower bits stand for chunks. `LOCAL_slab_malloc_in_page` looks for a word with a free chunk and computes
the address of the chunk from the bit; `LOCAL_DeeSlab_Free` computes the bit from the address.
-/

namespace Deemon.Runtime

/-! ### The sizes of a page -/

/-- `CEILDIV`. -/
def ceilDiv (a b : ℕ) : ℕ := (a + (b - 1)) / b

/-- `Dee_SLAB_PAGESIZE` is a power of two. -/
structure SlabSizes where
  pageShift : ℕ
  sizeofPointer : ℕ
  chunkSize : ℕ

namespace SlabSizes

variable (c : SlabSizes)

/-- `Dee_SLAB_PAGESIZE`. -/
def pageSize : ℕ := 2 ^ c.pageShift

/-- `Dee_SIZEOF_SLAB_PAGE_META`. -/
def sizeofMeta : ℕ := 4 * c.sizeofPointer

/-- `Dee_OFFSET_SLAB_PAGE_META`. -/
def offsetMeta : ℕ := c.pageSize - c.sizeofMeta

/-- `BITSOF_slab_bitword_t`; a word is as large as a pointer. -/
def bitsofWord : ℕ := c.sizeofPointer * 8

def upperMaxChunkCount : ℕ := c.offsetMeta / c.chunkSize
def upperElemofUsed : ℕ := ceilDiv c.upperMaxChunkCount c.bitsofWord
def upperSizeofUsed : ℕ := c.upperElemofUsed * c.sizeofPointer
def lowerSizeofData : ℕ := c.offsetMeta - c.upperSizeofUsed
def lowerMaxChunkCount : ℕ := c.lowerSizeofData / c.chunkSize
def lowerElemofUsed : ℕ := ceilDiv c.lowerMaxChunkCount c.bitsofWord
def lowerSizeofUsed : ℕ := c.lowerElemofUsed * c.sizeofPointer
def lowerBitsofUsed : ℕ := c.lowerElemofUsed * c.bitsofWord
def finalSizeofData : ℕ := c.offsetMeta - c.lowerSizeofUsed
def finalMaxChunkCount : ℕ := c.finalSizeofData / c.chunkSize

/-- `LOCAL_MAX_CHUNK_COUNT`. -/
def maxChunkCount : ℕ := if c.lowerBitsofUsed < c.finalMaxChunkCount then c.lowerBitsofUsed else c.finalMaxChunkCount

/-- `LOCAL_ELEMOF__sp_used`. -/
def elemofUsed : ℕ := ceilDiv c.maxChunkCount c.bitsofWord

/-- `LOCAL_SIZEOF__sp_used`, which is where `sp_data` starts. -/
def sizeofUsed : ℕ := c.elemofUsed * c.sizeofPointer

/-- `LOCAL_SIZEOF__sp_data`. -/
def sizeofData : ℕ := c.maxChunkCount * c.chunkSize

/-- `LOCAL_BITSOF__sp_used`. -/
def bitsofUsed : ℕ := c.elemofUsed * c.bitsofWord

/-- `LOCAL_sp_used__UNUSED_TRAILING_BITS`. -/
def unusedTrailingBits : ℕ := c.bitsofUsed - c.maxChunkCount

/-- `LOCAL_sp_used__USED_TRAILING_BITS`. -/
def usedTrailingBits : ℕ := c.bitsofWord - c.unusedTrailingBits

end SlabSizes

/-- Sizes that the allocator can be compiled for: a page has room for what is in it and for at least two chunks, and the
shift in `LOCAL_sp_used__LAST_USED_MASK` is one of a word. -/
structure SlabConfig extends SlabSizes where
  chunkSize_pos : 0 < chunkSize
  two_le : 2 ≤ toSlabSizes.maxChunkCount
  shift_lt : toSlabSizes.usedTrailingBits < toSlabSizes.bitsofWord
  fits : toSlabSizes.sizeofUsed + toSlabSizes.sizeofData + toSlabSizes.sizeofMeta ≤ toSlabSizes.pageSize

/-- `Dee_SLAB_CHUNKSIZE_FOREACH`. -/
def slabChunkSizes (sizeofPointer : ℕ) : List ℕ :=
  if sizeofPointer = 4 then [12, 16, 20, 24, 32, 40, 52]
  else if sizeofPointer = 8 then [24, 32, 40, 48, 64, 80, 104]
  else []

/-- The chunk sizes that exist can be compiled for pages of 4 to 32 KiB. -/
theorem exists_slabConfig : ∀ pageShift ∈ [12, 13, 14, 15], ∀ sizeofPointer ∈ [4, 8],
    ∀ chunkSize ∈ slabChunkSizes sizeofPointer,
      ∃ cfg : SlabConfig, cfg.toSlabSizes = ⟨pageShift, sizeofPointer, chunkSize⟩ := by
  have h : ∀ pageShift ∈ [12, 13, 14, 15], ∀ sizeofPointer ∈ [4, 8], ∀ chunkSize ∈ slabChunkSizes sizeofPointer,
      0 < chunkSize ∧ 2 ≤ (SlabSizes.mk pageShift sizeofPointer chunkSize).maxChunkCount ∧
        (SlabSizes.mk pageShift sizeofPointer chunkSize).usedTrailingBits <
          (SlabSizes.mk pageShift sizeofPointer chunkSize).bitsofWord ∧
        (SlabSizes.mk pageShift sizeofPointer chunkSize).sizeofUsed +
          (SlabSizes.mk pageShift sizeofPointer chunkSize).sizeofData +
          (SlabSizes.mk pageShift sizeofPointer chunkSize).sizeofMeta ≤
            (SlabSizes.mk pageShift sizeofPointer chunkSize).pageSize := by
    decide +kernel
  intro pageShift hshift sizeofPointer hpointer chunkSize hchunk
  obtain ⟨hpos, hcount, hmask, hfits⟩ := h pageShift hshift sizeofPointer hpointer chunkSize hchunk
  exact ⟨⟨⟨pageShift, sizeofPointer, chunkSize⟩, hpos, hcount, hmask, hfits⟩, rfl⟩

section Sizes

variable {cfg : SlabConfig} {i j : ℕ}

theorem SlabConfig.bitsofWord_pos (cfg : SlabConfig) : 0 < cfg.bitsofWord := Nat.lt_of_le_of_lt (Nat.zero_le _) cfg.shift_lt

/-- All words of `sp_used` but the last stand for chunks, and so do the lower bits of the last. -/
theorem SlabConfig.bitsofUsed_eq (cfg : SlabConfig) : 0 < cfg.elemofUsed ∧
    cfg.maxChunkCount = (cfg.elemofUsed - 1) * cfg.bitsofWord + cfg.usedTrailingBits ∧
      cfg.bitsofUsed = (cfg.elemofUsed - 1) * cfg.bitsofWord + cfg.bitsofWord := by
  have hpos := cfg.bitsofWord_pos
  have htwo := cfg.two_le
  have hdiv := Nat.div_add_mod (cfg.maxChunkCount + (cfg.bitsofWord - 1)) cfg.bitsofWord
  have hmod := Nat.mod_lt (cfg.maxChunkCount + (cfg.bitsofWord - 1)) hpos
  have helem : cfg.elemofUsed = (cfg.maxChunkCount + (cfg.bitsofWord - 1)) / cfg.bitsofWord := rfl
  rw [← helem, Nat.mul_comm] at hdiv
  have hbits : cfg.bitsofUsed = cfg.elemofUsed * cfg.bitsofWord := rfl
  have helem_pos : 0 < cfg.elemofUsed := by
    rw [Nat.pos_iff_ne_zero]
    intro h0
    rw [h0, Nat.zero_mul] at hdiv
    omega
  obtain ⟨n, hn⟩ := Nat.exists_eq_succ_of_ne_zero helem_pos.ne'
  rw [hn, Nat.succ_mul] at hdiv hbits
  unfold SlabSizes.usedTrailingBits SlabSizes.unusedTrailingBits
  rw [hn, Nat.succ_sub_one]
  exact ⟨Nat.succ_pos n, by omega, hbits⟩

theorem SlabConfig.maxChunkCount_le (cfg : SlabConfig) : cfg.maxChunkCount ≤ cfg.bitsofUsed := by
  have hlt := cfg.shift_lt
  obtain ⟨-, hcount, hbits⟩ := cfg.bitsofUsed_eq
  omega

/-- `(slab_bitword_t)1 << b`. -/
def SlabConfig.bitMask (cfg : SlabConfig) (b : ℕ) : BitVec cfg.bitsofWord := BitVec.ofNat cfg.bitsofWord 1 <<< b

/-- `LOCAL_maskfor`. -/
def SlabConfig.maskfor (cfg : SlabConfig) (i : ℕ) : BitVec cfg.bitsofWord :=
  if cfg.elemofUsed - 1 ≤ i then cfg.bitMask cfg.usedTrailingBits - BitVec.ofNat cfg.bitsofWord 1
  else BitVec.allOnes cfg.bitsofWord

theorem getLsbD_maskfor (hi : i < cfg.elemofUsed) (hj : j < cfg.bitsofWord) :
    (cfg.maskfor i).getLsbD j = decide (i * cfg.bitsofWord + j < cfg.maxChunkCount) := by
  obtain ⟨-, hcount, -⟩ := cfg.bitsofUsed_eq
  have hshift := cfg.shift_lt
  unfold SlabConfig.maskfor
  split_ifs with hlast
  · obtain rfl : i = cfg.elemofUsed - 1 := by omega
    have hmask : cfg.bitMask cfg.usedTrailingBits - BitVec.ofNat cfg.bitsofWord 1 =
        BitVec.ofNat cfg.bitsofWord (2 ^ cfg.usedTrailingBits - 1) := by
      have hpow : 2 ^ cfg.usedTrailingBits < 2 ^ cfg.bitsofWord := Nat.pow_lt_pow_right (by norm_num) hshift
      have hone : (BitVec.ofNat cfg.bitsofWord 1).toNat = 1 := by
        rw [BitVec.toNat_ofNat, Nat.mod_eq_of_lt (Nat.one_lt_two_pow cfg.bitsofWord_pos.ne')]
      have hshifted : (cfg.bitMask cfg.usedTrailingBits).toNat = 2 ^ cfg.usedTrailingBits := by
        unfold SlabConfig.bitMask
        rw [BitVec.toNat_shiftLeft, hone, Nat.shiftLeft_eq, Nat.one_mul, Nat.mod_eq_of_lt hpow]
      refine BitVec.eq_of_toNat_eq ?_
      rw [BitVec.toNat_sub_of_le, hone, hshifted, BitVec.toNat_ofNat, Nat.mod_eq_of_lt (by omega)]
      rw [BitVec.le_def, hone, hshifted]
      exact Nat.one_le_two_pow
    rw [hmask, BitVec.getLsbD_ofNat, Nat.testBit_two_pow_sub_one, decide_eq_true hj, Bool.true_and, decide_eq_decide]
    omega
  · rw [BitVec.getLsbD_allOnes, decide_eq_decide]
    have hle : (i + 1) * cfg.bitsofWord ≤ (cfg.elemofUsed - 1) * cfg.bitsofWord := Nat.mul_le_mul_right _ (by omega)
    rw [Nat.succ_mul] at hle
    exact ⟨fun _ => by omega, fun _ => hj⟩

end Sizes

/-! ### The bitset of a page -/

/-- `sp_used` and `spm_used` of a page. -/
structure SlabPage (cfg : SlabConfig) where
  spUsed : ℕ → BitVec cfg.bitsofWord
  spmUsed : ℕ

namespace SlabPage

variable {cfg : SlabConfig} {page : SlabPage cfg} {i b k : ℕ}

/-- Bit `k` of `sp_used`. -/
def bit (page : SlabPage cfg) (k : ℕ) : Bool := (page.spUsed (k / cfg.bitsofWord)).getLsbD (k % cfg.bitsofWord)

/-- The set bits of `sp_used`. -/
def setBits (page : SlabPage cfg) : Finset ℕ := (Finset.range cfg.bitsofUsed).filter fun k => page.bit k

/-- A write to a word of `sp_used`. -/
def setWord (page : SlabPage cfg) (i : ℕ) (word : BitVec cfg.bitsofWord) : SlabPage cfg :=
  { page with spUsed := Function.update page.spUsed i word }

/-- The page with `spm_used` changed. -/
def setUsed (page : SlabPage cfg) (n : ℕ) : SlabPage cfg := { page with spmUsed := n }

/-- The page after `bzero` and the first chunk is taken. -/
def fresh (cfg : SlabConfig) : SlabPage cfg where
  spUsed := fun i => BitVec.ofNat cfg.bitsofWord (if i = 0 then 1 else 0)
  spmUsed := 1

/-- Only chunks have a bit. -/
def Ok (page : SlabPage cfg) : Prop := ∀ k, page.bit k → k < cfg.maxChunkCount

@[simp] theorem spmUsed_setWord {word : BitVec cfg.bitsofWord} : (page.setWord i word).spmUsed = page.spmUsed := rfl
@[simp] theorem spmUsed_setUsed {n : ℕ} : (page.setUsed n).spmUsed = n := rfl
@[simp] theorem bit_setUsed {n : ℕ} : (page.setUsed n).bit k = page.bit k := rfl
@[simp] theorem setBits_setUsed {n : ℕ} : (page.setUsed n).setBits = page.setBits := rfl

theorem bit_add (hb : b < cfg.bitsofWord) : page.bit (i * cfg.bitsofWord + b) = (page.spUsed i).getLsbD b := by
  unfold bit
  rw [Nat.mul_comm, Nat.mul_add_div cfg.bitsofWord_pos, Nat.div_eq_of_lt hb, Nat.add_zero, Nat.mul_add_mod,
    Nat.mod_eq_of_lt hb]

theorem eq_add_iff (hb : b < cfg.bitsofWord) :
    k = i * cfg.bitsofWord + b ↔ k / cfg.bitsofWord = i ∧ k % cfg.bitsofWord = b := by
  constructor
  · rintro rfl
    rw [Nat.mul_comm, Nat.mul_add_div cfg.bitsofWord_pos, Nat.div_eq_of_lt hb, Nat.mul_add_mod, Nat.mod_eq_of_lt hb]
    exact ⟨rfl, rfl⟩
  · rintro ⟨rfl, rfl⟩
    exact (Nat.div_add_mod' k cfg.bitsofWord).symm

theorem getLsbD_bitMask (hb : b < cfg.bitsofWord) :
    (cfg.bitMask b).getLsbD k = decide (k = b) := by
  have htwo : (BitVec.twoPow cfg.bitsofWord b).getLsbD k = (decide (b < cfg.bitsofWord) && decide (b = k)) :=
    BitVec.getLsbD_twoPow b k
  unfold SlabConfig.bitMask
  rw [BitVec.twoPow_eq, decide_eq_true hb, Bool.true_and] at htwo
  rw [htwo]
  exact decide_eq_decide.mpr eq_comm

/-- `word | alloc_mask`. -/
theorem bit_setWord_or (hb : b < cfg.bitsofWord) :
    (page.setWord i (page.spUsed i ||| cfg.bitMask b)).bit k =
      (page.bit k || decide (k = i * cfg.bitsofWord + b)) := by
  have hdecide : decide (k = i * cfg.bitsofWord + b) = decide (k / cfg.bitsofWord = i ∧ k % cfg.bitsofWord = b) :=
    decide_eq_decide.mpr (eq_add_iff hb)
  rw [hdecide]
  unfold bit setWord
  by_cases hk : k / cfg.bitsofWord = i
  · simp only [hk, Function.update_self, BitVec.getLsbD_or, getLsbD_bitMask hb, true_and]
  · simp only [Function.update_of_ne hk, hk, false_and, decide_false, Bool.or_false]

/-- `word & ~bit_mask`. -/
theorem bit_setWord_and (hb : b < cfg.bitsofWord) :
    (page.setWord i (page.spUsed i &&& ~~~cfg.bitMask b)).bit k =
      (page.bit k && !decide (k = i * cfg.bitsofWord + b)) := by
  have hdecide : decide (k = i * cfg.bitsofWord + b) = decide (k / cfg.bitsofWord = i ∧ k % cfg.bitsofWord = b) :=
    decide_eq_decide.mpr (eq_add_iff hb)
  rw [hdecide]
  unfold bit setWord
  by_cases hk : k / cfg.bitsofWord = i
  · have hlt : k % cfg.bitsofWord < cfg.bitsofWord := Nat.mod_lt _ cfg.bitsofWord_pos
    simp only [hk, Function.update_self, BitVec.getLsbD_and, BitVec.getLsbD_not, getLsbD_bitMask hb, true_and,
      hlt, decide_true, Bool.true_and]
  · simp only [Function.update_of_ne hk, hk, false_and, decide_false, Bool.not_false, Bool.and_true]

theorem mem_setBits (h : page.Ok) : k ∈ page.setBits ↔ page.bit k := by
  unfold setBits
  rw [Finset.mem_filter, Finset.mem_range]
  exact ⟨fun hk => hk.2, fun hk => ⟨(h k hk).trans_le cfg.maxChunkCount_le, hk⟩⟩

/-- The bit of a free chunk is set. -/
theorem ok_or (h : page.Ok) (hb : b < cfg.bitsofWord) (hk : i * cfg.bitsofWord + b < cfg.maxChunkCount) :
    (page.setWord i (page.spUsed i ||| cfg.bitMask b)).Ok := by
  intro k
  rw [bit_setWord_or hb, Bool.or_eq_true, decide_eq_true_iff]
  rintro (hbit | rfl)
  · exact h k hbit
  · exact hk

theorem setBits_or (h : page.Ok) (hb : b < cfg.bitsofWord) (hk : i * cfg.bitsofWord + b < cfg.maxChunkCount)
    (hfree : page.bit (i * cfg.bitsofWord + b) = false) :
    (page.setWord i (page.spUsed i ||| cfg.bitMask b)).setBits.card = page.setBits.card + 1 := by
  have hinsert : (page.setWord i (page.spUsed i ||| cfg.bitMask b)).setBits =
      insert (i * cfg.bitsofWord + b) page.setBits := by
    ext k
    rw [mem_setBits (ok_or h hb hk), Finset.mem_insert, mem_setBits h, bit_setWord_or hb, Bool.or_eq_true,
      decide_eq_true_iff, or_comm]
  rw [hinsert, Finset.card_insert_of_notMem]
  rw [mem_setBits h, hfree]
  exact Bool.false_ne_true

/-- The bit of a chunk in use is cleared. -/
theorem ok_and (h : page.Ok) (hb : b < cfg.bitsofWord) :
    (page.setWord i (page.spUsed i &&& ~~~cfg.bitMask b)).Ok := by
  intro k
  rw [bit_setWord_and hb, Bool.and_eq_true]
  exact fun hbit => h k hbit.1

theorem setBits_and (h : page.Ok) (hb : b < cfg.bitsofWord) (hused : page.bit (i * cfg.bitsofWord + b)) :
    (page.setWord i (page.spUsed i &&& ~~~cfg.bitMask b)).setBits.card + 1 = page.setBits.card := by
  have herase : (page.setWord i (page.spUsed i &&& ~~~cfg.bitMask b)).setBits =
      page.setBits.erase (i * cfg.bitsofWord + b) := by
    ext k
    rw [mem_setBits (ok_and h hb), Finset.mem_erase, mem_setBits h, bit_setWord_and hb, Bool.and_eq_true, and_comm,
      Bool.not_eq_true', decide_eq_false_iff_not]
  rw [herase]
  exact Finset.card_erase_add_one ((mem_setBits h).mpr hused)

theorem bit_fresh : (fresh cfg).bit k = decide (k = 0) := by
  have hzero : k = 0 ↔ k / cfg.bitsofWord = 0 ∧ k % cfg.bitsofWord = 0 := by
    have h := @eq_add_iff cfg 0 0 k cfg.bitsofWord_pos
    rwa [Nat.zero_mul] at h
  have hdecide : decide (k = 0) = decide (k / cfg.bitsofWord = 0 ∧ k % cfg.bitsofWord = 0) := decide_eq_decide.mpr hzero
  rw [hdecide]
  unfold bit fresh
  by_cases hk : k / cfg.bitsofWord = 0
  · have hone := @getLsbD_bitMask cfg 0 (k % cfg.bitsofWord) cfg.bitsofWord_pos
    unfold SlabConfig.bitMask at hone
    rw [BitVec.shiftLeft_zero] at hone
    simp only [hk, if_pos, hone, true_and]
  · simp only [hk, if_false, BitVec.getLsbD_zero, false_and, decide_false]

theorem ok_fresh : (fresh cfg).Ok := by
  intro k hk
  rw [bit_fresh, decide_eq_true_iff] at hk
  have htwo := cfg.two_le
  omega

theorem setBits_fresh : (fresh cfg).setBits.card = 1 := by
  have hsingle : (fresh cfg).setBits = {0} := by
    ext k
    rw [mem_setBits ok_fresh, bit_fresh, decide_eq_true_iff, Finset.mem_singleton]
  rw [hsingle, Finset.card_singleton]

/-! ### Finding a free chunk -/

/-- A word that is not full has a free bit, and `CTZ` finds one that stands for a chunk. -/
theorem freeBit (h : page.Ok) (hi : i < cfg.elemofUsed) (hword : page.spUsed i ≠ cfg.maskfor i) :
    (~~~page.spUsed i).ctz.toNat < cfg.bitsofWord ∧
      i * cfg.bitsofWord + (~~~page.spUsed i).ctz.toNat < cfg.maxChunkCount ∧
      page.bit (i * cfg.bitsofWord + (~~~page.spUsed i).ctz.toNat) = false := by
  obtain ⟨j, hj, hclear, hlt⟩ : ∃ j, j < cfg.bitsofWord ∧ (page.spUsed i).getLsbD j = false ∧
      i * cfg.bitsofWord + j < cfg.maxChunkCount := by
    by_contra hnone
    refine hword (BitVec.eq_of_getLsbD_eq fun j hj => ?_)
    rw [getLsbD_maskfor hi hj]
    cases hbit : (page.spUsed i).getLsbD j with
    | true =>
      rw [← bit_add hj] at hbit
      exact (decide_eq_true (h _ hbit)).symm
    | false => exact (decide_eq_false fun hlt => hnone ⟨j, hj, hbit, hlt⟩).symm
  have hset : (~~~page.spUsed i).getLsbD j = true := by
    rw [BitVec.getLsbD_not, hclear, decide_eq_true hj]
    rfl
  have hle : (~~~page.spUsed i).ctz.toNat ≤ j := by
    by_contra hlt'
    rw [BitVec.getLsbD_false_of_lt_ctz (Nat.lt_of_not_le hlt')] at hset
    exact Bool.false_ne_true hset
  have hne : ~~~page.spUsed i ≠ BitVec.ofNat cfg.bitsofWord 0 := by
    intro h0
    rw [h0, BitVec.getLsbD_zero] at hset
    exact Bool.false_ne_true hset
  have hctz := BitVec.getLsbD_true_ctz_of_ne_zero hne
  have hwidth : (~~~page.spUsed i).ctz.toNat < cfg.bitsofWord := hle.trans_lt hj
  refine ⟨hwidth, by omega, ?_⟩
  rw [bit_add hwidth]
  rw [BitVec.getLsbD_not, decide_eq_true hwidth, Bool.true_and, Bool.not_eq_true'] at hctz
  exact hctz

/-- A page in which not all chunks are in use has a word that is not full. -/
theorem exists_ne_maskfor (h : page.setBits.card < cfg.maxChunkCount) :
    ∃ i < cfg.elemofUsed, page.spUsed i ≠ cfg.maskfor i := by
  by_contra hfull
  refine Nat.not_le_of_lt h ?_
  have hsubset : Finset.range cfg.maxChunkCount ⊆ page.setBits := by
    intro k hk
    rw [Finset.mem_range] at hk
    have hkbits := hk.trans_le cfg.maxChunkCount_le
    unfold setBits
    rw [Finset.mem_filter, Finset.mem_range]
    refine ⟨hkbits, ?_⟩
    have hmod := Nat.mod_lt k cfg.bitsofWord_pos
    have hdiv : k / cfg.bitsofWord < cfg.elemofUsed := Nat.div_lt_of_lt_mul (by rw [Nat.mul_comm]; exact hkbits)
    have hword : page.spUsed (k / cfg.bitsofWord) = cfg.maskfor (k / cfg.bitsofWord) := by
      by_contra hne
      exact hfull ⟨_, hdiv, hne⟩
    unfold bit
    rw [hword, getLsbD_maskfor hdiv hmod, Nat.div_add_mod', decide_eq_true hk]
  have hcard := Finset.card_le_card hsubset
  rwa [Finset.card_range] at hcard

end SlabPage

/-! ### Addresses -/

section Addresses

variable {cfg : SlabConfig} {page index p : ℕ}

/-- `page->sp_data + index * DEFINE_CHUNK_SIZE`. -/
def chunkAddr (cfg : SlabConfig) (page index : ℕ) : ℕ := page + cfg.sizeofUsed + index * cfg.chunkSize

/-- `p & ~(Dee_SLAB_PAGESIZE - 1)`. -/
def pageOf (cfg : SlabConfig) (p : ℕ) : ℕ := p - p % cfg.pageSize

/-- `((byte_t *)p - page->sp_data) / DEFINE_CHUNK_SIZE`. -/
def indexOf (cfg : SlabConfig) (p : ℕ) : ℕ := (p - (pageOf cfg p + cfg.sizeofUsed)) / cfg.chunkSize

theorem pageOf_chunkAddr (hpage : cfg.pageSize ∣ page) (hindex : index < cfg.maxChunkCount) :
    pageOf cfg (chunkAddr cfg page index) = page := by
  obtain ⟨n, rfl⟩ := hpage
  have hchunk : index * cfg.chunkSize < cfg.sizeofData := Nat.mul_lt_mul_of_pos_right hindex cfg.chunkSize_pos
  have hfits := cfg.fits
  have hoffset : cfg.sizeofUsed + index * cfg.chunkSize < cfg.pageSize := by omega
  unfold pageOf chunkAddr
  rw [Nat.add_assoc, Nat.mul_add_mod, Nat.mod_eq_of_lt hoffset, Nat.add_sub_cancel]

theorem indexOf_chunkAddr (hpage : cfg.pageSize ∣ page) (hindex : index < cfg.maxChunkCount) :
    indexOf cfg (chunkAddr cfg page index) = index := by
  unfold indexOf
  rw [pageOf_chunkAddr hpage hindex]
  unfold chunkAddr
  rw [Nat.add_sub_cancel_left, Nat.mul_div_cancel _ cfg.chunkSize_pos]

end Addresses

end Deemon.Runtime
