import Deemon.Lib.Mixing
import Deemon.Runtime.Hash

/-!
# The storage width does not matter for hashes

All forms of a text are hashed as the bytes that `packw` and `packl` take from its characters. The exception is
`Dee_HashCasePtr`: a full block is read in memory order whatever the byte order, and its bytes are `char`s, so that with
signed `char`s those from 0x80 on are looked up as other characters and keep their case.
-/

namespace Deemon.Runtime

open Deemon.Run Deemon.Fields Deemon.Radix Deemon.Unicode Deemon.Mixing

section Bytes

variable {w n x c : ℕ} {l : List ℕ} {s : ℕ}

theorem and_shiftRight_of_lt {k m : ℕ} (h : x < 2 ^ k) : (x &&& m <<< k) >>> k = 0 := by
  rw [Nat.shiftRight_and_distrib, Nat.shiftRight_eq_div_pow x, Nat.div_eq_of_lt h, Nat.zero_and]

theorem packw_eq_packl (h : x < 2 ^ 16) : packw x = packl x := by
  have h16 : (x &&& 0xff0000) >>> 16 = 0 := @and_shiftRight_of_lt x 16 0xff h
  have h24 : (x &&& 0xff000000) >>> 24 = 0 := @and_shiftRight_of_lt x 24 0xff (h.trans (by norm_num))
  unfold packw packl
  rw [h16, h24, Nat.xor_zero, Nat.xor_zero]

theorem packl_of_lt (h : x < 2 ^ 8) : packl x = x := by
  have h8 : (x &&& 0xff00) >>> 8 = 0 := @and_shiftRight_of_lt x 8 0xff h
  rw [← packw_eq_packl (h.trans (by norm_num))]
  unfold packw
  rw [h8, Nat.xor_zero]
  exact (Nat.and_two_pow_sub_one_eq_mod x 8).trans (Nat.mod_eq_of_lt h)

/-- A byte above `n` others. -/
theorem ofNat_or_shiftLeft {a b : ℕ} (ha : a < 256 ^ n) :
    BitVec.ofNat w a ||| BitVec.ofNat w b <<< (8 * n) = BitVec.ofNat w (a + b * 256 ^ n) := by
  have hpow : (256 : ℕ) ^ n = 2 ^ (8 * n) := by rw [pow_mul]; norm_num
  rw [hpow] at ha ⊢
  rw [Nat.add_comm, ← Nat.shiftLeft_eq, Nat.shiftLeft_add_eq_or_of_lt ha]
  refine BitVec.eq_of_getLsbD_eq fun i hi => ?_
  simp only [BitVec.getLsbD_or, BitVec.getLsbD_shiftLeft, BitVec.getLsbD_ofNat, Nat.testBit_or,
    Nat.testBit_shiftLeft, hi, decide_true, Bool.true_and]
  by_cases hlow : i < 8 * n
  · simp [hlow, show ¬8 * n ≤ i by omega]
  · simp [hlow, show 8 * n ≤ i by omega, show i - 8 * n < w by omega, Bool.or_comm]

/-- The position that `ESEL` gives to the byte at `j` of a block of `n` bytes. -/
def esel (env : HashEnv) (n j : ℕ) : ℕ := if env.bigEndian then n - 1 - j else j

theorem packBlock_eq (env : HashEnv) (f : ℕ → ℕ) :
    packBlock env w n f =
      (List.range n).foldl (fun k j => k ||| BitVec.ofNat w (f (esel env n j)) <<< (8 * j)) 0 := by
  unfold packBlock esel
  cases env.bigEndian with
  | false => simp only [Bool.false_eq_true, if_false]
  | true =>
    simp only [if_true]
    have hcomm : RightCommutative fun (k : BitVec w) j => k ||| BitVec.ofNat w (f j) <<< (8 * (n - 1 - j)) :=
      ⟨fun k j j' => by rw [BitVec.or_assoc, BitVec.or_assoc, BitVec.or_comm (_ <<< _)]⟩
    have hperm : ((List.range n).map fun j => n - 1 - j).Perm (List.range n) := by
      have hrev : ((List.range n).map fun j => n - 1 - j) = (List.range n).reverse := by
        refine List.ext_getElem (by simp) fun i hi hi' => ?_
        simp
      rw [hrev]
      exact List.reverse_perm _
    rw [← hperm.foldl_eq, List.foldl_map]
    refine List.foldl_ext _ _ _ fun k j hj => ?_
    have hlt := List.mem_range.mp hj
    rw [show n - 1 - (n - 1 - j) = j by omega]

/-- A block of bytes as a number with the lowest byte first. -/
theorem packBlock_eq_seg {env : HashEnv} {f : ℕ → ℕ} (h : ∀ j < n, f j < 256) :
    packBlock env w n f = BitVec.ofNat w (seg 256 ((List.range n).map fun j => f (esel env n j)) 0 n) := by
  have hcell : ∀ j < n, cell ((List.range n).map fun j => f (esel env n j)) j = f (esel env n j) := fun j hj => by
    simp [cell, hj]
  have hbelow : Below 256 ((List.range n).map fun j => f (esel env n j)) 0 n := fun j hj => by
    rw [Nat.zero_add, hcell j hj]
    refine h _ ?_
    unfold esel
    split_ifs <;> omega
  have hfold : ∀ k ≤ n, (List.range k).foldl
      (fun (h : BitVec w) j => h ||| BitVec.ofNat w (f (esel env n j)) <<< (8 * j)) 0 =
        BitVec.ofNat w (seg 256 ((List.range n).map fun j => f (esel env n j)) 0 k) := by
    intro k
    induction k with
    | zero => exact fun _ => rfl
    | succ k ih =>
      intro hk
      rw [List.range_succ, List.foldl_append, ih (Nat.le_of_succ_le hk), seg_succ, Nat.zero_add, hcell k hk]
      exact ofNat_or_shiftLeft (seg_lt (hbelow.mono (Nat.le_of_succ_le hk)))
  rw [packBlock_eq]
  exact hfold n le_rfl

theorem ofNat_seg_eq_iff {l' : List ℕ} {t : ℕ} (hw : w = 8 * n) (h : Below 256 l s n) (h' : Below 256 l' t n) :
    BitVec.ofNat w (seg 256 l s n) = BitVec.ofNat w (seg 256 l' t n) ↔ ∀ j < n, cell l (s + j) = cell l' (t + j) := by
  have hpow : (256 : ℕ) ^ n = 2 ^ w := by rw [hw, pow_mul]; norm_num
  have hlt := seg_lt h
  have hlt' := seg_lt h'
  rw [hpow] at hlt hlt'
  constructor
  · intro heq
    have hnat := congrArg BitVec.toNat heq
    rw [BitVec.toNat_ofNat, BitVec.toNat_ofNat, Nat.mod_eq_of_lt hlt, Nat.mod_eq_of_lt hlt'] at hnat
    exact seg_inj h h' hnat
  · exact fun hcells => congrArg _ (seg_shift hcells)

theorem packBlock_congr {env : HashEnv} {f g : ℕ → ℕ} (h : ∀ j < n, f j = g j) :
    packBlock env w n f = packBlock env w n g := by
  unfold packBlock
  refine List.foldl_ext _ _ _ fun k j hj => ?_
  rw [h j (List.mem_range.mp hj)]

theorem xorTail_congr {f g : ℕ → ℕ} (h : ∀ j < n, f j = g j) (v : BitVec w) : xorTail w n f v = xorTail w n g v := by
  unfold xorTail
  refine List.foldr_ext _ _ _ fun j hj v => ?_
  rw [h j (List.mem_range.mp hj)]

theorem xorTail_injective {f : ℕ → ℕ} : Function.Injective (xorTail w n f) := by
  unfold xorTail
  induction List.range n with
  | nil => exact Function.injective_id
  | cons j l ih => exact (xor_injective' _).comp ih

end Bytes

/-! ### Both implementations -/

/-- What both implementations have in common. -/
structure HashImpl.Lawful (impl : HashImpl) : Prop where
  size_pos : 0 < impl.size
  bits_eq : impl.bits = 8 * impl.size
  mix_injective : ∀ k, Function.Injective fun h => impl.mix h k
  mix_injective' : ∀ h, Function.Injective (impl.mix h)
  finish_injective : ∀ n t f, Function.Injective fun h => impl.finish h n t f
  finish_congr : ∀ h n t f g, (∀ j < t, f j = g j) → impl.finish h n t f = impl.finish h n t g
  caseByte : ∀ x < 2 ^ 8, impl.caseByte x = x
  casePack : ∀ x < 2 ^ 16, impl.casePack x = packl x

theorem Hash64.m_injective : Function.Injective fun x => x * Hash64.m :=
  @mul_injective 64 Hash64.m 0x5f7a0ea7e59b19bd (by decide)

theorem Hash64.finish_congr (h : BitVec 64) (n t : ℕ) {f g : ℕ → ℕ} (hfg : ∀ j < t, f j = g j) :
    Hash64.finish h n t f = Hash64.finish h n t g := by
  unfold Hash64.finish
  rw [xorTail_congr hfg]

theorem hash64_lawful : hash64.Lawful where
  size_pos := by decide
  bits_eq := rfl
  mix_injective k := Hash64.m_injective.comp (xor_injective' _)
  mix_injective' h := by
    have hscramble := Hash64.m_injective.comp ((xorShift_injective (r := 47) (by decide)).comp Hash64.m_injective)
    exact Hash64.m_injective.comp ((xor_injective h).comp hscramble)
  finish_injective n t f := by
    have hlast := (@xorShift_injective 64 47 (by decide)).comp
      (Hash64.m_injective.comp (@xorShift_injective 64 47 (by decide)))
    refine hlast.comp (f := fun h => if t = 0 then h else xorTail 64 t f h * Hash64.m) ?_
    by_cases ht : t = 0
    · simp only [if_pos ht]
      exact Function.injective_id
    · simp only [if_neg ht]
      exact Hash64.m_injective.comp xorTail_injective
  finish_congr h n t f g hfg := Hash64.finish_congr h n t hfg
  caseByte _ _ := rfl
  casePack _ _ := rfl

theorem Hash32.scramble_injective : Function.Injective Hash32.scramble :=
  (@mul_injective 32 Hash32.c2 0x56ed309b (by decide)).comp
    ((@rotate_injective 32 15 (by decide)).comp (@mul_injective 32 Hash32.c1 0xdee13bb1 (by decide)))

theorem Hash32.last_injective :
    Function.Injective fun hash => Hash32.rot32 hash 13 * 5 + 0xe6546b64 :=
  (add_injective _).comp ((@mul_injective 32 5 0xcccccccd (by decide)).comp (@rotate_injective 32 13 (by decide)))

theorem Hash32.finish_congr (h : BitVec 32) (n t : ℕ) {f g : ℕ → ℕ} (hfg : ∀ j < t, f j = g j) :
    Hash32.finish h n t f = Hash32.finish h n t g := by
  unfold Hash32.finish
  rw [xorTail_congr hfg]

theorem hash32_lawful : hash32.Lawful where
  size_pos := by decide
  bits_eq := rfl
  mix_injective k := Hash32.last_injective.comp (xor_injective' (Hash32.scramble k))
  mix_injective' h := Hash32.last_injective.comp ((xor_injective h).comp Hash32.scramble_injective)
  finish_injective n t f := by
    have hlast := (@xorShift_injective 32 16 (by decide)).comp
      ((@mul_injective 32 0xc2b2ae35 0x7ed1b41d (by decide)).comp
        ((@xorShift_injective 32 13 (by decide)).comp
          ((@mul_injective 32 0x85ebca6b 0xa5cb9243 (by decide)).comp
            ((@xorShift_injective 32 16 (by decide)).comp (xor_injective' (BitVec.ofNat 32 n))))))
    refine hlast.comp (f := fun h => if t = 0 then h else h ^^^ Hash32.scramble (xorTail 32 t f 0)) ?_
    by_cases ht : t = 0
    · simp only [if_pos ht]
      exact Function.injective_id
    · simp only [if_neg ht]
      exact xor_injective' _
  finish_congr h n t f g hfg := Hash32.finish_congr h n t hfg
  caseByte _ hx := Nat.mod_eq_of_lt hx
  casePack _ hx := packw_eq_packl hx

section Agree

variable {impl : HashImpl} {env : HashEnv} {cs : List ℕ} {f g : ℕ → ℕ} {i n : ℕ}

theorem HashImpl.pack_congr (h : ∀ j < impl.size, f (impl.size * i + j) = g (impl.size * i + j)) :
    impl.pack env f i = impl.pack env g i := packBlock_congr h

theorem HashImpl.Lawful.hash_congr (h : impl.Lawful) {block block' : ℕ → BitVec impl.bits}
    (hblock : ∀ i < n / impl.size, block i = block' i) (htail : ∀ j < n, f j = g j) :
    impl.hash n block f = impl.hash n block' g := by
  have hblocks : impl.blocks (n / impl.size) block = impl.blocks (n / impl.size) block' := by
    unfold HashImpl.blocks
    refine List.foldl_ext _ _ _ fun k i hi => ?_
    rw [hblock i (List.mem_range.mp hi)]
  unfold HashImpl.hash
  rw [hblocks]
  refine h.finish_congr _ _ _ _ _ fun j hj => htail _ ?_
  have := Nat.div_add_mod n impl.size
  omega

/-- A block read from memory is the same as the block that `ESEL` orders. -/
theorem HashImpl.Lawful.load_eq_pack_iff (h : impl.Lawful) (hbytes : ∀ j, cell cs j < 256) (hf : ∀ j, f j < 256) :
    impl.pack env f i = impl.load cs i ↔
      ∀ j < impl.size, cell cs (impl.size * i + j) = f (impl.size * i + esel env impl.size j) := by
  have hcell : ∀ j < impl.size, cell ((List.range impl.size).map fun j => f (impl.size * i + esel env impl.size j))
      (0 + j) = f (impl.size * i + esel env impl.size j) := fun j hj => by
    simp [cell, hj]
  have hbelow : Below 256 ((List.range impl.size).map fun j => f (impl.size * i + esel env impl.size j)) 0
      impl.size := fun j hj => by
    rw [hcell j hj]
    exact hf _
  unfold HashImpl.pack HashImpl.load
  rw [packBlock_eq_seg fun j _ => hf _, eq_comm, ofNat_seg_eq_iff h.bits_eq (fun j _ => hbytes _) hbelow]
  exact forall₂_congr fun j hj => by rw [hcell j hj]

/-- Texts whose blocks differ in one place have different hashes. -/
theorem HashImpl.Lawful.hash_ne (h : impl.Lawful) {block block' : ℕ → BitVec impl.bits} (hi : i < n / impl.size)
    (hne : block i ≠ block' i) (hblock : ∀ j < n / impl.size, j ≠ i → block j = block' j)
    (htail : ∀ j < n, f j = g j) : impl.hash n block f ≠ impl.hash n block' g := by
  have hblocks : impl.blocks (n / impl.size) block ≠ impl.blocks (n / impl.size) block' := by
    obtain ⟨m, hm⟩ : ∃ m, n / impl.size = i + (m + 1) := ⟨n / impl.size - (i + 1), by omega⟩
    have hsplit : List.range (n / impl.size) = List.range i ++ i :: (List.range' (i + 1) m) := by
      rw [hm, List.range_eq_range', ← List.range'_append, List.range_eq_range', Nat.zero_add, Nat.one_mul,
        List.range'_succ]
    unfold HashImpl.blocks
    rw [hsplit]
    refine foldl_ne h.mix_injective h.mix_injective' (fun j hj => ?_) hne (fun j hj => ?_) 0
    · have hlt := List.mem_range.mp hj
      exact hblock j (by omega) (by omega)
    · have hmem := List.mem_range'_1.mp hj
      exact hblock j (by omega) (by omega)
  intro heq
  rw [h.hash_congr (f := g) (g := f) (fun _ _ => rfl) fun j hj => (htail j hj).symm] at heq
  exact hblocks (h.finish_injective _ _ _ heq)

/-! ### UTF-8 -/

/-- The state of the UTF-8 loop behind the first `k` characters. -/
structure HashImpl.Utf8State.At (impl : HashImpl) (env : HashEnv) (lower : ℕ → ℕ) (cs : List ℕ) (k : ℕ)
    (s : HashImpl.Utf8State impl.bits) : Prop where
  ptr : s.ptr = (utf8 (cs.take k)).length
  nChars : s.nChars = impl.size * (k / impl.size)
  block : s.block = ((cs.take k).drop (impl.size * (k / impl.size))).map lower
  hash : s.hash = impl.blocks (k / impl.size) (impl.pack env fun j => packl (lower (cell cs j)))

theorem cell_map_drop_take {lower : ℕ → ℕ} {k s j : ℕ} (hk : k ≤ cs.length) (hj : s + j < k) :
    cell (((cs.take k).drop s).map lower) j = lower (cell cs (s + j)) := by
  unfold cell
  rw [List.getD_eq_getElem?_getD, List.getElem?_map, List.getElem?_drop, List.getElem?_take_of_lt hj,
    List.getElem?_eq_getElem (by omega)]
  simp [show s + j < cs.length by omega]

theorem length_utf8_lt {k : ℕ} (hk : k < cs.length) : (utf8 (cs.take k)).length < (utf8 cs).length := by
  have hsplit : cs = cs.take k ++ cs[k] :: cs.drop (k + 1) := by
    rw [← List.drop_eq_getElem_cons hk, List.take_append_drop]
  have hpos : 0 < (writeUtf8 cs[k]).length := List.length_pos_iff.mpr writeUtf8_ne_nil
  have hlen := congrArg (fun l => (utf8 l).length) hsplit
  simp only [utf8_append, utf8_cons, List.length_append] at hlen
  omega

theorem HashImpl.Lawful.hashUtf8_eq (h : impl.Lawful) {lower : ℕ → ℕ} (hcs : ∀ c ∈ cs, c < 2 ^ 32) :
    impl.hashUtf8 env (utf8 cs) lower =
      some (impl.hash cs.length (impl.pack env fun j => packl (lower (cell cs j))) fun j =>
        packl (lower (cell cs j))) := by
  have hsize := h.size_pos
  have hends : Ends (impl.hashUtf8 env (utf8 cs) lower) fun r =>
      r = impl.hash cs.length (impl.pack env fun j => packl (lower (cell cs j))) fun j => packl (lower (cell cs j)) := by
    refine loop_ends (fun s => ∃ k ≤ cs.length, HashImpl.Utf8State.At impl env lower cs k s)
      (fun s => (utf8 cs).length - s.ptr) ⟨0, Nat.zero_le _, ?_⟩ (Nat.lt_succ_of_le (Nat.sub_le _ _)) ?_
    · refine ⟨rfl, ?_, ?_, ?_⟩
      · rw [Nat.zero_div, Nat.mul_zero]
      · rw [List.take_zero, List.drop_nil]
        rfl
      · rw [Nat.zero_div]
        rfl
    · rintro s ⟨k, hk, hptr, hchars, hblock, hhash⟩
      have hmod := Nat.div_add_mod k impl.size
      have hmodlt := Nat.mod_lt k hsize
      have hlen : s.block.length = k % impl.size := by
        rw [hblock, List.length_map, List.length_drop, List.length_take, Nat.min_eq_left hk]
        omega
      unfold HashImpl.hashUtf8Step
      rcases Nat.lt_or_eq_of_le hk with hlt | rfl
      · -- another character
        have hsplit : cs.take k ++ cs[k] :: cs.drop (k + 1) = cs := by
          rw [← List.drop_eq_getElem_cons hlt, List.take_append_drop]
        have htake : cs.take k ++ [cs[k]] = cs.take (k + 1) := by rw [List.take_succ_eq_append_getElem hlt]
        have hread := @readUtf8N_utf8 cs[k] (cs.take k) (cs.drop (k + 1)) (hcs _ (List.getElem_mem hlt))
        rw [hsplit, htake] at hread
        have hmore := length_utf8_lt hlt
        have hnext : (utf8 (cs.take k)).length < (utf8 (cs.take (k + 1))).length := by
          rw [← htake, utf8_append, utf8_singleton, List.length_append]
          have := List.length_pos_iff.mpr (@writeUtf8_ne_nil cs[k])
          omega
        rw [hptr, if_neg (by omega), hread, some_bind]
        dsimp only
        have hblock' : s.block ++ [lower cs[k]] = ((cs.take (k + 1)).drop (impl.size * (k / impl.size))).map lower := by
          rw [hblock, ← htake, List.drop_append_of_le_length (by rw [List.length_take]; omega), List.map_append]
          rfl
        rw [List.length_append, hlen, List.length_singleton]
        by_cases hfull : k % impl.size + 1 = impl.size
        · -- the last one of a block
          have hdiv : (k + 1) / impl.size = k / impl.size + 1 :=
            ((Nat.div_mod_unique (c := 0) hsize).mpr ⟨by rw [Nat.mul_add]; omega, hsize⟩).1
          have hmul : impl.size * ((k + 1) / impl.size) = k + 1 := by
            rw [hdiv, Nat.mul_add]
            omega
          rw [if_pos hfull]
          refine Ends.pure ⟨⟨k + 1, hlt, rfl, ?_, ?_, ?_⟩, ?_⟩
          · rw [hchars, hdiv, Nat.mul_add, Nat.mul_one]
          · rw [hmul, List.drop_of_length_le (by rw [List.length_take]; omega)]
            rfl
          · have hpack : packBlock env impl.bits impl.size (fun j => packl (cell (s.block ++ [lower cs[k]]) j)) =
                impl.pack env (fun j => packl (lower (cell cs j))) (k / impl.size) := by
              refine packBlock_congr fun j hj => ?_
              rw [hblock', cell_map_drop_take hlt (by omega)]
            rw [hdiv, hpack, hhash]
            unfold HashImpl.blocks
            rw [List.range_succ, List.foldl_append]
            rfl
          · dsimp only
            omega
        · have hdiv : (k + 1) / impl.size = k / impl.size :=
            ((Nat.div_mod_unique (c := k % impl.size + 1) hsize).mpr ⟨by omega, by omega⟩).1
          rw [if_neg hfull]
          refine Ends.pure ⟨⟨k + 1, hlt, rfl, ?_, ?_, ?_⟩, ?_⟩
          · rw [hdiv, hchars]
          · rw [hdiv, hblock']
          · rw [hdiv, hhash]
          · dsimp only
            omega
      · rw [hptr, List.take_length, if_pos le_rfl, hchars, hhash, hlen]
        refine Ends.pure ?_
        rw [hmod]
        refine h.finish_congr _ _ _ _ _ fun j hj => ?_
        rw [hblock, cell_map_drop_take le_rfl (by omega)]
  obtain ⟨r, hr, rfl⟩ := hends
  exact hr

/-! ### Agreement -/

/-- What `unicode_db.c` says about lower case: a character of 8 or 16 bits keeps its width. -/
structure HashEnv.Lawful (env : HashEnv) : Prop where
  latin : ∀ c < 2 ^ 8, env.deeUniToLower c < 2 ^ 8
  bmp : ∀ c < 2 ^ 16, env.deeUniToLower c < 2 ^ 16

/-- The hash of a text does not depend on how it is stored, and that without case only on its lower case. -/
structure HashImpl.Agrees (impl : HashImpl) (env : HashEnv) (cs : List ℕ) : Prop where
  twoByte : (∀ c ∈ cs, c < 2 ^ 16) → impl.deeHash2Byte env cs = impl.deeHash4Byte env cs
  inUtf8 : impl.deeHashUtf8 env (utf8 cs) = some (impl.deeHash4Byte env cs)
  oneByte : (∀ c ∈ cs, c < 2 ^ 8) → impl.deeHashPtr cs = impl.deeHash4Byte env cs
  caseTwoByte : (∀ c ∈ cs, c < 2 ^ 16) → impl.deeHashCase2Byte env cs = impl.deeHashCase4Byte env cs
  caseInUtf8 : impl.deeHashCaseUtf8 env (utf8 cs) = some (impl.deeHashCase4Byte env cs)
  caseOneByte : (∀ c ∈ cs, c < 2 ^ 8) → impl.deeHashCasePtr env cs = impl.deeHashCase4Byte env cs
  lowerCase : ∀ cs', cs'.map env.deeUniToLower = cs.map env.deeUniToLower →
    impl.deeHashCase4Byte env cs' = impl.deeHashCase4Byte env cs

/-- The lower case of a byte in a full block of `Dee_HashCasePtr`. -/
def HashEnv.casePart (env : HashEnv) (c : ℕ) : ℕ :=
  if env.charSigned ∧ 0x80 ≤ c then c else env.deeUniToLower c

/-- Block `i` of a text of bytes is the block of the same characters in 32-bit units. -/
def HashImpl.PtrBlock (impl : HashImpl) (env : HashEnv) (cs : List ℕ) (i : ℕ) : Prop :=
  ∀ j < impl.size, cell cs (impl.size * i + j) = cell cs (impl.size * i + esel env impl.size j)

/-- The same without case. -/
def HashImpl.CaseBlock (impl : HashImpl) (env : HashEnv) (cs : List ℕ) (i : ℕ) : Prop :=
  ∀ j < impl.size, env.casePart (cell cs (impl.size * i + j)) =
    env.deeUniToLower (cell cs (impl.size * i + esel env impl.size j))

instance : Decidable (impl.PtrBlock env cs i) := inferInstanceAs (Decidable (∀ j < impl.size, _))

instance : Decidable (impl.CaseBlock env cs i) := inferInstanceAs (Decidable (∀ j < impl.size, _))

theorem cell_lt_of_forall_lt {B : ℕ} (hB : 0 < B) (h : ∀ c ∈ cs, c < B) (j : ℕ) : cell cs j < B := by
  by_cases hj : j < cs.length
  · have hcell : cell cs j = cs[j] := by simp [cell, hj]
    rw [hcell]
    exact h _ (List.getElem_mem hj)
  · rwa [cell_of_le (Nat.le_of_not_lt hj)]

/-- A negative `char` is a character outside the table. -/
theorem HashEnv.deeUniToLower_charArg (henv : env.Lawful) {b : ℕ} (hb : b < 2 ^ 8) :
    env.deeUniToLower (env.charArg b) % 2 ^ 8 = env.casePart b := by
  unfold HashEnv.charArg HashEnv.casePart
  cases env.charSigned with
  | false =>
    simp only [Bool.false_eq_true, if_false, false_and]
    exact Nat.mod_eq_of_lt (henv.latin b hb)
  | true =>
    simp only [if_true, true_and]
    by_cases hneg : 0x80 ≤ b
    · have hsint : sint 8 b = b - 2 ^ 8 := by
        unfold sint
        rw [Int.bmod_def]
        omega
      have harg : uint 32 (sint 8 b) = b + 0xffffff00 := by
        rw [hsint]
        unfold uint
        omega
      unfold HashEnv.deeUniToLower
      rw [if_pos hneg, harg, if_neg (by unfold unicodeCount; omega)]
      unfold uint
      omega
    · have hsint : sint 8 b = b := by
        unfold sint
        rw [Int.bmod_def]
        omega
      have harg : uint 32 (sint 8 b) = b := by
        rw [hsint]
        unfold uint
        omega
      rw [if_neg hneg, harg]
      exact Nat.mod_eq_of_lt (henv.latin b hb)

/-- The block is the only one of `n` without `P`. -/
def OneWithout (P : ℕ → Prop) (n : ℕ) : Prop := ∃ i < n, ¬P i ∧ ∀ j < n, j ≠ i → P j

/-- Single bytes are read as they are packed on machines with the low byte first, and lower case needs a `char` that is
not negative. -/
structure HashEnv.Uniform (env : HashEnv) : Prop where
  order : env.bigEndian = false
  chars : env.charSigned → ∀ c < 2 ^ 8, 0x80 ≤ c → env.deeUniToLower c = c

theorem HashImpl.Lawful.load_eq_iff (h : impl.Lawful) (hcs : ∀ c ∈ cs, c < 2 ^ 8) :
    impl.load cs i = impl.pack env (fun j => packl (cell cs j)) i ↔ impl.PtrBlock env cs i := by
  have hcell := cell_lt_of_forall_lt (by norm_num) hcs
  have hpackl : ∀ j, packl (cell cs j) = cell cs j := fun j => packl_of_lt (hcell j)
  rw [eq_comm, h.load_eq_pack_iff hcell fun j => (hpackl j).symm ▸ hcell j]
  exact forall₂_congr fun j _ => by rw [hpackl]

theorem HashImpl.Lawful.load_lowerPart_eq_iff (h : impl.Lawful) (henv : env.Lawful) (hcs : ∀ c ∈ cs, c < 2 ^ 8)
    (hi : i < cs.length / impl.size) :
    impl.load (env.lowerPart cs) i = impl.pack env (fun j => packl (env.deeUniToLower (cell cs j))) i ↔
      impl.CaseBlock env cs i := by
  have hcell := cell_lt_of_forall_lt (by norm_num) hcs
  have hlower : ∀ j, env.deeUniToLower (cell cs j) < 2 ^ 8 := fun j => henv.latin _ (hcell j)
  have hpackl : ∀ j, packl (env.deeUniToLower (cell cs j)) = env.deeUniToLower (cell cs j) := fun j =>
    packl_of_lt (hlower j)
  have hpart : ∀ j < cs.length, cell (env.lowerPart cs) j = env.casePart (cell cs j) := fun j hj => by
    have hmem := hcs _ (List.getElem_mem hj)
    have hget : cell cs j = cs[j] := by simp [cell, hj]
    rw [hget, ← env.deeUniToLower_charArg henv hmem]
    simp [cell, HashEnv.lowerPart, hj]
  have hbytes : ∀ j, cell (env.lowerPart cs) j < 256 := by
    refine cell_lt_of_forall_lt (by norm_num) fun c hc => ?_
    obtain ⟨b, -, rfl⟩ := List.mem_map.mp hc
    exact Nat.mod_lt _ (by norm_num)
  rw [eq_comm, h.load_eq_pack_iff hbytes fun j => (hpackl j).symm ▸ hlower j]
  refine forall₂_congr fun j hj => ?_
  have hin : impl.size * i + j < cs.length := by
    have := Nat.div_mul_le_self cs.length impl.size
    have := Nat.mul_le_mul_left impl.size (Nat.succ_le_of_lt hi)
    rw [Nat.mul_succ, Nat.mul_comm _ (_ / _)] at this
    omega
  rw [hpackl, hpart _ hin]

theorem HashImpl.Lawful.agrees (h : impl.Lawful) (henv : env.Lawful) (hcs : ∀ c ∈ cs, c < 2 ^ 32)
    (hblocks : (∀ c ∈ cs, c < 2 ^ 8) → ∀ i < cs.length / impl.size, impl.PtrBlock env cs i ∧ impl.CaseBlock env cs i) :
    impl.Agrees env cs where
  twoByte h16 := by
    have hcell := cell_lt_of_forall_lt (by norm_num) h16
    have hpackw : ∀ j, packw (cell cs j) = packl (cell cs j) := fun j => packw_eq_packl (hcell j)
    exact h.hash_congr (fun i _ => HashImpl.pack_congr fun j _ => hpackw _) fun j _ => hpackw j
  inUtf8 := h.hashUtf8_eq hcs
  oneByte h8 := by
    have hcell := cell_lt_of_forall_lt (by norm_num) h8
    exact h.hash_congr (fun i hi => (h.load_eq_iff h8).mpr (hblocks h8 i hi).1) fun j _ =>
      (packl_of_lt (hcell j)).symm
  caseTwoByte h16 := by
    have hlower : ∀ j, env.deeUniToLower (cell cs j) < 2 ^ 16 := fun j =>
      henv.bmp _ (cell_lt_of_forall_lt (by norm_num) h16 j)
    exact h.hash_congr (fun i _ => rfl) fun j _ => h.casePack _ (hlower j)
  caseInUtf8 := h.hashUtf8_eq hcs
  caseOneByte h8 := by
    have hlower : ∀ j, env.deeUniToLower (cell cs j) < 2 ^ 8 := fun j =>
      henv.latin _ (cell_lt_of_forall_lt (by norm_num) h8 j)
    refine h.hash_congr (fun i hi => (h.load_lowerPart_eq_iff henv h8 hi).mpr (hblocks h8 i hi).2) fun j _ => ?_
    rw [h.caseByte _ (hlower j), packl_of_lt (hlower j)]
  lowerCase cs' hmap := by
    have hlen : cs'.length = cs.length := by simpa using congrArg List.length hmap
    have hcell : ∀ j < cs.length, env.deeUniToLower (cell cs' j) = env.deeUniToLower (cell cs j) := fun j hj => by
      have hget := congrArg (fun l => cell l j) hmap
      simpa [cell, hj, hlen] using hget
    unfold HashImpl.deeHashCase4Byte
    rw [hlen]
    refine h.hash_congr (fun i hi => HashImpl.pack_congr fun j hj => ?_) fun j hj => ?_
    · have := Nat.div_mul_le_self cs.length impl.size
      have := Nat.mul_le_mul_left impl.size (Nat.succ_le_of_lt hi)
      rw [Nat.mul_succ, Nat.mul_comm _ (_ / _)] at this
      rw [hcell _ (by omega)]
    · rw [hcell j hj]

theorem HashImpl.Lawful.not_agrees_of_ptrBlock (h : impl.Lawful) (hcs : ∀ c ∈ cs, c < 2 ^ 8)
    (hone : OneWithout (impl.PtrBlock env cs) (cs.length / impl.size)) : ¬impl.Agrees env cs := by
  obtain ⟨i, hi, hbad, hgood⟩ := hone
  have hcell := cell_lt_of_forall_lt (by norm_num) hcs
  intro hagrees
  refine h.hash_ne hi (mt (h.load_eq_iff hcs).mp hbad) (fun j hj hne => (h.load_eq_iff hcs).mpr (hgood j hj hne))
    (fun j _ => ?_) (hagrees.oneByte hcs)
  exact (packl_of_lt (hcell j)).symm

theorem HashImpl.Lawful.not_agrees_of_caseBlock (h : impl.Lawful) (henv : env.Lawful) (hcs : ∀ c ∈ cs, c < 2 ^ 8)
    (hone : OneWithout (impl.CaseBlock env cs) (cs.length / impl.size)) : ¬impl.Agrees env cs := by
  obtain ⟨i, hi, hbad, hgood⟩ := hone
  have hlower : ∀ j, env.deeUniToLower (cell cs j) < 2 ^ 8 := fun j =>
    henv.latin _ (cell_lt_of_forall_lt (by norm_num) hcs j)
  intro hagrees
  refine h.hash_ne hi (mt (h.load_lowerPart_eq_iff henv hcs hi).mp hbad)
    (fun j hj hne => (h.load_lowerPart_eq_iff henv hcs hj).mpr (hgood j hj hne)) (fun j _ => ?_)
    (hagrees.caseOneByte hcs)
  rw [h.caseByte _ (hlower j), packl_of_lt (hlower j)]

theorem HashEnv.Uniform.blocks (h : env.Uniform) (hcs : ∀ c ∈ cs, c < 2 ^ 8) :
    impl.PtrBlock env cs i ∧ impl.CaseBlock env cs i := by
  have hcell := cell_lt_of_forall_lt (by norm_num) hcs
  have hesel : ∀ j, esel env impl.size j = j := fun j => by
    unfold esel
    rw [h.order, if_neg Bool.false_ne_true]
  constructor
  · intro j _
    rw [hesel]
  · intro j _
    rw [hesel]
    unfold HashEnv.casePart
    split_ifs with hneg
    · exact (h.chars hneg.1 _ (hcell _) hneg.2).symm
    · rfl

/-- The storage never matters only on such machines: otherwise there is a text of one block with two hashes. -/
theorem HashImpl.Lawful.uniform_of_agrees (h : impl.Lawful) (henv : env.Lawful) (hsize : 1 < impl.size)
    (hall : ∀ cs, (∀ c ∈ cs, c < 2 ^ 32) → impl.Agrees env cs) : env.Uniform := by
  have hone : impl.size / impl.size = 1 := Nat.div_self h.size_pos
  have hwithout : ∀ P : ℕ → Prop, ¬P 0 → OneWithout P (impl.size / impl.size) := fun P hP =>
    ⟨0, by omega, hP, fun j hj hne => by omega⟩
  constructor
  · by_contra hbig
    have hlen : (1 :: List.replicate (impl.size - 1) 0).length = impl.size := by
      rw [List.length_cons, List.length_replicate]
      omega
    have hlt : ∀ c ∈ 1 :: List.replicate (impl.size - 1) 0, c < 2 ^ 8 := by
      intro c hc
      rcases List.mem_cons.mp hc with rfl | hc
      · norm_num
      · rw [List.eq_of_mem_replicate hc]
        norm_num
    refine h.not_agrees_of_ptrBlock hlt ?_ (hall _ fun c hc => (hlt c hc).trans (by norm_num))
    rw [hlen]
    refine hwithout _ fun hblock => ?_
    have hfirst := hblock 0 h.size_pos
    have hlast : esel env impl.size 0 = (impl.size - 2) + 1 := by
      unfold esel
      rw [if_pos (Bool.eq_true_of_not_eq_false hbig)]
      omega
    rw [hlast] at hfirst
    simp [cell, show impl.size - 2 < impl.size - 1 by omega] at hfirst
  · intro hsigned c hc hneg
    by_contra hne
    have hlen : (List.replicate impl.size c).length = impl.size := List.length_replicate
    have hlt : ∀ c' ∈ List.replicate impl.size c, c' < 2 ^ 8 := fun c' hc' =>
      (List.eq_of_mem_replicate hc').symm ▸ hc
    have hcell : ∀ j < impl.size, cell (List.replicate impl.size c) (impl.size * 0 + j) = c := fun j hj => by
      simp [cell, hj]
    refine h.not_agrees_of_caseBlock henv hlt ?_ (hall _ fun c' hc' => (hlt c' hc').trans (by norm_num))
    rw [hlen]
    refine hwithout _ fun hblock => ?_
    have hesel : esel env impl.size 0 < impl.size := by
      unfold esel
      split_ifs <;> omega
    have hfirst := hblock 0 h.size_pos
    rw [hcell _ hesel, hcell 0 h.size_pos] at hfirst
    unfold HashEnv.casePart at hfirst
    rw [if_pos ⟨hsigned, hneg⟩] at hfirst
    exact hne hfirst.symm

/-- The hash of a text is the same for all forms of storage if every full block of single bytes is read as it is packed.
One block for which this fails is enough for two hashes; so it holds for all texts only where the low byte comes
first and no byte with another lower case is a negative `char`. -/
theorem hash_agrees_iff (henv : env.Lawful) (himpl : impl = hash64 ∨ impl = hash32) :
    (∀ cs, (∀ c ∈ cs, c < 2 ^ 32) →
      ((∀ c ∈ cs, c < 2 ^ 8) → ∀ i < cs.length / impl.size, impl.PtrBlock env cs i ∧ impl.CaseBlock env cs i) →
        impl.Agrees env cs) ∧
    (∀ cs, (∀ c ∈ cs, c < 2 ^ 8) →
      OneWithout (impl.PtrBlock env cs) (cs.length / impl.size) ∨
        OneWithout (impl.CaseBlock env cs) (cs.length / impl.size) → ¬impl.Agrees env cs) ∧
    ((∀ cs, (∀ c ∈ cs, c < 2 ^ 32) → impl.Agrees env cs) ↔ env.Uniform) := by
  have hlawful : impl.Lawful := by
    rcases himpl with rfl | rfl
    · exact hash64_lawful
    · exact hash32_lawful
  have hsize : 1 < impl.size := by rcases himpl with rfl | rfl <;> decide
  refine ⟨fun cs hcs hblocks => hlawful.agrees henv hcs hblocks, fun cs hcs hone => ?_, fun hall => ?_, ?_⟩
  · rcases hone with hone | hone
    · exact hlawful.not_agrees_of_ptrBlock hcs hone
    · exact hlawful.not_agrees_of_caseBlock henv hcs hone
  · exact hlawful.uniform_of_agrees henv hsize hall
  · exact fun huniform cs hcs => hlawful.agrees henv hcs fun h8 i _ => huniform.blocks h8

end Agree

/-! ### Latin letters -/

/-- A machine with the low byte first and the lower case of the letters of Latin-1. -/
def latinEnv (charSigned : Bool) : HashEnv where
  bigEndian := false
  charSigned := charSigned
  utLower c := if 0x41 ≤ c ∧ c ≤ 0x5a ∨ 0xc0 ≤ c ∧ c ≤ 0xde ∧ c ≠ 0xd7 then 0x20 else 0

theorem latinEnv_lawful (charSigned : Bool) : (latinEnv charSigned).Lawful := by
  constructor
  all_goals
    intro c hc
    unfold HashEnv.deeUniToLower latinEnv uint
    dsimp only
    split_ifs <;> omega

/-- `Dee_HashPtr` and the others agree on `"abcdefgh"`, in both implementations. -/
theorem hash_agrees_abcdefgh :
    hash64.Agrees (latinEnv true) (List.range' 97 8) ∧ hash32.Agrees (latinEnv true) (List.range' 97 8) := by
  have hlt : ∀ c ∈ List.range' 97 8, c < 2 ^ 32 := by decide
  constructor
  · refine (hash_agrees_iff (latinEnv_lawful true) (.inl rfl)).1 _ hlt fun _ i hi => ?_
    obtain rfl : i = 0 := by simpa [hash64] using hi
    exact ⟨by decide, by decide⟩
  · refine (hash_agrees_iff (latinEnv_lawful true) (.inr rfl)).1 _ hlt fun _ i hi => ?_
    have hi : i < 2 := by simpa [hash32] using hi
    obtain rfl | rfl : i = 0 ∨ i = 1 := by omega
    · exact ⟨by decide, by decide⟩
    · exact ⟨by decide, by decide⟩

/-- Eight times `À`: as signed `char`s they keep their case. -/
theorem hash_counterexample :
    ¬(hash64.deeHashCasePtr (latinEnv true) (List.replicate 8 0xc0) =
      hash64.deeHashCase4Byte (latinEnv true) (List.replicate 8 0xc0)) := by decide

end Deemon.Runtime
