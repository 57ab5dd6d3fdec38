import Deemon.Hybrid.Bitset

/-!
# Updating bitsets

The writing functions of `hybrid/__bitset.h`. A destination is a pointer into a buffer, that is, the buffer and the
number of a word. A source is a pointer into the same buffer or into another one (`Src`), so that overlapping
operands are what they are in the code. The lemmas say how far an update may turn bits on (`SetsBelow`).
-/

namespace Deemon.Hybrid

open Deemon.Run Deemon.BitString

/-! ### Single bits -/

section Update

variable (self : List Word)

/-- `__hybrid_bitset_set`. -/
def bitsetSet (p bitno : ℕ) : Option (List Word) :=
  updateWord self (p + bitsetWord bitno) fun w => w ||| bitsetMask bitno

/-- `__hybrid_bitset_clear`. -/
def bitsetClear (p bitno : ℕ) : Option (List Word) :=
  updateWord self (p + bitsetWord bitno) fun w => w &&& ~~~bitsetMask bitno

/-- `__hybrid_bitset_flip`. -/
def bitsetFlip (p bitno : ℕ) : Option (List Word) :=
  updateWord self (p + bitsetWord bitno) fun w => w ^^^ bitsetMask bitno

/-! ### Ranges -/

/-- `__hybrid_bitset_nclear_r`. -/
def bitsetNclearR (p minbitno maxbitno : ℕ) : Option (List Word) := do
  let minword := bitsetWord minbitno
  let maxword := bitsetWord maxbitno
  if minword = maxword then
    updateWord self (p + maxword) fun w =>
      w &&& (bitsetLoMaskin (bitsetBit minbitno) ||| bitsetLoMaskouP1 (bitsetBit maxbitno))
  else if minword ≤ maxword then do
    let self ← updateWord self (p + minword) fun w => w &&& bitsetLoMaskin (bitsetBit minbitno)
    let self ← fillWords self (p + (minword + 1)) 0 (maxword - (minword + 1))
    updateWord self (p + maxword) fun w => w &&& bitsetLoMaskouP1 (bitsetBit maxbitno)
  else some self

/-- `__hybrid_bitset_nclear`. -/
def bitsetNclear (p startbitno endbitno : ℕ) : Option (List Word) :=
  if 1 ≤ endbitno then bitsetNclearR self p startbitno (endbitno - 1) else some self

/-- `__hybrid_bitset_nset_r`. -/
def bitsetNsetR (p minbitno maxbitno : ℕ) : Option (List Word) := do
  let minword := bitsetWord minbitno
  let maxword := bitsetWord maxbitno
  if minword = maxword then
    updateWord self (p + maxword) fun w =>
      w ||| (bitsetLoMaskou (bitsetBit minbitno) &&& bitsetLoMaskinP1 (bitsetBit maxbitno))
  else if minword ≤ maxword then do
    let self ← updateWord self (p + minword) fun w => w ||| bitsetLoMaskou (bitsetBit minbitno)
    let self ← fillWords self (p + (minword + 1)) 0xff (maxword - (minword + 1))
    updateWord self (p + maxword) fun w => w ||| bitsetLoMaskinP1 (bitsetBit maxbitno)
  else some self

/-- `__hybrid_bitset_nset`. -/
def bitsetNset (p startbitno endbitno : ℕ) : Option (List Word) :=
  if 1 ≤ endbitno then bitsetNsetR self p startbitno (endbitno - 1) else some self

/-- `__hybrid_bitset_nflip_r`. -/
def bitsetNflipR (p minbitno maxbitno : ℕ) : Option (List Word) := do
  let minword := bitsetWord minbitno
  let maxword := bitsetWord maxbitno
  if minword = maxword then
    updateWord self (p + maxword) fun w =>
      w ^^^ (bitsetLoMaskou (bitsetBit minbitno) &&& bitsetLoMaskinP1 (bitsetBit maxbitno))
  else if minword ≤ maxword then do
    let self ← updateWord self (p + minword) fun w => w ^^^ bitsetLoMaskou (bitsetBit minbitno)
    let self ← forLoop (fun i self => updateWord self (p + i) fun w => w ^^^ 0xff) (minword + 1)
      (maxword - (minword + 1)) self
    updateWord self (p + maxword) fun w => w ^^^ bitsetLoMaskinP1 (bitsetBit maxbitno)
  else some self

/-- `__hybrid_bitset_nflip`. -/
def bitsetNflip (p startbitno endbitno : ℕ) : Option (List Word) :=
  if 1 ≤ endbitno then bitsetNflipR self p startbitno (endbitno - 1) else some self

/-- `__hybrid_bitset_setall`. -/
def bitsetSetall (nBits : ℕ) : Option (List Word) := fillWords self 0 0xff (bitsetLengthof nBits)

/-- `__hybrid_bitset_clearall`. -/
def bitsetClearall (nBits : ℕ) : Option (List Word) := fillWords self 0 0 (bitsetLengthof nBits)

/-- `__hybrid_bitset_flipall`. -/
def bitsetFlipall (nBits : ℕ) : Option (List Word) :=
  forLoop (fun i self => updateWord self i fun w => w ^^^ 0xff) 0 (bitsetLengthof nBits) self

end Update

/-! ### Copies -/

/-- The source pointer of a copy: into the buffer of the destination, or into another one. -/
inductive Src where
  | own (p : ℕ)
  | other (words : List Word) (p : ℕ)

/-- `src + n`. -/
def Src.add : Src → ℕ → Src
  | .own p, n => .own (p + n)
  | .other words p, n => .other words (p + n)

/-- The words from a source pointer on. -/
def Src.words (buf : List Word) : Src → List Word
  | .own p => buf.drop p
  | .other words p => words.drop p

/-- `src[i]`. -/
def Src.read (buf : List Word) : Src → ℕ → Option Word
  | .own p, i => readWord buf (p + i)
  | .other words p, i => readWord words (p + i)

/-- `__hybrid_bitset_test` at a source. -/
def Src.test (buf : List Word) (src : Src) (bitno : ℕ) : Option Bool := do
  some ((← src.read buf (bitsetWord bitno)) &&& bitsetMask bitno ≠ 0)

/-- `dst <= src`; `before` is the order of two buffers. -/
def Src.ge (before : Bool) (dst : ℕ) : Src → Bool
  | .own p => dst ≤ p
  | .other _ _ => before

/-- The pointer of a destination advanced to the word of its first bit. -/
def dstAdvance (dst startbitno : ℕ) : ℕ × ℕ :=
  if 7 < startbitno then (dst + startbitno >>> 3, startbitno &&& 7) else (dst, startbitno)

/-- The pointer of a source advanced to the word of its first bit. -/
def Src.advance (src : Src) (startbitno : ℕ) : Src × ℕ :=
  if 7 < startbitno then (src.add (startbitno >>> 3), startbitno &&& 7) else (src, startbitno)

/-- `memmove(dst, src, n)`: the source is read as it was before. -/
def moveWords (buf : List Word) (dst : ℕ) (src : Src) (n : ℕ) : Option (List Word) :=
  forLoop (fun i buf' => do writeWord buf' (dst + i) (← src.read buf i)) 0 n buf

/-- `*dst = (*src & mask) | (*dst & ~mask)`. -/
def blendWord (buf : List Word) (dst : ℕ) (src : Src) (mask : Word) : Option (List Word) := do
  let s ← src.read buf 0
  updateWord buf dst fun w => (s &&& mask) ||| (w &&& ~~~mask)

/-- A loop over the `n` bits of a copy, upwards if the destination is not behind the source. -/
def copyLoop (up : Bool) (body : ℕ → List Word → Option (List Word)) (n : ℕ) (buf : List Word) : Option (List Word) :=
  if up then forLoop body 0 n buf else forDown body n buf

/-- The bits of a copy, one at a time. -/
def copyBit (dst dstStart : ℕ) (src : Src) (srcStart i : ℕ) (buf : List Word) : Option (List Word) := do
  if ← src.test buf (srcStart + i) then bitsetSet buf dst (dstStart + i) else bitsetClear buf dst (dstStart + i)

/-- The aligned part of a copy: whole words, and then a partial one. -/
def copyWholeWords (buf : List Word) (dst : ℕ) (src : Src) (nBits : ℕ) : Option (List Word) := do
  let wholeWords := nBits >>> 3
  let buf ← moveWords buf dst src wholeWords
  if bitsetBit nBits ≠ 0 then
    blendWord buf (dst + wholeWords) (src.add wholeWords) (bitsetLoMaskin (bitsetBit nBits))
  else some buf

/-- The shape of `__hybrid_bitset_ncopy` and `__hybrid_bitset_nbitop`: words through a mask (`part`), whole words
(`whole`), or single bits (`bit`) when the operands are not aligned. -/
def bitsetNop (part : List Word → ℕ → Src → Word → Option (List Word))
    (whole : List Word → ℕ → Src → ℕ → Option (List Word))
    (bit : ℕ → ℕ → Src → ℕ → ℕ → List Word → Option (List Word))
    (before : Bool) (buf : List Word) (dst dstStartbitno : ℕ) (src : Src) (srcStartbitno nBits : ℕ) :
    Option (List Word) := do
  let (dst, dstStartbitno) := dstAdvance dst dstStartbitno
  let (src, srcStartbitno) := src.advance srcStartbitno
  assert (dstStartbitno ≤ 7)
  assert (srcStartbitno ≤ 7)
  if srcStartbitno = dstStartbitno then
    if dstStartbitno ≠ 0 then
      let copy := 8 - dstStartbitno
      if nBits ≤ copy then
        -- only within the first word
        part buf dst src (bitsetMidMask nBits dstStartbitno)
      else do
        let buf ← part buf dst src (bitsetHiMaskin copy)
        whole buf (dst + 1) (src.add 1) (nBits - copy)
    else whole buf dst src nBits
  else copyLoop (src.ge before dst) (bit dst dstStartbitno src srcStartbitno) nBits buf

/-- `__hybrid_bitset_ncopy`. -/
def bitsetNcopy (before : Bool) (buf : List Word) (dst dstStartbitno : ℕ) (src : Src) (srcStartbitno nBits : ℕ) :
    Option (List Word) :=
  bitsetNop blendWord copyWholeWords copyBit before buf dst dstStartbitno src srcStartbitno nBits

/-! ### Bit operations -/

/-- `__HYBRID_BITSET_OP_AND`, `__HYBRID_BITSET_OP_OR` and `__HYBRID_BITSET_OP_XOR`. -/
inductive BitsetOp where
  | and | or | xor
  deriving DecidableEq

/-- `*dst op= s`. -/
def BitsetOp.apply : BitsetOp → Word → Word → Word
  | .and, w, s => w &&& s
  | .or, w, s => w ||| s
  | .xor, w, s => w ^^^ s

/-- `__hybrid_private_bitset_bitop`. -/
def bitsetBitop (buf : List Word) (dst : ℕ) (src : Src) (mask : Word) (op : BitsetOp) : Option (List Word) := do
  let s ← src.read buf 0
  updateWord buf dst fun w =>
    match op with
    | .and => w &&& ((s &&& mask) ||| ~~~mask)
    | .or => w ||| (s &&& mask)
    | .xor => w ^^^ (s &&& mask)

/-- One whole word of a bit operation. -/
def bitopWord (op : BitsetOp) (dst : ℕ) (src : Src) (i : ℕ) (buf : List Word) : Option (List Word) := do
  let s ← src.read buf i
  updateWord buf (dst + i) fun w => op.apply w s

/-- One bit of a bit operation. -/
def bitopBit (op : BitsetOp) (dst dstStart : ℕ) (src : Src) (srcStart i : ℕ) (buf : List Word) :
    Option (List Word) := do
  let set ← src.test buf (srcStart + i)
  match op with
  | .and => if !set then bitsetClear buf dst (dstStart + i) else some buf
  | .or => if set then bitsetSet buf dst (dstStart + i) else some buf
  | .xor => if set then bitsetFlip buf dst (dstStart + i) else some buf

/-- The aligned part of a bit operation: whole words, and then a partial one. -/
def bitopWholeWords (before : Bool) (buf : List Word) (dst : ℕ) (src : Src) (nBits : ℕ) (op : BitsetOp) :
    Option (List Word) := do
  let wholeWords := nBits >>> 3
  let buf ← copyLoop (src.ge before dst) (bitopWord op dst src) wholeWords buf
  if bitsetBit nBits ≠ 0 then
    bitsetBitop buf (dst + wholeWords) (src.add wholeWords) (bitsetLoMaskin (bitsetBit nBits)) op
  else some buf

/-- `__hybrid_bitset_nbitop`. -/
def bitsetNbitop (before : Bool) (buf : List Word) (dst dstStartbitno : ℕ) (src : Src) (srcStartbitno nBits : ℕ)
    (op : BitsetOp) : Option (List Word) :=
  bitsetNop (fun buf dst src mask => bitsetBitop buf dst src mask op)
    (fun buf dst src n => bitopWholeWords before buf dst src n op) (bitopBit op) before buf dst dstStartbitno src
    srcStartbitno nBits

/-! ### How far updates turn bits on -/

section Updates

variable {self buf : List Word} {n : ℕ}

theorem isMask_bit (bitno : ℕ) : IsMask (bitsetMask bitno) (bitsetBit bitno) (bitsetBit bitno + 1) := by
  have hall : ∀ k < 8, IsMask ((1 : Word) <<< k) k (k + 1) := by
    unfold IsMask
    decide
  exact hall _ (bitsetBit_lt bitno)

/-- Turning bits on or over through a mask. -/
theorem updateMask_ends {i a b : ℕ} {mask : Word} {f : Word → Word} (h : i < self.length) (hmask : IsMask mask a b)
    (hf : ∀ w, f w = w ||| mask ∨ f w = w ^^^ mask) (hn : 8 * i + b ≤ n) :
    Ends (updateWord self i f) (SetsBelow n self) := by
  refine (updateWord_ends h fun k hk hle hbit => ?_).mono fun _ h => h.1
  rcases hf (word self i) with hw | hw
  · rw [hw] at hbit
    exact hmask.or_lt hk (by omega) hbit
  · rw [hw] at hbit
    exact hmask.xor_lt hk (by omega) hbit

/-- Turning bits off: those outside of the mask. -/
theorem updateAnd_ends {i : ℕ} {mask : Word} (h : i < self.length) :
    Ends (updateWord self i fun w => w &&& mask) fun s =>
      SetsBelow 0 self s ∧ ∀ k < 8, mask.getLsbD k = false → ¬Bits s (8 * i + k) := by
  refine (updateWord_ends h ?_).mono fun s hs => ⟨hs.1, ?_⟩
  · intro k _ _ hbit
    exact and_bit hbit
  · intro k hk hoff
    rw [bits_word _ _ hk, hs.2, BitVec.getLsbD_and, hoff, Bool.and_false]
    decide

theorem bitsetSet_ends {p bitno : ℕ} (h : 8 * p + bitno < 8 * self.length) (hn : 8 * p + bitno < n) :
    Ends (bitsetSet self p bitno) (SetsBelow n self) := by
  have hsplit := bitno_eq bitno
  have hbit := bitsetBit_lt bitno
  exact updateMask_ends (by omega) (isMask_bit bitno) (fun w => Or.inl rfl) (by omega)

/-- The bit that is set, and all others as they were. -/
theorem bitsetSet_bits {p bitno : ℕ} (h : 8 * p + bitno < 8 * self.length) :
    Ends (bitsetSet self p bitno) fun s => s.length = self.length ∧ ∀ i, Bits s i ↔ Bits self i ∨ i = 8 * p + bitno := by
  have hsplit := bitno_eq bitno
  have hbit := bitsetBit_lt bitno
  have hmask := isMask_bit bitno
  obtain ⟨n, hn⟩ : ∃ n, n = p + bitsetWord bitno := ⟨_, rfl⟩
  unfold bitsetSet updateWord
  rw [← hn, readWord_of_lt (by omega), some_bind, writeWord_of_lt (by omega)]
  refine Ends.pure ⟨List.length_set, fun i => ?_⟩
  obtain ⟨k, hk, hik⟩ : ∃ k < 8, i = 8 * (i / 8) + k := ⟨i % 8, by omega, by omega⟩
  rw [hik, bits_word _ _ hk, bits_word _ _ hk]
  by_cases hword : n = i / 8
  · rw [← hword, word_set_self (by omega), BitVec.getLsbD_or, hmask k hk, Bool.or_eq_true, decide_eq_true_eq]
    refine or_congr_right ?_
    omega
  · rw [word_set_of_ne hword]
    exact ⟨Or.inl, fun hor => hor.resolve_right (by omega)⟩

theorem bitsetFlip_ends {p bitno : ℕ} (h : 8 * p + bitno < 8 * self.length) (hn : 8 * p + bitno < n) :
    Ends (bitsetFlip self p bitno) (SetsBelow n self) := by
  have hsplit := bitno_eq bitno
  have hbit := bitsetBit_lt bitno
  exact updateMask_ends (by omega) (isMask_bit bitno) (fun w => Or.inr rfl) (by omega)

theorem bitsetClear_ends {p bitno : ℕ} (h : 8 * p + bitno < 8 * self.length) :
    Ends (bitsetClear self p bitno) (SetsBelow 0 self) := by
  have hsplit := bitno_eq bitno
  exact (updateAnd_ends (by omega)).mono fun _ h => h.1

theorem bitsetNclear_ends {p lo hi : ℕ} (h : 8 * p + hi ≤ 8 * self.length) :
    Ends (bitsetNclear self p lo hi) fun s => SetsBelow 0 self s ∧ ∀ i, lo ≤ i → i < hi → ¬Bits s (8 * p + i) := by
  have hmin := bitno_eq lo
  have hmax := bitno_eq (hi - 1)
  have hlobit := bitsetBit_lt lo
  have hbit := bitsetBit_lt (hi - 1)
  have hlow := isMask_loMaskin _ hlobit
  have hhigh := isMask_loMaskouP1 _ hbit
  -- the position of a bit of the range inside its word
  have hpos : ∀ w i, 8 * w ≤ i → 8 * p + i = 8 * (p + w) + (i - 8 * w) := by
    intro w i hi
    omega
  unfold bitsetNclear
  by_cases hpositive : 1 ≤ hi
  · rw [if_pos hpositive]
    unfold bitsetNclearR
    dsimp only
    by_cases hone : bitsetWord lo = bitsetWord (hi - 1)
    · rw [if_pos hone]
      refine (updateAnd_ends (by omega)).mono fun s hs => ⟨hs.1, fun i hlo hhi => ?_⟩
      rw [hpos (bitsetWord (hi - 1)) i (by omega)]
      refine hs.2 _ (by omega) ?_
      rw [BitVec.getLsbD_or, hlow _ (by omega), hhigh _ (by omega), decide_eq_false (by omega),
        decide_eq_false (by omega), Bool.or_false]
    · rw [if_neg hone]
      by_cases hle : bitsetWord lo ≤ bitsetWord (hi - 1)
      · rw [if_pos hle]
        refine Ends.bind (updateAnd_ends (by omega)) fun s1 h1 => ?_
        have hlen1 := h1.1.length
        refine Ends.bind (fillWords_zero_ends (by omega)) fun s2 h2 => ?_
        have hlen2 := h2.1.length
        refine (updateAnd_ends (by omega)).mono fun s3 h3 => ?_
        refine ⟨(h1.1.trans h2.1).trans h3.1, fun i hlo hhi hset => ?_⟩
        have hset2 := h3.1.bits _ (Nat.zero_le _) hset
        have hset1 := h2.1.bits _ (Nat.zero_le _) hset2
        by_cases hfirst : i < 8 * (bitsetWord lo + 1)
        · rw [hpos (bitsetWord lo) i (by omega)] at hset1
          exact h1.2 _ (by omega) (by rw [hlow _ (by omega), decide_eq_false (by omega)]) hset1
        · by_cases hlast : 8 * bitsetWord (hi - 1) ≤ i
          · rw [hpos (bitsetWord (hi - 1)) i hlast] at hset
            exact h3.2 _ (by omega) (by rw [hhigh _ (by omega), decide_eq_false (by omega)]) hset
          · exact h2.2 _ (by omega) (by omega) hset2
      · rw [if_neg hle]
        exact Ends.pure ⟨SetsBelow.refl, fun i hlo hhi => by omega⟩
  · rw [if_neg hpositive]
    exact Ends.pure ⟨SetsBelow.refl, fun i hlo hhi => by omega⟩

/-- The bits before the range stay. -/
theorem bitsetNclear_keeps {p lo hi : ℕ} (h : 8 * p + hi ≤ 8 * self.length) :
    Ends (bitsetNclear self p lo hi) (KeepsBelow (8 * p + lo) self) := by
  have hmin := bitno_eq lo
  have hmax := bitno_eq (hi - 1)
  have hlobit := bitsetBit_lt lo
  have hbit := bitsetBit_lt (hi - 1)
  have hlow := isMask_loMaskin _ hlobit
  unfold bitsetNclear
  by_cases hpositive : 1 ≤ hi
  · rw [if_pos hpositive]
    unfold bitsetNclearR
    dsimp only
    by_cases hone : bitsetWord lo = bitsetWord (hi - 1)
    · rw [if_pos hone]
      refine (updateWord_keeps (by omega) fun k hk hlt hset => ?_).mono fun _ hs => hs.1
      rw [BitVec.getLsbD_and, hset, BitVec.getLsbD_or, hlow k hk, decide_eq_true (by omega)]
      rfl
    · rw [if_neg hone]
      by_cases hle : bitsetWord lo ≤ bitsetWord (hi - 1)
      · rw [if_pos hle]
        refine Ends.bind (updateWord_keeps (n := 8 * p + lo) (by omega) fun k hk hlt hset => ?_) fun s1 h1 => ?_
        · rw [BitVec.getLsbD_and, hset, hlow k hk, decide_eq_true (by omega)]
          rfl
        · have hlen1 := h1.1.length
          refine Ends.bind (fillWords_keeps (n := 8 * p + lo) (by omega) (by omega)) fun s2 h2 => ?_
          have hlen2 := h2.length
          refine (updateWord_keeps (n := 8 * p + lo) (by omega) fun k hk hlt => ?_).mono fun s3 h3 =>
            (h1.1.trans h2).trans h3.1
          omega
      · rw [if_neg hle]
        exact Ends.pure KeepsBelow.refl
  · rw [if_neg hpositive]
    exact Ends.pure KeepsBelow.refl

theorem isMask_range (lo hi : ℕ) : IsMask (bitsetLoMaskou (bitsetBit lo) &&& bitsetLoMaskinP1 (bitsetBit hi))
    (max (bitsetBit lo) 0) (min 8 (bitsetBit hi + 1)) :=
  (isMask_loMaskou _ (bitsetBit_lt lo)).and (isMask_loMaskinP1 _ (bitsetBit_lt hi))

theorem bitsetNset_ends {p lo hi : ℕ} (h : 8 * p + hi ≤ 8 * self.length) :
    Ends (bitsetNset self p lo hi) (SetsBelow (8 * p + hi) self) := by
  have hmax := bitno_eq (hi - 1)
  have hbit := bitsetBit_lt (hi - 1)
  unfold bitsetNset
  by_cases hpos : 1 ≤ hi
  · rw [if_pos hpos]
    unfold bitsetNsetR
    dsimp only
    by_cases hone : bitsetWord lo = bitsetWord (hi - 1)
    · rw [if_pos hone]
      exact updateMask_ends (by omega) (isMask_range lo (hi - 1)) (fun w => Or.inl rfl) (by omega)
    · rw [if_neg hone]
      by_cases hle : bitsetWord lo ≤ bitsetWord (hi - 1)
      · rw [if_pos hle]
        refine Ends.bind (updateMask_ends (n := 8 * p + hi) (by omega) (isMask_loMaskou _ (bitsetBit_lt lo))
          (fun w => Or.inl rfl) (by omega)) fun s1 h1 => ?_
        refine Ends.bind (fillWords_ends (by rw [h1.length]; omega)) fun s2 h2 => ?_
        refine (updateMask_ends (n := 8 * p + hi) (by rw [h2.length, h1.length]; omega)
          (isMask_loMaskinP1 _ hbit) (fun w => Or.inl rfl) (by omega)).mono fun s3 h3 => ?_
        exact (h1.trans (h2.mono (by omega))).trans h3
      · rw [if_neg hle]
        exact Ends.pure SetsBelow.refl
  · rw [if_neg hpos]
    exact Ends.pure SetsBelow.refl

/-- Flipping whole words. -/
theorem flipWords_ends {p a k : ℕ} (h : p + a + k ≤ self.length) :
    Ends (forLoop (fun i self => updateWord self (p + i) fun w => w ^^^ 0xff) a k self)
      (SetsBelow (8 * (p + a + k)) self) := by
  refine forLoop_ends (fun _ s => SetsBelow (8 * (p + a + k)) self s) SetsBelow.refl fun i s _ hi hs => ?_
  have hlen := hs.length
  refine (updateMask_ends (n := 8 * (p + a + k)) (by omega) isMask_full (fun w => Or.inr rfl) (by omega)).mono ?_
  intro s' hs'
  exact hs.trans hs'

theorem bitsetNflip_ends {p lo hi : ℕ} (h : 8 * p + hi ≤ 8 * self.length) :
    Ends (bitsetNflip self p lo hi) (SetsBelow (8 * p + hi) self) := by
  have hmax := bitno_eq (hi - 1)
  have hbit := bitsetBit_lt (hi - 1)
  unfold bitsetNflip
  by_cases hpos : 1 ≤ hi
  · rw [if_pos hpos]
    unfold bitsetNflipR
    dsimp only
    by_cases hone : bitsetWord lo = bitsetWord (hi - 1)
    · rw [if_pos hone]
      exact updateMask_ends (by omega) (isMask_range lo (hi - 1)) (fun w => Or.inr rfl) (by omega)
    · rw [if_neg hone]
      by_cases hle : bitsetWord lo ≤ bitsetWord (hi - 1)
      · rw [if_pos hle]
        refine Ends.bind (updateMask_ends (n := 8 * p + hi) (by omega) (isMask_loMaskou _ (bitsetBit_lt lo))
          (fun w => Or.inr rfl) (by omega)) fun s1 h1 => ?_
        refine Ends.bind (flipWords_ends (by rw [h1.length]; omega)) fun s2 h2 => ?_
        refine (updateMask_ends (n := 8 * p + hi) (by rw [h2.length, h1.length]; omega)
          (isMask_loMaskinP1 _ hbit) (fun w => Or.inr rfl) (by omega)).mono fun s3 h3 => ?_
        exact (h1.trans (h2.mono (by omega))).trans h3
      · rw [if_neg hle]
        exact Ends.pure SetsBelow.refl
  · rw [if_neg hpos]
    exact Ends.pure SetsBelow.refl

theorem bitsetSetall_ends (h : bitsetLengthof n ≤ self.length) :
    Ends (bitsetSetall self n) (SetsBelow (8 * bitsetLengthof n) self) := by
  have hfill := fillWords_ends (l := self) (i := 0) (w := 0xff) (k := bitsetLengthof n) (by omega)
  rwa [Nat.zero_add] at hfill

theorem bitsetClearall_ends (h : bitsetLengthof n ≤ self.length) : Ends (bitsetClearall self n) (SetsBelow 0 self) :=
  (fillWords_zero_ends (by omega)).mono fun _ h => h.1

theorem bitsetFlipall_ends (h : bitsetLengthof n ≤ self.length) :
    Ends (bitsetFlipall self n) (SetsBelow (8 * bitsetLengthof n) self) := by
  have hflip := @flipWords_ends self 0 0 (bitsetLengthof n) (by omega)
  simp only [Nat.zero_add] at hflip
  exact hflip

end Updates

/-! ### Copies and bit operations -/

/-- The words from a source pointer on, next to a destination buffer of `len` words. -/
def Src.room (len : ℕ) : Src → ℕ
  | .own p => len - p
  | .other words p => words.length - p

section Copies

variable {buf : List Word} {src : Src} {n : ℕ}

theorem Src.room_add (len k : ℕ) : (src.add k).room len = src.room len - k := by
  cases src with
  | own p => exact Nat.sub_add_eq len p k
  | other words p => exact Nat.sub_add_eq words.length p k

theorem Src.read_ends {i : ℕ} (h : i < src.room buf.length) : Ends (src.read buf i) fun _ => True := by
  cases src with
  | own p =>
    rw [Src.room] at h
    exact ⟨_, readWord_of_lt (by omega), trivial⟩
  | other words p =>
    rw [Src.room] at h
    exact ⟨_, readWord_of_lt (by omega), trivial⟩

theorem Src.test_ends {bitno : ℕ} (h : bitno < 8 * src.room buf.length) : Ends (src.test buf bitno) fun _ => True := by
  have hsplit := bitno_eq bitno
  exact Ends.bind (Src.read_ends (by omega)) fun _ _ => Ends.pure trivial

theorem moveWords_ends {dst : ℕ} (hdst : dst + n ≤ buf.length) (hsrc : n ≤ src.room buf.length) :
    Ends (moveWords buf dst src n) (SetsBelow (8 * (dst + n)) buf) := by
  refine forLoop_ends (fun _ s => SetsBelow (8 * (dst + n)) buf s) SetsBelow.refl fun i s _ hi hs => ?_
  have hlen := hs.length
  refine Ends.bind (Src.read_ends (by omega)) fun w _ => ?_
  rw [writeWord_of_lt (by omega)]
  exact Ends.pure (hs.trans (setsBelow_set (by omega) fun k _ hle => by omega))

/-- The words that come from another buffer. -/
theorem moveWords_other_ends {words : List Word} {dst p : ℕ} (hdst : dst + n ≤ buf.length)
    (hsrc : p + n ≤ words.length) :
    Ends (moveWords buf dst (.other words p) n) fun r =>
      r.length = buf.length ∧ ∀ i < n, word r (dst + i) = word words (p + i) := by
  refine forLoop_ends_zero (fun k r => r.length = buf.length ∧ ∀ i < k, word r (dst + i) = word words (p + i))
    ⟨rfl, by simp⟩ ?_
  rintro k r hk ⟨hlen, hwords⟩
  rw [Src.read, readWord_of_lt (by omega), some_bind, writeWord_of_lt (by omega)]
  refine Ends.pure ⟨List.length_set.trans hlen, fun i hi => ?_⟩
  rcases Nat.lt_succ_iff_lt_or_eq.mp hi with hi | rfl
  · rw [word_set_of_ne (by omega), hwords i hi]
  · exact word_set_self (by omega)

/-- Outside of the mask a blended word is what it was. -/
theorem blend_bit {s w mask : Word} {a b k : ℕ} (hmask : IsMask mask a b) (hk : k < 8) (hb : b ≤ k)
    (hbit : (s &&& mask ||| w &&& ~~~mask).getLsbD k = true) : w.getLsbD k = true := by
  rw [BitVec.getLsbD_or, BitVec.getLsbD_and, hmask k hk, decide_eq_false (by omega), Bool.and_false,
    Bool.false_or] at hbit
  exact and_bit hbit

theorem blendWord_ends {dst a b : ℕ} {mask : Word} (hdst : dst < buf.length) (hsrc : 0 < src.room buf.length)
    (hmask : IsMask mask a b) (hn : 8 * dst + b ≤ n) : Ends (blendWord buf dst src mask) (SetsBelow n buf) := by
  refine Ends.bind (Src.read_ends hsrc) fun s _ => ?_
  refine (updateWord_ends hdst ?_).mono fun _ h => h.1
  intro k hk hle hbit
  exact blend_bit hmask hk (by omega) hbit

theorem copyWholeWords_ends {dst : ℕ} (hdst : 8 * dst + n ≤ 8 * buf.length) (hsrc : n ≤ 8 * src.room buf.length) :
    Ends (copyWholeWords buf dst src n) (SetsBelow (8 * dst + n) buf) := by
  have hsplit := bitno_eq n
  have hbit := bitsetBit_lt n
  rw [bitsetWord_eq] at hsplit
  unfold copyWholeWords
  dsimp only
  rw [Nat.shiftRight_eq_div_pow]
  refine Ends.bind (moveWords_ends (by omega) (by omega)) fun s hs => ?_
  have hlen := hs.length
  by_cases hpart : bitsetBit n ≠ 0
  · rw [if_pos hpart]
    refine (blendWord_ends (n := 8 * dst + n) (by omega) (by rw [Src.room_add, hlen]; omega)
      (isMask_loMaskin _ hbit) (by omega)).mono fun s' hs' => ?_
    exact (hs.mono (by omega)).trans hs'
  · rw [if_neg hpart]
    exact Ends.pure (hs.mono (by omega))

/-- The loops of a copy, whichever way they run. -/
theorem copyLoop_ends {up : Bool} {body : ℕ → List Word → Option (List Word)} {N : ℕ}
    (hbody : ∀ i s, i < n → s.length = buf.length → Ends (body i s) (SetsBelow N s)) :
    Ends (copyLoop up body n buf) (SetsBelow N buf) := by
  have hstep : ∀ i s, i < n → SetsBelow N buf s → Ends (body i s) (SetsBelow N buf) := fun i s hi hs =>
    (hbody i s hi hs.length).mono fun _ hs' => hs.trans hs'
  unfold copyLoop
  by_cases hup : up = true
  · rw [if_pos hup]
    exact forLoop_ends_zero (fun _ s => SetsBelow N buf s) SetsBelow.refl hstep
  · rw [if_neg hup]
    exact forDown_ends (fun _ s => SetsBelow N buf s) SetsBelow.refl hstep

theorem copyBit_ends {dst dstStart srcStart i : ℕ} (hdst : 8 * dst + dstStart + i < 8 * buf.length)
    (hsrc : srcStart + i < 8 * src.room buf.length) (hn : 8 * dst + dstStart + i < n) :
    Ends (copyBit dst dstStart src srcStart i buf) (SetsBelow n buf) := by
  refine Ends.bind (Src.test_ends hsrc) fun b _ => ?_
  by_cases hb : b = true
  · rw [if_pos hb]
    exact bitsetSet_ends (by omega) (by omega)
  · rw [if_neg hb]
    exact (bitsetClear_ends (by omega)).mono fun _ h => h.mono (Nat.zero_le n)

theorem dstAdvance_eq (dst start : ℕ) : dstAdvance dst start = (dst + start / 8, start % 8) := by
  unfold dstAdvance
  by_cases h : 7 < start
  · rw [if_pos h, Nat.shiftRight_eq_div_pow, show start &&& 7 = start % 8 from Nat.and_two_pow_sub_one_eq_mod start 3]
  · rw [if_neg h, Nat.div_eq_of_lt (by omega), Nat.mod_eq_of_lt (by omega), Nat.add_zero]

theorem Src.advance_eq (src : Src) (start : ℕ) : src.advance start = (src.add (start / 8), start % 8) := by
  unfold Src.advance
  by_cases h : 7 < start
  · rw [if_pos h, Nat.shiftRight_eq_div_pow, show start &&& 7 = start % 8 from Nat.and_two_pow_sub_one_eq_mod start 3]
  · rw [if_neg h, Nat.div_eq_of_lt (by omega), Nat.mod_eq_of_lt (by omega)]
    cases src <;> rfl

/-- The parts of an operation on bit ranges turn no bit on behind their destinations. -/
theorem bitsetNop_ends {part : List Word → ℕ → Src → Word → Option (List Word)}
    {whole : List Word → ℕ → Src → ℕ → Option (List Word)} {bit : ℕ → ℕ → Src → ℕ → ℕ → List Word → Option (List Word)}
    {before : Bool} {dst dstStart srcStart : ℕ}
    (hpart : ∀ s d src mask a b, d < s.length → 0 < src.room s.length → IsMask mask a b →
      Ends (part s d src mask) (SetsBelow (8 * d + b) s))
    (hwhole : ∀ s d src k, 8 * d + k ≤ 8 * s.length → k ≤ 8 * src.room s.length →
      Ends (whole s d src k) (SetsBelow (8 * d + k) s))
    (hbit : ∀ s d dstart src sstart i, 8 * d + dstart + i < 8 * s.length → sstart + i < 8 * src.room s.length →
      Ends (bit d dstart src sstart i s) (SetsBelow (8 * d + dstart + i + 1) s))
    (hdst : 8 * dst + dstStart + n ≤ 8 * buf.length) (hsrc : srcStart + n ≤ 8 * src.room buf.length) :
    Ends (bitsetNop part whole bit before buf dst dstStart src srcStart n) (SetsBelow (8 * dst + dstStart + n) buf) := by
  have hroom : (src.add (srcStart / 8)).room buf.length = src.room buf.length - srcStart / 8 := Src.room_add _ _
  unfold bitsetNop
  rw [dstAdvance_eq, Src.advance_eq]
  dsimp only
  rw [assert_of (by omega), some_bind, assert_of (by omega), some_bind]
  by_cases halign : srcStart % 8 = dstStart % 8
  · rw [if_pos halign]
    by_cases hfirst : dstStart % 8 ≠ 0
    · rw [if_pos hfirst]
      by_cases hone : n ≤ 8 - dstStart % 8
      · rw [if_pos hone]
        refine (hpart _ _ _ _ _ _ (by omega) (by omega) (isMask_midMask _ (by omega) n hone)).mono fun s hs => ?_
        exact hs.mono (by omega)
      · rw [if_neg hone]
        refine Ends.bind (hpart _ _ _ _ _ _ (by omega) (by omega) (isMask_hiMaskin _ (by omega))) fun s hs => ?_
        have hlen := hs.length
        refine (hwhole _ _ _ _ (by omega) (by rw [Src.room_add, hlen]; omega)).mono fun s' hs' => ?_
        exact (hs.mono (by omega)).trans (hs'.mono (by omega))
    · rw [if_neg hfirst]
      exact (hwhole _ _ _ _ (by omega) (by omega)).mono fun s hs => hs.mono (by omega)
  · rw [if_neg halign]
    refine copyLoop_ends fun i s hi hlen => ?_
    refine (hbit _ _ _ _ _ _ (by omega) (by rw [hlen]; omega)).mono fun s' hs' => ?_
    exact hs'.mono (by omega)

/-- A copy turns no bit on behind its destination range. -/
theorem bitsetNcopy_ends {before : Bool} {dst dstStart srcStart : ℕ}
    (hdst : 8 * dst + dstStart + n ≤ 8 * buf.length) (hsrc : srcStart + n ≤ 8 * src.room buf.length) :
    Ends (bitsetNcopy before buf dst dstStart src srcStart n) (SetsBelow (8 * dst + dstStart + n) buf) := by
  refine bitsetNop_ends ?_ ?_ ?_ hdst hsrc
  · intro s d src mask a b hd hroom hmask
    exact blendWord_ends hd hroom hmask le_rfl
  · intro s d src k hd hroom
    exact copyWholeWords_ends hd hroom
  · intro s d dstart src sstart i hd hroom
    exact copyBit_ends hd hroom (Nat.lt_succ_self _)

/-- Outside of the mask a bit operation changes nothing. -/
theorem bitsetBitop_ends {op : BitsetOp} {dst a b : ℕ} {mask : Word} (hdst : dst < buf.length)
    (hsrc : 0 < src.room buf.length) (hmask : IsMask mask a b) (hn : 8 * dst + b ≤ n) :
    Ends (bitsetBitop buf dst src mask op) (SetsBelow n buf) := by
  refine Ends.bind (Src.read_ends hsrc) fun s _ => ?_
  refine (updateWord_ends hdst ?_).mono fun _ h => h.1
  intro k hk hle hbit
  have hoff : (s &&& mask).getLsbD k = false := by
    rw [BitVec.getLsbD_and, hmask k hk, decide_eq_false (by omega), Bool.and_false]
  cases op with
  | and => exact and_bit hbit
  | or =>
    dsimp only at hbit
    rwa [BitVec.getLsbD_or, hoff, Bool.or_false] at hbit
  | xor =>
    dsimp only at hbit
    rwa [BitVec.getLsbD_xor, hoff, Bool.xor_false] at hbit

theorem bitopWord_ends {op : BitsetOp} {dst i : ℕ} (hdst : dst + i < buf.length) (hsrc : i < src.room buf.length)
    (hn : 8 * (dst + i) + 8 ≤ n) : Ends (bitopWord op dst src i buf) (SetsBelow n buf) := by
  refine Ends.bind (Src.read_ends hsrc) fun s _ => ?_
  refine (updateWord_ends hdst ?_).mono fun _ h => h.1
  intro k hk hle
  omega

/-- A bit that is written or left alone. -/
theorem guarded_ends {c : Bool} {m : Option (List Word)} (h : Ends m (SetsBelow n buf)) :
    Ends (if c then m else some buf) (SetsBelow n buf) := by
  by_cases hc : c = true
  · rwa [if_pos hc]
  · rw [if_neg hc]
    exact Ends.pure SetsBelow.refl

theorem bitopBit_ends {op : BitsetOp} {dst dstStart srcStart i : ℕ} (hdst : 8 * dst + dstStart + i < 8 * buf.length)
    (hsrc : srcStart + i < 8 * src.room buf.length) (hn : 8 * dst + dstStart + i < n) :
    Ends (bitopBit op dst dstStart src srcStart i buf) (SetsBelow n buf) := by
  have hlen : 8 * dst + (dstStart + i) < 8 * buf.length := by omega
  refine Ends.bind (Src.test_ends hsrc) fun b _ => ?_
  cases op with
  | and => exact guarded_ends ((bitsetClear_ends hlen).mono fun _ h => h.mono (Nat.zero_le n))
  | or => exact guarded_ends (bitsetSet_ends hlen (by omega))
  | xor => exact guarded_ends (bitsetFlip_ends hlen (by omega))

theorem bitopWholeWords_ends {op : BitsetOp} {before : Bool} {dst : ℕ} (hdst : 8 * dst + n ≤ 8 * buf.length)
    (hsrc : n ≤ 8 * src.room buf.length) :
    Ends (bitopWholeWords before buf dst src n op) (SetsBelow (8 * dst + n) buf) := by
  have hsplit := bitno_eq n
  have hbit := bitsetBit_lt n
  rw [bitsetWord_eq] at hsplit
  unfold bitopWholeWords
  dsimp only
  rw [Nat.shiftRight_eq_div_pow]
  have hloop : Ends (copyLoop (src.ge before dst) (bitopWord op dst src) (n / 2 ^ 3) buf)
      (SetsBelow (8 * dst + n) buf) :=
    copyLoop_ends fun i s hi hlen => bitopWord_ends (by omega) (by rw [hlen]; omega) (by omega)
  refine Ends.bind hloop fun s hs => ?_
  have hlen := hs.length
  by_cases hpart : bitsetBit n ≠ 0
  · rw [if_pos hpart]
    refine (bitsetBitop_ends (n := 8 * dst + n) (by omega) (by rw [Src.room_add, hlen]; omega)
      (isMask_loMaskin _ hbit) (by omega)).mono fun s' hs' => ?_
    exact hs.trans hs'
  · rw [if_neg hpart]
    exact Ends.pure hs

/-- A bit operation turns no bit on behind its destination range. -/
theorem bitsetNbitop_ends {op : BitsetOp} {before : Bool} {dst dstStart srcStart : ℕ}
    (hdst : 8 * dst + dstStart + n ≤ 8 * buf.length) (hsrc : srcStart + n ≤ 8 * src.room buf.length) :
    Ends (bitsetNbitop before buf dst dstStart src srcStart n op) (SetsBelow (8 * dst + dstStart + n) buf) := by
  refine bitsetNop_ends ?_ ?_ ?_ hdst hsrc
  · intro s d src mask a b hd hroom hmask
    exact bitsetBitop_ends hd hroom hmask le_rfl
  · intro s d src k hd hroom
    exact bitopWholeWords_ends hd hroom
  · intro s d dstart src sstart i hd hroom
    exact bitopBit_ends hd hroom (Nat.lt_succ_self _)

end Copies

end Deemon.Hybrid
