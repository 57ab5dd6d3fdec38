import Deemon.Lib.BitString

/-!
# Searching and comparing bitsets

The read-only functions of `hybrid/__bitset.h`, on 8-bit words (`__HYBRID_BITSET_WORD_BITS` is `__CHAR_BIT__`).
A bitset is a pointer to words, that is, the words from there on. Each function works word by word with masks for
the partial words at both ends of the range; its lemma says what it finds in the bits of the range.
-/

namespace Deemon.Hybrid

open Deemon.Run Deemon.BitString

/-! ### Words and masks -/

/-- `__HYBRID_BITSET_WORD`: the word of a bit. -/
def bitsetWord (bitno : ℕ) : ℕ := bitno >>> 3

/-- `bitno & __HYBRID_BITSET_WORD_BMSK`: the bit inside its word. -/
def bitsetBit (bitno : ℕ) : ℕ := bitno &&& 7

/-- `__HYBRID_BITSET_MASK`. -/
def bitsetMask (bitno : ℕ) : Word := (1 : Word) <<< bitsetBit bitno

/-- `__HYBRID_BITSET_LENGTHOF`, in `size_t`. -/
def bitsetLengthof (nBits : ℕ) : ℕ := ((nBits + 7) % 2 ^ 64) >>> 3

/-- `__HYBRID_BITSET_LO_MASKIN`. -/
def bitsetLoMaskin (n : ℕ) : Word := ~~~((0xff : Word) <<< n)

/-- `__HYBRID_BITSET_LO_MASKOU`. -/
def bitsetLoMaskou (n : ℕ) : Word := (0xff : Word) <<< n

/-- `__HYBRID_BITSET_HI_MASKIN`, computed in `int`. -/
def bitsetHiMaskin (n : ℕ) : Word := BitVec.ofNat 8 ((0xff <<< 8) >>> n)

/-- `__HYBRID_BITSET_LO_MASKIN_P1`. -/
def bitsetLoMaskinP1 (n : ℕ) : Word := ~~~(((0xff : Word) <<< 1) <<< n)

/-- `__HYBRID_BITSET_LO_MASKOU_P1`. -/
def bitsetLoMaskouP1 (n : ℕ) : Word := ((0xff : Word) <<< 1) <<< n

/-- `__HYBRID_BITSET_WORD_CTZ`, undefined for 0. -/
def bitsetWordCtz (w : Word) : Option ℕ := if w = 0 then none else some ((List.range 8).findIdx fun k => w.getLsbD k)

/-- `__HYBRID_BITSET_WORD_CLZ`, undefined for 0. -/
def bitsetWordClz (w : Word) : Option ℕ := if w = 0 then none else some ((List.range 8).findIdx fun k => w.getMsbD k)

theorem bitsetWord_eq (bitno : ℕ) : bitsetWord bitno = bitno / 8 := by
  rw [bitsetWord, Nat.shiftRight_eq_div_pow]

theorem bitsetBit_eq (bitno : ℕ) : bitsetBit bitno = bitno % 8 :=
  Nat.and_two_pow_sub_one_eq_mod bitno 3

theorem bitsetBit_lt (bitno : ℕ) : bitsetBit bitno < 8 := by
  rw [bitsetBit_eq]
  omega

/-- The word and the bit make up the number. -/
theorem bitno_eq (bitno : ℕ) : bitno = 8 * bitsetWord bitno + bitsetBit bitno := by
  rw [bitsetWord_eq, bitsetBit_eq]
  omega

theorem bitsetLengthof_eq {nBits : ℕ} (h : nBits + 7 < 2 ^ 64) : bitsetLengthof nBits = (nBits + 7) / 8 := by
  rw [bitsetLengthof, Nat.mod_eq_of_lt h, Nat.shiftRight_eq_div_pow]

theorem isMask_loMaskin : ∀ n < 8, IsMask (bitsetLoMaskin n) 0 n := by
  unfold IsMask
  decide

theorem isMask_loMaskou : ∀ n < 8, IsMask (bitsetLoMaskou n) n 8 := by
  unfold IsMask
  decide

theorem isMask_hiMaskin : ∀ n ≤ 8, IsMask (bitsetHiMaskin n) (8 - n) 8 := by
  unfold IsMask
  decide

theorem isMask_loMaskinP1 : ∀ n < 8, IsMask (bitsetLoMaskinP1 n) 0 (n + 1) := by
  unfold IsMask
  decide

theorem isMask_loMaskouP1 : ∀ n < 8, IsMask (bitsetLoMaskouP1 n) (n + 1) 8 := by
  unfold IsMask
  decide

/-- `((1 << n) - 1) << start`. -/
def bitsetMidMask (n start : ℕ) : Word := (((1 : Word) <<< n) - 1) <<< start

theorem isMask_midMask : ∀ start < 8, ∀ n ≤ 8 - start, IsMask (bitsetMidMask n start) start (start + n) := by
  unfold IsMask
  decide

theorem bitsetWordCtz_ends {w : Word} (h : w ≠ 0) :
    Ends (bitsetWordCtz w) fun c => c < 8 ∧ w.getLsbD c = true ∧ ∀ k < c, w.getLsbD k = false := by
  have hall : ∀ w : Word, w ≠ 0 → (List.range 8).findIdx (fun k => w.getLsbD k) < 8 ∧
      w.getLsbD ((List.range 8).findIdx fun k => w.getLsbD k) = true ∧
      ∀ k < (List.range 8).findIdx (fun k => w.getLsbD k), w.getLsbD k = false := by
    decide
  unfold bitsetWordCtz
  rw [if_neg h]
  exact Ends.pure (hall w h)

theorem bitsetWordClz_ends {w : Word} (h : w ≠ 0) :
    Ends (bitsetWordClz w) fun c => c < 8 ∧ w.getLsbD (7 - c) = true ∧ ∀ k < 8, 7 - c < k → w.getLsbD k = false := by
  have hall : ∀ w : Word, w ≠ 0 → (List.range 8).findIdx (fun k => w.getMsbD k) < 8 ∧
      w.getLsbD (7 - (List.range 8).findIdx fun k => w.getMsbD k) = true ∧
      ∀ k < 8, 7 - (List.range 8).findIdx (fun k => w.getMsbD k) < k → w.getLsbD k = false := by
    decide
  unfold bitsetWordClz
  rw [if_neg h]
  exact Ends.pure (hall w h)

/-! ### Searches -/

section Find

variable (self : List Word)

/-- `__hybrid_bitset_test`. -/
def bitsetTest (bitno : ℕ) : Option Bool := do
  some ((← readWord self (bitsetWord bitno)) &&& bitsetMask bitno ≠ 0)

/-- `self[i] != 0`, the test of the whole words of a range. -/
def wordSet (i : ℕ) : Option Bool := do
  some ((← readWord self i) ≠ 0)

/-- `__hybrid_bitset_anyset`. -/
def bitsetAnyset (nBits : ℕ) : Option Bool := do
  match ← firstIndex (wordSet self) 0 (nBits >>> 3) with
  | some _ => some true
  | none =>
    if bitsetBit nBits ≠ 0 then do
      let w ← readWord self (nBits >>> 3)
      some (w &&& bitsetMidMask (bitsetBit nBits) 0 ≠ 0)
    else some false

/-- `__hybrid_bitset_nanyset_r`. -/
def bitsetNanysetR (minbitno maxbitno : ℕ) : Option Bool := do
  let minword := bitsetWord minbitno
  let maxword := bitsetWord maxbitno
  if maxword ≤ minword then
    let w ← readWord self maxword
    some (w &&& (bitsetLoMaskou (bitsetBit minbitno) &&& bitsetLoMaskinP1 (bitsetBit maxbitno)) ≠ 0)
  else
    let w ← readWord self minword
    if w &&& bitsetLoMaskou (bitsetBit minbitno) ≠ 0 then some true
    else
      match ← firstIndex (wordSet self) (minword + 1) (maxword - (minword + 1)) with
      | some _ => some true
      | none => do
        let w ← readWord self maxword
        some (w &&& bitsetLoMaskinP1 (bitsetBit maxbitno) ≠ 0)

/-- `__hybrid_bitset_nanyset`. -/
def bitsetNanyset (startbitno endbitno : ℕ) : Option Bool :=
  if 1 ≤ endbitno then bitsetNanysetR self startbitno (endbitno - 1) else some false

/-- `__hybrid_bitset_fls`. -/
def bitsetFls (nBits : ℕ) : Option ℕ := do
  let endword := bitsetWord ((nBits + 7) % 2 ^ 64)
  let whole (endword : ℕ) : Option ℕ := do
    match ← lastIndex (wordSet self) 0 endword with
    | some i => do some (i <<< 3 + (7 - (← bitsetWordClz (← readWord self i))))
    | none => some nBits
  if bitsetBit nBits ≠ 0 then do
    let endword := endword - 1
    let w := (← readWord self endword) &&& bitsetLoMaskin (bitsetBit nBits)
    if w ≠ 0 then do some (endword <<< 3 + (7 - (← bitsetWordClz w)))
    else whole endword
  else whole endword

/-- `__hybrid_bitset_nffs_r`. -/
def bitsetNffsR (minbitno maxbitno : ℕ) : Option ℕ := do
  let minword := bitsetWord minbitno
  let maxword := bitsetWord maxbitno
  if maxword ≤ minword then
    if minbitno ≤ maxbitno then do
      let w := (← readWord self maxword) &&&
        (bitsetLoMaskou (bitsetBit minbitno) &&& bitsetLoMaskinP1 (bitsetBit maxbitno))
      if w ≠ 0 then do some (minbitno + (← bitsetWordCtz (w >>> bitsetBit minbitno)))
      else some (maxbitno + 1)
    else some (maxbitno + 1)
  else
    let w := (← readWord self minword) &&& bitsetLoMaskou (bitsetBit minbitno)
    if w ≠ 0 then do some (minbitno + (← bitsetWordCtz (w >>> bitsetBit minbitno)))
    else
      match ← firstIndex (wordSet self) (minword + 1) (maxword - (minword + 1)) with
      | some i => do some (i <<< 3 + (← bitsetWordCtz (← readWord self i)))
      | none => do
        let w := (← readWord self maxword) &&& bitsetLoMaskinP1 (bitsetBit maxbitno)
        if w ≠ 0 then do some (maxword <<< 3 + (← bitsetWordCtz w))
        else some (maxbitno + 1)

/-- `__hybrid_bitset_nffs`. -/
def bitsetNffs (startbitno endbitno : ℕ) : Option ℕ :=
  if 1 ≤ endbitno then bitsetNffsR self startbitno (endbitno - 1) else some 0

/-- `__hybrid_bitset_nfls_r`. -/
def bitsetNflsR (minbitno maxbitno : ℕ) : Option ℕ := do
  let minword := bitsetWord minbitno
  let maxword := bitsetWord maxbitno
  if maxword ≤ minword then
    if minbitno ≤ maxbitno then do
      let w := (← readWord self maxword) &&&
        (bitsetLoMaskou (bitsetBit minbitno) &&& bitsetLoMaskinP1 (bitsetBit maxbitno))
      if w ≠ 0 then do some (maxbitno - (← bitsetWordClz (w <<< (7 - bitsetBit maxbitno))))
      else some (maxbitno + 1)
    else some (maxbitno + 1)
  else
    let w := (← readWord self maxword) &&& bitsetLoMaskinP1 (bitsetBit maxbitno)
    if w ≠ 0 then do some (maxbitno - (← bitsetWordClz (w <<< (7 - bitsetBit maxbitno))))
    else
      match ← lastIndex (wordSet self) (minword + 1) (maxword - (minword + 1)) with
      | some i => do some (i <<< 3 + (7 - (← bitsetWordClz (← readWord self i))))
      | none => do
        let w := (← readWord self minword) &&& bitsetLoMaskou (bitsetBit minbitno)
        if w ≠ 0 then do some (minword <<< 3 + (7 - (← bitsetWordClz w)))
        else some (maxbitno + 1)

/-- `__hybrid_bitset_nfls`. -/
def bitsetNfls (startbitno endbitno : ℕ) : Option ℕ :=
  if 1 ≤ endbitno then bitsetNflsR self startbitno (endbitno - 1) else some 0

end Find

/-! ### What the searches find -/

section Searches

variable {self : List Word} {lo hi : ℕ}

theorem wordSet_ends {i : ℕ} (h : i < self.length) : Ends (wordSet self i) fun b => b = true ↔ word self i ≠ 0 := by
  unfold wordSet
  rw [readWord_of_lt h, some_bind]
  exact Ends.pure decide_eq_true_iff

theorem wordSets_ends {a n : ℕ} (h : a + n ≤ self.length) :
    Ends (firstIndex (wordSet self) a n) (FirstIn (fun i => word self i ≠ 0) a (a + n)) :=
  firstIndex_ends fun _ _ hi => wordSet_ends (by omega)

theorem wordSetsDown_ends {a n : ℕ} (h : a + n ≤ self.length) :
    Ends (lastIndex (wordSet self) a n) (LastIn (fun i => word self i ≠ 0) a (a + n)) :=
  lastIndex_ends fun _ _ hi => wordSet_ends (by omega)

theorem bitsetTest_ends {i : ℕ} (h : i < 8 * self.length) : Ends (bitsetTest self i) fun b => b = true ↔ Bits self i := by
  have hmask : ∀ k < 8, IsMask ((1 : Word) <<< k) k (k + 1) := by
    unfold IsMask
    decide
  have hany := (hmask (bitsetBit i) (bitsetBit_lt i)).anyIn_iff (by have := bitsetBit_lt i; omega) self (bitsetWord i)
  unfold bitsetTest
  rw [readWord_of_lt (by rw [bitsetWord_eq]; omega), some_bind]
  refine Ends.pure ?_
  rw [decide_eq_true_iff, bitsetMask, hany, ← add_assoc, ← bitno_eq]
  constructor
  · rintro ⟨j, hlo, hhi, hbit⟩
    rwa [show i = j by omega]
  · intro hbit
    exact ⟨i, le_rfl, lt_add_one i, hbit⟩

theorem bitsetAnyset_ends {n : ℕ} (h : n ≤ 8 * self.length) :
    Ends (bitsetAnyset self n) fun b => b = true ↔ AnyIn (Bits self) 0 n := by
  have hn := bitno_eq n
  have hbit := bitsetBit_lt n
  rw [bitsetWord_eq] at hn
  unfold bitsetAnyset
  rw [show n >>> 3 = n / 8 from Nat.shiftRight_eq_div_pow n 3]
  refine Ends.bind (wordSets_ends (by omega)) fun r hr => ?_
  have hwords := hr.anyIn_iff
  rw [Nat.zero_add, anyIn_words, Nat.mul_zero] at hwords
  rw [anyIn_split (Nat.zero_le (8 * (n / 8))) (by omega), hwords]
  cases r with
  | some i => exact Ends.pure (by simp)
  | none =>
    dsimp only
    by_cases hpart : bitsetBit n ≠ 0
    · have hany := (isMask_midMask 0 (by decide) (bitsetBit n) hbit.le).anyIn_iff (by omega) self (n / 8)
      rw [if_pos hpart, readWord_of_lt (by omega), some_bind]
      refine Ends.pure ?_
      rw [decide_eq_true_iff, hany, Nat.add_zero, Nat.zero_add, ← hn]
      simp
    · rw [if_neg hpart]
      exact Ends.pure (by simp [not_anyIn_of_le (show n ≤ 8 * (n / 8) by omega)])

/-- The masks of the first and of the last word of a range. -/
theorem isMask_between {a b : ℕ} (ha : a < 8) (hb : b < 8) : IsMask (bitsetLoMaskou a &&& bitsetLoMaskinP1 b) a (b + 1) :=
  ((isMask_loMaskou a ha).and (isMask_loMaskinP1 b hb)).congr (Nat.max_eq_left (Nat.zero_le a)) (by omega)

theorem bitsetNanysetR_ends {minbitno maxbitno : ℕ} (hword : bitsetWord minbitno ≤ bitsetWord maxbitno)
    (hlen : maxbitno < 8 * self.length) :
    Ends (bitsetNanysetR self minbitno maxbitno) fun b => b = true ↔ AnyIn (Bits self) minbitno (maxbitno + 1) := by
  have hmin := bitno_eq minbitno
  have hmax := bitno_eq maxbitno
  have hminlt := bitsetBit_lt minbitno
  have hmaxlt := bitsetBit_lt maxbitno
  unfold bitsetNanysetR
  by_cases hone : bitsetWord maxbitno ≤ bitsetWord minbitno
  · have hany := (isMask_between hminlt hmaxlt).anyIn_iff (by omega) self (bitsetWord maxbitno)
    rw [if_pos hone, readWord_of_lt (by omega), some_bind]
    refine Ends.pure ?_
    rw [decide_eq_true_iff, hany, ← add_assoc, ← hmax, le_antisymm hone hword, ← hmin]
  · have hfirst := (isMask_loMaskou _ hminlt).anyIn_iff le_rfl self (bitsetWord minbitno)
    have hlast := (isMask_loMaskinP1 _ hmaxlt).anyIn_iff (by omega) self (bitsetWord maxbitno)
    rw [← hmin] at hfirst
    rw [Nat.add_zero, ← add_assoc, ← hmax] at hlast
    rw [@anyIn_split _ _ (8 * bitsetWord minbitno + 8) _ (by omega) (by omega),
      @anyIn_split _ (8 * bitsetWord minbitno + 8) (8 * bitsetWord maxbitno) _ (by omega) (by omega), ← hfirst,
      ← hlast]
    rw [if_neg hone, readWord_of_lt (by omega), some_bind]
    by_cases hset : word self (bitsetWord minbitno) &&& bitsetLoMaskou (bitsetBit minbitno) ≠ 0
    · rw [if_pos hset]
      exact Ends.pure (iff_of_true rfl (Or.inl hset))
    · rw [if_neg hset]
      refine Ends.bind (wordSets_ends (by omega)) fun r hr => ?_
      have hwords := hr.anyIn_iff
      rw [anyIn_words, show bitsetWord minbitno + 1 + (bitsetWord maxbitno - (bitsetWord minbitno + 1)) =
        bitsetWord maxbitno by omega, Nat.mul_add, Nat.mul_one] at hwords
      rw [hwords]
      cases r with
      | some i => exact Ends.pure (by simp)
      | none =>
        dsimp only
        rw [readWord_of_lt (by omega), some_bind]
        exact Ends.pure (by simp only [decide_eq_true_iff, hset, false_or, Option.isSome_none, Bool.false_eq_true])

/-- A range that is not empty, or an empty one inside the first word. -/
theorem bitsetNanyset_ends (hle : lo ≤ hi) (hne : lo < hi ∨ lo < 8) (hlen : hi ≤ 8 * self.length) :
    Ends (bitsetNanyset self lo hi) fun b => b = true ↔ AnyIn (Bits self) lo hi := by
  unfold bitsetNanyset
  by_cases hpos : 1 ≤ hi
  · rw [if_pos hpos]
    have h : Ends (bitsetNanysetR self lo (hi - 1)) _ :=
      bitsetNanysetR_ends (by rw [bitsetWord_eq, bitsetWord_eq]; omega) (by omega)
    rwa [Nat.sub_add_cancel hpos] at h
  · rw [if_neg hpos]
    exact Ends.pure (by simp [not_anyIn_of_le (q := Bits self) (show hi ≤ lo by omega)])

/-- A search that reports a miss by a value past the end of the range. -/
def found (hi r : ℕ) : Option ℕ := if r < hi then some r else none

theorem found_of_lt {r : ℕ} (h : r < hi) : found hi r = some r := if_pos h

theorem found_of_le {r : ℕ} (h : hi ≤ r) : found hi r = none := if_neg (not_lt.mpr h)

/-- The first set bit of the partial first word, found by a shifted copy of it. -/
theorem ctz_shifted {mask : Word} {a b : ℕ} (hmask : IsMask mask a b) (ha : a < 8) {i : ℕ}
    (hset : word self i &&& mask ≠ 0) : Ends (bitsetWordCtz ((word self i &&& mask) >>> a)) fun c =>
      FirstIn (Bits self) (8 * i + a) (8 * i + b) (some (8 * i + a + c)) := by
  have hshift : (word self i &&& mask) >>> a ≠ 0 := by
    obtain ⟨k, hk, hbit⟩ := word_ne_zero_iff.mp hset
    obtain ⟨-, hlo, -⟩ := (hmask.bits_iff self i hk).mp hbit
    refine word_ne_zero_iff.mpr ⟨k - a, by omega, ?_⟩
    rwa [BitVec.getLsbD_ushiftRight, Nat.add_sub_cancel' hlo]
  refine (bitsetWordCtz_ends hshift).mono ?_
  rintro c ⟨hc, hbit, hbelow⟩
  rw [BitVec.getLsbD_ushiftRight] at hbit
  have hlt : a + c < 8 := BitVec.lt_of_getLsbD hbit
  rw [add_assoc]
  refine hmask.firstIn self i hlt hbit fun k hk => ?_
  by_cases hka : k < a
  · by_contra hne
    obtain ⟨-, hlo, -⟩ := (hmask.bits_iff self i (k := k) (by omega)).mp (Bool.eq_true_of_not_eq_false hne)
    omega
  · have h := hbelow (k - a) (by omega)
    rwa [BitVec.getLsbD_ushiftRight, Nat.add_sub_cancel' (by omega)] at h

/-- The last set bit of the partial last word, found by a shifted copy of it. -/
theorem clz_shifted {mask : Word} {a b : ℕ} (hmask : IsMask mask a (b + 1)) (hb : b < 8) {i : ℕ}
    (hset : word self i &&& mask ≠ 0) : Ends (bitsetWordClz ((word self i &&& mask) <<< (7 - b))) fun c =>
      c ≤ b ∧ LastIn (Bits self) (8 * i + a) (8 * i + b + 1) (some (8 * i + (b - c))) := by
  have hshift : (word self i &&& mask) <<< (7 - b) ≠ 0 := by
    obtain ⟨k, hk, hbit⟩ := word_ne_zero_iff.mp hset
    obtain ⟨-, -, hhi⟩ := (hmask.bits_iff self i hk).mp hbit
    refine word_ne_zero_iff.mpr ⟨k + (7 - b), by omega, ?_⟩
    rw [BitVec.getLsbD_shiftLeft, Nat.add_sub_cancel, hbit]
    simp
    omega
  refine (bitsetWordClz_ends hshift).mono ?_
  rintro c ⟨hc, hbit, habove⟩
  rw [BitVec.getLsbD_shiftLeft] at hbit
  simp only [Bool.and_eq_true, decide_eq_true_eq, Bool.not_eq_true', decide_eq_false_iff_not, not_lt] at hbit
  obtain ⟨⟨-, hle⟩, hbit⟩ := hbit
  rw [show 7 - c - (7 - b) = b - c by omega] at hbit
  refine ⟨by omega, (hmask.lastIn (by omega) self i (by omega) hbit fun k hk hck => ?_)⟩
  by_cases hkb : b < k
  · by_contra hne
    obtain ⟨-, -, hhi⟩ := (hmask.bits_iff self i hk).mp (Bool.eq_true_of_not_eq_false hne)
    omega
  · have h := habove (k + (7 - b)) (by omega) (by omega)
    rw [BitVec.getLsbD_shiftLeft, Nat.add_sub_cancel] at h
    have hlt : k + (7 - b) < 8 := by omega
    simpa [hlt] using h

/-- A partial word of a search has a set bit, or none in its range. -/
theorem maskedWord_ends {mask : Word} {a b i : ℕ} {x y : Option ℕ} {P : ℕ → Prop} (hmask : IsMask mask a b) (hb : b ≤ 8)
    (hx : word self i &&& mask ≠ 0 → Ends x P) (hy : (∀ j, 8 * i + a ≤ j → j < 8 * i + b → ¬Bits self j) → Ends y P) :
    Ends (if word self i &&& mask ≠ 0 then x else y) P := by
  by_cases hset : word self i &&& mask ≠ 0
  · rw [if_pos hset]
    exact hx hset
  · rw [if_neg hset]
    exact hy (not_anyIn_iff.mp (mt (hmask.anyIn_iff hb self i).mpr hset))

/-- The first set bit of a whole word. -/
theorem ctz_word {a b i : ℕ} (h : FirstIn (fun i => word self i ≠ 0) a b (some i)) :
    Ends (bitsetWordCtz (word self i)) fun c => FirstIn (Bits self) (8 * a) (8 * b) (some (8 * i + c)) := by
  refine (bitsetWordCtz_ends h.2.2.1).mono ?_
  rintro c ⟨hc, hbit, hbelow⟩
  exact firstIn_of_word h hc hbit hbelow

/-- The last set bit of a whole word. -/
theorem clz_word {a b i : ℕ} (h : LastIn (fun i => word self i ≠ 0) a b (some i)) :
    Ends (bitsetWordClz (word self i)) fun c => LastIn (Bits self) (8 * a) (8 * b) (some (8 * i + (7 - c))) := by
  refine (bitsetWordClz_ends h.2.2.1).mono ?_
  rintro c ⟨hc, hbit, habove⟩
  exact lastIn_of_word h (by omega) hbit habove

/-- A hit is inside the range. -/
theorem firstIn_found {q : ℕ → Prop} {r : ℕ} (h : FirstIn q lo hi (some r)) : FirstIn q lo hi (found hi r) := by
  rwa [found_of_lt h.2.1]

theorem lastIn_found {q : ℕ → Prop} {r : ℕ} (h : LastIn q lo hi (some r)) : LastIn q lo hi (found hi r) := by
  rwa [found_of_lt h.2.1]

theorem bitsetNffsR_ends {minbitno maxbitno : ℕ} (hle : minbitno ≤ maxbitno + 1) (hlen : maxbitno < 8 * self.length) :
    Ends (bitsetNffsR self minbitno maxbitno) fun r =>
      FirstIn (Bits self) minbitno (maxbitno + 1) (found (maxbitno + 1) r) := by
  have hmin := bitno_eq minbitno
  have hmax := bitno_eq maxbitno
  have hminlt := bitsetBit_lt minbitno
  have hmaxlt := bitsetBit_lt maxbitno
  have hmiss : (∀ j, minbitno ≤ j → j < maxbitno + 1 → ¬Bits self j) →
      FirstIn (Bits self) minbitno (maxbitno + 1) (found (maxbitno + 1) (maxbitno + 1)) := by
    intro h
    rwa [found_of_le le_rfl]
  unfold bitsetNffsR
  by_cases hone : bitsetWord maxbitno ≤ bitsetWord minbitno
  · rw [if_pos hone]
    by_cases hrange : minbitno ≤ maxbitno
    · have hword : bitsetWord minbitno = bitsetWord maxbitno := by
        rw [bitsetWord_eq, bitsetWord_eq] at *
        omega
      have hmask := isMask_between hminlt hmaxlt
      rw [if_pos hrange, readWord_of_lt (by omega), some_bind]
      refine maskedWord_ends hmask (by omega) (fun hset => ?_) fun hno => ?_
      · refine Ends.bind (ctz_shifted hmask hminlt hset) fun c hc => Ends.pure (firstIn_found ?_)
        rwa [← add_assoc, ← hmax, ← hword, ← hmin] at hc
      · rw [← add_assoc, ← hmax, ← hword, ← hmin] at hno
        exact Ends.pure (hmiss hno)
    · rw [if_neg hrange]
      exact Ends.pure (hmiss fun j hlo hhi => by omega)
  · have hfirst := isMask_loMaskou _ hminlt
    have hlast := isMask_loMaskinP1 _ hmaxlt
    have hrest : bitsetWord minbitno + 1 + (bitsetWord maxbitno - (bitsetWord minbitno + 1)) = bitsetWord maxbitno := by
      omega
    rw [if_neg hone, readWord_of_lt (by omega), some_bind]
    refine maskedWord_ends hfirst le_rfl (fun hset => ?_) fun hclear => ?_
    · refine Ends.bind (ctz_shifted hfirst hminlt hset) fun c hc => Ends.pure (firstIn_found ?_)
      rw [← hmin] at hc
      exact hc.widen (by omega)
    · have hno : FirstIn (Bits self) minbitno (8 * (bitsetWord minbitno + 1)) none := by
        rwa [← hmin] at hclear
      refine Ends.bind (wordSets_ends (by omega)) fun r hr => ?_
      rw [hrest] at hr
      cases r with
      | some i =>
        dsimp only
        rw [readWord_of_lt (by have := hr.2.1; omega), some_bind]
        refine Ends.bind (ctz_word hr) fun c hc => Ends.pure (firstIn_found ?_)
        rw [Nat.shiftLeft_eq, Nat.mul_comm]
        exact hno.append (hc.widen (by omega)) (by omega)
      | none =>
        have hno' : FirstIn (Bits self) minbitno (8 * bitsetWord maxbitno) none :=
          hno.append (noBits_of_words hr) (by omega)
        dsimp only
        rw [readWord_of_lt (by omega), some_bind]
        refine maskedWord_ends hlast (by omega) (fun hset => ?_) fun hclear => ?_
        · have hshift := ctz_shifted hlast (by decide) hset
          rw [BitVec.ushiftRight_zero] at hshift
          refine Ends.bind hshift fun c hc => Ends.pure (firstIn_found ?_)
          rw [Nat.shiftLeft_eq, Nat.mul_comm]
          rw [Nat.add_zero, ← add_assoc, ← hmax] at hc
          exact hno'.append hc (by omega)
        · rw [Nat.add_zero, ← add_assoc, ← hmax] at hclear
          exact Ends.pure (hmiss (hno'.append (r := none) hclear (by omega)))

/-- The first set bit of a range. -/
theorem bitsetNffs_ends (hle : lo ≤ hi) (hlen : hi ≤ 8 * self.length) :
    Ends (bitsetNffs self lo hi) fun r => FirstIn (Bits self) lo hi (found hi r) := by
  unfold bitsetNffs
  by_cases hpos : 1 ≤ hi
  · rw [if_pos hpos]
    have h : Ends (bitsetNffsR self lo (hi - 1)) _ := bitsetNffsR_ends (by omega) (by omega)
    rwa [Nat.sub_add_cancel hpos] at h
  · rw [if_neg hpos]
    refine Ends.pure ?_
    rw [found_of_le (by omega)]
    exact fun j hlo hhi => by omega

theorem bitsetNflsR_ends {minbitno maxbitno : ℕ} (hle : minbitno ≤ maxbitno + 1) (hlen : maxbitno < 8 * self.length) :
    Ends (bitsetNflsR self minbitno maxbitno) fun r =>
      LastIn (Bits self) minbitno (maxbitno + 1) (found (maxbitno + 1) r) := by
  have hmin := bitno_eq minbitno
  have hmax := bitno_eq maxbitno
  have hminlt := bitsetBit_lt minbitno
  have hmaxlt := bitsetBit_lt maxbitno
  have hmiss : (∀ j, minbitno ≤ j → j < maxbitno + 1 → ¬Bits self j) →
      LastIn (Bits self) minbitno (maxbitno + 1) (found (maxbitno + 1) (maxbitno + 1)) := by
    intro h
    rwa [found_of_le le_rfl]
  unfold bitsetNflsR
  by_cases hone : bitsetWord maxbitno ≤ bitsetWord minbitno
  · rw [if_pos hone]
    by_cases hrange : minbitno ≤ maxbitno
    · have hword : bitsetWord minbitno = bitsetWord maxbitno := by
        rw [bitsetWord_eq, bitsetWord_eq] at *
        omega
      have hmask := isMask_between hminlt hmaxlt
      rw [if_pos hrange, readWord_of_lt (by omega), some_bind]
      refine maskedWord_ends hmask (by omega) (fun hset => ?_) fun hno => ?_
      · refine Ends.bind (clz_shifted hmask hmaxlt hset) ?_
        rintro c ⟨hc, hlast⟩
        rw [← hmax, ← hword, ← hmin, hword, show 8 * bitsetWord maxbitno + (bitsetBit maxbitno - c) = maxbitno - c by
          omega] at hlast
        exact Ends.pure (lastIn_found hlast)
      · rw [← add_assoc, ← hmax, ← hword, ← hmin] at hno
        exact Ends.pure (hmiss hno)
    · rw [if_neg hrange]
      exact Ends.pure (hmiss fun j hlo hhi => by omega)
  · have hfirst := isMask_loMaskou _ hminlt
    have hlast := isMask_loMaskinP1 _ hmaxlt
    have hrest : bitsetWord minbitno + 1 + (bitsetWord maxbitno - (bitsetWord minbitno + 1)) = bitsetWord maxbitno := by
      omega
    rw [if_neg hone, readWord_of_lt (by omega), some_bind]
    refine maskedWord_ends hlast (by omega) (fun hset => ?_) fun hclear => ?_
    · refine Ends.bind (clz_shifted hlast hmaxlt hset) ?_
      rintro c ⟨hc, hin⟩
      rw [← hmax, Nat.add_zero, show 8 * bitsetWord maxbitno + (bitsetBit maxbitno - c) = maxbitno - c by omega] at hin
      exact Ends.pure (lastIn_found (hin.widen (by omega)))
    · have hno : LastIn (Bits self) (8 * bitsetWord maxbitno) (maxbitno + 1) none := by
        rwa [← add_assoc, ← hmax, Nat.add_zero] at hclear
      refine Ends.bind (wordSetsDown_ends (by omega)) fun r hr => ?_
      rw [hrest] at hr
      cases r with
      | some i =>
        dsimp only
        rw [readWord_of_lt (by have := hr.2.1; omega), some_bind]
        refine Ends.bind (clz_word hr) fun c hc => Ends.pure (lastIn_found ?_)
        rw [Nat.shiftLeft_eq, Nat.mul_comm]
        exact hno.append (hc.widen (by omega)) (by omega)
      | none =>
        have hno' : LastIn (Bits self) (8 * bitsetWord minbitno + 8) (maxbitno + 1) none :=
          hno.append (noBits_of_words hr) (by omega)
        dsimp only
        rw [readWord_of_lt (by omega), some_bind]
        refine maskedWord_ends hfirst le_rfl (fun hset => ?_) fun hclear => ?_
        · have hshift := clz_shifted (b := 7) hfirst (by decide) hset
          rw [Nat.sub_self, BitVec.shiftLeft_zero] at hshift
          refine Ends.bind hshift ?_
          rintro c ⟨hc, hin⟩
          rw [← hmin] at hin
          rw [Nat.shiftLeft_eq, Nat.mul_comm]
          exact Ends.pure (lastIn_found (hno'.append hin (by omega)))
        · rw [← hmin] at hclear
          exact Ends.pure (hmiss (hno'.append (r := none) hclear (by omega)))

/-- The last set bit of a range. -/
theorem bitsetNfls_ends (hle : lo ≤ hi) (hlen : hi ≤ 8 * self.length) :
    Ends (bitsetNfls self lo hi) fun r => LastIn (Bits self) lo hi (found hi r) := by
  unfold bitsetNfls
  by_cases hpos : 1 ≤ hi
  · rw [if_pos hpos]
    have h : Ends (bitsetNflsR self lo (hi - 1)) _ := bitsetNflsR_ends (by omega) (by omega)
    rwa [Nat.sub_add_cancel hpos] at h
  · rw [if_neg hpos]
    refine Ends.pure ?_
    rw [found_of_le (by omega)]
    exact fun j hlo hhi => by omega

/-- The whole words of `__hybrid_bitset_fls`. -/
theorem flsWords_ends {endword n : ℕ} (hlen : endword ≤ self.length) (hend : 8 * endword ≤ n)
    (hno : LastIn (Bits self) (8 * endword) n none) :
    Ends (do
      match ← lastIndex (wordSet self) 0 endword with
      | some i => do some (i <<< 3 + (7 - (← bitsetWordClz (← readWord self i))))
      | none => some n) fun r => LastIn (Bits self) 0 n (found n r) := by
  refine Ends.bind (wordSetsDown_ends (by omega)) fun r hr => ?_
  rw [Nat.zero_add] at hr
  cases r with
  | some i =>
    dsimp only
    rw [readWord_of_lt (by have := hr.2.1; omega), some_bind]
    refine Ends.bind (clz_word hr) fun c hc => Ends.pure ?_
    have hin := hno.append hc hend
    rw [Nat.shiftLeft_eq, Nat.mul_comm, found_of_lt hin.2.1]
    exact hin
  | none =>
    refine Ends.pure ?_
    rw [found_of_le le_rfl]
    exact hno.append (r := none) (noBits_of_words hr) hend

/-- The last set bit. -/
theorem bitsetFls_ends {n : ℕ} (hlen : n ≤ 8 * self.length) (hn : n + 7 < 2 ^ 64) :
    Ends (bitsetFls self n) fun r => LastIn (Bits self) 0 n (found n r) := by
  have hbit := bitsetBit_lt n
  have hsplit := bitno_eq n
  rw [bitsetWord_eq] at hsplit
  unfold bitsetFls
  rw [Nat.mod_eq_of_lt hn, bitsetWord_eq]
  dsimp only
  by_cases hpart : bitsetBit n ≠ 0
  · have hmask := isMask_loMaskin _ hbit
    rw [if_pos hpart, show (n + 7) / 8 - 1 = n / 8 by omega, readWord_of_lt (by omega), some_bind]
    refine maskedWord_ends hmask hbit.le (fun hset => ?_) fun hno => ?_
    · refine Ends.bind (bitsetWordClz_ends hset) ?_
      rintro c ⟨hc, hbitc, habove⟩
      have hin := hmask.lastIn hbit.le self (n / 8) (show 7 - c < 8 by omega) hbitc habove
      rw [← hsplit, Nat.add_zero] at hin
      refine Ends.pure ?_
      rw [Nat.shiftLeft_eq, Nat.mul_comm, found_of_lt hin.2.1]
      exact hin.widen (Nat.zero_le _)
    · rw [← hsplit, Nat.add_zero] at hno
      exact flsWords_ends (by omega) (by omega) hno
  · rw [if_neg hpart, show (n + 7) / 8 = n / 8 by omega]
    exact flsWords_ends (by omega) (by omega) fun j hlo hhi => by omega

end Searches

/-! ### Comparisons -/

/-- How a comparison looks at two words and at two bits. -/
structure CmpOp where
  /-- The words pass the comparison. -/
  wordOk : Word → Word → Bool
  /-- The bits pass the comparison. -/
  bitOk : Bool → Bool → Bool
  word_iff : ∀ v w, wordOk v w = true ↔ ∀ k < 8, bitOk (v.getLsbD k) (w.getLsbD k) = true
  zero : bitOk false false = true

/-- `__hybrid_bitset_ncmpeq`. -/
def bitsetNcmpeqOp : CmpOp where
  wordOk v w := v = w
  bitOk a b := a = b
  word_iff v w := by
    rw [decide_eq_true_iff]
    constructor
    · rintro rfl k -
      exact decide_eq_true rfl
    · intro h
      exact word_ext fun k hk => of_decide_eq_true (h k hk)
  zero := rfl

/-- `__hybrid_bitset_ncmple`. -/
def bitsetNcmpleOp : CmpOp where
  wordOk v w := v &&& w = v
  bitOk a b := !(a && !b)
  word_iff v w := by
    rw [decide_eq_true_iff]
    constructor
    · intro h k _
      have hbit := congrArg (fun u : Word => u.getLsbD k) h
      simp only [BitVec.getLsbD_and] at hbit
      revert hbit
      cases v.getLsbD k <;> cases w.getLsbD k <;> decide
    · intro h
      apply word_ext
      intro k hk
      have hbit := h k hk
      rw [BitVec.getLsbD_and]
      revert hbit
      cases v.getLsbD k <;> cases w.getLsbD k <;> decide
  zero := rfl

/-- A pointer to the word of a bit, and the bit inside that word. -/
def bitsetAdvance (self : List Word) (startbitno : ℕ) : List Word × ℕ :=
  if 7 < startbitno then (self.drop (startbitno >>> 3), startbitno &&& 7) else (self, startbitno)

/-- The aligned part of a comparison: whole words, and then a partial one. -/
def bitsetNcmpWords (op : CmpOp) (lhs rhs : List Word) (nBits : ℕ) : Option Bool := do
  let wholeWords := nBits >>> 3
  match ← firstIndex (fun i => do some (!op.wordOk (← readWord lhs i) (← readWord rhs i))) 0 wholeWords with
  | some _ => some false
  | none =>
    if bitsetBit nBits ≠ 0 then do
      let mask := bitsetLoMaskin (bitsetBit nBits)
      some (op.wordOk ((← readWord lhs wholeWords) &&& mask) ((← readWord rhs wholeWords) &&& mask))
    else some true

/-- `__hybrid_bitset_ncmpeq` and `__hybrid_bitset_ncmple`, which differ in the comparison of words and bits. -/
def bitsetNcmp (op : CmpOp) (lhs : List Word) (lhsStartbitno : ℕ) (rhs : List Word) (rhsStartbitno nBits : ℕ) :
    Option Bool := do
  let (lhs, lhsStartbitno) := bitsetAdvance lhs lhsStartbitno
  let (rhs, rhsStartbitno) := bitsetAdvance rhs rhsStartbitno
  assert (lhsStartbitno ≤ 7)
  assert (rhsStartbitno ≤ 7)
  if rhsStartbitno = lhsStartbitno then
    if lhsStartbitno ≠ 0 then do
      let copy := 8 - lhsStartbitno
      let lval ← readWord lhs 0
      let rval ← readWord rhs 0
      if nBits ≤ copy then
        -- only within the first word
        let mask := bitsetMidMask nBits lhsStartbitno
        some (op.wordOk (lval &&& mask) (rval &&& mask))
      else
        let mask := bitsetHiMaskin copy
        if op.wordOk (lval &&& mask) (rval &&& mask) then
          bitsetNcmpWords op (lhs.drop 1) (rhs.drop 1) (nBits - copy)
        else some false
    else bitsetNcmpWords op lhs rhs nBits
  else do
    -- not aligned: one bit at a time
    let r ← firstIndex (fun i => do
      some (!op.bitOk (← bitsetTest lhs (lhsStartbitno + i)) (← bitsetTest rhs (rhsStartbitno + i)))) 0 nBits
    some r.isNone

section Operators

variable (lhs : List Word) (lhsStartbitno : ℕ) (rhs : List Word) (rhsStartbitno nBits : ℕ)

/-- `__hybrid_bitset_ncmpeq`. -/
def bitsetNcmpeq : Option Bool :=
  bitsetNcmp bitsetNcmpeqOp lhs lhsStartbitno rhs rhsStartbitno nBits

/-- `__hybrid_bitset_ncmple`. -/
def bitsetNcmple : Option Bool :=
  bitsetNcmp bitsetNcmpleOp lhs lhsStartbitno rhs rhsStartbitno nBits

/-- `__hybrid_bitset_ncmpge`. -/
def bitsetNcmpge : Option Bool :=
  bitsetNcmple rhs rhsStartbitno lhs lhsStartbitno nBits

/-- `__hybrid_bitset_ncmplo`. -/
def bitsetNcmplo : Option Bool :=
  do some (!(← bitsetNcmpge lhs lhsStartbitno rhs rhsStartbitno nBits))

/-- `__hybrid_bitset_ncmpgr`. -/
def bitsetNcmpgr : Option Bool :=
  do some (!(← bitsetNcmple lhs lhsStartbitno rhs rhsStartbitno nBits))

end Operators

section Comparisons

variable {op : CmpOp} {lhs rhs : List Word}

/-- The bits `ls, …, ls + n - 1` and `rs, …, rs + n - 1` pass the comparison. -/
def CmpBits (op : CmpOp) (lhs : List Word) (ls : ℕ) (rhs : List Word) (rs n : ℕ) : Prop :=
  ∀ i < n, op.bitOk (bitAt lhs (ls + i)) (bitAt rhs (rs + i)) = true

theorem CmpBits.append {ls rs m n : ℕ} : CmpBits op lhs ls rhs rs (m + n) ↔
    CmpBits op lhs ls rhs rs m ∧ CmpBits op lhs (ls + m) rhs (rs + m) n := by
  constructor
  · intro h
    refine ⟨fun i hi => h i (by omega), fun i hi => ?_⟩
    rw [add_assoc, add_assoc]
    exact h (m + i) (by omega)
  · rintro ⟨hlo, hhi⟩ i hi
    by_cases him : i < m
    · exact hlo i him
    · have h := hhi (i - m) (by omega)
      rwa [show ls + m + (i - m) = ls + i by omega, show rs + m + (i - m) = rs + i by omega] at h

theorem cmpBits_drop {k ls rs n : ℕ} : CmpBits op (lhs.drop k) ls (rhs.drop k) rs n ↔
    CmpBits op lhs (8 * k + ls) rhs (8 * k + rs) n := by
  unfold CmpBits
  simp only [bitAt_drop, add_assoc]

/-- Masked words compare as the bits of the mask. -/
theorem wordOk_and {mask : Word} {a b : ℕ} (h : IsMask mask a b) (hab : a ≤ b) (hb : b ≤ 8) (i j : ℕ) :
    op.wordOk (word lhs i &&& mask) (word rhs j &&& mask) = true ↔
      CmpBits op lhs (8 * i + a) rhs (8 * j + a) (b - a) := by
  rw [op.word_iff]
  constructor
  · intro hall k hk
    have hbit := hall (a + k) (by omega)
    rw [BitVec.getLsbD_and, BitVec.getLsbD_and, h (a + k) (by omega),
      decide_eq_true (show a ≤ a + k ∧ a + k < b by omega), Bool.and_true, Bool.and_true] at hbit
    rwa [add_assoc, add_assoc, bitAt_word _ _ (by omega), bitAt_word _ _ (by omega)]
  · intro hbits k hk
    rw [BitVec.getLsbD_and, BitVec.getLsbD_and, h k hk]
    by_cases hin : a ≤ k ∧ k < b
    · have hbit := hbits (k - a) (by omega)
      rw [add_assoc, add_assoc, Nat.add_sub_cancel' hin.1, bitAt_word _ _ hk, bitAt_word _ _ hk] at hbit
      rwa [decide_eq_true hin, Bool.and_true, Bool.and_true]
    · rw [decide_eq_false hin, Bool.and_false, Bool.and_false]
      exact op.zero

/-- Whole words compare as their bits. -/
theorem wordOk_full (i j : ℕ) : op.wordOk (word lhs i) (word rhs j) = true ↔ CmpBits op lhs (8 * i) rhs (8 * j) 8 := by
  have h := @wordOk_and op lhs rhs _ _ _ isMask_full (Nat.zero_le 8) le_rfl i j
  rwa [BitVec.and_allOnes, BitVec.and_allOnes] at h

theorem cmpBits_words {n : ℕ} : (∀ i < n, CmpBits op lhs (8 * i) rhs (8 * i) 8) ↔ CmpBits op lhs 0 rhs 0 (8 * n) := by
  induction n with
  | zero => exact ⟨fun _ i hi => absurd hi (by omega), fun _ i hi => absurd hi (by omega)⟩
  | succ n ih =>
    rw [Nat.mul_succ, CmpBits.append, ← ih, Nat.zero_add]
    constructor
    · intro h
      exact ⟨fun i hi => h i (by omega), h n (Nat.lt_succ_self n)⟩
    · rintro ⟨hall, hlast⟩ i hi
      rcases Nat.lt_succ_iff_lt_or_eq.mp hi with hi | rfl
      · exact hall i hi
      · exact hlast

theorem bitsetNcmpWords_ends {n : ℕ} (hl : n ≤ 8 * lhs.length) (hr : n ≤ 8 * rhs.length) :
    Ends (bitsetNcmpWords op lhs rhs n) fun b => b = true ↔ CmpBits op lhs 0 rhs 0 n := by
  have hbit := bitsetBit_lt n
  have hsplit := bitno_eq n
  rw [bitsetWord_eq] at hsplit
  have hstep : ∀ i, 0 ≤ i → i < 0 + n / 8 →
      Ends (do some (!op.wordOk (← readWord lhs i) (← readWord rhs i))) fun b =>
        b = true ↔ ¬CmpBits op lhs (8 * i) rhs (8 * i) 8 := by
    intro i _ hi
    rw [readWord_of_lt (by omega), some_bind, readWord_of_lt (by omega), some_bind]
    refine Ends.pure ?_
    rw [← wordOk_full, Bool.not_eq_true', Bool.not_eq_true]
  unfold bitsetNcmpWords
  rw [show n >>> 3 = n / 8 from Nat.shiftRight_eq_div_pow n 3]
  dsimp only
  refine Ends.bind (firstIndex_ends hstep) fun r hfirst => ?_
  rw [Nat.zero_add] at hfirst
  cases r with
  | some i =>
    obtain ⟨-, hi, hne, -⟩ := hfirst
    refine Ends.pure (iff_of_false (by decide) fun h => hne ?_)
    have hwhole : CmpBits op lhs 0 rhs 0 (8 * (n / 8)) := fun j hj => h j (by omega)
    exact cmpBits_words.mpr hwhole i hi
  | none =>
    have hwhole : CmpBits op lhs 0 rhs 0 (8 * (n / 8)) :=
      cmpBits_words.mp fun i hi => not_not.mp (hfirst i (Nat.zero_le i) hi)
    have happ := @CmpBits.append op lhs rhs 0 0 (8 * (n / 8)) (bitsetBit n)
    rw [← hsplit, Nat.zero_add] at happ
    dsimp only
    by_cases hpart : bitsetBit n ≠ 0
    · have hmask := @wordOk_and op lhs rhs _ _ _ (isMask_loMaskin _ hbit) (Nat.zero_le _) hbit.le
        (n / 8) (n / 8)
      rw [if_pos hpart, readWord_of_lt (by omega), some_bind, readWord_of_lt (by omega), some_bind]
      refine Ends.pure ?_
      rw [hmask, happ]
      exact ⟨fun h => ⟨hwhole, h⟩, fun h => h.2⟩
    · rw [if_neg hpart]
      refine Ends.pure (iff_of_true rfl ?_)
      rw [happ]
      exact ⟨hwhole, fun j hj => by omega⟩

theorem bitsetAdvance_eq (self : List Word) (start : ℕ) :
    bitsetAdvance self start = (self.drop (start / 8), start % 8) := by
  unfold bitsetAdvance
  by_cases h : 7 < start
  · rw [if_pos h, Nat.shiftRight_eq_div_pow, show start &&& 7 = start % 8 from Nat.and_two_pow_sub_one_eq_mod start 3]
  · rw [if_neg h, Nat.div_eq_of_lt (by omega), Nat.mod_eq_of_lt (by omega), List.drop_zero]

/-- Comparing bit ranges, whatever their alignments. -/
theorem bitsetNcmp_ends {ls rs n : ℕ} (hl : ls + n ≤ 8 * lhs.length) (hr : rs + n ≤ 8 * rhs.length) :
    Ends (bitsetNcmp op lhs ls rhs rs n) fun b => b = true ↔ CmpBits op lhs ls rhs rs n := by
  -- the pointers advanced to the words of the first bits
  obtain ⟨l, hldef⟩ : ∃ l, l = lhs.drop (ls / 8) := ⟨_, rfl⟩
  obtain ⟨r, hrdef⟩ : ∃ r, r = rhs.drop (rs / 8) := ⟨_, rfl⟩
  have hllen : ls % 8 + n ≤ 8 * l.length := by
    rw [hldef, List.length_drop]
    omega
  have hrlen : rs % 8 + n ≤ 8 * r.length := by
    rw [hrdef, List.length_drop]
    omega
  have hbits : CmpBits op lhs ls rhs rs n ↔ CmpBits op l (ls % 8) r (rs % 8) n := by
    unfold CmpBits
    rw [hldef, hrdef]
    simp only [bitAt_drop, ← add_assoc, Nat.div_add_mod]
  have hlne : ls % 8 ≠ 0 → 0 < l.length := by
    intro h
    rw [hldef, List.length_drop]
    omega
  have hrne : rs % 8 ≠ 0 → 0 < r.length := by
    intro h
    rw [hrdef, List.length_drop]
    omega
  obtain ⟨a, ha⟩ : ∃ a, a = ls % 8 := ⟨_, rfl⟩
  obtain ⟨b, hb⟩ : ∃ b, b = rs % 8 := ⟨_, rfl⟩
  have ha8 : a < 8 := by omega
  have hb8 : b < 8 := by omega
  unfold bitsetNcmp
  rw [bitsetAdvance_eq, bitsetAdvance_eq, ← hldef, ← hrdef, ← ha, ← hb]
  rw [← ha] at hllen hbits hlne
  rw [← hb] at hrlen hbits hrne
  simp only [hbits]
  rw [assert_of (by omega), some_bind, assert_of (by omega), some_bind]
  by_cases halign : b = a
  · subst halign
    rw [if_pos rfl]
    by_cases hpart : b ≠ 0
    · rw [if_pos hpart, readWord_of_lt (hlne hpart), some_bind, readWord_of_lt (hrne hpart), some_bind]
      by_cases hone : n ≤ 8 - b
      · have hmask := @wordOk_and op l r _ _ _ (isMask_midMask b hb8 n hone) (Nat.le_add_right b n)
          (by omega) 0 0
        rw [if_pos hone]
        refine Ends.pure ?_
        rwa [Nat.mul_zero, Nat.zero_add, Nat.add_sub_cancel_left] at hmask
      · have hmask := @wordOk_and op l r _ _ _
          ((isMask_hiMaskin (8 - b) (by omega)).congr (by omega : 8 - (8 - b) = b) rfl) hb8.le le_rfl 0 0
        rw [Nat.mul_zero, Nat.zero_add] at hmask
        have happ := @CmpBits.append op l r b b (8 - b) (n - (8 - b))
        rw [Nat.add_sub_cancel' (by omega), Nat.add_sub_cancel' (by omega)] at happ
        rw [if_neg hone]
        by_cases hok : op.wordOk (word l 0 &&& bitsetHiMaskin (8 - b)) (word r 0 &&& bitsetHiMaskin (8 - b)) = true
        · rw [if_pos hok]
          refine (bitsetNcmpWords_ends (by rw [List.length_drop]; omega) (by rw [List.length_drop]; omega)).mono ?_
          intro res hres
          rw [hres, cmpBits_drop, happ]
          exact ⟨fun h => ⟨hmask.mp hok, h⟩, fun h => h.2⟩
        · rw [if_neg hok]
          refine Ends.pure (iff_of_false (by decide) fun h => hok ?_)
          exact hmask.mpr (happ.mp h).1
    · rw [if_neg hpart, not_not.mp hpart]
      exact bitsetNcmpWords_ends (by omega) (by omega)
  · rw [if_neg halign]
    have hstep : ∀ i, 0 ≤ i → i < 0 + n →
        Ends (do some (!op.bitOk (← bitsetTest l (a + i)) (← bitsetTest r (b + i)))) fun res =>
          res = true ↔ ¬op.bitOk (bitAt l (a + i)) (bitAt r (b + i)) = true := by
      intro i _ hi
      refine Ends.bind (bitsetTest_ends (by omega)) fun x hx => ?_
      refine Ends.bind (bitsetTest_ends (by omega)) fun y hy => Ends.pure ?_
      rw [Bool.eq_iff_iff.mpr hx, Bool.eq_iff_iff.mpr hy, Bool.not_eq_true', Bool.not_eq_true]
    refine Ends.bind (firstIndex_ends hstep) fun res hres => Ends.pure ?_
    rw [Nat.zero_add] at hres
    cases res with
    | some i => exact iff_of_false (by simp) fun h => hres.2.2.1 (h i hres.2.1)
    | none => exact iff_of_true rfl fun i hi => not_not.mp (hres i (Nat.zero_le i) hi)

/-- Equality of bit ranges. -/
theorem bitsetNcmpeq_ends {ls rs n : ℕ} (hl : ls + n ≤ 8 * lhs.length) (hr : rs + n ≤ 8 * rhs.length) :
    Ends (bitsetNcmpeq lhs ls rhs rs n) fun b => b = true ↔ ∀ i < n, (Bits lhs (ls + i) ↔ Bits rhs (rs + i)) := by
  refine (bitsetNcmp_ends hl hr).mono fun b hb => ?_
  rw [hb]
  unfold CmpBits Bits
  refine forall_congr' fun i => imp_congr_right fun _ => ?_
  rw [← Bool.eq_iff_iff]
  exact decide_eq_true_iff

/-- Inclusion of bit ranges. -/
theorem bitsetNcmple_ends {ls rs n : ℕ} (hl : ls + n ≤ 8 * lhs.length) (hr : rs + n ≤ 8 * rhs.length) :
    Ends (bitsetNcmple lhs ls rhs rs n) fun b => b = true ↔ ∀ i < n, Bits lhs (ls + i) → Bits rhs (rs + i) := by
  refine (bitsetNcmp_ends hl hr).mono fun b hb => ?_
  rw [hb]
  unfold CmpBits Bits
  simp only [bitsetNcmpleOp, Bool.not_eq_true', Bool.and_eq_false_iff, Bool.not_eq_false']
  constructor
  · intro h i hi hbit
    rcases h i hi with hno | hyes
    · rw [hno] at hbit
      exact absurd hbit (by decide)
    · exact hyes
  · intro h i hi
    cases hbit : bitAt lhs (ls + i) with
    | false => exact Or.inl rfl
    | true => exact Or.inr (h i hi hbit)

end Comparisons

end Deemon.Hybrid
