import Deemon.Lib.Run
import Mathlib.Data.Nat.Bitwise

/-!
# Strings of bits in bytes

A buffer of 8-bit words holds the bit string whose bit `i` is bit `i % 8` of word `i / 8` (`bitAt`). The
predicates `AnyIn`, `FirstIn` and `LastIn` say what a search through a range of indices finds; `firstIndex` and
`lastIndex` are the two search loops of C code, which leave at the first index that passes a test.
-/

namespace Deemon.BitString

open Deemon.Run

/-! ### Searches -/

/-- Some index of `lo, …, hi - 1` satisfies `q`. -/
def AnyIn (q : ℕ → Prop) (lo hi : ℕ) : Prop := ∃ i, lo ≤ i ∧ i < hi ∧ q i

/-- The first index of `lo, …, hi - 1` that satisfies `q`. -/
def FirstIn (q : ℕ → Prop) (lo hi : ℕ) : Option ℕ → Prop
  | none => ∀ i, lo ≤ i → i < hi → ¬q i
  | some j => lo ≤ j ∧ j < hi ∧ q j ∧ ∀ i, lo ≤ i → i < j → ¬q i

/-- The last index of `lo, …, hi - 1` that satisfies `q`. -/
def LastIn (q : ℕ → Prop) (lo hi : ℕ) : Option ℕ → Prop
  | none => ∀ i, lo ≤ i → i < hi → ¬q i
  | some j => lo ≤ j ∧ j < hi ∧ q j ∧ ∀ i, j < i → i < hi → ¬q i

/-- `for (i = lo; i < lo + n; ++i) if (p(i)) return i;`. -/
def firstIndex (p : ℕ → Option Bool) : ℕ → ℕ → Option (Option ℕ)
  | _, 0 => some none
  | lo, n + 1 => do if ← p lo then some (some lo) else firstIndex p (lo + 1) n

/-- `for (i = lo + n; i-- > lo;) if (p(i)) return i;`. -/
def lastIndex (p : ℕ → Option Bool) (lo : ℕ) : ℕ → Option (Option ℕ)
  | 0 => some none
  | n + 1 => do if ← p (lo + n) then some (some (lo + n)) else lastIndex p lo n

variable {q : ℕ → Prop} {lo mid hi : ℕ} {p : ℕ → Option Bool}

theorem anyIn_split (h : lo ≤ mid) (h' : mid ≤ hi) : AnyIn q lo hi ↔ AnyIn q lo mid ∨ AnyIn q mid hi := by
  constructor
  · rintro ⟨i, hlo, hhi, hq⟩
    by_cases hi : i < mid
    · exact Or.inl ⟨i, hlo, hi, hq⟩
    · exact Or.inr ⟨i, by omega, hhi, hq⟩
  · rintro (⟨i, hlo, hhi, hq⟩ | ⟨i, hlo, hhi, hq⟩)
    · exact ⟨i, hlo, by omega, hq⟩
    · exact ⟨i, by omega, hhi, hq⟩

theorem not_anyIn_of_le (h : hi ≤ lo) : ¬AnyIn q lo hi := by
  rintro ⟨i, hlo, hhi, -⟩
  omega

theorem not_anyIn_iff : ¬AnyIn q lo hi ↔ ∀ i, lo ≤ i → i < hi → ¬q i := by
  constructor
  · intro h i hlo hhi hq
    exact h ⟨i, hlo, hhi, hq⟩
  · rintro h ⟨i, hlo, hhi, hq⟩
    exact h i hlo hhi hq

/-- A search goes on behind a range without a hit. -/
theorem FirstIn.append {r : Option ℕ} (h : FirstIn q lo mid none) (h' : FirstIn q mid hi r) (hle : lo ≤ mid) :
    FirstIn q lo hi r := by
  cases r with
  | none =>
    intro i hlo hhi
    by_cases hi : i < mid
    · exact h i hlo hi
    · exact h' i (by omega) hhi
  | some j =>
    obtain ⟨hlo, hhi, hj, hbelow⟩ := h'
    refine ⟨by omega, hhi, hj, fun i hlo' hhi' => ?_⟩
    by_cases hi : i < mid
    · exact h i hlo' hi
    · exact hbelow i (by omega) hhi'

theorem FirstIn.widen {j : ℕ} (h : FirstIn q lo mid (some j)) (hle : mid ≤ hi) : FirstIn q lo hi (some j) :=
  ⟨h.1, h.2.1.trans_le hle, h.2.2⟩

/-- A search goes on below a range without a hit. -/
theorem LastIn.append {r : Option ℕ} (h : LastIn q mid hi none) (h' : LastIn q lo mid r) (hle : mid ≤ hi) :
    LastIn q lo hi r := by
  cases r with
  | none =>
    intro i hlo hhi
    by_cases hi : i < mid
    · exact h' i hlo hi
    · exact h i (by omega) hhi
  | some j =>
    obtain ⟨hlo, hhi, hj, habove⟩ := h'
    refine ⟨hlo, by omega, hj, fun i hlo' hhi' => ?_⟩
    by_cases hi : i < mid
    · exact habove i hlo' hi
    · exact h i (by omega) hhi'

theorem LastIn.widen {j : ℕ} (h : LastIn q mid hi (some j)) (hle : lo ≤ mid) : LastIn q lo hi (some j) :=
  ⟨hle.trans h.1, h.2⟩

theorem FirstIn.anyIn_iff {r : Option ℕ} (h : FirstIn q lo hi r) : AnyIn q lo hi ↔ r.isSome := by
  cases r with
  | none => exact iff_of_false (not_anyIn_iff.mpr h) (by simp)
  | some j => exact iff_of_true ⟨j, h.1, h.2.1, h.2.2.1⟩ rfl

theorem firstIndex_ends {n : ℕ} (hp : ∀ i, lo ≤ i → i < lo + n → Ends (p i) fun b => b = true ↔ q i) :
    Ends (firstIndex p lo n) (FirstIn q lo (lo + n)) := by
  induction n generalizing lo with
  | zero => exact Ends.pure fun i hlo hhi => by omega
  | succ n ih =>
    refine Ends.bind (hp lo le_rfl (by omega)) fun b hb => ?_
    by_cases hq : q lo
    · rw [if_pos (hb.mpr hq)]
      exact Ends.pure ⟨le_rfl, by omega, hq, fun i hlo hhi => by omega⟩
    · rw [if_neg fun h => hq (hb.mp h)]
      refine (ih fun i hlo hhi => hp i (by omega) (by omega)).mono fun r hr => ?_
      rw [show lo + (n + 1) = lo + 1 + n by omega]
      cases r with
      | none =>
        intro i hlo hhi
        by_cases hi : i = lo
        · rwa [hi]
        · exact hr i (by omega) hhi
      | some j =>
        obtain ⟨hlo, hhi, hj, hbelow⟩ := hr
        refine ⟨by omega, hhi, hj, fun i hlo' hhi' => ?_⟩
        by_cases hi : i = lo
        · rwa [hi]
        · exact hbelow i (by omega) hhi'

theorem lastIndex_ends {n : ℕ} (hp : ∀ i, lo ≤ i → i < lo + n → Ends (p i) fun b => b = true ↔ q i) :
    Ends (lastIndex p lo n) (LastIn q lo (lo + n)) := by
  induction n with
  | zero => exact Ends.pure fun i hlo hhi => by omega
  | succ n ih =>
    refine Ends.bind (hp (lo + n) (by omega) (by omega)) fun b hb => ?_
    by_cases hq : q (lo + n)
    · rw [if_pos (hb.mpr hq)]
      exact Ends.pure ⟨by omega, by omega, hq, fun i hlo hhi => by omega⟩
    · rw [if_neg fun h => hq (hb.mp h)]
      refine (ih fun i hlo hhi => hp i hlo (by omega)).mono fun r hr => ?_
      cases r with
      | none =>
        intro i hlo hhi
        by_cases hi : i = lo + n
        · rwa [hi]
        · exact hr i hlo (by omega)
      | some j =>
        obtain ⟨hlo, hhi, hj, habove⟩ := hr
        refine ⟨hlo, by omega, hj, fun i hlo' hhi' => ?_⟩
        by_cases hi : i = lo + n
        · rwa [hi]
        · exact habove i hlo' (by omega)

/-! ### Bits of a buffer -/

/-- A word of a buffer. -/
abbrev Word := BitVec 8

/-- A word of a buffer, with a default outside of it. -/
def word (l : List Word) (i : ℕ) : Word := l.getD i 0

/-- A read of `l[i]`. -/
def readWord (l : List Word) (i : ℕ) : Option Word := if i < l.length then some (word l i) else none

/-- A write `l[i] = w`. -/
def writeWord (l : List Word) (i : ℕ) (w : Word) : Option (List Word) :=
  if i < l.length then some (l.set i w) else none

/-- Bit `i` of a buffer. -/
def bitAt (l : List Word) (i : ℕ) : Bool := (word l (i / 8)).getLsbD (i % 8)

theorem readWord_of_lt {l : List Word} {i : ℕ} (h : i < l.length) : readWord l i = some (word l i) := if_pos h

theorem writeWord_of_lt {l : List Word} {i : ℕ} {w : Word} (h : i < l.length) : writeWord l i w = some (l.set i w) :=
  if_pos h

theorem word_set_self {l : List Word} {i : ℕ} {w : Word} (h : i < l.length) : word (l.set i w) i = w := by
  simp [word, h]

theorem word_set_of_ne {l : List Word} {i j : ℕ} {w : Word} (h : i ≠ j) : word (l.set i w) j = word l j := by
  simp [word, List.getElem?_set_ne h]

theorem word_drop (l : List Word) (k i : ℕ) : word (l.drop k) i = word l (k + i) := by
  simp [word]

theorem bitAt_word (l : List Word) (i : ℕ) {k : ℕ} (hk : k < 8) : bitAt l (8 * i + k) = (word l i).getLsbD k := by
  unfold bitAt
  rw [show (8 * i + k) / 8 = i by omega, show (8 * i + k) % 8 = k by omega]

theorem bitAt_drop (l : List Word) (k i : ℕ) : bitAt (l.drop k) i = bitAt l (8 * k + i) := by
  unfold bitAt
  rw [word_drop, show (8 * k + i) / 8 = k + i / 8 by omega, show (8 * k + i) % 8 = i % 8 by omega]

theorem word_ext {v w : Word} (h : ∀ k < 8, v.getLsbD k = w.getLsbD k) : v = w :=
  BitVec.eq_of_getLsbD_eq h

theorem word_ne_zero_iff {w : Word} : w ≠ 0 ↔ ∃ k < 8, w.getLsbD k = true := by
  constructor
  · intro h
    by_contra hno
    apply h
    apply word_ext
    intro k hk
    by_contra hbit
    exact hno ⟨k, hk, by simpa using hbit⟩
  · rintro ⟨k, -, hk⟩ rfl
    simp at hk

/-- The set bits of a buffer. -/
def Bits (l : List Word) (i : ℕ) : Prop := bitAt l i = true

instance {l : List Word} : DecidablePred (Bits l) := fun i => inferInstanceAs (Decidable (bitAt l i = true))

theorem bits_word (l : List Word) (i : ℕ) {k : ℕ} (hk : k < 8) : Bits l (8 * i + k) ↔ (word l i).getLsbD k = true := by
  rw [Bits, bitAt_word l i hk]

/-- The words from `a` on are zero as far as their bits are. -/
theorem anyIn_words (l : List Word) (a b : ℕ) : AnyIn (fun i => word l i ≠ 0) a b ↔ AnyIn (Bits l) (8 * a) (8 * b) := by
  constructor
  · rintro ⟨i, hlo, hhi, hword⟩
    obtain ⟨k, hk, hbit⟩ := word_ne_zero_iff.mp hword
    exact ⟨8 * i + k, by omega, by omega, (bits_word l i hk).mpr hbit⟩
  · rintro ⟨j, hlo, hhi, hbit⟩
    have hj : 8 * (j / 8) + j % 8 = j := by omega
    rw [← hj, bits_word l _ (by omega)] at hbit
    exact ⟨j / 8, by omega, by omega, word_ne_zero_iff.mpr ⟨j % 8, by omega, hbit⟩⟩

/-! ### Masks -/

/-- The mask of the bits `lo, …, hi - 1` of a word. -/
def IsMask (mask : Word) (lo hi : ℕ) : Prop := ∀ k < 8, mask.getLsbD k = decide (lo ≤ k ∧ k < hi)

/-- A word cut down to a range of bits. -/
theorem IsMask.getLsbD_and {mask : Word} {lo hi : ℕ} (h : IsMask mask lo hi) (w : Word) {k : ℕ} (hk : k < 8) :
    (w &&& mask).getLsbD k = true ↔ w.getLsbD k = true ∧ lo ≤ k ∧ k < hi := by
  rw [BitVec.getLsbD_and, h k hk, Bool.and_eq_true, decide_eq_true_eq]

theorem IsMask.and {m m' : Word} {a b a' b' : ℕ} (h : IsMask m a b) (h' : IsMask m' a' b') :
    IsMask (m &&& m') (max a a') (min b b') := by
  intro k hk
  rw [BitVec.getLsbD_and, h k hk, h' k hk, ← Bool.decide_and]
  congr 1
  rw [eq_iff_iff]
  omega

theorem IsMask.congr {m : Word} {a b a' b' : ℕ} (h : IsMask m a b) (ha : a = a') (hb : b = b') : IsMask m a' b' := by
  subst ha hb
  exact h

/-- A bit of a word cut down to a range. -/
theorem IsMask.bits_iff {mask : Word} {a b : ℕ} (h : IsMask mask a b) (l : List Word) (i : ℕ) {k : ℕ} (hk : k < 8) :
    (word l i &&& mask).getLsbD k = true ↔ Bits l (8 * i + k) ∧ a ≤ k ∧ k < b := by
  rw [h.getLsbD_and _ hk, bits_word l i hk]

/-- Some bit of a range inside a word is set. -/
theorem IsMask.anyIn_iff {mask : Word} {a b : ℕ} (h : IsMask mask a b) (hb : b ≤ 8) (l : List Word) (i : ℕ) :
    word l i &&& mask ≠ 0 ↔ AnyIn (Bits l) (8 * i + a) (8 * i + b) := by
  rw [word_ne_zero_iff]
  constructor
  · rintro ⟨k, hk, hbit⟩
    obtain ⟨hbit, hlo, hhi⟩ := (h.bits_iff l i hk).mp hbit
    exact ⟨8 * i + k, by omega, by omega, hbit⟩
  · rintro ⟨j, hlo, hhi, hbit⟩
    obtain ⟨k, rfl⟩ : ∃ k, j = 8 * i + k := ⟨j - 8 * i, by omega⟩
    exact ⟨k, by omega, (h.bits_iff l i (by omega)).mpr ⟨hbit, by omega, by omega⟩⟩

/-- The first set bit of a word cut down to a range. -/
theorem IsMask.firstIn {mask : Word} {a b : ℕ} (h : IsMask mask a b) (l : List Word) (i : ℕ) {c : ℕ}
    (hc : c < 8) (hbit : (word l i &&& mask).getLsbD c = true) (hbelow : ∀ k < c, (word l i &&& mask).getLsbD k = false) :
    FirstIn (Bits l) (8 * i + a) (8 * i + b) (some (8 * i + c)) := by
  obtain ⟨hset, hlo, hhi⟩ := (h.bits_iff l i hc).mp hbit
  refine ⟨by omega, by omega, hset, fun j hj hjc hset' => ?_⟩
  obtain ⟨k, rfl⟩ : ∃ k, j = 8 * i + k := ⟨j - 8 * i, by omega⟩
  have hk := hbelow k (by omega)
  rw [(h.bits_iff l i (by omega)).mpr ⟨hset', by omega, by omega⟩] at hk
  exact absurd hk (by decide)

/-- The last set bit of a word cut down to a range. -/
theorem IsMask.lastIn {mask : Word} {a b : ℕ} (h : IsMask mask a b) (hb : b ≤ 8) (l : List Word) (i : ℕ) {c : ℕ}
    (hc : c < 8) (hbit : (word l i &&& mask).getLsbD c = true)
    (habove : ∀ k < 8, c < k → (word l i &&& mask).getLsbD k = false) :
    LastIn (Bits l) (8 * i + a) (8 * i + b) (some (8 * i + c)) := by
  obtain ⟨hset, hlo, hhi⟩ := (h.bits_iff l i hc).mp hbit
  refine ⟨by omega, by omega, hset, fun j hj hjc hset' => ?_⟩
  obtain ⟨k, rfl⟩ : ∃ k, j = 8 * i + k := ⟨j - 8 * i, by omega⟩
  have hk8 : k < 8 := lt_of_lt_of_le (by omega) hb
  have hk := habove k hk8 (by omega)
  rw [(h.bits_iff l i hk8).mpr ⟨hset', by omega, by omega⟩] at hk
  exact absurd hk (by decide)

/-- The mask of a whole word. -/
theorem isMask_full : IsMask (BitVec.allOnes 8) 0 8 := by
  unfold IsMask
  decide

/-- Words that are all zero have no bits. -/
theorem noBits_of_words {l : List Word} {a b : ℕ} (h : ∀ i, a ≤ i → i < b → ¬word l i ≠ 0) :
    ∀ j, 8 * a ≤ j → j < 8 * b → ¬Bits l j :=
  not_anyIn_iff.mp (mt (anyIn_words l a b).mpr (not_anyIn_iff.mpr h))

/-- The first set bit of the first word that has one. -/
theorem firstIn_of_word {l : List Word} {a b i c : ℕ} (hword : FirstIn (fun i => word l i ≠ 0) a b (some i))
    (hc : c < 8) (hbit : (word l i).getLsbD c = true) (hbelow : ∀ k < c, (word l i).getLsbD k = false) :
    FirstIn (Bits l) (8 * a) (8 * b) (some (8 * i + c)) := by
  obtain ⟨hlo, hhi, -, hzero⟩ := hword
  have hnone : FirstIn (Bits l) (8 * a) (8 * i) none := noBits_of_words hzero
  rw [← BitVec.and_allOnes (x := word l i)] at hbit hbelow
  exact hnone.append ((isMask_full.firstIn l i hc hbit hbelow).widen (by omega)) (by omega)

/-- The last set bit of the last word that has one. -/
theorem lastIn_of_word {l : List Word} {a b i c : ℕ} (hword : LastIn (fun i => word l i ≠ 0) a b (some i))
    (hc : c < 8) (hbit : (word l i).getLsbD c = true) (habove : ∀ k < 8, c < k → (word l i).getLsbD k = false) :
    LastIn (Bits l) (8 * a) (8 * b) (some (8 * i + c)) := by
  obtain ⟨hlo, hhi, -, hzero⟩ := hword
  have hnone : LastIn (Bits l) (8 * i + 8) (8 * b) none := by
    have h := noBits_of_words (l := l) (a := i + 1) (b := b) fun j hj hjb => hzero j hj hjb
    rwa [show 8 * (i + 1) = 8 * i + 8 by ring] at h
  rw [← BitVec.and_allOnes (x := word l i)] at hbit habove
  exact hnone.append ((isMask_full.lastIn le_rfl l i hc hbit habove).widen (by omega)) (by omega)

/-! ### Updates -/

/-- `l[i] = f(l[i])`. -/
def updateWord (l : List Word) (i : ℕ) (f : Word → Word) : Option (List Word) := do
  writeWord l i (f (← readWord l i))

/-- `memset(l + i, w, n)`. -/
def fillWords (l : List Word) (i : ℕ) (w : Word) (n : ℕ) : Option (List Word) :=
  forLoop (fun i l => writeWord l i w) i n l

/-- An update that turns on no bit from `n` on. -/
structure SetsBelow (n : ℕ) (l l' : List Word) : Prop where
  length : l'.length = l.length
  bits : ∀ i, n ≤ i → Bits l' i → Bits l i

section Updates

variable {l l' l'' : List Word} {n m : ℕ}

theorem SetsBelow.refl : SetsBelow n l l := ⟨rfl, fun _ _ h => h⟩

theorem SetsBelow.trans (h : SetsBelow n l l') (h' : SetsBelow n l' l'') : SetsBelow n l l'' :=
  ⟨h'.length.trans h.length, fun i hi hbit => h.bits i hi (h'.bits i hi hbit)⟩

theorem SetsBelow.mono (h : SetsBelow n l l') (hle : n ≤ m) : SetsBelow m l l' :=
  ⟨h.length, fun i hi => h.bits i (hle.trans hi)⟩

theorem SetsBelow.none (h : SetsBelow n l l') (hl : ∀ i, n ≤ i → ¬Bits l i) : ∀ i, n ≤ i → ¬Bits l' i :=
  fun i hi hbit => hl i hi (h.bits i hi hbit)

/-- The write of one word. -/
theorem setsBelow_set {i : ℕ} {w : Word} (h : i < l.length)
    (hw : ∀ k < 8, n ≤ 8 * i + k → w.getLsbD k = true → (word l i).getLsbD k = true) :
    SetsBelow n l (l.set i w) := by
  refine ⟨List.length_set, fun j hj hbit => ?_⟩
  obtain ⟨k, hk, hjk⟩ : ∃ k < 8, j = 8 * (j / 8) + k := ⟨j % 8, by omega, by omega⟩
  rw [hjk, bits_word _ _ hk] at hbit ⊢
  by_cases hi : i = j / 8
  · subst hi
    rw [word_set_self h] at hbit
    exact hw k hk (by omega) hbit
  · rwa [word_set_of_ne hi] at hbit

/-- An update that keeps the bits before `n`. -/
structure KeepsBelow (n : ℕ) (l l' : List Word) : Prop where
  length : l'.length = l.length
  bits : ∀ i < n, Bits l i → Bits l' i

theorem KeepsBelow.refl : KeepsBelow n l l := ⟨rfl, fun _ _ h => h⟩

theorem KeepsBelow.trans (h : KeepsBelow n l l') (h' : KeepsBelow n l' l'') : KeepsBelow n l l'' :=
  ⟨h'.length.trans h.length, fun i hi hbit => h'.bits i hi (h.bits i hi hbit)⟩

theorem keepsBelow_set {i : ℕ} {w : Word} (h : i < l.length)
    (hw : ∀ k < 8, 8 * i + k < n → (word l i).getLsbD k = true → w.getLsbD k = true) :
    KeepsBelow n l (l.set i w) := by
  refine ⟨List.length_set, fun j hj hbit => ?_⟩
  obtain ⟨k, hk, hjk⟩ : ∃ k < 8, j = 8 * (j / 8) + k := ⟨j % 8, by omega, by omega⟩
  rw [hjk, bits_word _ _ hk] at hbit ⊢
  by_cases hi : i = j / 8
  · subst hi
    rw [word_set_self h]
    exact hw k hk (by omega) hbit
  · rwa [word_set_of_ne hi]

theorem updateWord_keeps {i : ℕ} {f : Word → Word} (h : i < l.length)
    (hw : ∀ k < 8, 8 * i + k < n → (word l i).getLsbD k = true → (f (word l i)).getLsbD k = true) :
    Ends (updateWord l i f) fun l' => KeepsBelow n l l' ∧ word l' i = f (word l i) := by
  unfold updateWord
  rw [readWord_of_lt h, some_bind, writeWord_of_lt h]
  exact Ends.pure ⟨keepsBelow_set h hw, word_set_self h⟩

theorem fillWords_keeps {i : ℕ} {w : Word} {k : ℕ} (h : i + k ≤ l.length) (hn : n ≤ 8 * i) :
    Ends (fillWords l i w k) (KeepsBelow n l) := by
  refine forLoop_ends (fun _ l' => KeepsBelow n l l') KeepsBelow.refl fun j s hj hlt hs => ?_
  rw [writeWord_of_lt (by rw [hs.length]; omega)]
  exact Ends.pure (hs.trans (keepsBelow_set (by rw [hs.length]; omega) fun k hk hle => by omega))

theorem updateWord_ends {i : ℕ} {f : Word → Word} (h : i < l.length)
    (hw : ∀ k < 8, n ≤ 8 * i + k → (f (word l i)).getLsbD k = true → (word l i).getLsbD k = true) :
    Ends (updateWord l i f) fun l' => SetsBelow n l l' ∧ word l' i = f (word l i) := by
  unfold updateWord
  rw [readWord_of_lt h, some_bind, writeWord_of_lt h]
  exact Ends.pure ⟨setsBelow_set h hw, word_set_self h⟩

theorem fillWords_ends {i : ℕ} {w : Word} {k : ℕ} (h : i + k ≤ l.length) :
    Ends (fillWords l i w k) (SetsBelow (8 * (i + k)) l) := by
  refine forLoop_ends (fun _ l' => SetsBelow (8 * (i + k)) l l') SetsBelow.refl fun j s _ hj hs => ?_
  rw [writeWord_of_lt (by rw [hs.length]; omega)]
  exact Ends.pure (hs.trans (setsBelow_set (by rw [hs.length]; omega) fun k hk hle => by omega))

/-- Zeroing words turns no bit on, and the bits of the words off. -/
theorem fillWords_zero_ends {i k : ℕ} (h : i + k ≤ l.length) :
    Ends (fillWords l i 0 k) fun l' => SetsBelow 0 l l' ∧ ∀ j, 8 * i ≤ j → j < 8 * (i + k) → ¬Bits l' j := by
  refine forLoop_ends (fun m l' => SetsBelow 0 l l' ∧ ∀ j, 8 * i ≤ j → j < 8 * m → ¬Bits l' j)
    ⟨SetsBelow.refl, fun j hlo hhi => by omega⟩ ?_
  rintro m s - hm ⟨hs, hoff⟩
  have hlen := hs.length
  have hstep : SetsBelow 0 s (s.set m 0) := setsBelow_set (by omega) fun k hk _ hbit => by simp at hbit
  rw [writeWord_of_lt (by omega)]
  refine Ends.pure ⟨hs.trans hstep, fun j hlo hhi hbit => ?_⟩
  by_cases hj : j < 8 * m
  · exact hoff j hlo hj (hstep.bits j (Nat.zero_le j) hbit)
  · obtain ⟨k, hk, rfl⟩ : ∃ k < 8, j = 8 * m + k := ⟨j - 8 * m, by omega, by omega⟩
    rw [bits_word _ _ hk, word_set_self (by omega)] at hbit
    simp at hbit

theorem IsMask.or_lt {mask w : Word} {a b k : ℕ} (h : IsMask mask a b) (hk : k < 8) (hb : b ≤ k)
    (hbit : (w ||| mask).getLsbD k = true) : w.getLsbD k = true := by
  rw [BitVec.getLsbD_or, h k hk, decide_eq_false (by omega), Bool.or_false] at hbit
  exact hbit

theorem IsMask.xor_lt {mask w : Word} {a b k : ℕ} (h : IsMask mask a b) (hk : k < 8) (hb : b ≤ k)
    (hbit : (w ^^^ mask).getLsbD k = true) : w.getLsbD k = true := by
  rw [BitVec.getLsbD_xor, h k hk, decide_eq_false (by omega), Bool.xor_false] at hbit
  exact hbit

/-- A cut to a mask turns no bit on. -/
theorem and_bit {mask w : Word} {k : ℕ} (hbit : (w &&& mask).getLsbD k = true) : w.getLsbD k = true := by
  rw [BitVec.getLsbD_and, Bool.and_eq_true] at hbit
  exact hbit.1

end Updates

end Deemon.BitString
