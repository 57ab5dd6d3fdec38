import Deemon.Lib.Fields

/-!
# Arrays of words of several widths

A buffer of bytes holds an array of little-endian words of `2 ^ w` bytes each, for every `w`. `wordAt` is the value of
such a word, `getWord` and `setWord` are the accesses that stay inside the buffer, and `convertWords` is the loop that
stores an array of one width as an array of another one. A word of the next width is made of two words of this one
(`wordAt_succ`).
-/

namespace Deemon.Words

open Deemon.Run Deemon.Radix Deemon.Fields

/-- The value of word `i`. -/
def wordAt (w : ℕ) (l : List ℕ) (i : ℕ) : ℕ := seg 256 l (i * 2 ^ w) (2 ^ w)

/-- Reading word `i`. -/
def getWord (w : ℕ) (l : List ℕ) (i : ℕ) : Option ℕ := getLe l (i * 2 ^ w) (2 ^ w)

/-- Writing word `i`; the value is cut to the width. -/
def setWord (w : ℕ) (l : List ℕ) (i v : ℕ) : Option (List ℕ) := setLe l (i * 2 ^ w) (2 ^ w) (v % 256 ^ 2 ^ w)

/-- The first `n` words. -/
def words (w : ℕ) (l : List ℕ) (n : ℕ) : List ℕ := (List.range n).map (wordAt w l)

/-- The bytes of an array of words. -/
def toBytes (w : ℕ) (xs : List ℕ) : List ℕ :=
  (List.range (xs.length * 2 ^ w)).map fun p => cell xs (p / 2 ^ w) / 256 ^ (p % 2 ^ w) % 256

variable {w w' i j n : ℕ} {l l' dst src xs : List ℕ}

theorem slot_le (h : i < n) : i * 2 ^ w + 2 ^ w ≤ n * 2 ^ w := by
  rw [← Nat.succ_mul]
  exact Nat.mul_le_mul_right _ h

theorem getWord_of_lt (hlen : n * 2 ^ w ≤ l.length) (h : i < n) : getWord w l i = some (wordAt w l i) :=
  getLe_of_le ((slot_le h).trans hlen)

theorem setWord_ends {v : ℕ} (hlen : n * 2 ^ w ≤ l.length) (h : i < n) :
    Ends (setWord w l i v) fun l' => l'.length = l.length ∧ wordAt w l' i = v % 256 ^ 2 ^ w ∧
      ∀ j ≠ i, wordAt w l' j = wordAt w l j := by
  refine (setLe_ends ((slot_le h).trans hlen) (Nat.mod_lt _ (Nat.pow_pos (by decide)))).mono ?_
  rintro l' ⟨hout, -, hvalue⟩
  refine ⟨hout.length, hvalue, fun j hj => seg_congr fun k hk => hout.out _ ?_⟩
  rcases Nat.lt_or_gt_of_ne hj with hlt | hgt
  · have := @slot_le w j i hlt
    omega
  · have := @slot_le w i j hgt
    omega

/-- A word is two words of half its width. -/
theorem wordAt_succ : wordAt (w + 1) l i = wordAt w l (2 * i) + 256 ^ 2 ^ w * wordAt w l (2 * i + 1) := by
  have hsize : 2 ^ (w + 1) = 2 ^ w + 2 ^ w := by rw [pow_succ]; omega
  have hstart : i * (2 ^ w + 2 ^ w) = 2 * i * 2 ^ w := by ring
  have hnext : (2 * i + 1) * 2 ^ w = 2 * i * 2 ^ w + 2 ^ w := by ring
  unfold wordAt
  rw [hsize, seg_add, hstart, hnext]

/-! ### Conversions -/

/-- The loop that stores `n` words of one width with another one. -/
def convertWords (w w' : ℕ) (dst src : List ℕ) (n : ℕ) : Option (List ℕ) :=
  forLoop (fun i dst => do setWord w' dst i (← getWord w src i)) 0 n dst

theorem convertWords_ends (hsrc : n * 2 ^ w ≤ src.length) (hdst : n * 2 ^ w' ≤ dst.length) :
    Ends (convertWords w w' dst src n) fun r => r.length = dst.length ∧
      (∀ i < n, wordAt w' r i = wordAt w src i % 256 ^ 2 ^ w') ∧ ∀ i, n ≤ i → wordAt w' r i = wordAt w' dst i := by
  refine forLoop_ends_zero (fun k r => r.length = dst.length ∧
    (∀ i < k, wordAt w' r i = wordAt w src i % 256 ^ 2 ^ w') ∧ ∀ i, k ≤ i → wordAt w' r i = wordAt w' dst i)
    ⟨rfl, fun i hi => absurd hi (Nat.not_lt_zero i), fun _ _ => rfl⟩ ?_
  rintro k r hk ⟨hlen, hdone, hrest⟩
  rw [getWord_of_lt hsrc hk, some_bind]
  refine (setWord_ends (by rw [hlen]; exact hdst) hk).mono ?_
  rintro r' ⟨hlen', hself, hother⟩
  refine ⟨hlen'.trans hlen, fun i hi => ?_, fun i hi => ?_⟩
  · rcases Nat.lt_succ_iff_lt_or_eq.mp hi with hlt | rfl
    · rw [hother i hlt.ne, hdone i hlt]
    · exact hself
  · rw [hother i (by omega), hrest i (by omega)]

/-! ### Bytes of words -/

@[simp] theorem length_toBytes : (toBytes w xs).length = xs.length * 2 ^ w := by
  rw [toBytes, List.length_map, List.length_range]

theorem wordAt_toBytes (hi : i < xs.length) : wordAt w (toBytes w xs) i = cell xs i % 256 ^ 2 ^ w := by
  have hbyte : ∀ k < 2 ^ w, cell (toBytes w xs) (i * 2 ^ w + k) = cell xs i / 256 ^ k % 256 := by
    intro k hk
    have hlt : i * 2 ^ w + k < xs.length * 2 ^ w := lt_of_lt_of_le (Nat.add_lt_add_left hk _) (slot_le hi)
    have hdiv : (i * 2 ^ w + k) / 2 ^ w = i := by
      rw [Nat.mul_comm, Nat.mul_add_div (Nat.two_pow_pos w), Nat.div_eq_of_lt hk, Nat.add_zero]
    have hmod : (i * 2 ^ w + k) % 2 ^ w = k := by rw [Nat.mul_comm, Nat.mul_add_mod, Nat.mod_eq_of_lt hk]
    have hget : (toBytes w xs)[i * 2 ^ w + k]? = some (cell xs i / 256 ^ k % 256) := by
      rw [toBytes, List.getElem?_map, List.getElem?_range hlt, Option.map_some, hdiv, hmod]
    show (toBytes w xs).getD (i * 2 ^ w + k) 0 = _
    rw [List.getD_eq_getElem?_getD, hget, Option.getD_some]
  have hseg : ∀ k ≤ 2 ^ w, seg 256 (toBytes w xs) (i * 2 ^ w) k = cell xs i % 256 ^ k := by
    intro k hk
    induction k with
    | zero => rw [seg_zero, pow_zero, Nat.mod_one]
    | succ k ih => rw [seg_succ, ih (by omega), hbyte k hk, pow_succ, Nat.mod_mul, Nat.mul_comm]
  exact hseg _ le_rfl

theorem length_words : (words w l n).length = n := by rw [words, List.length_map, List.length_range]

theorem cell_words (h : i < n) : cell (words w l n) i = wordAt w l i := by
  simp only [words, cell, List.getD_eq_getElem?_getD, List.getElem?_map, List.getElem?_range h, Option.map_some,
    Option.getD_some]

theorem words_eq (hlen : xs.length = n) (h : ∀ i < n, wordAt w l i = cell xs i) : words w l n = xs := by
  refine List.ext_getElem (length_words.trans hlen.symm) fun i hi hi' => ?_
  have hword := h i (hlen ▸ hi')
  simp only [words, List.getElem_map, List.getElem_range, hword, cell, List.getD_eq_getElem?_getD,
    List.getElem?_eq_getElem hi', Option.getD_some]

/-- A block of zeros holds zeros of every width. -/
theorem wordAt_eq_zero (h : ∀ p, cell l p = 0) : wordAt w l i = 0 := seg_eq_zero fun k _ => h (i * 2 ^ w + k)

end Deemon.Words
