import Deemon.Collections.Dict
import Mathlib.Data.Nat.Size

/-!
# The sizes of the tables

How large the tables of a dict are made for a number of items, and how wide the index words of a hash table are.
-/

namespace Deemon.Collections

/-- `Dee_HASH_HIDXIO_FROM_VALLOC`: an index word has `2 ^ w` bytes. -/
def hidxioFromValloc (valloc : ℕ) : ℕ :=
  (if 0xff < valloc then 1 else 0) + (if 0xffff < valloc then 1 else 0) + if 0xffffffff < valloc then 1 else 0

/-- `dict_suggested_max_valloc_from_count`. -/
def dictSuggestedMaxVallocFromCount (numItem : ℕ) : ℕ :=
  -- `CLZ(num_item)` is zero
  if numItem.size = 64 then 2 ^ 64 - 1 else 1 <<< numItem.size ||| 1 <<< (numItem.size + 1)

/-- `dict_valloc_from_hmask_and_count`. -/
def dictVallocFromHmaskAndCount (hmask numItem : ℕ) (allowOveralloc : Bool) : ℕ :=
  if !allowOveralloc then numItem
  else
    let result := hmask / 3 * 2
    if result < numItem then numItem
    else if numItem = 0 then 0
    else
      let maxValloc := dictSuggestedMaxVallocFromCount numItem
      if maxValloc < result then maxValloc else result

/-- `dict_hmask_from_count`. -/
def dictHmaskFromCount (numItem : ℕ) : ℕ :=
  if numItem = 0 then 0
  else if 2 ^ 64 ≤ numItem * 3 + 1 then 2 ^ 64 - 1
  else 1 <<< ((numItem * 3 + 1) >>> 1).size - 1

/-! ### What the sizes are -/

section Sizes

variable {n v hmask : ℕ}

theorem lt_two_pow_hidxio (h : v < 2 ^ 64) : v < 256 ^ 2 ^ hidxioFromValloc v := by
  unfold hidxioFromValloc
  split_ifs
  all_goals norm_num
  all_goals omega

theorem le_of_hidxio {w : ℕ} (h : hidxioFromValloc v = w + 1) : 256 ^ 2 ^ w ≤ v := by
  unfold hidxioFromValloc at h
  obtain rfl | rfl | rfl : w = 0 ∨ w = 1 ∨ w = 2 := by
    split_ifs at h
    all_goals omega
  all_goals norm_num
  all_goals split_ifs at h
  all_goals omega

theorem hidxio_mono (h : n ≤ v) : hidxioFromValloc n ≤ hidxioFromValloc v := by
  unfold hidxioFromValloc
  split_ifs
  all_goals omega

theorem hmaskFromCount_spec (h : n < 2 ^ 64) :
    n ≤ dictHmaskFromCount n ∧ ∃ k ≤ 64, dictHmaskFromCount n + 1 = 2 ^ k := by
  unfold dictHmaskFromCount
  by_cases h0 : n = 0
  · rw [if_pos h0]
    exact ⟨h0.le, 0, by omega, rfl⟩
  · rw [if_neg h0]
    by_cases hbig : 2 ^ 64 ≤ n * 3 + 1
    · rw [if_pos hbig]
      exact ⟨by omega, 64, le_rfl, rfl⟩
    · rw [if_neg hbig, Nat.one_shiftLeft]
      have hlt := Nat.lt_size_self ((n * 3 + 1) >>> 1)
      have hsize : ((n * 3 + 1) >>> 1).size ≤ 64 := by
        refine Nat.size_le.mpr ?_
        rw [Nat.shiftRight_eq_div_pow]
        omega
      have hhalf : n ≤ (n * 3 + 1) >>> 1 := by
        rw [Nat.shiftRight_eq_div_pow]
        omega
      exact ⟨by omega, _, hsize, Nat.sub_add_cancel Nat.one_le_two_pow⟩

theorem le_suggestedMaxValloc (h : n < 2 ^ 64) : n ≤ dictSuggestedMaxVallocFromCount n := by
  unfold dictSuggestedMaxVallocFromCount
  split_ifs with h64
  · omega
  · rw [Nat.one_shiftLeft]
    exact (Nat.lt_size_self n).le.trans Nat.left_le_or

theorem vallocFromHmaskAndCount_spec (overalloc : Bool) (h : n < 2 ^ 64) (hmask' : n ≤ hmask) :
    n ≤ dictVallocFromHmaskAndCount hmask n overalloc ∧ dictVallocFromHmaskAndCount hmask n overalloc ≤ hmask := by
  have hmax := le_suggestedMaxValloc h
  unfold dictVallocFromHmaskAndCount
  dsimp only
  split_ifs
  all_goals omega

end Sizes

end Deemon.Collections
