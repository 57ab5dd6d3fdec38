import Mathlib.Data.List.Basic
import Mathlib.Tactic.Ring

/-!
# Edit distance

The distance of two texts by its recursion from the front (`editDistance`) is the smallest number of insertions,
deletions and substitutions that turn one into the other (`Edits`). Edits compose and can be read from the back, so the
distance is a metric, and the recursion holds at the last characters as well (`editDistance_concat`).
-/

namespace Deemon.EditDistance

variable {α : Type}

/-- The texts are turned into each other by `n` insertions, deletions and substitutions. -/
inductive Edits : ℕ → List α → List α → Prop
  | nil : Edits 0 [] []
  | keep (x : α) {n : ℕ} {xs ys : List α} (h : Edits n xs ys) : Edits n (x :: xs) (x :: ys)
  | subst (x y : α) {n : ℕ} {xs ys : List α} (h : Edits n xs ys) : Edits (n + 1) (x :: xs) (y :: ys)
  | insert (y : α) {n : ℕ} {xs ys : List α} (h : Edits n xs ys) : Edits (n + 1) xs (y :: ys)
  | delete (x : α) {n : ℕ} {xs ys : List α} (h : Edits n xs ys) : Edits (n + 1) (x :: xs) ys

section Edits

variable {m n : ℕ} {xs ys zs xs' ys' : List α}

theorem Edits.symm (h : Edits n xs ys) : Edits n ys xs := by
  induction h with
  | nil => exact .nil
  | keep x _ ih => exact .keep x ih
  | subst x y _ ih => exact .subst y x ih
  | insert y _ ih => exact .delete y ih
  | delete x _ ih => exact .insert x ih

theorem Edits.append (h : Edits m xs ys) (h' : Edits n xs' ys') : Edits (m + n) (xs ++ xs') (ys ++ ys') := by
  induction h with
  | nil => rwa [Nat.zero_add]
  | keep x _ ih => exact .keep x ih
  | subst x y _ ih =>
    rw [Nat.add_right_comm]
    exact .subst x y ih
  | insert y _ ih =>
    rw [Nat.add_right_comm]
    exact .insert y ih
  | delete x _ ih =>
    rw [Nat.add_right_comm]
    exact .delete x ih

theorem Edits.reverse (h : Edits n xs ys) : Edits n xs.reverse ys.reverse := by
  induction h with
  | nil => exact .nil
  | keep x _ ih =>
    rw [List.reverse_cons, List.reverse_cons]
    exact ih.append (.keep x .nil)
  | subst x y _ ih =>
    rw [List.reverse_cons, List.reverse_cons]
    exact ih.append (.subst x y .nil)
  | insert y _ ih =>
    have h := ih.append (.insert y .nil)
    rwa [List.append_nil, ← List.reverse_cons] at h
  | delete x _ ih =>
    have h := ih.append (.delete x .nil)
    rwa [List.append_nil, ← List.reverse_cons] at h

theorem edits_insert_all : Edits ys.length [] ys := by
  induction ys with
  | nil => exact .nil
  | cons y ys ih => exact .insert y ih

theorem Edits.eq_of_zero (h : Edits n xs ys) (hn : n = 0) : xs = ys := by
  induction h with
  | nil => rfl
  | keep x _ ih => rw [ih hn]
  | subst x y _ _ => omega
  | insert y _ _ => omega
  | delete x _ _ => omega

theorem Edits.length_le (h : Edits n xs ys) : ys.length ≤ xs.length + n := by
  induction h with
  | nil => exact le_rfl
  | keep x _ ih | subst x y _ ih | insert y _ ih | delete x _ ih =>
    simp only [List.length_cons]
    omega

/-- One item becomes any text. -/
theorem edits_single (x : α) (ys : List α) : ∃ k ≤ max 1 ys.length, Edits k [x] ys := by
  cases ys with
  | nil => exact ⟨1, le_max_left _ _, .delete x .nil⟩
  | cons y ys => exact ⟨ys.length + 1, le_max_right _ _, .subst x y edits_insert_all⟩

/-- The first item and the others are edited apart from each other. -/
theorem Edits.uncons {x : α} (h : Edits n (x :: xs) zs) :
    ∃ a b, a + b = n ∧ ∃ front back, zs = front ++ back ∧ Edits a [x] front ∧ Edits b xs back := by
  generalize hw : x :: xs = w at h
  induction h with
  | nil => cases hw
  | @keep y n ys zs h _ =>
    cases hw
    exact ⟨0, n, Nat.zero_add n, [x], zs, rfl, .keep x .nil, h⟩
  | @subst y z n ys zs h _ =>
    cases hw
    exact ⟨1, n, Nat.add_comm 1 n, [z], zs, rfl, .subst x z .nil, h⟩
  | insert z _ ih =>
    obtain ⟨a, b, rfl, front, back, rfl, hfront, hback⟩ := ih hw
    exact ⟨a + 1, b, Nat.add_right_comm a 1 b, z :: front, back, rfl, .insert z hfront, hback⟩
  | @delete y n ys zs h _ =>
    cases hw
    exact ⟨1, n, Nat.add_comm 1 n, [], zs, rfl, .delete x .nil, h⟩

/-- Edits compose. -/
theorem Edits.trans (h : Edits m xs ys) (h' : Edits n ys zs) : ∃ k ≤ m + n, Edits k xs zs := by
  induction h generalizing n zs with
  | nil => exact ⟨n, by omega, h'⟩
  | delete x _ ih =>
    obtain ⟨k, hk, hedits⟩ := ih h'
    exact ⟨k + 1, by omega, .delete x hedits⟩
  | keep x _ ih =>
    obtain ⟨a, b, rfl, front, back, rfl, hfront, hback⟩ := h'.uncons
    obtain ⟨k, hk, hedits⟩ := ih hback
    exact ⟨a + k, by omega, hfront.append hedits⟩
  | subst x y _ ih =>
    obtain ⟨a, b, rfl, front, back, rfl, hfront, hback⟩ := h'.uncons
    obtain ⟨k, hk, hedits⟩ := ih hback
    obtain ⟨c, hc, hsingle⟩ := edits_single x front
    have hlen := hfront.length_le
    rw [List.length_singleton] at hlen
    exact ⟨c + k, by omega, hsingle.append hedits⟩
  | insert y _ ih =>
    obtain ⟨a, b, rfl, front, back, rfl, hfront, hback⟩ := h'.uncons
    obtain ⟨k, hk, hedits⟩ := ih hback
    have hlen := hfront.length_le
    rw [List.length_singleton] at hlen
    exact ⟨front.length + k, by omega, edits_insert_all.append hedits⟩

end Edits

/-! ### The distance -/

variable [DecidableEq α]

/-- The Levenshtein distance. -/
def editDistance : List α → List α → ℕ
  | [], ys => ys.length
  | x :: xs, [] => (x :: xs).length
  | x :: xs, y :: ys =>
    min (editDistance xs ys + if x = y then 0 else 1) (min (editDistance (x :: xs) ys + 1) (editDistance xs (y :: ys) + 1))
termination_by xs ys => xs.length + ys.length

section Distance

variable {n : ℕ} {x y : α} {xs ys zs : List α}

@[simp] theorem editDistance_nil_left : editDistance [] ys = ys.length := by rw [editDistance]

@[simp] theorem editDistance_nil_right : editDistance xs [] = xs.length := by cases xs <;> rw [editDistance]

theorem editDistance_cons : editDistance (x :: xs) (y :: ys) =
    min (editDistance xs ys + if x = y then 0 else 1) (min (editDistance (x :: xs) ys + 1) (editDistance xs (y :: ys) + 1)) := by
  rw [editDistance]

/-- The distance is reached. -/
theorem edits_editDistance (xs ys : List α) : Edits (editDistance xs ys) xs ys := by
  fun_induction editDistance xs ys with
  | case1 ys => exact edits_insert_all
  | case2 x xs => exact edits_insert_all.symm
  | case3 x xs y ys ih1 ih2 ih3 =>
    rcases min_choice (editDistance xs ys + if x = y then 0 else 1)
      (min (editDistance (x :: xs) ys + 1) (editDistance xs (y :: ys) + 1)) with h | h <;> rw [h]
    · by_cases hxy : x = y
      · subst hxy
        rw [if_pos rfl]
        exact .keep x ih1
      · rw [if_neg hxy]
        exact .subst x y ih1
    · rcases min_choice (editDistance (x :: xs) ys + 1) (editDistance xs (y :: ys) + 1) with h | h <;> rw [h]
      · exact .insert y ih2
      · exact .delete x ih3

/-- No fewer edits suffice. -/
theorem Edits.le (h : Edits n xs ys) : editDistance xs ys ≤ n := by
  induction h with
  | nil => simp
  | keep x _ ih =>
    rw [editDistance_cons, if_pos rfl]
    exact (min_le_left _ _).trans ih
  | subst x y _ ih =>
    rw [editDistance_cons]
    refine (min_le_left _ _).trans (Nat.add_le_add ih ?_)
    split <;> omega
  | @insert y _ xs ys _ ih =>
    cases xs with
    | nil => simpa using ih
    | cons x xs =>
      rw [editDistance_cons]
      exact (min_le_right _ _).trans ((min_le_left _ _).trans (Nat.succ_le_succ ih))
  | @delete x _ xs ys _ ih =>
    cases ys with
    | nil => simpa using ih
    | cons y ys =>
      rw [editDistance_cons]
      exact (min_le_right _ _).trans ((min_le_right _ _).trans (Nat.succ_le_succ ih))

theorem editDistance_comm (xs ys : List α) : editDistance xs ys = editDistance ys xs :=
  le_antisymm (edits_editDistance ys xs).symm.le (edits_editDistance xs ys).symm.le

theorem editDistance_triangle (xs ys zs : List α) : editDistance xs zs ≤ editDistance xs ys + editDistance ys zs := by
  obtain ⟨k, hk, h⟩ := (edits_editDistance xs ys).trans (edits_editDistance ys zs)
  exact h.le.trans hk

theorem editDistance_reverse (xs ys : List α) : editDistance xs.reverse ys.reverse = editDistance xs ys := by
  refine le_antisymm (edits_editDistance xs ys).reverse.le ?_
  have h := (edits_editDistance xs.reverse ys.reverse).reverse.le
  rwa [List.reverse_reverse, List.reverse_reverse] at h

/-- The recursion from the back. -/
theorem editDistance_concat (xs ys : List α) (x y : α) : editDistance (xs ++ [x]) (ys ++ [y]) =
    min (editDistance xs ys + if x = y then 0 else 1)
      (min (editDistance (xs ++ [x]) ys + 1) (editDistance xs (ys ++ [y]) + 1)) := by
  rw [← editDistance_reverse (xs ++ [x]) (ys ++ [y]), ← editDistance_reverse xs ys,
    ← editDistance_reverse (xs ++ [x]) ys, ← editDistance_reverse xs (ys ++ [y]), List.reverse_concat, List.reverse_concat,
    editDistance_cons]

theorem editDistance_le_max (xs ys : List α) : editDistance xs ys ≤ max xs.length ys.length := by
  fun_induction editDistance xs ys with
  | case1 ys => exact le_max_right _ _
  | case2 x xs => exact le_max_left _ _
  | case3 x xs y ys ih1 _ _ =>
    refine (min_le_left _ _).trans ?_
    rw [List.length_cons, List.length_cons]
    split <;> omega

theorem editDistance_eq_zero : editDistance xs ys = 0 ↔ xs = ys := by
  refine ⟨fun h => (edits_editDistance xs ys).eq_of_zero h, ?_⟩
  · rintro rfl
    induction xs with
    | nil => simp
    | cons x xs ih =>
      rw [editDistance_cons, if_pos rfl, ih]
      simp

end Distance

end Deemon.EditDistance
