import Mathlib.Data.List.Count
import Mathlib.Data.List.Induction
import Mathlib.Order.Lattice

/-!
# Removing the first matches in a range

What the functions are for that go over the elements from `start` to `min(end, size)` of a sequence and remove at most
`max` of them.
-/

namespace Deemon.Collections

variable {α : Type}

/-! ### What is removed -/

/-- A list without the first `max` elements that match. -/
def removeFirst (f : α → Bool) : ℕ → List α → List α
  | 0, xs => xs
  | _ + 1, [] => []
  | max + 1, x :: xs => if f x then removeFirst f max xs else x :: removeFirst f (max + 1) xs

/-- How many elements are compared until `max` of them have matched. -/
def comparisons (f : α → Bool) : ℕ → List α → ℕ
  | 0, _ => 0
  | _ + 1, [] => 0
  | max + 1, x :: xs => 1 + if f x then comparisons f max xs else comparisons f (max + 1) xs

/-- The elements from `start` to `min(end, size)`. -/
def inRange (start stop : ℕ) (xs : List α) : List α := (xs.take stop).drop start

/-- A list whose elements from `start` to `min(end, size)` were replaced. -/
def replaceRange (start stop : ℕ) (xs items : List α) : List α :=
  xs.take start ++ items ++ xs.drop (max start (min stop xs.length))

section Lists

variable {f : α → Bool} {max start stop : ℕ} {xs A B : List α} {m : α}

theorem removeFirst_skip (hA : ∀ a ∈ A, f a = false) : removeFirst f max (A ++ B) = A ++ removeFirst f max B := by
  induction A with
  | nil => rfl
  | cons a A ih =>
    cases max with
    | zero => rw [removeFirst, removeFirst]
    | succ max =>
      rw [List.cons_append, removeFirst, if_neg (by rw [hA a List.mem_cons_self]; exact Bool.false_ne_true),
        ih fun x hx => hA x (List.mem_cons_of_mem _ hx), List.cons_append]

theorem removeFirst_nil : removeFirst f max [] = [] := by cases max <;> rfl

section Skip

variable (hA : ∀ a ∈ A, f a = false)
include hA

theorem removeFirst_match (hm : f m = true) : removeFirst f (max + 1) (A ++ m :: B) = A ++ removeFirst f max B := by
  rw [removeFirst_skip hA, removeFirst, if_pos hm]

theorem removeFirst_none : removeFirst f max A = A := by
  have h := @removeFirst_skip α f max A [] hA
  rwa [removeFirst_nil, List.append_nil] at h

theorem comparisons_skip : comparisons f (max + 1) (A ++ B) = A.length + comparisons f (max + 1) B := by
  induction A with
  | nil => rw [List.nil_append, List.length_nil, Nat.zero_add]
  | cons a A ih =>
    rw [List.cons_append, comparisons, if_neg (by rw [hA a List.mem_cons_self]; exact Bool.false_ne_true),
      ih fun x hx => hA x (List.mem_cons_of_mem _ hx), List.length_cons]
    omega

theorem comparisons_match (hm : f m = true) :
    comparisons f (max + 1) (A ++ m :: B) = A.length + 1 + comparisons f max B := by
  rw [comparisons_skip hA, comparisons, if_pos hm, Nat.add_assoc]

theorem comparisons_none : comparisons f (max + 1) A = A.length := by
  have h := @comparisons_skip α f max A [] hA
  rwa [List.append_nil, comparisons, Nat.add_zero] at h

end Skip

theorem comparisons_pos {max : ℕ} (hB : B ≠ []) : 0 < comparisons f (max + 1) B := by
  cases B with
  | nil => exact absurd rfl hB
  | cons b B =>
    rw [comparisons]
    omega

theorem countP_none (hA : ∀ a ∈ A, f a = false) : A.countP f = 0 := by
  rw [List.countP_eq_zero]
  intro a ha
  rw [hA a ha]
  exact Bool.false_ne_true

/-- No element matches, or there is a first one. -/
theorem firstMatch (f : α → Bool) (xs : List α) : (∀ a ∈ xs, f a = false) ∨
    ∃ A m B, xs = A ++ m :: B ∧ (∀ a ∈ A, f a = false) ∧ f m = true := by
  induction xs with
  | nil => exact .inl fun a ha => by cases ha
  | cons x xs ih =>
    cases hx : f x with
    | true => exact .inr ⟨[], x, xs, rfl, fun a ha => absurd ha List.not_mem_nil, hx⟩
    | false =>
      rcases ih with hall | ⟨A, m, B, rfl, hA, hm⟩
      · exact .inl (List.forall_mem_cons.mpr ⟨hx, hall⟩)
      · exact .inr ⟨x :: A, m, B, rfl, List.forall_mem_cons.mpr ⟨hx, hA⟩, hm⟩

theorem inRange_length : (inRange start stop xs).length = min stop xs.length - start := by
  rw [inRange, List.length_drop, List.length_take]

theorem inRange_getElem? {i : ℕ} (h : start + i < stop) : (inRange start stop xs)[i]? = xs[start + i]? := by
  rw [inRange, List.getElem?_drop, List.getElem?_take_of_lt h]

/-- The elements in front of a range, in it and behind it. -/
structure Splits (start stop : ℕ) (xs P seg R : List α) : Prop where
  eq : xs = P ++ (seg ++ R)
  length : P.length = start
  bound : start + seg.length ≤ stop
  /-- The range ends at `end` or with the list. -/
  ends : R = [] ∨ start + seg.length = stop

theorem inRange_split (h : start < min stop xs.length) :
    Splits start stop xs (xs.take start) (inRange start stop xs) (xs.drop (min stop xs.length)) := by
  have hlength := @inRange_length _ start stop xs
  refine ⟨?_, List.length_take_of_le (by omega), by omega, ?_⟩
  · have hsplit : xs.drop start = (xs.drop start).take (min stop xs.length - start) ++ xs.drop (min stop xs.length) := by
      conv_lhs => rw [← List.take_append_drop (min stop xs.length - start) (xs.drop start), List.drop_drop,
        Nat.add_sub_cancel' h.le]
    have hrange : inRange start stop xs = (xs.drop start).take (min stop xs.length - start) := by
      rw [inRange, List.drop_take, List.take_eq_take_iff, List.length_drop]
      omega
    rw [hrange, ← hsplit, List.take_append_drop]
  · rcases Nat.lt_or_ge stop xs.length with hlt | hge
    · exact .inr (by omega)
    · exact .inl (List.drop_of_length_le (by omega))

theorem replaceRange_split (h : start < min stop xs.length) (items : List α) :
    replaceRange start stop xs items = xs.take start ++ (items ++ xs.drop (min stop xs.length)) := by
  rw [replaceRange, max_eq_right h.le, List.append_assoc]

theorem inRange_nil (h : min stop xs.length ≤ start) : inRange start stop xs = [] := by
  rw [← List.length_eq_zero_iff, inRange_length]
  omega

theorem replaceRange_nil (h : min stop xs.length ≤ start) : replaceRange start stop xs [] = xs := by
  rw [replaceRange, max_eq_left h, List.append_nil, List.take_append_drop]

theorem replaceRange_inRange (start stop : ℕ) (xs : List α) : replaceRange start stop xs (inRange start stop xs) = xs := by
  rcases Nat.lt_or_ge start (min stop xs.length) with hlt | hge
  · rw [replaceRange_split hlt, ← (inRange_split hlt).eq]
  · rw [inRange_nil hge, replaceRange_nil hge]

end Lists

end Deemon.Collections
