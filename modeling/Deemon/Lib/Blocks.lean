import Mathlib.Data.List.Basic
import Mathlib.Tactic.Ring

/-!
# Blocks and windows of a list

A list stored in blocks of one size is the concatenation of the blocks, and cell `c` of block `b` is its item
`b * n + c`. A window is a part of a list given by its start and its length.
-/

namespace Deemon.Blocks

variable {β : Type}

/-! ### Blocks -/

/-- All blocks have `n` cells. -/
def Uniform (n : ℕ) (blocks : List (List β)) : Prop := ∀ l ∈ blocks, l.length = n

section Uniform

variable {n b c : ℕ} {blocks : List (List β)} {l : List β}

theorem Uniform.cons (hl : l.length = n) (h : Uniform n blocks) : Uniform n (l :: blocks) := fun k hk => by
  rcases List.mem_cons.mp hk with rfl | hk
  · exact hl
  · exact h k hk

theorem Uniform.of_cons (h : Uniform n (l :: blocks)) : Uniform n blocks := fun k hk => h k (List.mem_cons_of_mem _ hk)

section Uniform

variable (h : Uniform n blocks)
include h

theorem Uniform.concat (hl : l.length = n) : Uniform n (blocks ++ [l]) := fun k hk => by
  rcases List.mem_append.mp hk with hk | hk
  · exact h k hk
  · rw [List.mem_singleton.mp hk, hl]

theorem Uniform.dropLast : Uniform n blocks.dropLast := fun k hk =>
  h k ((List.dropLast_sublist _).subset hk)

theorem Uniform.length_flatten : blocks.flatten.length = blocks.length * n := by
  induction blocks with
  | nil => simp
  | cons l blocks ih =>
    rw [List.flatten_cons, List.length_append, ih h.of_cons, h l (List.mem_cons_self ..), List.length_cons]
    ring

theorem Uniform.getElem?_flatten (hl : blocks[b]? = some l) (hc : c < n) : blocks.flatten[b * n + c]? = l[c]? := by
  induction blocks generalizing b with
  | nil => simp at hl
  | cons k blocks ih =>
    have hk : k.length = n := h k (List.mem_cons_self ..)
    rw [List.flatten_cons]
    cases b with
    | zero =>
      obtain rfl : k = l := Option.some.inj hl
      rw [Nat.zero_mul, Nat.zero_add, List.getElem?_append_left (by omega)]
    | succ b =>
      rw [List.getElem?_cons_succ] at hl
      rw [List.getElem?_append_right (by rw [Nat.succ_mul]; omega), ← ih h.of_cons hl, hk]
      congr 1
      rw [Nat.succ_mul]
      omega

theorem Uniform.flatten_set (hl : blocks[b]? = some l) (hc : c < n) (v : β) :
    (blocks.set b (l.set c v)).flatten = blocks.flatten.set (b * n + c) v := by
  induction blocks generalizing b with
  | nil => simp at hl
  | cons k blocks ih =>
    have hk : k.length = n := h k (List.mem_cons_self ..)
    cases b with
    | zero =>
      obtain rfl : k = l := Option.some.inj hl
      rw [List.set_cons_zero, List.flatten_cons, List.flatten_cons, Nat.zero_mul, Nat.zero_add,
        List.set_append_left _ _ (by omega)]
    | succ b =>
      rw [List.getElem?_cons_succ] at hl
      rw [List.set_cons_succ, List.flatten_cons, List.flatten_cons, ih h.of_cons hl,
        List.set_append_right _ _ (by rw [Nat.succ_mul]; omega), hk]
      congr 2
      rw [Nat.succ_mul]
      omega

theorem Uniform.set (hl : l.length = n) (b : ℕ) : Uniform n (blocks.set b l) := fun k hk => by
  rcases List.mem_or_eq_of_mem_set hk with hk | rfl
  · exact h k hk
  · exact hl

theorem Uniform.flatten_dropLast : blocks.dropLast.flatten = blocks.flatten.take ((blocks.length - 1) * n) := by
  rcases List.eq_nil_or_concat' blocks with rfl | ⟨init, l, rfl⟩
  · simp
  · have hinit : Uniform n init := fun k hk => h k (List.mem_append_left _ hk)
    rw [List.dropLast_concat, List.flatten_append, List.length_append, List.length_singleton, Nat.add_sub_cancel,
      ← hinit.length_flatten, List.take_left]

end Uniform

end Uniform

/-! ### Windows -/

/-- The `len` items of a list from `start` on. -/
def window (l : List β) (start len : ℕ) : List β := (l.drop start).take len

section Window

variable {l l' : List β} {start len p : ℕ} {v : β}

theorem getElem?_window {i : ℕ} (h : i < len) : (window l start len)[i]? = l[start + i]? := by
  unfold window
  rw [List.getElem?_take_of_lt h, List.getElem?_drop]

theorem length_window (h : start + len ≤ l.length) : (window l start len).length = len := by
  unfold window
  rw [List.length_take, List.length_drop]
  omega

@[simp] theorem window_zero : window l start 0 = [] := List.take_zero

theorem window_all (h : l.length = len) : window l 0 len = l := List.take_of_length_le h.le

/-- Lists with the same items in a window have the same window. -/
theorem window_congr {start' : ℕ} (h : ∀ i < len, l[start + i]? = l'[start' + i]?) :
    window l start len = window l' start' len := by
  refine List.ext_getElem? fun i => ?_
  by_cases hi : i < len
  · rw [getElem?_window hi, getElem?_window hi, h i hi]
  · have hout : ∀ (k : List β) (s : ℕ), (window k s len)[i]? = none := fun k s =>
      List.getElem?_eq_none ((List.length_take_le ..).trans (by omega))
    rw [hout, hout]

theorem window_succ_right (h : l[start + len]? = some v) : window l start (len + 1) = window l start len ++ [v] := by
  unfold window
  rw [List.take_add_one, List.getElem?_drop, h]
  rfl

theorem window_succ_left (h : l[start]? = some v) : window l start (len + 1) = v :: window l (start + 1) len := by
  obtain ⟨hlt, rfl⟩ := List.getElem?_eq_some_iff.mp h
  unfold window
  rw [List.drop_eq_getElem_cons hlt, List.take_succ_cons]

theorem window_set (hlo : start ≤ p) :
    window (l.set p v) start len = (window l start len).set (p - start) v := by
  unfold window
  rw [List.drop_set, if_neg (by omega), List.take_set]

theorem window_set_of_out (h : p < start ∨ start + len ≤ p) : window (l.set p v) start len = window l start len :=
  window_congr fun i hi => List.getElem?_set_ne (by omega)

theorem window_append_left (h : start + len ≤ l.length) : window (l ++ l') start len = window l start len :=
  window_congr fun i hi => List.getElem?_append_left (by omega)

theorem window_append_right : window (l ++ l') (l.length + start) len = window l' start len :=
  window_congr fun i _ => by
    rw [List.getElem?_append_right (by omega)]
    congr 1
    omega

/-- A window that goes from the end of one list into the next. -/
theorem window_append {len' : ℕ} (h : start + len = l.length) :
    window (l ++ l') start (len + len') = window l start len ++ window l' 0 len' := by
  have hlen : (l.drop start).length = len := by
    rw [List.length_drop]
    omega
  have hall : ∀ m, len ≤ m → (l.drop start).take m = l.drop start := fun m hm => List.take_of_length_le (by omega)
  unfold window
  rw [List.drop_append_of_le_length (by omega), List.take_append, hlen, Nat.add_sub_cancel_left, List.drop_zero,
    hall len le_rfl, hall (len + len') (by omega)]

theorem window_take {m : ℕ} (h : start + len ≤ m) : window (l.take m) start len = window l start len :=
  window_congr fun i hi => List.getElem?_take_of_lt (by omega)

end Window

end Deemon.Blocks
