import Deemon.Lib.Run

/-!
# Copies between buffers

What the loops that copy cells leave behind, as lists: the part in front, the copied cells, and the part behind.
-/

namespace Deemon.Run

variable {dst src : List ℕ} {d s n : ℕ}

/-- `while (n--) *dst++ = f(*src++)`. -/
def mapCells (f : ℕ → ℕ) (dst : List ℕ) (d : ℕ) (src : List ℕ) (s n : ℕ) : Option (List ℕ) :=
  forLoop (fun i dst => do wr dst (d + i) (f (← rd src (s + i)))) 0 n dst

/-- The rounds from `k` on, with the cells that they read and the cells that they replace. -/
theorem mapCells_rounds (f : ℕ → ℕ) (pre old post read rest : List ℕ) (k : ℕ) (hpre : pre.length = d + k)
    (hold : old.length = read.length) (hsrc : src.drop (s + k) = read ++ rest) :
    forLoop (fun i dst => do wr dst (d + i) (f (← rd src (s + i)))) k read.length (pre ++ (old ++ post)) =
      some (pre ++ (read.map f ++ post)) := by
  induction read generalizing k pre old with
  | nil =>
    rw [List.length_nil, List.length_eq_zero_iff] at hold
    rw [hold]
    rfl
  | cons x read ih =>
    obtain ⟨y, old, rfl⟩ : ∃ y ys, old = y :: ys := List.exists_cons_of_length_pos (by rw [hold]; exact Nat.succ_pos _)
    have hlt : s + k < src.length := by
      have := congrArg List.length hsrc
      simp at this
      omega
    have hx : cell src (s + k) = x := by
      have := congrArg (fun l => l[0]?) hsrc
      simp only [List.getElem?_drop, Nat.add_zero, List.cons_append, List.getElem?_cons_zero] at this
      rw [cell, List.getD_eq_getElem?_getD, this]
      rfl
    have hwr : wr (pre ++ (y :: old ++ post)) (d + k) (f x) = some (pre ++ [f x] ++ (old ++ post)) := by
      rw [wr_of_lt (by simp; omega), ← hpre]
      simp
    rw [List.length_cons, forLoop, rd_of_lt hlt, some_bind, hx, hwr, some_bind]
    rw [ih (pre ++ [f x]) old (k + 1) (by simp; omega) (by simpa using hold)
      (by rw [← Nat.add_assoc, ← List.drop_drop, hsrc]; rfl)]
    simp

theorem mapCells_eq (f : ℕ → ℕ) (hd : d + n ≤ dst.length) (hs : s + n ≤ src.length) :
    mapCells f dst d src s n = some (dst.take d ++ (((src.drop s).take n).map f ++ dst.drop (d + n))) := by
  have hread : ((src.drop s).take n).length = n := by
    simp
    omega
  have hsplit : dst = dst.take d ++ ((dst.drop d).take n ++ dst.drop (d + n)) := by
    rw [← List.drop_drop, List.take_append_drop, List.take_append_drop]
  have hrounds := mapCells_rounds (d := d) (s := s) f (dst.take d) ((dst.drop d).take n) (dst.drop (d + n)) ((src.drop s).take n)
    ((src.drop s).drop n) 0 (by simp; omega) (by simp; omega) (List.take_append_drop n _).symm
  rw [hread, ← hsplit] at hrounds
  exact hrounds

theorem copyCells_eq (hd : d + n ≤ dst.length) (hs : s + n ≤ src.length) :
    copyCells dst d src s n = some (dst.take d ++ ((src.drop s).take n ++ dst.drop (d + n))) := by
  have := mapCells_eq id hd hs
  rwa [List.map_id] at this

end Deemon.Run
