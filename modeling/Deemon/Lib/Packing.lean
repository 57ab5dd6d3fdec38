import Deemon.Lib.Radix
import Mathlib.Data.Nat.Size

/-!
# Repacking a number through a bit accumulator

Code that turns digits of one width into digits of another keeps the bits in between in an accumulator: a new
digit is or-ed in above the bits that are there (`Packed.push`), and while there are enough of them the low
`w` bits are stored (`Packed.pop`). `Packed` is the invariant of both steps. The second section is the
`dec(); inv();` idiom such code negates a number in place with.
-/

namespace Deemon.Radix

open Deemon.Run

/-- `n` bits, which make the number `v`, have been taken in: the cells `s, …, s + k - 1` hold `w` of them each
and the accumulator `temp` the other `numBits`. -/
structure Packed (w : ℕ) (out : List ℕ) (s k temp numBits v n : ℕ) : Prop where
  value : seg (2 ^ w) out s k + temp * 2 ^ (w * k) = v
  below : Below (2 ^ w) out s k
  temp_lt : temp < 2 ^ numBits
  bits : w * k + numBits = n

variable {w s k temp numBits v n : ℕ} {out : List ℕ}

theorem Packed.zero : Packed w out s 0 0 0 0 0 :=
  ⟨by simp, fun i hi => by omega, by simp, by simp⟩

theorem Packed.push {d m : ℕ} (h : Packed w out s k temp numBits v n) (hd : d < 2 ^ m) :
    Packed w out s k (temp ||| d <<< numBits) (numBits + m) (v + d * 2 ^ n) (n + m) := by
  have hor : temp ||| d <<< numBits = temp + d * 2 ^ numBits := by
    rw [Nat.or_comm, ← Nat.shiftLeft_add_eq_or_of_lt h.temp_lt, Nat.shiftLeft_eq, Nat.add_comm]
  have hlt : (d + 1) * 2 ^ numBits ≤ 2 ^ m * 2 ^ numBits := Nat.mul_le_mul_right _ hd
  have hbits := h.bits
  refine ⟨?_, h.below, ?_, by omega⟩
  · rw [hor, ← h.value, ← hbits, pow_add]
    ring
  · rw [hor, Nat.add_comm numBits, pow_add]
    have := h.temp_lt
    rw [Nat.add_mul] at hlt
    omega

theorem Packed.pop (h : Packed w out s k temp numBits v n) (hw : w ≤ numBits) (hlen : s + k < out.length) :
    Packed w (out.set (s + k) (temp % 2 ^ w)) s (k + 1) (temp >>> w) (numBits - w) v n := by
  have hbits := h.bits
  have hpos : 0 < 2 ^ w := Nat.two_pow_pos w
  refine ⟨?_, (h.below.set (Nat.mod_lt _ hpos)).succ ?_, ?_, ?_⟩
  · have hcarry := seg_carry (B := 2 ^ w) (l := out) (s := s) (n := k) (x := temp) hlen
    rw [Nat.shiftRight_eq_div_pow, ← h.value, pow_mul, pow_mul]
    exact hcarry
  · rw [cell_set_self hlen]
    exact Nat.mod_lt _ hpos
  · rw [Nat.shiftRight_eq_div_pow]
    refine Nat.div_lt_of_lt_mul ?_
    rw [← pow_add, Nat.add_sub_cancel' hw]
    exact h.temp_lt
  · rw [Nat.mul_succ]
    omega

/-- Bits above the ones that count are zero, so that masking them out changes nothing. -/
theorem Packed.mask (h : Packed w out s k temp numBits v n) : temp &&& (1 <<< numBits - 1) = temp := by
  rw [Nat.one_shiftLeft, Nat.and_two_pow_sub_one_eq_mod, Nat.mod_eq_of_lt h.temp_lt]

/-- The accumulator is written last, as a partial digit of its own. -/
theorem Packed.last (h : Packed w out s k temp numBits v n) (hw : numBits ≤ w) (hlen : s + k < out.length) :
    seg (2 ^ w) (out.set (s + k) temp) s (k + 1) = v ∧ Below (2 ^ w) (out.set (s + k) temp) s (k + 1) := by
  have htemp : temp < 2 ^ w := lt_of_lt_of_le h.temp_lt (Nat.pow_le_pow_right (by norm_num) hw)
  refine ⟨?_, (h.below.set htemp).succ ?_⟩
  · rw [seg_set_last hlen, ← h.value, pow_mul]
  · rwa [cell_set_self hlen]

/-- With nothing left in the accumulator the cells are the number. -/
theorem Packed.done (h : Packed w out s k temp 0 v n) : seg (2 ^ w) out s k = v := by
  have htemp : temp = 0 := by simpa using h.temp_lt
  have hvalue := h.value
  rwa [htemp, Nat.zero_mul, Nat.add_zero] at hvalue

/-- The bits of a number are those of its top digit and of the places below. -/
theorem size_add_mul {low b k : ℕ} (hlow : low < 2 ^ k) (hb : b ≠ 0) : (low + b * 2 ^ k).size = k + b.size := by
  have hsize : b.size ≠ 0 := fun h => hb (Nat.size_eq_zero.mp h)
  refine le_antisymm (Nat.size_le.mpr ?_) ?_
  · have hlt : (b + 1) * 2 ^ k ≤ 2 ^ b.size * 2 ^ k := Nat.mul_le_mul_right _ (Nat.lt_size_self _)
    rw [← pow_add, Nat.add_comm _ k, Nat.add_mul] at hlt
    omega
  · have hle : 2 ^ (b.size - 1) * 2 ^ k ≤ b * 2 ^ k := Nat.mul_le_mul_right _ (Nat.lt_size.mp (by omega))
    rw [← pow_add] at hle
    have := Nat.lt_size.mpr (le_trans hle (Nat.le_add_left (b * 2 ^ k) low))
    omega

/-- The loop that counts down from `n` while the bit below is zero finds the number of bits. -/
theorem trim_ends {p : ℕ → Prop} [DecidablePred p] {x fuel : ℕ} (hp : ∀ b, p b ↔ b ≠ 0 ∧ x.testBit (b - 1) = false)
    (hx : x < 2 ^ n) (hfuel : n < fuel) :
    Ends (loop (fun b => some (if p b then Step.next (b - 1) else .done b)) fuel n) fun b => b = x.size := by
  refine loop_ends (fun b => x < 2 ^ b) id hx hfuel ?_
  intro b hlt
  refine Ends.pure ?_
  split_ifs with hnext
  · rw [hp] at hnext
    refine ⟨?_, by simp only [id]; omega⟩
    obtain ⟨k, rfl⟩ : ∃ k, b = k + 1 := ⟨b - 1, by omega⟩
    exact Nat.lt_pow_two_of_testBit _ fun i hi => by
      rcases Nat.eq_or_lt_of_le hi with rfl | hi
      · exact hnext.2
      · exact Nat.testBit_lt_two_pow (lt_of_lt_of_le hlt (Nat.pow_le_pow_right (by norm_num) hi))
  · change b = x.size
    refine le_antisymm ?_ (Nat.size_le.mpr hlt)
    rcases Nat.eq_zero_or_pos b with rfl | hpos
    · exact Nat.zero_le _
    have hbit : x.testBit (b - 1) = true := by
      by_contra hne
      exact hnext ((hp b).mpr ⟨by omega, by simpa using hne⟩)
    have := Nat.lt_size.mpr (Nat.ge_two_pow_of_testBit hbit)
    omega

/-! ### Negation in place -/

variable {B : ℕ} {l l' : List ℕ}

/-- All cells at their greatest value: one less than the next power. -/
theorem seg_max (hB : 0 < B) (h : ∀ i < n, cell l (s + i) = B - 1) : seg B l s n + 1 = B ^ n := by
  induction n with
  | zero => simp
  | succ n ih =>
    have hsplit : (B - 1) * B ^ n + B ^ n = B ^ (n + 1) := by
      rw [← Nat.succ_mul, Nat.succ_eq_add_one, Nat.sub_add_cancel hB, pow_succ']
    have := ih fun i hi => h i (by omega)
    rw [seg_succ, h n (by omega)]
    omega

/-- The borrow of a decrement stops at the first cell that is not zero. -/
theorem seg_decrement {i N : ℕ} (hB : 0 < B) (hi : i < N) (hzero : ∀ j < i, cell l j = 0)
    (hmax : ∀ j < i, cell l' j = B - 1) (hcell : cell l' i + 1 = cell l i)
    (hout : ∀ j, i < j → cell l' j = cell l j) : seg B l' 0 N + 1 = seg B l 0 N := by
  obtain ⟨k, rfl⟩ : ∃ k, N = i + 1 + k := ⟨N - (i + 1), by omega⟩
  have hhigh : seg B l' (0 + (i + 1)) k = seg B l (0 + (i + 1)) k :=
    seg_congr fun j _ => hout _ (by omega)
  have hlow : seg B l 0 i = 0 := seg_eq_zero fun j hj => by rw [Nat.zero_add, hzero j hj]
  have hfull : seg B l' 0 i + 1 = B ^ i := seg_max hB fun j hj => by rw [Nat.zero_add, hmax j hj]
  rw [seg_add, seg_add (l := l), seg_succ, seg_succ, hhigh, hlow, Nat.zero_add, ← hcell, Nat.add_mul]
  omega

/-- The last step of a decrement that has borrowed through `i` zero cells. -/
theorem decrement_last {i N : ℕ} (hB : 0 < B) (hsame : SameOut l l' 0 i)
    (hborrow : ∀ j < i, cell l j = 0 ∧ cell l' j = B - 1) (hi : i < N) (hN : N ≤ l.length) (hpos : cell l i ≠ 0)
    (hbelow : Below B l 0 N) : SameOut l (l'.set i (cell l i - 1)) 0 N ∧
      seg B (l'.set i (cell l i - 1)) 0 N + 1 = seg B l 0 N ∧ Below B (l'.set i (cell l i - 1)) 0 N := by
  have hlen := hsame.length
  have hout : SameOut l (l'.set i (cell l i - 1)) 0 N :=
    (hsame.mono le_rfl (by omega)).trans (SameOut.set.mono (Nat.zero_le _) (by omega))
  have hcell : cell (l'.set i (cell l i - 1)) i = cell l i - 1 := cell_set_self (by omega)
  have hmax : ∀ j < i, cell (l'.set i (cell l i - 1)) j = B - 1 := fun j hj => by
    rw [cell_set_of_ne (by omega), (hborrow j hj).2]
  have hhigh : ∀ j, i < j → cell (l'.set i (cell l i - 1)) j = cell l j := fun j hj => by
    rw [cell_set_of_ne (by omega), hsame.out _ (by omega)]
  refine ⟨hout, seg_decrement hB hi (fun j hj => (hborrow j hj).1) hmax (by omega) hhigh, fun j hj => ?_⟩
  have hj' := hbelow j hj
  rw [Nat.zero_add] at hj' ⊢
  rcases lt_trichotomy j i with h | rfl | h
  · rw [hmax j h]
    omega
  · omega
  · rw [hhigh j h]
    exact hj'

/-- Inverting every digit subtracts from the greatest number. -/
theorem seg_invert {N : ℕ} (h : ∀ i < N, cell l' i + cell l i + 1 = B) :
    seg B l' 0 N + seg B l 0 N + 1 = B ^ N := by
  induction N with
  | zero => simp
  | succ N ih =>
    have hN : (cell l' N + cell l N + 1) * B ^ N = B * B ^ N := by rw [h N (by omega)]
    rw [seg_succ, seg_succ, Nat.zero_add, pow_succ']
    have := ih fun i hi => h i (by omega)
    rw [Nat.add_mul, Nat.add_mul] at hN
    omega

end Deemon.Radix
