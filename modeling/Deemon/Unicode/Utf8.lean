import Deemon.Unicode.Chars

/-!
# Writing UTF-8

`Dee_unicode_writeutf8` writes a character of up to 32 bits in one to seven bytes, and `Dee_unicode_readutf8_n` reads
the same character back.
-/

namespace Deemon.Unicode

open Deemon.Run

/-- The last `n` bytes of the UTF-8 sequence of a character. -/
def utf8Rest (ch : ℕ) : ℕ → List ℕ
  | 0 => []
  | n + 1 => (0x80 ||| (ch >>> (6 * n) &&& 0x3f)) :: utf8Rest ch n

/-- `Dee_unicode_writeutf8`. -/
def writeUtf8 (ch : ℕ) : List ℕ :=
  if ch < 2 ^ 7 then [ch]
  else if ch < 2 ^ 11 then (0xc0 ||| ch >>> 6) :: utf8Rest ch 1
  else if ch < 2 ^ 16 then (0xe0 ||| ch >>> 12) :: utf8Rest ch 2
  else if ch < 2 ^ 21 then (0xf0 ||| ch >>> 18) :: utf8Rest ch 3
  else if ch < 2 ^ 26 then (0xf8 ||| ch >>> 24) :: utf8Rest ch 4
  else if ch < 2 ^ 31 then (0xfc ||| ch >>> 30) :: utf8Rest ch 5
  else 0xfe :: (0x80 ||| (ch >>> 30 &&& 0x03)) :: utf8Rest ch 5

/-- The UTF-8 form of a text. -/
def utf8 (chars : List ℕ) : List ℕ := chars.flatMap writeUtf8

section Read

variable {str : List ℕ} {ch n pos iter textEnd : ℕ}

@[simp] theorem length_utf8Rest : (utf8Rest ch n).length = n := by
  induction n with
  | zero => rfl
  | succ n ih => rw [utf8Rest, List.length_cons, ih]

/-- A byte shifted into the characters read so far. -/
theorem shift_or_and (x : ℕ) : (x >>> 6) <<< 6 ||| (x &&& 0x3f) = x := by
  have hlow : x &&& 0x3f = x % 2 ^ 6 := Nat.and_two_pow_sub_one_eq_mod x 6
  have hlt : x % 2 ^ 6 < 2 ^ 6 := Nat.mod_lt _ (by norm_num)
  rw [hlow, ← Nat.shiftLeft_add_eq_or_of_lt hlt, Nat.shiftLeft_eq, Nat.shiftRight_eq_div_pow]
  omega

theorem or_and_0x3f : ∀ b < 0x40, (0x80 ||| b) &&& 0x3f = b := by decide +kernel

theorem utf8Follow_rest (hch : ch < 2 ^ 32) (hlen : iter + n ≤ str.length)
    (h : ∀ i < n, cell str (iter + i) = cell (utf8Rest ch n) i) :
    utf8Follow str iter n (ch >>> (6 * n)) = some ch := by
  induction n generalizing iter with
  | zero => rfl
  | succ n ih =>
    have hbyte : cell str iter = 0x80 ||| (ch >>> (6 * n) &&& 0x3f) := h 0 (Nat.succ_pos n)
    have hsmall : ch >>> (6 * n) &&& 0x3f < 0x40 := Nat.lt_succ_of_le Nat.and_le_right
    have hshift : ch >>> (6 * (n + 1)) = ch >>> (6 * n) >>> 6 := by
      rw [← Nat.shiftRight_add, Nat.mul_add]
    have hlt : ch >>> (6 * n) < 2 ^ 32 := by
      rw [Nat.shiftRight_eq_div_pow]
      exact (Nat.div_le_self _ _).trans_lt hch
    unfold utf8Follow forLoop
    rw [rd_of_lt (by omega), some_bind, some_bind, hbyte, or_and_0x3f _ hsmall, hshift, shift_or_and,
      Nat.mod_eq_of_lt hlt]
    refine ih (by omega) fun i hi => ?_
    rw [Nat.add_assoc, Nat.add_comm 1 i]
    exact h (i + 1) (Nat.succ_lt_succ hi)

/-- What the first byte of a sequence with `n` more bytes says. -/
structure IsLead (lead n x : ℕ) : Prop where
  ge : 0xc0 ≤ lead
  lt : lead < 0xff
  seqLen : utf8SeqLen lead = n + 1
  bits : utf8Lead (n + 1) lead = x

instance {lead n x : ℕ} : Decidable (IsLead lead n x) :=
  decidable_of_iff (0xc0 ≤ lead ∧ lead < 0xff ∧ utf8SeqLen lead = n + 1 ∧ utf8Lead (n + 1) lead = x)
    ⟨fun ⟨hge, hlt, hlen, hbits⟩ => ⟨hge, hlt, hlen, hbits⟩, fun h => ⟨h.ge, h.lt, h.seqLen, h.bits⟩⟩

theorem isLead_two : ∀ x < 0x20, IsLead (0xc0 ||| x) 1 x := by decide +kernel
theorem isLead_three : ∀ x < 0x10, IsLead (0xe0 ||| x) 2 x := by decide +kernel
theorem isLead_four : ∀ x < 0x08, IsLead (0xf0 ||| x) 3 x := by decide +kernel
theorem isLead_five : ∀ x < 0x04, IsLead (0xf8 ||| x) 4 x := by decide +kernel
theorem isLead_six : ∀ x < 0x02, IsLead (0xfc ||| x) 5 x := by decide +kernel

theorem shiftRight_lt {k m : ℕ} (h : ch < 2 ^ (k + m)) : ch >>> k < 2 ^ m := by
  rw [Nat.shiftRight_eq_div_pow]
  exact Nat.div_lt_of_lt_mul (by rwa [← pow_add])

/-- A character that is not ASCII is written as a lead byte and up to six other bytes. -/
theorem writeUtf8_eq (hascii : 0x80 ≤ ch) (hch : ch < 2 ^ 32) :
    ∃ lead n, writeUtf8 ch = lead :: utf8Rest ch n ∧ 0 < n ∧ n ≤ 6 ∧ IsLead lead n (ch >>> (6 * n)) := by
  unfold writeUtf8
  rw [if_neg (by omega)]
  split_ifs with h2 h3 h4 h5 h6
  · exact ⟨_, 1, rfl, by norm_num, by norm_num, isLead_two _ (@shiftRight_lt ch 6 5 h2)⟩
  · exact ⟨_, 2, rfl, by norm_num, by norm_num, isLead_three _ (@shiftRight_lt ch 12 4 h3)⟩
  · exact ⟨_, 3, rfl, by norm_num, by norm_num, isLead_four _ (@shiftRight_lt ch 18 3 h4)⟩
  · exact ⟨_, 4, rfl, by norm_num, by norm_num, isLead_five _ (@shiftRight_lt ch 24 2 h5)⟩
  · exact ⟨_, 5, rfl, by norm_num, by norm_num, isLead_six _ (@shiftRight_lt ch 30 1 h6)⟩
  · have hsmall : ch >>> 30 < 2 ^ 2 := @shiftRight_lt ch 30 2 hch
    have hmask : ch >>> 30 &&& 0x03 = ch >>> 30 &&& 0x3f := by
      have h3 := Nat.and_two_pow_sub_one_eq_mod (ch >>> 30) 2
      have h63 := Nat.and_two_pow_sub_one_eq_mod (ch >>> 30) 6
      rw [Nat.mod_eq_of_lt hsmall] at h3
      rw [Nat.mod_eq_of_lt (hsmall.trans (by norm_num))] at h63
      exact h3.trans h63.symm
    have hzero : ch >>> (6 * 6) = 0 := by
      rw [Nat.shiftRight_eq_div_pow]
      exact Nat.div_eq_of_lt (hch.trans (by norm_num))
    refine ⟨0xfe, 6, ?_, by norm_num, le_rfl, ?_⟩
    · rw [hmask]
      rfl
    · rw [hzero]
      decide

theorem writeUtf8_ne_nil : writeUtf8 ch ≠ [] := by
  unfold writeUtf8
  split_ifs <;> exact List.cons_ne_nil _ _

/-- `Dee_unicode_readutf8_n` reads what `Dee_unicode_writeutf8` wrote. -/
theorem readUtf8N_writeUtf8 (hch : ch < 2 ^ 32) (hend : pos + (writeUtf8 ch).length ≤ textEnd)
    (hlen : textEnd ≤ str.length) (h : ∀ i < (writeUtf8 ch).length, cell str (pos + i) = cell (writeUtf8 ch) i) :
    readUtf8N str pos textEnd = some (ch, pos + (writeUtf8 ch).length) := by
  by_cases hascii : ch < 0x80
  · have hwrite : writeUtf8 ch = [ch] := if_pos hascii
    rw [hwrite] at h hend ⊢
    have hcell : cell str pos = ch := h 0 Nat.one_pos
    simp only [List.length_singleton] at hend ⊢
    rw [readUtf8N_ascii (by omega) (by omega) (by rwa [hcell]), hcell]
  · obtain ⟨lead, n, hwrite, hpos, -, hlead⟩ := writeUtf8_eq (Nat.le_of_not_lt hascii) hch
    rw [hwrite] at h hend ⊢
    simp only [List.length_cons, length_utf8Rest] at h hend ⊢
    have hfirst : cell str pos = lead := h 0 (Nat.succ_pos n)
    have hrest : ∀ i < n, cell str (pos + 1 + i) = cell (utf8Rest ch n) i := fun i hi => by
      rw [Nat.add_assoc, Nat.add_comm 1 i]
      exact h (i + 1) (Nat.succ_lt_succ hi)
    have htrunc : (if textEnd ≤ pos + 1 + (n + 1) - 1 then textEnd - (pos + 1) + 1 else n + 1) = n + 1 := by
      split_ifs <;> omega
    unfold readUtf8N
    rw [if_neg (by omega), rd_of_lt (by omega), some_bind, hfirst]
    dsimp only
    rw [if_pos hlead.ge, hlead.seqLen, htrunc, if_neg (by omega), Nat.add_sub_cancel, hlead.bits,
      utf8Follow_rest hch (by omega) hrest, some_bind]
    rw [Nat.add_right_comm, Nat.add_assoc]

theorem utf8_append (l r : List ℕ) : utf8 (l ++ r) = utf8 l ++ utf8 r := List.flatMap_append

theorem utf8_cons (l : List ℕ) : utf8 (ch :: l) = writeUtf8 ch ++ utf8 l := rfl

theorem utf8_singleton : utf8 [ch] = writeUtf8 ch := List.append_nil _

/-- The characters of a text are read one after the other. -/
theorem readUtf8N_utf8 {l r : List ℕ} (hch : ch < 2 ^ 32) :
    readUtf8N (utf8 (l ++ ch :: r)) (utf8 l).length (utf8 (l ++ ch :: r)).length =
      some (ch, (utf8 (l ++ [ch])).length) := by
  have hsplit : utf8 (l ++ ch :: r) = utf8 l ++ (writeUtf8 ch ++ utf8 r) := by rw [utf8_append, utf8_cons]
  have hlen : (utf8 (l ++ [ch])).length = (utf8 l).length + (writeUtf8 ch).length := by
    rw [utf8_append, utf8_singleton, List.length_append]
  rw [hlen]
  refine readUtf8N_writeUtf8 hch ?_ le_rfl fun i hi => ?_
  · rw [hsplit, List.length_append, List.length_append]
    omega
  · unfold cell
    rw [hsplit, List.getD_append_right _ _ _ _ (Nat.le_add_right _ i), Nat.add_sub_cancel_left,
      List.getD_append _ _ _ _ hi]

end Read

end Deemon.Unicode
