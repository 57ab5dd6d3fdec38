import Deemon.Unicode.Utf8
import Mathlib.Data.List.Induction

/-!
# Reading UTF-8 backwards

`Dee_unicode_readutf8_rev_n` scans back to the first byte of a sequence and then takes the other bytes from that byte on,
and not from the byte behind it. So it stops at the right characters, but gives them right only if the last byte does
not matter.
-/

namespace Deemon.Unicode

open Deemon.Run

/-- The characters of a text from its start on, each with its position. -/
def readForwards (text : List ℕ) : Option (List (ℕ × ℕ)) :=
  loop (fun (pos, chars) =>
    if text.length ≤ pos then some (.done chars)
    else do
      let (ch, next) ← readUtf8N text pos text.length
      some (.next (next, chars ++ [(ch, pos)]))) (text.length + 1) (0, [])

/-- The characters of a text from its end back, each with its position. -/
def readBackwards (text : List ℕ) : Option (List (ℕ × ℕ)) :=
  loop (fun (pos, chars) =>
    if pos = 0 then some (.done chars)
    else do
      let (ch, start) ← readUtf8RevN text pos 0
      some (.next (start, chars ++ [(ch, start)]))) (text.length + 1) (text.length, [])

/-- `result <<= 6, result |= (b & 0x3f)`, in 32 bits. -/
def utf8Shift (result b : ℕ) : ℕ := (result <<< 6 ||| (b &&& 0x3f)) % 2 ^ 32

/-- What is read backwards for a character. -/
def readBackAs (ch : ℕ) : ℕ :=
  match writeUtf8 ch with
  | lead :: b :: rest => ((lead :: b :: rest).dropLast).foldl utf8Shift (utf8Lead (rest.length + 2) lead)
  | _ => ch

/-- The characters that are read back: all bytes carry the same bits. -/
def ReadsBack (ch : ℕ) : Prop :=
  ∀ b ∈ (writeUtf8 ch).tail,
    b &&& 0x3f = (writeUtf8 ch).headD 0 &&& if (writeUtf8 ch).length < 7 then 0x3f else 0x03

instance (ch : ℕ) : Decidable (ReadsBack ch) := inferInstanceAs (Decidable (∀ b ∈ _, _ = _))

section Read

variable {str bytes bytes' l r : List ℕ} {ch lead n pos iter x y : ℕ}

/-! ### The bytes of a sequence -/

theorem utf8Follow_eq (hlen : iter + bytes.length ≤ str.length)
    (h : ∀ i < bytes.length, cell str (iter + i) = cell bytes i) :
    utf8Follow str iter bytes.length x = some (bytes.foldl utf8Shift x) := by
  induction bytes generalizing iter x with
  | nil => rfl
  | cons b bytes ih =>
    rw [List.length_cons] at hlen h
    have hb : cell str iter = b := h 0 (Nat.succ_pos _)
    rw [List.length_cons]
    unfold utf8Follow forLoop
    rw [rd_of_lt (by omega), some_bind, some_bind, hb]
    refine ih (by omega) fun i hi => ?_
    rw [Nat.add_assoc, Nat.add_comm 1 i]
    exact h (i + 1) (Nat.succ_lt_succ hi)

theorem and_0x3f (b : ℕ) : b &&& 0x3f = b % 64 := Nat.and_two_pow_sub_one_eq_mod b 6

theorem utf8Shift_eq (x b : ℕ) : utf8Shift x b = (64 * x + b % 64) % 2 ^ 32 := by
  have hlt : b % 64 < 2 ^ 6 := Nat.mod_lt _ (by norm_num)
  rw [utf8Shift, and_0x3f, ← Nat.shiftLeft_add_eq_or_of_lt hlt, Nat.shiftLeft_eq, Nat.mul_comm]

theorem utf8Shift_lt (x b : ℕ) : utf8Shift x b < 2 ^ 32 := Nat.mod_lt _ (by norm_num)

/-- Two sequences of up to five bytes are read the same only if they start the same and carry the same bits. -/
theorem foldl_utf8Shift_inj (hlen : bytes.length = bytes'.length) (hsmall : bytes.length ≤ 5) (hx : x < 2 ^ 32)
    (hy : y < 2 ^ 32) :
    bytes.foldl utf8Shift x = bytes'.foldl utf8Shift y ↔
      x % 2 ^ (32 - 6 * bytes.length) = y % 2 ^ (32 - 6 * bytes.length) ∧
        bytes.map (· % 64) = bytes'.map (· % 64) := by
  induction bytes generalizing bytes' x y with
  | nil =>
    obtain rfl := List.length_eq_zero_iff.mp hlen.symm
    rw [List.length_nil, Nat.mul_zero, Nat.sub_zero, Nat.mod_eq_of_lt hx, Nat.mod_eq_of_lt hy]
    exact (and_iff_left rfl).symm
  | cons b bytes ih =>
    cases bytes' with
    | nil => cases hlen
    | cons b' bytes' =>
      simp only [List.length_cons] at hlen hsmall ⊢
      have hmod : 2 ^ (32 - 6 * bytes.length) = 64 * 2 ^ (32 - 6 * (bytes.length + 1)) := by
        rw [show 32 - 6 * bytes.length = 6 + (32 - 6 * (bytes.length + 1)) by omega, pow_add]
        norm_num
      have hdvd : 2 ^ (32 - 6 * bytes.length) ∣ 2 ^ 32 := pow_dvd_pow 2 (Nat.sub_le _ _)
      have hstep : ∀ z c : ℕ, (64 * z + c % 64) % (64 * 2 ^ (32 - 6 * (bytes.length + 1))) =
          64 * (z % 2 ^ (32 - 6 * (bytes.length + 1))) + c % 64 := by
        intro z c
        have hlt : c % 64 < 64 := Nat.mod_lt _ (by norm_num)
        rw [Nat.mod_mul, Nat.mul_add_mod, Nat.mod_eq_of_lt hlt, Nat.mul_add_div (by norm_num), Nat.div_eq_of_lt hlt,
          Nat.add_zero, Nat.add_comm]
      rw [List.foldl_cons, List.foldl_cons, ih (Nat.succ.inj hlen) (by omega), utf8Shift_eq, utf8Shift_eq,
        Nat.mod_mod_of_dvd _ hdvd, Nat.mod_mod_of_dvd _ hdvd, hmod, hstep, hstep, List.map_cons, List.map_cons,
        List.cons.injEq]
      · constructor
        · rintro ⟨h, htail⟩
          exact ⟨by omega, by omega, htail⟩
        · rintro ⟨h, hb, htail⟩
          exact ⟨by omega, htail⟩
      · exact utf8Shift_lt _ _
      · exact utf8Shift_lt _ _

theorem cons_dropLast_eq {a : ℕ} {l : List ℕ} (hl : l ≠ []) : a :: l.dropLast = l ↔ ∀ b ∈ l, b = a := by
  induction l generalizing a with
  | nil => exact absurd rfl hl
  | cons c l ih =>
    cases l with
    | nil => simp [eq_comm]
    | cons d l =>
      rw [List.dropLast_cons_cons, List.cons.injEq, ih (List.cons_ne_nil _ _)]
      constructor
      · rintro ⟨rfl, h⟩
        exact List.forall_mem_cons.mpr ⟨rfl, h⟩
      · intro h
        obtain ⟨rfl, h⟩ := List.forall_mem_cons.mp h
        exact ⟨rfl, h⟩

theorem utf8Rest_mem (h : x ∈ utf8Rest ch n) : x &&& 0xc0 = 0x80 := by
  have hbyte : ∀ b < 0x40, (0x80 ||| b) &&& 0xc0 = 0x80 := by decide +kernel
  induction n with
  | zero => cases h
  | succ n ih =>
    rcases List.mem_cons.mp h with rfl | h
    · exact hbyte _ (Nat.lt_succ_of_le Nat.and_le_right)
    · exact ih h

theorem and_0xc0_of_lead : ∀ b < 0xff, 0xc0 ≤ b → b &&& 0xc0 ≠ 0x80 := by decide +kernel

/-- The continuation bytes carry the bits of a character from the top on. -/
theorem foldl_utf8Rest (hch : ch < 2 ^ 32) : (utf8Rest ch n).foldl utf8Shift (ch >>> (6 * n)) = ch := by
  have h := @utf8Follow_rest (utf8Rest ch n) ch n 0 hch (by simp) (fun i _ => by rw [Nat.zero_add])
  have h' := @utf8Follow_eq (utf8Rest ch n) (utf8Rest ch n) 0 (ch >>> (6 * n)) (by simp) (fun i _ => by rw [Nat.zero_add])
  rw [length_utf8Rest] at h'
  exact Option.some.inj (h'.symm.trans h)

/-- What the last rounds of the scan find: the first byte, `k` bytes further down. -/
theorem scan_ends (k : ℕ) (hk : k ≤ n) (hn : n ≤ 6) (hlen : pos + n < str.length) (hge : 0xc0 ≤ lead) (hlt : lead < 0xff)
    (hlead : cell str pos = lead) (h : ∀ i < n, cell str (pos + 1 + i) &&& 0xc0 = 0x80) {fuel : ℕ} (hfuel : k < fuel) :
    loop (fun (iter, seqlen) => do
      let result ← rd str (iter - 1)
      some (if result &&& 0xc0 ≠ 0x80 then .done (result, iter - 1, seqlen)
        else if 8 ≤ seqlen then .done (result, iter - 1, seqlen)
        else if iter - 1 ≤ 0 then .done (result, iter - 1, seqlen + 1)
        else .next (iter - 1, seqlen + 1))) fuel (pos + 1 + k, n - k + 1) = some (lead, pos, n + 1) := by
  induction k generalizing fuel with
  | zero =>
    obtain ⟨fuel, rfl⟩ := Nat.exists_eq_succ_of_ne_zero (Nat.ne_of_gt hfuel)
    rw [loop]
    dsimp only
    rw [Nat.add_zero, Nat.add_sub_cancel, rd_of_lt (by omega), some_bind, hlead, if_pos (and_0xc0_of_lead _ hlt hge)]
    rfl
  | succ k ih =>
    obtain ⟨fuel, rfl⟩ := Nat.exists_eq_succ_of_ne_zero (Nat.ne_zero_of_lt hfuel)
    have hsub : pos + 1 + (k + 1) - 1 = pos + 1 + k := by omega
    have hseq : n - (k + 1) + 1 + 1 = n - k + 1 := by omega
    rw [loop]
    dsimp only
    rw [hsub, rd_of_lt (by omega), some_bind, h k (by omega), if_neg (by simp), if_neg (by omega), if_neg (by omega), hseq]
    exact ih (by omega) (by omega)

theorem readUtf8RevN_writeUtf8 (hch : ch < 2 ^ 32) (hlen : pos + (writeUtf8 ch).length ≤ str.length)
    (h : ∀ i < (writeUtf8 ch).length, cell str (pos + i) = cell (writeUtf8 ch) i) :
    readUtf8RevN str (pos + (writeUtf8 ch).length) 0 = some (readBackAs ch, pos) := by
  unfold readBackAs
  by_cases hascii : ch < 0x80
  · have hwrite : writeUtf8 ch = [ch] := if_pos hascii
    rw [hwrite] at h hlen ⊢
    have hcell : cell str pos = ch := h 0 Nat.one_pos
    rw [List.length_singleton] at hlen ⊢
    rw [readUtf8RevN_ascii (by omega) hlen (by rwa [Nat.add_sub_cancel, hcell]), Nat.add_sub_cancel, hcell]
  · obtain ⟨lead, n, hwrite, hpos, hn, hlead⟩ := writeUtf8_eq (Nat.le_of_not_lt hascii) hch
    obtain ⟨n, rfl⟩ := Nat.exists_eq_succ_of_ne_zero (Nat.ne_of_gt hpos)
    rw [hwrite] at h hlen ⊢
    rw [List.length_cons, length_utf8Rest] at h hlen ⊢
    have hfirst : cell str pos = lead := h 0 (Nat.succ_pos _)
    have hrest : ∀ i < n + 1, cell str (pos + 1 + i) &&& 0xc0 = 0x80 := by
      intro i hi
      have hbyte : cell (utf8Rest ch (n + 1)) i ∈ utf8Rest ch (n + 1) := by
        rw [cell, List.getD_eq_getElem _ _ (by rwa [length_utf8Rest])]
        exact List.getElem_mem _
      rw [Nat.add_assoc, Nat.add_comm 1 i, h (i + 1) (Nat.succ_lt_succ hi)]
      exact utf8Rest_mem hbyte
    have hscan := scan_ends (n + 1) le_rfl hn (by omega) hlead.ge hlead.lt hfirst hrest (show n + 1 < 8 by omega)
    rw [Nat.sub_self] at hscan
    have hall : ((lead :: utf8Rest ch (n + 1)).dropLast).length = n + 1 := by
      rw [List.length_dropLast, List.length_cons, length_utf8Rest, Nat.add_sub_cancel]
    have hfollow := @utf8Follow_eq str ((lead :: utf8Rest ch (n + 1)).dropLast) pos (utf8Lead (n + 1 + 1) lead)
      (by omega) fun i hi => by
        rw [h i (by omega), cell, cell, List.getD_eq_getElem _ _ hi, List.getElem_dropLast,
          List.getD_eq_getElem _ _ (by rw [List.length_cons, length_utf8Rest]; omega)]
    rw [hall] at hfollow
    rw [readUtf8RevN, if_neg (by omega), Nat.add_comm (n + 1) 1, ← Nat.add_assoc, hscan, some_bind]
    dsimp only
    rw [if_pos ⟨hlead.ge, by omega⟩, Nat.add_sub_cancel, hfollow, some_bind]
    rw [utf8Rest]
    dsimp only
    rw [length_utf8Rest]

/-- The bytes from the first on are read like those behind it if they all carry the same bits. -/
theorem map_dropLast_eq {a : ℕ} (hl : bytes ≠ []) :
    (a :: bytes.dropLast).map (· % 64) = bytes.map (· % 64) ↔ ∀ b ∈ bytes, b % 64 = a % 64 := by
  rw [List.map_cons, List.map_dropLast, cons_dropLast_eq (by simpa using hl), List.forall_mem_map]

theorem readBackAs_eq_iff_of_le (hch : ch < 2 ^ 32) (hwrite : writeUtf8 ch = lead :: utf8Rest ch (n + 1)) (hn : n + 1 ≤ 5)
    (hlead : IsLead lead (n + 1) (ch >>> (6 * (n + 1)))) : readBackAs ch = ch ↔ ReadsBack ch := by
  have hforward := @foldl_utf8Rest ch (n + 1) hch
  have hlen : (utf8Rest ch (n + 1)).length = n + 1 := length_utf8Rest
  have hne : utf8Rest ch (n + 1) ≠ [] := List.ne_nil_of_length_pos (by omega)
  have hx : ch >>> (6 * (n + 1)) < 2 ^ 32 := by
    rw [Nat.shiftRight_eq_div_pow]
    exact (Nat.div_le_self _ _).trans_lt hch
  have hread : readBackAs ch = (lead :: (utf8Rest ch (n + 1)).dropLast).foldl utf8Shift (ch >>> (6 * (n + 1))) := by
    rw [← hlead.bits, readBackAs, hwrite, ← List.dropLast_cons_of_ne_nil hne, utf8Rest]
    dsimp only
    rw [length_utf8Rest]
  unfold ReadsBack
  rw [hread]
  conv_lhs => rhs; rw [← hforward]
  rw [foldl_utf8Shift_inj (by simp [hlen]) (by simp [hlen]; omega) hx hx, map_dropLast_eq hne, and_iff_right rfl, hwrite,
    List.tail_cons, List.headD_cons, List.length_cons, hlen, if_pos (by omega), and_0x3f]
  exact forall₂_congr fun b _ => by rw [and_0x3f]

theorem isLead_seven (h : IsLead lead 6 x) : lead = 0xfe := by
  have hlen : ∀ b < 0xff, utf8SeqLen b = 7 → b = 0xfe := by decide +kernel
  exact hlen _ h.lt h.seqLen

theorem readBackAs_eq_iff_of_seven (hch : ch < 2 ^ 32) (hwrite : writeUtf8 ch = lead :: utf8Rest ch 6)
    (hlead : IsLead lead 6 (ch >>> (6 * 6))) : readBackAs ch = ch ↔ ReadsBack ch := by
  have hforward := @foldl_utf8Rest ch 6 hch
  have hlen : (utf8Rest ch 5).length = 5 := length_utf8Rest
  have hne : utf8Rest ch 5 ≠ [] := List.ne_nil_of_length_pos (by omega)
  have htop : ch >>> 30 < 4 := @shiftRight_lt ch 30 2 hch
  have hzero : ch >>> (6 * 6) = 0 := by
    rw [Nat.shiftRight_eq_div_pow]
    exact Nat.div_eq_of_lt (hch.trans (by norm_num))
  obtain ⟨r, hr⟩ : ∃ r, r = 0x80 ||| (ch >>> (6 * 5) &&& 0x3f) := ⟨_, rfl⟩
  have hr64 : r % 64 = ch >>> 30 := by
    rw [hr, ← and_0x3f, or_and_0x3f _ (Nat.lt_succ_of_le Nat.and_le_right), and_0x3f]
    exact Nat.mod_eq_of_lt (by omega)
  have hrest : utf8Rest ch 6 = r :: utf8Rest ch 5 := by rw [utf8Rest, hr]
  obtain rfl := isLead_seven hlead
  have hread : readBackAs ch = (r :: (utf8Rest ch 5).dropLast).foldl utf8Shift (utf8Shift 0 0xfe) := by
    rw [readBackAs, hwrite, hrest]
    dsimp only
    rw [List.dropLast_cons_of_ne_nil (List.cons_ne_nil _ _), List.dropLast_cons_of_ne_nil hne, List.foldl_cons, hlen]
    rfl
  have hfirst : utf8Shift 0 0xfe % 2 ^ 2 = utf8Shift 0 r % 2 ^ 2 ↔ r % 64 = 2 := by
    rw [utf8Shift_eq, utf8Shift_eq]
    omega
  have hall : (writeUtf8 ch).length = 7 := by rw [hwrite, List.length_cons, length_utf8Rest]
  have hdrop : (r :: (utf8Rest ch 5).dropLast).length = 5 := by rw [List.length_cons, List.length_dropLast, hlen]
  unfold ReadsBack
  rw [hread]
  conv_lhs => rhs; rw [← hforward, hzero, hrest, List.foldl_cons]
  rw [foldl_utf8Shift_inj (by simp [hlen]) (by simp [hlen]) (utf8Shift_lt _ _) (utf8Shift_lt _ _), map_dropLast_eq hne,
    hall, hwrite, hrest, List.tail_cons, List.headD_cons, if_neg (by norm_num), List.forall_mem_cons, hdrop, hfirst,
    and_0x3f]
  refine and_congr_right fun htwo => forall₂_congr fun b _ => ?_
  rw [and_0x3f, htwo]
  exact Iff.rfl

/-- The characters that are read backwards as they are. -/
theorem readBackAs_eq_iff (hch : ch < 2 ^ 32) : readBackAs ch = ch ↔ ReadsBack ch := by
  by_cases hascii : ch < 0x80
  · have hwrite : writeUtf8 ch = [ch] := if_pos hascii
    unfold readBackAs ReadsBack
    rw [hwrite]
    exact iff_of_true rfl fun b hb => nomatch hb
  · obtain ⟨lead, n, hwrite, hpos, hn, hlead⟩ := writeUtf8_eq (Nat.le_of_not_lt hascii) hch
    obtain ⟨n, rfl⟩ := Nat.exists_eq_succ_of_ne_zero (Nat.ne_of_gt hpos)
    rcases Nat.lt_or_ge n 5 with hn5 | hn5
    · exact readBackAs_eq_iff_of_le hch hwrite hn5 hlead
    · obtain rfl : n = 5 := by omega
      exact readBackAs_eq_iff_of_seven hch hwrite hlead

end Read

/-! ### Whole texts -/

section Text

variable {text cs l r : List ℕ} {ch pos fuel : ℕ} {chars : List (ℕ × ℕ)}

/-- The characters of a text, each with the position of its first byte, when the text starts at `pos`. -/
def charsFrom (pos : ℕ) : List ℕ → List (ℕ × ℕ)
  | [] => []
  | ch :: cs => (ch, pos) :: charsFrom (pos + (writeUtf8 ch).length) cs

theorem charsFrom_concat : charsFrom pos (l ++ [ch]) = charsFrom pos l ++ [(ch, pos + (utf8 l).length)] := by
  induction l generalizing pos with
  | nil => rfl
  | cons d l ih =>
    rw [List.cons_append, charsFrom, charsFrom, ih, utf8_cons, List.length_append, List.cons_append, Nat.add_assoc]

theorem length_utf8_cons_pos : 0 < (utf8 (ch :: l)).length := by
  have hpos := List.length_pos_of_ne_nil (@writeUtf8_ne_nil ch)
  rw [utf8_cons, List.length_append]
  omega

/-- `Dee_unicode_readutf8_rev_n` stops at the start of the last character. -/
theorem readUtf8RevN_utf8 (hch : ch < 2 ^ 32) :
    readUtf8RevN (utf8 (l ++ ch :: r)) (utf8 (l ++ [ch])).length 0 = some (readBackAs ch, (utf8 l).length) := by
  have hsplit : utf8 (l ++ ch :: r) = utf8 l ++ (writeUtf8 ch ++ utf8 r) := by rw [utf8_append, utf8_cons]
  have hlen : (utf8 (l ++ [ch])).length = (utf8 l).length + (writeUtf8 ch).length := by
    rw [utf8_append, utf8_singleton, List.length_append]
  rw [hlen]
  refine readUtf8RevN_writeUtf8 hch ?_ fun i hi => ?_
  · rw [hsplit, List.length_append, List.length_append]
    omega
  · unfold cell
    rw [hsplit, List.getD_append_right _ _ _ _ (Nat.le_add_right _ i), Nat.add_sub_cancel_left,
      List.getD_append _ _ _ _ hi]

/-- What is read from the middle of a text on. -/
theorem readForwards_from (hcs : ∀ ch ∈ r, ch < 2 ^ 32) (hfuel : (utf8 r).length < fuel) :
    loop (fun (pos, chars) =>
      if (utf8 (l ++ r)).length ≤ pos then some (.done chars)
      else do
        let (ch, next) ← readUtf8N (utf8 (l ++ r)) pos (utf8 (l ++ r)).length
        some (.next (next, chars ++ [(ch, pos)]))) fuel ((utf8 l).length, chars) =
      some (chars ++ charsFrom (utf8 l).length r) := by
  induction r generalizing l chars fuel with
  | nil =>
    obtain ⟨fuel, rfl⟩ := Nat.exists_eq_succ_of_ne_zero (Nat.ne_zero_of_lt hfuel)
    rw [loop]
    dsimp only
    rw [List.append_nil, if_pos le_rfl, charsFrom, List.append_nil]
    rfl
  | cons ch r ih =>
    obtain ⟨fuel, rfl⟩ := Nat.exists_eq_succ_of_ne_zero (Nat.ne_zero_of_lt hfuel)
    obtain ⟨hch, hr⟩ := List.forall_mem_cons.mp hcs
    have hpos := @length_utf8_cons_pos r ch
    have hstart : ¬ (utf8 (l ++ ch :: r)).length ≤ (utf8 l).length := by
      rw [utf8_append, List.length_append]
      omega
    have hless : (utf8 r).length < fuel := by
      have hne := List.length_pos_of_ne_nil (@writeUtf8_ne_nil ch)
      rw [utf8_cons, List.length_append] at hfuel
      omega
    have hrest := @ih (l ++ [ch]) fuel (chars ++ [(ch, (utf8 l).length)]) hr hless
    rw [List.append_assoc, List.singleton_append] at hrest
    rw [loop]
    dsimp only
    rw [if_neg hstart, readUtf8N_utf8 hch, some_bind, some_bind]
    dsimp only
    rw [hrest, charsFrom, List.append_assoc, List.singleton_append, utf8_append l [ch], utf8_singleton, List.length_append]

/-- What is read from the middle of a text back. -/
theorem readBackwards_from (hcs : ∀ ch ∈ l, ch < 2 ^ 32) (hfuel : (utf8 l).length < fuel) :
    loop (fun (pos, chars) =>
      if pos = 0 then some (.done chars)
      else do
        let (ch, start) ← readUtf8RevN (utf8 (l ++ r)) pos 0
        some (.next (start, chars ++ [(ch, start)]))) fuel ((utf8 l).length, chars) =
      some (chars ++ ((charsFrom 0 l).map (Prod.map readBackAs id)).reverse) := by
  induction l using List.reverseRecOn generalizing r chars fuel with
  | nil =>
    obtain ⟨fuel, rfl⟩ := Nat.exists_eq_succ_of_ne_zero (Nat.ne_zero_of_lt hfuel)
    rw [loop]
    dsimp only
    rw [if_pos (show (utf8 []).length = 0 from rfl), charsFrom, List.map_nil, List.reverse_nil, List.append_nil]
    rfl
  | append_singleton l ch ih =>
    obtain ⟨fuel, rfl⟩ := Nat.exists_eq_succ_of_ne_zero (Nat.ne_zero_of_lt hfuel)
    have hch := hcs ch (by simp)
    have hl : ∀ ch ∈ l, ch < 2 ^ 32 := fun ch h => hcs ch (List.mem_append_left _ h)
    have hne := List.length_pos_of_ne_nil (@writeUtf8_ne_nil ch)
    have hlen : (utf8 (l ++ [ch])).length = (utf8 l).length + (writeUtf8 ch).length := by
      rw [utf8_append, utf8_singleton, List.length_append]
    have hrest := @ih (ch :: r) fuel (chars ++ [(readBackAs ch, (utf8 l).length)]) hl (by omega)
    have hread := @readUtf8RevN_utf8 l r ch hch
    rw [loop, List.append_assoc, List.singleton_append]
    dsimp only
    rw [if_neg (by omega), hread, some_bind, some_bind]
    dsimp only
    rw [hrest, charsFrom_concat, List.map_append, List.reverse_append, List.append_assoc, Nat.zero_add]
    rfl

theorem readForwards_utf8 (hcs : ∀ ch ∈ cs, ch < 2 ^ 32) : readForwards (utf8 cs) = some (charsFrom 0 cs) :=
  @readForwards_from [] cs _ [] hcs (Nat.lt_succ_self _)

theorem readBackwards_utf8 (hcs : ∀ ch ∈ cs, ch < 2 ^ 32) :
    readBackwards (utf8 cs) = some ((charsFrom 0 cs).map (Prod.map readBackAs id)).reverse := by
  have h := @readBackwards_from cs [] _ [] hcs (Nat.lt_succ_self (utf8 cs).length)
  rwa [List.append_nil] at h

theorem map_charsFrom_eq_iff : (charsFrom pos cs).map (Prod.map readBackAs id) = charsFrom pos cs ↔
    ∀ ch ∈ cs, readBackAs ch = ch := by
  induction cs generalizing pos with
  | nil => simp [charsFrom]
  | cons ch cs ih =>
    rw [charsFrom, List.map_cons, List.cons.injEq, ih, List.forall_mem_cons, Prod.map_apply, Prod.mk.injEq, id,
      and_iff_left rfl]

/-- Both readers stop at the characters of a text, the one from the start with the characters themselves. The other one
gives the same characters exactly if all bytes of each character carry the same bits. -/
theorem readBackwards_iff (hcs : ∀ ch ∈ cs, ch < 2 ^ 32) :
    (readForwards (utf8 cs) = some (charsFrom 0 cs) ∧
      (readBackwards (utf8 cs)).map (List.map Prod.snd) = some ((charsFrom 0 cs).map Prod.snd).reverse) ∧
    ((∃ chars, readForwards (utf8 cs) = some chars ∧ readBackwards (utf8 cs) = some chars.reverse) ↔
      ∀ ch ∈ cs, ReadsBack ch) := by
  have hforwards := readForwards_utf8 hcs
  have hbackwards := readBackwards_utf8 hcs
  refine ⟨⟨hforwards, ?_⟩, ?_⟩
  · rw [hbackwards, Option.map_some, List.map_reverse, List.map_map]
    rfl
  · have hmirror : (∃ chars, readForwards (utf8 cs) = some chars ∧ readBackwards (utf8 cs) = some chars.reverse) ↔
        (charsFrom 0 cs).map (Prod.map readBackAs id) = charsFrom 0 cs := by
      rw [hforwards, hbackwards]
      simp [eq_comm]
    rw [hmirror, map_charsFrom_eq_iff]
    exact forall₂_congr fun ch hch => readBackAs_eq_iff (hcs ch hch)

/-- U+00C3 is read as it is from both ends. -/
theorem readBackwards_same :
    ∃ chars, readForwards (utf8 [0xc3, 0x61]) = some chars ∧ readBackwards (utf8 [0xc3, 0x61]) = some chars.reverse :=
  ((readBackwards_iff (by decide)).2).mpr (by decide)

/-- U+00E9 is read as U+00C3 backwards. -/
theorem readBackwards_counterexample :
    readForwards (utf8 [0xe9]) = some [(0xe9, 0)] ∧ readBackwards (utf8 [0xe9]) = some [(0xc3, 0)] := by
  decide

end Text

end Deemon.Unicode
