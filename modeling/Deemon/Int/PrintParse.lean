import Deemon.Int.Parse
import Deemon.Unicode.Strings

/-!
# Printed integers read back

`DeeInt_FromString` reads a text of `DeeInt_Print` back in the radix it was printed in. Where the number system stands in
front, it finds the radix itself. A decimal has no number system: with a zero in front it is read as an octal number.
-/

namespace Deemon.Int

open Deemon.Run Deemon.Radix Deemon.Numeral Deemon.Unicode DeeInt

/-- `Dee_INT_STRING_FNORMAL`. -/
abbrev intStringFnormal : StringFlags := ⟨false, false, false⟩

/-- A text is read without any flags, and gives an integer with the value of `x`. -/
def ParsesBack (uni : UniTable) (sizeHint : ℕ → ℕ → ℕ) (t : List ℕ) (radix : ℕ) (x : DeeInt) : Prop :=
  ∃ z, deeIntFromString uni sizeHint t radix intStringFnormal = some (.ok (some z)) ∧ z.Canonical ∧ z.toInt = x.toInt

/-- At least `precision` digits with separators between the groups, which are counted from the right. -/
structure GroupedText (radix precision : ℕ) (seps : Bool) (g : ℕ) (body : List ℕ) : Prop where
  count : precision ≤ (digitsOf body).length
  chars : ∀ ch ∈ body, ch = chr '_' ∨ ∃ d < radix, asciiDigit ch = some d
  first : ∃ ch ∈ body.head?, ch ≠ chr '_'
  sep : ∀ j < body.length, body.reverse[j]? = some (chr '_') ↔ seps = true ∧ (j + 1) % (g + 1) = 0

/-- What is asked of the text `t` of an integer. -/
structure RightText (uni : UniTable) (sizeHint : ℕ → ℕ → ℕ) (x : DeeInt) (radix : ℕ) (flags : PrintFlags) (precision : ℕ)
    (t : List ℕ) : Prop where
  body : ∃ body, t = signText x flags ++ prefixText radix flags ++ body ∧
    GroupedText radix precision flags.seps (groupingsOf radix) body
  given : flags.numsys = false → ParsesBack uni sizeHint t radix x
  detected : flags.numsys = true → radix ≠ 4 → (radix = 10 → precision ≤ digitCount 10 x.mag ∨ x.mag < 8) →
    ParsesBack uni sizeHint t 0 x

/-! ### The digits -/

section Digits

variable {upper seps : Bool} {r r' n v width precision g : ℕ} {cs : List ℕ}

theorem asciiDigit_mem_digitText (hr : 0 < r) (h16 : r ≤ 16) {ch : ℕ} (hch : ch ∈ digitText upper r v n) :
    ∃ d < r, asciiDigit ch = some d := by
  obtain ⟨d, hd, rfl⟩ := List.mem_map.mp hch
  have hlt := lowDigits_lt hr d hd
  exact ⟨d, hlt, asciiDigit_digitChar upper (hlt.trans_le h16)⟩

theorem digitsOf_digitText (hr : 0 < r) (h16 : r ≤ 16) : digitsOf (digitText upper r v n) = lowDigits r v n := by
  have hdigits : ∀ d ∈ lowDigits r v n, asciiDigit (digitChar upper d) = some d :=
    fun d hd => asciiDigit_digitChar upper ((lowDigits_lt hr d hd).trans_le h16)
  unfold digitsOf digitText
  rw [List.filterMap_map]
  generalize lowDigits r v n = ds at hdigits ⊢
  induction ds with
  | nil => rfl
  | cons d ds ih =>
    obtain ⟨hd, hds⟩ := List.forall_mem_cons.mp hdigits
    rw [List.filterMap_cons_some (show (asciiDigit ∘ digitChar upper) d = some d from hd), ih hds]

theorem digitsOf_grouped : digitsOf (grouped (chr '_') width cs) = digitsOf cs := filterMap_grouped asciiDigit_underscore

/-- The digits of a number in groups are a text of digits. -/
theorem digitText_reads (hr : 0 < r) (h16 : r ≤ 16) :
    DigitText r false (grouped (chr '_') width (digitText upper r v n)) := by
  refine ⟨fun ch hch => ?_, fun hlast => ?_⟩
  · apply (mem_grouped hch).imp
    · exact fun h => ⟨h, rfl⟩
    · exact asciiDigit_mem_digitText hr h16
  · rw [getLast?_grouped] at hlast
    exact underscore_notMem_digitText hr h16 (List.mem_of_getLast? hlast)

theorem groupedText_digitText (hr : 0 < r) (h16 : r ≤ 16) (hn : 0 < n) (hprec : precision ≤ n) (hg : 0 < g) :
    GroupedText r precision seps g (grouped (chr '_') (groupWidth seps g) (digitText upper r v n)) := by
  obtain ⟨n, rfl⟩ := Nat.exists_eq_succ_of_ne_zero hn.ne'
  have hnot : chr '_' ∉ digitText upper r v (n + 1) := underscore_notMem_digitText hr h16
  refine ⟨?_, fun ch hch => ?_, ?_, fun j hj => ?_⟩
  · rw [digitsOf_grouped, digitsOf_digitText hr h16, length_lowDigits]
    exact hprec
  · exact (mem_grouped hch).imp_right (asciiDigit_mem_digitText hr h16)
  · rw [digitText_succ] at hnot ⊢
    exact ⟨_, rfl, fun h => hnot (h ▸ List.mem_cons_self)⟩
  · cases seps with
    | false =>
      rw [groupWidth, if_neg Bool.false_ne_true, grouped_zero]
      refine iff_of_false (fun h => hnot ?_) (by simp)
      exact List.mem_reverse.mp (List.mem_of_getElem? h)
    | true =>
      rw [groupWidth, if_pos rfl] at hj ⊢
      rw [getElem?_reverse_grouped hg hnot hj]
      simp

/-- The digits of a number below two radices are the same. -/
theorem lowDigits_of_lt (h : v < r) (h' : v < r') : lowDigits r v n = lowDigits r' v n := by
  induction n with
  | zero => rfl
  | succ n ih =>
    have hdigit : v / r ^ n % r = v / r' ^ n % r' := by
      cases n with
      | zero => simp [Nat.mod_eq_of_lt h, Nat.mod_eq_of_lt h']
      | succ n =>
        have hpow : ∀ s, v < s → v / s ^ (n + 1) = 0 := fun s hs =>
          Nat.div_eq_of_lt (hs.trans_le (Nat.le_self_pow (Nat.succ_ne_zero n) s))
        rw [hpow r h, hpow r' h', Nat.zero_mod, Nat.zero_mod]
    rw [lowDigits, lowDigits, ih, hdigit]

theorem digitText_of_lt (h : v < r) (h' : v < r') : digitText upper r v n = digitText upper r' v n := by
  rw [digitText, lowDigits_of_lt h h', digitText]

end Digits

/-! ### Sign and number system -/

section Front

variable {uni : UniTable} {sflags : StringFlags} {x : DeeInt} {flags : PrintFlags} {front rest : List ℕ} {ch d start : ℕ}

/-- A digit is no sign and no backslash. -/
theorem ne_of_asciiDigit (h : asciiDigit ch = some d) : ch ≠ chr '+' ∧ ch ≠ chr '-' ∧ ch ≠ backslash := by
  refine ⟨?_, ?_, ?_⟩
  all_goals
    rintro rfl
    cases h

/-- The sign is read in front of a digit. -/
theorem parseSign_printed (hd : asciiDigit ch = some d) :
    parseSign uni sflags (signText x flags ++ ch :: rest) = some (some (decide (x.obSize < 0), (signText x flags).length)) := by
  obtain ⟨hplus, hminus, hslash⟩ := ne_of_asciiDigit hd
  unfold parseSign signText
  split_ifs with hneg hsign
  · have hch : rd (chr '-' :: ch :: rest) 1 = some ch := rd_append_cons (a := [chr '-'])
    apply (loop_next rfl).trans
    apply loop_done
    simp [hch, hplus, hminus, hslash, hneg]
  · have hch : rd (chr '+' :: ch :: rest) 1 = some ch := rd_append_cons (a := [chr '+'])
    apply (loop_next rfl).trans
    apply loop_done
    simp [hch, hplus, hminus, hslash, hneg]
  · have hch : rd (ch :: rest) 0 = some ch := rd_append_cons (a := [])
    apply loop_done
    simp [hch, hplus, hminus, hslash, hneg]

theorem readUtf8N_digit (h : ch < 0x80) :
    readUtf8N (front ++ ch :: rest) front.length (front ++ ch :: rest).length = some (ch, front.length + 1) := by
  have hcell : cell (front ++ ch :: rest) front.length = ch := cell_append_cons
  rw [readUtf8N_ascii (by simp) (by simp) (by rwa [hcell]), hcell]

/-- Another digit than zero in front makes a decimal. -/
theorem parseRadix_ten (hd : asciiDigit ch = some d) (hne : d ≠ 0) :
    parseRadix uni sflags (front ++ ch :: rest) front.length 0 = some (some (10, front.length)) := by
  have hlt := (asciiDigit_lt hd).1
  have hval : uni.deeUniAsDigitVal ch ≠ 0 := by rwa [UniTable.deeUniAsDigitVal, if_pos hlt, hd]
  unfold parseRadix
  rw [if_neg (not_not.mpr rfl), readUtf8N_digit hlt, some_bind]
  simp [hval]

theorem parseRadix_single : parseRadix uni sflags (front ++ [chr '0']) front.length 0 = some none := by
  have hval : uni.deeUniAsDigitVal (chr '0') = 0 := rfl
  unfold parseRadix
  rw [if_neg (not_not.mpr rfl), readUtf8N_digit (by decide), some_bind]
  simp [hval]

/-- What stands behind a zero in front says what the radix is. -/
theorem parseRadix_detect (hslash : ch ≠ backslash) :
    parseRadix uni sflags (front ++ chr '0' :: ch :: rest) front.length 0 =
      some (some (if ch = chr 'x' ∨ ch = chr 'X' then (16, front.length + 1 + 1)
        else if ch = chr 'b' ∨ ch = chr 'B' then (2, front.length + 1 + 1) else (8, front.length + 1))) := by
  have hval : uni.deeUniAsDigitVal (chr '0') = 0 := rfl
  have hread : rd (front ++ chr '0' :: ch :: rest) (front.length + 1) = some ch := by
    have h : rd ((front ++ [chr '0']) ++ ch :: rest) (front ++ [chr '0']).length = some ch := rd_append_cons
    rwa [List.append_assoc, List.length_append] at h
  unfold parseRadix
  rw [if_neg (not_not.mpr rfl), readUtf8N_digit (by decide), some_bind]
  dsimp only
  rw [if_pos hval, if_neg (by simp), loop_done (r := front.length + 1), some_bind, hread, some_bind]
  · split_ifs <;> rfl
  · rw [hread, some_bind, if_neg fun h => hslash h.1]

end Front

/-! ### Reading back -/

section Reading

variable {uni : UniTable} {sizeHint : ℕ → ℕ → ℕ} {x : DeeInt} {str front body : List ℕ} {r s start given : ℕ} {negative : Bool}

/-- A sign, a radix and digits are the number of the digits. -/
theorem fromString_reads (hsign : parseSign uni intStringFnormal str = some (some (negative, s)))
    (hradix : parseRadix uni intStringFnormal str s given = some (some (r, start))) (hr : Printable r)
    (htext : DigitText r false (str.drop start)) (hne : str.drop start ≠ []) :
    ∃ z, deeIntFromString uni sizeHint str given intStringFnormal = some (.ok (some z)) ∧ z.Canonical ∧
      z.toInt = if negative then -(horner r 0 (digitsOf (str.drop start)) : ℤ) else horner r 0 (digitsOf (str.drop start)) := by
  have hlt : start < str.length := by
    by_contra hge
    exact hne (List.drop_eq_nil_of_le (not_lt.mp hge))
  have htwo : ∀ b, 0 < b → b ≤ 5 → DigitText (2 ^ b) false (str.drop start) →
      Ends (parsePowerOfTwo uni intStringFnormal str start (2 ^ b))
        (ParsesTo (horner (2 ^ b) 0 (digitsOf (str.drop start)))) :=
    fun b hb hb5 h => parsePowerOfTwo_ends hb hb5 hlt.le h
  have hparsed : Ends (if r &&& (r - 1) ≠ 0 then intFromNonbinaryString uni sizeHint intStringFnormal str start r
      else parsePowerOfTwo uni intStringFnormal str start r)
      (ParsesTo (horner r 0 (digitsOf (str.drop start)))) := by
    simp only [Printable, List.mem_cons, List.not_mem_nil, or_false] at hr
    rcases hr with rfl | rfl | rfl | rfl | rfl
    · exact htwo 1 (by norm_num) (by norm_num) htext
    · exact htwo 2 (by norm_num) (by norm_num) htext
    · exact htwo 3 (by norm_num) (by norm_num) htext
    · exact intFromNonbinaryString_ends sizeHint (by norm_num) (by norm_num) htext
    · exact htwo 4 (by norm_num) (by norm_num) htext
  have hr2 : 2 ≤ r := by
    simp only [Printable, List.mem_cons, List.not_mem_nil, or_false] at hr
    omega
  obtain ⟨o, hrun, z, rfl, hz, hval⟩ := hparsed
  unfold deeIntFromString
  rw [hsign, some_bind]
  dsimp only
  rw [hradix, some_bind]
  dsimp only
  rw [if_neg (not_le.mpr hlt), assert_of hr2, some_bind, hrun, some_bind]
  cases negative with
  | false => exact ⟨z, rfl, hz, hval⟩
  | true => exact ⟨_, rfl, hz.neg, by rw [if_pos rfl, toInt_neg, hval, if_pos rfl]⟩

theorem parsesBack_of (hsign : parseSign uni intStringFnormal (front ++ body) = some (some (decide (x.obSize < 0), s)))
    (hradix : parseRadix uni intStringFnormal (front ++ body) s given = some (some (r, front.length)))
    (hr : Printable r) (htext : DigitText r false body) (hne : body ≠ []) (hval : horner r 0 (digitsOf body) = x.mag) :
    ParsesBack uni sizeHint (front ++ body) given x := by
  have hdrop : (front ++ body).drop front.length = body := List.drop_left
  rw [← hdrop] at htext hne
  obtain ⟨z, hrun, hz, hzval⟩ := fromString_reads hsign hradix hr htext hne
  refine ⟨z, hrun, hz, ?_⟩
  rw [hzval, hdrop, hval, toInt]
  by_cases hneg : x.obSize < 0
  · simp [hneg]
  · simp [hneg]

end Reading

/-! ### The round trip -/

section RoundTrip

variable {uni : UniTable} {sizeHint : ℕ → ℕ → ℕ} {x : DeeInt} {radix precision : ℕ} {flags : PrintFlags}

theorem Printable.bounds (h : Printable radix) : 1 < radix ∧ radix ≤ 16 := by
  simp only [Printable, List.mem_cons, List.not_mem_nil, or_false] at h
  omega

/-- The printed digits, in groups. -/
def printedBody (x : DeeInt) (radix : ℕ) (flags : PrintFlags) (precision : ℕ) : List ℕ :=
  grouped (chr '_') (groupWidth flags.seps (groupingsOf radix)) (printedDigits x radix flags precision)

theorem mag_lt_printed (h : 1 < radix) : x.mag < radix ^ max precision (digitCount radix x.mag) :=
  (lt_pow_digitCount h).trans_le (Nat.pow_le_pow_right (by omega) (le_max_right _ _))

theorem printedBody_text (h : Printable radix) : DigitText radix false (printedBody x radix flags precision) :=
  digitText_reads (by have := h.bounds; omega) h.bounds.2

theorem horner_printedBody (h : Printable radix) :
    horner radix 0 (digitsOf (printedBody x radix flags precision)) = x.mag := by
  obtain ⟨h1, h16⟩ := h.bounds
  rw [printedBody, digitsOf_grouped, printedDigits, digitsOf_digitText (by omega) h16, horner_lowDigits,
    Nat.mod_eq_of_lt (mag_lt_printed h1)]

/-- The first printed digit. -/
theorem printedBody_head (x : DeeInt) (radix : ℕ) (flags : PrintFlags) (precision : ℕ) : ∃ n tail,
    max precision (digitCount radix x.mag) = n + 1 ∧
    printedBody x radix flags precision = digitChar flags.upper (x.mag / radix ^ n % radix) :: tail ∧ (n = 0 → tail = []) := by
  have hpos : 0 < max precision (digitCount radix x.mag) := lt_of_lt_of_le (Nat.succ_pos _) (le_max_right _ _)
  obtain ⟨n, hn⟩ := Nat.exists_eq_succ_of_ne_zero hpos.ne'
  have hbody : printedBody x radix flags precision = digitChar flags.upper (x.mag / radix ^ n % radix) ::
      groupedTail (chr '_') (groupWidth flags.seps (groupingsOf radix)) (digitText flags.upper radix x.mag n) := by
    rw [printedBody, printedDigits, hn, digitText_succ, grouped_cons]
  refine ⟨n, _, hn, hbody, ?_⟩
  rintro rfl
  rfl

theorem groupedText_printedBody (h : Printable radix) :
    GroupedText radix precision flags.seps (groupingsOf radix) (printedBody x radix flags precision) := by
  obtain ⟨h1, h16⟩ := h.bounds
  apply groupedText_digitText (by omega) h16
  · exact lt_of_lt_of_le (Nat.succ_pos _) (le_max_right _ _)
  · exact le_max_left _ _
  · unfold groupingsOf
    split_ifs <;> omega

/-- A digit of a radix up to ten is no mark of a number system. -/
theorem ne_mark_of_asciiDigit {ch d : ℕ} (h : asciiDigit ch = some d) (hd : d < 10) :
    ¬(ch = chr 'x' ∨ ch = chr 'X') ∧ ¬(ch = chr 'b' ∨ ch = chr 'B') := by
  constructor
  all_goals
    rintro (rfl | rfl)
    all_goals
      cases h
      try omega

/-- Without padding the first of several digits is not zero. -/
theorem lt_of_leading_zero {n : ℕ} (hn : n + 1 = max precision (digitCount 10 x.mag)) (hpos : n ≠ 0)
    (hzero : x.mag / 10 ^ n % 10 = 0) : ¬ precision ≤ digitCount 10 x.mag := by
  intro hle
  have hlog : n = Nat.log 10 x.mag := by
    unfold digitCount at hn hle
    omega
  have hmag : x.mag ≠ 0 := by
    intro h
    rw [h, Nat.log_zero_right] at hlog
    exact hpos hlog
  have hpow : 10 ^ n ≤ x.mag := hlog ▸ Nat.pow_log_le_self 10 hmag
  have hlt : x.mag / 10 ^ n < 10 := by
    apply Nat.div_lt_of_lt_mul
    rw [← pow_succ, hlog]
    exact Nat.lt_pow_succ_log_self (by norm_num) x.mag
  have hone : 0 < x.mag / 10 ^ n := Nat.div_pos hpow (by positivity)
  omega

theorem parsesBack_given (h : Printable radix) :
    ParsesBack uni sizeHint (signText x flags ++ printedBody x radix flags precision) radix x := by
  obtain ⟨h1, h16⟩ := h.bounds
  obtain ⟨n, tail, -, hbody, -⟩ := printedBody_head x radix flags precision
  have hd : asciiDigit (digitChar flags.upper (x.mag / radix ^ n % radix)) = some (x.mag / radix ^ n % radix) :=
    asciiDigit_digitChar _ ((Nat.mod_lt _ (by omega)).trans_le h16)
  refine parsesBack_of ?_ (if_pos (by omega)) h (printedBody_text h) (by simp [hbody]) (horner_printedBody h)
  rw [hbody]
  exact parseSign_printed hd

/-- The marks of hexadecimal and binary numbers are found again. -/
theorem parsesBack_marked {mark : ℕ} (h : Printable radix) (hslash : mark ≠ backslash)
    (hmark : (if mark = chr 'x' ∨ mark = chr 'X' then 16 else if mark = chr 'b' ∨ mark = chr 'B' then 2 else 0) = radix) :
    ParsesBack uni sizeHint (signText x flags ++ chr '0' :: mark :: printedBody x radix flags precision) 0 x := by
  obtain ⟨n, tail, -, hbody, -⟩ := printedBody_head x radix flags precision
  have hsplit : signText x flags ++ chr '0' :: mark :: printedBody x radix flags precision =
      (signText x flags ++ [chr '0', mark]) ++ printedBody x radix flags precision := by simp
  have hsign : parseSign uni intStringFnormal ((signText x flags ++ [chr '0', mark]) ++ printedBody x radix flags precision) =
      some (some (decide (x.obSize < 0), (signText x flags).length)) := by
    rw [← hsplit]
    exact parseSign_printed (d := 0) rfl
  rw [hsplit]
  refine parsesBack_of hsign ?_ h (printedBody_text h) (by simp [hbody]) (horner_printedBody h)
  rw [← hsplit, parseRadix_detect hslash, List.length_append]
  have hpos := h.bounds.1
  split_ifs at hmark ⊢
  · rw [← hmark]
    rfl
  · rw [← hmark]
    rfl
  · omega

/-- A zero in front of other characters than the marks makes an octal number. -/
theorem parsesBack_octal {ch : ℕ} {rest : List ℕ} (htext : DigitText 8 false (ch :: rest))
    (hval : horner 8 0 (digitsOf (ch :: rest)) = x.mag) :
    ParsesBack uni sizeHint (signText x flags ++ chr '0' :: ch :: rest) 0 x := by
  have hsplit : signText x flags ++ chr '0' :: ch :: rest = (signText x flags ++ [chr '0']) ++ ch :: rest := by simp
  have hch : ch ≠ backslash ∧ ¬(ch = chr 'x' ∨ ch = chr 'X') ∧ ¬(ch = chr 'b' ∨ ch = chr 'B') := by
    rcases htext.chars ch List.mem_cons_self with ⟨rfl, -⟩ | ⟨d, hd, hdig⟩
    · decide
    · exact ⟨(ne_of_asciiDigit hdig).2.2, ne_mark_of_asciiDigit hdig (by omega)⟩
  have hsign : parseSign uni intStringFnormal ((signText x flags ++ [chr '0']) ++ ch :: rest) =
      some (some (decide (x.obSize < 0), (signText x flags).length)) := by
    rw [← hsplit]
    exact parseSign_printed (d := 0) rfl
  rw [hsplit]
  refine parsesBack_of hsign ?_ (by simp [Printable]) htext (List.cons_ne_nil _ _) hval
  rw [← hsplit, parseRadix_detect hch.1, if_neg hch.2.1, if_neg hch.2.2, List.length_append]
  rfl

/-- A decimal is read back without its radix if no zeros stand in front of it, or if it is the same octal number. -/
theorem parsesBack_decimal (h : precision ≤ digitCount 10 x.mag ∨ x.mag < 8) :
    ParsesBack uni sizeHint (signText x flags ++ printedBody x 10 flags precision) 0 x := by
  have hten : Printable 10 := by simp [Printable]
  have htext := @printedBody_text x 10 precision flags hten
  have hval := @horner_printedBody x 10 precision flags hten
  obtain ⟨n, tail, hn, hbody, htail⟩ := printedBody_head x 10 flags precision
  by_cases hd : x.mag / 10 ^ n % 10 = 0
  · rw [hd, digitChar_zero] at hbody
    have hzero : digitsOf (chr '0' :: tail) = 0 :: digitsOf tail := digitsOf_cons rfl
    cases tail with
    | nil =>
      -- the text is a single zero
      rw [hbody, hzero] at hval
      have hmag : x.mag = 0 := hval.symm
      refine ⟨deeIntNewZero, ?_, deeIntNewZero_canonical.1, ?_⟩
      · unfold deeIntFromString
        rw [hbody, parseSign_printed (d := 0) rfl, some_bind]
        dsimp only
        rw [parseRadix_single]
        rfl
      · rw [deeIntNewZero_canonical.2, toInt, hmag]
        simp
    | cons ch rest =>
      have hpad : x.mag < 8 := by
        apply h.resolve_left
        apply lt_of_leading_zero hn.symm _ hd
        exact fun h0 => List.cons_ne_nil _ _ (htail h0)
      have hsame : printedBody x 10 flags precision =
          grouped (chr '_') (groupWidth flags.seps 3) (digitText flags.upper 8 x.mag (max precision (digitCount 10 x.mag))) := by
        rw [printedBody, printedDigits, digitText_of_lt (hpad.trans (by norm_num)) hpad]
        rfl
      have height : DigitText 8 false (chr '0' :: ch :: rest) := by
        rw [← hbody, hsame]
        exact digitText_reads (by norm_num) (by norm_num)
      have hoctal : horner 8 0 (digitsOf (chr '0' :: ch :: rest)) = x.mag := by
        rw [← hbody, hsame, digitsOf_grouped, digitsOf_digitText (by norm_num) (by norm_num), horner_lowDigits]
        apply Nat.mod_eq_of_lt
        exact hpad.trans_le (Nat.le_self_pow (by omega) 8)
      rw [hzero, horner_cons] at hoctal
      rw [hbody]
      exact parsesBack_octal height.tail hoctal
  · have hdig : asciiDigit (digitChar flags.upper (x.mag / 10 ^ n % 10)) = some (x.mag / 10 ^ n % 10) :=
      asciiDigit_digitChar _ ((Nat.mod_lt _ (by norm_num)).trans (by norm_num))
    have hsign : parseSign uni intStringFnormal (signText x flags ++ printedBody x 10 flags precision) =
        some (some (decide (x.obSize < 0), (signText x flags).length)) := by
      rw [hbody]
      exact parseSign_printed hdig
    apply parsesBack_of hsign _ hten htext (by simp [hbody]) hval
    rw [hbody]
    exact parseRadix_ten hdig hd

theorem prefixText_two_pow {b : ℕ} (hb4 : b ≤ 4) (hnumsys : flags.numsys = true) :
    prefixText (2 ^ b) flags = numsysText (deeAsciiItoaDigits flags.upper) b := by
  rw [prefixText, if_pos ⟨hnumsys, two_pow_ne_ten b hb4⟩, Nat.log_pow (by norm_num)]

/-- The marks that are printed are the ones that are looked for. -/
theorem numsys_marks (upper : Bool) :
    let b := cell (deeAsciiItoaDigits upper) 11
    let x := cell (deeAsciiItoaDigits upper) 33
    (b ≠ backslash ∧ (if b = chr 'x' ∨ b = chr 'X' then 16 else if b = chr 'b' ∨ b = chr 'B' then 2 else 0) = 2) ∧
      x ≠ backslash ∧ (if x = chr 'x' ∨ x = chr 'X' then 16 else if x = chr 'b' ∨ x = chr 'B' then 2 else 0) = 16 := by
  cases upper <;> decide

/-- Printed integers are read back. A decimal has no number system to print, so it is found to be one if no zeros stand in
front of it, and it is the same octal number below 8. -/
theorem print_reads_back (uni : UniTable) (sizeHint : ℕ → ℕ → ℕ) (flags : PrintFlags) (hx : x.Canonical)
    (hsize : 30 * x.absSize < 2 ^ 63) (hradix : Printable radix) (hprec : precision < 2 ^ 64) :
    ∃ t, deeIntPrint x radix flags precision = some (.ok t) ∧ RightText uni sizeHint x radix flags precision t := by
  obtain ⟨r, hrun, rfl⟩ := deeIntPrint_ends hx hsize hradix hprec
  have htext : printedText x radix flags precision =
      signText x flags ++ prefixText radix flags ++ printedBody x radix flags precision := rfl
  refine ⟨_, hrun, ⟨_, htext, groupedText_printedBody hradix⟩, fun hnumsys => ?_, fun hnumsys hfour hten => ?_⟩
  · have hpre : prefixText radix flags = [] := if_neg (by simp [hnumsys])
    rw [htext, hpre, List.append_nil]
    exact parsesBack_given hradix
  · rw [htext, List.append_assoc]
    simp only [Printable, List.mem_cons, List.not_mem_nil, or_false] at hradix
    rcases hradix with rfl | rfl | rfl | rfl | rfl
    · have hpre : prefixText 2 flags = [chr '0', cell (deeAsciiItoaDigits flags.upper) 11] :=
        prefixText_two_pow (b := 1) (by norm_num) hnumsys
      rw [hpre]
      exact parsesBack_marked (by simp [Printable]) (numsys_marks flags.upper).1.1 (numsys_marks flags.upper).1.2
    · exact absurd rfl hfour
    · have hpre : prefixText 8 flags = [chr '0'] := prefixText_two_pow (b := 3) (by norm_num) hnumsys
      have height : Printable 8 := by simp [Printable]
      obtain ⟨n, tail, -, hbody, -⟩ := printedBody_head x 8 flags precision
      have hdigits := @printedBody_text x 8 precision flags height
      have hval := @horner_printedBody x 8 precision flags height
      rw [hbody] at hdigits hval
      rw [hpre, hbody]
      exact parsesBack_octal hdigits hval
    · have hpre : prefixText 10 flags = [] := if_neg (by simp)
      rw [hpre, List.nil_append]
      exact parsesBack_decimal (hten rfl)
    · have hpre : prefixText 16 flags = [chr '0', cell (deeAsciiItoaDigits flags.upper) 33] :=
        prefixText_two_pow (b := 4) (by norm_num) hnumsys
      rw [hpre]
      exact parsesBack_marked (by simp [Printable]) (numsys_marks flags.upper).2.1 (numsys_marks flags.upper).2.2

/-- The number 1234567 in groups. -/
theorem print_reads_back_groups :
    ∃ t, deeIntPrint ⟨1, [1234567]⟩ 10 ⟨false, true, true, true⟩ 0 = some (.ok t) ∧
      RightText ⟨fun _ => 0xff, fun _ => none, fun _ => false⟩ (fun _ _ => 0) ⟨1, [1234567]⟩ 10 ⟨false, true, true, true⟩ 0 t :=
  print_reads_back _ _ _ (by decide) (by decide) (by simp [Printable]) (by decide)

/-- The decimal 10 with three digits is read as the octal number 8. -/
theorem print_octal :
    deeIntPrint ⟨1, [10]⟩ 10 ⟨false, true, false, false⟩ 3 = some (.ok [0x30, 0x31, 0x30]) ∧
    (∀ uni sizeHint, deeIntFromString uni sizeHint [0x30, 0x31, 0x30] 0 intStringFnormal = some (.ok (some ⟨1, [8]⟩))) ∧
    ¬∀ (uni : UniTable) (sizeHint : ℕ → ℕ → ℕ) (x : DeeInt) (radix precision : ℕ) (flags : PrintFlags), x.Canonical →
      30 * x.absSize < 2 ^ 63 → precision < 2 ^ 64 → flags.numsys = true → radix ∈ [2, 8, 10, 16] →
      ∃ t, deeIntPrint x radix flags precision = some (.ok t) ∧ ParsesBack uni sizeHint t 0 x := by
  have hprint : deeIntPrint ⟨1, [10]⟩ 10 ⟨false, true, false, false⟩ 3 = some (.ok [0x30, 0x31, 0x30]) := by decide
  have hparse : ∀ uni sizeHint, deeIntFromString uni sizeHint [0x30, 0x31, 0x30] 0 intStringFnormal =
      some (.ok (some ⟨1, [8]⟩)) := fun uni sizeHint => rfl
  refine ⟨hprint, hparse, fun hall => ?_⟩
  obtain ⟨t, ht, z, hz, -, hval⟩ := hall ⟨fun _ => 0xff, fun _ => none, fun _ => false⟩ (fun _ _ => 0) ⟨1, [10]⟩ 10 3
    ⟨false, true, false, false⟩ (by decide) (by decide) (by decide) rfl (by decide)
  obtain rfl : [0x30, 0x31, 0x30] = t := Except.ok.inj (Option.some.inj (hprint.symm.trans ht))
  rw [hparse] at hz
  obtain rfl : (⟨1, [8]⟩ : DeeInt) = z := Option.some.inj (Except.ok.inj (Option.some.inj hz))
  revert hval
  decide

end RoundTrip

end Deemon.Int
