import Deemon.Unicode.PackUtf16

/-!
# Encoding as UTF-16

Strings of single bytes are encoded right, and so are wider ones without characters that need a pair or a replacement.
Pairs are written without the subtraction of `0x10000`, and the repaired copy of a 2-byte string goes on at index 1
whatever the index of the first bad character.
-/

namespace Deemon.Unicode

open Deemon.Run

section Buffer

variable {mode : ErrorMode} {buf : List (Option ℕ)} {dst ch : ℕ} {units str : List ℕ}

theorem putUnits_eq (h : dst + units.length ≤ buf.length) :
    putUnits (buf, dst) units =
      some (buf.take dst ++ units.map some ++ buf.drop (dst + units.length), dst + units.length) := by
  induction units generalizing buf dst with
  | nil => simp [putUnits]
  | cons u units ih =>
    rw [List.length_cons] at h
    have hput : putUnit (buf, dst) u = some (buf.set dst (some u), dst + 1) := if_pos (by dsimp only; omega)
    have hlen : (buf.take dst).length = dst := by rw [List.length_take]; omega
    unfold putUnits at ih ⊢
    rw [List.foldlM_cons, hput, some_bind, ih (by rw [List.length_set]; omega)]
    have htake : (buf.set dst (some u)).take (dst + 1) = buf.take dst ++ [some u] := by
      rw [List.take_succ_eq_append_getElem (by rw [List.length_set]; omega), List.take_set_of_le le_rfl]
      simp
    have hdrop : (buf.set dst (some u)).drop (dst + 1 + units.length) = buf.drop (dst + (units.length + 1)) := by
      rw [List.drop_set_of_lt (by omega), Nat.add_right_comm, Nat.add_assoc]
    rw [htake, hdrop, List.map_cons, List.length_cons, Nat.add_assoc dst 1, Nat.add_comm 1, List.append_assoc (buf.take dst)]
    rfl

theorem putUnit_eq (h : dst < buf.length) :
    putUnit (buf, dst) ch = some (buf.take dst ++ some ch :: buf.drop (dst + 1), dst + 1) := by
  unfold putUnit
  rw [if_pos h, List.set_eq_take_append_cons_drop, if_pos h]

theorem foldlM_putUnits (f : ℕ → List ℕ) (s : List (Option ℕ) × ℕ) :
    str.foldlM (fun s ch => putUnits s (f ch)) s = putUnits s (str.flatMap f) := by
  induction str generalizing s with
  | nil => rfl
  | cons ch str ih =>
    unfold putUnits at ih ⊢
    rw [List.foldlM_cons, List.flatMap_cons, List.foldlM_append]
    exact congrArg _ (funext ih)

end Buffer

/-! ### The standard -/

section Standard

variable {mode : ErrorMode} {cs : List ℕ} {c : ℕ}

theorem writeUtf16_of_le (h : c ≤ 0xffff) : writeUtf16 c = [c] := if_pos h

theorem utf16_of_forall_le (h : ∀ c ∈ cs, c ≤ 0xffff) : utf16 cs = cs := by
  induction cs with
  | nil => rfl
  | cons c cs ih =>
    have hc := writeUtf16_of_le (h c List.mem_cons_self)
    have hrest : utf16 cs = cs := ih fun c hc => h c (List.mem_cons_of_mem _ hc)
    unfold utf16 at hrest ⊢
    rw [List.flatMap_cons, hc, hrest]
    rfl

/-- The standard encoding is read back. -/
theorem wellPaired_utf16 (h : ∀ c ∈ cs, IsScalar c) : WellPaired (utf16 cs) cs := by
  induction cs with
  | nil => exact .nil
  | cons c cs ih =>
    have hrest := ih fun c hc => h c (List.mem_cons_of_mem _ hc)
    obtain ⟨hhigh, -, hmax⟩ := h c List.mem_cons_self
    have hcons : utf16 (c :: cs) = writeUtf16 c ++ utf16 cs := List.flatMap_cons
    rw [hcons]
    unfold writeUtf16
    split_ifs with hc
    · exact .unit hhigh hrest
    · have hpair : pairChar (0xd800 + (c - 0x10000) / 2 ^ 10) (0xdc00 + (c - 0x10000) % 2 ^ 10) = c := by
        unfold pairChar
        omega
      have hfirst : IsHigh (0xd800 + (c - 0x10000) / 2 ^ 10) := by
        unfold IsHigh
        omega
      have hsecond : IsLow (0xdc00 + (c - 0x10000) % 2 ^ 10) := by
        unfold IsLow
        omega
      have hpaired := WellPaired.pair hfirst hsecond hrest
      rwa [hpair] at hpaired

theorem scalarForm_of_isScalar (h : IsScalar c) : scalarForm mode c = [c] := if_pos h

theorem flatMap_scalarForm (h : ∀ c ∈ cs, IsScalar c) : cs.flatMap (scalarForm mode) = cs := by
  induction cs with
  | nil => rfl
  | cons c cs ih =>
    rw [List.flatMap_cons, scalarForm_of_isScalar (h c List.mem_cons_self), ih fun c hc => h c (List.mem_cons_of_mem _ hc)]
    rfl

theorem encoding_of_isScalar (h : ∀ c ∈ cs, IsScalar c) : encoding mode cs = some (utf16 cs) := by
  unfold encoding
  rw [if_pos (Or.inl h), flatMap_scalarForm h]

/-- The units of one character under an error mode. -/
def encodedForm (mode : ErrorMode) (c : ℕ) : List ℕ := (scalarForm mode c).flatMap writeUtf16

theorem utf16_flatMap_scalarForm : utf16 (cs.flatMap (scalarForm mode)) = cs.flatMap (encodedForm mode) :=
  List.flatMap_assoc

end Standard

/-! ### Strings of 4-byte characters -/

section Byte4

variable {mode : ErrorMode} {str : List ℕ} {c n : ℕ}

theorem encodedForm_of_not_isScalar (h : ¬IsScalar c) :
    encodedForm mode c = if mode.fignore then [] else [chr '?'] := by
  unfold encodedForm scalarForm
  rw [if_neg h]
  split_ifs <;> rfl

theorem encodedForm_of_isScalar (h : IsScalar c) : encodedForm mode c = writeUtf16 c := by
  unfold encodedForm
  rw [scalarForm_of_isScalar h]
  exact List.append_nil _

theorem isScalar_iff_of_le (h : c ≤ 0xffff) : IsScalar c ↔ ¬(IsHigh c ∨ IsLow c) := by
  unfold IsScalar
  rw [not_or]
  exact ⟨fun h => ⟨h.1, h.2.1⟩, fun h' => ⟨h'.1, h'.2, by omega⟩⟩

theorem isScalar_of_gt (h : 0xffff < c) (hmax : c ≤ 0x10ffff) : IsScalar c := by
  refine ⟨fun h' => ?_, fun h' => ?_, hmax⟩
  · have := h'.2
    omega
  · have := h'.2
    omega

theorem fixedChar_eq (h : c ≤ 0xffff) : fixedChar mode c = encodedForm mode c := by
  unfold fixedChar
  by_cases hc : IsHigh c ∨ IsLow c
  · rw [if_pos hc, encodedForm_of_not_isScalar fun hs => (isScalar_iff_of_le h).mp hs hc]
  · rw [if_neg hc, encodedForm_of_isScalar ((isScalar_iff_of_le h).mpr hc), writeUtf16_of_le h]

theorem length_encodedChar : (encodedChar mode c).length = (encodedForm mode c).length := by
  unfold encodedChar
  split_ifs with hc hmax
  · rw [fixedChar_eq hc]
  · rw [encodedForm_of_not_isScalar fun hs => Nat.not_le_of_lt hmax hs.2.2, if_pos ‹_›]
  · rw [encodedForm_of_not_isScalar fun hs => Nat.not_le_of_lt hmax hs.2.2, if_neg ‹_›]
  · rw [encodedForm_of_isScalar (isScalar_of_gt (by omega) (by omega))]
    unfold writeUtf16
    rw [if_neg hc]
    simp only [List.length_cons, List.length_nil]

/-- The pair for a character is never the right one: the high surrogate is too large by `0x10000 >> 10`. -/
theorem encodedChar_eq_iff : encodedChar mode c = encodedForm mode c ↔ c ≤ 0xffff ∨ 0x10ffff < c := by
  unfold encodedChar
  split_ifs with hc hmax
  · exact iff_of_true (fixedChar_eq hc) (Or.inl hc)
  · rw [encodedForm_of_not_isScalar fun hs => Nat.not_le_of_lt hmax hs.2.2, if_pos ‹_›]
    exact iff_of_true rfl (Or.inr hmax)
  · rw [encodedForm_of_not_isScalar fun hs => Nat.not_le_of_lt hmax hs.2.2, if_neg ‹_›]
    exact iff_of_true rfl (Or.inr hmax)
  · refine iff_of_false (fun heq => ?_) (not_or_intro hc hmax)
    rw [encodedForm_of_isScalar (isScalar_of_gt (by omega) (by omega))] at heq
    unfold writeUtf16 at heq
    rw [if_neg hc] at heq
    have hhigh := (List.cons.inj heq).1
    rw [Nat.shiftRight_eq_div_pow] at hhigh
    omega

theorem countUnits_eq (h : 1 ≤ n) :
    countUnits mode n c =
      if IsScalar c ∨ mode.freplac ∨ mode.fignore then some (n - 1 + (encodedForm mode c).length) else none := by
  unfold countUnits
  by_cases hs : IsScalar c
  · rw [if_pos (Or.inl hs), encodedForm_of_isScalar hs]
    unfold writeUtf16
    by_cases hc : c ≤ 0xffff
    · rw [if_pos ⟨hc, (isScalar_iff_of_le hc).mp hs⟩, if_pos hc, List.length_singleton, Nat.sub_add_cancel h]
    · rw [if_neg fun h => hc h.1, if_neg (not_or_intro hc (Nat.not_lt_of_le hs.2.2)), if_neg hc]
      have hlen : [0xd800 + (c - 0x10000) / 2 ^ 10, 0xdc00 + (c - 0x10000) % 2 ^ 10].length = 2 := rfl
      rw [hlen, show n - 1 + 2 = n + 1 by omega]
  · have hbad : c ≤ 0xffff ∨ 0x10ffff < c := by
      by_contra hgood
      exact hs (isScalar_of_gt (by omega) (by omega))
    rw [if_neg fun h => hs ((isScalar_iff_of_le h.1).mpr h.2), if_pos hbad, encodedForm_of_not_isScalar hs]
    by_cases hmode : mode.freplac ∨ mode.fignore
    · rw [if_neg (not_not_intro hmode), if_pos (Or.inr hmode)]
      split_ifs
      · rfl
      · rw [List.length_singleton, Nat.sub_add_cancel h]
    · rw [if_pos hmode, if_neg (not_or_intro hs hmode)]

theorem foldlM_countUnits (h : str.length ≤ n) :
    str.foldlM (countUnits mode) n =
      if (∀ c ∈ str, IsScalar c) ∨ mode.freplac ∨ mode.fignore then
        some (n - str.length + (str.flatMap (encodedForm mode)).length)
      else none := by
  induction str generalizing n with
  | nil => simp
  | cons c str ih =>
    rw [List.length_cons] at h
    rw [List.foldlM_cons, countUnits_eq (by omega)]
    by_cases hc : IsScalar c ∨ mode.freplac ∨ mode.fignore
    · have hall : ((∀ c' ∈ c :: str, IsScalar c') ∨ mode.freplac ∨ mode.fignore) ↔
          (∀ c' ∈ str, IsScalar c') ∨ mode.freplac ∨ mode.fignore := by
        rw [List.forall_mem_cons]
        tauto
      rw [if_pos hc, some_bind, ih (by omega)]
      simp only [hall, List.flatMap_cons, List.length_append, List.length_cons]
      congr 2
      omega
    · rw [if_neg hc, if_neg]
      · rfl
      · rintro (hall | hmode)
        · exact hc (Or.inl (hall c List.mem_cons_self))
        · exact hc (Or.inr hmode)

theorem length_flatMap_congr {f g : ℕ → List ℕ} (h : ∀ c, (f c).length = (g c).length) :
    (str.flatMap f).length = (str.flatMap g).length := by
  rw [List.length_flatMap, List.length_flatMap]
  exact congrArg List.sum (List.map_congr_left fun c _ => h c)

theorem flatMap_eq_iff {f g : ℕ → List ℕ} (h : ∀ c, (f c).length = (g c).length) :
    str.flatMap f = str.flatMap g ↔ ∀ c ∈ str, f c = g c := by
  induction str with
  | nil => simp
  | cons c str ih =>
    rw [List.flatMap_cons, List.flatMap_cons, List.forall_mem_cons, ← ih]
    exact ⟨fun heq => List.append_inj heq (h c), fun ⟨hfirst, hrest⟩ => by rw [hfirst, hrest]⟩

theorem asUtf16Byte4_eq :
    asUtf16Byte4 mode str =
      if (∀ c ∈ str, IsScalar c) ∨ mode.freplac ∨ mode.fignore then
        some (some ((str.flatMap (encodedChar mode)).map some))
      else some none := by
  unfold asUtf16Byte4
  rw [foldlM_countUnits le_rfl]
  by_cases hmode : (∀ c ∈ str, IsScalar c) ∨ mode.freplac ∨ mode.fignore
  · rw [if_pos hmode, if_pos hmode, Nat.sub_self, Nat.zero_add,
      ← length_flatMap_congr (f := encodedChar mode) fun c => length_encodedChar]
    dsimp only
    have hlen : ∀ n, (new2ByteBuffer n).length = n + 1 := fun n => List.length_replicate
    rw [foldlM_putUnits, putUnits_eq (by rw [hlen]; omega), some_bind]
    dsimp only
    rw [putUnit_eq (by simp [hlen]), some_bind]
    simp
  · rw [if_neg hmode, if_neg hmode]

end Byte4

/-! ### Strings of 2-byte characters -/

section Byte2

variable {mode : ErrorMode} {l r : List ℕ} {x : ℕ}

theorem eq_of_cons_eq_concat {α : Type} {a b : α} {l : List α} (h : a :: l = l ++ [b]) : a = b := by
  induction l with
  | nil => exact (List.cons.inj h).1
  | cons c l ih =>
    obtain ⟨rfl, hrest⟩ := List.cons.inj h
    exact ih hrest

/-- The index of the first surrogate splits the string. -/
theorem findIdx?_surrogate {str : List ℕ} {i : ℕ} (h : str.findIdx? (fun ch => IsHigh ch ∨ IsLow ch) = some i) :
    ∃ l x r, str = l ++ x :: r ∧ l.length = i ∧ (∀ c ∈ l, ¬(IsHigh c ∨ IsLow c)) ∧ (IsHigh x ∨ IsLow x) := by
  obtain ⟨hi, hx, hl⟩ := List.findIdx?_eq_some_iff_getElem.mp h
  refine ⟨str.take i, str[i], str.drop (i + 1), ?_, ?_, fun c hc => ?_, of_decide_eq_true hx⟩
  · rw [← List.drop_eq_getElem_cons hi, List.take_append_drop]
  · rw [List.length_take, Nat.min_eq_left hi.le]
  · obtain ⟨j, hj, rfl⟩ := List.mem_take_iff_getElem.mp hc
    have hji : j < i := by omega
    exact of_decide_eq_false (Bool.eq_false_of_not_eq_true (hl j hji))

theorem length_fixedChar_le (c : ℕ) : (fixedChar mode c).length ≤ 1 := by
  unfold fixedChar
  split_ifs <;> simp

theorem length_flatMap_fixedChar_le : (r.flatMap (fixedChar mode)).length ≤ r.length := by
  induction r with
  | nil => exact le_rfl
  | cons c r ih =>
    have hc := @length_fixedChar_le mode c
    rw [List.flatMap_cons, List.length_append, List.length_cons]
    omega

theorem length_flatMap_fixedChar (h : ¬mode.fignore) : (r.flatMap (fixedChar mode)).length = r.length := by
  have hone : ∀ c, (fixedChar mode c).length = [c].length := fun c => by
    unfold fixedChar
    rw [if_neg h]
    split_ifs <;> rfl
  rw [length_flatMap_congr hone, List.flatMap_singleton']

/-- The copy before the first bad character is written. -/
def byte2Copy (l r : List ℕ) : List (Option ℕ) := l.map some ++ List.replicate (r.length + 2) none

theorem length_byte2Copy : (byte2Copy l r).length = l.length + (r.length + 2) := by
  unfold byte2Copy
  rw [List.length_append, List.length_map, List.length_replicate]

section Copy

variable {str : List ℕ} (hfind : str.findIdx? (fun ch => IsHigh ch ∨ IsLow ch) = some l.length)
  (hstr : str = l ++ x :: r) (hx : IsHigh x ∨ IsLow x)
include hfind hstr hx

/-- The rest of the string is written from index 1 on. -/
theorem asUtf16Byte2_eq (hmode : mode.freplac ∨ mode.fignore) :
    asUtf16Byte2 mode str =
      (do
        let s ← putUnits (byte2Copy l r, 1) ((x :: r).flatMap (fixedChar mode))
        let s' ← putUnit s 0
        some (some (s'.1.take (if mode.fignore then s.2 else str.length)))) := by
  have htake : str.take l.length = l := by rw [hstr, List.take_left]
  have hdrop : str.drop (l.length + 1) = r := by rw [hstr, List.append_cons, List.drop_left' (by simp)]
  have hlen : str.length = l.length + (r.length + 1) := by rw [hstr, List.length_append, List.length_cons]
  have hbuf : (new2ByteBuffer str.length).length = str.length + 1 := List.length_replicate
  have hcopy : putUnits (new2ByteBuffer str.length, 0) l = some (byte2Copy l r, l.length) := by
    rw [putUnits_eq (by omega)]
    unfold new2ByteBuffer byte2Copy
    rw [List.take_zero, List.nil_append, Nat.zero_add, List.drop_replicate,
      show str.length + 1 - l.length = r.length + 2 by omega]
  have hfirst : (if mode.fignore then some (byte2Copy l r, 1) else putUnit (byte2Copy l r, 1) (chr '?')) =
      putUnits (byte2Copy l r, 1) (fixedChar mode x) := by
    unfold fixedChar putUnits
    rw [if_pos hx]
    split_ifs
    · rfl
    · exact (bind_pure _).symm
  unfold asUtf16Byte2
  rw [hfind]
  dsimp only
  rw [if_neg (not_not_intro hmode), htake, hcopy, some_bind, hdrop]
  simp only [foldlM_putUnits, hfirst]
  rw [List.flatMap_cons]
  unfold putUnits
  rw [List.foldlM_append]
  exact (bind_assoc _ _ _).symm

/-- The buffer is filled up to the terminator; there is no room for that when the first character is bad. -/
theorem asUtf16Byte2_some (hmode : mode.freplac ∨ mode.fignore)
    (hroom : ((x :: r).flatMap (fixedChar mode)).length < l.length + r.length + 1) :
    asUtf16Byte2 mode str =
      some (some (((byte2Copy l r).take 1 ++ ((x :: r).flatMap (fixedChar mode)).map some ++
        some 0 :: (byte2Copy l r).drop (1 + ((x :: r).flatMap (fixedChar mode)).length + 1)).take
          (if mode.fignore then 1 + ((x :: r).flatMap (fixedChar mode)).length else str.length))) := by
  have hlen := @length_byte2Copy l r
  generalize hW : (x :: r).flatMap (fixedChar mode) = W at hroom ⊢
  have hfirst : ((byte2Copy l r).take 1).length = 1 := by rw [List.length_take]; omega
  have hfront : ((byte2Copy l r).take 1 ++ W.map some).length = 1 + W.length := by
    rw [List.length_append, hfirst, List.length_map]
  have hdrop : ((byte2Copy l r).take 1 ++ W.map some ++ (byte2Copy l r).drop (1 + W.length)).drop (1 + W.length + 1) =
      (byte2Copy l r).drop (1 + W.length + 1) := by
    rw [← List.drop_drop, List.drop_left' hfront, List.drop_drop]
  rw [asUtf16Byte2_eq hfind hstr hx hmode, hW, putUnits_eq (by omega), some_bind,
    putUnit_eq (by rw [List.length_append, hfront, List.length_drop]; omega), some_bind, List.take_left' hfront, hdrop]

theorem asUtf16Byte2_none (hignore : ¬mode.fignore) (hreplac : mode.freplac) (hl : l = []) :
    asUtf16Byte2 mode str = none := by
  subst hl
  have hlen := @length_byte2Copy [] r
  have hW := @length_flatMap_fixedChar mode (x :: r) hignore
  rw [List.length_nil, Nat.zero_add] at hlen
  rw [List.length_cons] at hW
  have hend : putUnit ((byte2Copy [] r).take 1 ++ ((x :: r).flatMap (fixedChar mode)).map some ++
      (byte2Copy [] r).drop (1 + ((x :: r).flatMap (fixedChar mode)).length),
      1 + ((x :: r).flatMap (fixedChar mode)).length) 0 = none := by
    unfold putUnit
    refine if_neg ?_
    simp only [List.length_append, List.length_take, List.length_map, List.length_drop]
    omega
  rw [asUtf16Byte2_eq hfind hstr hx (Or.inl hreplac), putUnits_eq (by omega), some_bind, hend]
  rfl

/-- The copy is right if the first bad character is at index 1. -/
theorem asUtf16Byte2_right_iff (hmode : mode.freplac ∨ mode.fignore) :
    asUtf16Byte2 mode str = some (some ((l ++ (x :: r).flatMap (fixedChar mode)).map some)) ↔ l.length = 1 := by
  have hlen := @length_byte2Copy l r
  have hstrlen : str.length = l.length + (r.length + 1) := by rw [hstr, List.length_append, List.length_cons]
  have hW := @length_flatMap_fixedChar mode (x :: r)
  have hsurrogate : (x :: r).flatMap (fixedChar mode) =
      (if mode.fignore then [] else [chr '?']) ++ r.flatMap (fixedChar mode) := by
    rw [List.flatMap_cons]
    unfold fixedChar
    rw [if_pos hx]
  have hsome := asUtf16Byte2_some hfind hstr hx hmode
  rw [List.length_cons] at hW
  have hone : l.length = 1 → (byte2Copy l r).take 1 = l.map some := fun h => by
    unfold byte2Copy
    exact List.take_left' (by rw [List.length_map, h])
  have hfront : ∀ W : List ℕ, ((byte2Copy l r).take 1 ++ W.map some).length = 1 + W.length := fun W => by
    rw [List.length_append, List.length_take, List.length_map]
    omega
  by_cases hignore : mode.fignore
  · -- only the lengths matter
    rw [if_pos hignore, List.nil_append] at hsurrogate
    have hle := @length_flatMap_fixedChar_le mode r
    rw [hsurrogate] at hsome ⊢
    rw [hsome (by omega), if_pos hignore, List.take_left' (hfront _), Option.some.injEq, Option.some.injEq]
    constructor
    · intro heq
      have hlength := congrArg List.length heq
      rw [hfront, List.length_map, List.length_append] at hlength
      omega
    · intro h
      rw [hone h, List.map_append]
  · have hW := hW hignore
    have hreplac : mode.freplac := hmode.resolve_right hignore
    rw [if_neg hignore] at hsurrogate
    by_cases hempty : l = []
    · rw [asUtf16Byte2_none hfind hstr hx hignore hreplac hempty, hempty]
      exact iff_of_false nofun (by decide)
    have hpos : 0 < l.length := List.length_pos_iff.mpr hempty
    rw [hsome (by omega), if_neg hignore, Option.some.injEq, Option.some.injEq, hstrlen, ← hW]
    generalize (x :: r).flatMap (fixedChar mode) = W at *
    constructor
    · intro heq
      by_contra hne
      by_cases htwo : l.length = 2
      · -- the terminator is part of the text
        obtain ⟨p, q, rfl⟩ := List.length_eq_two.mp htwo
        have hfull : (byte2Copy [p, q] r).take 1 ++ W.map some ++ [some 0] = (p :: q :: W).map some := by
          have htake : ((byte2Copy [p, q] r).take 1 ++ W.map some ++ [some 0]).length = [p, q].length + W.length := by
            rw [List.length_append, hfront, List.length_singleton, htwo]
            omega
          rw [List.append_cons, List.take_left' htake] at heq
          exact heq
        have hshift : q :: W = W ++ [0] := by
          have htail : W.map some ++ [some 0] = (q :: W).map some := (List.cons.inj hfull).2
          have hmap : (W ++ [0]).map some = (q :: W).map some := by
            rw [List.map_append]
            exact htail
          exact (List.map_injective_iff.mpr (Option.some_injective _) hmap).symm
        have hzero : q = 0 := eq_of_cons_eq_concat hshift
        rw [hsurrogate] at hshift
        have hmark : q = chr '?' := (List.cons.inj hshift).1
        exact absurd (hzero.symm.trans hmark) (by decide)
      · -- the last unit was never written
        have hend : (byte2Copy l r)[l.length + W.length - 1]? = some none := by
          unfold byte2Copy
          rw [List.getElem?_append_right (by rw [List.length_map]; omega), List.getElem?_replicate, if_pos]
          rw [List.length_map]
          omega
        have hlast := congrArg (fun units => units[l.length + W.length - 1]?) heq
        rw [List.getElem?_take_of_lt (by omega), List.getElem?_append_right (by rw [hfront]; omega), hfront,
          show l.length + W.length - 1 - (1 + W.length) = (l.length - 3) + 1 by omega, List.getElem?_cons_succ,
          List.getElem?_drop, show 1 + W.length + 1 + (l.length - 3) = l.length + W.length - 1 by omega, hend,
          List.getElem?_map] at hlast
        obtain ⟨c, -, hc⟩ := Option.map_eq_some_iff.mp hlast.symm
        cases hc
    · intro h
      rw [h, List.take_left' (hfront W), hone h, List.map_append]

end Copy

end Byte2

/-! ### All strings -/

/-- The characters of a string fit its width, and those of a narrow string are in `s_str`. -/
structure DeeString.Ok (string : DeeString) : Prop where
  byte1 : string.uWidth = .byte1 → string.uData = string.sStr.take string.sLen ∧ ∀ c ∈ string.uData, c < 2 ^ 8
  byte2 : string.uWidth = .byte2 → ∀ c ∈ string.uData, c < 2 ^ 16

/-- `DeeString_AsUtf16` returns the standard encoding, refuses the string if there is none, and
`DeeString_PackUtf16Buffer` reads the characters of the string back. -/
structure EncodesRight (string : DeeString) (mode : ErrorMode) : Prop where
  refuses : encoding mode string.uData = none → deeStringAsUtf16 string mode = some none
  encodes : ∀ units, encoding mode string.uData = some units →
    ∃ string', deeStringAsUtf16 string mode = some (some (units.map some, string'))
  packs : (∀ c ∈ string.uData, IsScalar c) → ∀ mode', ∃ p,
    deeStringPackUtf16Buffer (utf16 string.uData) mode' = some (some p) ∧ p.string.uData = string.uData

/-- What is cached is right; else a 2-byte string that has to be repaired has its first surrogate at index 1, and a
4-byte string that is not refused has no characters that need a pair. -/
def DeeString.Encodable (self : DeeString) (mode : ErrorMode) : Prop :=
  match self.uUtf16 with
  | some units => (encoding mode self.uData).map (·.map some) = some units
  | none =>
    match self.uWidth with
    | .byte1 => True
    | .byte2 => mode.freplac ∨ mode.fignore →
        ∀ i, (self.uData.findIdx? fun ch => IsHigh ch ∨ IsLow ch) = some i → i = 1
    | .byte4 => (∀ c ∈ self.uData, IsScalar c) ∨ mode.freplac ∨ mode.fignore →
        ∀ c ∈ self.uData, c ≤ 0xffff ∨ 0x10ffff < c

section Main

variable {self : DeeString} {mode : ErrorMode}

theorem packs_utf16 {cs : List ℕ} (h : ∀ c ∈ cs, IsScalar c) (mode : ErrorMode) :
    ∃ p, deeStringPackUtf16Buffer (utf16 cs) mode = some (some p) ∧ p.string.uData = cs := by
  have hpaired := wellPaired_utf16 h
  have hlone : ¬HasLoneHigh (utf16 cs) := by
    rw [← decodeUtf16_eq_none_iff, hpaired.decodeUtf16]
    exact Option.some_ne_none _
  have hright := @packsRight_of_not_replaced mode (utf16 cs) fun _ => hlone
  unfold PacksRight at hright
  rw [hpaired.decodeUtf16] at hright
  obtain ⟨p, hp, hchars, -⟩ := hright
  exact ⟨p, hp, hchars⟩

/-- The result of `DeeString_AsUtf16` that the standard asks for. -/
theorem encodesRight_iff :
    EncodesRight self mode ↔
      (deeStringAsUtf16 self mode).map (·.map Prod.fst) = some ((encoding mode self.uData).map (·.map some)) := by
  constructor
  · intro h
    cases henc : encoding mode self.uData with
    | none =>
      rw [h.refuses henc]
      rfl
    | some units =>
      obtain ⟨self', hself⟩ := h.encodes units henc
      rw [hself]
      rfl
  · intro h
    refine ⟨fun henc => ?_, fun units henc => ?_, fun hscalar => packs_utf16 hscalar⟩
    · rw [henc] at h
      obtain ⟨r, hr, hnone⟩ := Option.map_eq_some_iff.mp h
      rw [hr, Option.map_eq_none_iff.mp hnone]
    · rw [henc] at h
      obtain ⟨r, hr, hsome⟩ := Option.map_eq_some_iff.mp h
      obtain ⟨⟨units', self'⟩, rfl, rfl⟩ := Option.map_eq_some_iff.mp hsome
      exact ⟨self', hr⟩

theorem asUtf16Byte2_iff {str : List ℕ} (hstr : ∀ c ∈ str, c < 2 ^ 16) :
    asUtf16Byte2 mode str = some ((encoding mode str).map (·.map some)) ↔
      (mode.freplac ∨ mode.fignore →
        ∀ i, (str.findIdx? fun ch => IsHigh ch ∨ IsLow ch) = some i → i = 1) := by
  have hle : ∀ c ∈ str, c ≤ 0xffff := fun c hc => Nat.le_of_lt_succ (hstr c hc)
  cases hfind : str.findIdx? fun ch => IsHigh ch ∨ IsLow ch with
  | none =>
    have hscalar : ∀ c ∈ str, IsScalar c := fun c hc => by
      rw [isScalar_iff_of_le (hle c hc)]
      exact of_decide_eq_false (List.findIdx?_eq_none_iff.mp hfind c hc)
    rw [encoding_of_isScalar hscalar, utf16_of_forall_le hle]
    unfold asUtf16Byte2
    rw [hfind]
    exact iff_of_true rfl fun _ _ h => by cases h
  | some i =>
    obtain ⟨l, x, r, rfl, rfl, hl, hx⟩ := findIdx?_surrogate hfind
    have hbad : ¬∀ c ∈ l ++ x :: r, IsScalar c := fun h =>
      (isScalar_iff_of_le (hle x (by simp))).mp (h x (by simp)) hx
    unfold encoding
    by_cases hmode : mode.freplac ∨ mode.fignore
    · have hfixed : utf16 ((l ++ x :: r).flatMap (scalarForm mode)) = l ++ (x :: r).flatMap (fixedChar mode) := by
        have hfront : l.flatMap (fixedChar mode) = l.flatMap fun c => [c] :=
          List.flatMap_congr fun c hc => if_neg (hl c hc)
        rw [utf16_flatMap_scalarForm, ← List.flatMap_congr fun c hc => fixedChar_eq (hle c hc), List.flatMap_append,
          hfront, List.flatMap_singleton']
      rw [if_pos (Or.inr hmode), hfixed]
      refine (asUtf16Byte2_right_iff hfind rfl hx hmode).trans ⟨fun h _ i hi => ?_, fun h => h hmode _ rfl⟩
      rw [← Option.some.inj hi, h]
    · rw [if_neg (not_or_intro hbad hmode)]
      unfold asUtf16Byte2
      rw [hfind]
      dsimp only
      rw [if_pos hmode]
      exact iff_of_true rfl fun h => absurd h hmode

theorem asUtf16Byte4_iff {str : List ℕ} :
    asUtf16Byte4 mode str = some ((encoding mode str).map (·.map some)) ↔
      ((∀ c ∈ str, IsScalar c) ∨ mode.freplac ∨ mode.fignore → ∀ c ∈ str, c ≤ 0xffff ∨ 0x10ffff < c) := by
  rw [asUtf16Byte4_eq]
  unfold encoding
  by_cases hmode : (∀ c ∈ str, IsScalar c) ∨ mode.freplac ∨ mode.fignore
  · rw [if_pos hmode, if_pos hmode, utf16_flatMap_scalarForm, Option.map_some, Option.some.injEq, Option.some.injEq,
      (List.map_injective_iff.mpr (Option.some_injective _)).eq_iff, flatMap_eq_iff fun c => length_encodedChar]
    simp only [encodedChar_eq_iff]
    exact ⟨fun h _ => h, fun h => h hmode⟩
  · rw [if_neg hmode, if_neg hmode]
    exact iff_of_true rfl fun h => absurd h hmode

/-- UTF-16 is encoded right, and decoded to the same characters, for exactly these strings. -/
theorem encodesRight_iff_encodable (hself : self.Ok) : EncodesRight self mode ↔ self.Encodable mode := by
  rw [encodesRight_iff]
  unfold deeStringAsUtf16 DeeString.Encodable
  cases self.uUtf16 with
  | some units =>
    dsimp only
    rw [Option.map_some, Option.map_some, Option.some.injEq]
    exact eq_comm
  | none =>
    have hunits : ((asUtf16Uncached self mode).map
        (·.map fun units => (units, { self with uUtf16 := some units }))).map (·.map Prod.fst) =
          asUtf16Uncached self mode := by
      rcases asUtf16Uncached self mode with _ | _ | units <;> rfl
    dsimp only
    rw [hunits]
    unfold asUtf16Uncached
    cases hwidth : self.uWidth with
    | byte1 =>
      obtain ⟨hdata, hlt⟩ := hself.byte1 hwidth
      have hle : ∀ c ∈ self.uData, c ≤ 0xffff := fun c hc => (hlt c hc).le.trans (by norm_num)
      have hscalar : ∀ c ∈ self.uData, IsScalar c := fun c hc => by
        have hc := hlt c hc
        refine ⟨fun h => ?_, fun h => ?_, by omega⟩
        · have := h.1
          omega
        · have := h.1
          omega
      rw [encoding_of_isScalar hscalar, utf16_of_forall_le hle, hdata]
      exact iff_of_true rfl trivial
    | byte2 => exact asUtf16Byte2_iff (hself.byte2 hwidth)
    | byte4 => exact asUtf16Byte4_iff

end Main

/-- The price `"€9"` is encoded right. -/
theorem encodesRight_euro : EncodesRight ⟨4, [0xe2, 0x82, 0xac, 0x39], .byte2, [0x20ac, 0x39], none, none, false⟩ .replac :=
  (encodesRight_iff_encodable ⟨fun h => (by cases h), fun _ => (by decide)⟩).mpr fun _ _ h => by cases h

/-- The pair for U+10000 is `0xd840, 0xdc00`, not `0xd800, 0xdc00`. -/
theorem encodesRight_counterexample :
    ¬EncodesRight ⟨4, [0xf0, 0x90, 0x80, 0x80], .byte4, [0x10000], none, none, false⟩ .strict := fun h => by
  obtain ⟨string', hstring⟩ := h.encodes [0xd800, 0xdc00] (by decide)
  have hunits := (Prod.mk.inj (Option.some.inj (Option.some.inj hstring))).1
  exact absurd hunits (by decide)

end Deemon.Unicode
