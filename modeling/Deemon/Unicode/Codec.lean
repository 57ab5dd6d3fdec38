import Deemon.Lib.Cells
import Deemon.Unicode.Strings

/-!
# Codec names

`DeeCodec_NormalizeName` lower-cases a name, replaces underscores by dashes, and removes the dash of a leading `iso-` or
`cp-`. There are two paths: a name with an upper-case letter or an underscore is rewritten in a new buffer and shifted
there, any other is copied without its dash.
-/

namespace Deemon.Unicode

open Deemon.Run

/-! ### The code -/

/-- The case of the characters from `0x80` on. -/
structure CaseTable where
  isUpper : ℕ → Bool
  toLower : ℕ → ℕ

/-- `DeeUni_IsUpper`. -/
def CaseTable.deeUniIsUpper (uni : CaseTable) (ch : ℕ) : Bool :=
  if ch < 0x80 then chr 'A' ≤ ch ∧ ch ≤ chr 'Z' else uni.isUpper (charArg ch)

/-- `DeeUni_ToLower`, of an upper-case character. -/
def CaseTable.deeUniToLower (uni : CaseTable) (ch : ℕ) : ℕ :=
  if ch < 0x80 then ch + 0x20 else uni.toLower (charArg ch) % 2 ^ 8

/-- Whether a character makes the name be rewritten. -/
def CaseTable.rewrites (uni : CaseTable) (ch : ℕ) : Bool := ch = chr '_' ∨ uni.deeUniIsUpper ch

/-- What is written for a character. -/
def CaseTable.rewrite (uni : CaseTable) (ch : ℕ) : ℕ :=
  if ch = chr '_' then chr '-' else if uni.deeUniIsUpper ch then uni.deeUniToLower ch else ch

/-- The heads of names that have their dash removed. -/
abbrev isoDash : List ℕ := [chr 'i', chr 's', chr 'o', chr '-']

abbrev cpDash : List ℕ := [chr 'c', chr 'p', chr '-']

/-- `DeeString_NewBuffer`: only the byte behind the characters is set. -/
def newBuffer (memory : ℕ → ℕ) (length : ℕ) : List ℕ := (List.range length).map memory ++ [0]

/-- The characters of the result, up to `s_len`. -/
def deeCodecNormalizeName (uni : CaseTable) (memory : ℕ → ℕ) (str : List ℕ) : Option (List ℕ) :=
  let length := str.length
  let iter := str.findIdx uni.rewrites
  if iter < length then do
    let result ← copyCells (newBuffer memory length) 0 str 0 iter
    let result ← mapCells uni.rewrite result iter str iter (length - iter)
    if 4 ≤ length ∧ result.take 4 = isoDash then do
      let result ← memmovedown result 3 4 (length - 4)
      let result ← wr result (length - 2) 0
      some (result.take (length - 1))
    else if 3 ≤ length ∧ result.take 3 = cpDash then do
      let result ← memmovedown result 2 3 (length - 3)
      let result ← wr result (length - 2) 0
      some (result.take (length - 1))
    else some (result.take length)
  else if 4 ≤ length ∧ str.take 4 = isoDash then do
    let result ← wr (newBuffer memory (length - 1)) 0 (chr 'i')
    let result ← wr result 1 (chr 's')
    let result ← wr result 3 (chr 'o')
    let result ← copyCells result 3 str 4 (length - 4)
    some (result.take (length - 1))
  else if 3 ≤ length ∧ str.take 3 = cpDash then do
    let result ← wr (newBuffer memory (length - 1)) 0 (chr 'c')
    let result ← wr result 1 (chr 'p')
    let result ← copyCells result 2 str 3 (length - 3)
    some (result.take (length - 1))
  else some str

/-! ### Normal names -/

/-- An ASCII character in lower case, with a dash for an underscore. -/
def lowered (ch : ℕ) : ℕ :=
  if ch = chr '_' then chr '-' else if chr 'A' ≤ ch ∧ ch ≤ chr 'Z' then ch + 0x20 else ch

/-- The name without the dash of a leading `iso-` or `cp-`. -/
def withoutDash (name : List ℕ) : List ℕ :=
  if isoDash <+: name then name.take 3 ++ name.drop 4
  else if cpDash <+: name then name.take 2 ++ name.drop 3
  else name

/-- The normal form of a name. -/
def normalizedName (name : List ℕ) : List ℕ := withoutDash (name.map lowered)

section Normalize

variable {uni : CaseTable} {str rest : List ℕ} {memory : ℕ → ℕ}

theorem rewrite_eq {ch : ℕ} (h : ch < 0x80) : uni.rewrite ch = lowered ch := by
  simp [CaseTable.rewrite, CaseTable.deeUniIsUpper, CaseTable.deeUniToLower, lowered, h]

theorem rewrites_iff {ch : ℕ} (h : ch < 0x80) : uni.rewrites ch = true ↔ lowered ch ≠ ch := by
  simp only [CaseTable.rewrites, CaseTable.deeUniIsUpper, lowered, chr, Char.reduceToNat, if_pos h, decide_eq_true_eq]
  split_ifs with h1 h2
  · exact iff_of_true (.inl h1) (by omega)
  · exact iff_of_true (.inr h2) (by omega)
  · exact iff_of_false (fun h => h.elim h1 h2) (fun h => h rfl)

theorem lowered_eq_zero {ch : ℕ} : lowered ch = 0 ↔ ch = 0 := by
  unfold lowered
  simp only [chr, Char.reduceToNat]
  split_ifs with h1 h2
  · exact iff_of_false (by decide) (by omega)
  · exact iff_of_false id (by omega)
  · exact Iff.rfl

theorem lowered_lowered (ch : ℕ) : lowered (lowered ch) = lowered ch := by
  simp only [lowered, chr, Char.reduceToNat]
  split_ifs <;> omega

/-- The rewritten name in the new buffer. -/
theorem rewritten_buffer (hascii : ∀ ch ∈ str, ch < 0x80) :
    ∃ result, copyCells (newBuffer memory str.length) 0 str 0 (str.findIdx uni.rewrites) = some result ∧
      mapCells uni.rewrite result (str.findIdx uni.rewrites) str (str.findIdx uni.rewrites)
        (str.length - str.findIdx uni.rewrites) = some (str.map lowered ++ [0]) := by
  have hidx : str.findIdx uni.rewrites ≤ str.length := List.findIdx_le_length
  have hlen : (newBuffer memory str.length).length = str.length + 1 := by simp [newBuffer]
  have hkept : ∀ ch ∈ str.take (str.findIdx uni.rewrites), lowered ch = ch := by
    intro ch hch
    obtain ⟨i, hi, rfl⟩ := List.mem_take_iff_getElem.mp hch
    have hnot := List.not_of_lt_findIdx (lt_of_lt_of_le hi (min_le_left _ _))
    by_contra hne
    rw [(rewrites_iff (hascii _ (List.getElem_mem _))).mpr hne] at hnot
    exact absurd hnot (by decide)
  have hrewrite : (str.drop (str.findIdx uni.rewrites)).map uni.rewrite =
      (str.drop (str.findIdx uni.rewrites)).map lowered :=
    List.map_congr_left fun ch hch => rewrite_eq (hascii ch (List.mem_of_mem_drop hch))
  refine ⟨_, copyCells_eq (by omega) (by omega), ?_⟩
  have hfront : ((str.take (str.findIdx uni.rewrites)).length) = str.findIdx uni.rewrites := by
    rw [List.length_take, min_eq_left hidx]
  have hend : (newBuffer memory str.length).drop str.length = [0] := by
    rw [newBuffer, List.drop_left' (by simp)]
  rw [mapCells_eq _ (by simp; omega) (by omega)]
  congr 1
  rw [List.take_zero, List.nil_append, List.drop_zero, Nat.zero_add, List.take_left' hfront,
    List.take_of_length_le (l := str.drop _) (by simp), hrewrite, Nat.add_sub_cancel' hidx,
    List.drop_append, hfront, List.drop_of_length_le (l := str.take _) (by omega), List.nil_append, List.drop_drop,
    Nat.add_sub_cancel' hidx, hend, ← List.append_assoc, ← List.map_id (str.take _),
    List.map_congr_left (f := id) (g := lowered) fun ch hch => (hkept ch hch).symm, ← List.map_append,
    List.take_append_drop]

theorem set_last_eq {l : List ℕ} {i : ℕ} (hi : i + 1 = l.length) : l.set i 0 = l ↔ l.getLast? = some 0 := by
  rw [List.getLast?_eq_getElem?, show l.length - 1 = i by omega]
  constructor
  · intro h
    rw [← h, List.getElem?_set_self (by omega)]
  · intro h
    apply List.ext_getElem?
    intro j
    rw [List.getElem?_set]
    split_ifs with hj hlt
    · rw [← hj, h]
    · omega
    · rfl

theorem withoutDash_iso (rest : List ℕ) : withoutDash (isoDash ++ rest) = [chr 'i', chr 's', chr 'o'] ++ rest := by
  rw [withoutDash, if_pos (List.prefix_append _ _)]
  rfl

theorem withoutDash_cp (rest : List ℕ) : withoutDash (cpDash ++ rest) = [chr 'c', chr 'p'] ++ rest := by
  rw [withoutDash, if_neg (by simp [List.cons_prefix_cons, chr]), if_pos (List.prefix_append _ _)]
  rfl

theorem mem_of_mem_withoutDash {name : List ℕ} {ch : ℕ} (h : ch ∈ withoutDash name) : ch ∈ name := by
  unfold withoutDash at h
  split_ifs at h
  · exact (List.mem_append.mp h).elim List.mem_of_mem_take List.mem_of_mem_drop
  · exact (List.mem_append.mp h).elim List.mem_of_mem_take List.mem_of_mem_drop
  · exact h

theorem take_eq_iff_startsWith {l front : List ℕ} : front.length ≤ l.length ∧ l.take front.length = front ↔ front <+: l := by
  constructor
  · rintro ⟨-, h⟩
    exact h ▸ List.take_prefix _ _
  · intro h
    exact ⟨h.length_le, (List.prefix_iff_eq_take.mp h).symm⟩

/-- When a name is normalised as it should be: not with a leading `iso-` or `cp-` unless the last character, which is
overwritten, is a NUL, or the dash of `cp-` is removed without rewriting. -/
def NormalizesWell (str : List ℕ) : Prop :=
  (isoDash <+: str.map lowered → str.map lowered ≠ str ∧ str.getLast? = some 0) ∧
    (cpDash <+: str.map lowered → str.map lowered = str ∨ str.getLast? = some 0)

instance (str : List ℕ) : Decidable (NormalizesWell str) := inferInstanceAs (Decidable (_ ∧ _))

theorem getLast?_dash {front : List ℕ} {dash : ℕ} (hfront : front.getLast? ≠ some 0) (hdash : dash ≠ 0) (rest : List ℕ) :
    (front ++ rest).getLast? = some 0 ↔ (front ++ dash :: rest).getLast? = some 0 := by
  rw [List.getLast?_append, List.getLast?_append, List.getLast?_cons]
  cases rest.getLast? with
  | none => simp [hfront, hdash]
  | some ch => simp

/-- Removing the dash from the rewritten name writes over its last character. -/
theorem rewritten_dash {front : List ℕ} {dash : ℕ} (hfront : 0 < front.length) (hlast : front.getLast? ≠ some 0)
    (hdash : dash ≠ 0) (rest : List ℕ) :
    (do
      let result ← memmovedown (front ++ dash :: rest ++ [0]) front.length (front.length + 1)
        ((front ++ dash :: rest).length - (front.length + 1))
      let result ← wr result ((front ++ dash :: rest).length - 2) 0
      some (result.take ((front ++ dash :: rest).length - 1))) = some (front ++ rest) ↔
    (front ++ dash :: rest).getLast? = some 0 := by
  have hmove := @memmovedown_append front rest [0] [dash]
  rw [List.length_singleton] at hmove
  have hlen : (front ++ dash :: rest).length = front.length + 1 + rest.length := by
    simp
    omega
  have hidx : front.length + 1 + rest.length - 2 = front.length + rest.length - 1 := by omega
  have hall : front.length + 1 + rest.length - 1 = (front ++ rest).length := by
    rw [List.length_append]
    omega
  rw [hlen, Nat.add_sub_cancel_left, List.append_assoc, List.cons_append, ← List.singleton_append, hmove, some_bind,
    hidx, hall, wr_of_lt (by simp; omega), some_bind, ← List.append_assoc, List.set_append_left _ _ (by simp; omega),
    List.take_left' (by simp), Option.some.injEq, set_last_eq (by simp; omega), getLast?_dash hlast hdash]

/-- What is done with the rewritten name. -/
theorem rewritten_right (low : List ℕ) :
    (if 4 ≤ low.length ∧ (low ++ [0]).take 4 = isoDash then do
      let result ← memmovedown (low ++ [0]) 3 4 (low.length - 4)
      let result ← wr result (low.length - 2) 0
      some (result.take (low.length - 1))
    else if 3 ≤ low.length ∧ (low ++ [0]).take 3 = cpDash then do
      let result ← memmovedown (low ++ [0]) 2 3 (low.length - 3)
      let result ← wr result (low.length - 2) 0
      some (result.take (low.length - 1))
    else some ((low ++ [0]).take low.length)) = some (withoutDash low) ↔
      (isoDash <+: low → low.getLast? = some 0) ∧ (cpDash <+: low → low.getLast? = some 0) := by
  have hhead : ∀ head : List ℕ, head.length ≤ low.length ∧ (low ++ [0]).take head.length = head ↔ head <+: low := by
    intro head
    rw [← take_eq_iff_startsWith]
    refine and_congr_right fun hlen => ?_
    rw [List.take_append_of_le_length hlen]
  have hiso := hhead isoDash
  have hcp := hhead cpDash
  simp only [List.length_cons, List.length_nil, Nat.reduceAdd] at hiso hcp
  by_cases h4 : isoDash <+: low
  · rw [if_pos (hiso.mpr h4)]
    obtain ⟨rest, rfl⟩ := h4
    have hnot : ¬ cpDash <+: isoDash ++ rest := by simp [List.cons_prefix_cons, chr]
    rw [withoutDash_iso]
    refine (@rewritten_dash [chr 'i', chr 's', chr 'o'] _ (by decide) (by decide) (by decide) rest).trans ?_
    exact ⟨fun h => ⟨fun _ => h, fun h' => absurd h' hnot⟩, fun h => h.1 (List.prefix_append _ _)⟩
  · rw [if_neg (fun h => h4 (hiso.mp h))]
    by_cases h3 : cpDash <+: low
    · rw [if_pos (hcp.mpr h3)]
      obtain ⟨rest, rfl⟩ := h3
      rw [withoutDash_cp]
      refine (@rewritten_dash [chr 'c', chr 'p'] _ (by decide) (by decide) (by decide) rest).trans ?_
      exact ⟨fun h => ⟨fun h' => absurd h' h4, fun _ => h⟩, fun h => h.2 (List.prefix_append _ _)⟩
    · rw [if_neg (fun h => h3 (hcp.mp h)), List.take_left' rfl, withoutDash, if_neg h4, if_neg h3]
      exact iff_of_true rfl ⟨fun h => absurd h h4, fun h => absurd h h3⟩

/-- The path with a new, rewritten buffer. -/
theorem normalizeName_rewritten (hascii : ∀ ch ∈ str, ch < 0x80) (hne : str.map lowered ≠ str) :
    deeCodecNormalizeName uni memory str = some (normalizedName str) ↔ NormalizesWell str := by
  have hidx : str.findIdx uni.rewrites < str.length := by
    rw [List.findIdx_lt_length]
    by_contra hnone
    refine hne ?_
    conv_rhs => rw [← List.map_id str]
    refine List.map_congr_left fun ch hch => ?_
    by_contra hch'
    exact hnone ⟨ch, hch, (rewrites_iff (hascii ch hch)).mpr hch'⟩
  obtain ⟨result, hcopy, hmap⟩ := @rewritten_buffer uni str memory hascii
  have hlast : (str.map lowered).getLast? = some 0 ↔ str.getLast? = some 0 := by
    rw [List.getLast?_map]
    cases str.getLast? with
    | none => simp
    | some ch => simp [lowered_eq_zero]
  have hright := rewritten_right (str.map lowered)
  rw [List.length_map, hlast] at hright
  unfold deeCodecNormalizeName NormalizesWell
  dsimp only
  rw [if_pos hidx, hcopy, some_bind, hmap, some_bind]
  refine hright.trans ?_
  simp only [hne, ne_eq, not_false_eq_true, true_and, false_or]

theorem newBuffer_succ (memory : ℕ → ℕ) (n : ℕ) :
    newBuffer memory (n + 1) = memory 0 :: newBuffer (fun i => memory (i + 1)) n := by
  rw [newBuffer, newBuffer, List.range_succ_eq_map, List.map_cons, List.map_map]
  rfl

theorem length_newBuffer (memory : ℕ → ℕ) (n : ℕ) : (newBuffer memory n).length = n + 1 := by simp [newBuffer]

/-- The third character of the name without the dash is not written. -/
theorem kept_iso (rest : List ℕ) :
    (do
      let result ← wr (newBuffer memory (rest.length + 3)) 0 (chr 'i')
      let result ← wr result 1 (chr 's')
      let result ← wr result 3 (chr 'o')
      let result ← copyCells result 3 (isoDash ++ rest) 4 rest.length
      some (result.take (rest.length + 3))) = some ([chr 'i', chr 's', memory 2] ++ rest) := by
  have hlen := length_newBuffer (fun i => memory (i + 1 + 1 + 1)) rest.length
  rw [newBuffer_succ, newBuffer_succ, newBuffer_succ, wr_of_lt (by simp), some_bind, wr_of_lt (by simp), some_bind,
    wr_of_lt (by simp; omega), some_bind]
  simp only [List.set_cons_zero, List.set_cons_succ]
  rw [copyCells_eq (by simp; omega) (by simp; omega), some_bind]
  simp

/-- The path that copies without the dash. -/
theorem kept_cp (rest : List ℕ) :
    (do
      let result ← wr (newBuffer memory (rest.length + 2)) 0 (chr 'c')
      let result ← wr result 1 (chr 'p')
      let result ← copyCells result 2 (cpDash ++ rest) 3 rest.length
      some (result.take (rest.length + 2))) = some ([chr 'c', chr 'p'] ++ rest) := by
  have hlen := length_newBuffer (fun i => memory (i + 1 + 1)) rest.length
  rw [newBuffer_succ, newBuffer_succ, wr_of_lt (by simp), some_bind, wr_of_lt (by simp), some_bind]
  simp only [List.set_cons_zero, List.set_cons_succ]
  rw [copyCells_eq (by simp; omega) (by simp; omega), some_bind]
  simp

theorem normalizeName_kept (hascii : ∀ ch ∈ str, ch < 0x80) (heq : str.map lowered = str) :
    (∀ memory, deeCodecNormalizeName uni memory str = some (normalizedName str)) ↔ NormalizesWell str := by
  have hidx : ¬ str.findIdx uni.rewrites < str.length := by
    rw [List.findIdx_lt_length]
    rintro ⟨ch, hch, hrewrites⟩
    have hsame : ∀ ch ∈ str, lowered ch = id ch := List.map_inj_left.mp (heq.trans (List.map_id str).symm)
    exact (rewrites_iff (hascii ch hch)).mp hrewrites (hsame ch hch)
  have hiso := @take_eq_iff_startsWith str isoDash
  have hcp := @take_eq_iff_startsWith str cpDash
  simp only [List.length_cons, List.length_nil, Nat.reduceAdd] at hiso hcp
  unfold deeCodecNormalizeName NormalizesWell normalizedName
  rw [heq]
  dsimp only
  simp only [if_neg hidx, hiso, hcp]
  by_cases h4 : isoDash <+: str
  · refine iff_of_false ?_ fun h => (h.1 h4).1 rfl
    intro hall
    have hzero := hall fun _ => 0
    rw [if_pos h4] at hzero
    obtain ⟨rest, rfl⟩ := h4
    have hkept := @kept_iso (fun _ => 0) rest
    rw [withoutDash_iso] at hzero
    have := hkept.symm.trans hzero
    simp [chr] at this
  · by_cases h3 : cpDash <+: str
    · refine iff_of_true ?_ ⟨fun h => absurd h h4, fun _ => .inl trivial⟩
      intro memory
      rw [if_neg h4, if_pos h3]
      obtain ⟨rest, rfl⟩ := h3
      rw [withoutDash_cp]
      exact kept_cp rest
    · refine iff_of_true ?_ ⟨fun h => absurd h h4, fun h => absurd h h3⟩
      intro memory
      rw [if_neg h4, if_neg h3, withoutDash, if_neg h4, if_neg h3]

/-- Names normalise well exactly where no dash of `iso-` has to be removed and no dash of `cp-` from a rewritten name
(unless a NUL ends the name). Normal names are the same for names that differ in case and underscores only, and they are
normal themselves, as long as there is no further dash to remove. -/
theorem codecNormalizeName_iff (uni : CaseTable) (hascii : ∀ ch ∈ str, ch < 0x80) :
    ((∀ memory, deeCodecNormalizeName uni memory str = some (normalizedName str)) ↔ NormalizesWell str) ∧
      (∀ other, other.map lowered = str.map lowered → normalizedName other = normalizedName str) ∧
      (¬ isoDash <+: normalizedName str → ¬ cpDash <+: normalizedName str →
        normalizedName (normalizedName str) = normalizedName str) := by
  refine ⟨?_, ?_, ?_⟩
  · by_cases heq : str.map lowered = str
    · exact normalizeName_kept hascii heq
    · constructor
      · intro h
        exact (normalizeName_rewritten hascii heq).mp (h fun _ => 0)
      · intro h memory
        exact (normalizeName_rewritten hascii heq).mpr h
  · intro other h
    rw [normalizedName, normalizedName, h]
  · intro hiso hcp
    have hlow : (normalizedName str).map lowered = normalizedName str := by
      refine (List.map_inj_left.mpr fun ch hch => ?_).trans (List.map_id _)
      obtain ⟨ch', -, rfl⟩ := List.mem_map.mp (mem_of_mem_withoutDash hch)
      exact lowered_lowered ch'
    rw [normalizedName, hlow, withoutDash, if_neg hiso, if_neg hcp]

/-- `"cp-1"` has its dash removed in place. -/
theorem codecNormalizeName_cp :
    deeCodecNormalizeName ⟨fun _ => false, id⟩ (fun _ => 0) [chr 'c', chr 'p', chr '-', chr '1'] =
      some [chr 'c', chr 'p', chr '1'] :=
  ((@codecNormalizeName_iff [chr 'c', chr 'p', chr '-', chr '1'] ⟨fun _ => false, id⟩ (by decide)).1).mpr (by decide)
    fun _ => 0

/-- `"CP-1"` loses its last character. -/
theorem codecNormalizeName_counterexample :
    deeCodecNormalizeName ⟨fun _ => false, id⟩ (fun _ => 0) [chr 'C', chr 'P', chr '-', chr '1'] =
      some [chr 'c', chr 'p', 0] ∧
    normalizedName [chr 'C', chr 'P', chr '-', chr '1'] = [chr 'c', chr 'p', chr '1'] := by
  decide

end Normalize

end Deemon.Unicode
