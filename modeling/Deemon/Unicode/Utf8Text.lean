import Deemon.Unicode.NewUtf8

/-!
# Strings from UTF-8 are right if no byte goes missing

`Decodes` says what a text stands for. The decoder of the two functions removes bytes that are dropped, and all but one
byte of an ASCII character in a sequence that is too long; but it takes them off the length of the text only in the
first loop of `DeeString_NewUtf8`, and there only the dropped ones.
-/

namespace Deemon.Unicode

open Deemon.Run

/-! ### What a text stands for -/

/-- The lead byte of a sequence and the others. -/
def IsSequence (seq : List ℕ) : Prop := 0x7f < seq.headD 0 ∧ utf8SeqLen (seq.headD 0) = seq.length

/-- The character of a sequence. -/
def seqChar (seq : List ℕ) : ℕ :=
  seq.tail.foldl (fun ch b => (ch <<< 6 ||| (b &&& 0x3f)) % 2 ^ 32) (utf8Lead seq.length (seq.headD 0))

/-- The byte `b` does not start a sequence in front of `rest`. -/
def Malformed (b : ℕ) (rest : List ℕ) : Prop := 0x7f < b ∧ (utf8SeqLen b = 0 ∨ rest.length + 1 < utf8SeqLen b)

/-- The bytes stand for the UTF-8 text `text` and the characters `chars`. Malformed bytes are replaced or dropped. As
long as there was no `wide` character, sequences of ASCII characters are put right. -/
inductive Decodes (mode : ErrorMode) : (wide : Bool) → (bytes text chars : List ℕ) → Prop where
  | nil {wide : Bool} : Decodes mode wide [] [] []
  | ascii {wide : Bool} {b : ℕ} {rest text chars : List ℕ} (hb : b ≤ 0x7f) (h : Decodes mode wide rest text chars) :
    Decodes mode wide (b :: rest) (b :: text) (b :: chars)
  | sequence {wide : Bool} {seq rest text chars : List ℕ} (hseq : IsSequence seq) (hwide : wide ∨ 0x7f < seqChar seq)
    (h : Decodes mode true rest text chars) : Decodes mode wide (seq ++ rest) (seq ++ text) (seqChar seq :: chars)
  | overlong {seq rest text chars : List ℕ} (hseq : IsSequence seq) (hch : seqChar seq ≤ 0x7f)
    (h : Decodes mode false rest text chars) :
    Decodes mode false (seq ++ rest) (seqChar seq :: text) (seqChar seq :: chars)
  | replaced {wide : Bool} {b : ℕ} {rest text chars : List ℕ} (hmode : mode = .replac) (hb : Malformed b rest)
    (h : Decodes mode wide rest text chars) : Decodes mode wide (b :: rest) (chr '?' :: text) (chr '?' :: chars)
  | dropped {wide : Bool} {b : ℕ} {rest text chars : List ℕ} (hmode : mode = .ignore) (hb : Malformed b rest)
    (h : Decodes mode wide rest text chars) : Decodes mode wide (b :: rest) text chars

/-- No byte goes missing: none is dropped (unless `drops`, in front of the first wide character), and there is no
sequence of an ASCII character in front of the first wide one. -/
inductive Plain (mode : ErrorMode) (drops : Bool) : (wide : Bool) → (bytes : List ℕ) → Prop where
  | nil {wide : Bool} : Plain mode drops wide []
  | ascii {wide : Bool} {b : ℕ} {rest : List ℕ} (hb : b ≤ 0x7f) (h : Plain mode drops wide rest) :
    Plain mode drops wide (b :: rest)
  | sequence {wide : Bool} {seq rest : List ℕ} (hseq : IsSequence seq) (hwide : wide ∨ 0x7f < seqChar seq)
    (h : Plain mode drops true rest) : Plain mode drops wide (seq ++ rest)
  | replaced {wide : Bool} {b : ℕ} {rest : List ℕ} (hmode : mode = .replac) (hb : Malformed b rest)
    (h : Plain mode drops wide rest) : Plain mode drops wide (b :: rest)
  | dropped {b : ℕ} {rest : List ℕ} (hmode : mode = .ignore) (hdrops : drops) (hb : Malformed b rest)
    (h : Plain mode drops false rest) : Plain mode drops false (b :: rest)

/-- There is a sequence of an ASCII character in front of the first wide one. -/
inductive HasOverlong : (bytes : List ℕ) → Prop where
  | head {seq rest : List ℕ} (hseq : IsSequence seq) (hch : seqChar seq ≤ 0x7f) : HasOverlong (seq ++ rest)
  | ascii {b : ℕ} {rest : List ℕ} (hb : b ≤ 0x7f) (h : HasOverlong rest) : HasOverlong (b :: rest)
  | malformed {b : ℕ} {rest : List ℕ} (hb : Malformed b rest) (h : HasOverlong rest) : HasOverlong (b :: rest)

section Decodes

variable {mode : ErrorMode} {wide drops : Bool} {bytes text chars seq r : List ℕ} {x : ℕ}

theorem IsSequence.two_le (h : IsSequence seq) : 2 ≤ seq.length := by
  rw [← h.2]
  have hfirst := h.1
  unfold utf8SeqLen
  have hne : utf8SeqLen (seq.headD 0) ≠ 0 := fun h0 => by
    rw [h.2, List.length_eq_zero_iff] at h0
    rw [h0] at hfirst
    exact absurd hfirst (by decide)
  unfold utf8SeqLen at hne
  split_ifs at hne ⊢ <;> omega

/-- The text is not longer than the bytes, and shorter if a byte goes missing. -/
theorem Decodes.length_le (h : Decodes mode wide bytes text chars) :
    text.length ≤ bytes.length ∧ (text.length = bytes.length → Plain mode drops wide bytes) := by
  induction h with
  | nil => exact ⟨le_rfl, fun _ => .nil⟩
  | ascii hb h ih => exact ⟨Nat.succ_le_succ ih.1, fun heq => .ascii hb (ih.2 (Nat.succ.inj heq))⟩
  | sequence hseq hwide h ih =>
    simp only [List.length_append, Nat.add_le_add_iff_left, Nat.add_left_cancel_iff]
    exact ⟨ih.1, fun heq => .sequence hseq hwide (ih.2 heq)⟩
  | overlong hseq hch h ih =>
    have htwo := hseq.two_le
    rw [List.length_append, List.length_cons]
    exact ⟨by omega, fun heq => by omega⟩
  | replaced hmode hb h ih => exact ⟨Nat.succ_le_succ ih.1, fun heq => .replaced hmode hb (ih.2 (Nat.succ.inj heq))⟩
  | dropped hmode hb h ih =>
    rw [List.length_cons]
    exact ⟨Nat.le_succ_of_le ih.1, fun heq => by omega⟩

/-- The text stands for itself and for the same characters. -/
theorem Decodes.reread (h : Decodes mode wide bytes text chars) : Decodes .strict wide text text chars := by
  induction h with
  | nil => exact .nil
  | ascii hb h ih => exact .ascii hb ih
  | sequence hseq hwide h ih => exact .sequence hseq hwide ih
  | overlong hseq hch h ih => exact .ascii hch ih
  | replaced hmode hb h ih => exact .ascii (by decide) ih
  | dropped hmode hb h ih => exact ih

theorem Decodes.cons_ascii (hx : x ≤ 0x7f) (h : Decodes mode wide (x :: r) text chars) :
    ∃ text' chars', text = x :: text' ∧ chars = x :: chars' ∧ Decodes mode wide r text' chars' := by
  have hsequence : ∀ {seq rest : List ℕ}, x :: r = seq ++ rest → ¬IsSequence seq := by
    intro seq rest heq hseq
    rcases seq with _ | ⟨y, follow⟩
    · exact absurd hseq.1 (by decide)
    · have hlead : 0x7f < y := hseq.1
      have hhead : x = y := (List.cons.inj heq).1
      omega
  generalize hbytes : x :: r = bytes at h
  cases h with
  | nil => cases hbytes
  | ascii hb h =>
    obtain ⟨rfl, rfl⟩ := List.cons.inj hbytes
    exact ⟨_, _, rfl, rfl, h⟩
  | sequence hseq => exact absurd hseq (hsequence hbytes)
  | overlong hseq => exact absurd hseq (hsequence hbytes)
  | replaced hmode hb =>
    have hlead := hb.1
    have hhead := (List.cons.inj hbytes).1
    omega
  | dropped hmode hb =>
    have hlead := hb.1
    have hhead := (List.cons.inj hbytes).1
    omega

/-- Two sequences at the same place are the same. -/
theorem IsSequence.unique {seq seq' rest rest' : List ℕ} (hseq : IsSequence seq) (hseq' : IsSequence seq')
    (h : seq ++ rest = seq' ++ rest') : seq = seq' ∧ rest = rest' := by
  have hhead : seq.headD 0 = seq'.headD 0 := by
    rcases seq with _ | ⟨x, follow⟩
    · exact absurd hseq.1 (by decide)
    rcases seq' with _ | ⟨y, follow'⟩
    · exact absurd hseq'.1 (by decide)
    exact (List.cons.inj h).1
  refine List.append_inj h ?_
  rw [← hseq.2, ← hseq'.2, hhead]

theorem IsSequence.not_malformed {seq rest : List ℕ} (hseq : IsSequence seq) (h : seq ++ r = x :: rest) :
    0x7f < x ∧ ¬Malformed x rest := by
  rcases seq with _ | ⟨y, follow⟩
  · exact absurd hseq.1 (by decide)
  · obtain ⟨rfl, rfl⟩ := List.cons.inj h
    have hlen : utf8SeqLen y = follow.length + 1 := hseq.2
    refine ⟨hseq.1, fun hbad => ?_⟩
    have hshort := hbad.2
    have happend : (follow.append r).length = follow.length + r.length := List.length_append
    omega

theorem Decodes.of_nil (h : Decodes mode wide [] text chars) : text = [] ∧ chars = [] := by
  have hsequence : ∀ {seq rest : List ℕ}, [] = seq ++ rest → ¬IsSequence seq := by
    intro seq rest heq hseq
    rw [(List.append_eq_nil_iff.mp heq.symm).1] at hseq
    exact absurd hseq.1 (by decide)
  generalize hbytes : [] = bytes at h
  cases h with
  | nil => exact ⟨rfl, rfl⟩
  | sequence hseq => exact absurd hseq (hsequence hbytes)
  | overlong hseq => exact absurd hseq (hsequence hbytes)
  | ascii | replaced | dropped => cases hbytes

theorem Decodes.append_sequence (hseq : IsSequence seq) (hch : wide ∨ 0x7f < seqChar seq)
    (h : Decodes mode wide (seq ++ r) text chars) :
    ∃ text' chars', text = seq ++ text' ∧ chars = seqChar seq :: chars' ∧ Decodes mode true r text' chars' := by
  generalize hbytes : seq ++ r = bytes at h
  cases h with
  | nil =>
    rw [(List.append_eq_nil_iff.mp hbytes).1] at hseq
    exact absurd hseq.1 (by decide)
  | ascii hb =>
    have hlead := (hseq.not_malformed hbytes).1
    omega
  | sequence hseq' hwide h =>
    obtain ⟨rfl, rfl⟩ := hseq.unique hseq' hbytes
    exact ⟨_, _, rfl, rfl, h⟩
  | overlong hseq' hch' =>
    obtain ⟨rfl, -⟩ := hseq.unique hseq' hbytes
    exact absurd (hch.resolve_left Bool.false_ne_true) (Nat.not_lt_of_le hch')
  | replaced hmode hb => exact absurd hb (hseq.not_malformed hbytes).2
  | dropped hmode hb => exact absurd hb (hseq.not_malformed hbytes).2

theorem Decodes.cons_malformed (hx : Malformed x r) (h : Decodes .ignore wide (x :: r) text chars) :
    Decodes .ignore wide r text chars := by
  generalize hbytes : x :: r = bytes at h
  cases h with
  | nil => cases hbytes
  | ascii hb =>
    obtain ⟨rfl, -⟩ := List.cons.inj hbytes
    exact absurd hb (Nat.not_le_of_lt hx.1)
  | sequence hseq => exact absurd hx (hseq.not_malformed hbytes.symm).2
  | overlong hseq => exact absurd hx (hseq.not_malformed hbytes.symm).2
  | replaced hmode => cases hmode
  | dropped hmode hb h =>
    obtain ⟨-, rfl⟩ := List.cons.inj hbytes
    exact h

end Decodes

/-! ### Rounds -/

section Rounds

variable {mode : ErrorMode} {shrinks : Bool} {s : DecodeState} {a b r tail seq : List ℕ} {x : ℕ}

/-- The buffer holds the text `a` that was read, the bytes `b` in front of `iter`, and old bytes. -/
structure DecodeState.At (s : DecodeState) (a b tail : List ℕ) : Prop where
  text : s.text = a ++ (b ++ tail)
  iter : s.iter = a.length
  textEnd : s.textEnd = a.length + b.length

/-- The characters so far. -/
def DecodeState.chars (s : DecodeState) : List ℕ :=
  match s.buffer with
  | none => s.text.take s.iter
  | some buffer => buffer.chars

/-- The rest of the text has room: in the text, and in the buffer. -/
def DecodeState.Fits (s : DecodeState) : Prop :=
  match s.buffer with
  | none => s.textEnd ≤ s.length
  | some buffer => buffer.chars.length + (s.textEnd - s.iter) ≤ buffer.length

/-- A round that adds the characters `new`. -/
structure DecodeState.Next (s s' : DecodeState) (a b new : List ℕ) : Prop where
  moved : ∃ tail, s'.At a b tail
  chars : s'.chars = s.chars ++ new
  fits : s'.Fits
  length_text : s'.text.length = s.text.length

theorem DecodeState.At.chars_none (h : s.At a b tail) (hbuffer : s.buffer = none) : s.chars = a := by
  unfold DecodeState.chars
  rw [hbuffer]
  dsimp only
  rw [h.text, h.iter, List.take_left]

theorem utf8Follow_append {follow : List ℕ} {ch : ℕ} :
    utf8Follow (a ++ (follow ++ r)) a.length follow.length ch =
      some (follow.foldl (fun ch b => (ch <<< 6 ||| (b &&& 0x3f)) % 2 ^ 32) ch) := by
  unfold utf8Follow
  induction follow generalizing a ch with
  | nil => rfl
  | cons b follow ih =>
    have hstep := @ih (a ++ [b]) ((ch <<< 6 ||| (b &&& 0x3f)) % 2 ^ 32)
    rw [List.append_assoc, List.length_append, List.length_singleton, List.singleton_append] at hstep
    rw [List.length_cons, forLoop, List.cons_append, rd_append_cons, some_bind, some_bind, List.foldl_cons]
    exact hstep

theorem utf8Getchar_append (hseq : IsSequence seq) :
    utf8Getchar (a ++ (seq ++ r)) a.length seq.length = some (seqChar seq) := by
  rcases seq with _ | ⟨b, follow⟩
  · exact absurd hseq.1 (by decide)
  · have hfollow := @utf8Follow_append (a ++ [b]) r follow (utf8Lead (follow.length + 1) b)
    rw [List.append_assoc, List.length_append, List.length_singleton, List.singleton_append] at hfollow
    unfold utf8Getchar
    rw [List.cons_append, cell_append_cons, List.length_cons, Nat.add_sub_cancel]
    exact hfollow

theorem CharBuffer.put_eq {buffer : CharBuffer} (h : buffer.chars.length < buffer.length) :
    buffer.put x = some { buffer with chars := buffer.chars ++ [x] } := if_pos h

theorem CharBuffer.new_eq {width : StringWidth} {n : ℕ} (h : a.length ≤ n) : CharBuffer.new width n a = some ⟨width, n, a⟩ :=
  if_pos h

theorem DecodeState.At.room {buffer : CharBuffer} (h : s.At a b tail) (hbuffer : s.buffer = some buffer) (hfits : s.Fits) :
    buffer.chars.length + b.length ≤ buffer.length := by
  unfold DecodeState.Fits at hfits
  rw [hbuffer, h.textEnd, h.iter, Nat.add_sub_cancel_left] at hfits
  exact hfits

theorem decodeRound_ascii (h : s.At a (x :: r) tail) (hfits : s.Fits) (hx : x ≤ 0x7f) :
    ∃ s', decodeRound mode shrinks s = some (.next s') ∧ s.Next s' (a ++ [x]) r [x] ∧
      s'.buffer.isSome = s.buffer.isSome ∧ s'.length = s.length := by
  have hend := h.textEnd
  have hiter := h.iter
  rw [List.length_cons] at hend
  have hrd : rd s.text s.iter = some x := by
    rw [h.text, hiter]
    exact rd_append_cons
  have hat : ∀ buffer, DecodeState.At { s with iter := s.iter + 1, buffer := buffer } (a ++ [x]) r tail := by
    intro buffer
    refine ⟨?_, ?_, ?_⟩
    · rw [List.append_assoc]
      exact h.text
    · rw [List.length_append, ← hiter]
      rfl
    · rw [List.length_append, List.length_singleton, Nat.add_assoc, Nat.add_comm 1]
      exact hend
  unfold decodeRound
  rw [if_neg (by omega)]
  cases hbuffer : s.buffer with
  | none =>
    dsimp only
    unfold asciiRound
    rw [hrd, some_bind, if_pos hx]
    have hat := hat none
    rw [← hbuffer] at hat
    refine ⟨_, rfl, ⟨⟨tail, hat⟩, ?_, ?_, rfl⟩, by rw [hbuffer], rfl⟩
    · rw [hat.chars_none hbuffer, h.chars_none hbuffer]
    · unfold DecodeState.Fits at hfits ⊢
      dsimp only
      rw [hbuffer] at hfits ⊢
      exact hfits
  | some buffer =>
    have hroom := h.room hbuffer hfits
    rw [List.length_cons] at hroom
    dsimp only
    unfold bufferRound
    rw [hrd, some_bind, if_pos hx, CharBuffer.put_eq (by omega), some_bind]
    refine ⟨_, rfl, ⟨⟨tail, hat _⟩, ?_, ?_, rfl⟩, rfl, rfl⟩
    · unfold DecodeState.chars
      rw [hbuffer]
    · unfold DecodeState.Fits
      dsimp only
      rw [List.length_append, List.length_singleton]
      omega

/-- The loops see the sequence at `iter`. -/
theorem DecodeState.At.read_sequence (h : s.At a (seq ++ r) tail) (hseq : IsSequence seq) :
    ∃ b, rd s.text s.iter = some b ∧ ¬b ≤ 0x7f ∧ utf8SeqLen b = seq.length ∧
      ¬(seq.length = 0 ∨ s.textEnd < s.iter + seq.length) ∧
        utf8Getchar s.text s.iter seq.length = some (seqChar seq) := by
  have hend := h.textEnd
  have hiter := h.iter
  have htwo := hseq.two_le
  rw [List.length_append] at hend
  have hchar : utf8Getchar s.text s.iter seq.length = some (seqChar seq) := by
    rw [h.text, hiter, List.append_assoc]
    exact utf8Getchar_append hseq
  refine ⟨seq.headD 0, ?_, Nat.not_le_of_lt hseq.1, hseq.2, by omega, hchar⟩
  obtain ⟨b, follow, rfl⟩ : ∃ b follow, seq = b :: follow := List.exists_cons_of_length_pos (by omega)
  rw [h.text, hiter]
  exact rd_append_cons

theorem decodeRound_sequence (h : s.At a (seq ++ r) tail) (hfits : s.Fits) (hseq : IsSequence seq)
    (hwide : s.buffer.isSome ∨ 0x7f < seqChar seq) :
    ∃ s', decodeRound mode shrinks s = some (.next s') ∧ s.Next s' (a ++ seq) r [seqChar seq] ∧
      s'.buffer.isSome = true ∧ s'.length = s.length := by
  have hend := h.textEnd
  have hiter := h.iter
  have htwo := hseq.two_le
  rw [List.length_append] at hend
  obtain ⟨b, hrd, hlead, hlen, hgood, hchar⟩ := h.read_sequence hseq
  have hat : ∀ buffer, DecodeState.At { s with iter := s.iter + seq.length, buffer := buffer } (a ++ seq) r tail := by
    intro buffer
    refine ⟨?_, ?_, ?_⟩
    · rw [List.append_assoc, ← List.append_assoc seq]
      exact h.text
    · rw [List.length_append, ← hiter]
    · rw [List.length_append, Nat.add_assoc]
      exact hend
  unfold decodeRound
  rw [if_neg (by omega)]
  cases hbuffer : s.buffer with
  | none =>
    rw [hbuffer] at hwide
    have hch := hwide.resolve_left Bool.false_ne_true
    have hroom : s.textEnd ≤ s.length := by
      unfold DecodeState.Fits at hfits
      rwa [hbuffer] at hfits
    have htake : s.text.take s.iter = a := by rw [h.text, hiter, List.take_left]
    dsimp only
    unfold asciiRound
    rw [hrd, some_bind, if_neg hlead]
    dsimp only
    rw [hlen, if_neg hgood, hchar, some_bind, if_neg (Nat.not_le_of_lt hch), htake,
      CharBuffer.new_eq (by omega), some_bind, CharBuffer.put_eq (by dsimp only; omega), some_bind]
    refine ⟨_, rfl, ⟨⟨tail, hat _⟩, ?_, ?_, rfl⟩, rfl, rfl⟩
    · rw [h.chars_none hbuffer]
      rfl
    · unfold DecodeState.Fits
      dsimp only
      rw [List.length_append, List.length_singleton]
      omega
  | some buffer =>
    have hroom := h.room hbuffer hfits
    rw [List.length_append] at hroom
    obtain ⟨buffer', hupgrade, hchars, hroom'⟩ : ∃ buffer', (if buffer.width = .byte2 ∧ 0xffff < seqChar seq then
        CharBuffer.new .byte4 (buffer.chars.length + 1 + (s.textEnd - (s.iter + seq.length))) buffer.chars
        else some buffer) = some buffer' ∧ buffer'.chars = buffer.chars ∧
          buffer.chars.length + 1 + r.length ≤ buffer'.length := by
      split_ifs
      · refine ⟨_, CharBuffer.new_eq (by omega), rfl, ?_⟩
        dsimp only
        omega
      · exact ⟨buffer, rfl, rfl, by omega⟩
    dsimp only
    unfold bufferRound
    rw [hrd, some_bind, if_neg hlead]
    dsimp only
    rw [hlen, if_neg hgood, hchar, some_bind, hupgrade, some_bind, CharBuffer.put_eq (by rw [hchars]; omega), some_bind]
    refine ⟨_, rfl, ⟨⟨tail, hat _⟩, ?_, ?_, rfl⟩, rfl, rfl⟩
    · unfold DecodeState.chars
      rw [hbuffer]
      dsimp only
      rw [hchars]
    · unfold DecodeState.Fits
      dsimp only
      rw [List.length_append, List.length_singleton, hchars]
      omega

/-- A sequence of an ASCII character in the first loop: the bytes behind it move down, but not the end of the text. -/
theorem decodeRound_overlong (h : s.At a (seq ++ r) tail) (hfits : s.Fits) (hseq : IsSequence seq)
    (hbuffer : s.buffer = none) (hch : seqChar seq ≤ 0x7f) :
    ∃ s' b, decodeRound mode shrinks s = some (.next s') ∧ s.Next s' (a ++ [seqChar seq]) b [seqChar seq] ∧
      b.length < (seq ++ r).length ∧ s'.buffer.isSome = false ∧ s'.length = s.length := by
  have hend := h.textEnd
  have hiter := h.iter
  obtain ⟨b, hrd, hlead, hlen, hgood, hchar⟩ := h.read_sequence hseq
  obtain ⟨lead, follow, rfl⟩ : ∃ lead follow, seq = lead :: follow :=
    List.exists_cons_of_length_pos (by have := hseq.two_le; omega)
  generalize seqChar (lead :: follow) = x at *
  rw [List.length_append] at hend
  have hmod : x % 2 ^ 8 = x := Nat.mod_eq_of_lt (hch.trans_lt (by norm_num))
  have hmove := @memmovedown_append (a ++ [x]) r tail follow
  simp only [List.length_append, List.length_singleton, List.append_assoc, List.singleton_append] at hmove
  have hcount : s.textEnd - (s.iter + (lead :: follow).length) = r.length := by omega
  have hlong : (lead :: follow).length = follow.length + 1 := rfl
  have hat : DecodeState.At
      { s with text := a ++ x :: (r ++ ((follow ++ r).drop r.length ++ tail)), iter := s.iter + 1, buffer := none }
      (a ++ [x]) (r ++ (follow ++ r).drop r.length) tail := by
    refine ⟨?_, ?_, ?_⟩
    · simp
    · rw [List.length_append, ← hiter]
      rfl
    · dsimp only
      rw [List.length_append, List.length_append, List.length_drop, List.length_append, hend]
      simp only [List.length_cons, List.length_nil]
      omega
  unfold decodeRound asciiRound
  rw [if_neg (by omega), hbuffer]
  rw [hrd, some_bind, if_neg hlead]
  dsimp only
  rw [hlen, if_neg hgood, hchar, some_bind, if_pos hch, hmod, hcount, hiter, h.text, List.cons_append, List.cons_append,
    wr_append_cons, some_bind, hlong, Nat.add_comm follow.length 1, ← Nat.add_assoc, List.append_assoc, hmove, some_bind]
  rw [hiter] at hat
  refine ⟨_, r ++ (follow ++ r).drop r.length, rfl, ⟨⟨tail, hat⟩, ?_, ?_, ?_⟩, ?_, rfl, rfl⟩
  · rw [hat.chars_none rfl, h.chars_none hbuffer]
  · unfold DecodeState.Fits at hfits ⊢
    rw [hbuffer] at hfits
    exact hfits
  · dsimp only
    rw [h.text]
    simp only [List.length_append, List.length_cons, List.length_drop]
    omega
  · simp only [List.length_append, List.length_cons, List.length_drop]
    omega

theorem DecodeState.At.read_malformed (h : s.At a (x :: r) tail) (hx : Malformed x r) :
    rd s.text s.iter = some x ∧ ¬x ≤ 0x7f ∧ (utf8SeqLen x = 0 ∨ s.textEnd < s.iter + utf8SeqLen x) := by
  have hend := h.textEnd
  have hiter := h.iter
  rw [List.length_cons] at hend
  refine ⟨?_, Nat.not_le_of_lt hx.1, hx.2.imp_right fun hlt => by omega⟩
  rw [h.text, hiter]
  exact rd_append_cons

theorem decodeRound_replaced (h : s.At a (x :: r) tail) (hfits : s.Fits) (hx : Malformed x r) (hmode : mode = .replac) :
    ∃ s', decodeRound mode shrinks s = some (.next s') ∧ s.Next s' (a ++ [chr '?']) r [chr '?'] ∧
      s'.buffer.isSome = s.buffer.isSome ∧ s'.length = s.length := by
  have hend := h.textEnd
  have hiter := h.iter
  obtain ⟨hrd, hlead, hbad⟩ := h.read_malformed hx
  have hwr : wr s.text s.iter (chr '?') = some (a ++ chr '?' :: (r ++ tail)) := by
    rw [h.text, hiter]
    exact wr_append_cons
  have hat : ∀ buffer, DecodeState.At
      { s with text := a ++ chr '?' :: (r ++ tail), iter := s.iter + 1, buffer := buffer } (a ++ [chr '?']) r tail := by
    intro buffer
    refine ⟨?_, ?_, ?_⟩
    · rw [List.append_assoc]
      rfl
    · rw [List.length_append, ← hiter]
      rfl
    · rw [List.length_append, List.length_singleton, Nat.add_assoc, Nat.add_comm 1]
      exact hend
  have htext : (a ++ chr '?' :: (r ++ tail)).length = s.text.length := by
    rw [h.text]
    simp
  rw [List.length_cons] at hend
  unfold decodeRound
  rw [if_neg (by omega)]
  cases hbuffer : s.buffer with
  | none =>
    dsimp only
    unfold asciiRound DecodeState.malformed
    rw [hrd, some_bind, if_neg hlead]
    dsimp only
    rw [if_pos hbad, if_pos hmode, hwr, some_bind, some_bind]
    refine ⟨_, rfl, ⟨⟨tail, hat none⟩, ?_, ?_, htext⟩, rfl, rfl⟩
    · rw [(hat none).chars_none rfl, h.chars_none hbuffer]
    · unfold DecodeState.Fits at hfits ⊢
      rw [hbuffer] at hfits
      exact hfits
  | some buffer =>
    have hroom := h.room hbuffer hfits
    rw [List.length_cons] at hroom
    dsimp only
    unfold bufferRound DecodeState.malformed
    rw [hrd, some_bind, if_neg hlead]
    dsimp only
    rw [if_pos hbad, if_pos hmode, hwr, some_bind, CharBuffer.put_eq (by omega), Option.map_some, some_bind]
    refine ⟨_, rfl, ⟨⟨tail, hat _⟩, ?_, ?_, htext⟩, rfl, rfl⟩
    · unfold DecodeState.chars
      rw [hbuffer]
    · unfold DecodeState.Fits
      dsimp only
      rw [List.length_append, List.length_singleton]
      omega

/-- A dropped byte; only the first loop of `DeeString_NewUtf8` takes it off the length. -/
theorem decodeRound_dropped (h : s.At a (x :: r) tail) (hfits : s.Fits) (hx : Malformed x r) (hmode : mode = .ignore) :
    ∃ s', decodeRound mode shrinks s = some (.next s') ∧ s.Next s' a r [] ∧
      s'.buffer.isSome = s.buffer.isSome ∧
        s'.length = if shrinks ∧ s.buffer.isSome = false then s.length - 1 else s.length := by
  have hend := h.textEnd
  have hiter := h.iter
  obtain ⟨hrd, hlead, hbad⟩ := h.read_malformed hx
  rw [List.length_cons] at hend
  have hmove : memmovedown s.text s.iter (s.iter + 1) (s.textEnd - 1 - s.iter) =
      some (a ++ (r ++ ((x :: r).drop r.length ++ tail))) := by
    rw [h.text, hiter, show s.textEnd - 1 - a.length = r.length by omega]
    exact @memmovedown_append a r tail [x]
  have hat : ∀ length, DecodeState.At ⟨a ++ (r ++ ((x :: r).drop r.length ++ tail)), s.iter, s.textEnd - 1, length, s.buffer⟩
      a r ((x :: r).drop r.length ++ tail) := by
    intro length
    refine ⟨rfl, hiter, ?_⟩
    dsimp only
    omega
  have htext : (a ++ (r ++ ((x :: r).drop r.length ++ tail))).length = s.text.length := by
    rw [h.text]
    simp only [List.length_append, List.length_cons, List.length_drop]
    omega
  have hmodes : mode ≠ .replac := by
    rw [hmode]
    decide
  unfold decodeRound
  rw [if_neg (by omega)]
  cases hbuffer : s.buffer with
  | none =>
    have hfits : s.textEnd ≤ s.length := by
      unfold DecodeState.Fits at hfits
      rwa [hbuffer] at hfits
    dsimp only
    unfold asciiRound DecodeState.malformed
    rw [hrd, some_bind, if_neg hlead]
    dsimp only
    rw [if_pos hbad, if_neg hmodes, if_pos hmode, hmove, some_bind]
    refine ⟨_, rfl, ⟨⟨_, hat _⟩, ?_, ?_, htext⟩, congrArg _ hbuffer, by simp⟩
    · rw [(hat _).chars_none hbuffer, h.chars_none hbuffer, List.append_nil]
    · unfold DecodeState.Fits
      dsimp only
      rw [hbuffer]
      dsimp only
      split_ifs <;> omega
  | some buffer =>
    have hroom := h.room hbuffer hfits
    rw [List.length_cons] at hroom
    dsimp only
    unfold bufferRound DecodeState.malformed
    rw [hrd, some_bind, if_neg hlead]
    dsimp only
    rw [if_pos hbad, if_neg hmodes, if_pos hmode, hmove, some_bind]
    refine ⟨_, rfl, ⟨⟨_, hat _⟩, ?_, ?_, htext⟩, congrArg _ hbuffer, by simp⟩
    · unfold DecodeState.chars
      dsimp only
      rw [hbuffer, List.append_nil]
    · unfold DecodeState.Fits
      dsimp only
      rw [hbuffer]
      dsimp only
      omega

theorem decodeRound_throw (h : s.At a (x :: r) tail) (hx : Malformed x r) (hreplac : mode ≠ .replac)
    (hignore : mode ≠ .ignore) : decodeRound mode shrinks s = some (.done none) := by
  have hend := h.textEnd
  have hiter := h.iter
  obtain ⟨hrd, hlead, hbad⟩ := h.read_malformed hx
  rw [List.length_cons] at hend
  unfold decodeRound
  rw [if_neg (by omega)]
  cases hbuffer : s.buffer with
  | none =>
    dsimp only
    unfold asciiRound DecodeState.malformed
    rw [hrd, some_bind, if_neg hlead]
    dsimp only
    rw [if_pos hbad, if_neg hreplac, if_neg hignore]
  | some buffer =>
    dsimp only
    unfold bufferRound DecodeState.malformed
    rw [hrd, some_bind, if_neg hlead]
    dsimp only
    rw [if_pos hbad, if_neg hreplac, if_neg hignore]

theorem decodeRound_end (h : s.At a [] tail) : decodeRound mode shrinks s = some (.done (some s)) := by
  unfold decodeRound
  exact if_pos (by rw [h.iter, h.textEnd]; exact le_rfl)

/-- Every text starts with an ASCII character, a sequence or a malformed byte. -/
theorem bytes_cases (b : List ℕ) :
    b = [] ∨ (∃ x r, b = x :: r ∧ x ≤ 0x7f) ∨ (∃ seq r, b = seq ++ r ∧ IsSequence seq) ∨
      ∃ x r, b = x :: r ∧ Malformed x r := by
  rcases b with _ | ⟨x, r⟩
  · exact .inl rfl
  by_cases hx : x ≤ 0x7f
  · exact .inr (.inl ⟨x, r, rfl, hx⟩)
  by_cases hbad : utf8SeqLen x = 0 ∨ r.length + 1 < utf8SeqLen x
  · exact .inr (.inr (.inr ⟨x, r, rfl, Nat.lt_of_not_le hx, hbad⟩))
  · obtain ⟨hpos, hle⟩ := not_or.mp hbad
    refine .inr (.inr (.inl ⟨(x :: r).take (utf8SeqLen x), (x :: r).drop (utf8SeqLen x), ?_, ?_, ?_⟩))
    · exact (List.take_append_drop _ _).symm
    · obtain ⟨n, hn⟩ := Nat.exists_eq_succ_of_ne_zero hpos
      rw [hn]
      exact Nat.lt_of_not_le hx
    · have hlen : ((x :: r).take (utf8SeqLen x)).length = utf8SeqLen x := by
        rw [List.length_take, List.length_cons]
        omega
      rw [hlen]
      obtain ⟨n, hn⟩ := Nat.exists_eq_succ_of_ne_zero hpos
      rw [hn]
      exact hn

end Rounds

/-! ### Runs -/

section Runs

variable {mode : ErrorMode} {shrinks : Bool} {str text chars : List ℕ} {s : DecodeState} {a b tail : List ℕ}

theorem DecodeState.At.left (h : s.At a b tail) : s.textEnd - s.iter = b.length := by
  rw [h.textEnd, h.iter, Nat.add_sub_cancel_left]

/-- What holds in every run: the text keeps its size, and its length is adjusted in one loop only. -/
structure DecodeState.Sized (mode : ErrorMode) (shrinks : Bool) (n : ℕ) (s : DecodeState) : Prop where
  moved : ∃ a b tail, s.At a b tail
  fits : s.Fits
  length_text : s.text.length = n + 1
  length_le : s.length ≤ n
  length_eq : shrinks = false ∨ mode ≠ .ignore → s.length = n

/-- How a run ends. -/
def DecodeOutcome (mode : ErrorMode) (shrinks : Bool) (n : ℕ) : Option DecodeState → Prop
  | none => mode ≠ .replac ∧ mode ≠ .ignore
  | some s => s.text.length = n + 1 ∧ s.length ≤ n ∧ (shrinks = false ∨ mode ≠ .ignore → s.length = n)

theorem DecodeState.Sized.round {n : ℕ} (h : s.Sized mode shrinks n) :
    Ends (decodeRound mode shrinks s)
      (Step.Sat (DecodeState.Sized mode shrinks n) (fun s => s.textEnd - s.iter) (s.textEnd - s.iter)
        (DecodeOutcome mode shrinks n)) := by
  obtain ⟨⟨a, b, tail, hat⟩, hfits, htext, hle, heq⟩ := h
  have hnext : ∀ {s' : DecodeState} {a' b' new : List ℕ}, s.Next s' a' b' new → b'.length < b.length →
      s'.length ≤ s.length → (shrinks = false ∨ mode ≠ .ignore → s'.length = s.length) →
        s'.Sized mode shrinks n ∧ s'.textEnd - s'.iter < s.textEnd - s.iter := by
    intro s' a' b' new hnext hb hle' heq'
    obtain ⟨tail', hat'⟩ := hnext.moved
    refine ⟨⟨⟨a', b', tail', hat'⟩, hnext.fits, hnext.length_text.trans htext, hle'.trans hle, fun h => ?_⟩, ?_⟩
    · rw [heq' h, heq h]
    · rw [hat.left, hat'.left]
      exact hb
  rcases bytes_cases b with rfl | ⟨x, r, rfl, hx⟩ | ⟨seq, r, rfl, hseq⟩ | ⟨x, r, rfl, hx⟩
  · rw [decodeRound_end hat]
    exact Ends.pure ⟨htext, hle, heq⟩
  · obtain ⟨s', hround, hs', -, hlen⟩ := @decodeRound_ascii mode shrinks s a r tail x hat hfits hx
    rw [hround]
    exact Ends.pure (hnext hs' (Nat.lt_succ_self _) hlen.le fun _ => hlen)
  · by_cases hwide : s.buffer.isSome ∨ 0x7f < seqChar seq
    · obtain ⟨s', hround, hs', -, hlen⟩ := @decodeRound_sequence mode shrinks s a r tail seq hat hfits hseq hwide
      have htwo := hseq.two_le
      rw [hround]
      exact Ends.pure (hnext hs' (by rw [List.length_append]; omega) hlen.le fun _ => hlen)
    · obtain ⟨hnone, hch⟩ := not_or.mp hwide
      have hbuffer : s.buffer = none := Option.not_isSome_iff_eq_none.mp hnone
      obtain ⟨s', b', hround, hs', hb, -, hlen⟩ :=
        @decodeRound_overlong mode shrinks s a r tail seq hat hfits hseq hbuffer (Nat.le_of_not_lt hch)
      rw [hround]
      exact Ends.pure (hnext hs' hb hlen.le fun _ => hlen)
  · by_cases hreplac : mode = .replac
    · obtain ⟨s', hround, hs', -, hlen⟩ := @decodeRound_replaced mode shrinks s a r tail x hat hfits hx hreplac
      rw [hround]
      exact Ends.pure (hnext hs' (Nat.lt_succ_self _) hlen.le fun _ => hlen)
    · by_cases hignore : mode = .ignore
      · obtain ⟨s', hround, hs', -, hlen⟩ := @decodeRound_dropped mode shrinks s a r tail x hat hfits hx hignore
        rw [hround]
        refine Ends.pure (hnext hs' (Nat.lt_succ_self _) ?_ fun h => ?_)
        · rw [hlen]
          split_ifs <;> omega
        · rw [hlen, if_neg]
          rintro ⟨hshrinks, -⟩
          rcases h with h | h
          · rw [h] at hshrinks
            cases hshrinks
          · exact h hignore
      · rw [decodeRound_throw hat hx hreplac hignore]
        exact Ends.pure ⟨hreplac, hignore⟩

/-- The state in which both functions start. -/
def startState (str : List ℕ) : DecodeState := ⟨str ++ [0], 0, str.length, str.length, none⟩

theorem startState_at : (startState str).At [] str [0] := ⟨rfl, rfl, (Nat.zero_add _).symm⟩

theorem decodeLoop_ends :
    Ends (loop (decodeRound mode shrinks) (str.length + 1) (startState str)) (DecodeOutcome mode shrinks str.length) := by
  refine loop_ends (DecodeState.Sized mode shrinks str.length) (fun s => s.textEnd - s.iter) ?_
    (Nat.lt_succ_of_le (Nat.sub_le _ _)) fun s hs => hs.round
  exact ⟨⟨[], str, [0], startState_at⟩, le_rfl, List.length_append, le_rfl, fun _ => rfl⟩

/-- A run in which no byte goes missing: what was read stands for the characters so far. -/
structure DecodeState.Exact (mode : ErrorMode) (shrinks : Bool) (str : List ℕ) (s : DecodeState) : Prop where
  moved : ∃ a b tail, s.At a b tail ∧ Plain mode shrinks s.buffer.isSome b ∧ s.length = a.length + b.length ∧
    ∀ text chars, Decodes mode s.buffer.isSome b text chars → Decodes mode false str (a ++ text) (s.chars ++ chars)
  fits : s.Fits

/-- The text and the characters at the end of such a run. -/
def ExactOutcome (mode : ErrorMode) (str : List ℕ) : Option DecodeState → Prop
  | none => False
  | some s => s.length ≤ s.text.length ∧ s.finish.uData = s.chars ∧
      Decodes mode false str (s.text.take s.length) s.chars

theorem DecodeState.Exact.round (h : s.Exact mode shrinks str) :
    Ends (decodeRound mode shrinks s)
      (Step.Sat (DecodeState.Exact mode shrinks str) (fun s => s.textEnd - s.iter) (s.textEnd - s.iter)
        (ExactOutcome mode str)) := by
  obtain ⟨⟨a, b, tail, hat, hplain, hlen, hdecodes⟩, hfits⟩ := h
  have hnext : ∀ {s' : DecodeState} {r text new : List ℕ} {wide : Bool}, s.Next s' (a ++ text) r new →
      r.length < b.length → s'.length = (a ++ text).length + r.length → s'.buffer.isSome = wide →
      Plain mode shrinks wide r → (∀ text' chars, Decodes mode wide r text' chars →
        Decodes mode s.buffer.isSome b (text ++ text') (new ++ chars)) →
      s'.Exact mode shrinks str ∧ s'.textEnd - s'.iter < s.textEnd - s.iter := by
    intro s' r text new wide hnext hb hlength hwide hplain' hcons
    obtain ⟨tail', hat'⟩ := hnext.moved
    refine ⟨⟨⟨a ++ text, r, tail', hat', hwide ▸ hplain', hlength, fun text' chars h' => ?_⟩, hnext.fits⟩, ?_⟩
    · rw [hwide] at h'
      rw [hnext.chars, List.append_assoc, List.append_assoc]
      exact hdecodes _ _ (hcons _ _ h')
    · rw [hat.left, hat'.left]
      exact hb
  generalize hwide : s.buffer.isSome = wide at hplain hnext
  cases hplain with
  | nil =>
    rw [List.length_nil, Nat.add_zero] at hlen
    rw [decodeRound_end hat]
    refine Ends.pure ⟨?_, ?_, ?_⟩
    · rw [hlen, hat.text, List.length_append]
      exact Nat.le_add_right _ _
    · unfold DecodeState.finish DecodeState.chars
      cases s.buffer with
      | none =>
        dsimp only
        rw [hlen, hat.iter]
      | some buffer => rfl
    · have hall := hdecodes [] [] .nil
      rw [List.append_nil, List.append_nil] at hall
      rwa [hat.text, hlen, List.take_left]
  | @ascii _ x r hx hplain =>
    obtain ⟨s', hround, hs', hbuffer, hlen'⟩ := @decodeRound_ascii mode shrinks s a r tail x hat hfits hx
    rw [hround]
    refine Ends.pure (hnext hs' (Nat.lt_succ_self _) ?_ (hbuffer.trans hwide) hplain fun text chars h => .ascii hx h)
    rw [hlen', hlen, List.length_append, List.length_cons, List.length_singleton]
    omega
  | @sequence _ seq r hseq hch hplain =>
    have htwo := hseq.two_le
    obtain ⟨s', hround, hs', hbuffer, hlen'⟩ :=
      @decodeRound_sequence mode shrinks s a r tail seq hat hfits hseq (hwide ▸ hch)
    rw [hround]
    refine Ends.pure (hnext hs' (by rw [List.length_append]; omega) ?_ hbuffer hplain
      fun text chars h => .sequence hseq hch h)
    rw [hlen', hlen, List.length_append, List.length_append, Nat.add_assoc]
  | @replaced _ x r hmode hx hplain =>
    obtain ⟨s', hround, hs', hbuffer, hlen'⟩ := @decodeRound_replaced mode shrinks s a r tail x hat hfits hx hmode
    rw [hround]
    refine Ends.pure (hnext hs' (Nat.lt_succ_self _) ?_ (hbuffer.trans hwide) hplain
      fun text chars h => .replaced hmode hx h)
    rw [hlen', hlen, List.length_append, List.length_cons, List.length_singleton]
    omega
  | @dropped x r hmode hshrinks hx hplain =>
    obtain ⟨s', hround, hs', hbuffer, hlen'⟩ := @decodeRound_dropped mode shrinks s a r tail x hat hfits hx hmode
    rw [hround]
    refine Ends.pure (@hnext s' r [] [] false (by rwa [List.append_nil]) (Nat.lt_succ_self _) ?_
      (hbuffer.trans hwide) hplain fun text chars h => .dropped hmode hx h)
    rw [hlen', if_pos ⟨hshrinks, hwide⟩, hlen,
      List.append_nil, List.length_cons]
    omega

theorem decodeLoop_exact (h : Plain mode shrinks false str) :
    Ends (loop (decodeRound mode shrinks) (str.length + 1) (startState str)) (ExactOutcome mode str) := by
  refine loop_ends (DecodeState.Exact mode shrinks str) (fun s => s.textEnd - s.iter) ?_
    (Nat.lt_succ_of_le (Nat.sub_le _ _)) fun s hs => hs.round
  exact ⟨⟨[], str, [0], startState_at, h, (Nat.zero_add _).symm, fun text chars h => h⟩, le_rfl⟩

/-- A run of `DeeString_NewUtf8` that drops bytes, where the right text is `n` bytes long. The length of the text covers
what was read and what is left of it; it is no more than that only if no byte went missing. -/
structure DecodeState.Covers (str : List ℕ) (n : ℕ) (s : DecodeState) : Prop where
  moved : ∃ a b tail text chars, s.At a b tail ∧ Decodes .ignore s.buffer.isSome b text chars ∧
    n = a.length + text.length ∧ a.length + b.length ≤ s.length ∧
    (s.length = a.length + b.length → Plain .ignore true s.buffer.isSome b → Plain .ignore true false str) ∧
    (s.buffer.isSome = false → ¬HasOverlong b)
  fits : s.Fits

/-- If the length is right then no byte is missing. -/
def CoversOutcome (str : List ℕ) (n : ℕ) (result : Option DecodeState) : Prop :=
  ∀ s, result = some s → s.length = n → Plain .ignore true false str

theorem DecodeState.Covers.round {n : ℕ} (h : s.Covers str n) :
    Ends (decodeRound .ignore true s)
      (Step.Sat (DecodeState.Covers str n) (fun s => s.textEnd - s.iter) (s.textEnd - s.iter) (CoversOutcome str n)) := by
  obtain ⟨⟨a, b, tail, text, chars, hat, hdecodes, hn, hle, hplain, hoverlong⟩, hfits⟩ := h
  have hnext : ∀ {s' : DecodeState} {a' r new text' chars' : List ℕ}, s.Next s' a' r new → r.length < b.length →
      Decodes .ignore s'.buffer.isSome r text' chars' → n = a'.length + text'.length → a'.length + r.length ≤ s'.length →
      (s'.length = a'.length + r.length → s.length = a.length + b.length ∧
        (Plain .ignore true s'.buffer.isSome r → Plain .ignore true s.buffer.isSome b)) →
      (s'.buffer.isSome = false → ¬HasOverlong r) → s'.Covers str n ∧ s'.textEnd - s'.iter < s.textEnd - s.iter := by
    intro s' a' r new text' chars' hnext hb hdecodes' hn' hle' hplain' hoverlong'
    obtain ⟨tail', hat'⟩ := hnext.moved
    refine ⟨⟨⟨a', r, tail', text', chars', hat', hdecodes', hn', hle', fun heq h => ?_, hoverlong'⟩, hnext.fits⟩, ?_⟩
    · obtain ⟨heq', hplain'⟩ := hplain' heq
      exact hplain heq' (hplain' h)
    · rw [hat.left, hat'.left]
      exact hb
  rcases bytes_cases b with rfl | ⟨x, r, rfl, hx⟩ | ⟨seq, r, rfl, hseq⟩ | ⟨x, r, rfl, hx⟩
  · obtain ⟨rfl, -⟩ := hdecodes.of_nil
    rw [decodeRound_end hat]
    refine Ends.pure fun s' hs' hlen => ?_
    obtain rfl := Option.some.inj hs'
    exact hplain (hlen.trans hn) .nil
  · obtain ⟨text', chars', rfl, -, hrest⟩ := hdecodes.cons_ascii hx
    obtain ⟨s', hround, hs', hbuffer, hlen⟩ := @decodeRound_ascii .ignore true s a r tail x hat hfits hx
    have hlist : (a ++ [x]).length = a.length + 1 := List.length_append
    rw [List.length_cons] at hn hle
    rw [hround]
    refine Ends.pure (hnext hs' (Nat.lt_succ_self _) (hbuffer ▸ hrest) (by omega) (by omega) (fun heq => ?_) ?_)
    · rw [List.length_cons]
      exact ⟨by omega, fun h => .ascii hx (hbuffer ▸ h)⟩
    · rw [hbuffer]
      exact fun hnone h => hoverlong hnone (.ascii hx h)
  · have hwide : s.buffer.isSome ∨ 0x7f < seqChar seq := by
      cases hnone : s.buffer.isSome with
      | true => exact .inl rfl
      | false => exact .inr (Nat.lt_of_not_le fun hch => hoverlong hnone (.head hseq hch))
    have htwo := hseq.two_le
    obtain ⟨text', chars', rfl, -, hrest⟩ := hdecodes.append_sequence hseq hwide
    obtain ⟨s', hround, hs', hbuffer, hlen⟩ := @decodeRound_sequence .ignore true s a r tail seq hat hfits hseq hwide
    have hlist : (a ++ seq).length = a.length + seq.length := List.length_append
    rw [List.length_append] at hn hle
    rw [hround]
    refine Ends.pure (hnext hs' ?_ (hbuffer ▸ hrest) (by omega) (by omega) (fun heq => ?_) ?_)
    · rw [List.length_append]
      omega
    · rw [List.length_append]
      exact ⟨by omega, fun h => .sequence hseq hwide (hbuffer ▸ h)⟩
    · rw [hbuffer]
      exact fun hnone => absurd hnone (by decide)
  · obtain ⟨s', hround, hs', hbuffer, hlen⟩ := @decodeRound_dropped .ignore true s a r tail x hat hfits hx rfl
    rw [List.length_cons] at hle
    rw [hround]
    refine Ends.pure (hnext hs' (Nat.lt_succ_self _) (hbuffer ▸ hdecodes.cons_malformed hx) hn ?_ (fun heq => ?_) ?_)
    · rw [hlen]
      split_ifs <;> omega
    · rw [hlen] at heq
      split_ifs at heq with hnarrow
      · rw [hbuffer, hnarrow.2, List.length_cons]
        exact ⟨by omega, fun h => .dropped rfl rfl hx h⟩
      · omega
    · rw [hbuffer]
      exact fun hnone h => hoverlong hnone (.malformed hx h)

theorem decodeLoop_covers (h : Decodes .ignore false str text chars) (hoverlong : ¬HasOverlong str) :
    Ends (loop (decodeRound .ignore true) (str.length + 1) (startState str)) (CoversOutcome str text.length) := by
  refine loop_ends (DecodeState.Covers str text.length) (fun s => s.textEnd - s.iter) ?_
    (Nat.lt_succ_of_le (Nat.sub_le _ _)) fun s hs => hs.round
  exact ⟨⟨[], str, [0], text, chars, startState_at, h, (Nat.zero_add _).symm, (Nat.zero_add _).le, fun _ h => h,
    fun _ => hoverlong⟩, le_rfl⟩

end Runs

/-! ### Strings -/

section Strings

variable {mode : ErrorMode} {shrinks wide : Bool} {str text chars r cs : List ℕ} {string : DeeString} {x c : ℕ}

/-- The string holds the text that was decoded and its characters, and its text stands for them. -/
structure DeeString.HoldsUtf8 (string : DeeString) (mode : ErrorMode) (str : List ℕ) : Prop where
  length_le : string.sLen ≤ string.sStr.length
  decodes : Decodes mode false str (string.sStr.take string.sLen) string.uData
  reread : Decodes .strict false (string.sStr.take string.sLen) (string.sStr.take string.sLen) string.uData

theorem finish_text (s : DecodeState) : s.finish.sLen = s.length ∧ s.finish.sStr = s.text := by
  unfold DecodeState.finish
  cases s.buffer <;> exact ⟨rfl, rfl⟩

/-- Both functions fail in strict mode only. Without a missing byte the string is right. It is right only then, except
that the old bytes behind a sequence that was put right may be dropped again. -/
theorem decodeText_ends :
    Ends (decodeText shrinks str mode) fun result => (result = none → mode ≠ .replac ∧ mode ≠ .ignore) ∧
      (Plain mode shrinks false str → ∃ string, result = some string ∧ string.HoldsUtf8 mode str) ∧
      ∀ string, result = some string → (shrinks → mode = .ignore → ¬HasOverlong str) → string.HoldsUtf8 mode str →
        Plain mode shrinks false str := by
  obtain ⟨end', hrun, hend⟩ := @decodeLoop_ends mode shrinks str
  refine ⟨end'.map DecodeState.finish, congrArg (Option.map _) hrun, ?_, ?_, ?_⟩
  · intro hnone
    rw [Option.map_eq_none_iff.mp hnone] at hend
    exact hend
  · intro hplain
    have hexact := (decodeLoop_exact hplain).of_eq hrun
    cases end' with
    | none => exact hexact.elim
    | some s =>
      obtain ⟨hle, hdata, hdecodes⟩ := hexact
      obtain ⟨hlen, htext⟩ := finish_text s
      refine ⟨s.finish, rfl, ?_, ?_, ?_⟩
      · rw [hlen, htext]
        exact hle
      · rw [hlen, htext, hdata]
        exact hdecodes
      · rw [hlen, htext, hdata]
        exact hdecodes.reread
  · intro string hstring hkept hright
    obtain ⟨s, rfl, rfl⟩ := Option.map_eq_some_iff.mp hstring
    have hlen : (s.finish.sStr.take s.finish.sLen).length = s.length := by
      rw [List.length_take, Nat.min_eq_left hright.length_le, (finish_text s).1]
    by_cases hdrops : shrinks ∧ mode = .ignore
    · obtain ⟨rfl, rfl⟩ := hdrops
      exact (decodeLoop_covers hright.decodes (hkept rfl rfl)).of_eq hrun s rfl hlen.symm
    · have hsame : shrinks = false ∨ mode ≠ .ignore := by
        rcases shrinks with _ | _
        · exact .inl rfl
        · exact .inr fun hmode => hdrops ⟨rfl, hmode⟩
      exact hright.decodes.length_le.2 (hlen.trans (hend.2.2 hsame))

/-! ### Well-formed texts -/

theorem isSequence_writeUtf8 (hascii : 0x80 ≤ c) (hc : c < 2 ^ 32) :
    IsSequence (writeUtf8 c) ∧ seqChar (writeUtf8 c) = c := by
  obtain ⟨lead, n, hwrite, hpos, -, hlead⟩ := writeUtf8_eq hascii hc
  have hlen : (lead :: utf8Rest c n).length = n + 1 := by rw [List.length_cons, length_utf8Rest]
  have hge := hlead.ge
  have hfollow := @utf8Follow_append [] [] (utf8Rest c n) (c >>> (6 * n))
  rw [List.nil_append, List.append_nil, length_utf8Rest, List.length_nil,
    utf8Follow_rest hc (by rw [length_utf8Rest, Nat.zero_add]) fun i _ => by rw [Nat.zero_add]] at hfollow
  rw [hwrite]
  refine ⟨⟨?_, ?_⟩, ?_⟩
  · rw [List.headD_cons]
    omega
  · rw [hlen, List.headD_cons]
    exact hlead.seqLen
  · unfold seqChar
    rw [hlen, List.headD_cons, List.tail_cons, hlead.bits]
    exact (Option.some.inj hfollow).symm

theorem plain_utf8 (h : ∀ c ∈ cs, c < 2 ^ 32) : Plain mode shrinks wide (utf8 cs) := by
  induction cs generalizing wide with
  | nil => exact .nil
  | cons c cs ih =>
    have htail : ∀ d ∈ cs, d < 2 ^ 32 := fun d hd => h d (List.mem_cons_of_mem c hd)
    rw [utf8_cons]
    by_cases hascii : c < 0x80
    · have hwrite : writeUtf8 c = [c] := if_pos hascii
      rw [hwrite]
      exact .ascii (Nat.le_of_lt_succ hascii) (ih htail)
    · obtain ⟨hseq, hchar⟩ := isSequence_writeUtf8 (Nat.le_of_not_lt hascii) (h c List.mem_cons_self)
      exact .sequence hseq (.inr (by omega)) (ih htail)

/-- A well-formed text stands for itself and its characters only. -/
theorem Decodes.of_utf8 (hcs : ∀ c ∈ cs, c < 2 ^ 32) (h : Decodes mode wide (utf8 cs) text chars) :
    text = utf8 cs ∧ chars = cs := by
  induction cs generalizing wide text chars with
  | nil => exact h.of_nil
  | cons c cs ih =>
    have htail : ∀ d ∈ cs, d < 2 ^ 32 := fun d hd => hcs d (List.mem_cons_of_mem c hd)
    rw [utf8_cons] at h ⊢
    by_cases hascii : c < 0x80
    · have hwrite : writeUtf8 c = [c] := if_pos hascii
      rw [hwrite] at h ⊢
      obtain ⟨text', chars', rfl, rfl, hrest⟩ := h.cons_ascii (Nat.le_of_lt_succ hascii)
      obtain ⟨rfl, rfl⟩ := ih htail hrest
      exact ⟨rfl, rfl⟩
    · obtain ⟨hseq, hchar⟩ := isSequence_writeUtf8 (Nat.le_of_not_lt hascii) (hcs c List.mem_cons_self)
      obtain ⟨text', chars', rfl, rfl, hrest⟩ := h.append_sequence hseq (.inr (by omega))
      obtain ⟨rfl, rfl⟩ := ih htail hrest
      exact ⟨rfl, by rw [hchar]⟩

/-- Only the characters of ASCII are their own UTF-8 form. -/
theorem length_le_utf8 : cs.length ≤ (utf8 cs).length ∧ ((utf8 cs).length = cs.length → ∀ c ∈ cs, c ≤ 0x7f) := by
  induction cs with
  | nil => exact ⟨le_rfl, fun _ c hc => absurd hc List.not_mem_nil⟩
  | cons c cs ih =>
    rw [utf8_cons, List.length_append, List.length_cons]
    have hpos := List.length_pos_of_ne_nil (@writeUtf8_ne_nil c)
    refine ⟨by omega, fun heq => List.forall_mem_cons.mpr ⟨?_, ih.2 (by omega)⟩⟩
    by_contra hascii
    have htwo : 2 ≤ (writeUtf8 c).length := by
      unfold writeUtf8
      rw [if_neg (by omega)]
      split_ifs <;> simp only [List.length_cons, length_utf8Rest] <;> omega
    omega

/-- What `decodeText` leaves for `DeeString_AsUtf8`. -/
structure DeeString.FromUtf8 (string : DeeString) : Prop where
  fascii : string.uFascii = false
  cached : string.uUtf8 = some (string.sStr.take string.sLen) ∨
    string.uUtf8 = none ∧ string.uWidth = .byte1 ∧ string.uData = string.sStr.take string.sLen

theorem fromUtf8_of_decodeText (h : decodeText shrinks str mode = some (some string)) : string.FromUtf8 := by
  obtain ⟨end', -, hend⟩ := Option.map_eq_some_iff.mp h
  obtain ⟨s, -, rfl⟩ := Option.map_eq_some_iff.mp hend
  unfold DecodeState.finish
  cases s.buffer with
  | none => exact ⟨rfl, .inr ⟨rfl, rfl, rfl⟩⟩
  | some buffer => exact ⟨rfl, .inl rfl⟩

theorem DeeString.FromUtf8.asUtf8 (h : string.FromUtf8) (htext : string.sStr.take string.sLen = utf8 string.uData) :
    (deeStringAsUtf8 string).1 = utf8 string.uData := by
  unfold deeStringAsUtf8
  rcases h.cached with hcached | ⟨hcached, hwidth, hdata⟩
  · rw [hcached]
    exact htext
  · have hascii : ∀ ch ∈ string.sStr.take string.sLen, ch ≤ 0x7f := by
      rw [← hdata]
      refine length_le_utf8.2 ?_
      rw [← htext, hdata]
    rw [hcached, h.fascii, hwidth]
    dsimp only
    rw [if_neg (by decide), if_pos hascii]
    exact htext

/-- A string of `DeeString_SetUtf8` is right only if no byte went missing. So is one of `DeeString_NewUtf8`, but there
it does no harm to drop malformed bytes as long as no wide character was read; an old byte that is read again may also be
dropped. Well-formed texts come back unchanged. -/
theorem holdsUtf8_iff_plain (str cs : List ℕ) (mode : ErrorMode) :
    (Ends (deeStringSetUtf8 str mode) fun result => (result = none → mode ≠ .replac ∧ mode ≠ .ignore) ∧
      ∀ string, result = some string → (string.HoldsUtf8 mode str ↔ Plain mode false false str)) ∧
    (Ends (deeStringNewUtf8 str mode) fun result => (result = none → mode ≠ .replac ∧ mode ≠ .ignore) ∧
      ∀ string, result = some string → (Plain mode true false str → string.HoldsUtf8 mode str) ∧
        ((mode = .ignore → ¬HasOverlong str) → string.HoldsUtf8 mode str → Plain mode true false str)) ∧
    ((∀ c ∈ cs, c < 2 ^ 32) → ∀ build ∈ [deeStringNewUtf8, deeStringSetUtf8],
      ∃ string, build (utf8 cs) mode = some (some string) ∧ string.HoldsUtf8 mode (utf8 cs) ∧ string.uData = cs ∧
        (deeStringAsUtf8 string).1 = utf8 cs) := by
  refine ⟨?_, ?_, fun hcs build hbuild => ?_⟩
  · refine decodeText_ends.mono fun result ⟨hnone, hright, hplain⟩ => ⟨hnone, fun string hstring => ⟨?_, fun h => ?_⟩⟩
    · exact hplain string hstring fun hshrinks => absurd hshrinks Bool.false_ne_true
    · obtain ⟨string', hstring', hholds⟩ := hright h
      rw [hstring, Option.some.injEq] at hstring'
      rwa [hstring']
  · refine decodeText_ends.mono fun result ⟨hnone, hright, hplain⟩ => ⟨hnone, fun string hstring => ⟨fun h => ?_, ?_⟩⟩
    · obtain ⟨string', hstring', hholds⟩ := hright h
      rw [hstring, Option.some.injEq] at hstring'
      rwa [hstring']
    · exact fun hmode => hplain string hstring fun _ => hmode
  · obtain ⟨shrinks, rfl⟩ : ∃ shrinks, build = decodeText shrinks := by
      rw [List.mem_cons, List.mem_singleton] at hbuild
      rcases hbuild with rfl | rfl
      · exact ⟨true, rfl⟩
      · exact ⟨false, rfl⟩
    obtain ⟨result, hresult, -, hright, -⟩ := @decodeText_ends mode shrinks (utf8 cs)
    obtain ⟨string, rfl, hholds⟩ := hright (plain_utf8 hcs)
    obtain ⟨htext, hdata⟩ := hholds.decodes.of_utf8 hcs
    refine ⟨string, hresult, hholds, hdata, ?_⟩
    rw [(fromUtf8_of_decodeText hresult).asUtf8 (by rw [hdata, htext]), hdata]

theorem holdsUtf8_smiley : ∃ string, deeStringNewUtf8 (utf8 [0x41, 0x1f600]) .strict = some (some string) ∧
    string.HoldsUtf8 .strict (utf8 [0x41, 0x1f600]) ∧ string.uData = [0x41, 0x1f600] ∧
      (deeStringAsUtf8 string).1 = utf8 [0x41, 0x1f600] :=
  (holdsUtf8_iff_plain [] [0x41, 0x1f600] .strict).2.2 (by decide) deeStringNewUtf8 List.mem_cons_self

/-- The byte `0xff` is dropped behind a wide character, but the length stays 3. -/
theorem holdsUtf8_counterexample : ∃ string, deeStringNewUtf8 [0xc3, 0xa9, 0xff] .ignore = some (some string) ∧
    ¬string.HoldsUtf8 .ignore [0xc3, 0xa9, 0xff] := by
  refine ⟨⟨3, [0xc3, 0xa9, 0xff, 0], .byte2, [0xe9], some [0xc3, 0xa9, 0xff], none, false⟩, by decide +kernel, fun h => ?_⟩
  have hseq : IsSequence [0xc3, 0xa9] := ⟨by decide, rfl⟩
  have hlast : Malformed 0xff [] := ⟨by decide, .inr (by decide)⟩
  have hdecodes : Decodes .ignore false ([0xc3, 0xa9] ++ [0xff]) [0xc3, 0xa9, 0xff] [0xe9] := h.decodes
  obtain ⟨text, chars, htext, -, hrest⟩ := hdecodes.append_sequence hseq (.inr (by decide))
  rw [(hrest.cons_malformed hlast).of_nil.1] at htext
  exact absurd htext (by decide)

end Strings

end Deemon.Unicode
