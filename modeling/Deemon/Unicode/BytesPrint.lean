import Deemon.Unicode.BytesPrinter
import Deemon.Unicode.PrinterRuns

/-!
# The bytes printer and UTF-8

`Dee_bytes_printer_print` decodes UTF-8 and prints every character as a byte. A character above U+007F goes through
`Dee_bytes_printer_putc`, which calls `Dee_bytes_printer_print` again with the byte as a text of its own. So a byte from
0xC0 on becomes the start of a sequence that is pending, and the last byte of a sequence that was cut is decoded again
and again.
-/

namespace Deemon.Unicode

open Deemon.Run

/-! ### The code -/

/-- `struct Dee_bytes_printer`, with the pending bytes of a sequence. -/
structure TextBytesPrinter extends BytesPrinter where
  bpPend : List ℕ
  deriving DecidableEq

/-- `Dee_bytes_printer_init`. -/
def TextBytesPrinter.init : TextBytesPrinter := ⟨.init, []⟩

/-- Why printing does not succeed. -/
inductive PrintError where
  | fault (fault : Fault)
  /-- The `UnicodeEncodeError` for a character, with the printer that is left. -/
  | tooLarge (self : TextBytesPrinter) (ch32 : ℕ)
  /-- There are more calls inside one another than there may be. -/
  | tooDeep
  deriving DecidableEq

/-- A step that must not leave a buffer. -/
def orFault {α : Type} : Option α → Except PrintError α
  | some a => .ok a
  | none => .error (.fault .broken)

/-- An operation that takes raw bytes. -/
def TextBytesPrinter.setBytes (self : TextBytesPrinter) :
    Except Fault BytesPrinter → Except PrintError TextBytesPrinter
  | .ok printer => .ok { self with toBytesPrinter := printer }
  | .error fault => .error (.fault fault)

/-- `Dee_bytes_printer_putb`. -/
def BytesPrinter.putb (mem : Memory) (self : BytesPrinter) (ch : ℕ) : Except Fault BytesPrinter :=
  match self.bpBytes with
  | some cells =>
    if self.bpLength < cells.length then do
      let cells ← writeCells .byte1 cells self.bpLength [ch]
      .ok { self with
        bpLength := self.bpLength + 1
        bpBytes := some cells }
    else self.append mem [ch]
  | none => self.append mem [ch]

section Print

variable (putc : TextBytesPrinter → ℕ → Except PrintError TextBytesPrinter)

/-- A character that was decoded. -/
def TextBytesPrinter.emit (self : TextBytesPrinter) (ch32 : ℕ) : Except PrintError TextBytesPrinter :=
  if 0xff < ch32 then .error (.tooLarge self ch32) else putc self ch32

/-- The loop that completes a pending sequence, with the text that is left. It does not count `textlen` down. -/
def TextBytesPrinter.printPending (textlen : ℕ) :
    TextBytesPrinter → List ℕ → Except PrintError (TextBytesPrinter × List ℕ)
  | self, [] => if self.bpPend = [] ∨ textlen = 0 then .ok (self, []) else .error (.fault .broken)
  | self, ch :: text =>
    if self.bpPend = [] ∨ textlen = 0 then .ok (self, ch :: text)
    else do
      let pend := self.bpPend ++ [ch]
      let reqlen := utf8SeqLen (cell pend 0)
      if 7 < pend.length ∨ reqlen < pend.length then .error (.fault .broken)
      else if pend.length = reqlen then do
        let ch32 ← orFault (utf8Getchar pend 0 reqlen)
        -- the sequence is still pending here, without its last byte
        let self ← self.emit putc ch32
        .ok ({ self with bpPend := [] }, text)
      else TextBytesPrinter.printPending textlen { self with bpPend := pend } text

/-- `Dee_bytes_printer_print` from `again_flush`. -/
def TextBytesPrinter.printFlush (mem : Memory) :
    (fuel : ℕ) → TextBytesPrinter → List ℕ → (textlen : ℕ) → Except PrintError TextBytesPrinter
  | 0, _, _, _ => .error (.fault .broken)
  | fuel + 1, self, text, textlen => do
    let flush := (text.take textlen).takeWhile fun ch => ch < 0xc0
    let text := text.drop flush.length
    let textlen := textlen - flush.length
    -- the scan reads the byte behind the text
    if text = [] ∧ textlen ≠ 0 then .error (.fault .broken)
    else do
      let self ← (if flush = [] then .ok self else self.setBytes (self.append mem flush))
      if textlen = 0 then .ok self
      else do
        let seqlen := utf8SeqLen (cell text 0)
        if textlen < seqlen then
          if text.length < textlen then .error (.fault .broken) else .ok { self with bpPend := text.take textlen }
        else do
          let ch32 ← orFault (utf8Getchar text 0 seqlen)
          let self ← self.emit putc ch32
          TextBytesPrinter.printFlush mem fuel self (text.drop seqlen) (textlen - seqlen)

/-- The body of `Dee_bytes_printer_print`. -/
def TextBytesPrinter.printWith (mem : Memory) (self : TextBytesPrinter) (text : List ℕ) :
    Except PrintError TextBytesPrinter := do
  let (self, rest) ← self.printPending putc text.length text
  if self.bpPend ≠ [] then .ok self else self.printFlush putc mem (text.length + 1) rest text.length

end Print

/-- `Dee_bytes_printer_putc`, for the `print` that it calls. -/
def TextBytesPrinter.putc (mem : Memory) (print : TextBytesPrinter → List ℕ → Except PrintError TextBytesPrinter)
    (self : TextBytesPrinter) (ch : ℕ) : Except PrintError TextBytesPrinter :=
  if ch < 0x80 then self.setBytes (self.putb mem ch) else print self [ch]

/-- `Dee_bytes_printer_print`, when only `depth` calls of it may be inside one another. -/
def TextBytesPrinter.print (mem : Memory) : (depth : ℕ) → TextBytesPrinter → List ℕ → Except PrintError TextBytesPrinter
  | 0, _, _ => .error .tooDeep
  | depth + 1, self, text =>
    self.printWith (TextBytesPrinter.putc mem fun self text => TextBytesPrinter.print mem depth self text) mem text

/-- A text that is printed piece by piece. -/
def TextBytesPrinter.printAll (mem : Memory) (depth : ℕ) : TextBytesPrinter → List (List ℕ) →
    Except PrintError TextBytesPrinter
  | self, [] => .ok self
  | self, chunk :: chunks => do
    let self ← self.print mem depth chunk
    TextBytesPrinter.printAll mem depth self chunks

/-! ### Results -/

section Results

variable {α β : Type} {mem : Memory} {r : Except PrintError α} {f : α → Except PrintError β}

/-- Memory is refused, or the result is as `Q` says. -/
def Meets (mem : Memory) (r : Except PrintError α) (Q : Except PrintError α → Prop) : Prop :=
  (r = .error (.fault .noMemory) ∧ ∃ n, mem.grants n = false) ∨ Q r

theorem Meets.mono {Q R : Except PrintError α → Prop} (h : Meets mem r Q) (hQR : ∀ r, Q r → R r) : Meets mem r R :=
  h.imp_right (hQR r)

theorem Meets.bind {P : α → Prop} {Q : Except PrintError β → Prop} (h : Meets mem r fun r => ∃ a, r = .ok a ∧ P a)
    (hf : ∀ a, P a → Meets mem (f a) Q) : Meets mem (r >>= f) Q := by
  rcases h with ⟨rfl, hmem⟩ | ⟨a, rfl, ha⟩
  · exact .inl ⟨rfl, hmem⟩
  · exact hf a ha

theorem Meets.of_grants {Q : Except PrintError α → Prop} (hmem : ∀ n, mem.grants n = true) (h : Meets mem r Q) : Q r := by
  rcases h with ⟨-, n, hn⟩ | h
  · rw [hmem] at hn
    cases hn
  · exact h

/-- A request was refused when memory was. -/
def Requests (mem : Memory) (r : Except Fault α) : Prop := r = .error .noMemory → ∃ n, mem.grants n = false

theorem Requests.ok {a : α} : Requests mem (.ok a) := fun h => by cases h

theorem Requests.broken : Requests mem (.error .broken : Except Fault α) := fun h => by cases h

theorem Requests.bind {r : Except Fault α} {f : α → Except Fault β} (h : Requests mem r) (hf : ∀ a, Requests mem (f a)) :
    Requests mem (r >>= f) := by
  cases r with
  | ok a => exact hf a
  | error fault =>
    intro heq
    cases heq
    exact h rfl

end Results

/-! ### Raw bytes -/

section Raw

variable {mem : Memory} {p p' : TextBytesPrinter} {data : List ℕ} {ch n : ℕ}

theorem grantSize_requests : ∀ (size : ℕ) (sizes : List ℕ) (requests : ℕ),
    Requests mem (grantSize mem requests (size :: sizes)) := by
  intro size sizes
  induction sizes generalizing size with
  | nil =>
    intro requests
    rw [grantSize]
    split_ifs with hgrant
    · exact Requests.ok
    · exact fun _ => ⟨requests, by simpa using hgrant⟩
  | cons next sizes ih =>
    intro requests
    rw [grantSize]
    split_ifs with hgrant
    · exact Requests.ok
    · exact ih next _

theorem allocSizes_requests (allocSize minAlloc requests : ℕ) :
    Requests mem (grantSize mem requests (allocSizes allocSize minAlloc)) := by
  unfold allocSizes
  split_ifs <;> exact grantSize_requests _ _ _

theorem writeCells_requests (width : StringWidth) (cells text : List ℕ) (pos : ℕ) :
    Requests mem (writeCells width cells pos text) := by
  unfold writeCells
  split_ifs
  · exact Requests.ok
  · exact Requests.broken

theorem doubled_requests : ∀ fuel newAlloc need : ℕ, Requests mem (doubled fuel newAlloc need) := by
  intro fuel
  induction fuel with
  | zero => intro newAlloc need; exact Requests.broken
  | succ fuel ih =>
    intro newAlloc need
    rw [doubled]
    split_ifs
    · exact ih _ _
    · exact Requests.ok

theorem append_requests (p : BytesPrinter) (data : List ℕ) : Requests mem (p.append mem data) := by
  have hwrite : ∀ (cells : List ℕ) (pos length requests : ℕ), Requests mem
      (writeCells .byte1 cells pos data >>= fun cells => .ok (BytesPrinter.mk length (some cells) requests)) :=
    fun cells pos length requests => (writeCells_requests _ _ _ _).bind fun _ => Requests.ok
  unfold BytesPrinter.append
  cases p.bpBytes with
  | none =>
    dsimp only
    split_ifs with hempty hlong
    · exact Requests.ok
    · exact (doubled_requests _ _ _).bind fun _ => (allocSizes_requests _ _ _).bind fun _ => hwrite _ _ _ _
    · exact Requests.ok.bind fun _ => (allocSizes_requests _ _ _).bind fun _ => hwrite _ _ _ _
  | some cells =>
    dsimp only
    split_ifs with hbroken hmore
    · exact Requests.broken
    · exact (allocSizes_requests _ _ _).bind fun _ => hwrite _ _ _ _
    · exact hwrite _ _ _ _

/-- The printer `p'` has some more bytes than `p`. -/
structure Grown (p : TextBytesPrinter) (data : List ℕ) (p' : TextBytesPrinter) : Prop where
  good : p'.Good
  data : p'.data = p.data ++ data
  pend : p'.bpPend = p.bpPend

theorem setBytes_meets {r : Except Fault BytesPrinter} (hr : Requests mem r)
    (h : Yields r fun q => q.Good ∧ q.data = p.data ++ data) :
    Meets mem (p.setBytes r) fun r => ∃ p', r = .ok p' ∧ Grown p data p' := by
  cases r with
  | ok q => exact .inr ⟨_, rfl, (h.2 q rfl).1, (h.2 q rfl).2, rfl⟩
  | error fault =>
    cases fault with
    | noMemory => exact .inl ⟨rfl, hr rfl⟩
    | broken => exact absurd rfl h.1

theorem append_meets (hgood : p.Good) (hdata : ∀ b ∈ data, b < 2 ^ 8) :
    Meets mem (p.setBytes (p.append mem data)) fun r => ∃ p', r = .ok p' ∧ Grown p data p' :=
  setBytes_meets (append_requests _ _) (BytesPrinter.append_yields hgood hdata)

theorem putb_meets (hgood : p.Good) (hch : ch < 2 ^ 8) :
    Meets mem (p.setBytes (p.putb mem ch)) fun r => ∃ p', r = .ok p' ∧ Grown p [ch] p' := by
  have hdata : ∀ b ∈ [ch], b < 2 ^ 8 := by simpa using hch
  have happend := @append_meets mem p _ hgood hdata
  unfold BytesPrinter.putb
  cases hbytes : p.bpBytes with
  | none => exact happend
  | some cells =>
    dsimp only
    split_ifs with hroom
    · have hsome : p.data = cells.take p.bpLength := by rw [BytesPrinter.data, hbytes, Option.getD_some]
      refine setBytes_meets ((writeCells_requests _ _ _ _).bind fun _ => Requests.ok) ?_
      rw [hsome]
      exact writeBytes_yields (by rw [List.length_singleton]; exact hroom) hdata p.requests
    · exact happend

end Raw

/-! ### Texts -/

section Texts

variable {c d : ℕ} {q chars text rest seq : List ℕ}

theorem writeUtf8_ascii (h : c < 0x80) : writeUtf8 c = [c] := by
  rw [writeUtf8, if_pos (show c < 2 ^ 7 from h)]

/-- No byte in front of a lead byte is below 0xc0. -/
theorem takeWhile_of_lead (h : 0xc0 ≤ seq.headD 0) (rest : List ℕ) :
    (seq ++ rest).takeWhile (fun ch => decide (ch < 0xc0)) = [] := by
  rcases seq with _ | ⟨x, l⟩
  · cases h
  · exact List.takeWhile_cons_of_neg (by simpa using h)

/-- A text is cut between two characters, or inside one. -/
theorem cut_cases : ∀ chars {text rest : List ℕ}, text ++ rest = utf8 chars →
    (∃ q chars', chars = q ++ chars' ∧ text = utf8 q ∧ rest = utf8 chars') ∨
      ∃ q d chars' front back, chars = q ++ d :: chars' ∧ text = utf8 q ++ front ∧ front ≠ [] ∧ back ≠ [] ∧
        front ++ back = writeUtf8 d ∧ rest = back ++ utf8 chars' := by
  intro chars
  induction chars with
  | nil =>
    intro text rest h
    obtain ⟨rfl, rfl⟩ := List.append_eq_nil_iff.mp h
    exact .inl ⟨[], [], rfl, rfl, rfl⟩
  | cons c chars ih =>
    intro text rest h
    rw [utf8_cons] at h
    rcases List.append_eq_append_iff.mp h with ⟨back, hfront, hrest⟩ | ⟨text', rfl, hrest⟩
    · by_cases hempty : text = []
      · subst hempty
        exact .inl ⟨[], c :: chars, rfl, rfl, by rw [utf8_cons, hfront, hrest]; rfl⟩
      · by_cases hback : back = []
        · subst hback
          refine .inl ⟨[c], chars, rfl, ?_, hrest⟩
          rw [utf8_singleton, hfront, List.append_nil]
        · exact .inr ⟨[], c, chars, text, back, rfl, rfl, hempty, hback, hfront.symm, hrest⟩
    · rcases ih hrest.symm with ⟨q, chars', rfl, rfl, hleft⟩ | ⟨q, d, chars', front, back, rfl, rfl, hcut⟩
      · exact .inl ⟨c :: q, chars', rfl, rfl, hleft⟩
      · exact .inr ⟨c :: q, d, chars', front, back, rfl, by rw [utf8_cons, List.append_assoc], hcut⟩

/-- The bytes of a character that is cut. -/
theorem front_unfinished {front back : List ℕ} (hd : d < 2 ^ 32) (hcut : front ++ back = writeUtf8 d)
    (hfront : front ≠ []) (hback : back ≠ []) : 0x80 ≤ d ∧ 0xc0 ≤ front.headD 0 ∧
      utf8SeqLen (front.headD 0) = front.length + back.length := by
  have hlen := congrArg List.length hcut
  rw [List.length_append] at hlen
  have hf := List.length_pos_of_ne_nil hfront
  have hb := List.length_pos_of_ne_nil hback
  have hascii : 0x80 ≤ d := by
    by_contra hlow
    rw [writeUtf8_ascii (not_le.mp hlow), List.length_singleton] at hlen
    omega
  have hseq := (isSequence_writeUtf8 hascii hd).1
  have hhead : (writeUtf8 d).headD 0 = front.headD 0 := by rw [← hcut, headD_append hfront]
  refine ⟨hascii, hhead ▸ hseq.lead, ?_⟩
  rw [← hhead, hseq.2, hlen]

end Texts

/-! ### Texts of characters below U+00C0 -/

section Low

variable {mem : Memory} {putc : TextBytesPrinter → ℕ → Except PrintError TextBytesPrinter} {p : TextBytesPrinter}
  {A text rest seq front back q : List ℕ} {c fuel depth : ℕ} {Q : Except PrintError TextBytesPrinter → Prop}

theorem Grown.trans {p' p'' : TextBytesPrinter} {a b : List ℕ} (h : Grown p a p') (h' : Grown p' b p'') :
    Grown p (a ++ b) p'' :=
  ⟨h'.good, by rw [h'.data, h.data, List.append_assoc], h'.pend.trans h.pend⟩

theorem Grown.refl (h : p.Good) : Grown p [] p := ⟨h, (List.append_nil _).symm, rfl⟩

/-- The bytes in front of a sequence are appended. -/
theorem printFlush_flush (hA : ∀ a ∈ A, a < 0xc0) (hne : A ≠ [])
    (hrest : rest.takeWhile (fun ch => decide (ch < 0xc0)) = []) :
    p.printFlush putc mem (fuel + 1) (A ++ rest) (A ++ rest).length =
      p.setBytes (p.append mem A) >>= fun p' => p'.printFlush putc mem (fuel + 1) rest rest.length := by
  have hflush : (A ++ rest).takeWhile (fun ch => decide (ch < 0xc0)) = A := by
    rw [List.takeWhile_append_of_pos fun a ha => decide_eq_true (hA a ha), hrest, List.append_nil]
  rw [TextBytesPrinter.printFlush, List.take_length, hflush, List.drop_left, List.length_append, Nat.add_sub_cancel_left,
    if_neg hne]
  have hend : ¬ (rest = [] ∧ rest.length ≠ 0) := fun h => h.2 (by rw [h.1]; rfl)
  rw [if_neg hend]
  congr 1
  funext p'
  rw [TextBytesPrinter.printFlush, List.take_length, hrest, List.length_nil, List.drop_zero, Nat.sub_zero, if_neg hend,
    if_pos rfl, List.take_length]
  rfl

theorem printFlush_nil : p.printFlush putc mem (fuel + 1) [] 0 = .ok p := rfl

theorem cell_zero (l : List ℕ) : cell l 0 = l.headD 0 := by
  cases l <;> rfl

/-- A sequence is decoded, and its character emitted. -/
theorem printFlush_sequence (hseq : IsSequence seq) :
    p.printFlush putc mem (fuel + 1) (seq ++ rest) (seq ++ rest).length =
      p.emit putc (seqChar seq) >>= fun p' => p'.printFlush putc mem fuel rest rest.length := by
  have hget := utf8Getchar_sequence hseq rest
  have htwo := hseq.two_le
  have hhead : (seq ++ rest).headD 0 = seq.headD 0 := headD_append (List.ne_nil_of_length_pos (by omega))
  rw [hhead, hseq.2] at hget
  have hne : seq ++ rest ≠ [] := List.append_ne_nil_of_left_ne_nil (List.ne_nil_of_length_pos (by omega)) _
  rw [TextBytesPrinter.printFlush, List.take_length, takeWhile_of_lead hseq.lead, List.length_nil, List.drop_zero,
    Nat.sub_zero, if_neg fun h => hne h.1, if_pos rfl, cell_zero, hhead, hseq.2]
  show (if (seq ++ rest).length = 0 then _ else _) = _
  rw [if_neg (by rw [List.length_append]; omega), if_neg (by rw [List.length_append]; omega), hget, List.drop_left,
    List.length_append, Nat.add_sub_cancel_left]
  rfl

/-- The start of a sequence is kept. -/
theorem printFlush_front (hlead : 0xc0 ≤ front.headD 0) (hshort : front.length < utf8SeqLen (front.headD 0)) :
    p.printFlush putc mem (fuel + 1) front front.length = .ok { p with bpPend := front } := by
  have hne : front ≠ [] := by
    rintro rfl
    cases hlead
  have htake := takeWhile_of_lead hlead []
  rw [List.append_nil] at htake
  rw [TextBytesPrinter.printFlush, List.take_length, htake, List.length_nil, List.drop_zero, Nat.sub_zero,
    if_neg fun h => hne h.1, if_pos rfl, cell_zero]
  show (if front.length = 0 then _ else _) = _
  rw [if_neg fun h => hne (List.length_eq_zero_iff.mp h), if_pos hshort, if_neg (lt_irrefl _), List.take_length]

/-- Characters below U+00C0 are printed when `putc` prints a single one. -/
theorem printFlush_low (hputc : ∀ (p : TextBytesPrinter) (c : ℕ), 0x80 ≤ c → c < 0xc0 → p.Good → p.bpPend = [] →
      Meets mem (putc p c) fun r => ∃ p', r = .ok p' ∧ Grown p [c] p')
    (hrest : rest.takeWhile (fun ch => decide (ch < 0xc0)) = []) :
    ∀ (q A : List ℕ) (p : TextBytesPrinter) (fuel : ℕ), p.Good → p.bpPend = [] → (∀ a ∈ A, a < 0x80) → (∀ c ∈ q, c < 0xc0) →
      (utf8 q ++ rest).length < fuel →
      (∀ p' fuel', Grown p (A ++ q) p' → rest.length < fuel' → Meets mem (p'.printFlush putc mem fuel' rest rest.length) Q) →
      Meets mem (p.printFlush putc mem fuel (A ++ (utf8 q ++ rest)) (A ++ (utf8 q ++ rest)).length) Q := by
  -- `A` are the ASCII characters that wait to be appended
  intro q
  induction q with
  | nil =>
    intro A p fuel hgood hpend hA _ hfuel hnext
    obtain ⟨fuel, rfl⟩ := Nat.exists_eq_succ_of_ne_zero (Nat.ne_zero_of_lt hfuel)
    rw [List.append_nil] at hnext
    by_cases hempty : A = []
    · subst hempty
      exact hnext p _ (Grown.refl hgood) hfuel
    · show Meets mem (p.printFlush putc mem (fuel + 1) (A ++ rest) (A ++ rest).length) Q
      have hbytes : ∀ a ∈ A, a < 0xc0 := fun a ha => (hA a ha).trans (by norm_num)
      rw [printFlush_flush hbytes hempty hrest]
      exact (append_meets hgood fun a ha => (hA a ha).trans (by norm_num)).bind fun p' hp' => hnext p' _ hp' hfuel
  | cons c q ih =>
    intro A p fuel hgood hpend hA hq hfuel hnext
    obtain ⟨hc, hq⟩ := List.forall_mem_cons.mp hq
    rw [utf8_cons, List.append_assoc] at hfuel ⊢
    rw [List.length_append] at hfuel
    by_cases hascii : c < 0x80
    · have hA' : ∀ a ∈ A ++ [c], a < 0x80 := by
        intro a ha
        rcases List.mem_append.mp ha with ha | ha
        · exact hA a ha
        · rw [List.mem_singleton.mp ha]
          exact hascii
      rw [writeUtf8_ascii hascii, ← List.append_assoc A]
      refine ih (A ++ [c]) p fuel hgood hpend hA' hq (by omega) fun p' fuel' hp' => hnext p' fuel' ?_
      rwa [List.append_assoc, List.singleton_append] at hp'
    · have hseq := isSequence_writeUtf8 (not_lt.mp hascii) (by omega)
      have htwo := hseq.1.two_le
      obtain ⟨fuel, rfl⟩ := Nat.exists_eq_succ_of_ne_zero (Nat.ne_zero_of_lt hfuel)
      have hsequence : ∀ p' : TextBytesPrinter, Grown p A p' → Meets mem (p'.printFlush putc mem (fuel + 1)
          (writeUtf8 c ++ (utf8 q ++ rest)) (writeUtf8 c ++ (utf8 q ++ rest)).length) Q := by
        intro p' hp'
        rw [printFlush_sequence hseq.1, hseq.2, TextBytesPrinter.emit, if_neg (by omega)]
        refine (hputc p' c (not_lt.mp hascii) hc hp'.good (hp'.pend.trans hpend)).bind fun p'' hp'' => ?_
        have hgrown := hp'.trans hp''
        refine ih [] p'' fuel hp''.good (hgrown.pend.trans hpend) (fun a ha => absurd ha List.not_mem_nil) hq
          (by omega) fun p3 fuel' hp3 => hnext p3 fuel' ?_
        have hall := hgrown.trans hp3
        rwa [List.append_assoc, List.nil_append, List.singleton_append] at hall
      by_cases hempty : A = []
      · subst hempty
        exact hsequence p (Grown.refl hgood)
      · rw [printFlush_flush (fun a ha => (hA a ha).trans (by norm_num)) hempty (takeWhile_of_lead hseq.1.lead _)]
        exact (append_meets hgood fun a ha => (hA a ha).trans (by norm_num)).bind hsequence

end Low

/-! ### Single calls -/

section Calls

variable {mem : Memory} {putc : TextBytesPrinter → ℕ → Except PrintError TextBytesPrinter} {p : TextBytesPrinter}
  {text rest front back q : List ℕ} {c x y depth textlen : ℕ} {Q : Except PrintError TextBytesPrinter → Prop}

/-- `Dee_bytes_printer_putc` inside `depth + 1` calls. -/
def putcAt (mem : Memory) (depth : ℕ) : TextBytesPrinter → ℕ → Except PrintError TextBytesPrinter :=
  TextBytesPrinter.putc mem fun self text => TextBytesPrinter.print mem depth self text

theorem printPending_none (h : p.bpPend = []) : p.printPending putc textlen text = .ok (p, text) := by
  cases text with
  | nil => rw [TextBytesPrinter.printPending, if_pos (.inl h)]
  | cons x text => rw [TextBytesPrinter.printPending, if_pos (.inl h)]

theorem print_eq (h : p.bpPend = []) : p.print mem (depth + 1) text =
    p.printFlush (putcAt mem depth) mem (text.length + 1) text text.length := by
  rw [TextBytesPrinter.print, TextBytesPrinter.printWith, printPending_none h]
  show (if p.bpPend ≠ [] then _ else _) = _
  rw [if_neg fun hne => hne h]
  rfl

theorem putc_low (hx : 0x80 ≤ x) (hlow : x < 0xc0) (hgood : p.Good) (hpend : p.bpPend = []) :
    Meets mem (putcAt mem (depth + 1) p x) fun r => ∃ p', r = .ok p' ∧ Grown p [x] p' := by
  have hall : ∀ a ∈ [x], a < 0xc0 := by simpa using hlow
  have hflush := @printFlush_flush mem (putcAt mem depth) p [x] [] 1 hall (List.cons_ne_nil _ _) rfl
  rw [List.append_nil] at hflush
  rw [putcAt, TextBytesPrinter.putc, if_neg (not_lt.mpr hx), print_eq hpend]
  show Meets mem (p.printFlush (putcAt mem depth) mem (1 + 1) [x] [x].length) _
  rw [hflush]
  exact (append_meets hgood fun a ha => (hall a ha).trans (by norm_num)).bind fun p' hp' =>
    .inr ⟨p', printFlush_nil, hp'⟩

section Low

variable (hgood : p.Good) (hpend : p.bpPend = []) (hq : ∀ c ∈ q, c < 0xc0)
include hgood hpend hq

/-- Characters below U+00C0 are printed first. -/
theorem print_low (hrest : rest.takeWhile (fun ch => decide (ch < 0xc0)) = []) (hnext : ∀ p' fuel, Grown p q p' →
      Meets mem (p'.printFlush (putcAt mem (depth + 1)) mem (fuel + 1) rest rest.length) Q) :
    Meets mem (p.print mem (depth + 2) (utf8 q ++ rest)) Q := by
  rw [print_eq hpend]
  refine printFlush_low (fun p c hc hlow hgood hpend => putc_low hc hlow hgood hpend) hrest q [] p _ hgood hpend
    (fun a ha => absurd ha List.not_mem_nil) hq (Nat.lt_succ_self _) fun p' fuel hp' hfuel => ?_
  obtain ⟨fuel, rfl⟩ := Nat.exists_eq_succ_of_ne_zero (Nat.ne_zero_of_lt hfuel)
  exact hnext p' fuel hp'

theorem print_whole : Meets mem (p.print mem (depth + 2) (utf8 q)) fun r => ∃ p', r = .ok p' ∧ Grown p q p' := by
  rw [← List.append_nil (utf8 q)]
  exact print_low hgood hpend hq rfl fun p' fuel hp' => .inr ⟨p', printFlush_nil, hp'⟩

/-- The start of a character that is cut becomes pending. -/
theorem print_front (hc : c < 2 ^ 32) (hcut : front ++ back = writeUtf8 c) (hfront : front ≠ []) (hback : back ≠ []) :
    Meets mem (p.print mem (depth + 2) (utf8 q ++ front)) fun r =>
      ∃ p', r = .ok { p' with bpPend := front } ∧ Grown p q p' := by
  obtain ⟨-, hlead, hlen⟩ := front_unfinished hc hcut hfront hback
  have hpos := List.length_pos_of_ne_nil hback
  have htake := takeWhile_of_lead hlead []
  rw [List.append_nil] at htake
  exact print_low hgood hpend hq htake fun p' fuel hp' => .inr ⟨p', printFlush_front hlead (by omega), hp'⟩

/-- A character above U+00FF is refused. -/
theorem print_large (hc : c < 2 ^ 32)
    (hlarge : 0xff < c) (rest : List ℕ) : Meets mem (p.print mem (depth + 2) (utf8 q ++ (writeUtf8 c ++ rest))) fun r =>
      ∃ p', r = .error (.tooLarge p' c) ∧ Grown p q p' := by
  have hseq := isSequence_writeUtf8 (by omega) hc
  refine print_low hgood hpend hq (takeWhile_of_lead hseq.1.lead _) fun p' fuel hp' => .inr ⟨p', ?_, hp'⟩
  rw [printFlush_sequence hseq.1, hseq.2, TextBytesPrinter.emit, if_pos hlarge]
  rfl

end Low

/-- A byte that is added to a pending sequence. -/
theorem printPending_step (hc : c < 2 ^ 32) (hcut : front ++ x :: back = writeUtf8 c) (hfront : front ≠ [])
    (hpend : p.bpPend = front) (htextlen : textlen ≠ 0) : p.printPending putc textlen (x :: text) =
      if back = [] then p.emit putc c >>= fun p' => .ok ({ p' with bpPend := [] }, text)
      else TextBytesPrinter.printPending putc textlen { p with bpPend := front ++ [x] } text := by
  obtain ⟨hascii, -, hlen⟩ := front_unfinished hc hcut hfront (List.cons_ne_nil _ _)
  have hseq := isSequence_writeUtf8 hascii hc
  have hseven : (writeUtf8 c).length ≤ 7 := by
    unfold writeUtf8
    split_ifs <;> simp [utf8Rest]
  have hhead : (front ++ [x]).headD 0 = front.headD 0 := headD_append hfront
  rw [← hcut, List.length_append, List.length_cons] at hseven
  rw [List.length_cons] at hlen
  rw [TextBytesPrinter.printPending, if_neg (by rw [hpend]; exact not_or.mpr ⟨hfront, htextlen⟩), hpend]
  dsimp only
  rw [cell_zero, hhead, hlen, List.length_append, List.length_singleton, if_neg (by omega)]
  by_cases hlast : back = []
  · subst hlast
    have hget := utf8Getchar_sequence hseq.1 []
    rw [List.append_nil, ← hcut, hhead, hlen, hcut, hseq.2, ← hcut] at hget
    rw [if_pos rfl, if_pos (by rw [List.length_nil]), hget]
    rfl
  · have hpos := List.length_pos_of_ne_nil hlast
    rw [if_neg hlast, if_neg (by omega)]

/-- The rest of a character above U+00FF comes in one piece. -/
theorem printPending_large (hc : c < 2 ^ 32) (hlarge : 0xff < c) (htextlen : textlen ≠ 0) (rest : List ℕ) :
    ∀ (back front : List ℕ) (p : TextBytesPrinter), front ++ back = writeUtf8 c → front ≠ [] → back ≠ [] →
      p.bpPend = front → ∃ p', p.printPending putc textlen (back ++ rest) = .error (.tooLarge p' c) ∧
        p'.toBytesPrinter = p.toBytesPrinter := by
  intro back
  induction back with
  | nil => intro front p _ _ hback; exact absurd rfl hback
  | cons x back ih =>
    intro front p hcut hfront _ hpend
    rw [List.cons_append, printPending_step hc hcut hfront hpend htextlen]
    split_ifs with hlast
    · rw [TextBytesPrinter.emit, if_pos hlarge]
      exact ⟨p, rfl, rfl⟩
    · exact ih (front ++ [x]) _ (by rwa [List.append_assoc]) (List.append_ne_nil_of_right_ne_nil _ (List.cons_ne_nil _ _))
        hlast rfl

/-- When the bytes do not complete the sequence, the one behind them is read. -/
theorem printPending_short (hc : c < 2 ^ 32) (htextlen : textlen ≠ 0) :
    ∀ (text front : List ℕ) (p : TextBytesPrinter), front ++ (text ++ back) = writeUtf8 c → front ≠ [] → back ≠ [] →
      p.bpPend = front → p.printPending putc textlen text = .error (.fault .broken) := by
  intro text
  induction text with
  | nil =>
    intro front p _ hfront _ hpend
    rw [TextBytesPrinter.printPending, if_neg (by rw [hpend]; exact not_or.mpr ⟨hfront, htextlen⟩)]
  | cons x text ih =>
    intro front p hcut hfront hback hpend
    rw [List.cons_append] at hcut
    rw [printPending_step hc hcut hfront hpend htextlen, if_neg (List.append_ne_nil_of_right_ne_nil _ hback)]
    exact ih (front ++ [x]) _ (by rwa [List.append_assoc]) (List.append_ne_nil_of_right_ne_nil _ (List.cons_ne_nil _ _))
      hback rfl

theorem print_rest_large (hc : c < 2 ^ 32) (hlarge : 0xff < c) (hcut : front ++ back = writeUtf8 c) (hfront : front ≠ [])
    (hback : back ≠ []) (hpend : p.bpPend = front) (rest : List ℕ) :
    ∃ p', p.print mem (depth + 1) (back ++ rest) = .error (.tooLarge p' c) ∧ p'.toBytesPrinter = p.toBytesPrinter := by
  have htextlen : (back ++ rest).length ≠ 0 := by
    rw [List.length_append]
    have := List.length_pos_of_ne_nil hback
    omega
  obtain ⟨p', hprint, hp'⟩ := @printPending_large (putcAt mem depth) c _ hc hlarge htextlen rest back front p hcut hfront
    hback hpend
  refine ⟨p', ?_, hp'⟩
  rw [TextBytesPrinter.print, TextBytesPrinter.printWith]
  show (p.printPending (putcAt mem depth) _ _ >>= _) = _
  rw [hprint]
  rfl

theorem print_rest_short (hc : c < 2 ^ 32) (hcut : front ++ (text ++ back) = writeUtf8 c) (hfront : front ≠ [])
    (htext : text ≠ []) (hback : back ≠ []) (hpend : p.bpPend = front) :
    p.print mem (depth + 1) text = .error (.fault .broken) := by
  have hshort := @printPending_short (putcAt mem depth) back c text.length hc
    (fun h => htext (List.length_eq_zero_iff.mp h)) text front p hcut hfront hback hpend
  rw [TextBytesPrinter.print, TextBytesPrinter.printWith]
  show (p.printPending (putcAt mem depth) _ _ >>= _) = _
  rw [hshort]
  rfl

/-- Nothing is printed. -/
theorem print_nil (hpend : p.bpPend ≠ []) : p.print mem (depth + 1) [] = .ok p := by
  rw [TextBytesPrinter.print, TextBytesPrinter.printWith, TextBytesPrinter.printPending, if_pos (.inr rfl)]
  show (if p.bpPend ≠ [] then _ else _) = _
  rw [if_pos hpend]

/-- The two bytes of a character up to U+00FF; the second one may as well be the character itself. -/
theorem writeUtf8_two : ∀ c < 0x100, 0x80 ≤ c → ∃ lead x, writeUtf8 c = [lead, x] ∧ IsSequence [lead, c] ∧
    seqChar [lead, c] = c := by
  intro c hc hascii
  have h : ∀ c < 0x100, 0x80 ≤ c → (writeUtf8 c).length = 2 ∧ 0x7f < (writeUtf8 c).headD 0 ∧
      utf8SeqLen ((writeUtf8 c).headD 0) = 2 ∧ seqChar [(writeUtf8 c).headD 0, c] = c := by decide +kernel
  obtain ⟨hlen, hlead, hseq, hchar⟩ := h c hc hascii
  obtain ⟨lead, x, hwrite⟩ := List.length_eq_two.mp hlen
  rw [hwrite] at hlead hseq hchar
  exact ⟨lead, x, hwrite, ⟨hlead, hseq⟩, hchar⟩

/-- The last byte of a sequence for a character up to U+00FF is decoded again and again. -/
theorem print_stuck (hascii : 0x80 ≤ c) (hc : c ≤ 0xff) (hwhole : IsSequence [x, c]) (hchar : seqChar [x, c] = c)
    (hpend : p.bpPend = [x]) : ∀ (depth y : ℕ) (text : List ℕ), IsSequence [x, y] → seqChar [x, y] = c →
      p.print mem depth (y :: text) = .error .tooDeep := by
  intro depth
  induction depth with
  | zero => intro y text _ _; rfl
  | succ depth ih =>
    intro y text hseq hy
    have hget := utf8Getchar_sequence hseq []
    have hlen : utf8SeqLen x = 2 := hseq.2
    rw [List.append_nil, List.headD_cons, hlen, hy] at hget
    have hputc : putcAt mem depth p c = .error .tooDeep := by
      rw [putcAt, TextBytesPrinter.putc, if_neg (not_lt.mpr hascii)]
      exact ih c [] hwhole hchar
    rw [TextBytesPrinter.print, TextBytesPrinter.printWith]
    show (p.printPending (putcAt mem depth) (text.length + 1) (y :: text) >>= _) = _
    have hpending : p.printPending (putcAt mem depth) (text.length + 1) (y :: text) = .error .tooDeep := by
      have hlength : [x, y].length = 2 := rfl
      rw [TextBytesPrinter.printPending, if_neg (by rw [hpend]; simp), hpend]
      dsimp only
      rw [show [x] ++ [y] = [x, y] from rfl, cell_zero, List.headD_cons, hlen, hlength, if_neg (by decide), if_pos rfl,
        hget]
      show (p.emit (putcAt mem depth) c >>= _) = _
      rw [TextBytesPrinter.emit, if_neg (not_lt.mpr hc), hputc]
      rfl
    rw [hpending]
    rfl

end Calls

/-! ### Every byte that is collected is below 0xc0 -/

section Invariant

variable {α β : Type} {mem : Memory} {putc : TextBytesPrinter → ℕ → Except PrintError TextBytesPrinter}
  {p : TextBytesPrinter} {text : List ℕ} {P : α → Prop} {R : β → Prop}

/-- What holds of every printer. -/
structure Low (p : TextBytesPrinter) : Prop where
  good : p.Good
  data : ∀ b ∈ p.data, b < 0xc0

/-- The printer is in order also when a character was refused. -/
def Keeps (mem : Memory) (P : α → Prop) : Except PrintError α → Prop
  | .ok a => P a
  | .error (.tooLarge p _) => Low p
  | .error (.fault .noMemory) => ∃ n, mem.grants n = false
  | .error (.fault .broken) => True
  | .error .tooDeep => True

theorem Keeps.bind {r : Except PrintError α} {f : α → Except PrintError β} (h : Keeps mem P r)
    (hf : ∀ a, P a → Keeps mem R (f a)) : Keeps mem R (r >>= f) := by
  cases r with
  | ok a => exact hf a h
  | error e =>
    cases e with
    | fault fault => cases fault <;> exact h
    | tooLarge p c => exact h
    | tooDeep => exact trivial

theorem orFault_keeps (o : Option α) : Keeps mem (fun _ => True) (orFault o) := by
  cases o <;> exact trivial

theorem Low.grown {p' : TextBytesPrinter} {data : List ℕ} (h : Low p) (hdata : ∀ b ∈ data, b < 0xc0)
    (hp' : Grown p data p') : Low p' := by
  refine ⟨hp'.good, ?_⟩
  rw [hp'.data]
  intro b hb
  rcases List.mem_append.mp hb with hb | hb
  · exact h.data b hb
  · exact hdata b hb

theorem Meets.keeps {r : Except PrintError TextBytesPrinter} {data : List ℕ} (hp : Low p) (hdata : ∀ b ∈ data, b < 0xc0)
    (h : Meets mem r fun r => ∃ p', r = .ok p' ∧ Grown p data p') : Keeps mem Low r := by
  rcases h with ⟨rfl, hmem⟩ | ⟨p', rfl, hp'⟩
  · exact hmem
  · exact hp.grown hdata hp'

theorem emit_keeps (hputc : ∀ p ch, Low p → Keeps mem Low (putc p ch)) (hp : Low p) (ch32 : ℕ) :
    Keeps mem Low (p.emit putc ch32) := by
  unfold TextBytesPrinter.emit
  split_ifs
  · exact hp
  · exact hputc p ch32 hp

theorem printPending_keeps (hputc : ∀ p ch, Low p → Keeps mem Low (putc p ch)) (textlen : ℕ) :
    ∀ (text : List ℕ) (p : TextBytesPrinter), Low p → Keeps mem (fun r => Low r.1) (p.printPending putc textlen text) := by
  intro text
  induction text with
  | nil =>
    intro p hp
    rw [TextBytesPrinter.printPending]
    split_ifs
    · exact hp
    · exact trivial
  | cons x text ih =>
    intro p hp
    rw [TextBytesPrinter.printPending]
    dsimp only
    split_ifs
    · exact hp
    · exact trivial
    · exact (orFault_keeps _).bind fun ch32 _ => (emit_keeps hputc hp ch32).bind fun p' hp' => ⟨hp'.good, hp'.data⟩
    · exact ih _ ⟨hp.good, hp.data⟩

theorem printFlush_keeps (hputc : ∀ p ch, Low p → Keeps mem Low (putc p ch)) :
    ∀ (fuel : ℕ) (p : TextBytesPrinter) (text : List ℕ) (textlen : ℕ), Low p →
      Keeps mem Low (p.printFlush putc mem fuel text textlen) := by
  intro fuel
  induction fuel with
  | zero => intro p text textlen _; exact trivial
  | succ fuel ih =>
    intro p text textlen hp
    rw [TextBytesPrinter.printFlush]
    generalize hflush : (text.take textlen).takeWhile (fun ch => decide (ch < 0xc0)) = flush
    have hlow : ∀ b ∈ flush, b < 0xc0 := by
      intro b hb
      rw [← hflush] at hb
      exact of_decide_eq_true (List.all_eq_true.mp List.all_takeWhile b hb)
    have happend : Keeps mem Low (if flush = [] then .ok p else p.setBytes (p.append mem flush)) := by
      split_ifs
      · exact hp
      · exact (append_meets hp.good fun b hb => (hlow b hb).trans (by norm_num)).keeps hp hlow
    by_cases hend : text.drop flush.length = [] ∧ textlen - flush.length ≠ 0
    · dsimp only
      rw [if_pos hend]
      exact trivial
    · dsimp only
      rw [if_neg hend]
      refine happend.bind fun p' hp' => ?_
      split_ifs
      · exact hp'
      · exact trivial
      · exact ⟨hp'.good, hp'.data⟩
      · exact (orFault_keeps _).bind fun ch32 _ => (emit_keeps hputc hp' ch32).bind fun p'' hp'' => ih _ _ _ hp''

/-- A call leaves the printer in order. -/
theorem print_keeps : ∀ (depth : ℕ) (p : TextBytesPrinter) (text : List ℕ), Low p →
    Keeps mem Low (p.print mem depth text) := by
  intro depth
  induction depth with
  | zero => intro p text _; exact trivial
  | succ depth ih =>
    intro p text hp
    have hputc : ∀ p ch, Low p → Keeps mem Low (putcAt mem depth p ch) := by
      intro p ch hp
      rw [putcAt, TextBytesPrinter.putc]
      split_ifs with hascii
      · have hlow : ∀ b ∈ [ch], b < 0xc0 := by
          intro b hb
          rw [List.mem_singleton.mp hb]
          omega
        exact (putb_meets hp.good (by omega)).keeps hp hlow
      · exact ih p [ch] hp
    rw [TextBytesPrinter.print, TextBytesPrinter.printWith]
    refine (printPending_keeps hputc _ text p hp).bind fun r hr => ?_
    show Keeps mem Low (if r.1.bpPend ≠ [] then _ else _)
    split_ifs
    · exact hr
    · exact printFlush_keeps hputc _ _ _ _ hr

theorem printAll_keeps {depth : ℕ} : ∀ (chunks : List (List ℕ)) (p : TextBytesPrinter), Low p →
    Keeps mem Low (p.printAll mem depth chunks) := by
  intro chunks
  induction chunks with
  | nil => intro p hp; exact hp
  | cons chunk chunks ih =>
    intro p hp
    exact (print_keeps depth p chunk hp).bind fun p' hp' => ih p' hp'

theorem init_low : Low .init := ⟨(fun _ h => nomatch h), (fun _ hb => nomatch hb)⟩

end Invariant

/-! ### More calls inside one another -/

section Depth

variable {α β : Type} {mem : Memory} {putc putc' : TextBytesPrinter → ℕ → Except PrintError TextBytesPrinter}

/-- The second result is the first, unless this took too many calls. -/
def Deeper (r r' : Except PrintError α) : Prop := r = .error .tooDeep ∨ r' = r

theorem Deeper.refl (r : Except PrintError α) : Deeper r r := .inr rfl

theorem Deeper.bind {r r' : Except PrintError α} {f f' : α → Except PrintError β} (h : Deeper r r')
    (hf : ∀ a, Deeper (f a) (f' a)) : Deeper (r >>= f) (r' >>= f') := by
  rcases h with rfl | rfl
  · exact .inl rfl
  · cases r' with
    | ok a => exact hf a
    | error e => exact .refl _

theorem emit_deeper (hputc : ∀ p ch, Deeper (putc p ch) (putc' p ch)) (p : TextBytesPrinter) (ch32 : ℕ) :
    Deeper (p.emit putc ch32) (p.emit putc' ch32) := by
  unfold TextBytesPrinter.emit
  split_ifs
  · exact .refl _
  · exact hputc p ch32

theorem printPending_deeper (hputc : ∀ p ch, Deeper (putc p ch) (putc' p ch)) (textlen : ℕ) :
    ∀ (text : List ℕ) (p : TextBytesPrinter),
      Deeper (p.printPending putc textlen text) (p.printPending putc' textlen text) := by
  intro text
  induction text with
  | nil => intro p; exact .refl _
  | cons x text ih =>
    intro p
    rw [TextBytesPrinter.printPending, TextBytesPrinter.printPending]
    dsimp only
    split_ifs
    · exact .refl _
    · exact .refl _
    · exact (Deeper.refl _).bind fun ch32 => (emit_deeper hputc p ch32).bind fun p' => .refl _
    · exact ih _

theorem printFlush_deeper (hputc : ∀ p ch, Deeper (putc p ch) (putc' p ch)) :
    ∀ (fuel : ℕ) (p : TextBytesPrinter) (text : List ℕ) (textlen : ℕ),
      Deeper (p.printFlush putc mem fuel text textlen) (p.printFlush putc' mem fuel text textlen) := by
  intro fuel
  induction fuel with
  | zero => intro p text textlen; exact .refl _
  | succ fuel ih =>
    intro p text textlen
    rw [TextBytesPrinter.printFlush, TextBytesPrinter.printFlush]
    dsimp only
    generalize (text.take textlen).takeWhile (fun ch => decide (ch < 0xc0)) = flush
    by_cases hend : text.drop flush.length = [] ∧ textlen - flush.length ≠ 0
    · rw [if_pos hend, if_pos hend]
      exact .refl _
    · rw [if_neg hend, if_neg hend]
      refine (Deeper.refl _).bind fun p' => ?_
      split_ifs
      · exact .refl _
      · exact .refl _
      · exact .refl _
      · exact (Deeper.refl _).bind fun ch32 => (emit_deeper hputc p' ch32).bind fun p'' => ih _ _ _

theorem print_deeper : ∀ (depth : ℕ) (p : TextBytesPrinter) (text : List ℕ),
    Deeper (p.print mem depth text) (p.print mem (depth + 1) text) := by
  intro depth
  induction depth with
  | zero => intro p text; exact .inl rfl
  | succ depth ih =>
    intro p text
    have hputc : ∀ p ch, Deeper (putcAt mem depth p ch) (putcAt mem (depth + 1) p ch) := by
      intro p ch
      rw [putcAt, putcAt, TextBytesPrinter.putc, TextBytesPrinter.putc]
      split_ifs
      · exact .refl _
      · exact ih p [ch]
    rw [TextBytesPrinter.print, TextBytesPrinter.print, TextBytesPrinter.printWith, TextBytesPrinter.printWith]
    refine (printPending_deeper hputc _ _ _).bind fun r => ?_
    show Deeper (if r.1.bpPend ≠ [] then _ else _) (if r.1.bpPend ≠ [] then _ else _)
    split_ifs
    · exact .refl _
    · exact printFlush_deeper hputc _ _ _ _

/-- A result does not change when there may be more calls inside one another. -/
theorem printAll_deeper {depth : ℕ} : ∀ (chunks : List (List ℕ)) (p : TextBytesPrinter),
    Deeper (p.printAll mem depth chunks) (p.printAll mem (depth + 1) chunks) := by
  intro chunks
  induction chunks with
  | nil => intro p; exact .refl _
  | cons chunk chunks ih =>
    intro p
    exact (print_deeper depth p chunk).bind fun p' => ih p'

theorem printAll_eq_of_ne {depth : ℕ} {chunks : List (List ℕ)} {p : TextBytesPrinter} {r : Except PrintError TextBytesPrinter}
    (h : p.printAll mem depth chunks = r) (hr : r ≠ .error .tooDeep) : p.printAll mem (depth + 2) chunks = r := by
  have hone := (printAll_deeper chunks p).resolve_left (by rw [h]; exact hr)
  have htwo := (@printAll_deeper mem (depth + 1) chunks p).resolve_left (by rw [hone, h]; exact hr)
  rw [htwo, hone, h]

end Depth

/-! ### Texts in pieces -/

/-- The text is printed: its characters are the bytes that were collected, and nothing is pending. -/
def Prints (chunks : List (List ℕ)) (chars : List ℕ) : Prop :=
  ∀ mem, ∃ depth, Meets mem (TextBytesPrinter.printAll mem depth .init chunks) fun r =>
    ∃ p, r = .ok p ∧ p.data = chars ∧ p.bpPend = []

/-- The text is refused at the character `c`, and the characters in front of it were collected. -/
def RefusesAt (chunks : List (List ℕ)) (chars : List ℕ) (c : ℕ) : Prop :=
  ∀ mem, ∃ depth, Meets mem (TextBytesPrinter.printAll mem depth .init chunks) fun r =>
    ∃ p, r = .error (.tooLarge p c) ∧ p.data = chars

/-- The text is refused. -/
def Refuses (chunks : List (List ℕ)) : Prop :=
  ∀ mem, ∃ depth, Meets mem (TextBytesPrinter.printAll mem depth .init chunks) fun r =>
    ∃ p ch32, r = .error (.tooLarge p ch32)

/-- The text is cut between characters only. -/
def CutsBetween (chunks : List (List ℕ)) (chars : List ℕ) : Prop :=
  ∃ parts : List (List ℕ), chunks = parts.map utf8 ∧ parts.flatten = chars

/-- In front of `c`, the text is cut between characters only; and when `c` is cut itself, then once, and its other bytes
come together. -/
inductive ComesWhole (c : ℕ) : (chunks : List (List ℕ)) → (chars : List ℕ) → Prop where
  | whole (q rest : List ℕ) (chunks : List (List ℕ)) : ComesWhole c ((utf8 q ++ (writeUtf8 c ++ rest)) :: chunks) q
  | halves (q front back rest : List ℕ) (n : ℕ) (chunks : List (List ℕ)) (hfront : front ≠ []) (hback : back ≠ [])
    (hcut : front ++ back = writeUtf8 c) :
    ComesWhole c ((utf8 q ++ front) :: (List.replicate n [] ++ (back ++ rest) :: chunks)) q
  | later {chunks : List (List ℕ)} {chars : List ℕ} (q : List ℕ) (h : ComesWhole c chunks chars) :
    ComesWhole c (utf8 q :: chunks) (q ++ chars)

section Runs

variable {mem : Memory} {p : TextBytesPrinter} {chunks : List (List ℕ)} {chars front back q text : List ℕ}
  {c d x depth : ℕ} {Q : Except PrintError TextBytesPrinter → Prop}

theorem printAll_whole (hgood : p.Good) (hpend : p.bpPend = []) (hq : ∀ c ∈ q, c < 0xc0)
    (hnext : ∀ p', Grown p q p' → Meets mem (p'.printAll mem (depth + 2) chunks) Q) :
    Meets mem (p.printAll mem (depth + 2) (utf8 q :: chunks)) Q :=
  (print_whole hgood hpend hq).bind hnext

theorem printAll_prints : ∀ (parts : List (List ℕ)) (p : TextBytesPrinter), p.Good → p.bpPend = [] →
    (∀ c ∈ parts.flatten, c < 0xc0) → Meets mem (p.printAll mem (depth + 2) (parts.map utf8)) fun r =>
      ∃ p', r = .ok p' ∧ Grown p parts.flatten p' := by
  intro parts
  induction parts with
  | nil => intro p hgood _ _; exact .inr ⟨p, rfl, Grown.refl hgood⟩
  | cons q parts ih =>
    intro p hgood hpend hall
    rw [List.flatten_cons] at hall ⊢
    refine printAll_whole hgood hpend (fun c hc => hall c (List.mem_append_left _ hc)) fun p' hp' => ?_
    refine (ih p' hp'.good (hp'.pend.trans hpend) fun c hc => hall c (List.mem_append_right _ hc)).mono ?_
    rintro r ⟨p'', rfl, hp''⟩
    exact ⟨p'', rfl, hp'.trans hp''⟩

/-- Empty pieces change nothing while a sequence is pending. -/
theorem printAll_replicate (hpend : p.bpPend ≠ []) : ∀ n : ℕ,
    p.printAll mem (depth + 1) (List.replicate n [] ++ chunks) = p.printAll mem (depth + 1) chunks := by
  intro n
  induction n with
  | zero => rfl
  | succ n ih =>
    rw [List.replicate_succ, List.cons_append, TextBytesPrinter.printAll, print_nil hpend]
    exact ih

theorem printAll_refuses (hc : c < 2 ^ 32) (hlarge : 0xff < c) (h : ComesWhole c chunks chars) :
    ∀ p : TextBytesPrinter, p.Good → p.bpPend = [] → (∀ d ∈ chars, d < 0xc0) →
      Meets mem (p.printAll mem (depth + 2) chunks) fun r => ∃ p', r = .error (.tooLarge p' c) ∧ p'.data = p.data ++ chars := by
  induction h with
  | whole q rest chunks =>
    intro p hgood hpend hq
    rcases @print_large mem p _ c depth hgood hpend hq hc hlarge rest with ⟨hno, hmem⟩ | ⟨p', hprint, hp'⟩
    · exact .inl ⟨by rw [TextBytesPrinter.printAll, hno]; rfl, hmem⟩
    · exact .inr ⟨p', by rw [TextBytesPrinter.printAll, hprint]; rfl, hp'.data⟩
  | halves q front back rest n chunks hfront hback hcut =>
    intro p hgood hpend hq
    rcases @print_front mem p _ _ _ _ depth hgood hpend hq hc hcut hfront hback with
      ⟨hno, hmem⟩ | ⟨p', hprint, hp'⟩
    · exact .inl ⟨by rw [TextBytesPrinter.printAll, hno]; rfl, hmem⟩
    · obtain ⟨p'', hrest, hsame⟩ := @print_rest_large mem { p' with bpPend := front } front back c (depth + 1) hc hlarge hcut
        hfront hback rfl rest
      refine .inr ⟨p'', ?_, ?_⟩
      · rw [TextBytesPrinter.printAll, hprint]
        show TextBytesPrinter.printAll mem (depth + 2) { p' with bpPend := front } _ = _
        rw [@printAll_replicate mem { p' with bpPend := front } _ (depth + 1) hfront, TextBytesPrinter.printAll, hrest]
        rfl
      · rw [hsame]
        exact hp'.data
  | @later chunks chars q h ih =>
    intro p hgood hpend hall
    refine printAll_whole hgood hpend (fun d hd => hall d (List.mem_append_left _ hd)) fun p' hp' => ?_
    refine (ih p' hp'.good (hp'.pend.trans hpend) fun d hd => hall d (List.mem_append_right _ hd)).mono ?_
    rintro r ⟨p'', rfl, hp''⟩
    exact ⟨p'', rfl, by rw [hp'', hp'.data, List.append_assoc]⟩

/-- The pieces after one that ended inside a character: empty ones, and then one that goes on with it. -/
theorem flatten_eq_cons : ∀ {chunks : List (List ℕ)} {x : ℕ} {l : List ℕ}, chunks.flatten = x :: l →
    ∃ n y text chunks', chunks = List.replicate n [] ++ (y :: text) :: chunks' ∧
      x :: l = (y :: text) ++ chunks'.flatten := by
  intro chunks
  induction chunks with
  | nil => intro x l h; cases h
  | cons chunk chunks ih =>
    intro x l h
    cases chunk with
    | nil =>
      obtain ⟨n, y, text, chunks', rfl, heq⟩ := ih h
      exact ⟨n + 1, y, text, chunks', rfl, heq⟩
    | cons y text => exact ⟨0, y, text, chunks, rfl, h.symm⟩

/-- When a character up to U+00FF is cut, printing does not end. -/
theorem printAll_stuck (hc : c ≤ 0xff) (hcut : front ++ back = writeUtf8 c) (hfront : front ≠ []) (hback : back ≠ [])
    (hpend : p.bpPend = front) (hrest : chunks.flatten = back ++ text) :
    p.printAll mem depth chunks = .error .tooDeep := by
  obtain ⟨hascii, -, -⟩ := front_unfinished (by omega) hcut hfront hback
  obtain ⟨lead, x, hwrite, hseq, hchar⟩ := writeUtf8_two c (by omega) hascii
  obtain ⟨rfl, rfl⟩ : front = [lead] ∧ back = [x] := by
    rw [hwrite] at hcut
    rcases front with _ | ⟨a, _ | ⟨b, front⟩⟩
    · exact absurd rfl hfront
    · cases hcut
      exact ⟨rfl, rfl⟩
    · have hlen := congrArg List.length hcut
      have := List.length_pos_of_ne_nil hback
      simp only [List.length_append, List.length_cons, List.length_nil] at hlen
      omega
  have hsequence := isSequence_writeUtf8 hascii (show c < 2 ^ 32 by omega)
  rw [hwrite] at hsequence
  obtain ⟨n, y, more, chunks', rfl, heq⟩ := flatten_eq_cons hrest
  cases heq
  cases depth with
  | zero =>
    cases n with
    | zero => rfl
    | succ n => rfl
  | succ depth =>
    rw [printAll_replicate (by rw [hpend]; exact hfront), TextBytesPrinter.printAll,
      print_stuck hascii hc hseq hchar hpend _ _ _ hsequence.1 hsequence.2]
    rfl

theorem cutsBetween_of_ok (hmem : ∀ n, mem.grants n = true) : ∀ (chunks : List (List ℕ)) (chars : List ℕ)
    (p p' : TextBytesPrinter), (∀ c ∈ chars, c < 0xc0) → chunks.flatten = utf8 chars → p.Good → p.bpPend = [] →
      p.printAll mem (depth + 2) chunks = .ok p' → CutsBetween chunks chars := by
  intro chunks
  induction chunks with
  | nil =>
    intro chars p p' _ htext _ _ _
    refine ⟨[], rfl, ?_⟩
    cases chars with
    | nil => rfl
    | cons c chars => exact absurd (List.append_eq_nil_iff.mp htext.symm).1 writeUtf8_ne_nil
  | cons chunk chunks ih =>
    intro chars p p' hlow htext hgood hpend hrun
    rw [List.flatten_cons] at htext
    rcases cut_cases chars htext with ⟨q, chars', rfl, rfl, hrest⟩ | ⟨q, d, chars', front, back, rfl, rfl, hfront, hback,
      hcut, hrest⟩
    · obtain ⟨hq, hlow⟩ := List.forall_mem_append.mp hlow
      obtain ⟨p1, hprint, hp1⟩ := (@print_whole mem p _ depth hgood hpend hq).of_grants hmem
      rw [TextBytesPrinter.printAll, hprint] at hrun
      obtain ⟨parts, hparts, rfl⟩ := ih chars' p1 p' hlow hrest hp1.good (hp1.pend.trans hpend) hrun
      exact ⟨q :: parts, by rw [hparts, List.map_cons], rfl⟩
    · obtain ⟨hq, hd, -⟩ := by simpa only [List.forall_mem_append, List.forall_mem_cons] using hlow
      obtain ⟨p1, hprint, -⟩ := (@print_front mem p _ _ _ _ depth hgood hpend hq (show d < 2 ^ 32 by omega) hcut
        hfront hback).of_grants hmem
      rw [TextBytesPrinter.printAll, hprint] at hrun
      have hstuck := @printAll_stuck mem { p1 with bpPend := front } chunks front back _ d (depth + 2) (by omega) hcut hfront
        hback rfl hrest
      exact absurd (hstuck.symm.trans hrun) (by intro h; cases h)

/-- A text with `c` in it is cut behind `c` or in front of it. -/
theorem cut_beside {before after q rest : List ℕ} (h : before ++ c :: after = q ++ rest) :
    (∃ l, q = before ++ c :: l) ∨ ∃ l, before = q ++ l ∧ rest = l ++ c :: after := by
  rcases List.append_eq_append_iff.mp h with ⟨l, hq, hl⟩ | ⟨l, hbefore, hl⟩
  · cases l with
    | nil => exact .inr ⟨[], by rw [hq, List.append_nil, List.append_nil], hl.symm⟩
    | cons x l =>
      cases hl
      exact .inl ⟨l, hq⟩
  · exact .inr ⟨l, hbefore, hl⟩

/-- When `c` was cut and is refused, its other bytes come together. -/
theorem comesWhole_of_cut {before after : List ℕ} {p' : TextBytesPrinter} (hc : c < 2 ^ 32)
    (hcut : front ++ back = writeUtf8 c) (hfront : front ≠ []) (hback : back ≠ []) (hpend : p.bpPend = front)
    (hrest : chunks.flatten = back ++ after) (hrun : p.printAll mem (depth + 2) chunks = .error (.tooLarge p' c)) :
    ComesWhole c ((utf8 before ++ front) :: chunks) before := by
  obtain ⟨b, l, rfl⟩ := List.exists_cons_of_ne_nil hback
  obtain ⟨n, y, text, chunks', rfl, heq⟩ := flatten_eq_cons hrest
  replace heq : (b :: l) ++ after = (y :: text) ++ chunks'.flatten := heq
  rcases List.append_eq_append_iff.mp heq with ⟨rest, hwhole, -⟩ | ⟨back', hparts, -⟩
  · rw [hwhole]
    exact .halves before front (b :: l) rest n chunks' hfront hback hcut
  · by_cases hlast : back' = []
    · subst hlast
      rw [List.append_nil] at hparts
      rw [← hparts, ← List.append_nil (b :: l)]
      exact .halves before front (b :: l) [] n chunks' hfront hback hcut
    · have hshort := @print_rest_short mem p (y :: text) front back' c (depth + 1) hc (by rw [← hparts, hcut]) hfront
        (List.cons_ne_nil _ _) hlast hpend
      rw [printAll_replicate (by rw [hpend]; exact hfront), TextBytesPrinter.printAll, hshort] at hrun
      cases hrun

theorem comesWhole_of_refused (hmem : ∀ n, mem.grants n = true) (hc : c < 2 ^ 32) (hlarge : 0xff < c) :
    ∀ (chunks : List (List ℕ)) (before after : List ℕ) (p p' : TextBytesPrinter), (∀ d ∈ before, d < 0xc0) →
      chunks.flatten = utf8 (before ++ c :: after) → p.Good → p.bpPend = [] →
      p.printAll mem (depth + 2) chunks = .error (.tooLarge p' c) → ComesWhole c chunks before := by
  intro chunks
  induction chunks with
  | nil => intro before after p p' _ _ _ _ hrun; cases hrun
  | cons chunk chunks ih =>
    intro before after p p' hlow htext hgood hpend hrun
    rw [List.flatten_cons] at htext
    rcases cut_cases _ htext with ⟨q, chars', hchars, rfl, hrest⟩ | ⟨q, d, chars', front, back, hchars, rfl, hfront, hback,
      hcut, hrest⟩
    · rcases cut_beside hchars with ⟨l, rfl⟩ | ⟨l, rfl, rfl⟩
      · have hwhole := ComesWhole.whole before (utf8 l) chunks (c := c)
        rwa [← utf8_cons, ← utf8_append] at hwhole
      · obtain ⟨hq, hlow⟩ := List.forall_mem_append.mp hlow
        obtain ⟨p1, hprint, hp1⟩ := (@print_whole mem p _ depth hgood hpend hq).of_grants hmem
        rw [TextBytesPrinter.printAll, hprint] at hrun
        exact .later q (ih l after p1 p' hlow hrest hp1.good (hp1.pend.trans hpend) hrun)
    · rcases cut_beside hchars with ⟨l, rfl⟩ | ⟨l, rfl, hl⟩
      · have hwhole := ComesWhole.whole before (utf8 l ++ front) chunks (c := c)
        rwa [← List.append_assoc (writeUtf8 c), ← utf8_cons, ← List.append_assoc (utf8 before), ← utf8_append] at hwhole
      · obtain ⟨hq, hl'⟩ := List.forall_mem_append.mp hlow
        have hd : d < 2 ^ 32 := by
          cases l with
          | nil =>
            obtain ⟨rfl, -⟩ := List.cons.inj hl
            exact hc
          | cons d' l =>
            obtain ⟨rfl, -⟩ := List.cons.inj hl
            have := hl' d List.mem_cons_self
            omega
        obtain ⟨p1, hprint, -⟩ := (@print_front mem p _ _ _ _ depth hgood hpend hq hd hcut hfront hback).of_grants
          hmem
        rw [TextBytesPrinter.printAll, hprint] at hrun
        cases l with
        | nil =>
          obtain ⟨rfl, rfl⟩ := List.cons.inj hl
          rw [List.append_nil]
          exact @comesWhole_of_cut mem { p1 with bpPend := front } chunks front back d depth q _ _ hc hcut hfront hback rfl
            hrest hrun
        | cons d' l =>
          -- a character in front of `c` is cut
          obtain ⟨rfl, -⟩ := List.cons.inj hl
          have hlarge' := hl' d List.mem_cons_self
          have hstuck := @printAll_stuck mem { p1 with bpPend := front } chunks front back _ d (depth + 2) (by omega) hcut
            hfront hback rfl hrest
          exact absurd (hstuck.symm.trans hrun) (by intro h; cases h)

theorem grants_refusing (n : ℕ) : (refusing none).grants n = true := rfl

theorem prints_iff (htext : chunks.flatten = utf8 chars) (hchars : ∀ c ∈ chars, c ≤ 0xff) :
    Prints chunks chars ↔ (∀ c ∈ chars, c < 0xc0) ∧ CutsBetween chunks chars := by
  constructor
  · intro h
    obtain ⟨depth, hrun⟩ := h (refusing none)
    obtain ⟨p, hp, hdata, -⟩ := hrun.of_grants grants_refusing
    have hlow := @printAll_keeps (refusing none) depth chunks .init init_low
    rw [hp] at hlow
    have hall : ∀ c ∈ chars, c < 0xc0 := by
      rw [← hdata]
      exact hlow.data
    exact ⟨hall, cutsBetween_of_ok grants_refusing chunks chars .init p hall htext init_low.good rfl
      (printAll_eq_of_ne hp (by intro h; cases h))⟩
  · rintro ⟨hlow, parts, rfl, rfl⟩ mem
    refine ⟨2, (printAll_prints parts .init init_low.good rfl hlow).mono ?_⟩
    rintro r ⟨p, rfl, hp⟩
    exact ⟨p, rfl, hp.data, hp.pend⟩

theorem refusesAt_iff {before after : List ℕ} (htext : chunks.flatten = utf8 (before ++ c :: after))
    (hc : c < 2 ^ 32) (hlarge : 0xff < c) :
    RefusesAt chunks before c ↔ (∀ d ∈ before, d < 0xc0) ∧ ComesWhole c chunks before := by
  constructor
  · intro h
    obtain ⟨depth, hrun⟩ := h (refusing none)
    obtain ⟨p, hp, hdata⟩ := hrun.of_grants grants_refusing
    have hlow := @printAll_keeps (refusing none) depth chunks .init init_low
    rw [hp] at hlow
    have hall : ∀ c ∈ before, c < 0xc0 := by
      rw [← hdata]
      exact hlow.data
    exact ⟨hall, comesWhole_of_refused grants_refusing hc hlarge chunks before after .init p hall htext init_low.good rfl
      (printAll_eq_of_ne hp (by intro h; cases h))⟩
  · rintro ⟨hlow, hwhole⟩ mem
    exact ⟨2, printAll_refuses hc hlarge hwhole .init init_low.good rfl hlow⟩

end Runs

/-- A text of characters up to U+00FF is printed right exactly when they are below U+00C0 and none of them is cut. A text
with a character above U+00FF is refused there exactly when all in front of it are printed right and, if it is cut
itself, its other bytes come together. -/
theorem bytes_printer_prints (chunks : List (List ℕ)) (chars : List ℕ) (htext : chunks.flatten = utf8 chars)
    (hchars : ∀ c ∈ chars, c < 2 ^ 32) :
    ((∀ c ∈ chars, c ≤ 0xff) → (Prints chunks chars ↔ (∀ c ∈ chars, c < 0xc0) ∧ CutsBetween chunks chars)) ∧
      ∀ before c after, chars = before ++ c :: after → (∀ d ∈ before, d ≤ 0xff) → 0xff < c →
        ((∀ d ∈ before, d < 0xc0) ∧ ComesWhole c chunks before → Refuses chunks) ∧
        (RefusesAt chunks before c ↔ (∀ d ∈ before, d < 0xc0) ∧ ComesWhole c chunks before) := by
  refine ⟨fun hlatin => prints_iff htext hlatin, ?_⟩
  rintro before c after rfl - hlarge
  have hiff := refusesAt_iff htext (hchars c (List.mem_append_right _ List.mem_cons_self)) hlarge
  refine ⟨fun hright mem => ?_, hiff⟩
  obtain ⟨depth, hrun⟩ := hiff.mpr hright mem
  refine ⟨depth, hrun.mono ?_⟩
  rintro r ⟨p, hp, -⟩
  exact ⟨p, c, hp⟩

theorem bytes_printer_prints_pieces : Prints [[0x41], [0xc2, 0xa0]] [0x41, 0xa0] ∧ Refuses [[0xe2], [0x82, 0xac]] :=
  ⟨((bytes_printer_prints [[0x41], [0xc2, 0xa0]] [0x41, 0xa0] (by decide) (by decide)).1 (by decide)).mpr
      ⟨(by decide), [[0x41], [0xa0]], rfl, rfl⟩,
    ((bytes_printer_prints [[0xe2], [0x82, 0xac]] [0x20ac] (by decide) (by decide)).2 [] 0x20ac [] rfl (by decide)
      (by decide)).1 ⟨(by decide), .halves [] [0xe2] [0x82, 0xac] [] 0 [] (by decide) (by decide) (by decide)⟩⟩

/-- The character U+00E9 stays pending when it comes in one piece. Printing U+00A0 in two pieces does not end. -/
theorem bytes_printer_prints_wrong : ¬ Prints [[0xc3, 0xa9]] [0xe9] ∧ ¬ Prints [[0xc2], [0xa0]] [0xa0] := by
  refine ⟨fun h => ?_, fun h => ?_⟩
  · have hlow := ((prints_iff (by decide) (by decide)).mp h).1 0xe9 List.mem_cons_self
    exact absurd hlow (by decide)
  · obtain ⟨parts, hparts, hflatten⟩ := ((prints_iff (by decide) (by decide)).mp h).2
    rcases parts with _ | ⟨_ | ⟨c, q⟩, parts⟩
    · cases hparts
    · cases (List.cons.inj hparts).1
    · obtain ⟨rfl, -⟩ := List.cons.inj hflatten
      cases (List.cons.inj hparts).1

end Deemon.Unicode
