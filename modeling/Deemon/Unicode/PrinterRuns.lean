import Deemon.Unicode.PrinterAppends

/-!
# Runs of the unicode printer

A run is a list of operations on a new printer, after which it is packed. The bytes or units of an unfinished character
are only continued by operations of the same kind. The string then has the characters of all operations, unless one of
two requests for memory is refused: that of `putc8` for a first buffer of wide characters, and that of
`Dee_unicode_printer_pack` for a buffer of the final length, without which the string keeps the rest of the buffer.
-/

namespace Deemon.Unicode

open Deemon.Run

/-! ### Operations -/

/-- The operations that append. -/
inductive PrinterOp where
  | allocate (numChars : ℕ) (width : StringWidth)
  | putc (ch : ℕ)
  | print8 (text : List ℕ)
  | print16 (text : List ℕ)
  | print32 (text : List ℕ)
  | repeatascii (ch numChars : ℕ)
  | pututf8 (ch : ℕ)
  | print (text : List ℕ)
  | pututf16 (ch : ℕ)
  | printutf16 (text : List ℕ)

/-- One operation. -/
def UnicodePrinter.step (mem : Memory) (self : UnicodePrinter) : PrinterOp → Except Fault UnicodePrinter
  | .allocate numChars width => self.allocate mem numChars width
  | .putc ch => self.putc mem ch
  | .print8 text => self.print8 mem text
  | .print16 text => self.print16 mem text
  | .print32 text => self.print32 mem text
  | .repeatascii ch numChars => self.repeatascii mem ch numChars
  | .pututf8 ch => self.pututf8 mem ch
  | .print text => self.print mem text
  | .pututf16 ch => self.pututf16 mem ch
  | .printutf16 text => self.printutf16 mem text

/-- All operations and the packing. -/
def UnicodePrinter.run (mem : Memory) : UnicodePrinter → List PrinterOp → Except Fault DeeString
  | self, [] => self.pack mem
  | self, op :: ops => do UnicodePrinter.run mem (← self.step mem op) ops

/-- The bytes, or the units of a `wide` character, that were received in part. -/
structure Pending where
  wide : Bool
  units : List ℕ

/-- Nothing is pending. -/
def Pending.none : Pending := ⟨false, []⟩

/-- An operation may come when `part` is pending; it stands for the characters `chars`, and `part'` is pending then. -/
inductive Accepts : (part : Pending) → PrinterOp → (chars : List ℕ) → (part' : Pending) → Prop where
  | allocate {part : Pending} (numChars : ℕ) (width : StringWidth) : Accepts part (.allocate numChars width) [] part
  | putc {part : Pending} {ch : ℕ} (hpart : part.units = []) (hch : ch < 2 ^ 32) : Accepts part (.putc ch) [ch] part
  | print8 {part : Pending} {text : List ℕ} (hpart : part.units = []) (htext : ∀ ch ∈ text, ch < 2 ^ 8) :
    Accepts part (.print8 text) text part
  | print16 {part : Pending} {text : List ℕ} (hpart : part.units = []) (htext : ∀ ch ∈ text, ch < 2 ^ 16) :
    Accepts part (.print16 text) text part
  | print32 {part : Pending} {text : List ℕ} (hpart : part.units = []) (htext : ∀ ch ∈ text, ch < 2 ^ 32) :
    Accepts part (.print32 text) text part
  | repeatascii {part : Pending} {ch : ℕ} (hpart : part.units = []) (hch : ch < 2 ^ 7) (numChars : ℕ) :
    Accepts part (.repeatascii ch numChars) (List.replicate numChars ch) part
  | pututf8 {part : Pending} {ch : ℕ} {chars rest : List ℕ} (hpart : part.units = [] ∨ part.wide = false)
    (hch : ch < 2 ^ 8) (h : Utf8Decodes (part.units ++ [ch]) chars rest) :
    Accepts part (.pututf8 ch) chars ⟨false, rest⟩
  | print {part : Pending} {text chars rest : List ℕ} (hpart : part.units = [] ∨ part.wide = false)
    (htext : ∀ ch ∈ text, ch < 2 ^ 8) (h : Utf8Decodes (part.units ++ text) chars rest) :
    Accepts part (.print text) chars ⟨false, rest⟩
  | pututf16 {part : Pending} {ch : ℕ} {chars rest : List ℕ} (hpart : part.units = [] ∨ part.wide = true)
    (hch : ch < 2 ^ 16) (h : Utf16Decodes (part.units ++ [ch]) chars rest) :
    Accepts part (.pututf16 ch) chars ⟨true, rest⟩
  | printutf16 {part : Pending} {text chars rest : List ℕ} (hpart : part.units = [] ∨ part.wide = true)
    (htext : ∀ ch ∈ text, ch < 2 ^ 16) (h : Utf16Decodes (part.units ++ text) chars rest) :
    Accepts part (.printutf16 text) chars ⟨true, rest⟩

/-- The same of a list of operations. -/
inductive AcceptsAll : (part : Pending) → List PrinterOp → (chars : List ℕ) → (part' : Pending) → Prop where
  | nil {part : Pending} : AcceptsAll part [] [] part
  | cons {part part' part'' : Pending} {op : PrinterOp} {ops : List PrinterOp} {chars chars' : List ℕ}
    (h : Accepts part op chars part') (hops : AcceptsAll part' ops chars' part'') :
    AcceptsAll part (op :: ops) (chars ++ chars') part''

/-! ### Where memory must not be refused -/

/-- The first character of an operation is put by `putc8`. -/
def PrinterOp.PutsByte (pend : List ℕ) : PrinterOp → Prop
  | .putc ch => ch ≤ 0xff
  | .print32 text => text.length = 1 ∧ cell text 0 ≤ 0xff
  | .pututf8 ch => pend = [] ∧ ch < 0xc0 ∨ StartsLatin1 (pend ++ [ch])
  | .print text => StartsLatin1 (pend ++ text)
  | .pututf16 ch => pend = [] ∧ ch ≤ 0xff
  | _ => False

/-- The buffer is resized to its final length when it is longer. -/
def UnicodePrinter.Shrinks (mem : Memory) (p : UnicodePrinter) : Prop :=
  ∀ cells, p.upBuffer = some cells → p.upLength < cells.length → mem.grants p.requests = true

/-- The characters that are asked for in advance have a size in bytes, as wide as they may become. -/
def PrinterOp.Fits (p : UnicodePrinter) : PrinterOp → Prop
  | .allocate numChars _ => 8 + 4 * (p.upLength + numChars + 1) < 2 ^ 64
  | _ => True

/-- In all states of a run, the request for memory that must not be refused is granted, and no size wraps. -/
def Served (mem : Memory) : UnicodePrinter → List PrinterOp → Prop
  | p, [] => p.Shrinks mem
  | p, op :: ops => op.Fits p ∧ (op.PutsByte p.upPend → p.Ready mem) ∧ ∀ p', p.step mem op = .ok p' → Served mem p' ops

/-! ### Steps -/

section Steps

variable {mem : Memory} {p : UnicodePrinter} {part part' : Pending} {op : PrinterOp} {ops : List PrinterOp}
  {cs rest bytes a b cells : List ℕ}

/-- What may be pending. -/
def Pending.Ok (part : Pending) : Prop :=
  part.units = [] ∨ part.wide = false ∧ Unfinished part.units ∨ part.wide = true ∧ ∃ u, part.units = [u] ∧ IsHigh u

theorem Utf8Decodes.rest_ok (h : Utf8Decodes bytes cs rest) : rest = [] ∨ Unfinished rest := by
  induction h with
  | nil => exact .inl rfl
  | byte hb h ih => exact ih
  | sequence hseq hlen h ih => exact ih
  | unfinished hlead hlen hseven => exact .inr ⟨hlead, hlen, hseven⟩

theorem Utf16Decodes.rest_ok (h : Utf16Decodes bytes cs rest) : rest = [] ∨ ∃ u, rest = [u] ∧ IsHigh u := by
  induction h with
  | nil => exact .inl rfl
  | unit hu h ih => exact ih
  | pair hu hv h ih => exact ih
  | unpaired hu => exact .inr ⟨_, rfl, hu⟩

theorem Pending.Ok.utf8 (h : part.Ok) (hpart : part.units = [] ∨ part.wide = false) :
    part.units = [] ∨ Unfinished part.units := by
  rcases h with hnil | ⟨-, hunfinished⟩ | ⟨hwide, hunit⟩
  · exact .inl hnil
  · exact .inr hunfinished
  · exact .inl (hpart.resolve_right (by rw [hwide]; decide))

theorem Pending.Ok.utf16 (h : part.Ok) (hpart : part.units = [] ∨ part.wide = true) :
    part.units = [] ∨ ∃ u, part.units = [u] ∧ IsHigh u := by
  rcases h with hnil | ⟨hwide, -⟩ | ⟨-, hunit⟩
  · exact .inl hnil
  · exact .inl (hpart.resolve_right (by rw [hwide]; decide))
  · exact .inr hunit

/-- An operation appends its characters. -/
theorem step_yields (hgood : p.Good) (hpend : p.upPend = part.units) (hpart : part.Ok) (h : Accepts part op cs part')
    (hfits : op.Fits p) (hready : op.PutsByte p.upPend → p.Ready mem) :
    part'.Ok ∧ Yields (p.step mem op) (p.Appended cs part'.units) := by
  rw [hpend] at hready
  cases h with
  | allocate n w =>
    unfold PrinterOp.Fits at hfits
    exact ⟨hpart, hpend ▸ allocate_yields hgood w (by omega)⟩
  | putc hnil hch => exact ⟨hpart, hpend ▸ putc_yields hgood hch hready⟩
  | print8 hnil htext => exact ⟨hpart, hpend ▸ print8_yields hgood htext⟩
  | print16 hnil htext => exact ⟨hpart, hpend ▸ print16_yields hgood htext⟩
  | print32 hnil htext => exact ⟨hpart, hpend ▸ print32_yields hgood htext fun hone hlow => hready ⟨hone, hlow⟩⟩
  | repeatascii hnil hch n =>
    refine ⟨hpart, hpend ▸ print8_yields hgood fun c hc => ?_⟩
    rw [List.eq_of_mem_replicate hc]
    exact hch.trans (by norm_num)
  | pututf8 hkind hch h =>
    have hok := hpart.utf8 hkind
    rw [← hpend] at h hok hready
    exact ⟨h.rest_ok.imp_right fun hrest => .inl ⟨rfl, hrest⟩, pututf8_yields hgood hok hch h hready⟩
  | print hkind htext h =>
    have hok := hpart.utf8 hkind
    rw [← hpend] at h hok hready
    exact ⟨h.rest_ok.imp_right fun hrest => .inl ⟨rfl, hrest⟩, print_yields hgood hok h htext hready⟩
  | pututf16 hkind hch h =>
    have hok := hpart.utf16 hkind
    rw [← hpend] at h hok hready
    exact ⟨h.rest_ok.imp_right fun hrest => .inr ⟨rfl, hrest⟩, pututf16_yields hgood hok hch h hready⟩
  | printutf16 hkind htext h =>
    have hok := hpart.utf16 hkind
    rw [← hpend] at h hok
    exact ⟨h.rest_ok.imp_right fun hrest => .inr ⟨rfl, hrest⟩, printutf16_yields hgood hok h htext⟩

/-! ### Packing -/

/-- The UTF-8 form of a text is as long as the text for ASCII only, and then it is the text. -/
theorem flatMap_eq_of_length {f : ℕ → List ℕ} (hpos : ∀ c, 0 < (f c).length) (hone : ∀ c, (f c).length = 1 → f c = [c])
    (hlen : (cells.flatMap f).length = cells.length) : cells.flatMap f = cells := by
  have hle : ∀ l : List ℕ, l.length ≤ (l.flatMap f).length := by
    intro l
    induction l with
    | nil => exact le_rfl
    | cons c l ih =>
      have hc := hpos c
      rw [List.flatMap_cons, List.length_append, List.length_cons]
      omega
  induction cells with
  | nil => rfl
  | cons c cells ih =>
    have hc := hpos c
    have hrest := hle cells
    rw [List.flatMap_cons, List.length_append, List.length_cons] at hlen
    rw [List.flatMap_cons, hone c (by omega), ih (by omega)]
    rfl

theorem packWideBuffer_yields {requests : ℕ} {width : StringWidth} {utf8Text : List ℕ}
    (htext : utf8Text.length = cells.length → utf8Text = cells) :
    Yields (packWideBuffer mem requests width cells utf8Text) fun string => string.uData = cells := by
  unfold packWideBuffer
  split_ifs with hempty hrefused hascii
  · rw [List.eq_nil_of_length_eq_zero hempty]
    exact Yields.ok rfl
  · exact Yields.noMemory
  · exact Yields.ok (htext hascii)
  · exact Yields.ok rfl

theorem packWidthBuffer_yields (requests : ℕ) (width : StringWidth) (cells : List ℕ) :
    Yields (packWidthBuffer mem requests width cells) fun string => string.uData = cells := by
  cases width with
  | byte1 => exact Yields.ok rfl
  | byte2 =>
    refine packWideBuffer_yields (flatMap_eq_of_length ?_ ?_)
    · intro c
      unfold char16Utf8
      split_ifs <;> simp
    · intro c hone
      unfold char16Utf8 at hone ⊢
      split_ifs at hone ⊢ <;> simp at hone ⊢
  | byte4 =>
    refine packWideBuffer_yields (flatMap_eq_of_length ?_ ?_)
    · exact fun c => List.length_pos_of_ne_nil writeUtf8_ne_nil
    · intro c hone
      unfold writeUtf8 at hone ⊢
      split_ifs at hone ⊢ <;> simp [utf8Rest] at hone ⊢

/-- A printer whose buffer gets its final length is packed with its characters. -/
theorem pack_yields (hgood : p.Good) (hshrinks : p.Shrinks mem) :
    Yields (p.pack mem) fun string => string.uData = p.chars := by
  unfold UnicodePrinter.pack
  cases hbuffer : p.upBuffer with
  | none =>
    rw [UnicodePrinter.chars_none hbuffer]
    exact Yields.ok rfl
  | some cells =>
    have hchars := UnicodePrinter.chars_some hbuffer
    have hroom := (hgood.buffer cells hbuffer).2.1
    dsimp only
    split_ifs with hlong hgrant
    · have hresize : resizeCells mem cells p.upLength = p.chars := by
        have htake := @take_resizeCells mem cells p.upLength p.upLength le_rfl hroom
        rwa [List.take_of_length_le (by rw [length_resizeCells]), ← hchars] at htake
      rw [hresize]
      exact packWidthBuffer_yields _ _ _
    · exact absurd (hshrinks cells hbuffer hlong) hgrant
    · rw [hchars, List.take_of_length_le (not_lt.mp hlong)]
      exact packWidthBuffer_yields _ _ _

/-- Otherwise the string is longer than the characters are. -/
theorem pack_yields_iff (hgood : p.Good) :
    Yields (p.pack mem) fun string => string.uData = p.chars ↔ p.Shrinks mem := by
  by_cases hshrinks : p.Shrinks mem
  · exact (pack_yields hgood hshrinks).mono fun string hstring => iff_of_true hstring hshrinks
  · unfold UnicodePrinter.Shrinks at hshrinks
    push Not at hshrinks
    obtain ⟨cells, hbuffer, hlong, hgrant⟩ := hshrinks
    have hpack : p.pack mem = packWidthBuffer mem (p.requests + 1) p.width cells := by
      rw [UnicodePrinter.pack, hbuffer]
      dsimp only
      rw [if_pos hlong, if_neg hgrant]
    rw [hpack]
    refine (packWidthBuffer_yields _ _ _).mono fun string hstring => iff_of_false ?_ ?_
    · intro hchars
      have hlength := congrArg List.length (hstring.symm.trans hchars)
      rw [UnicodePrinter.chars_some hbuffer, List.length_take] at hlength
      omega
    · intro hall
      exact hgrant (hall cells hbuffer hlong)

/-! ### Runs -/

/-- A run from a printer that has characters already. -/
theorem run_yields (h : AcceptsAll part ops cs part') : ∀ {p : UnicodePrinter}, p.Good → p.upPend = part.units → part.Ok →
    Served mem p ops → Yields (p.run mem ops) fun string => string.uData = p.chars ++ cs := by
  induction h with
  | nil =>
    intro p hgood _ _ hserved
    rw [List.append_nil]
    exact pack_yields hgood hserved
  | cons h hops ih =>
    intro p hgood hpend hpart hserved
    obtain ⟨hpart', hstep⟩ := step_yields hgood hpend hpart h hserved.1 hserved.2.1
    have hreached : Yields (p.step mem _) fun p' => p.Appended _ _ p' ∧ p.step mem _ = .ok p' :=
      ⟨hstep.1, fun p' hp' => ⟨hstep.2 p' hp', hp'⟩⟩
    refine Yields.bind hreached fun p' hp' => ?_
    refine (ih hp'.1.good hp'.1.pend hpart' (hserved.2.2 p' hp'.2)).mono fun string hstring => ?_
    rw [hstring, hp'.1.chars, List.append_assoc]

/-- A text that is cut anywhere stands for the same characters. -/
theorem Utf8Decodes.split (h : Utf8Decodes bytes cs rest) : ∀ {a b : List ℕ}, a ++ b = bytes →
    ∃ cs₁ mid cs₂, cs = cs₁ ++ cs₂ ∧ Utf8Decodes a cs₁ mid ∧ Utf8Decodes (mid ++ b) cs₂ rest := by
  induction h with
  | nil =>
    intro a b hab
    obtain ⟨rfl, rfl⟩ := List.append_eq_nil_iff.mp hab
    exact ⟨[], [], [], rfl, .nil, .nil⟩
  | @byte x bytes cs rest hx h ih =>
    intro a b hab
    rcases a with _ | ⟨y, a⟩
    · exact ⟨[], [], _, rfl, .nil, (show b = x :: bytes from hab) ▸ .byte hx h⟩
    · obtain ⟨rfl, htail⟩ := List.cons.inj hab
      obtain ⟨cs₁, mid, cs₂, rfl, hleft, hright⟩ := ih htail
      exact ⟨y :: cs₁, mid, cs₂, rfl, .byte hx hleft, hright⟩
  | @sequence seq bytes cs rest hseq hlen h ih =>
    intro a b hab
    rcases List.append_eq_append_iff.mp hab with ⟨l, hl, rfl⟩ | ⟨l, rfl, hl⟩
    · by_cases ha : a = []
      · rw [ha, List.nil_append] at hl
        rw [ha, ← hl]
        exact ⟨[], [], _, rfl, .nil, .sequence hseq hlen h⟩
      · by_cases hl' : l = []
        · rw [hl', List.append_nil] at hl
          refine ⟨[seqChar seq], [], cs, rfl, ?_, ?_⟩
          · have hwhole := Utf8Decodes.sequence hseq hlen .nil
            rw [List.append_nil] at hwhole
            rwa [← hl]
          · rw [hl']
            exact h
        · refine ⟨[], a, _, rfl, .unfinished ?_ ?_ ?_, ?_⟩
          · rw [← @headD_append a l ha, ← hl]
            exact hseq.lead
          · have hpos := List.length_pos_of_ne_nil hl'
            rw [← @headD_append a l ha, ← hl, hseq.2, hl, List.length_append]
            omega
          · rw [← @headD_append a l ha, ← hl, hseq.2]
            exact hlen
          · rw [← List.append_assoc, ← hl]
            exact .sequence hseq hlen h
    · obtain ⟨cs₁, mid, cs₂, rfl, hleft, hright⟩ := ih hl.symm
      exact ⟨seqChar seq :: cs₁, mid, cs₂, rfl, .sequence hseq hlen hleft, hright⟩
  | @unfinished part hlead hlen hseven =>
    intro a b hab
    have hpart : Utf8Decodes part [] part := .unfinished hlead hlen hseven
    by_cases ha : a = []
    · rw [ha, List.nil_append] at hab
      rw [ha, hab]
      exact ⟨[], [], [], rfl, .nil, hpart⟩
    · refine ⟨[], a, [], rfl, ?_, by rwa [hab]⟩
      rw [← hab, headD_append ha] at hlead hlen hseven
      rw [List.length_append] at hlen
      exact .unfinished hlead (by omega) hseven

/-- The texts of a run may be those of a text that is cut anywhere. -/
theorem acceptsAll_print {chunks : List (List ℕ)} : ∀ {mid cs rest : List ℕ}, mid = [] ∨ Unfinished mid →
    Utf8Decodes (mid ++ chunks.flatten) cs rest → (∀ ch ∈ chunks.flatten, ch < 2 ^ 8) →
    AcceptsAll ⟨false, mid⟩ (chunks.map .print) cs ⟨false, rest⟩ := by
  induction chunks with
  | nil =>
    intro mid cs rest hmid h _
    rw [List.flatten_nil, List.append_nil] at h
    rcases hmid with rfl | hmid
    · obtain ⟨rfl, rfl⟩ := h.of_nil
      exact .nil
    · obtain ⟨rfl, rfl⟩ := h.of_unfinished hmid
      exact .nil
  | cons chunk chunks ih =>
    intro mid cs rest _ h hbytes
    rw [List.flatten_cons] at h hbytes
    obtain ⟨cs₁, mid', cs₂, rfl, hleft, hright⟩ := h.split (List.append_assoc mid chunk chunks.flatten)
    exact .cons (.print (.inr rfl) (fun ch hch => hbytes ch (List.mem_append_left _ hch)) hleft)
      (ih hleft.rest_ok hright fun ch hch => hbytes ch (List.mem_append_right _ hch))

/-- A well-formed text stands for its characters. -/
theorem utf8Decodes_utf8 (hcs : ∀ c ∈ cs, c < 2 ^ 32) : Utf8Decodes (utf8 cs) cs [] := by
  induction cs with
  | nil => exact .nil
  | cons c cs ih =>
    have hrest := ih fun d hd => hcs d (List.mem_cons_of_mem c hd)
    rw [utf8_cons]
    by_cases hascii : c < 0x80
    · have hwrite : writeUtf8 c = [c] := if_pos hascii
      rw [hwrite]
      exact .byte (by omega) hrest
    · obtain ⟨hseq, hchar⟩ := isSequence_writeUtf8 (not_lt.mp hascii) (hcs c List.mem_cons_self)
      have hlen : (writeUtf8 c).length ≤ 7 := by
        unfold writeUtf8
        split_ifs <;> simp [utf8Rest]
      have hdecodes := Utf8Decodes.sequence hseq hlen hrest
      rwa [hchar] at hdecodes

theorem utf8Rest_lt {ch : ℕ} : ∀ n : ℕ, ∀ b ∈ utf8Rest ch n, b < 2 ^ 8 := by
  intro n
  induction n with
  | zero => intro b hb; cases hb
  | succ n ih =>
    intro b hb
    rw [utf8Rest, List.mem_cons] at hb
    rcases hb with rfl | hb
    · exact Nat.or_lt_two_pow (by norm_num) (Nat.and_le_right.trans_lt (by norm_num))
    · exact ih b hb

theorem utf8_lt (hcs : ∀ c ∈ cs, c < 2 ^ 32) : ∀ b ∈ utf8 cs, b < 2 ^ 8 := by
  intro b hb
  obtain ⟨c, hc, hb⟩ := List.mem_flatMap.mp hb
  by_cases hascii : c < 0x80
  · have hwrite : writeUtf8 c = [c] := if_pos hascii
    rw [hwrite, List.mem_singleton] at hb
    omega
  · obtain ⟨lead, n, hwrite, -, -, hlead⟩ := writeUtf8_eq (not_lt.mp hascii) (hcs c hc)
    have hlt := hlead.lt
    rw [hwrite, List.mem_cons] at hb
    rcases hb with rfl | hb
    · omega
    · exact utf8Rest_lt n b hb

end Steps

/-! ### The result -/

theorem init_good : UnicodePrinter.init.Good := by
  refine ⟨?_, fun _ _ => rfl⟩
  intro cells heq
  cases heq

/-- Memory of which one request may be refused. -/
def refusing (request : Option ℕ) : Memory := ⟨fun n => some n ≠ request, fun _ => 0⟩

end Deemon.Unicode
