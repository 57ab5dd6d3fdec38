import Deemon.Unicode.Printer
import Deemon.Unicode.PackUtf16
import Deemon.Unicode.Utf8Text

/-!
# The unicode printer appends

The characters of a printer are the first `up_length` cells of its buffer. Every operation appends the characters that
its bytes or units stand for, whatever requests for memory are refused. The one exception is the first character of a
printer that has no buffer yet but was told that characters will be wide: when the buffer is refused, `putc8` takes a
buffer of single bytes in spite of the width.
-/

namespace Deemon.Unicode

open Deemon.Run

/-! ### Results -/

section Yields

variable {α β : Type} {P Q : α → Prop} {R : β → Prop} {r : Except Fault α} {f : α → Except Fault β}

/-- The step does not break anything, and its result satisfies `P` unless memory is refused. -/
def Yields (r : Except Fault α) (P : α → Prop) : Prop := r ≠ .error .broken ∧ ∀ a, r = .ok a → P a

theorem Yields.ok {a : α} (h : P a) : Yields (.ok a) P := by
  refine ⟨?_, ?_⟩
  · intro heq
    cases heq
  · intro b hb
    cases hb
    exact h

theorem Yields.noMemory : Yields (.error .noMemory) P := by
  refine ⟨?_, ?_⟩
  · intro heq
    cases heq
  · intro b hb
    cases hb

theorem Yields.mono (h : Yields r P) (hPQ : ∀ a, P a → Q a) : Yields r Q := ⟨h.1, fun a ha => hPQ a (h.2 a ha)⟩

theorem Yields.bind (h : Yields r P) (hf : ∀ a, P a → Yields (f a) R) : Yields (r >>= f) R := by
  cases r with
  | ok a => exact hf a (h.2 a rfl)
  | error fault =>
    cases fault with
    | noMemory => exact Yields.noMemory
    | broken => exact absurd rfl h.1

/-- When two steps succeed, each of them does. -/
theorem ok_of_bind {b : β} (h : (r >>= f) = .ok b) : ∃ a, r = .ok a ∧ f a = .ok b := by
  cases r with
  | ok a => exact ⟨a, rfl, h⟩
  | error fault => cases h

end Yields

/-! ### Buffers -/

section Buffers

variable {mem : Memory} {self p : UnicodePrinter} {width : StringWidth} {cells text sizes : List ℕ} {ch n : ℕ}

theorem length_newCells (n : ℕ) : (newCells mem n).length = n := by
  rw [newCells, List.length_map, List.length_range]

theorem length_resizeCells : (resizeCells mem cells n).length = n := by
  rw [resizeCells, List.length_append, List.length_take, length_newCells]
  omega

theorem take_resizeCells {k : ℕ} (hk : k ≤ n) (hcells : k ≤ cells.length) :
    (resizeCells mem cells n).take k = cells.take k := by
  rw [resizeCells, List.take_append_of_le_length (by rw [List.length_take]; omega), List.take_take, min_eq_left hk]

theorem StringWidth.cast_of_lt (h : ch < 2 ^ width.bits) : width.cast ch = ch := Nat.mod_eq_of_lt h

theorem map_cast (h : ∀ c ∈ text, c < 2 ^ width.bits) : text.map width.cast = text := by
  rw [List.map_congr_left fun c hc => StringWidth.cast_of_lt (h c hc), List.map_id']

theorem writeCells_yields (hroom : n + text.length ≤ cells.length) (hfit : ∀ c ∈ text, c < 2 ^ width.bits) :
    Yields (writeCells width cells n text) fun cells' =>
      cells'.length = cells.length ∧ cells'.take (n + text.length) = cells.take n ++ text := by
  rw [writeCells, if_pos hroom, map_cast hfit]
  refine Yields.ok ⟨?_, ?_⟩
  · rw [List.length_append, List.length_append, List.length_take, List.length_drop]
    omega
  · refine List.take_left' ?_
    rw [List.length_append, List.length_take]
    omega

/-- Twice as large as often as needed. -/
theorem doubled_yields : ∀ (fuel newAlloc need : ℕ), 0 < newAlloc → need ≤ newAlloc * 2 ^ fuel → newAlloc < need →
    Yields (doubled fuel newAlloc need) fun n => need ≤ n := by
  intro fuel
  induction fuel with
  | zero => intro newAlloc need hpos hfuel hneed; omega
  | succ fuel ih =>
    intro newAlloc need hpos hfuel hneed
    rw [doubled]
    split_ifs with hmore
    · exact ih _ _ (by omega) (by rw [mul_assoc, ← pow_succ']; exact hfuel) hmore
    · exact Yields.ok (not_lt.mp hmore)

theorem grantSize_yields : ∀ (sizes : List ℕ) (requests : ℕ), Yields (grantSize mem requests sizes) fun r => r.1 ∈ sizes := by
  intro sizes
  induction sizes with
  | nil => intro requests; exact Yields.noMemory
  | cons size sizes ih =>
    intro requests
    rw [grantSize]
    split_ifs with hgrant
    · exact Yields.ok List.mem_cons_self
    · exact (ih _).mono fun r hr => List.mem_cons_of_mem _ hr

/-- A printer that was granted memory only differs in the number of requests. -/
theorem grant_yields (sizes : List ℕ) (self : UnicodePrinter) : Yields (self.grant mem sizes) fun r =>
    r.1 ∈ sizes ∧ r.2 = { self with requests := r.2.requests } :=
  Yields.bind (grantSize_yields sizes self.requests) fun _ hr => Yields.ok ⟨hr, rfl⟩

end Buffers

/-! ### Printers -/

/-- The characters of a printer. -/
def UnicodePrinter.chars (self : UnicodePrinter) : List ℕ := (self.upBuffer.getD []).take self.upLength

/-- The state of a printer between operations. A buffer has room for a character; one of no characters, which
`allocUtf16 0` leaves when its request for 64 of them is refused, is not looked at. -/
structure UnicodePrinter.Good (p : UnicodePrinter) : Prop where
  /-- There is room in the buffer, and every character fits its width. -/
  buffer : ∀ cells, p.upBuffer = some cells → 0 < cells.length ∧ p.upLength ≤ cells.length ∧
    ∀ c ∈ cells.take p.upLength, c < 2 ^ p.width.bits
  /-- Characters are known to be wide only when it is known how many there are. -/
  width : p.upBuffer = none → p.upLength = 0 → p.width = .byte1

/-- An operation has appended characters, and some bytes or units are pending now. -/
structure UnicodePrinter.Appended (p : UnicodePrinter) (text pend : List ℕ) (p' : UnicodePrinter) : Prop where
  good : p'.Good
  chars : p'.chars = p.chars ++ text
  pend : p'.upPend = pend
  /-- There is a buffer, unless nothing was appended to a printer without one. -/
  buffer : p'.upBuffer ≠ none ∨ text = [] ∧ p.upBuffer = none

/-- Where `putc8` is right: a first buffer of wide characters is granted. -/
def UnicodePrinter.Ready (mem : Memory) (p : UnicodePrinter) : Prop :=
  p.upBuffer = none → p.width ≠ .byte1 → mem.grants p.requests = true

section Appends

variable {mem : Memory} {self p p' : UnicodePrinter} {width : StringWidth} {cells text pend sizes : List ℕ} {ch n : ℕ}

theorem UnicodePrinter.chars_some (h : p.upBuffer = some cells) : p.chars = cells.take p.upLength := by
  rw [UnicodePrinter.chars, h, Option.getD_some]

theorem UnicodePrinter.chars_none (h : p.upBuffer = none) : p.chars = [] := by
  rw [UnicodePrinter.chars, h, Option.getD_none, List.take_nil]

theorem UnicodePrinter.Appended.ready (h : p.Appended text pend p') (htext : text ≠ []) : p'.Ready mem := by
  intro hnone
  rcases h.buffer with hbuffer | ⟨hnil, -⟩
  · exact absurd hnone hbuffer
  · exact absurd hnil htext

theorem UnicodePrinter.Appended.trans {p'' : UnicodePrinter} {text' pend' : List ℕ} (h : p.Appended text pend p')
    (h' : p'.Appended text' pend' p'') : p.Appended (text ++ text') pend' p'' := by
  refine ⟨h'.good, by rw [h'.chars, h.chars, List.append_assoc], h'.pend, ?_⟩
  rcases h'.buffer with hsome | ⟨rfl, hnone⟩
  · exact .inl hsome
  · rcases h.buffer with hsome | ⟨rfl, hnone'⟩
    · exact absurd hnone hsome
    · exact .inr ⟨rfl, hnone'⟩

/-- Other bytes or units are pending. -/
theorem UnicodePrinter.Appended.setPend (h : p.Appended text pend p') (pend' : List ℕ) :
    p.Appended text pend' { p' with upPend := pend' } := ⟨⟨h.good.buffer, h.good.width⟩, h.chars, rfl, h.buffer⟩

/-- A printer whose buffer holds the old characters and the new ones behind them. -/
theorem appended_of_cells (hcells : cells.take (p.upLength + text.length) = p.chars ++ text) (hpos : 0 < cells.length)
    (hlen : p.upLength + text.length ≤ cells.length) (hfit : ∀ c ∈ p.chars ++ text, c < 2 ^ width.bits) (requests : ℕ) :
    p.Appended text p.upPend ⟨p.upLength + text.length, some cells, width, p.upPend, requests⟩ := by
  refine ⟨⟨?_, ?_⟩, hcells, rfl, .inl ?_⟩
  · intro cells' heq
    cases heq
    exact ⟨hpos, hlen, fun c hc => hfit c (by rwa [hcells] at hc)⟩
  · intro hnone
    cases hnone
  · intro hnone
    cases hnone

/-- A buffer with room for more characters. -/
structure Roomy (p : UnicodePrinter) (cells : List ℕ) (need : ℕ) (r : List ℕ × UnicodePrinter) : Prop where
  printer : r.2 = { p with requests := r.2.requests }
  pos : 0 < r.1.length
  room : need ≤ r.1.length
  take : r.1.take p.upLength = cells.take p.upLength

theorem roomy_resize {sizes : List ℕ} {r : ℕ × UnicodePrinter} (hlen : p.upLength ≤ cells.length) (hneed : 0 < n)
    (hle : p.upLength ≤ n) (hsizes : ∀ size ∈ sizes, n ≤ size) (hin : r.1 ∈ sizes)
    (hp : r.2 = { p with requests := r.2.requests }) : Roomy p cells n (resizeCells mem cells r.1, r.2) := by
  have hsize := hsizes r.1 hin
  refine ⟨hp, ?_, ?_, take_resizeCells (hle.trans hsize) hlen⟩
  · rw [length_resizeCells]
    omega
  · rwa [length_resizeCells]

theorem room_yields (hpos : 0 < cells.length) (hlen : p.upLength ≤ cells.length) (hle : p.upLength ≤ n) :
    Yields (p.room mem cells n) (Roomy p cells n) := by
  unfold UnicodePrinter.room
  split_ifs with hmore
  · have hfuel : n ≤ cells.length * 2 ^ n := (Nat.lt_two_pow_self).le.trans (Nat.le_mul_of_pos_left _ hpos)
    refine Yields.bind (doubled_yields _ _ _ hpos hfuel hmore) fun newAlloc hnew => ?_
    refine Yields.bind (grant_yields _ p) fun r hr => Yields.ok ?_
    refine roomy_resize hlen (by omega) hle ?_ hr.1 hr.2
    intro size hsize
    rcases List.mem_cons.mp hsize with rfl | hsize
    · exact hnew
    · exact (List.mem_singleton.mp hsize).ge
  · exact Yields.ok ⟨rfl, hpos, not_lt.mp hmore, rfl⟩

theorem roomChar_yields (hpos : 0 < cells.length) (hlen : p.upLength ≤ cells.length) :
    Yields (p.roomChar mem cells) (Roomy p cells (p.upLength + 1)) := by
  unfold UnicodePrinter.roomChar
  split_ifs with hfull
  · refine Yields.bind (grant_yields _ p) fun r hr => Yields.ok ?_
    refine roomy_resize hlen (Nat.succ_pos _) (Nat.le_succ _) ?_ hr.1 hr.2
    intro size hsize
    rcases List.mem_cons.mp hsize with rfl | hsize
    · omega
    · rw [List.mem_singleton.mp hsize]
      omega
  · exact Yields.ok ⟨rfl, hpos, by dsimp only; omega, rfl⟩

/-- Text that fits is written behind the other characters. -/
theorem put_yields {r : List ℕ × UnicodePrinter} (h : p.Good) (hbuffer : p.upBuffer = some cells)
    (hr : Roomy p cells (p.upLength + text.length) r) (hfit : ∀ c ∈ text, c < 2 ^ p.width.bits) :
    Yields (r.2.put r.1 text) (p.Appended text p.upPend) := by
  have hold := (h.buffer cells hbuffer).2.2
  have hchars := UnicodePrinter.chars_some hbuffer
  have hroom := hr.room
  have hpos := hr.pos
  rw [hr.printer]
  refine Yields.bind (writeCells_yields hroom hfit) fun written hw => Yields.ok ?_
  have hwritten : written.take (p.upLength + text.length) = p.chars ++ text := by rw [hw.2, hr.take, hchars]
  refine appended_of_cells hwritten (by omega) (by omega) ?_ _
  intro c hc
  rcases List.mem_append.mp hc with hc | hc
  · exact hold c (by rwa [hchars] at hc)
  · exact hfit c hc

theorem append_yields (h : p.Good) (hbuffer : p.upBuffer = some cells) (hfit : ∀ c ∈ text, c < 2 ^ p.width.bits) :
    Yields (p.append mem cells text) (p.Appended text p.upPend) := by
  obtain ⟨hpos, hlen, -⟩ := h.buffer cells hbuffer
  exact Yields.bind (room_yields hpos hlen (Nat.le_add_right _ _)) fun r hr => put_yields h hbuffer hr hfit

theorem appendChar_yields (h : p.Good) (hbuffer : p.upBuffer = some cells) (hfit : ch < 2 ^ p.width.bits) :
    Yields (p.appendChar mem cells ch) (p.Appended [ch] p.upPend) := by
  obtain ⟨hpos, hlen, -⟩ := h.buffer cells hbuffer
  refine Yields.bind (roomChar_yields hpos hlen) fun r hr => put_yields h hbuffer hr ?_
  intro c hc
  rwa [List.mem_singleton.mp hc]

/-- A wider buffer holds the same characters. -/
theorem cast_yields (h : p.Good) (hbuffer : p.upBuffer = some cells) (hwidth : p.width.bits ≤ width.bits) :
    Yields (p.cast mem cells width) fun r => r.2.Good ∧ r.2.upBuffer = some r.1 ∧ r.2.chars = p.chars ∧
      r.2.width = width ∧ r.2.upPend = p.upPend := by
  obtain ⟨hpos, hlen, hold⟩ := h.buffer cells hbuffer
  have hchars := UnicodePrinter.chars_some hbuffer
  refine Yields.bind (grant_yields _ p) fun r hr => Yields.ok ?_
  have hsize : r.1 = cells.length := List.mem_singleton.mp hr.1
  have htake : (cells.take p.upLength ++ (newCells mem r.1).drop p.upLength).take p.upLength = cells.take p.upLength :=
    List.take_left' (by rw [List.length_take, min_eq_left hlen])
  have hlength : (cells.take p.upLength ++ (newCells mem r.1).drop p.upLength).length = cells.length := by
    rw [List.length_append, List.length_take, List.length_drop, length_newCells]
    omega
  rw [hr.2]
  refine ⟨⟨?_, ?_⟩, rfl, ?_, rfl, rfl⟩
  · intro cells' heq
    cases heq
    refine ⟨hlength.symm ▸ hpos, hlength.symm ▸ hlen, fun c hc => ?_⟩
    rw [htake] at hc
    exact (hold c hc).trans_le (Nat.pow_le_pow_right (by norm_num) hwidth)
  · intro hnone
    cases hnone
  · rw [hchars, UnicodePrinter.chars_some rfl]
    exact htake

/-- A first buffer holds the first characters. -/
theorem first_yields (hbuffer : p.upBuffer = none) (hsizes : ∀ size ∈ sizes, text.length ≤ size) (htext : text ≠ [])
    (hfit : ∀ c ∈ text, c < 2 ^ width.bits) : Yields (p.first mem width sizes text) (p.Appended text p.upPend) := by
  have hpos := List.length_pos_of_ne_nil htext
  refine Yields.bind (grant_yields _ p) fun r hr => ?_
  have hsize := hsizes r.1 hr.1
  have hroom : 0 + text.length ≤ (newCells mem r.1).length := by
    rw [length_newCells, Nat.zero_add]
    exact hsize
  refine Yields.bind (writeCells_yields hroom hfit) fun written hw => Yields.ok ?_
  have hlength := hw.1
  have htake := hw.2
  rw [Nat.zero_add] at hroom htake
  rw [List.take_zero, List.nil_append] at htake
  rw [hr.2]
  refine ⟨⟨?_, ?_⟩, ?_, rfl, .inl ?_⟩
  · intro cells heq
    cases heq
    refine ⟨by omega, by dsimp only; omega, fun c hc => ?_⟩
    rw [htake] at hc
    exact hfit c hc
  · intro hnone
    cases hnone
  · rw [UnicodePrinter.chars_none hbuffer, List.nil_append, UnicodePrinter.chars_some rfl]
    exact htake
  · intro hnone
    cases hnone

/-! ### Characters and text of one width -/

theorem appended_nil (hgood : p'.Good) (hchars : p'.chars = p.chars) (hbuffer : p'.upBuffer = none → p.upBuffer = none) :
    p.Appended [] p'.upPend p' := by
  refine ⟨hgood, by rw [hchars, List.append_nil], rfl, ?_⟩
  by_cases hnone : p'.upBuffer = none
  · exact .inr ⟨rfl, hbuffer hnone⟩
  · exact .inl hnone

/-- A larger buffer with the same characters. -/
theorem appended_enlarged (h : p.Good) (hbuffer : p.upBuffer = some cells) (hwidth : p.width.bits ≤ width.bits)
    {cells' : List ℕ} (hlen : cells.length ≤ cells'.length) (htake : cells'.take p.upLength = cells.take p.upLength)
    (requests : ℕ) : p.Appended [] p.upPend ⟨p.upLength, some cells', width, p.upPend, requests⟩ := by
  obtain ⟨hpos, hroom, hold⟩ := h.buffer cells hbuffer
  refine @appended_nil p ⟨p.upLength, some cells', width, p.upPend, requests⟩ ⟨?_, ?_⟩ ?_ ?_
  · intro cells'' heq
    cases heq
    refine ⟨hpos.trans_le hlen, hroom.trans hlen, fun c hc => ?_⟩
    rw [htake] at hc
    exact (hold c hc).trans_le (Nat.pow_le_pow_right (by norm_num) hwidth)
  · intro hnone
    cases hnone
  · rw [UnicodePrinter.chars_some hbuffer]
    exact htake
  · intro hnone
    cases hnone

/-- More characters are asked for in advance. -/
theorem appended_hint (hbuffer : p.upBuffer = none) (hn : n ≠ 0) (width : StringWidth) :
    p.Appended [] p.upPend { p with upLength := n, width := width, upBuffer := none } := by
  refine ⟨⟨nofun, fun _ hlength => absurd hlength hn⟩, ?_, rfl, .inr ⟨rfl, hbuffer⟩⟩
  rw [UnicodePrinter.chars_none hbuffer]
  exact UnicodePrinter.chars_none rfl

theorem allocate_yields (h : p.Good) {n : ℕ} (w : StringWidth) (hn : p.upLength + n < 2 ^ 64) :
    Yields (p.allocate mem n w) (p.Appended [] p.upPend) := by
  unfold UnicodePrinter.allocate
  rw [Nat.mod_eq_of_lt hn]
  by_cases hzero : n = 0
  · rw [if_pos hzero]
    exact Yields.ok (appended_nil h rfl id)
  · rw [if_neg hzero]
    cases hbuffer : p.upBuffer with
    | none =>
      dsimp only
      split_ifs with hlength
      · -- no width was asked for yet
        rw [h.width hbuffer hlength, StringWidth.orFlags, if_pos (.inl rfl)]
        exact Yields.ok (appended_hint hbuffer hzero w)
      · exact Yields.ok (appended_hint hbuffer (by omega) _)
    | some cells =>
      obtain ⟨hpos, hlen, -⟩ := h.buffer cells hbuffer
      dsimp only
      split_ifs with hmore
      · refine Yields.bind (grant_yields _ p) fun r hr => ?_
        rw [hr.2]
        dsimp only
        split_ifs with hwider
        · refine Yields.ok (appended_enlarged h hbuffer hwider.le ?_ ?_ _)
          · rw [List.length_append, List.length_take, List.length_drop, length_newCells]
            omega
          · exact List.take_left' (by rw [List.length_take, min_eq_left hlen])
        · refine Yields.ok (appended_enlarged h hbuffer le_rfl ?_ (take_resizeCells (Nat.le_add_right _ _) hlen) _)
          rw [length_resizeCells]
          exact hmore.le
      · exact Yields.ok (appended_nil h rfl id)

theorem forall_mem_single (h : ch < 2 ^ 8) (width : StringWidth) : ∀ c ∈ [ch], c < 2 ^ width.bits := by
  intro c hc
  rw [List.mem_singleton.mp hc]
  exact h.trans_le (Nat.pow_le_pow_right (by norm_num) (by cases width <;> norm_num [StringWidth.bits]))

/-- The first character of a printer is put into a first buffer, any other one behind the others. -/
theorem putc8_yields (h : p.Good) (hch : ch < 2 ^ 8) (hready : p.Ready mem) :
    Yields (p.putc8 mem ch) (p.Appended [ch] p.upPend) := by
  unfold UnicodePrinter.putc8
  cases hbuffer : p.upBuffer with
  | none =>
    have hfirst : ∀ (width : StringWidth) (sizes : List ℕ), (∀ size ∈ sizes, 1 ≤ size) →
        Yields (p.first mem width sizes [ch]) (p.Appended [ch] p.upPend) := fun width sizes hsizes =>
      first_yields hbuffer hsizes (List.cons_ne_nil _ _) (forall_mem_single hch _)
    have hnormal : ∀ size ∈ [initialBufsize, 1], 1 ≤ size := by decide
    have hrefused : Yields (UnicodePrinter.first mem ⟨p.upLength, none, p.width, p.upPend, p.requests + 1⟩ .byte1
        [initialBufsize, 1] [ch]) (p.Appended [ch] p.upPend) := by
      refine (first_yields rfl hnormal (List.cons_ne_nil _ _) (forall_mem_single hch _)).mono fun p' hp' => ?_
      refine ⟨hp'.good, ?_, hp'.pend, hp'.buffer.imp id fun hnone => ⟨hnone.1, hbuffer⟩⟩
      rw [hp'.chars, UnicodePrinter.chars_none hbuffer, UnicodePrinter.chars_none rfl]
    dsimp only
    split_ifs with hlazy hgrant hwidth hwidth
    · refine hfirst p.width [p.upLength] fun size hsize => ?_
      rw [List.mem_singleton.mp hsize]
      rcases hlazy with hlong | hwide
      · exact (Nat.zero_le _).trans_lt hlong
      · exact Nat.one_le_iff_ne_zero.mpr fun hzero => hwide (h.width hbuffer hzero)
    · exact hrefused
    · exact absurd (hready hbuffer hwidth) hgrant
    · exact hfirst _ _ hnormal
    · exact absurd (.inr hwidth) hlazy
  | some cells => exact appendChar_yields h hbuffer (forall_mem_single hch _ ch List.mem_cons_self)

/-- A character is put into a buffer that was made wide enough. -/
theorem cast_appendChar_yields (h : p.Good) (hbuffer : p.upBuffer = some cells) (hwidth : p.width.bits ≤ width.bits)
    (hch : ch < 2 ^ width.bits) :
    Yields (p.cast mem cells width >>= fun r => r.2.appendChar mem r.1 ch) (p.Appended [ch] p.upPend) := by
  refine Yields.bind (cast_yields h hbuffer hwidth) fun r hr => ?_
  obtain ⟨hgood, hcells, hchars, hw, hpend⟩ := hr
  refine (appendChar_yields hgood hcells (by rwa [hw])).mono fun p' hp' => ?_
  refine ⟨hp'.good, by rw [hp'.chars, hchars], by rw [hp'.pend, hpend], .inl ?_⟩
  rcases hp'.buffer with hne | ⟨hnil, -⟩
  · exact hne
  · exact absurd hnil (List.cons_ne_nil _ _)

theorem cast_append_yields (h : p.Good) (hbuffer : p.upBuffer = some cells) (hwidth : p.width.bits ≤ width.bits)
    (hfit : ∀ c ∈ text, c < 2 ^ width.bits) :
    Yields (p.cast mem cells width >>= fun r => r.2.append mem r.1 text) (p.Appended text p.upPend) := by
  refine Yields.bind (cast_yields h hbuffer hwidth) fun r hr => ?_
  obtain ⟨hgood, hcells, hchars, hw, hpend⟩ := hr
  refine (append_yields hgood hcells (by rwa [hw])).mono fun p' hp' => ?_
  refine ⟨hp'.good, by rw [hp'.chars, hchars], by rw [hp'.pend, hpend], .inl ?_⟩
  rcases hp'.buffer with hne | ⟨-, hnone⟩
  · exact hne
  · rw [hcells] at hnone
    cases hnone

theorem putc_yields (h : p.Good) (hch : ch < 2 ^ 32) (hready : ch ≤ 0xff → p.Ready mem) :
    Yields (p.putc mem ch) (p.Appended [ch] p.upPend) := by
  have hsingle : ∀ {w : StringWidth}, ch < 2 ^ w.bits → ∀ c ∈ [ch], c < 2 ^ w.bits := by
    intro w hw c hc
    rwa [List.mem_singleton.mp hc]
  have hsizes : ∀ size ∈ [max p.upLength initialBufsize, initialBufsize, 1], [ch].length ≤ size := by
    intro size hsize
    simp only [List.mem_cons, List.not_mem_nil, or_false, initialBufsize] at hsize
    rw [List.length_singleton]
    omega
  unfold UnicodePrinter.putc
  by_cases hbyte : ch ≤ 0xff
  · rw [if_pos hbyte]
    exact putc8_yields h (Nat.lt_succ_of_le hbyte) (hready hbyte)
  · rw [if_neg hbyte]
    cases hbuffer : p.upBuffer with
    | none =>
      dsimp only
      split_ifs with hwide
      · exact first_yields hbuffer hsizes (List.cons_ne_nil _ _) (hsingle hch)
      · refine first_yields hbuffer hsizes (List.cons_ne_nil _ _) (hsingle ?_)
        rw [not_or, not_not] at hwide
        exact Nat.lt_succ_of_le hwide.2
    | some cells =>
      cases hw : p.width with
      | byte1 =>
        dsimp only
        split_ifs with hshort
        · exact cast_appendChar_yields h hbuffer (by rw [hw]; decide) (Nat.lt_succ_of_le hshort)
        · exact cast_appendChar_yields h hbuffer (by rw [hw]; decide) hch
      | byte2 =>
        dsimp only
        split_ifs with hshort
        · exact appendChar_yields h hbuffer (by rw [hw]; exact Nat.lt_succ_of_le hshort)
        · exact cast_appendChar_yields h hbuffer (by rw [hw]; decide) hch
      | byte4 => exact appendChar_yields h hbuffer (by rw [hw]; exact hch)

/-- The first text is put into a buffer of its own width. -/
theorem firstText_yields (h : p.Good) (hbuffer : p.upBuffer = none) (hfit : ∀ c ∈ text, c < 2 ^ width.bits) :
    Yields (p.firstText mem width text) (p.Appended text p.upPend) := by
  unfold UnicodePrinter.firstText
  split_ifs with hempty
  · rw [List.eq_nil_of_length_eq_zero hempty]
    exact Yields.ok (appended_nil h rfl id)
  · refine (@first_yields mem { p with width := .byte1 } width text _ hbuffer ?_ ?_ hfit).mono fun p' hp' =>
      ⟨hp'.good, hp'.chars, hp'.pend, hp'.buffer⟩
    · intro size hsize
      simp only [List.mem_cons, List.not_mem_nil, or_false] at hsize
      omega
    · intro hnil
      exact hempty (by rw [hnil]; rfl)

theorem print8_yields (h : p.Good) (hfit : ∀ c ∈ text, c < 2 ^ 8) :
    Yields (p.print8 mem text) (p.Appended text p.upPend) := by
  unfold UnicodePrinter.print8
  cases hbuffer : p.upBuffer with
  | none => exact firstText_yields h hbuffer hfit
  | some cells =>
    refine append_yields h hbuffer fun c hc => (hfit c hc).trans_le ?_
    exact Nat.pow_le_pow_right (by norm_num) (by cases p.width <;> norm_num [StringWidth.bits])

theorem print16_yields (h : p.Good) (hfit : ∀ c ∈ text, c < 2 ^ 16) :
    Yields (p.print16 mem text) (p.Appended text p.upPend) := by
  unfold UnicodePrinter.print16
  cases hbuffer : p.upBuffer with
  | none => exact firstText_yields h hbuffer hfit
  | some cells =>
    dsimp only
    cases hw : p.width with
    | byte1 =>
      dsimp only
      split_ifs with hwide
      · exact cast_append_yields h hbuffer (by rw [hw]; decide) hfit
      · refine append_yields h hbuffer fun c hc => ?_
        rw [List.any_eq_true, not_exists] at hwide
        have hsmall := fun hlt => hwide c ⟨hc, decide_eq_true hlt⟩
        rw [hw]
        exact Nat.lt_succ_of_le (not_lt.mp hsmall)
    | byte2 => exact append_yields h hbuffer (by rw [hw]; exact hfit)
    | byte4 =>
      refine append_yields h hbuffer fun c hc => (hfit c hc).trans ?_
      rw [hw]
      norm_num [StringWidth.bits]

theorem append32_yields (h : p.Good) (hbuffer : p.upBuffer = some cells) (hw : p.width = .byte2)
    (hfit : ∀ c ∈ text, c < 2 ^ 32) : Yields (p.append32 mem cells text) (p.Appended text p.upPend) := by
  unfold UnicodePrinter.append32
  split_ifs with hwide
  · exact cast_append_yields h hbuffer (by rw [hw]; decide) hfit
  · refine append_yields h hbuffer fun c hc => ?_
    rw [List.any_eq_true, not_exists] at hwide
    have hsmall := fun hlt => hwide c ⟨hc, decide_eq_true hlt⟩
    rw [hw]
    exact Nat.lt_succ_of_le (not_lt.mp hsmall)

theorem printText32_yields (h : p.Good) (hfit : ∀ c ∈ text, c < 2 ^ 32) :
    Yields (p.printText32 mem text) (p.Appended text p.upPend) := by
  unfold UnicodePrinter.printText32
  cases hbuffer : p.upBuffer with
  | none => exact firstText_yields h hbuffer hfit
  | some cells =>
    cases hw : p.width with
    | byte1 =>
      cases hfind : text.find? fun ch => 0xff < ch with
      | none =>
        refine append_yields h hbuffer fun c hc => ?_
        have hsmall := List.find?_eq_none.mp hfind c hc
        rw [decide_eq_true_iff, not_lt] at hsmall
        rw [hw]
        exact Nat.lt_succ_of_le hsmall
      | some ch =>
        dsimp only
        split_ifs with hshort
        · refine Yields.bind (cast_yields h hbuffer (by rw [hw]; decide)) fun r hr => ?_
          obtain ⟨hgood, hcells, hchars, hwidth, hpend⟩ := hr
          refine (append32_yields hgood hcells hwidth hfit).mono fun p' hp' => ?_
          refine ⟨hp'.good, by rw [hp'.chars, hchars], by rw [hp'.pend, hpend], .inl ?_⟩
          exact hp'.buffer.resolve_right fun hnone => by rw [hcells] at hnone; cases hnone.2
        · exact cast_append_yields h hbuffer (by rw [hw]; decide) hfit
    | byte2 => exact append32_yields h hbuffer hw hfit
    | byte4 => exact append_yields h hbuffer (by rw [hw]; exact hfit)

theorem print32_yields (h : p.Good) (hfit : ∀ c ∈ text, c < 2 ^ 32)
    (hready : text.length = 1 → cell text 0 ≤ 0xff → p.Ready mem) :
    Yields (p.print32 mem text) (p.Appended text p.upPend) := by
  unfold UnicodePrinter.print32
  split_ifs with hone
  · obtain ⟨ch, rfl⟩ := List.length_eq_one_iff.mp hone
    exact putc_yields h (hfit ch List.mem_cons_self) (hready hone)
  · exact printText32_yields h hfit

end Appends

/-! ### UTF-8 -/

/-- The bytes stand for the characters `chars`, and an unfinished sequence `rest` is left. -/
inductive Utf8Decodes : (bytes chars rest : List ℕ) → Prop where
  | nil : Utf8Decodes [] [] []
  | byte {b : ℕ} {bytes chars rest : List ℕ} (hb : b < 0xc0) (h : Utf8Decodes bytes chars rest) :
    Utf8Decodes (b :: bytes) (b :: chars) rest
  | sequence {seq bytes chars rest : List ℕ} (hseq : IsSequence seq) (hlen : seq.length ≤ 7)
    (h : Utf8Decodes bytes chars rest) : Utf8Decodes (seq ++ bytes) (seqChar seq :: chars) rest
  | unfinished {part : List ℕ} (hlead : 0xc0 ≤ part.headD 0) (hlen : part.length < utf8SeqLen (part.headD 0))
    (hseven : utf8SeqLen (part.headD 0) ≤ 7) : Utf8Decodes part [] part

section Utf8

variable {mem : Memory} {p p' : UnicodePrinter} {bytes cs rest seq text a b : List ℕ} {ch : ℕ}

theorem IsSequence.lead (h : IsSequence seq) : 0xc0 ≤ seq.headD 0 := by
  have hlead := h.1
  have hlen := h.2
  have htwo := h.two_le
  unfold utf8SeqLen at hlen
  split_ifs at hlen <;> omega

theorem seqChar_lt (h : 2 ≤ seq.length) : seqChar seq < 2 ^ 32 := by
  obtain ⟨lead, b, follow, rfl⟩ : ∃ lead b follow, seq = lead :: b :: follow := by
    rcases seq with _ | ⟨lead, _ | ⟨b, follow⟩⟩
    · cases h
    · rw [List.length_singleton] at h
      omega
    · exact ⟨lead, b, follow, rfl⟩
  have hmod : ∀ (l : List ℕ) (x : ℕ), x < 2 ^ 32 → l.foldl (fun ch b => (ch <<< 6 ||| (b &&& 0x3f)) % 2 ^ 32) x < 2 ^ 32 := by
    intro l
    induction l with
    | nil => intro x hx; exact hx
    | cons b l ih => intro x _; exact ih _ (Nat.mod_lt _ (by norm_num))
  exact hmod follow _ (Nat.mod_lt _ (by norm_num))

/-- In front of the first sequence, every byte is a character. -/
theorem Utf8Decodes.flush (h : Utf8Decodes bytes cs rest) :
    ∃ cs', cs = bytes.takeWhile (fun ch => ch < 0xc0) ++ cs' ∧
      Utf8Decodes (bytes.dropWhile fun ch => ch < 0xc0) cs' rest := by
  have hstop : ∀ l r : List ℕ, 0xc0 ≤ l.headD 0 → (l ++ r).takeWhile (fun ch => decide (ch < 0xc0)) = [] ∧
      (l ++ r).dropWhile (fun ch => decide (ch < 0xc0)) = l ++ r := by
    intro l r hlead
    rcases l with _ | ⟨x, l⟩
    · cases hlead
    · have hx : ¬ decide (x < 0xc0) = true := by simpa using hlead
      exact ⟨List.takeWhile_cons_of_neg hx, List.dropWhile_cons_of_neg hx⟩
  induction h with
  | nil => exact ⟨[], rfl, .nil⟩
  | byte hb h ih =>
    obtain ⟨cs', rfl, hrest⟩ := ih
    refine ⟨cs', ?_, ?_⟩
    · rw [List.takeWhile_cons, if_pos (decide_eq_true hb)]
      rfl
    · rwa [List.dropWhile_cons, if_pos (decide_eq_true hb)]
  | sequence hseq hlen h ih =>
    obtain ⟨htake, hdrop⟩ := hstop _ _ hseq.lead
    rw [htake, hdrop]
    exact ⟨_, rfl, .sequence hseq hlen h⟩
  | @unfinished part hlead hlen hseven =>
    obtain ⟨htake, hdrop⟩ := hstop part [] hlead
    rw [List.append_nil] at htake hdrop
    rw [htake, hdrop]
    exact ⟨_, rfl, .unfinished hlead hlen hseven⟩

/-- The bytes start with a sequence of a character that `putc8` writes. -/
def StartsLatin1 (bytes : List ℕ) : Prop :=
  0xc0 ≤ bytes.headD 0 ∧ utf8SeqLen (bytes.headD 0) ≤ bytes.length ∧
    (utf8Getchar bytes 0 (utf8SeqLen (bytes.headD 0))).getD 0x100 ≤ 0xff

instance : Decidable (StartsLatin1 bytes) := inferInstanceAs (Decidable (_ ∧ _))

theorem utf8Getchar_sequence (hseq : IsSequence seq) (r : List ℕ) :
    utf8Getchar (seq ++ r) 0 (utf8SeqLen ((seq ++ r).headD 0)) = some (seqChar seq) := by
  have hne : seq ≠ [] := List.ne_nil_of_length_pos (by have := hseq.two_le; omega)
  have hhead : (seq ++ r).headD 0 = seq.headD 0 := by
    rcases seq with _ | ⟨x, l⟩
    · exact absurd rfl hne
    · rfl
  rw [hhead, hseq.2]
  exact @utf8Getchar_append [] r seq hseq

theorem startsLatin1_sequence (hseq : IsSequence seq) {r : List ℕ} (hch : seqChar seq ≤ 0xff) : StartsLatin1 (seq ++ r) := by
  have hget := utf8Getchar_sequence hseq r
  have htwo := hseq.two_le
  rcases seq with _ | ⟨x, l⟩
  · exact absurd htwo (by decide)
  · refine ⟨hseq.lead, ?_, by rw [hget]; exact hch⟩
    have hlen := hseq.2
    rw [List.cons_append, List.headD_cons] at *
    rw [hlen, List.length_cons, List.length_cons, List.length_append]
    omega

theorem startsLatin1_iff : StartsLatin1 bytes ↔ ∃ seq r, bytes = seq ++ r ∧ IsSequence seq ∧ seqChar seq ≤ 0xff := by
  constructor
  · rintro ⟨hlead, hlen, hch⟩
    have hhead : (bytes.take (utf8SeqLen (bytes.headD 0))).headD 0 = bytes.headD 0 := by
      rcases bytes with _ | ⟨x, l⟩
      · rfl
      · rw [List.headD_cons] at hlead ⊢
        have hpos : 0 < utf8SeqLen x := by
          unfold utf8SeqLen
          split_ifs <;> omega
        obtain ⟨n, hn⟩ := Nat.exists_eq_succ_of_ne_zero hpos.ne'
        rw [hn, List.take_succ_cons, List.headD_cons]
    have hseq : IsSequence (bytes.take (utf8SeqLen (bytes.headD 0))) := by
      refine ⟨by rw [hhead]; omega, ?_⟩
      rw [hhead, List.length_take, min_eq_left hlen]
    have hget := utf8Getchar_sequence hseq (bytes.drop (utf8SeqLen (bytes.headD 0)))
    rw [List.take_append_drop] at hget
    rw [hget] at hch
    exact ⟨_, _, (List.take_append_drop _ _).symm, hseq, hch⟩
  · rintro ⟨seq, r, rfl, hseq, hch⟩
    exact startsLatin1_sequence hseq hch

theorem StartsLatin1.append (h : StartsLatin1 a) (b : List ℕ) : StartsLatin1 (a ++ b) := by
  obtain ⟨seq, r, rfl, hseq, hch⟩ := startsLatin1_iff.mp h
  rw [List.append_assoc]
  exact startsLatin1_sequence hseq hch

/-- The rest of the text is printed, from a character on. -/
theorem printFlush_yields : ∀ (fuel : ℕ) (p : UnicodePrinter) (text cs rest : List ℕ), p.Good → p.upPend = [] →
    Utf8Decodes text cs rest → text.length < fuel → (∀ ch ∈ text, ch < 2 ^ 8) → (StartsLatin1 text → p.Ready mem) →
      Yields (p.printFlush mem fuel text) (p.Appended cs rest) := by
  intro fuel
  induction fuel with
  | zero => intro p text cs rest _ _ _ hfuel; omega
  | succ fuel ih =>
    intro p text cs rest hgood hpend hdecodes hfuel hbytes hready
    obtain ⟨cs', rfl, hrest⟩ := hdecodes.flush
    rw [UnicodePrinter.printFlush]
    generalize hflush : text.takeWhile (fun ch => decide (ch < 0xc0)) = flush at *
    generalize hleft : text.dropWhile (fun ch => decide (ch < 0xc0)) = left at *
    have htext : flush ++ left = text := by rw [← hflush, ← hleft, List.takeWhile_append_dropWhile]
    have hprint : Yields (if flush = [] then Except.ok p else p.print8 mem flush) fun p' =>
        p.Appended flush [] p' ∧ (StartsLatin1 left → p'.Ready mem) := by
      split_ifs with hempty
      · rw [hempty] at htext ⊢
        refine Yields.ok ⟨hpend ▸ appended_nil hgood rfl id, ?_⟩
        rwa [← htext] at hready
      · refine (print8_yields hgood fun c hc => hbytes c ?_).mono fun p' hp' => ?_
        · rw [← htext]
          exact List.mem_append_left _ hc
        · exact ⟨hpend ▸ hp', fun _ => hp'.ready hempty⟩
    refine Yields.bind hprint fun p' hp' => ?_
    have hhead := List.head?_dropWhile_not (fun ch => decide (ch < 0xc0)) text
    rw [hleft] at hhead
    cases hrest with
    | nil =>
      rw [List.append_nil]
      exact Yields.ok hp'.1
    | byte hb h =>
      rw [List.head?_cons] at hhead
      exact absurd hb (of_decide_eq_false hhead)
    | @sequence seq bytes cs rest hseq hlen h =>
      have htwo := hseq.two_le
      have hget := utf8Getchar_sequence hseq bytes
      have hlow := @startsLatin1_sequence seq hseq bytes
      have hdrop : (seq ++ bytes).drop seq.length = bytes := List.drop_left
      have hsize := hseq.2
      have hlength : (seq ++ bytes).length ≤ text.length := by
        rw [← htext, @List.length_append _ flush]
        omega
      have hmem : ∀ ch ∈ bytes, ch < 2 ^ 8 := fun ch hch => hbytes ch (by
        rw [← htext]
        exact List.mem_append_right _ (List.mem_append_right _ hch))
      obtain ⟨lead, l, rfl⟩ : ∃ lead l, seq = lead :: l := List.exists_cons_of_length_pos (by omega)
      rw [List.headD_cons] at hsize
      rw [List.cons_append, List.headD_cons] at hget
      dsimp only [List.cons_append]
      rw [hget, if_neg]
      · refine Yields.bind (Yields.ok (Eq.refl (seqChar (lead :: l)))) fun ch32 hch32 => ?_
        rw [← hch32]
        refine Yields.bind (putc_yields hp'.1.good (seqChar_lt htwo) fun hch => hp'.2 (hlow hch)) fun p'' hp'' => ?_
        rw [hsize, ← List.cons_append, hdrop]
        rw [List.length_append, List.length_cons] at hlength
        refine (ih p'' bytes cs rest hp''.good (hp''.pend.trans hp'.1.pend) h (by omega) hmem fun _ =>
          hp''.ready (List.cons_ne_nil _ _)).mono fun p3 hp3 => ?_
        have hall := (hp'.1.trans hp'').trans hp3
        rwa [List.append_assoc] at hall
      · rw [hsize, List.length_cons, List.length_cons, List.length_append]
        omega
    | unfinished hlead hlen hseven =>
      obtain ⟨lead, l, rfl⟩ : ∃ lead l, rest = lead :: l := by
        rcases rest with _ | ⟨lead, l⟩
        · exact absurd hlead (by decide)
        · exact ⟨lead, l, rfl⟩
      dsimp only
      rw [List.headD_cons] at hlen
      rw [if_pos hlen, List.append_nil]
      exact Yields.ok (hp'.1.setPend _)

/-- The start of a sequence. -/
structure Unfinished (part : List ℕ) : Prop where
  lead : 0xc0 ≤ part.headD 0
  short : part.length < utf8SeqLen (part.headD 0)
  seven : utf8SeqLen (part.headD 0) ≤ 7

theorem Unfinished.ne_nil (h : Unfinished a) : a ≠ [] := by
  rintro rfl
  exact absurd h.lead (by decide)

theorem headD_append (ha : a ≠ []) : (a ++ b).headD 0 = a.headD 0 := by
  obtain ⟨x, l, rfl⟩ := List.exists_cons_of_ne_nil ha
  rfl

theorem Utf8Decodes.of_unfinished (ha : Unfinished a) (h : Utf8Decodes a cs rest) : cs = [] ∧ rest = a := by
  cases h with
  | nil => exact ⟨rfl, rfl⟩
  | byte hb h => exact absurd ha.lead (not_le.mpr hb)
  | @sequence seq bytes cs rest hseq hlen h =>
    have htwo := hseq.two_le
    have hsize := hseq.2
    have hshort := ha.short
    rw [headD_append (List.ne_nil_of_length_pos (by omega)), hsize, List.length_append] at hshort
    omega
  | unfinished hlead hlen hseven => exact ⟨rfl, rfl⟩

theorem Utf8Decodes.of_sequence (hseq : IsSequence seq) (h : Utf8Decodes (seq ++ bytes) cs rest) :
    ∃ cs', cs = seqChar seq :: cs' ∧ Utf8Decodes bytes cs' rest := by
  have htwo := hseq.two_le
  have hhead : (seq ++ bytes).headD 0 = seq.headD 0 := headD_append (List.ne_nil_of_length_pos (by omega))
  generalize htext : seq ++ bytes = text at h hhead
  cases h with
  | nil =>
    have hnil := (List.append_eq_nil_iff.mp htext).1
    rw [hnil] at htwo
    exact absurd htwo (by decide)
  | byte hb h =>
    rw [List.headD_cons] at hhead
    exact absurd hseq.lead (by rw [← hhead]; omega)
  | @sequence seq' bytes' cs rest hseq' hlen h =>
    obtain ⟨rfl, rfl⟩ := hseq'.unique hseq htext.symm
    exact ⟨_, rfl, h⟩
  | unfinished hlead hlen hseven =>
    rw [hhead, hseq.2, ← htext, List.length_append] at hlen
    omega

/-- One more byte of a sequence makes it whole, or it is still unfinished. -/
theorem pendUtf8_yields (hgood : p.Good) (hpend : Unfinished p.upPend) (hready : StartsLatin1 (p.upPend ++ [ch]) → p.Ready mem) :
    Yields (p.pendUtf8 mem ch) fun r =>
      r.2 = true ∧ IsSequence (p.upPend ++ [ch]) ∧ (p.upPend ++ [ch]).length ≤ 7 ∧
        p.Appended [seqChar (p.upPend ++ [ch])] [] r.1 ∨
      r.2 = false ∧ Unfinished (p.upPend ++ [ch]) ∧ r.1 = { p with upPend := p.upPend ++ [ch] } := by
  have hlead := hpend.lead
  have hshort := hpend.short
  have hseven := hpend.seven
  have hhead : (p.upPend ++ [ch]).headD 0 = p.upPend.headD 0 := headD_append hpend.ne_nil
  have hcell : cell (p.upPend ++ [ch]) 0 = p.upPend.headD 0 := by
    rw [← hhead]
    obtain ⟨x, l, hxl⟩ := List.exists_cons_of_ne_nil hpend.ne_nil
    rw [hxl]
    rfl
  have hlength : (p.upPend ++ [ch]).length = p.upPend.length + 1 := by rw [List.length_append, List.length_singleton]
  unfold UnicodePrinter.pendUtf8
  dsimp only
  rw [hcell, hlength, if_neg (by omega)]
  split_ifs with hwhole
  · have hseq : IsSequence (p.upPend ++ [ch]) := ⟨by rw [hhead]; omega, by rw [hhead, hlength, hwhole]⟩
    have hget := utf8Getchar_sequence hseq []
    rw [List.append_nil, hhead] at hget
    rw [hget]
    refine Yields.bind (Yields.ok (Eq.refl (seqChar (p.upPend ++ [ch])))) fun ch32 hch32 => ?_
    rw [← hch32]
    refine Yields.bind (putc_yields hgood (seqChar_lt hseq.two_le) fun hch => hready ?_) fun p' hp' => Yields.ok ?_
    · have hlow := @startsLatin1_sequence _ hseq [] hch
      rwa [List.append_nil] at hlow
    · exact .inl ⟨rfl, hseq, by omega, hp'.setPend []⟩
  · exact Yields.ok (.inr ⟨rfl, ⟨by rwa [hhead], by rw [hhead, hlength]; omega, by rwa [hhead]⟩, rfl⟩)

/-- A pending sequence is completed, or all of the text is pending. -/
theorem printPending_yields : ∀ (text : List ℕ) (p : UnicodePrinter) (cs rest : List ℕ), p.Good →
    (p.upPend = [] ∨ Unfinished p.upPend) → Utf8Decodes (p.upPend ++ text) cs rest →
    (StartsLatin1 (p.upPend ++ text) → p.Ready mem) → Yields (UnicodePrinter.printPending mem p text) fun r =>
      ∃ cs₁ cs₂, cs = cs₁ ++ cs₂ ∧ p.Appended cs₁ r.1.upPend r.1 ∧ r.2 <:+ text ∧
        (r.1.upPend = [] ∧ Utf8Decodes r.2 cs₂ rest ∧ (StartsLatin1 r.2 → r.1.Ready mem) ∨
          r.1.upPend ≠ [] ∧ r.1.upPend = rest ∧ cs₂ = []) := by
  intro text
  induction text with
  | nil =>
    intro p cs rest hgood hpend hdecodes hready
    rw [List.append_nil] at hdecodes hready
    refine Yields.ok ⟨[], cs, rfl, appended_nil hgood rfl id, List.suffix_rfl, ?_⟩
    rcases hpend with hnil | hpart
    · rw [hnil] at hdecodes hready
      exact .inl ⟨hnil, hdecodes, hready⟩
    · obtain ⟨rfl, rfl⟩ := hdecodes.of_unfinished hpart
      exact .inr ⟨hpart.ne_nil, rfl, rfl⟩
  | cons ch text ih =>
    intro p cs rest hgood hpend hdecodes hready
    unfold UnicodePrinter.printPending
    split_ifs with hnil
    · rw [hnil] at hdecodes hready
      exact Yields.ok ⟨[], cs, rfl, appended_nil hgood rfl id, List.suffix_rfl, .inl ⟨hnil, hdecodes, hready⟩⟩
    · have hpart := hpend.resolve_left hnil
      have hassoc : p.upPend ++ ch :: text = p.upPend ++ [ch] ++ text := by
        rw [List.append_assoc, List.singleton_append]
      rw [hassoc] at hdecodes hready
      refine Yields.bind (pendUtf8_yields hgood hpart fun hlow => hready (hlow.append text)) fun r hr => ?_
      obtain ⟨self, last⟩ := r
      dsimp only at hr ⊢
      rcases hr with ⟨hlast, hseq, -, happended⟩ | ⟨hmore, hunfinished, hprinter⟩
      · obtain ⟨cs', rfl, hrest⟩ := hdecodes.of_sequence hseq
        rw [if_pos hlast]
        have hpend' := happended.pend
        refine Yields.ok ⟨[seqChar (p.upPend ++ [ch])], cs', rfl, hpend' ▸ happended, List.suffix_cons _ _, ?_⟩
        exact .inl ⟨hpend', hrest, fun _ => happended.ready (List.cons_ne_nil _ _)⟩
      · rw [hmore, if_neg Bool.false_ne_true, hprinter]
        refine (ih { p with upPend := p.upPend ++ [ch] } cs rest ⟨hgood.buffer, hgood.width⟩ (.inr hunfinished) hdecodes
          hready).mono fun r hr => ?_
        obtain ⟨cs₁, cs₂, hcs, happended, hsuffix, hend⟩ := hr
        exact ⟨cs₁, cs₂, hcs, ⟨happended.good, happended.chars, happended.pend, happended.buffer⟩,
          hsuffix.trans (List.suffix_cons _ _), hend⟩

/-- `Dee_unicode_printer_print` appends the characters that the pending bytes and the text stand for. -/
theorem print_yields (hgood : p.Good) (hpend : p.upPend = [] ∨ Unfinished p.upPend)
    (hdecodes : Utf8Decodes (p.upPend ++ text) cs rest) (hbytes : ∀ ch ∈ text, ch < 2 ^ 8)
    (hready : StartsLatin1 (p.upPend ++ text) → p.Ready mem) : Yields (p.print mem text) (p.Appended cs rest) := by
  refine Yields.bind (printPending_yields text p cs rest hgood hpend hdecodes hready) fun r hr => ?_
  obtain ⟨self, left⟩ := r
  obtain ⟨cs₁, cs₂, rfl, happended, hsuffix, ⟨hnil, hrest, hready'⟩ | ⟨hne, rfl, rfl⟩⟩ := hr
  · dsimp only at *
    rw [if_neg (not_not.mpr hnil)]
    refine (printFlush_yields _ self left cs₂ rest happended.good hnil hrest (Nat.lt_succ_self _)
      (fun ch hch => hbytes ch (hsuffix.subset hch)) hready').mono fun p' hp' => happended.trans hp'
  · dsimp only at *
    rw [if_pos hne, List.append_nil]
    exact Yields.ok happended

theorem Utf8Decodes.of_nil (h : Utf8Decodes [] cs rest) : cs = [] ∧ rest = [] := by
  generalize htext : ([] : List ℕ) = text at h
  cases h with
  | nil => exact ⟨rfl, rfl⟩
  | byte hb h => cases htext
  | sequence hseq hlen h =>
    have htwo := hseq.two_le
    rw [(List.append_eq_nil_iff.mp htext.symm).1] at htwo
    exact absurd htwo (by decide)
  | unfinished hlead hlen hseven => exact ⟨htext, rfl⟩

theorem Utf8Decodes.of_lead (hlead : 0xc0 ≤ ch) (h : Utf8Decodes [ch] cs rest) : cs = [] ∧ rest = [ch] := by
  generalize htext : [ch] = text at h
  cases h with
  | nil => cases htext
  | byte hb h =>
    cases htext
    omega
  | sequence hseq hlen h =>
    have htwo := hseq.two_le
    have hlength := congrArg List.length htext
    rw [List.length_append, List.length_singleton] at hlength
    omega
  | unfinished hlead hlen hseven => exact ⟨rfl, rfl⟩

theorem pututf8_yields (hgood : p.Good) (hpend : p.upPend = [] ∨ Unfinished p.upPend) (hch : ch < 2 ^ 8)
    (hdecodes : Utf8Decodes (p.upPend ++ [ch]) cs rest)
    (hready : p.upPend = [] ∧ ch < 0xc0 ∨ StartsLatin1 (p.upPend ++ [ch]) → p.Ready mem) :
    Yields (p.pututf8 mem ch) (p.Appended cs rest) := by
  unfold UnicodePrinter.pututf8
  by_cases hnil : p.upPend = []
  · rw [if_neg (not_not.mpr hnil)]
    rw [hnil, List.nil_append] at hdecodes
    split_ifs with hlead
    · obtain ⟨rfl, rfl⟩ := hdecodes.of_lead hlead
      exact Yields.ok ((appended_nil hgood rfl id).setPend [ch])
    · have hlow : decide (ch < 0xc0) = true := decide_eq_true (not_le.mp hlead)
      obtain ⟨cs', rfl, hrest⟩ := hdecodes.flush
      rw [List.dropWhile_cons, if_pos hlow, List.dropWhile_nil] at hrest
      obtain ⟨rfl, rfl⟩ := hrest.of_nil
      rw [List.takeWhile_cons, if_pos hlow, List.takeWhile_nil, List.append_nil]
      exact hnil ▸ putc8_yields hgood hch (hready (.inl ⟨hnil, not_le.mp hlead⟩))
  · rw [if_pos hnil]
    have hpart := hpend.resolve_left hnil
    refine Yields.bind (pendUtf8_yields hgood hpart fun hlow => hready (.inr hlow)) fun r hr => Yields.ok ?_
    obtain ⟨self, last⟩ := r
    rcases hr with ⟨-, hseq, -, happended⟩ | ⟨-, hunfinished, hprinter⟩
    · rw [← List.append_nil (p.upPend ++ [ch])] at hdecodes
      obtain ⟨cs', rfl, hrest⟩ := hdecodes.of_sequence hseq
      obtain ⟨rfl, rfl⟩ := hrest.of_nil
      exact happended
    · obtain ⟨rfl, rfl⟩ := hdecodes.of_unfinished hunfinished
      dsimp only at hprinter
      rw [hprinter]
      exact (appended_nil hgood rfl id).setPend _

end Utf8

/-! ### UTF-16 -/

/-- The units stand for the characters `chars`, and an unpaired high surrogate `rest` may be left. -/
inductive Utf16Decodes : (units chars rest : List ℕ) → Prop where
  | nil : Utf16Decodes [] [] []
  | unit {u : ℕ} {units chars rest : List ℕ} (hu : ¬ IsHigh u) (h : Utf16Decodes units chars rest) :
    Utf16Decodes (u :: units) (u :: chars) rest
  | pair {u v : ℕ} {units chars rest : List ℕ} (hu : IsHigh u) (hv : IsLow v) (h : Utf16Decodes units chars rest) :
    Utf16Decodes (u :: v :: units) (pairChar u v :: chars) rest
  | unpaired {u : ℕ} (hu : IsHigh u) : Utf16Decodes [u] [] [u]

section Utf16

variable {mem : Memory} {p p' : UnicodePrinter} {units cs rest text : List ℕ} {u v ch : ℕ}

theorem pairChar_lt (hu : IsHigh u) (hv : IsLow v) : pairChar u v < 2 ^ 32 := by
  have hu' := hu.2
  have hv' := hv.2
  unfold pairChar
  omega

theorem Utf16Decodes.of_nil (h : Utf16Decodes [] cs rest) : cs = [] ∧ rest = [] := by
  cases h
  exact ⟨rfl, rfl⟩

theorem Utf16Decodes.of_unpaired (hu : IsHigh u) (h : Utf16Decodes [u] cs rest) : cs = [] ∧ rest = [u] := by
  cases h with
  | unit hu' h => exact absurd hu hu'
  | unpaired hu => exact ⟨rfl, rfl⟩

theorem Utf16Decodes.of_pair (hu : IsHigh u) (h : Utf16Decodes (u :: v :: units) cs rest) :
    IsLow v ∧ ∃ cs', cs = pairChar u v :: cs' ∧ Utf16Decodes units cs' rest := by
  cases h with
  | unit hu' h => exact absurd hu hu'
  | pair hu hv h => exact ⟨hv, _, rfl, h⟩

/-- In front of the first high surrogate, every unit is a character. -/
theorem Utf16Decodes.flush (h : Utf16Decodes units cs rest) :
    ∃ cs', cs = units.takeWhile (fun ch => ¬ IsHigh ch) ++ cs' ∧
      Utf16Decodes (units.dropWhile fun ch => ¬ IsHigh ch) cs' rest := by
  have hstop : ∀ {u : ℕ}, IsHigh u → ¬ decide (¬ IsHigh u) = true := fun hu => by simpa using hu
  induction h with
  | nil => exact ⟨[], rfl, .nil⟩
  | unit hu h ih =>
    obtain ⟨cs', rfl, hrest⟩ := ih
    refine ⟨cs', ?_, ?_⟩
    · rw [List.takeWhile_cons, if_pos (decide_eq_true hu)]
      rfl
    · rwa [List.dropWhile_cons, if_pos (decide_eq_true hu)]
  | pair hu hv h ih =>
    rw [List.takeWhile_cons, if_neg (hstop hu), List.dropWhile_cons, if_neg (hstop hu)]
    exact ⟨_, rfl, .pair hu hv h⟩
  | unpaired hu =>
    rw [List.takeWhile_cons, if_neg (hstop hu), List.dropWhile_cons, if_neg (hstop hu)]
    exact ⟨_, rfl, .unpaired hu⟩

/-- The rest of the text is printed, from a character on. -/
theorem printFlush16_yields : ∀ (fuel : ℕ) (p : UnicodePrinter) (text cs rest : List ℕ), p.Good → p.upPend = [] →
    Utf16Decodes text cs rest → text.length < fuel → (∀ ch ∈ text, ch < 2 ^ 16) →
      Yields (p.printFlush16 mem fuel text) (p.Appended cs rest) := by
  intro fuel
  induction fuel with
  | zero => intro p text cs rest _ _ _ hfuel; omega
  | succ fuel ih =>
    intro p text cs rest hgood hpend hdecodes hfuel hunits
    obtain ⟨cs', rfl, hrest⟩ := hdecodes.flush
    rw [UnicodePrinter.printFlush16]
    generalize hflush : text.takeWhile (fun ch => decide (¬ IsHigh ch)) = flush at *
    generalize hleft : text.dropWhile (fun ch => decide (¬ IsHigh ch)) = left at *
    have htext : flush ++ left = text := by rw [← hflush, ← hleft, List.takeWhile_append_dropWhile]
    have hprint : Yields (if flush = [] then Except.ok p else p.print16 mem flush) (p.Appended flush []) := by
      split_ifs with hempty
      · rw [hempty]
        exact Yields.ok (hpend ▸ appended_nil hgood rfl id)
      · refine hpend ▸ print16_yields hgood fun c hc => hunits c ?_
        rw [← htext]
        exact List.mem_append_left _ hc
    refine Yields.bind hprint fun p' hp' => ?_
    have hhead := List.head?_dropWhile_not (fun ch => decide (¬ IsHigh ch)) text
    rw [hleft] at hhead
    cases hrest with
    | nil =>
      rw [List.append_nil]
      exact Yields.ok hp'
    | unit hu h =>
      rw [List.head?_cons] at hhead
      exact absurd hu (of_decide_eq_false hhead)
    | @pair u v units cs rest hu hv h =>
      have hgt := pairChar_gt u v
      refine Yields.bind (putc_yields hp'.good (pairChar_lt hu hv) fun hch => absurd hch (by omega)) fun p'' hp'' => ?_
      have hlength : text.length = flush.length + (units.length + 2) := by
        rw [← htext, List.length_append, List.length_cons, List.length_cons]
      refine (ih p'' units cs rest hp''.good (hp''.pend.trans hp'.pend) h (by omega) fun ch hch => hunits ch ?_).mono
        fun p3 hp3 => ?_
      · rw [← htext]
        exact List.mem_append_right _ (List.mem_cons_of_mem _ (List.mem_cons_of_mem _ hch))
      · have hall := (hp'.trans hp'').trans hp3
        rwa [List.append_assoc] at hall
    | unpaired hu =>
      rw [List.append_nil]
      exact Yields.ok (hp'.setPend _)

/-- `Dee_unicode_printer_printutf16` appends the characters that a pending unit and the text stand for. -/
theorem printutf16_yields (hgood : p.Good) (hpend : p.upPend = [] ∨ ∃ u, p.upPend = [u] ∧ IsHigh u)
    (hdecodes : Utf16Decodes (p.upPend ++ text) cs rest) (hunits : ∀ ch ∈ text, ch < 2 ^ 16) :
    Yields (p.printutf16 mem text) (p.Appended cs rest) := by
  unfold UnicodePrinter.printutf16
  rcases hpend with hnil | ⟨u, hpend, hu⟩
  · rw [if_neg (not_not.mpr hnil)]
    rw [hnil] at hdecodes
    exact printFlush16_yields _ p text cs rest hgood hnil hdecodes (Nat.lt_succ_self _) hunits
  · rw [if_pos (by rw [hpend]; exact List.cons_ne_nil _ _)]
    rw [hpend] at hdecodes ⊢
    cases text with
    | nil =>
      obtain ⟨rfl, rfl⟩ := hdecodes.of_unpaired hu
      exact Yields.ok (hpend ▸ appended_nil hgood rfl id)
    | cons v text =>
      obtain ⟨hv, cs', rfl, hrest⟩ := hdecodes.of_pair hu
      have hgt := pairChar_gt u v
      have hcell : cell [u] 0 = u := rfl
      dsimp only
      rw [hcell]
      refine Yields.bind (putc_yields hgood (pairChar_lt hu hv) fun hch => absurd hch (by omega)) fun p' hp' => ?_
      exact (printFlush16_yields _ { p' with upPend := [] } text cs' rest ⟨hp'.good.buffer, hp'.good.width⟩ rfl hrest
        (Nat.lt_succ_self _) fun ch hch => hunits ch (List.mem_cons_of_mem _ hch)).mono fun p'' hp'' =>
          (hp'.setPend []).trans hp''

theorem pututf16_yields (hgood : p.Good) (hpend : p.upPend = [] ∨ ∃ u, p.upPend = [u] ∧ IsHigh u) (hch : ch < 2 ^ 16)
    (hdecodes : Utf16Decodes (p.upPend ++ [ch]) cs rest) (hready : p.upPend = [] ∧ ch ≤ 0xff → p.Ready mem) :
    Yields (p.pututf16 mem ch) (p.Appended cs rest) := by
  unfold UnicodePrinter.pututf16
  rcases hpend with hnil | ⟨u, hpend, hu⟩
  · rw [if_neg (not_not.mpr hnil)]
    rw [hnil] at hdecodes
    split_ifs with hhigh
    · obtain ⟨rfl, rfl⟩ := hdecodes.of_unpaired hhigh
      exact Yields.ok ((appended_nil hgood rfl id).setPend _)
    · cases hdecodes with
      | unit hu h =>
        obtain ⟨rfl, rfl⟩ := h.of_nil
        exact hnil ▸ putc_yields hgood (hch.trans (by norm_num)) fun hlow => hready ⟨hnil, hlow⟩
      | unpaired hu => exact absurd hu hhigh
  · rw [if_pos (by rw [hpend]; exact List.cons_ne_nil _ _)]
    rw [hpend] at hdecodes ⊢
    obtain ⟨hv, cs', rfl, hrest⟩ := hdecodes.of_pair hu
    obtain ⟨rfl, rfl⟩ := hrest.of_nil
    have hgt := pairChar_gt u ch
    have hcell : cell [u] 0 = u := rfl
    rw [hcell]
    have hputc := @putc_yields mem { p with upPend := [] } (pairChar u ch) ⟨hgood.buffer, hgood.width⟩
      (pairChar_lt hu hv) fun hlow => absurd hlow (by omega)
    exact hputc.mono fun p' hp' => ⟨hp'.good, hp'.chars, hp'.pend, hp'.buffer⟩

end Utf16

end Deemon.Unicode
