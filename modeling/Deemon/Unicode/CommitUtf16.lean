import Deemon.Unicode.PrinterRuns

/-!
# UTF-16 buffers of a printer

`Dee_unicode_printer_alloc_utf16` gives a buffer for UTF-16 units, which the caller fills before
`Dee_unicode_printer_commit_utf16` makes them characters. In a printer of 2-byte characters the buffer is the rest of
the printer's own one, and surrogates are dealt with in place; in other printers the units are printed.
-/

namespace Deemon.Unicode

open Deemon.Run

/-! ### The code -/

/-- What `Dee_unicode_printer_alloc_utf16` returns: a position in the buffer of the printer, or other memory. -/
inductive Utf16Buffer where
  | inline (pos : ℕ)
  | heap (units : List ℕ)

/-- The end of `Dee_unicode_printer_tryalloc_utf16` for the printer's own buffer: a pending unit comes first. -/
def UnicodePrinter.reserveUtf16 (self : UnicodePrinter) (cells : List ℕ) (pos length : ℕ) :
    Except Fault (Utf16Buffer × UnicodePrinter) := do
  let cells ← writeCells .byte2 cells pos self.upPend
  .ok (.inline (pos + self.upPend.length), { self with
    upLength := pos + length
    upBuffer := some cells
    width := .byte2 })

/-- `Dee_unicode_printer_tryalloc_utf16`. -/
def UnicodePrinter.allocUtf16 (mem : Memory) (self : UnicodePrinter) (length : ℕ) :
    Except Fault (Utf16Buffer × UnicodePrinter) :=
  let withPending := if self.upPend ≠ [] then length + 1 else length
  match self.upBuffer with
  | none => do
    let initialAlloc := max (max withPending initialBufsize) self.upLength
    let (size, self) ← UnicodePrinter.grant { self with width := .byte1 } mem [initialAlloc, withPending]
    self.reserveUtf16 (newCells mem size) 0 withPending
  | some cells =>
    if self.width = .byte2 then do
      let (cells, self) ← self.room mem cells (self.upLength + withPending)
      self.reserveUtf16 cells self.upLength withPending
    else do
      let (_, self) ← self.grant mem [length + 1]
      .ok (.heap [], self)

/-- The caller writes units to the buffer. -/
def UnicodePrinter.fill (self : UnicodePrinter) (units : List ℕ) :
    Utf16Buffer → Except Fault (Utf16Buffer × UnicodePrinter)
  | .inline pos => do
    let cells ← writeCells .byte2 (self.upBuffer.getD []) pos units
    .ok (.inline pos, { self with upBuffer := some cells })
  | .heap _ => .ok (.heap units, self)

/-- The variables of the loop that counts the characters of the 32-bit string. -/
structure CountState where
  cells : List ℕ
  iter : ℕ
  count : ℕ
  resultLength : ℕ
  upPend : List ℕ

/-- The loop from `check_low_surrogate`, behind the high surrogate `ch`. -/
def checkLowSurrogate (ch : ℕ) (s : CountState) : Option (Step CountState CountState) :=
  let s := { s with resultLength := s.resultLength - 1 }
  if s.count = 0 then some (.done { s with upPend := [ch] })
  else do
    let low ← rd s.cells s.iter
    let iter := s.iter + 1
    let count := s.count - 1
    if IsLow low then some (.next { s with
        iter := iter
        count := count })
    else do
      let cells ← wr s.cells (iter - 2) (chr '?')
      let cells ← memmovedown cells (iter - 1) iter count
      some (.next { s with
        cells := cells
        iter := iter
        count := count })

/-- A round of the loop. -/
def countRound (s : CountState) : Option (Step CountState CountState) :=
  if s.count = 0 then some (.done s)
  else do
    let ch ← rd s.cells s.iter
    let s := { s with
      iter := s.iter + 1
      count := s.count - 1 }
    if IsHigh ch then checkLowSurrogate ch s else some (.next s)

/-- The loop, which starts at `check_low_surrogate`. -/
def countUtf32 (ch : ℕ) (s : CountState) : Option CountState := do
  match ← checkLowSurrogate ch s with
  | .done s => some s
  | .next s => loop countRound (s.count + 1) s

/-- The loop that decodes `count` units from `iter` on. -/
def decodeUtf32 (cells : List ℕ) : (fuel iter count : ℕ) → Option (List ℕ)
  | 0, _, _ => none
  | fuel + 1, iter, count =>
    if count = 0 then some []
    else do
      let high ← rd cells iter
      if ¬ IsHigh high then do
        let rest ← decodeUtf32 cells fuel (iter + 1) (count - 1)
        some (high :: rest)
      else do
        -- `ASSERT(i < utf16_length)`
        assert (count ≠ 1)
        let low ← rd cells (iter + 1)
        let rest ← decodeUtf32 cells fuel (iter + 2) (count - 2)
        some (pairChar high low :: rest)

/-- The part of `Dee_unicode_printer_commit_utf16` that makes a 32-bit string, from the first high surrogate on. -/
def UnicodePrinter.upcastUtf16 (mem : Memory) (self : UnicodePrinter) (cells : List ℕ) (start length : ℕ) :
    Except Fault UnicodePrinter := do
  let s ← orBroken (countUtf32 (cell cells start) ⟨cells, start + 1, length - 1, start + length + 1, []⟩)
  let (_, self) ← self.grant mem [s.resultLength]
  let chars ← orBroken (decodeUtf32 s.cells (length + 1) start length)
  -- `ASSERT(dst == w32_string + result_length)`
  if start + chars.length ≠ s.resultLength then .error .broken
  else .ok { self with
    upLength := s.resultLength
    upBuffer := some (cells.take start ++ chars)
    width := .byte4
    upPend := s.upPend }

/-- The part of `Dee_unicode_printer_commit_utf16` for `confirm_length` units in the printer's own buffer. -/
def UnicodePrinter.commitInline (mem : Memory) (self : UnicodePrinter) (cells : List ℕ) (pos confirmLength : ℕ) :
    Except Fault UnicodePrinter :=
  let units := (cells.drop pos).take confirmLength
  match units.findIdx? fun ch => IsHigh ch with
  | none => .ok { self with upLength := pos + confirmLength }
  | some i =>
    if i + 1 = confirmLength then .ok { self with
      upLength := pos + confirmLength
      upPend := [cell units i] }
    else self.upcastUtf16 mem cells (pos + i) (confirmLength - i)

/-- `Dee_unicode_printer_commit_utf16`. -/
def UnicodePrinter.commitUtf16 (mem : Memory) (self : UnicodePrinter) (finalLength : ℕ) :
    Utf16Buffer → Except Fault UnicodePrinter
  | .inline buf => UnicodePrinter.commitInline mem { self with upPend := [] } (self.upBuffer.getD [])
      (buf - self.upPend.length) (finalLength + self.upPend.length)
  | .heap units => self.printutf16 mem (units.take finalLength)

/-- A buffer is allocated, filled and committed. -/
def UnicodePrinter.commitUnits (mem : Memory) (self : UnicodePrinter) (length : ℕ) (units : List ℕ) :
    Except Fault UnicodePrinter := do
  let (buf, self) ← self.allocUtf16 mem length
  let (buf, self) ← self.fill units buf
  self.commitUtf16 mem units.length buf

/-! ### Counting and decoding -/

section Upcast

variable {mem : Memory} {p : UnicodePrinter} {W A B cs rest : List ℕ} {u v n : ℕ}

/-- Every high surrogate takes one more unit than it gives characters. -/
theorem Utf16Decodes.length_eq (h : Utf16Decodes W cs rest) :
    W.length = cs.length + W.countP (fun ch => IsHigh ch) := by
  induction h with
  | nil => rfl
  | unit hu h ih =>
    rw [List.length_cons, List.length_cons, List.countP_cons_of_neg (by simpa using hu)]
    omega
  | pair hu hv h ih =>
    have hv' := not_isHigh_of_isLow hv
    rw [List.length_cons, List.length_cons, List.length_cons, List.countP_cons_of_pos (by simpa using hu),
      List.countP_cons_of_neg (by simpa using hv')]
    omega
  | unpaired hu =>
    rw [List.countP_cons_of_pos (by simpa using hu)]
    rfl

theorem checkLowSurrogate_eq (hv : IsLow v) :
    checkLowSurrogate u ⟨A ++ v :: (W ++ B), A.length, W.length + 1, n, []⟩ =
      some (.next ⟨A ++ v :: (W ++ B), A.length + 1, W.length, n - 1, []⟩) := by
  unfold checkLowSurrogate
  dsimp only
  rw [if_neg (Nat.succ_ne_zero _), rd_append_cons, some_bind, if_pos hv]
  rfl

/-- The loop leaves the units as they are, and takes the high surrogates off the length. -/
theorem countRound_loop (h : Utf16Decodes W cs rest) : ∀ (fuel : ℕ) (A : List ℕ) (n : ℕ), W.length < fuel →
    loop countRound fuel ⟨A ++ (W ++ B), A.length, W.length, n, []⟩ =
      some ⟨A ++ (W ++ B), A.length + W.length, 0, n - W.countP (fun ch => IsHigh ch), rest⟩ := by
  induction h with
  | nil =>
    intro fuel A n hfuel
    obtain ⟨fuel, rfl⟩ := Nat.exists_eq_succ_of_ne_zero (Nat.ne_zero_of_lt hfuel)
    rfl
  | @unit u units cs rest hu h ih =>
    intro fuel A n hfuel
    obtain ⟨fuel, rfl⟩ := Nat.exists_eq_succ_of_ne_zero (Nat.ne_zero_of_lt hfuel)
    rw [List.length_cons] at hfuel
    have hassoc : A ++ (u :: units ++ B) = A ++ [u] ++ (units ++ B) := by rw [List.append_assoc]; rfl
    have hround : countRound ⟨A ++ (u :: units ++ B), A.length, (u :: units).length, n, []⟩ =
        some (.next ⟨A ++ [u] ++ (units ++ B), (A ++ [u]).length, units.length, n, []⟩) := by
      unfold countRound
      dsimp only
      rw [List.length_cons, if_neg (Nat.succ_ne_zero _), List.cons_append, rd_append_cons, some_bind, if_neg hu,
        ← List.cons_append, hassoc, List.length_append]
      rfl
    rw [loop, hround, some_bind]
    dsimp only
    rw [ih fuel (A ++ [u]) n (by omega), hassoc, List.countP_cons_of_neg (by simpa using hu)]
    congr 2
    rw [List.length_append, List.length_singleton, List.length_cons]
    omega
  | @pair u v units cs rest hu hv h ih =>
    intro fuel A n hfuel
    obtain ⟨fuel, rfl⟩ := Nat.exists_eq_succ_of_ne_zero (Nat.ne_zero_of_lt hfuel)
    rw [List.length_cons, List.length_cons] at hfuel
    have hassoc : A ++ (u :: v :: units ++ B) = A ++ [u] ++ v :: (units ++ B) := by rw [List.append_assoc]; rfl
    have hround : countRound ⟨A ++ (u :: v :: units ++ B), A.length, (u :: v :: units).length, n, []⟩ =
        some (.next ⟨A ++ [u] ++ v :: (units ++ B), (A ++ [u]).length + 1, units.length, n - 1, []⟩) := by
      have hcheck := @checkLowSurrogate_eq units (A ++ [u]) B u v n hv
      unfold countRound
      dsimp only
      rw [List.length_cons, if_neg (Nat.succ_ne_zero _), List.cons_append, rd_append_cons, some_bind, if_pos hu,
        ← List.cons_append, hassoc]
      rw [List.length_append, List.length_singleton] at hcheck ⊢
      exact hcheck
    have hassoc' : A ++ [u] ++ v :: (units ++ B) = A ++ [u, v] ++ (units ++ B) := by
      rw [List.append_assoc, List.append_assoc]
      rfl
    have hlength : (A ++ [u]).length + 1 = (A ++ [u, v]).length := by
      rw [List.length_append, List.length_append]
      rfl
    have hv' := not_isHigh_of_isLow hv
    rw [loop, hround, some_bind]
    dsimp only
    rw [hassoc', hlength, ih fuel (A ++ [u, v]) (n - 1) (by omega), hassoc, hassoc',
      List.countP_cons_of_pos (by simpa using hu), List.countP_cons_of_neg (by simpa using hv')]
    congr 2
    · rw [List.length_append, List.length_cons, List.length_cons, List.length_cons, List.length_cons, List.length_nil]
      omega
    · omega
  | @unpaired u hu =>
    intro fuel A n hfuel
    obtain ⟨fuel, rfl⟩ := Nat.exists_eq_succ_of_ne_zero (Nat.ne_zero_of_lt hfuel)
    have hround : countRound ⟨A ++ ([u] ++ B), A.length, [u].length, n, []⟩ =
        some (.done ⟨A ++ ([u] ++ B), A.length + 1, 0, n - 1, [u]⟩) := by
      unfold countRound
      dsimp only
      rw [List.length_singleton, if_neg Nat.one_ne_zero, List.singleton_append, rd_append_cons, some_bind, if_pos hu]
      rfl
    rw [loop, hround, some_bind, List.countP_cons_of_pos (by simpa using hu)]
    rfl

/-- The decoding loop gives the characters, and reads too far when the last unit is a high surrogate. -/
theorem decodeUtf32_eq (h : Utf16Decodes W cs rest) : ∀ (fuel : ℕ) (A : List ℕ), W.length < fuel →
    decodeUtf32 (A ++ (W ++ B)) fuel A.length W.length = if rest = [] then some cs else none := by
  induction h with
  | nil =>
    intro fuel A hfuel
    obtain ⟨fuel, rfl⟩ := Nat.exists_eq_succ_of_ne_zero (Nat.ne_zero_of_lt hfuel)
    rfl
  | @unit u units cs rest hu h ih =>
    intro fuel A hfuel
    obtain ⟨fuel, rfl⟩ := Nat.exists_eq_succ_of_ne_zero (Nat.ne_zero_of_lt hfuel)
    rw [List.length_cons] at hfuel
    have hrest := ih fuel (A ++ [u]) (by omega)
    rw [List.append_assoc, List.length_append, List.length_singleton, List.singleton_append] at hrest
    rw [decodeUtf32, List.length_cons, if_neg (Nat.succ_ne_zero _), List.cons_append, rd_append_cons, some_bind,
      if_pos hu, Nat.add_sub_cancel, hrest]
    split_ifs <;> rfl
  | @pair u v units cs rest hu hv h ih =>
    intro fuel A hfuel
    obtain ⟨fuel, rfl⟩ := Nat.exists_eq_succ_of_ne_zero (Nat.ne_zero_of_lt hfuel)
    rw [List.length_cons, List.length_cons] at hfuel
    have hrest := ih fuel (A ++ [u, v]) (by omega)
    have hlow := @rd_append_cons (A ++ [u]) (units ++ B) v
    rw [List.append_assoc, List.length_append, List.length_singleton, List.singleton_append] at hlow
    rw [List.append_assoc, List.length_append] at hrest
    rw [decodeUtf32, List.length_cons, List.length_cons, if_neg (Nat.succ_ne_zero _), List.cons_append,
      List.cons_append, rd_append_cons, some_bind, if_neg (not_not.mpr hu), assert_of (by omega), some_bind, hlow,
      some_bind]
    show (decodeUtf32 (A ++ ([u, v] ++ (units ++ B))) fuel (A.length + [u, v].length) units.length >>= fun rest =>
      some (pairChar u v :: rest)) = _
    rw [hrest]
    split_ifs <;> rfl
  | @unpaired u hu =>
    intro fuel A hfuel
    obtain ⟨fuel, rfl⟩ := Nat.exists_eq_succ_of_ne_zero (Nat.ne_zero_of_lt hfuel)
    rw [decodeUtf32, List.length_singleton, if_neg Nat.one_ne_zero, List.singleton_append, rd_append_cons, some_bind,
      if_neg (not_not.mpr hu), if_neg (List.cons_ne_nil _ _), assert, if_neg (not_not.mpr rfl)]
    rfl

theorem countUtf32_eq (hu : IsHigh u) (hv : IsLow v) (h : Utf16Decodes W cs rest) :
    countUtf32 u ⟨A ++ (u :: v :: W ++ B), A.length + 1, W.length + 1, n, []⟩ =
      some ⟨A ++ (u :: v :: W ++ B), A.length + (W.length + 2), 0,
        n - (u :: v :: W).countP (fun ch => IsHigh ch), rest⟩ := by
  have hcheck := @checkLowSurrogate_eq W (A ++ [u]) B u v n hv
  have hloop := countRound_loop (B := B) h (W.length + 1) (A ++ [u, v]) (n - 1) (Nat.lt_succ_self _)
  have hv' := not_isHigh_of_isLow hv
  rw [List.append_assoc, List.length_append, List.length_singleton, List.singleton_append] at hcheck
  rw [List.append_assoc, List.length_append, List.length_cons, List.length_singleton] at hloop
  rw [countUtf32, List.cons_append, List.cons_append, hcheck, some_bind]
  dsimp only
  refine hloop.trans ?_
  rw [List.countP_cons_of_pos (by simpa using hu), List.countP_cons_of_neg (by simpa using hv')]
  congr 2
  · omega
  · omega

/-- The part that makes a 32-bit string never succeeds: it asks for one character more than it writes. -/
theorem upcastUtf16_ne_ok (hu : IsHigh u) (hv : IsLow v) (h : Utf16Decodes (u :: v :: W) cs rest)
    (p' : UnicodePrinter) :
    p.upcastUtf16 mem (A ++ (u :: v :: W ++ B)) A.length (u :: v :: W).length ≠ .ok p' := by
  have hlength := h.length_eq
  have hdecode := @decodeUtf32_eq _ B _ rest h ((u :: v :: W).length + 1) A (Nat.lt_succ_self _)
  obtain ⟨-, cs', rfl, hW⟩ := h.of_pair hu
  have hcell : cell (A ++ (u :: v :: W ++ B)) A.length = u := by rw [List.cons_append, cell_append_cons]
  have hcount := @countUtf32_eq W A B cs' rest u v (A.length + (u :: v :: W).length + 1) hu hv hW
  intro hok
  rw [UnicodePrinter.upcastUtf16, hcell] at hok
  rw [show (u :: v :: W).length - 1 = W.length + 1 from rfl, hcount] at hok
  obtain ⟨s, hs, hok⟩ := ok_of_bind hok
  cases hs
  obtain ⟨r, -, hok⟩ := ok_of_bind hok
  rw [hdecode] at hok
  obtain ⟨chars, hchars, hok⟩ := ok_of_bind hok
  split_ifs at hchars hok with hrest hne
  · cases hchars
    refine hne ?_
    dsimp only
    omega
  · cases hchars

end Upcast

/-! ### Filling the buffer -/

section Fill

variable {mem : Memory} {p p' : UnicodePrinter} {A B cells units cs rest text : List ℕ} {u n : ℕ}

theorem writeCells_append {width : StringWidth} (hroom : text.length ≤ B.length)
    (hfit : ∀ c ∈ text, c < 2 ^ width.bits) :
    writeCells width (A ++ B) A.length text = .ok (A ++ (text ++ B.drop text.length)) := by
  rw [writeCells, if_pos (by rw [List.length_append]; omega), map_cast hfit, List.take_left, List.drop_append,
    List.drop_of_length_le (by omega), List.nil_append, Nat.add_sub_cancel_left, List.append_assoc]

/-- A printer whose own buffer has the pending unit and room for `n` more units. -/
structure Reserved (p : UnicodePrinter) (A : List ℕ) (n : ℕ) (r : Utf16Buffer × UnicodePrinter) : Prop where
  pos : r.1 = .inline (A.length + p.upPend.length)
  width : r.2.width = .byte2
  pend : r.2.upPend = p.upPend
  cells : ∃ B, r.2.upBuffer = some (A ++ (p.upPend ++ B)) ∧ n ≤ B.length

theorem reserveUtf16_yields (hpend : p'.upPend = p.upPend) (hroom : p.upPend.length + n ≤ B.length)
    (hfit : ∀ c ∈ p.upPend, c < 2 ^ 16) (length : ℕ) :
    Yields (p'.reserveUtf16 (A ++ B) A.length length) (Reserved p A n) := by
  rw [UnicodePrinter.reserveUtf16, hpend, writeCells_append (by omega) hfit]
  refine Yields.ok ⟨rfl, rfl, rfl, B.drop p.upPend.length, rfl, ?_⟩
  rw [List.length_drop]
  omega

/-- Unless the units are printed later, the buffer is the rest of the printer's own one. -/
theorem allocUtf16_yields (hgood : p.Good) (hpend : p.upPend = [] ∨ ∃ u, p.upPend = [u] ∧ IsHigh u)
    (hplace : p.upBuffer = none ∨ p.width = .byte2) : Yields (p.allocUtf16 mem n) (Reserved p p.chars n) := by
  have hfit : ∀ c ∈ p.upPend, c < 2 ^ 16 := by
    intro c hc
    rcases hpend with hnil | ⟨u, hpend, hu⟩
    · rw [hnil] at hc
      cases hc
    · rw [hpend] at hc
      rw [List.mem_singleton.mp hc]
      exact hu.2.trans_lt (by norm_num)
  have hlength : (if p.upPend ≠ [] then n + 1 else n) = p.upPend.length + n := by
    rcases hpend with hnil | ⟨u, hpend, -⟩
    · rw [hnil, if_neg (not_not.mpr rfl), List.length_nil, Nat.zero_add]
    · rw [hpend, if_pos (List.cons_ne_nil _ _), List.length_singleton, Nat.add_comm]
  unfold UnicodePrinter.allocUtf16
  dsimp only
  rw [hlength]
  cases hbuffer : p.upBuffer with
  | none =>
    refine Yields.bind (grant_yields _ _) fun r hr => ?_
    have hsize : p.upPend.length + n ≤ r.1 := by
      have hin := hr.1
      rw [List.mem_pair] at hin
      omega
    have hroom : p.upPend.length + n ≤ (newCells mem r.1).length := by rwa [length_newCells]
    rw [UnicodePrinter.chars_none hbuffer]
    exact reserveUtf16_yields (A := []) (by rw [hr.2]) hroom hfit _
  | some cells =>
    obtain ⟨hpos, hlen, -⟩ := hgood.buffer cells hbuffer
    have hwidth : p.width = .byte2 := hplace.resolve_left (by rw [hbuffer]; exact Option.some_ne_none _)
    have hchars := UnicodePrinter.chars_some hbuffer
    have hcount : p.chars.length = p.upLength := by rw [hchars, List.length_take, min_eq_left hlen]
    dsimp only
    rw [if_pos hwidth]
    refine Yields.bind (room_yields hpos hlen (Nat.le_add_right _ _)) fun r hr => ?_
    have hsplit : r.1 = p.chars ++ r.1.drop p.upLength := by
      rw [hchars, ← hr.take, List.take_append_drop]
    have hroom : p.upPend.length + n ≤ (r.1.drop p.upLength).length := by
      have hneed := hr.room
      rw [List.length_drop]
      omega
    have hstart : r.2.upLength = p.chars.length := by rw [hr.printer, hcount]
    rw [hsplit, hstart]
    exact reserveUtf16_yields (by rw [hr.printer]) hroom hfit _

/-- The caller has filled the buffer. -/
structure Filled (p : UnicodePrinter) (units : List ℕ) (r : Utf16Buffer × UnicodePrinter) : Prop where
  pos : r.1 = .inline (p.chars.length + p.upPend.length)
  width : r.2.width = .byte2
  pend : r.2.upPend = p.upPend
  cells : ∃ B, r.2.upBuffer = some (p.chars ++ (p.upPend ++ units ++ B))

theorem fill_yields {r : Utf16Buffer × UnicodePrinter} (hr : Reserved p p.chars n r)
    (hunits : ∀ c ∈ units, c < 2 ^ 16) (hlength : units.length ≤ n) : Yields (r.2.fill units r.1) (Filled p units) := by
  obtain ⟨B, hcells, hroom⟩ := hr.cells
  have hwrite := @writeCells_append (p.chars ++ p.upPend) B units .byte2 (hlength.trans hroom) hunits
  rw [List.append_assoc, List.length_append] at hwrite
  rw [hr.pos, UnicodePrinter.fill, hcells, Option.getD_some, hwrite]
  refine Yields.ok ⟨rfl, hr.width, hr.pend, B.drop units.length, ?_⟩
  rw [List.append_assoc, List.append_assoc]

end Fill

/-! ### Committing -/

section Commit

variable {mem : Memory} {p p1 : UnicodePrinter} {r : Utf16Buffer × UnicodePrinter}
  {A B ahead text units cs rest : List ℕ} {u v n : ℕ}

/-- The units are all characters if there is no high surrogate among them. -/
theorem Utf16Decodes.of_plain (h : Utf16Decodes units cs rest) (hplain : ∀ u ∈ units, ¬ IsHigh u) :
    cs = units ∧ rest = [] := by
  induction h with
  | nil => exact ⟨rfl, rfl⟩
  | unit hu h ih =>
    obtain ⟨rfl, rfl⟩ := ih fun u hu => hplain u (List.mem_cons_of_mem _ hu)
    exact ⟨rfl, rfl⟩
  | pair hu hv h ih => exact absurd hu (hplain _ List.mem_cons_self)
  | unpaired hu => exact absurd hu (hplain _ List.mem_cons_self)

/-- In front of the first high surrogate, if there is one, every unit is a character. -/
theorem Utf16Decodes.firstHigh (h : Utf16Decodes units cs rest) : (∀ u ∈ units, ¬ IsHigh u) ∨
    (∃ ahead u, units = ahead ++ [u] ∧ (∀ c ∈ ahead, ¬ IsHigh c) ∧ IsHigh u ∧ cs = ahead) ∨
    ∃ ahead u v text cs', units = ahead ++ u :: v :: text ∧ (∀ c ∈ ahead, ¬ IsHigh c) ∧ IsHigh u ∧ IsLow v ∧
      Utf16Decodes (u :: v :: text) cs' rest := by
  induction h with
  | nil => exact .inl fun u hu => by cases hu
  | @unit u units cs rest hu h ih =>
    have hcons : ∀ {ahead : List ℕ}, (∀ c ∈ ahead, ¬ IsHigh c) → ∀ c ∈ u :: ahead, ¬ IsHigh c := by
      intro ahead hahead
      exact List.forall_mem_cons.mpr ⟨hu, hahead⟩
    rcases ih with hplain | ⟨ahead, u', rfl, hahead, hu', rfl⟩ | ⟨ahead, u', v, text, cs', rfl, hahead, hu', hv, h'⟩
    · exact .inl (hcons hplain)
    · exact .inr (.inl ⟨u :: _, u', rfl, hcons hahead, hu', rfl⟩)
    · exact .inr (.inr ⟨u :: ahead, u', v, text, cs', rfl, hcons hahead, hu', hv, h'⟩)
  | pair hu hv h ih => exact .inr (.inr ⟨[], _, _, _, _, rfl, by simp, hu, hv, .pair hu hv h⟩)
  | unpaired hu => exact .inr (.inl ⟨[], _, rfl, by simp, hu, rfl⟩)

theorem findIdx?_ahead (hahead : ∀ c ∈ ahead, ¬ IsHigh c) (hu : IsHigh u) :
    (ahead ++ u :: text).findIdx? (fun ch => IsHigh ch) = some ahead.length := by
  induction ahead with
  | nil => rw [List.nil_append, List.findIdx?_cons, if_pos (decide_eq_true hu), List.length_nil]
  | cons c ahead ih =>
    have hc := hahead c List.mem_cons_self
    rw [List.cons_append, List.findIdx?_cons, if_neg (by simpa using hc),
      ih fun c hc => hahead c (List.mem_cons_of_mem _ hc), Option.map_some, List.length_cons]

/-- What is committed is the pending unit with the units of the caller. -/
theorem Filled.commitUtf16_eq (hr : Filled p units r) :
    ∃ B, r.2.upBuffer = some (p.chars ++ (p.upPend ++ units ++ B)) ∧ r.2.commitUtf16 mem units.length r.1 =
      UnicodePrinter.commitInline mem { r.2 with upPend := [] } (p.chars ++ (p.upPend ++ units ++ B))
        p.chars.length (p.upPend ++ units).length := by
  obtain ⟨B, hB⟩ := hr.cells
  refine ⟨B, hB, ?_⟩
  rw [hr.pos, UnicodePrinter.commitUtf16, hr.pend, hB, Option.getD_some, Nat.add_sub_cancel, List.length_append,
    Nat.add_comm units.length, ← hB]

theorem commitInline_plain (hplain : ∀ c ∈ units, ¬ IsHigh c) :
    p.commitInline mem (A ++ (units ++ B)) A.length units.length =
      .ok { p with upLength := A.length + units.length } := by
  have hnone : units.findIdx? (fun ch => IsHigh ch) = none := by
    rw [List.findIdx?_eq_none_iff]
    intro c hc
    exact decide_eq_false (hplain c hc)
  rw [UnicodePrinter.commitInline, List.drop_left, List.take_left, hnone]

/-- A high surrogate at the end becomes pending, and is counted among the characters as well. -/
theorem commitInline_unpaired (hahead : ∀ c ∈ ahead, ¬ IsHigh c) (hu : IsHigh u) :
    p.commitInline mem (A ++ (ahead ++ [u] ++ B)) A.length (ahead ++ [u]).length =
      .ok { p with
        upLength := A.length + (ahead ++ [u]).length
        upPend := [u] } := by
  rw [UnicodePrinter.commitInline, List.drop_left, List.take_left, findIdx?_ahead hahead hu]
  dsimp only
  rw [if_pos (by rw [List.length_append, List.length_singleton]), cell_append_cons]

theorem commitInline_pair (hahead : ∀ c ∈ ahead, ¬ IsHigh c) (hu : IsHigh u) :
    p.commitInline mem (A ++ (ahead ++ u :: v :: text ++ B)) A.length (ahead ++ u :: v :: text).length =
      p.upcastUtf16 mem (A ++ ahead ++ (u :: v :: text ++ B)) (A ++ ahead).length (u :: v :: text).length := by
  rw [UnicodePrinter.commitInline, List.drop_left, List.take_left, findIdx?_ahead hahead hu]
  dsimp only
  rw [if_neg, List.length_append, List.length_append, Nat.add_sub_cancel_left, List.append_assoc, List.append_assoc]
  rw [List.length_append, List.length_cons, List.length_cons]
  omega

/-- The units become characters exactly when there is no high surrogate among them. -/
theorem Filled.commitUtf16_iff (hr : Filled p units r) (h : Utf16Decodes (p.upPend ++ units) cs rest) :
    (∃ p1, r.2.commitUtf16 mem units.length r.1 = .ok p1 ∧ p1.chars = p.chars ++ cs ∧ p1.upPend = rest) ↔
      ∀ c ∈ p.upPend ++ units, ¬ IsHigh c := by
  obtain ⟨B, hB, hcommit⟩ := @Filled.commitUtf16_eq mem p r units hr
  rw [hcommit]
  generalize p.upPend ++ units = W at *
  refine ⟨?_, fun hplain => ?_⟩
  · rintro ⟨p1, hok, hchars, hpend⟩
    rcases h.firstHigh with hplain | ⟨ahead, u, rfl, hahead, hu, rfl⟩ |
      ⟨ahead, u, v, text, cs', rfl, hahead, hu, hv, h'⟩
    · exact hplain
    · rw [commitInline_unpaired hahead hu] at hok
      cases hok
      exfalso
      have hlength := congrArg List.length hchars
      rw [UnicodePrinter.chars, hB, Option.getD_some, List.length_take] at hlength
      simp only [List.length_append, List.length_singleton] at hlength
      omega
    · rw [commitInline_pair hahead hu] at hok
      exact absurd hok (upcastUtf16_ne_ok hu hv h' p1)
  · obtain ⟨rfl, rfl⟩ := h.of_plain hplain
    refine ⟨_, commitInline_plain hplain, ?_, rfl⟩
    rw [UnicodePrinter.chars, hB, Option.getD_some, ← List.append_assoc, ← List.length_append, List.take_left]

/-- A step that does not break anything succeeds when memory is granted. -/
theorem Yields.exists_ok {α : Type} {r : Except Fault α} {P : α → Prop} (h : Yields r P)
    (hmemory : r ≠ .error .noMemory) : ∃ a, r = .ok a ∧ P a := by
  cases r with
  | ok a => exact ⟨a, rfl, h.2 a rfl⟩
  | error fault =>
    cases fault with
    | noMemory => exact absurd rfl hmemory
    | broken => exact absurd rfl h.1

/-- Other memory is filled, and printed when it is committed. -/
theorem commitUnits_heap (hgood : p.Good) (hpend : p.upPend = [] ∨ ∃ u, p.upPend = [u] ∧ IsHigh u)
    (hdecodes : Utf16Decodes (p.upPend ++ units) cs rest) (hunits : ∀ ch ∈ units, ch < 2 ^ 16)
    (hbuffer : p.upBuffer ≠ none) (hwidth : p.width ≠ .byte2) :
    Yields (p.commitUnits mem n units) fun p1 => p1.chars = p.chars ++ cs ∧ p1.upPend = rest := by
  have halloc : Yields (p.allocUtf16 mem n) fun r => r.1 = .heap [] ∧ r.2 = { p with requests := r.2.requests } := by
    obtain ⟨cells, hcells⟩ := Option.ne_none_iff_exists'.mp hbuffer
    unfold UnicodePrinter.allocUtf16
    rw [hcells]
    dsimp only
    rw [if_neg hwidth]
    exact Yields.bind (grant_yields _ p) fun r hr => Yields.ok ⟨rfl, hcells ▸ hr.2⟩
  refine Yields.bind halloc fun r hr => ?_
  dsimp only
  rw [hr.1, UnicodePrinter.fill]
  show Yields (r.2.commitUtf16 mem units.length (.heap units)) _
  rw [UnicodePrinter.commitUtf16, List.take_length, hr.2]
  have hgood' : UnicodePrinter.Good { p with requests := r.2.requests } := ⟨hgood.buffer, hgood.width⟩
  exact (printutf16_yields hgood' hpend hdecodes hunits).mono fun p1 hp1 => ⟨hp1.chars, hp1.pend⟩

end Commit

end Deemon.Unicode