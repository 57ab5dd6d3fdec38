import Deemon.Unicode.Utf8

/-!
# The data of a scanner

`cscanf.c` scans the UTF-8 of a string or the bytes of a bytes object. `si_datend` ends the data; the memory goes on
behind it, with the terminating zero for a string and with whatever the view is cut out of for bytes. `At data rest` says
that `data` points in front of the characters `rest`, so that what the scanner does is stated about characters.
-/

namespace Deemon.Unicode

open Deemon.Run

/-- `ss_data`: its characters, and the memory behind them. -/
structure ScanData where
  isBytes : Bool
  chars : List ℕ
  behind : List ℕ
  small : ∀ ch ∈ chars, ch < if isBytes then 2 ^ 8 else 2 ^ 32
  terminated : isBytes = false → behind.head? = some 0

namespace ScanData

/-- The bytes that hold some characters. -/
def encode (S : ScanData) (chars : List ℕ) : List ℕ := if S.isBytes then chars else utf8 chars

def memory (S : ScanData) : List ℕ := S.encode S.chars ++ S.behind

/-- `si_datend`. -/
def dataEnd (S : ScanData) : ℕ := (S.encode S.chars).length

/-- Where the `k`-th character is. -/
def pos (S : ScanData) (k : ℕ) : ℕ := (S.encode (S.chars.take k)).length

/-- `is_bytes ? (uint32_t)(uint8_t)*data++ : Dee_unicode_readutf8_n(&data, data_end)`. -/
def readChar (S : ScanData) (data : ℕ) : Option (ℕ × ℕ) :=
  if S.isBytes then do some (← rd S.memory data, data + 1) else readUtf8N S.memory data S.dataEnd

/-- `data` points in front of the characters `rest`. -/
def At (S : ScanData) (data : ℕ) (rest : List ℕ) : Prop := ∃ seen, S.chars = seen ++ rest ∧ data = (S.encode seen).length

variable {S : ScanData} {data ch : ℕ} {l r rest : List ℕ}

theorem encode_append : S.encode (l ++ r) = S.encode l ++ S.encode r := by
  unfold encode
  split_ifs
  · rfl
  · exact utf8_append l r

theorem length_encode_cons : (S.encode (ch :: rest)).length = (S.encode [ch]).length + (S.encode rest).length := by
  rw [← List.singleton_append, encode_append, List.length_append]

theorem length_encode_singleton_pos : 0 < (S.encode [ch]).length := by
  unfold encode
  split_ifs
  · exact Nat.one_pos
  · rw [utf8_singleton]
    exact List.length_pos_of_ne_nil writeUtf8_ne_nil

theorem encode_ascii (hch : ch < 0x80) : S.encode [ch] = [ch] := by
  unfold encode
  split_ifs
  · rfl
  · exact utf8_singleton.trans (if_pos hch)

theorem length_encode_ascii (hch : ch < 0x80) : (S.encode [ch]).length = 1 := by
  rw [encode_ascii hch, List.length_singleton]

theorem length_le_encode : rest.length ≤ (S.encode rest).length := by
  induction rest with
  | nil => exact Nat.zero_le _
  | cons ch rest ih =>
    have hpos := @length_encode_singleton_pos S ch
    rw [length_encode_cons, List.length_cons]
    omega

/-- Two suffixes of the data that start at the same place are as long as each other. -/
theorem length_eq_of_encode (hsuffix : l <:+ r) (h : (S.encode l).length = (S.encode r).length) : l.length = r.length := by
  obtain ⟨seen, rfl⟩ := hsuffix
  have hseen := @length_le_encode S seen
  rw [encode_append, List.length_append] at h
  rw [List.length_append]
  omega

theorem at_pos (k : ℕ) : S.At (S.pos k) (S.chars.drop k) := ⟨S.chars.take k, (List.take_append_drop k S.chars).symm, rfl⟩

theorem At.eq (h : S.At data rest) : data + (S.encode rest).length = S.dataEnd := by
  obtain ⟨seen, hchars, rfl⟩ := h
  rw [dataEnd, hchars, encode_append, List.length_append]

theorem At.suffix (h : S.At data rest) : rest <:+ S.chars := by
  obtain ⟨seen, hchars, -⟩ := h
  exact ⟨seen, hchars.symm⟩

theorem At.end_of_nil (h : S.At data []) : data = S.dataEnd := by
  have heq := h.eq
  unfold encode at heq
  split_ifs at heq <;> exact heq

theorem At.lt (h : S.At data (ch :: rest)) : data < S.dataEnd := by
  have heq := h.eq
  have hpos := @length_encode_singleton_pos S ch
  rw [length_encode_cons] at heq
  omega

theorem At.next (h : S.At data (ch :: rest)) : S.At (data + (S.encode [ch]).length) rest := by
  obtain ⟨seen, hchars, rfl⟩ := h
  exact ⟨seen ++ [ch], by rw [hchars, List.append_assoc, List.singleton_append], by rw [encode_append, List.length_append]⟩

/-- One character further on, behind a character of one byte. -/
theorem At.succ (h : S.At data (ch :: rest)) (hch : ch < 0x80) : S.At (data + 1) rest := by
  have hnext := h.next
  rwa [length_encode_ascii hch] at hnext

/-- Where a suffix of the data starts is settled by the suffix. -/
theorem At.unique {data' : ℕ} (h : S.At data rest) (h' : S.At data' rest) : data = data' := by
  have heq := h.eq
  have heq' := h'.eq
  omega

theorem At.cell_memory (h : S.At data (ch :: rest)) {i : ℕ} (hi : i < (S.encode [ch]).length) :
    cell S.memory (data + i) = cell (S.encode [ch]) i := by
  obtain ⟨seen, hchars, rfl⟩ := h
  unfold cell memory
  rw [hchars, ← List.singleton_append, encode_append, encode_append, List.append_assoc, List.append_assoc,
    List.getD_append_right _ _ _ _ (Nat.le_add_right _ i), Nat.add_sub_cancel_left, List.getD_append _ _ _ _ hi]

theorem dataEnd_le : S.dataEnd ≤ S.memory.length := by
  rw [memory, List.length_append]
  exact Nat.le_add_right _ _

/-- What the byte at `data` says about the character there. -/
theorem At.peek (h : S.At data (ch :: rest)) :
    ∃ b, rd S.memory data = some b ∧ (b = ch ∨ 0x80 ≤ b ∧ 0x80 ≤ ch) := by
  have hlt := h.lt
  have hle := @dataEnd_le S
  refine ⟨cell S.memory data, rd_of_lt (hlt.trans_le hle), ?_⟩
  have hcell := h.cell_memory (@length_encode_singleton_pos S ch)
  rw [Nat.add_zero] at hcell
  rw [hcell]
  have hsmall := S.small ch (h.suffix.subset (List.mem_cons_self ..))
  by_cases hascii : ch < 0x80
  · rw [encode_ascii hascii]
    exact .inl rfl
  · unfold encode
    split_ifs with hbytes
    · exact .inl rfl
    · rw [if_neg hbytes] at hsmall
      obtain ⟨lead, n, hwrite, -, -, hlead⟩ := writeUtf8_eq (Nat.le_of_not_lt hascii) hsmall
      have hge := hlead.ge
      rw [utf8_singleton, hwrite]
      exact .inr ⟨show 0x80 ≤ lead by omega, Nat.le_of_not_lt hascii⟩

/-- The character at `data` is read. -/
theorem At.readChar (h : S.At data (ch :: rest)) : S.readChar data = some (ch, data + (S.encode [ch]).length) := by
  have hlt := h.lt
  have hle := @dataEnd_le S
  have hsmall := S.small ch (h.suffix.subset (List.mem_cons_self ..))
  have hbehind := h.next.eq
  have hcells := fun i hi => h.cell_memory (i := i) hi
  unfold ScanData.readChar
  split_ifs with hbytes
  · have hcell := h.cell_memory (@length_encode_singleton_pos S ch)
    have hencode : S.encode [ch] = [ch] := if_pos hbytes
    rw [hencode, Nat.add_zero] at hcell
    rw [rd_of_lt (hlt.trans_le hle), hcell, hencode]
    rfl
  · have hencode : S.encode [ch] = writeUtf8 ch := by rw [encode, if_neg hbytes, utf8_singleton]
    rw [hencode] at hbehind hcells ⊢
    rw [if_neg hbytes] at hsmall
    exact readUtf8N_writeUtf8 hsmall (by omega) hle hcells

/-- The byte behind the data of a string. -/
theorem rd_dataEnd : rd S.memory S.dataEnd = S.behind.head? := by
  unfold rd cell memory dataEnd
  rw [List.length_append, List.getD_append_right _ _ _ _ le_rfl, Nat.sub_self]
  cases S.behind with
  | nil => exact if_neg (lt_irrefl _)
  | cons b behind => exact if_pos (Nat.lt_add_of_pos_right (Nat.succ_pos _))

end ScanData

end Deemon.Unicode
