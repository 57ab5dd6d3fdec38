import Deemon.Unicode.PrinterAppends

/-!
# The bytes printer

`Dee_bytes_printer` collects the bytes of a Bytes object in a buffer that grows. Only the operations that take raw bytes
are here, not those that decode UTF-8. A request for memory stands for all that is tried for one size, which ends with
`Dee_CollectMemory`.
-/

namespace Deemon.Unicode

open Deemon.Run

/-- `struct Dee_bytes_printer`, with the cells of the buffer and the number of requests for memory that were answered. -/
structure BytesPrinter where
  bpLength : ℕ
  bpBytes : Option (List ℕ)
  requests : ℕ
  deriving DecidableEq

/-- `Dee_bytes_printer_init`. -/
def BytesPrinter.init : BytesPrinter := ⟨0, none, 0⟩

/-- `alloc_size`, and then the smallest size that will do. -/
def allocSizes (allocSize minAlloc : ℕ) : List ℕ := if allocSize ≠ minAlloc then [allocSize, minAlloc] else [minAlloc]

/-- `Dee_bytes_printer_append`. -/
def BytesPrinter.append (mem : Memory) (self : BytesPrinter) (data : List ℕ) : Except Fault BytesPrinter :=
  match self.bpBytes with
  | none =>
    if data.length = 0 then .ok self
    else do
      -- doubled until the bytes fit
      let allocSize ← (if 8 < data.length then doubled data.length 8 data.length else .ok 8)
      let (size, requests) ← grantSize mem self.requests (allocSizes allocSize data.length)
      let cells ← writeCells .byte1 (newCells mem size) 0 data
      .ok ⟨data.length, some cells, requests⟩
  | some cells =>
    -- `ASSERT(alloc_size >= self->bp_length)`
    if cells.length < self.bpLength then .error .broken
    else if cells.length - self.bpLength < data.length then do
      let minAlloc := self.bpLength + data.length
      let (size, requests) ← grantSize mem self.requests (allocSizes ((minAlloc + 63) / 64 * 64) minAlloc)
      let cells ← writeCells .byte1 (resizeCells mem cells size) self.bpLength data
      .ok ⟨minAlloc, some cells, requests⟩
    else do
      let cells ← writeCells .byte1 cells self.bpLength data
      .ok ⟨self.bpLength + data.length, some cells, self.requests⟩

/-- `Dee_bytes_printer_pack`: the bytes of the object. -/
def BytesPrinter.pack (mem : Memory) (self : BytesPrinter) : List ℕ :=
  match self.bpBytes with
  | none => []
  | some cells =>
    if self.bpLength ≠ cells.length then
      -- the object gets its final length also when it cannot be resized
      let cells := if mem.grants self.requests then resizeCells mem cells self.bpLength else cells
      cells.take self.bpLength
    else cells

/-! ### Appending -/

/-- The bytes of a printer. -/
def BytesPrinter.data (self : BytesPrinter) : List ℕ := (self.bpBytes.getD []).take self.bpLength

/-- The state of a bytes printer between operations. -/
def BytesPrinter.Good (p : BytesPrinter) : Prop := ∀ cells, p.bpBytes = some cells → p.bpLength ≤ cells.length

section BytesPrinter

variable {mem : Memory} {p : BytesPrinter} {data cells : List ℕ} {n : ℕ}

theorem le_of_mem_allocSizes {allocSize minAlloc size : ℕ} (hle : minAlloc ≤ allocSize)
    (h : size ∈ allocSizes allocSize minAlloc) : minAlloc ≤ size := by
  unfold allocSizes at h
  split_ifs at h with hne
  · rcases List.mem_pair.mp h with rfl | rfl
    · exact hle
    · exact le_rfl
  · exact (List.mem_singleton.mp h).ge

/-- A buffer with the bytes of a printer and others behind them. -/
theorem writeBytes_yields (hroom : n + data.length ≤ cells.length) (hdata : ∀ b ∈ data, b < 2 ^ 8) (requests : ℕ) :
    Yields (writeCells .byte1 cells n data >>= fun cells => .ok (BytesPrinter.mk (n + data.length) (some cells) requests))
      fun p' => p'.Good ∧ p'.data = cells.take n ++ data := by
  refine Yields.bind (writeCells_yields hroom hdata) fun written hw => Yields.ok ⟨?_, hw.2⟩
  intro cells' heq
  cases heq
  rw [hw.1]
  exact hroom

theorem BytesPrinter.append_yields (hgood : p.Good) (hdata : ∀ b ∈ data, b < 2 ^ 8) :
    Yields (p.append mem data) fun p' => p'.Good ∧ p'.data = p.data ++ data := by
  unfold BytesPrinter.append
  cases hbytes : p.bpBytes with
  | none =>
    have hnone : p.data = [] := by rw [BytesPrinter.data, hbytes, Option.getD_none, List.take_nil]
    dsimp only
    by_cases hempty : data.length = 0
    · rw [if_pos hempty, List.eq_nil_of_length_eq_zero hempty, List.append_nil]
      exact Yields.ok ⟨hgood, rfl⟩
    · have halloc : Yields (if 8 < data.length then doubled data.length 8 data.length else .ok 8) fun n =>
          data.length ≤ n := by
        split_ifs with hlong
        · have hfuel := (Nat.lt_two_pow_self (n := data.length)).le
          exact doubled_yields _ _ _ (by norm_num) (by omega) hlong
        · exact Yields.ok (not_lt.mp hlong)
      rw [if_neg hempty, hnone, List.nil_append]
      refine Yields.bind halloc fun allocSize hle => Yields.bind (grantSize_yields _ _) fun r hr => ?_
      have hsize := le_of_mem_allocSizes hle hr
      have hwrite := @writeBytes_yields data (newCells mem r.1) 0 (by rw [length_newCells, Nat.zero_add]; exact hsize)
        hdata r.2
      rwa [Nat.zero_add, List.take_zero, List.nil_append] at hwrite
  | some cells =>
    have hle := hgood cells hbytes
    have hsome : p.data = cells.take p.bpLength := by rw [BytesPrinter.data, hbytes, Option.getD_some]
    dsimp only
    rw [if_neg (not_lt.mpr hle), hsome]
    split_ifs with hmore
    · refine Yields.bind (grantSize_yields _ _) fun r hr => ?_
      have hsize := le_of_mem_allocSizes (by omega) hr
      have hwrite := @writeBytes_yields data (resizeCells mem cells r.1) p.bpLength
        (by rw [length_resizeCells]; exact hsize) hdata r.2
      rwa [take_resizeCells (by omega) hle] at hwrite
    · exact writeBytes_yields (by omega) hdata _

/-- The object has the bytes of the printer, whether the buffer can be resized or not. -/
theorem BytesPrinter.pack_eq (hgood : p.Good) : p.pack mem = p.data := by
  unfold BytesPrinter.pack BytesPrinter.data
  cases hbytes : p.bpBytes with
  | none => rw [Option.getD_none, List.take_nil]
  | some cells =>
    have hle := hgood cells hbytes
    dsimp only
    rw [Option.getD_some]
    split_ifs with hne hgrant
    · exact take_resizeCells le_rfl hle
    · rfl
    · rw [not_not.mp hne, List.take_length]

end BytesPrinter

end Deemon.Unicode
