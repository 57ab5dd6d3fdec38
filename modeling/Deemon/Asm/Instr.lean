import Deemon.Lib.Run

/-!
# Instructions

The text of a code object is a list of bytes. An instruction is an opcode, `ASM_EXTENDED1` before the opcodes of the
second table, with its operands behind it, and may follow prefixes that name an operand.
-/

namespace Deemon.Asm

open Deemon.Run

/-! ### Opcodes -/

abbrev asmEndCatch : ℕ := 0x06
abbrev asmEndFinally : ℕ := 0x07
abbrev asmDelop : ℕ := 0x8f
abbrev asmExtended1 : ℕ := 0xf0
abbrev asmPrefixMin : ℕ := 0xf8

/-- `ASM_ISPREFIX`. -/
def asmIsPrefix (opcode : ℕ) : Bool := asmPrefixMin ≤ opcode

/-- `instrlen_0x00`: the lengths of the instructions, 0 for the extended ones. -/
def instrlen0x00 : List ℕ := [
  1, 1, 1, 1, 1, 1, 1, 1, 3, 2, 1, 2, 3, 2, 2, 2, 2, 3, 2, 3, 2, 3, 2, 3, 1, 3, 2, 2, 1, 2, 2, 2,
  1, 2, 2, 1, 2, 1, 2, 2, 1, 2, 1, 1, 3, 2, 2, 2, 1, 1, 1, 1, 1, 1, 2, 2, 2, 2, 1, 1, 3, 2, 2, 2,
  1, 1, 2, 2, 1, 1, 2, 1, 2, 1, 1, 1, 1, 1, 1, 1, 1, 1, 1, 1, 1, 1, 1, 1, 1, 1, 2, 2, 2, 2, 2, 2,
  1, 1, 1, 1, 1, 1, 2, 3, 4, 2, 3, 4, 1, 1, 3, 4, 1, 1, 1, 1, 1, 1, 1, 1, 1, 1, 1, 1, 1, 1, 1, 1,
  1, 2, 5, 2, 5, 2, 2, 2, 2, 2, 5, 5, 5, 1, 1, 1, 1, 1, 1, 1, 1, 1, 1, 1, 1, 1, 1, 1, 1, 1, 1, 1,
  1, 2, 2, 2, 3, 1, 1, 1, 1, 2, 2, 2, 1, 1, 1, 1, 1, 2, 1, 3, 2, 1, 1, 3, 2, 1, 1, 1, 1, 1, 3, 3,
  3, 3, 5, 1, 1, 1, 1, 3, 3, 3, 3, 5, 1, 1, 4, 3, 2, 1, 3, 2, 3, 2, 3, 3, 3, 3, 3, 3, 3, 4, 3, 3,
  1, 1, 1, 1, 1, 1, 1, 1, 1, 1, 1, 1, 1, 1, 1, 1, 0, 1, 1, 1, 1, 1, 1, 1, 1, 1, 2, 1, 3, 2, 2, 2]

/-- `instrlen_0xf0`: the lengths of the extended instructions. -/
def instrlen0xf0 : List ℕ := [
  2, 2, 2, 2, 2, 2, 3, 3, 5, 4, 2, 4, 6, 2, 4, 4, 3, 4, 3, 4, 6, 2, 3, 4, 2, 5, 4, 3, 3, 4, 4, 4,
  2, 4, 4, 2, 4, 2, 4, 4, 2, 4, 2, 2, 6, 4, 4, 4, 2, 2, 2, 2, 2, 2, 4, 4, 4, 4, 2, 2, 6, 4, 4, 4,
  2, 2, 4, 4, 2, 2, 4, 2, 2, 2, 2, 2, 2, 2, 2, 2, 2, 2, 3, 3, 2, 2, 2, 2, 2, 2, 4, 4, 4, 4, 4, 4,
  2, 2, 4, 4, 4, 2, 4, 6, 8, 4, 6, 7, 2, 2, 5, 6, 4, 6, 5, 7, 2, 2, 2, 2, 2, 2, 2, 2, 2, 2, 2, 2,
  2, 2, 2, 2, 2, 2, 2, 2, 2, 2, 2, 2, 2, 2, 2, 2, 2, 2, 2, 2, 2, 2, 2, 2, 2, 2, 3, 4, 2, 2, 2, 2,
  2, 4, 4, 4, 6, 2, 3, 2, 2, 4, 4, 4, 3, 3, 2, 2, 2, 3, 2, 3, 4, 2, 2, 2, 4, 2, 2, 2, 2, 2, 3, 4,
  3, 4, 3, 4, 3, 4, 3, 4, 3, 4, 3, 4, 3, 4, 7, 6, 2, 2, 5, 4, 5, 4, 5, 5, 6, 6, 6, 6, 6, 7, 5, 5,
  2, 2, 2, 2, 2, 2, 2, 2, 2, 2, 2, 2, 2, 2, 2, 2, 2, 2, 2, 2, 2, 2, 2, 2, 2, 2, 4, 2, 6, 4, 4, 4]

/-! ### The next instruction -/

/-- The opcode at `pc` in its own table, and the number of bytes up to what follows its operands. -/
def opcodeAt (text : List ℕ) (pc : ℕ) : Option (ℕ × ℕ) := do
  let opcode ← rd text pc
  if cell instrlen0x00 opcode = 0 then
    let opcode ← rd text (pc + 1)
    assert (2 ≤ cell instrlen0xf0 opcode)
    some (opcode, cell instrlen0xf0 opcode)
  else some (opcode, cell instrlen0x00 opcode)

/-- A prefix belongs to the instruction behind it. -/
def nextInstrStep (text : List ℕ) (pc : ℕ) : Option (Step ℕ ℕ) := do
  let (opcode, length) ← opcodeAt text pc
  some (if asmIsPrefix opcode then .next (pc + length) else .done (pc + length))

/-- `DeeAsm_NextInstr`. -/
def deeAsmNextInstr (text : List ℕ) (pc : ℕ) : Option ℕ := loop (nextInstrStep text) (text.length + 1) pc

/-- `while (n--) pc = DeeAsm_NextInstr(pc);`. -/
def nextInstrs (text : List ℕ) : ℕ → ℕ → Option ℕ
  | 0, pc => some pc
  | n + 1, pc => deeAsmNextInstr text pc >>= nextInstrs text n

section Walk

variable {text text' : List ℕ} {pc q n : ℕ}

theorem rd_eq_some {l : List ℕ} {i v : ℕ} (h : rd l i = some v) : i < l.length ∧ cell l i = v := by
  unfold rd at h
  split at h
  · exact ⟨‹_›, Option.some.inj h⟩
  · cases h

theorem opcodeAt_pos {r : ℕ × ℕ} (h : opcodeAt text pc = some r) :
    0 < r.2 ∧ pc < text.length ∧ (cell instrlen0x00 (cell text pc) = 0 → 2 ≤ r.2) := by
  unfold opcodeAt at h
  obtain ⟨opcode, hop, h⟩ := of_bind h
  obtain ⟨hlt, rfl⟩ := rd_eq_some hop
  split at h
  · rename_i hext
    obtain ⟨opcode', -, h⟩ := of_bind h
    obtain ⟨u, hassert, h⟩ := of_bind h
    obtain rfl := Option.some.inj h
    have hle : 2 ≤ cell instrlen0xf0 opcode' := by
      unfold Run.assert at hassert
      split at hassert
      · assumption
      · cases hassert
    exact ⟨Nat.lt_of_lt_of_le Nat.zero_lt_two hle, hlt, fun _ => hle⟩
  · rename_i hext
    obtain rfl := Option.some.inj h
    exact ⟨Nat.pos_of_ne_zero hext, hlt, fun hzero => absurd hzero hext⟩

/-- What follows an instruction depends on the bytes of the instruction only. -/
theorem opcodeAt_congr {r : ℕ × ℕ} (h : opcodeAt text pc = some r) (hlen : text'.length = text.length)
    (hcell : ∀ j, pc ≤ j → j < pc + r.2 → cell text' j = cell text j) : opcodeAt text' pc = some r := by
  obtain ⟨hpos, hlt, hext⟩ := opcodeAt_pos h
  have hfirst : rd text' pc = rd text pc := by
    rw [rd_of_lt hlt, rd_of_lt (by omega), hcell pc le_rfl (by omega)]
  unfold opcodeAt at h ⊢
  rw [hfirst]
  rw [rd_of_lt hlt, some_bind] at h ⊢
  by_cases hzero : cell instrlen0x00 (cell text pc) = 0
  · rw [if_pos hzero] at h ⊢
    have hle := hext hzero
    obtain ⟨opcode, hop, -⟩ := of_bind h
    have hsecond : rd text' (pc + 1) = rd text (pc + 1) := by
      rw [rd_of_lt (rd_eq_some hop).1, rd_of_lt (by have := (rd_eq_some hop).1; omega),
        hcell (pc + 1) (by omega) (by omega)]
    rwa [hsecond]
  · rwa [if_neg hzero] at h ⊢

theorem nextInstr_loop {fuel : ℕ} (h : loop (nextInstrStep text) fuel pc = some q) :
    pc < q ∧ (text'.length = text.length → (∀ j, pc ≤ j → j < q → cell text' j = cell text j) →
      loop (nextInstrStep text') fuel pc = some q) := by
  induction fuel generalizing pc with
  | zero => cases h
  | succ fuel ih =>
    obtain ⟨step, hstep, hrest⟩ := of_bind h
    obtain ⟨⟨opcode, length⟩, hop, hkind⟩ := of_bind hstep
    have hpos := (opcodeAt_pos hop).1
    dsimp only at hkind hpos
    have hstep' : length ≤ q - pc → text'.length = text.length →
        (∀ j, pc ≤ j → j < q → cell text' j = cell text j) → nextInstrStep text' pc = some step := by
      intro hle hlen hcell
      unfold nextInstrStep
      rw [opcodeAt_congr hop hlen fun j hlo hhi => hcell j hlo (by dsimp only at hhi; omega), some_bind]
      exact hkind
    by_cases hprefix : asmIsPrefix opcode = true
    · rw [if_pos hprefix] at hkind
      obtain rfl := Option.some.inj hkind
      obtain ⟨hlt, hcongr⟩ := ih hrest
      refine ⟨by omega, fun hlen hcell => ?_⟩
      unfold loop
      rw [hstep' (by omega) hlen hcell, some_bind]
      exact hcongr hlen fun j hlo hhi => hcell j (by omega) hhi
    · rw [if_neg hprefix] at hkind
      obtain rfl := Option.some.inj hkind
      obtain rfl := Option.some.inj hrest
      refine ⟨by omega, fun hlen hcell => ?_⟩
      unfold loop
      rw [hstep' (by omega) hlen hcell, some_bind]

theorem deeAsmNextInstr_lt (h : deeAsmNextInstr text pc = some q) : pc < q := (@nextInstr_loop text text pc q _ h).1

theorem nextInstrs_le (h : nextInstrs text n pc = some q) : pc ≤ q := by
  induction n generalizing pc with
  | zero => exact (Option.some.inj h).le
  | succ n ih =>
    obtain ⟨mid, hmid, hrest⟩ := of_bind h
    exact (deeAsmNextInstr_lt hmid).le.trans (ih hrest)

theorem nextInstrs_congr (h : nextInstrs text n pc = some q) (hlen : text'.length = text.length)
    (hcell : ∀ j, pc ≤ j → j < q → cell text' j = cell text j) : nextInstrs text' n pc = some q := by
  induction n generalizing pc with
  | zero => exact h
  | succ n ih =>
    obtain ⟨mid, hmid, hrest⟩ := of_bind h
    have hlt := deeAsmNextInstr_lt hmid
    have hle := nextInstrs_le hrest
    have hmid' : deeAsmNextInstr text' pc = some mid := by
      unfold deeAsmNextInstr at hmid ⊢
      rw [hlen]
      exact (nextInstr_loop hmid).2 hlen fun j hlo hhi => hcell j hlo (by omega)
    unfold nextInstrs
    rw [hmid', some_bind]
    exact ih hrest fun j hlo hhi => hcell j (by omega) hhi

theorem nextInstrs_add {m : ℕ} : nextInstrs text (m + n) pc = nextInstrs text m pc >>= nextInstrs text n := by
  induction m generalizing pc with
  | zero => rw [Nat.zero_add]; rfl
  | succ m ih =>
    rw [Nat.succ_add]
    show deeAsmNextInstr text pc >>= nextInstrs text (m + n) = (deeAsmNextInstr text pc >>= nextInstrs text m) >>= _
    rw [bind_assoc]
    exact bind_congr fun mid => ih

end Walk

end Deemon.Asm
