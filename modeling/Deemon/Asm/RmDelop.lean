import Deemon.Asm.Link
import Mathlib.Data.List.TakeWhile

/-!
# Deleting unused bytes

`asm_rmdelop` takes the `ASM_DELOP` bytes out of the main section and moves the relocations and symbols behind them
down. Without peephole optimization it first replaces the `adjstack` instructions that move the stack by two slots at
most.
-/

namespace Deemon.Asm

open Deemon.Run Deemon.Fields

/-! ### Replacing `adjstack` -/

abbrev asmPop : ℕ := 0x25
abbrev asmAdjstack : ℕ := 0x27
abbrev asmPushNone : ℕ := 0x33

/-- The two bytes for an `adjstack` by two slots at most. -/
def smallAdjstack (offset : ℤ) : Option (ℕ × ℕ) :=
  if offset = -2 then some (asmPop, asmPop)
  else if offset = -1 then some (asmPop, asmDelop)
  else if offset = 0 then some (asmDelop, asmDelop)
  else if offset = 1 then some (asmPushNone, asmDelop)
  else if offset = 2 then some (asmPushNone, asmPushNone)
  else none

/-- The writes of two bytes at `iter`. -/
def writeTwo (text : List ℕ) (iter : ℕ) (bytes : ℕ × ℕ) : Option (List ℕ) := do
  let text ← wr text iter bytes.1
  wr text (iter + 1) bytes.2

/-- What the first loop does to the instruction at `iter`. -/
def replaceAdjstack (text : List ℕ) (iter : ℕ) : Option (List ℕ) := do
  if (← rd text iter) = asmAdjstack then
    match smallAdjstack (sint 8 (← rd text (iter + 1))) with
    | some bytes => writeTwo text iter bytes
    | none => some text
  else if (← rd text iter) = asmExtended1 then
    if (← rd text (iter + 1)) = asmAdjstack then
      let offset := sint 16 (← getLe text (iter + 2) 2)
      match smallAdjstack offset with
      | some bytes => do
        let text ← writeTwo text iter bytes
        writeTwo text (iter + 2) (asmDelop, asmDelop)
      | none =>
        if FitsSigned 7 offset then do
          let text ← writeTwo text iter (asmAdjstack, uint 8 offset)
          writeTwo text (iter + 2) (asmDelop, asmDelop)
        else some text
    else some text
  else some text

/-- One round of the first loop. -/
def adjstackRound (s : ℕ × List ℕ) : Option (Step (ℕ × List ℕ) (ℕ × List ℕ)) :=
  if s.1 < s.2.length then do
    let text ← replaceAdjstack s.2 s.1
    let iter ← deeAsmNextInstr text s.1
    some (.next (iter, text))
  else some (.done s)

/-! ### Deleting -/

/-- The state of the second loop: `iter`, `rel_begin`, the result, and the section with its symbols. -/
structure DelopState where
  iter : ℕ
  relBegin : ℕ
  result : Bool
  self : AsmState

/-- `--sym_iter->as_addr` above the deleted byte. -/
def AsmSym.moveDown (deladdr : ℕ) (sym : AsmSym) : AsmSym :=
  if sym.asSect = 0 ∧ deladdr < sym.asAddr then { sym with asAddr := sym.asAddr - 1 } else sym

/-- One round of the second loop. -/
def delopRound (s : DelopState) : Option (Step DelopState DelopState) :=
  if s.iter < s.self.text.length then do
    if (← rd s.self.text s.iter) = asmDelop then
      let text := s.self.text.eraseIdx s.iter
      let skipped := (s.self.relv.drop s.relBegin).takeWhile fun rel => rel.arAddr ≤ s.iter
      let relBegin := s.relBegin + skipped.length
      assert (∀ rel ∈ s.self.relv.drop relBegin, s.iter < rel.arAddr)
      let relv := s.self.relv.take relBegin ++
        (s.self.relv.drop relBegin).map fun rel => { rel with arAddr := rel.arAddr - 1 }
      let syms := s.self.syms.map (AsmSym.moveDown s.iter)
      some (.next ⟨s.iter, relBegin, true, ⟨text, relv, syms⟩⟩)
    else
      let iter ← deeAsmNextInstr s.self.text s.iter
      some (.next { s with iter := iter })
  else some (.done s)

/-- `asm_rmdelop`. -/
def asmRmdelop (optimize peephole : Bool) (self : AsmState) : Option (Bool × AsmState) :=
  if !optimize then some (false, self)
  else do
    -- the first loop leaves `iter` at the end
    let r ← (if peephole then some (0, self.text) else loop adjstackRound (self.text.length + 1) (0, self.text))
    let s ← loop delopRound (self.text.length + 1) ⟨r.1, 0, false, { self with text := r.2 }⟩
    some (s.result, s.self)

/-! ### Instructions -/

/-- The bytes of one instruction. -/
def IsInstr (bytes : List ℕ) : Prop := deeAsmNextInstr bytes 0 = some bytes.length

instance (bytes : List ℕ) : Decidable (IsInstr bytes) := inferInstanceAs (Decidable (_ = _))

/-- How many `ASM_DELOP` instructions start below an address. -/
def delopsBelow : List (List ℕ) → ℕ → ℕ
  | [], _ => 0
  | c :: cs, addr => (if c = [asmDelop] ∧ 0 < addr then 1 else 0) + delopsBelow cs (addr - c.length)

/-- What stands in place of an `adjstack` of two bytes. -/
def replaced8 (offset : ℤ) (c : List ℕ) : List (List ℕ) :=
  match smallAdjstack offset with
  | some bytes => [[bytes.1], [bytes.2]]
  | none => [c]

/-- What stands in place of an `adjstack` of four bytes. -/
def replaced16 (offset : ℤ) (c : List ℕ) : List (List ℕ) :=
  match smallAdjstack offset with
  | some bytes => [[bytes.1], [bytes.2], [asmDelop], [asmDelop]]
  | none => if FitsSigned 7 offset then [[asmAdjstack, uint 8 offset], [asmDelop], [asmDelop]] else [c]

/-- The instructions that an instruction is replaced with by the first loop. -/
def replaced : List ℕ → List (List ℕ)
  | [op, x] => if op = asmAdjstack then replaced8 (sint 8 x) [op, x] else [[op, x]]
  | [ext, op, x, y] =>
    if ext = asmExtended1 ∧ op = asmAdjstack then replaced16 (sint 16 (x + y * 256 : ℕ)) [ext, op, x, y]
    else [[ext, op, x, y]]
  | c => [c]

/-- The instructions of a section when the deletion starts. -/
def prepared (peephole : Bool) (instrs : List (List ℕ)) : List (List ℕ) :=
  if peephole then instrs else instrs.flatMap replaced

/-- The instructions that stay. -/
def surviving (instrs : List (List ℕ)) : List (List ℕ) := instrs.filter (· ≠ [asmDelop])

/-- What `pop`, `push none`, `adjstack` and `ASM_DELOP` do to the stack depth, and `none` for other instructions. -/
def stackEffect : List ℕ → Option ℤ
  | [op] => if op = asmPop then some (-1) else if op = asmPushNone then some 1 else if op = asmDelop then some 0 else none
  | [op, x] => if op = asmAdjstack then some (sint 8 x) else none
  | [ext, op, x, y] => if ext = asmExtended1 ∧ op = asmAdjstack then some (sint 16 (x + y * 256 : ℕ)) else none
  | _ => none

/-- What instructions that only move the stack do to its depth. -/
def stackEffects : List (List ℕ) → Option ℤ
  | [] => some 0
  | c :: cs => do some ((← stackEffect c) + (← stackEffects cs))

/-- The instruction is an `adjstack`, in its short or its long form. -/
def IsAdjstack (c : List ℕ) : Prop := cell c 0 = asmAdjstack ∨ cell c 0 = asmExtended1 ∧ cell c 1 = asmAdjstack

/-- Instructions that may stand in place of an instruction: it itself, for an `adjstack` also those that move the stack by
as much, and for an `ASM_DELOP` also none. -/
structure KeepsStack (c : List ℕ) (cs : List (List ℕ)) : Prop where
  instrs : ∀ c' ∈ cs, IsInstr c'
  kept : ¬IsAdjstack c → c ≠ [asmDelop] → cs = [c]
  effect : stackEffects cs = stackEffect c

/-- The deletion: the surviving instructions stay in order, and every address goes down by the bytes deleted below it. -/
structure Compacted (instrs : List (List ℕ)) (s r : AsmState) : Prop where
  text : r.text = (surviving instrs).flatten
  relv : r.relv = s.relv.map fun rel => { rel with arAddr := rel.arAddr - delopsBelow instrs rel.arAddr }
  syms : r.syms = s.syms.map fun sym =>
    if sym.asSect = 0 then { sym with asAddr := sym.asAddr - delopsBelow instrs sym.asAddr } else sym
  /-- A byte of a surviving instruction is found again at the address that goes with it. -/
  operands : ∀ k code o, instrs[k]? = some code → code ≠ [asmDelop] → o < code.length →
    r.text[(instrs.take k).flatten.length + o - delopsBelow instrs ((instrs.take k).flatten.length + o)]? = code[o]?
  /-- The start of an instruction goes to the start of the next surviving one. -/
  starts : ∀ k, (instrs.take k).flatten.length - delopsBelow instrs (instrs.take k).flatten.length =
    (surviving (instrs.take k)).flatten.length

/-- The program is kept, and no unused byte of it is left. -/
def DeletesDelops (peephole : Bool) (instrs : List (List ℕ)) (self : AsmState) : Prop :=
  Ends (asmRmdelop true peephole self) fun r => Compacted (prepared peephole instrs) self r.2

/-! ### Walking over instructions -/

section Walk

variable {c pre rest text : List ℕ} {pc q fuel fuel' : ℕ}

theorem rd_append (h : rd c pc = some q) : rd (pre ++ (c ++ rest)) (pre.length + pc) = some q := by
  obtain ⟨hlt, rfl⟩ := rd_eq_some h
  rw [rd_of_lt (by rw [List.length_append, List.length_append]; omega)]
  congr 1
  rw [cell, cell, List.getD_eq_getElem?_getD, List.getD_eq_getElem?_getD,
    List.getElem?_append_right (Nat.le_add_right _ _), Nat.add_sub_cancel_left, List.getElem?_append_left hlt]

theorem opcodeAt_append {r : ℕ × ℕ} (h : opcodeAt c pc = some r) :
    opcodeAt (pre ++ (c ++ rest)) (pre.length + pc) = some r := by
  unfold opcodeAt at h ⊢
  obtain ⟨opcode, hop, h⟩ := of_bind h
  rw [rd_append hop, some_bind]
  by_cases hext : cell instrlen0x00 opcode = 0
  · rw [if_pos hext] at h ⊢
    obtain ⟨opcode', hop', h⟩ := of_bind h
    rw [Nat.add_assoc, rd_append hop', some_bind]
    exact h
  · rwa [if_neg hext] at h ⊢

theorem nextInstr_append (h : loop (nextInstrStep c) fuel pc = some q) (hfuel : fuel ≤ fuel') :
    loop (nextInstrStep (pre ++ (c ++ rest))) fuel' (pre.length + pc) = some (pre.length + q) := by
  induction fuel generalizing fuel' pc with
  | zero => cases h
  | succ fuel ih =>
    obtain ⟨fuel', rfl⟩ := Nat.exists_eq_succ_of_ne_zero (Nat.ne_zero_of_lt hfuel)
    obtain ⟨step, hstep, hrest⟩ := of_bind h
    obtain ⟨⟨opcode, length⟩, hop, hkind⟩ := of_bind hstep
    have hstep' : nextInstrStep (pre ++ (c ++ rest)) (pre.length + pc) =
        some (if asmIsPrefix opcode then .next (pre.length + (pc + length)) else .done (pre.length + (pc + length))) := by
      unfold nextInstrStep
      rw [opcodeAt_append hop, some_bind]
      dsimp only
      rw [Nat.add_assoc]
    dsimp only at hkind
    by_cases hmore : asmIsPrefix opcode = true
    · rw [if_pos hmore] at hkind hstep'
      obtain rfl := Option.some.inj hkind
      rw [loop_next hstep']
      exact ih hrest (Nat.le_of_succ_le_succ hfuel)
    · rw [if_neg hmore] at hkind hstep'
      obtain rfl := Option.some.inj hkind
      obtain rfl := Option.some.inj hrest
      rw [loop_done hstep']

/-- An instruction in a text is stepped over. -/
theorem IsInstr.next (h : IsInstr c) :
    deeAsmNextInstr (pre ++ (c ++ rest)) pre.length = some (pre.length + c.length) :=
  nextInstr_append h (by rw [List.length_append, List.length_append]; omega)

theorem IsInstr.pos (h : IsInstr c) : 0 < c.length := deeAsmNextInstr_lt h

/-- Without a prefix, the first opcode gives the length. -/
theorem IsInstr.length (h : IsInstr c) {r : ℕ × ℕ} (hop : opcodeAt c 0 = some r) (hplain : asmIsPrefix r.1 = false) :
    c.length = r.2 := by
  have hstep : nextInstrStep c 0 = some (.done (0 + r.2)) := by
    unfold nextInstrStep
    rw [hop, some_bind]
    dsimp only
    rw [hplain]
    rfl
  have hrun : deeAsmNextInstr c 0 = some (0 + r.2) := loop_done hstep
  exact (Option.some.inj (h.symm.trans hrun)).trans (Nat.zero_add _)

/-- The byte at the start of the rest of a text. -/
theorem rd_start (h : 0 < c.length) : rd (pre ++ (c ++ rest)) pre.length = some (cell c 0) :=
  rd_append (rd_of_lt h)

end Walk

/-! ### The first loop -/

section Replace

variable {c pre rest text : List ℕ} {instrs : List (List ℕ)} {b : ℕ × ℕ}

theorem length_adjstack (h : IsInstr c) (h0 : cell c 0 = asmAdjstack) : c.length = 2 := by
  have hop : opcodeAt c 0 = some (asmAdjstack, 2) := by
    unfold opcodeAt
    rw [rd_of_lt h.pos, some_bind, h0]
    rfl
  exact h.length hop rfl

theorem one_lt_length_extended (h : IsInstr c) (h0 : cell c 0 = asmExtended1) : 1 < c.length := by
  obtain ⟨step, hstep, -⟩ := of_bind h
  obtain ⟨r, hop, -⟩ := of_bind hstep
  unfold opcodeAt at hop
  rw [rd_of_lt h.pos, some_bind, h0, if_pos (by decide)] at hop
  obtain ⟨opcode, hop', -⟩ := of_bind hop
  exact (rd_eq_some hop').1

theorem length_adjstack16 (h : IsInstr c) (h0 : cell c 0 = asmExtended1) (h1 : cell c 1 = asmAdjstack) :
    c.length = 4 := by
  have hop : opcodeAt c 0 = some (asmAdjstack, 4) := by
    unfold opcodeAt
    rw [rd_of_lt h.pos, some_bind, h0, if_pos (by decide), rd_of_lt (one_lt_length_extended h h0), some_bind, h1]
    rfl
  exact h.length hop rfl

theorem wr_at (pre : List ℕ) (x y : ℕ) (rest : List ℕ) : wr (pre ++ x :: rest) pre.length y = some (pre ++ y :: rest) := by
  rw [wr_of_lt (by rw [List.length_append, List.length_cons]; omega), List.set_append_right _ _ le_rfl, Nat.sub_self,
    List.set_cons_zero]

theorem writeTwo_at (pre : List ℕ) (x y : ℕ) (rest : List ℕ) (b : ℕ × ℕ) :
    writeTwo (pre ++ x :: y :: rest) pre.length b = some (pre ++ b.1 :: b.2 :: rest) := by
  unfold writeTwo
  rw [wr_at, some_bind]
  have hsecond := wr_at (pre ++ [b.1]) y b.2 rest
  rw [List.append_assoc, List.append_assoc, List.length_append] at hsecond
  exact hsecond

/-- The bytes that an `adjstack` is replaced with are instructions that stay. -/
theorem smallAdjstack_instrs {offset : ℤ} (h : smallAdjstack offset = some b) :
    (IsInstr [b.1] ∧ replaced [b.1] = [[b.1]]) ∧ IsInstr [b.2] ∧ replaced [b.2] = [[b.2]] := by
  unfold smallAdjstack at h
  split_ifs at h <;> cases h <;> exact ⟨⟨rfl, rfl⟩, rfl, rfl⟩

/-- The instructions in place of one instruction. -/
structure Replaces (c : List ℕ) (cs : List (List ℕ)) : Prop where
  instrs : ∀ c' ∈ cs, IsInstr c'
  stable : ∀ c' ∈ cs.tail, replaced c' = [c']
  ne_nil : cs ≠ []
  length : cs.flatten.length = c.length

theorem Replaces.self (h : IsInstr c) : Replaces c [c] :=
  ⟨List.forall_mem_singleton.mpr h, fun _ hmem => absurd hmem List.not_mem_nil, List.cons_ne_nil _ _,
    by rw [List.flatten_singleton]⟩

theorem replaced8_replaces {offset : ℤ} (h : IsInstr c) (hlen : c.length = 2) : Replaces c (replaced8 offset c) := by
  unfold replaced8
  cases hsmall : smallAdjstack offset with
  | none => exact .self h
  | some bytes =>
    obtain ⟨⟨hfirst, -⟩, hsecond, hstable⟩ := smallAdjstack_instrs hsmall
    exact ⟨List.forall_mem_cons.mpr ⟨hfirst, List.forall_mem_singleton.mpr hsecond⟩,
      List.forall_mem_singleton.mpr hstable, List.cons_ne_nil _ _, hlen.symm⟩

theorem replaced16_replaces {offset : ℤ} (h : IsInstr c) (hlen : c.length = 4) : Replaces c (replaced16 offset c) := by
  have hdelops : (∀ c' ∈ [[asmDelop], [asmDelop]], IsInstr c') ∧ ∀ c' ∈ [[asmDelop], [asmDelop]], replaced c' = [c'] :=
    ⟨List.forall_mem_cons.mpr ⟨rfl, List.forall_mem_singleton.mpr rfl⟩,
      List.forall_mem_cons.mpr ⟨rfl, List.forall_mem_singleton.mpr rfl⟩⟩
  unfold replaced16
  cases hsmall : smallAdjstack offset with
  | none =>
    dsimp only
    split_ifs with hfits
    · exact ⟨List.forall_mem_cons.mpr ⟨rfl, hdelops.1⟩, hdelops.2, List.cons_ne_nil _ _, hlen.symm⟩
    · exact .self h
  | some bytes =>
    obtain ⟨⟨hfirst, -⟩, hsecond, hstable⟩ := smallAdjstack_instrs hsmall
    exact ⟨List.forall_mem_cons.mpr ⟨hfirst, List.forall_mem_cons.mpr ⟨hsecond, hdelops.1⟩⟩,
      List.forall_mem_cons.mpr ⟨hstable, hdelops.2⟩, List.cons_ne_nil _ _, hlen.symm⟩

theorem replaced_two (op x : ℕ) (h : op = asmAdjstack) : replaced [op, x] = replaced8 (sint 8 x) [op, x] := by
  rw [replaced, if_pos h]

theorem replaced_four (ext op x y : ℕ) (h : ext = asmExtended1 ∧ op = asmAdjstack) :
    replaced [ext, op, x, y] = replaced16 (sint 16 (x + y * 256 : ℕ)) [ext, op, x, y] := by
  rw [replaced, if_pos h]

/-- Other instructions stay. -/
theorem replaced_other (h0 : cell c 0 ≠ asmAdjstack) (h1 : ¬(cell c 0 = asmExtended1 ∧ cell c 1 = asmAdjstack)) :
    replaced c = [c] := by
  unfold replaced
  split
  · exact if_neg h0
  · exact if_neg h1
  · rfl

theorem replaced_replaces (h : IsInstr c) : Replaces c (replaced c) := by
  by_cases h0 : cell c 0 = asmAdjstack
  · obtain ⟨op, x, rfl⟩ := List.length_eq_two.mp (length_adjstack h h0)
    rw [replaced_two op x h0]
    exact replaced8_replaces h rfl
  · by_cases h1 : cell c 0 = asmExtended1 ∧ cell c 1 = asmAdjstack
    · obtain ⟨ext, op, x, y, rfl⟩ := List.length_eq_four.mp (length_adjstack16 h h1.1 h1.2)
      rw [replaced_four ext op x y h1]
      exact replaced16_replaces h rfl
    · rw [replaced_other h0 h1]
      exact .self h

theorem cell_append {i : ℕ} (h : i < c.length) : cell (pre ++ (c ++ rest)) (pre.length + i) = cell c i :=
  (rd_eq_some (rd_append (rd_of_lt h))).2

/-- The operand of an `adjstack` of four bytes. -/
theorem getLe_operand (ext op x y : ℕ) :
    getLe (pre ++ ([ext, op, x, y] ++ rest)) (pre.length + 2) 2 = some (x + y * 256) := by
  have hx : cell (pre ++ ([ext, op, x, y] ++ rest)) (pre.length + 2) = x := cell_append (by decide : 2 < 4)
  have hy : cell (pre ++ ([ext, op, x, y] ++ rest)) (pre.length + 3) = y := cell_append (by decide : 3 < 4)
  rw [getLe_of_le (by simp only [List.length_append, List.length_cons, List.length_nil]; omega), Radix.seg_succ,
    Radix.seg_succ, Radix.seg_zero, Nat.add_zero, Nat.add_assoc pre.length, hx, hy, Nat.zero_add, pow_zero, mul_one,
    pow_one]

/-- An `adjstack` of four bytes is overwritten with two bytes and two unused ones. -/
theorem writeFour_at (ext op x y : ℕ) (b : ℕ × ℕ) :
    (writeTwo (pre ++ ([ext, op, x, y] ++ rest)) pre.length b >>= fun text =>
      writeTwo text (pre.length + 2) (asmDelop, asmDelop)) =
        some (pre ++ ([b.1, b.2, asmDelop, asmDelop] ++ rest)) := by
  have hfirst := writeTwo_at pre ext op (x :: y :: rest) b
  have hsecond := writeTwo_at (pre ++ [b.1, b.2]) x y rest (asmDelop, asmDelop)
  rw [List.length_append, List.append_assoc, List.append_assoc] at hsecond
  rw [show [ext, op, x, y] ++ rest = ext :: op :: x :: y :: rest from rfl, hfirst, some_bind]
  exact hsecond

theorem replaceAdjstack_two (op x : ℕ) (h0 : op = asmAdjstack) :
    replaceAdjstack (pre ++ ([op, x] ++ rest)) pre.length = some (pre ++ ((replaced8 (sint 8 x) [op, x]).flatten ++ rest)) := by
  have hop : rd (pre ++ ([op, x] ++ rest)) pre.length = some op := rd_start (Nat.succ_pos 1)
  have hx : rd (pre ++ ([op, x] ++ rest)) (pre.length + 1) = some x := rd_append (rd_of_lt (Nat.lt_succ_self 1))
  unfold replaceAdjstack replaced8
  rw [hop, some_bind, if_pos h0, hx, some_bind]
  cases smallAdjstack (sint 8 x) with
  | none => rfl
  | some bytes => exact writeTwo_at pre _ _ rest bytes

theorem replaceAdjstack_four (ext op x y : ℕ) {offset : ℤ} (hoffset : sint 16 ((x + y * 256 : ℕ) : ℤ) = offset)
    (h0 : ext ≠ asmAdjstack) (hext : ext = asmExtended1) (h1 : op = asmAdjstack) :
    replaceAdjstack (pre ++ ([ext, op, x, y] ++ rest)) pre.length =
      some (pre ++ ((replaced16 offset [ext, op, x, y]).flatten ++ rest)) := by
  have hfirst : rd (pre ++ ([ext, op, x, y] ++ rest)) pre.length = some ext := rd_start (Nat.succ_pos 3)
  have hsecond : rd (pre ++ ([ext, op, x, y] ++ rest)) (pre.length + 1) = some op :=
    rd_append (rd_of_lt (Nat.one_lt_succ_succ 2))
  unfold replaceAdjstack replaced16
  rw [hfirst, some_bind, if_neg h0, some_bind, if_pos hext, hsecond, some_bind, if_pos h1, getLe_operand, some_bind,
    hoffset]
  dsimp only
  cases smallAdjstack offset with
  | some bytes => exact writeFour_at ext op x y bytes
  | none =>
    dsimp only
    by_cases hfits : FitsSigned 7 offset
    · rw [if_pos hfits, if_pos hfits]
      exact writeFour_at ext op x y (asmAdjstack, uint 8 offset)
    · rw [if_neg hfits, if_neg hfits, List.flatten_singleton]

/-- The bytes that the first loop writes at an instruction. -/
theorem replaceAdjstack_eq (h : IsInstr c) :
    replaceAdjstack (pre ++ (c ++ rest)) pre.length = some (pre ++ ((replaced c).flatten ++ rest)) := by
  by_cases h0 : cell c 0 = asmAdjstack
  · obtain ⟨op, x, rfl⟩ := List.length_eq_two.mp (length_adjstack h h0)
    rw [replaced_two op x h0]
    exact replaceAdjstack_two op x h0
  · by_cases h1 : cell c 0 = asmExtended1 ∧ cell c 1 = asmAdjstack
    · obtain ⟨ext, op, x, y, rfl⟩ := List.length_eq_four.mp (length_adjstack16 h h1.1 h1.2)
      rw [replaced_four ext op x y h1]
      exact replaceAdjstack_four ext op x y rfl h0 h1.1 h1.2
    · unfold replaceAdjstack
      rw [replaced_other h0 h1, rd_start h.pos, some_bind, if_neg h0, some_bind, List.flatten_singleton]
      by_cases hext : cell c 0 = asmExtended1
      · rw [if_pos hext, rd_append (rd_of_lt (one_lt_length_extended h hext)), some_bind,
          if_neg fun hop => h1 ⟨hext, hop⟩]
      · rw [if_neg hext]

/-- The first loop replaces one instruction after the other, and leaves `iter` at the end of the text. -/
theorem adjstackLoop_ends (hinstrs : ∀ c ∈ instrs, IsInstr c) :
    Ends (loop adjstackRound (instrs.flatten.length + 1) (0, instrs.flatten)) fun r =>
      r = ((instrs.flatMap replaced).flatten.length, (instrs.flatMap replaced).flatten) := by
  -- what is in front of `iter` is final, and what is behind it are instructions
  refine loop_ends (fun s => ∃ pre todo, s = (pre.length, pre ++ todo.flatten) ∧ (∀ c ∈ todo, IsInstr c) ∧
    pre ++ (todo.flatMap replaced).flatten = (instrs.flatMap replaced).flatten) (fun s => s.2.length - s.1)
    ⟨[], instrs, rfl, hinstrs, rfl⟩ (Nat.lt_succ_self _) ?_
  rintro _ ⟨pre, todo, rfl, htodo, htarget⟩
  unfold adjstackRound
  dsimp only
  cases todo with
  | nil =>
    rw [List.flatten_nil, List.append_nil, if_neg (lt_irrefl _)]
    refine Ends.pure ?_
    rw [← htarget]
    simp [Step.Sat]
  | cons c cs =>
    obtain ⟨hc, hcs⟩ := List.forall_mem_cons.mp htodo
    have hreplaces := replaced_replaces hc
    obtain ⟨first, others, heq⟩ := List.exists_cons_of_ne_nil hreplaces.ne_nil
    have hfirst : IsInstr first := hreplaces.instrs first (by rw [heq]; exact List.mem_cons_self)
    have hpos := hc.pos
    have htext : pre ++ ((replaced c).flatten ++ cs.flatten) = pre ++ (first ++ (others ++ cs).flatten) := by
      rw [heq, List.flatten_cons, List.flatten_append, List.append_assoc]
    rw [List.flatten_cons, if_pos (by rw [List.length_append, List.length_append]; omega), replaceAdjstack_eq hc, some_bind,
      htext, hfirst.next, some_bind]
    refine Ends.pure ⟨⟨pre ++ first, others ++ cs, ?_, ?_, ?_⟩, ?_⟩
    · rw [List.length_append, List.append_assoc]
    · refine List.forall_mem_append.mpr ⟨fun c' hc' => hreplaces.instrs c' ?_, hcs⟩
      rw [heq]
      exact List.mem_cons_of_mem _ hc'
    · -- the rest of what stands in place of `c` is not replaced again
      have hstable : others.flatMap replaced = others := by
        have hall : ∀ c' ∈ others, replaced c' = [c'] := fun c' hc' => hreplaces.stable c' (by rw [heq]; exact hc')
        rw [List.flatMap_congr hall, List.flatMap_singleton']
      rw [← htarget, List.flatMap_cons, heq, List.flatMap_append, hstable, List.cons_append, List.flatten_cons,
        List.append_assoc]
    · have hlength := congrArg List.length htext
      have hkept := hreplaces.length
      have hfirstpos := hfirst.pos
      simp only [List.length_append] at hlength ⊢
      omega

end Replace

/-! ### Addresses -/

section Addresses

variable {c : List ℕ} {cs instrs : List (List ℕ)} {pos addr : ℕ} {relv : List AsmRel} {relBegin d : ℕ}

theorem delopsBelow_zero (cs : List (List ℕ)) : delopsBelow cs 0 = 0 := by
  induction cs with
  | nil => rfl
  | cons c cs ih => rw [delopsBelow, Nat.zero_sub, ih, if_neg fun h => absurd h.2 (lt_irrefl 0)]

/-- Where an address goes when the bytes from `pos` on are still to be gone through. -/
def movedFrom (pos : ℕ) (cs : List (List ℕ)) (addr : ℕ) : ℕ :=
  if addr ≤ pos then addr else addr - delopsBelow cs (addr - pos)

theorem movedFrom_zero : movedFrom 0 cs addr = addr - delopsBelow cs addr := by
  unfold movedFrom
  split_ifs with h
  · rw [Nat.le_zero.mp h, Nat.zero_sub]
  · rfl

theorem movedFrom_nil : movedFrom pos [] addr = addr := by
  unfold movedFrom
  split_ifs <;> rfl

theorem delopsBelow_delop (h : 0 < addr) : delopsBelow ([asmDelop] :: cs) addr = 1 + delopsBelow cs (addr - 1) := by
  rw [delopsBelow, if_pos ⟨rfl, h⟩, List.length_singleton]

theorem delopsBelow_keep (hc : c ≠ [asmDelop]) : delopsBelow (c :: cs) addr = delopsBelow cs (addr - c.length) := by
  rw [delopsBelow, if_neg fun h => hc h.1, Nat.zero_add]

/-- An unused byte moves what is behind it. -/
theorem movedFrom_delop :
    movedFrom pos cs (if pos < addr then addr - 1 else addr) = movedFrom pos ([asmDelop] :: cs) addr := by
  unfold movedFrom
  by_cases hlt : pos < addr
  · rw [if_pos hlt, if_neg (not_le.mpr hlt), delopsBelow_delop (Nat.sub_pos_of_lt hlt)]
    by_cases hle : addr - 1 ≤ pos
    · rw [if_pos hle, show addr - pos - 1 = 0 by omega, delopsBelow_zero]
    · rw [if_neg hle, show addr - 1 - pos = addr - pos - 1 by omega, Nat.sub_add_eq]
  · rw [if_neg hlt, if_pos (not_lt.mp hlt), if_pos (not_lt.mp hlt)]

/-- An instruction that stays moves nothing. -/
theorem movedFrom_keep (hc : c ≠ [asmDelop]) : movedFrom (pos + c.length) cs addr = movedFrom pos (c :: cs) addr := by
  unfold movedFrom
  rw [delopsBelow_keep hc, Nat.sub_sub]
  by_cases hle : addr ≤ pos
  · rw [if_pos hle, if_pos (hle.trans (Nat.le_add_right _ _))]
  · rw [if_neg hle]
    by_cases hin : addr ≤ pos + c.length
    · rw [if_pos hin, Nat.sub_eq_zero_of_le hin, delopsBelow_zero, Nat.sub_zero]
    · rw [if_neg hin]

/-- `--rel_iter->ar_addr` above the deleted byte. -/
def AsmRel.moveDown (deladdr : ℕ) (rel : AsmRel) : AsmRel :=
  { rel with arAddr := if deladdr < rel.arAddr then rel.arAddr - 1 else rel.arAddr }

/-- The addresses of the relocations go up. -/
def SortedRels (relv : List AsmRel) : Prop := relv.Pairwise fun rel rel' => rel.arAddr ≤ rel'.arAddr

theorem SortedRels.moveDown (h : SortedRels relv) : SortedRels (relv.map (AsmRel.moveDown d)) := by
  refine List.Pairwise.map _ (fun rel rel' hle => ?_) h
  unfold AsmRel.moveDown
  dsimp only
  split_ifs <;> omega

/-- The cursor stops at the first relocation above the deleted byte, and all that follow are above it. -/
theorem cursor_splits (hsorted : SortedRels relv) (hpassed : ∀ rel ∈ relv.take relBegin, rel.arAddr ≤ d) {n : ℕ}
    (hn : n = relBegin + ((relv.drop relBegin).takeWhile fun rel => rel.arAddr ≤ d).length) :
    (∀ rel ∈ relv.take n, rel.arAddr ≤ d) ∧ ∀ rel ∈ relv.drop n, d < rel.arAddr := by
  have happ : (relv.drop relBegin).takeWhile (fun rel => rel.arAddr ≤ d) ++
      (relv.drop relBegin).dropWhile (fun rel => rel.arAddr ≤ d) = relv.drop relBegin := List.takeWhile_append_dropWhile
  have hdrop : relv.drop n = (relv.drop relBegin).dropWhile fun rel => rel.arAddr ≤ d := by
    rw [hn, ← List.drop_drop]
    nth_rewrite 2 [← happ]
    exact List.drop_left
  constructor
  · intro rel hrel
    rw [hn, List.take_add] at hrel
    rcases List.mem_append.mp hrel with hold | hnew
    · exact hpassed rel hold
    · rw [← List.prefix_iff_eq_take.mp (List.takeWhile_prefix _)] at hnew
      simpa using List.mem_takeWhile_imp hnew
  · intro rel hrel
    rw [hdrop] at hrel
    have htail : SortedRels ((relv.drop relBegin).dropWhile fun rel => rel.arAddr ≤ d) :=
      List.Pairwise.sublist ((List.dropWhile_sublist _).trans (List.drop_sublist _ _)) hsorted
    cases hrest : (relv.drop relBegin).dropWhile fun rel => rel.arAddr ≤ d with
    | nil =>
      rw [hrest] at hrel
      cases hrel
    | cons first others =>
      have hfirst : d < first.arAddr := by
        have hnot := List.head?_dropWhile_not (fun rel : AsmRel => decide (rel.arAddr ≤ d)) (relv.drop relBegin)
        rw [hrest] at hnot
        simpa using hnot
      rw [hrest] at hrel htail
      rcases List.mem_cons.mp hrel with rfl | hother
      · exact hfirst
      · exact lt_of_lt_of_le hfirst ((List.pairwise_cons.mp htail).1 rel hother)

end Addresses

/-! ### The second loop -/

section Delete

variable {c pre rest text : List ℕ} {cs instrs : List (List ℕ)} {self : AsmState} {s : DelopState}

theorem ne_delop_of_cell (h : IsInstr c) (h0 : cell c 0 = asmDelop) : c = [asmDelop] := by
  have hop : opcodeAt c 0 = some (asmDelop, 1) := by
    unfold opcodeAt
    rw [rd_of_lt h.pos, some_bind, h0]
    rfl
  obtain ⟨x, rfl⟩ := List.length_eq_one_iff.mp (h.length hop rfl)
  exact congrArg (fun x => [x]) h0

/-- The relocation with its address where it goes. -/
def AsmRel.movedFrom (pos : ℕ) (cs : List (List ℕ)) (rel : AsmRel) : AsmRel :=
  { rel with arAddr := Asm.movedFrom pos cs rel.arAddr }

/-- The symbol with its address where it goes. -/
def AsmSym.movedFrom (pos : ℕ) (cs : List (List ℕ)) (sym : AsmSym) : AsmSym :=
  if sym.asSect = 0 then { sym with asAddr := Asm.movedFrom pos cs sym.asAddr } else sym

/-- The loop is between two instructions. -/
structure Deleting (instrs : List (List ℕ)) (orig : AsmState) (pre : List ℕ) (todo : List (List ℕ)) (s : DelopState) :
    Prop where
  iter : s.iter = pre.length
  text : s.self.text = pre ++ todo.flatten
  valid : ∀ c ∈ todo, IsInstr c
  sorted : SortedRels s.self.relv
  passed : ∀ rel ∈ s.self.relv.take s.relBegin, rel.arAddr ≤ s.iter
  target : pre ++ (surviving todo).flatten = (surviving instrs).flatten
  relv : s.self.relv.map (AsmRel.movedFrom pre.length todo) = orig.relv.map (AsmRel.movedFrom 0 instrs)
  syms : s.self.syms.map (AsmSym.movedFrom pre.length todo) = orig.syms.map (AsmSym.movedFrom 0 instrs)

theorem AsmRel.movedFrom_delop (pos : ℕ) (cs : List (List ℕ)) (rel : AsmRel) :
    (rel.moveDown pos).movedFrom pos cs = rel.movedFrom pos ([asmDelop] :: cs) := by
  unfold AsmRel.movedFrom AsmRel.moveDown
  rw [Asm.movedFrom_delop]

theorem AsmSym.movedFrom_delop (pos : ℕ) (cs : List (List ℕ)) (sym : AsmSym) :
    (sym.moveDown pos).movedFrom pos cs = sym.movedFrom pos ([asmDelop] :: cs) := by
  by_cases hsect : sym.asSect = 0
  · have hdown : sym.moveDown pos = { sym with asAddr := if pos < sym.asAddr then sym.asAddr - 1 else sym.asAddr } := by
      unfold AsmSym.moveDown
      by_cases hlt : pos < sym.asAddr
      · rw [if_pos ⟨hsect, hlt⟩, if_pos hlt]
      · rw [if_neg fun h => hlt h.2, if_neg hlt]
    rw [hdown]
    unfold AsmSym.movedFrom
    rw [if_pos hsect, if_pos hsect, Asm.movedFrom_delop]
  · have hdown : sym.moveDown pos = sym := if_neg fun h => hsect h.1
    rw [hdown]
    unfold AsmSym.movedFrom
    rw [if_neg hsect, if_neg hsect]

/-- The relocations behind the cursor are those above the deleted byte. -/
theorem relv_moved {relv : List AsmRel} {n d : ℕ} (hbelow : ∀ rel ∈ relv.take n, rel.arAddr ≤ d)
    (habove : ∀ rel ∈ relv.drop n, d < rel.arAddr) :
    relv.take n ++ (relv.drop n).map (fun rel => { rel with arAddr := rel.arAddr - 1 }) =
      relv.map (AsmRel.moveDown d) := by
  have htake : (relv.take n).map (AsmRel.moveDown d) = relv.take n := by
    rw [List.map_congr_left (g := id) fun rel hrel => ?_, List.map_id]
    unfold AsmRel.moveDown
    rw [if_neg (not_lt.mpr (hbelow rel hrel))]
    rfl
  have hdrop : (relv.drop n).map (AsmRel.moveDown d) =
      (relv.drop n).map fun rel => { rel with arAddr := rel.arAddr - 1 } := by
    refine List.map_congr_left fun rel hrel => ?_
    unfold AsmRel.moveDown
    rw [if_pos (habove rel hrel)]
  conv_rhs => rw [← List.take_append_drop n relv, List.map_append, htake, hdrop]

/-- A byte is deleted. -/
theorem Deleting.delop (h : Deleting instrs self pre ([asmDelop] :: cs) s) :
    Ends (delopRound s) fun step => ∃ s', step = .next s' ∧ Deleting instrs self pre cs s' ∧
      s'.self.text.length + 1 = s.self.text.length ∧ s'.iter = s.iter := by
  obtain ⟨iter, relBegin, result, text, relv, syms⟩ := s
  obtain ⟨rfl, rfl, hvalid, hsorted, hpassed, htarget, hrelv, hsyms⟩ := h
  dsimp only at hvalid hsorted hpassed htarget hrelv hsyms ⊢
  have hlength : (pre ++ ([asmDelop] :: cs).flatten).length = (pre ++ cs.flatten).length + 1 := by
    rw [List.flatten_cons, List.length_append, List.length_append, List.length_append, List.length_singleton]
    omega
  have hlt : pre.length < (pre ++ ([asmDelop] :: cs).flatten).length := by
    rw [hlength, List.length_append]
    omega
  have hstart : rd (pre ++ ([asmDelop] :: cs).flatten) pre.length = some asmDelop := rd_start (c := [asmDelop]) Nat.zero_lt_one
  have herase : (pre ++ ([asmDelop] :: cs).flatten).eraseIdx pre.length = pre ++ cs.flatten := by
    rw [List.eraseIdx_append_of_length_le le_rfl, Nat.sub_self]
    rfl
  obtain ⟨hbelow, habove⟩ := cursor_splits hsorted hpassed rfl
  unfold delopRound
  dsimp only
  rw [if_pos hlt, hstart, some_bind, if_pos rfl, assert_of habove, some_bind, herase, relv_moved hbelow habove]
  refine Ends.pure ⟨_, rfl, ⟨rfl, rfl, fun c hc => hvalid c (List.mem_cons_of_mem _ hc), hsorted.moveDown, ?_, ?_, ?_, ?_⟩,
    hlength.symm, rfl⟩
  · intro rel hrel
    dsimp only at hrel ⊢
    rw [← List.map_take] at hrel
    obtain ⟨old, hold, rfl⟩ := List.mem_map.mp hrel
    have hle := hbelow old hold
    unfold AsmRel.moveDown
    dsimp only
    rwa [if_neg (not_lt.mpr hle)]
  · rw [← htarget]
    rfl
  · rw [← hrelv, List.map_map]
    exact List.map_congr_left fun rel _ => rel.movedFrom_delop _ _
  · rw [← hsyms, List.map_map]
    exact List.map_congr_left fun sym _ => sym.movedFrom_delop _ _

/-- An instruction is stepped over. -/
theorem Deleting.keep (h : Deleting instrs self pre (c :: cs) s) (hc : c ≠ [asmDelop]) :
    Ends (delopRound s) fun step => ∃ s', step = .next s' ∧ Deleting instrs self (pre ++ c) cs s' ∧
      s'.self = s.self ∧ s'.iter = s.iter + c.length := by
  obtain ⟨iter, relBegin, result, text, relv, syms⟩ := s
  obtain ⟨rfl, rfl, hvalid, hsorted, hpassed, htarget, hrelv, hsyms⟩ := h
  dsimp only at hvalid hsorted hpassed htarget hrelv hsyms ⊢
  obtain ⟨hinstr, hothers⟩ := List.forall_mem_cons.mp hvalid
  have hpos := hinstr.pos
  have hlt : pre.length < (pre ++ (c :: cs).flatten).length := by
    rw [List.flatten_cons, List.length_append, List.length_append]
    omega
  have hstart : rd (pre ++ (c :: cs).flatten) pre.length = some (cell c 0) := rd_start hpos
  have hnext : deeAsmNextInstr (pre ++ (c :: cs).flatten) pre.length = some (pre.length + c.length) := hinstr.next
  unfold delopRound
  dsimp only
  rw [if_pos hlt, hstart, some_bind, if_neg fun h0 => hc (ne_delop_of_cell hinstr h0), hnext, some_bind]
  have hmove : ∀ addr, Asm.movedFrom (pre ++ c).length cs addr = Asm.movedFrom pre.length (c :: cs) addr := by
    intro addr
    rw [List.length_append, Asm.movedFrom_keep hc]
  refine Ends.pure ⟨_, rfl, ⟨(List.length_append).symm, ?_, hothers, hsorted, fun rel hrel => ?_, ?_, ?_, ?_⟩, rfl, rfl⟩
  · rw [List.append_assoc]
    rfl
  · exact (hpassed rel hrel).trans (Nat.le_add_right _ _)
  · rw [← htarget, surviving, surviving, List.filter_cons_of_pos (by simpa using hc), List.flatten_cons, List.append_assoc]
  · rw [← hrelv]
    refine List.map_congr_left fun rel _ => ?_
    unfold AsmRel.movedFrom
    rw [hmove]
  · rw [← hsyms]
    refine List.map_congr_left fun sym _ => ?_
    unfold AsmSym.movedFrom
    rw [hmove]

/-- Nothing is left to be gone through. -/
theorem Deleting.finish (h : Deleting instrs self pre [] s) :
    delopRound s = some (.done s) ∧ s.self.text = (surviving instrs).flatten ∧
      s.self.relv = self.relv.map (AsmRel.movedFrom 0 instrs) ∧
      s.self.syms = self.syms.map (AsmSym.movedFrom 0 instrs) := by
  have htext : s.self.text = pre := h.text.trans (List.append_nil _)
  refine ⟨?_, htext.trans ((List.append_nil _).symm.trans h.target), ?_, ?_⟩
  · unfold delopRound
    rw [if_neg]
    rw [htext, h.iter]
    exact lt_irrefl _
  · rw [← h.relv, List.map_congr_left (g := id) fun rel _ => ?_, List.map_id]
    unfold AsmRel.movedFrom
    rw [movedFrom_nil]
    rfl
  · rw [← h.syms, List.map_congr_left (g := id) fun sym _ => ?_, List.map_id]
    unfold AsmSym.movedFrom
    rw [movedFrom_nil]
    split_ifs <;> rfl

/-- The second loop from the start of the text. -/
theorem delopLoop_ends (hinstrs : ∀ c ∈ instrs, IsInstr c) (htext : self.text = instrs.flatten)
    (hsorted : SortedRels self.relv) :
    Ends (loop delopRound (self.text.length + 1) ⟨0, 0, false, self⟩) fun r =>
      r.self = ⟨(surviving instrs).flatten, self.relv.map (AsmRel.movedFrom 0 instrs),
        self.syms.map (AsmSym.movedFrom 0 instrs)⟩ := by
  refine loop_ends (fun s => ∃ pre todo, Deleting instrs self pre todo s) (fun s => s.self.text.length - s.iter)
    ⟨[], instrs, rfl, htext, hinstrs, hsorted, (fun rel hrel => absurd hrel List.not_mem_nil), rfl, rfl, rfl⟩ (Nat.lt_succ_self _) ?_
  rintro s ⟨pre, todo, h⟩
  have hiter := h.iter
  have hlength := congrArg List.length h.text
  rw [List.length_append] at hlength
  cases todo with
  | nil =>
    obtain ⟨hround, hfinal, hrelv, hsyms⟩ := h.finish
    rw [hround]
    refine Ends.pure ?_
    show s.self = _
    rw [← hfinal, ← hrelv, ← hsyms]
  | cons c cs =>
    have hpos := (h.valid c List.mem_cons_self).pos
    rw [List.flatten_cons, List.length_append] at hlength
    by_cases hc : c = [asmDelop]
    · subst hc
      refine h.delop.mono ?_
      rintro _ ⟨s', rfl, hs', hshorter, hsame⟩
      refine ⟨⟨pre, cs, hs'⟩, ?_⟩
      dsimp only
      omega
    · refine (h.keep hc).mono ?_
      rintro _ ⟨s', rfl, hs', hself, hfurther⟩
      refine ⟨⟨pre ++ c, cs, hs'⟩, ?_⟩
      dsimp only
      rw [hself]
      omega

end Delete

/-! ### Where things are found again -/

section Found

variable {c : List ℕ} {instrs : List (List ℕ)}

theorem delopsBelow_le (instrs : List (List ℕ)) (addr : ℕ) : delopsBelow instrs addr ≤ addr := by
  induction instrs generalizing addr with
  | nil => exact Nat.zero_le _
  | cons c cs ih =>
    have hle := ih (addr - c.length)
    by_cases hc : c = [asmDelop]
    · subst hc
      rcases Nat.eq_zero_or_pos addr with rfl | hpos
      · exact (delopsBelow_zero _).le
      · rw [delopsBelow_delop hpos]
        rw [List.length_singleton] at hle
        omega
    · rw [delopsBelow_keep hc]
      omega

theorem surviving_delop (cs : List (List ℕ)) : surviving ([asmDelop] :: cs) = surviving cs := rfl

theorem surviving_keep (hc : c ≠ [asmDelop]) (cs : List (List ℕ)) : surviving (c :: cs) = c :: surviving cs :=
  List.filter_cons_of_pos (by simpa using hc)

/-- An address behind the first instruction. -/
theorem moved_cons (c : List ℕ) (cs : List (List ℕ)) (addr : ℕ) :
    c.length + addr - delopsBelow (c :: cs) (c.length + addr) =
      (if c = [asmDelop] then 0 else c.length) + (addr - delopsBelow cs addr) := by
  have hle := delopsBelow_le cs addr
  by_cases hc : c = [asmDelop]
  · subst hc
    rw [if_pos rfl, delopsBelow_delop (by rw [List.length_singleton]; omega), List.length_singleton,
      Nat.add_sub_cancel_left]
    omega
  · rw [if_neg hc, delopsBelow_keep hc, Nat.add_sub_cancel_left]
    omega

theorem starts_found (instrs : List (List ℕ)) (k : ℕ) :
    (instrs.take k).flatten.length - delopsBelow instrs (instrs.take k).flatten.length =
      (surviving (instrs.take k)).flatten.length := by
  induction instrs generalizing k with
  | nil => rw [List.take_nil]; rfl
  | cons c cs ih =>
    cases k with
    | zero => exact Nat.zero_sub _
    | succ k =>
      rw [List.take_succ_cons, List.flatten_cons, List.length_append, moved_cons, ih]
      by_cases hc : c = [asmDelop]
      · rw [if_pos hc, hc, surviving_delop, Nat.zero_add]
      · rw [if_neg hc, surviving_keep hc, List.flatten_cons, List.length_append]

theorem operands_found {k o : ℕ} {code : List ℕ} (hk : instrs[k]? = some code) (hc : code ≠ [asmDelop])
    (ho : o < code.length) :
    (surviving instrs).flatten[(instrs.take k).flatten.length + o -
      delopsBelow instrs ((instrs.take k).flatten.length + o)]? = code[o]? := by
  induction instrs generalizing k with
  | nil => cases hk
  | cons first cs ih =>
    cases k with
    | zero =>
      obtain rfl : first = code := Option.some.inj hk
      rw [List.take_zero, List.flatten_nil, List.length_nil, Nat.zero_add, delopsBelow_keep hc,
        Nat.sub_eq_zero_of_le ho.le, delopsBelow_zero, Nat.sub_zero, surviving_keep hc, List.flatten_cons,
        List.getElem?_append_left ho]
    | succ k =>
      rw [List.take_succ_cons, List.flatten_cons, List.length_append, Nat.add_assoc, moved_cons]
      by_cases hfirst : first = [asmDelop]
      · rw [if_pos hfirst, hfirst, surviving_delop, Nat.zero_add]
        exact ih hk
      · rw [if_neg hfirst, surviving_keep hfirst, List.flatten_cons,
          List.getElem?_append_right (Nat.le_add_right _ _), Nat.add_sub_cancel_left]
        exact ih hk

end Found

/-! ### When the program is kept -/

section Kept

variable {c : List ℕ} {instrs : List (List ℕ)} {self : AsmState}

theorem stackEffects_singleton (c : List ℕ) : stackEffects [c] = stackEffect c := by
  unfold stackEffects stackEffects
  cases stackEffect c with
  | none => rfl
  | some d => exact congrArg some (add_zero d)

theorem smallAdjstack_effect {offset : ℤ} {b : ℕ × ℕ} (h : smallAdjstack offset = some b) :
    ∃ x y, stackEffect [b.1] = some x ∧ stackEffect [b.2] = some y ∧ x + y = offset := by
  unfold smallAdjstack at h
  split_ifs at h with h1 h2 h3 h4 h5
  · cases h
    exact ⟨-1, -1, rfl, rfl, h1.symm⟩
  · cases h
    exact ⟨-1, 0, rfl, rfl, h2.symm⟩
  · cases h
    exact ⟨0, 0, rfl, rfl, h3.symm⟩
  · cases h
    exact ⟨1, 0, rfl, rfl, h4.symm⟩
  · cases h
    exact ⟨1, 1, rfl, rfl, h5.symm⟩

theorem stackEffect_replaced8 {offset : ℤ} (h : stackEffect c = some offset) :
    stackEffects (replaced8 offset c) = stackEffect c := by
  unfold replaced8
  cases hsmall : smallAdjstack offset with
  | none => exact stackEffects_singleton c
  | some b =>
    obtain ⟨x, y, hx, hy, hsum⟩ := smallAdjstack_effect hsmall
    simp [stackEffects, hx, hy, h, hsum]

theorem stackEffect_replaced16 {offset : ℤ} (h : stackEffect c = some offset) :
    stackEffects (replaced16 offset c) = stackEffect c := by
  have hdelop : stackEffect [asmDelop] = some 0 := rfl
  unfold replaced16
  cases hsmall : smallAdjstack offset with
  | some b =>
    obtain ⟨x, y, hx, hy, hsum⟩ := smallAdjstack_effect hsmall
    simp [stackEffects, hx, hy, h, hdelop, hsum]
  | none =>
    dsimp only
    split_ifs with hfits
    · have hshort : stackEffect [asmAdjstack, uint 8 offset] = some offset := by
        rw [stackEffect, if_pos rfl, sint_uint, sint_of_fits hfits]
      simp [stackEffects, hshort, h, hdelop]
    · exact stackEffects_singleton c

/-- The replacement of an `adjstack` does the same to the stack. -/
theorem stackEffect_replaced (c : List ℕ) : stackEffects (replaced c) = stackEffect c := by
  unfold replaced
  split
  · split_ifs with hop
    · exact stackEffect_replaced8 (by rw [stackEffect, if_pos hop])
    · exact stackEffects_singleton _
  · split_ifs with hop
    · exact stackEffect_replaced16 (by rw [stackEffect, if_pos hop])
    · exact stackEffects_singleton _
  · exact stackEffects_singleton _

theorem replaced_keepsStack (h : IsInstr c) : KeepsStack c (replaced c) where
  instrs := (replaced_replaces h).instrs
  kept hadjstack _ := replaced_other (fun h0 => hadjstack (.inl h0)) fun h1 => hadjstack (.inr h1)
  effect := stackEffect_replaced c

theorem surviving_keepsStack (h : IsInstr c) : KeepsStack c (surviving [c]) := by
  by_cases hdelop : c = [asmDelop]
  · rw [hdelop]
    exact ⟨fun c' hc' => absurd hc' List.not_mem_nil, fun _ hne => absurd rfl hne, rfl⟩
  · rw [surviving_keep hdelop]
    exact ⟨List.forall_mem_singleton.mpr h, fun _ _ => rfl, stackEffects_singleton c⟩

theorem compacted_of_moved (instrs : List (List ℕ)) (self : AsmState) :
    Compacted instrs self ⟨(surviving instrs).flatten, self.relv.map (AsmRel.movedFrom 0 instrs),
      self.syms.map (AsmSym.movedFrom 0 instrs)⟩ := by
  refine ⟨rfl, List.map_congr_left fun rel _ => ?_, List.map_congr_left fun sym _ => ?_,
    fun k c o => operands_found, starts_found instrs⟩
  · unfold AsmRel.movedFrom
    rw [movedFrom_zero]
  · unfold AsmSym.movedFrom
    rw [movedFrom_zero]

theorem length_surviving (instrs : List (List ℕ)) :
    (surviving instrs).flatten.length + instrs.count [asmDelop] = instrs.flatten.length := by
  induction instrs with
  | nil => rfl
  | cons c cs ih =>
    by_cases hc : c = [asmDelop]
    · rw [hc, surviving_delop, List.count_cons_self, List.flatten_cons, List.length_append, List.length_singleton]
      omega
    · rw [surviving_keep hc, List.count_cons_of_ne hc, List.flatten_cons, List.flatten_cons, List.length_append,
        List.length_append]
      omega

theorem delopsBelow_none (h : [asmDelop] ∉ instrs) (addr : ℕ) : delopsBelow instrs addr = 0 := by
  induction instrs generalizing addr with
  | nil => rfl
  | cons c cs ih =>
    have hc : c ≠ [asmDelop] := fun heq => h (heq ▸ List.mem_cons_self)
    rw [delopsBelow_keep hc, ih fun hmem => h (List.mem_cons_of_mem _ hmem)]

/-- A text that nothing was deleted from is right when there was nothing to delete. -/
theorem compacted_unchanged_iff (instrs : List (List ℕ)) (self : AsmState) :
    Compacted instrs self { self with text := instrs.flatten } ↔ [asmDelop] ∉ instrs := by
  constructor
  · intro h hmem
    have hlength := length_surviving instrs
    have hpos := List.count_pos_iff.mpr hmem
    have htext : instrs.flatten = (surviving instrs).flatten := h.text
    rw [← htext] at hlength
    omega
  · intro hnone
    have hall : surviving instrs = instrs := List.filter_eq_self.mpr fun c hc => by
      rw [decide_eq_true_eq]
      rintro rfl
      exact hnone hc
    have hrelv : self.relv.map (AsmRel.movedFrom 0 instrs) = self.relv := by
      rw [List.map_congr_left (g := id) fun rel _ => ?_, List.map_id]
      unfold AsmRel.movedFrom
      rw [movedFrom_zero, delopsBelow_none hnone]
      rfl
    have hsyms : self.syms.map (AsmSym.movedFrom 0 instrs) = self.syms := by
      rw [List.map_congr_left (g := id) fun sym _ => ?_, List.map_id]
      unfold AsmSym.movedFrom
      rw [movedFrom_zero, delopsBelow_none hnone]
      split_ifs <;> rfl
    have h := compacted_of_moved instrs self
    rwa [hrelv, hsyms, hall] at h

/-- The program is kept with peephole optimization, and without it exactly when there is nothing to delete. -/
theorem deletesDelops_iff {peephole : Bool} (hinstrs : ∀ c ∈ instrs, IsInstr c) (htext : self.text = instrs.flatten)
    (hsorted : SortedRels self.relv) :
    DeletesDelops peephole instrs self ↔ peephole = true ∨ [asmDelop] ∉ instrs.flatMap replaced := by
  unfold DeletesDelops asmRmdelop prepared
  rw [if_neg (by decide)]
  cases peephole with
  | true =>
    refine iff_of_true ?_ (.inl rfl)
    rw [if_pos rfl, if_pos rfl, some_bind]
    refine Ends.bind (delopLoop_ends hinstrs htext hsorted) ?_
    rintro s hs
    refine Ends.pure ?_
    rw [hs]
    exact compacted_of_moved instrs self
  | false =>
    obtain ⟨r, hrun, rfl⟩ := adjstackLoop_ends hinstrs
    rw [← htext] at hrun
    -- `iter` is at the end already
    have hdone : ∀ text : List ℕ, delopRound ⟨text.length, 0, false, { self with text := text }⟩ =
        some (.done ⟨text.length, 0, false, { self with text := text }⟩) := fun text => if_neg (lt_irrefl _)
    rw [if_neg Bool.false_ne_true, if_neg Bool.false_ne_true, hrun, some_bind, loop_done (hdone _), some_bind,
      or_iff_right Bool.false_ne_true, ← compacted_unchanged_iff _ self]
    refine ⟨?_, fun h => Ends.pure h⟩
    rintro ⟨r, hr, h⟩
    rwa [← Option.some.inj hr] at h

theorem flatMap_surviving (instrs : List (List ℕ)) : (instrs.flatMap fun c => surviving [c]) = surviving instrs := by
  induction instrs with
  | nil => rfl
  | cons c cs ih =>
    rw [List.flatMap_cons, ih]
    exact (List.filter_append [c] cs).symm

/-- `asm_rmdelop` keeps each instruction, drops unused bytes, and puts instructions in place of an `adjstack` that do the
same to the stack, with and without peephole optimization. -/
theorem rmdelop_keeps_stack (peephole : Bool) (hinstrs : ∀ c ∈ instrs, IsInstr c) (htext : self.text = instrs.flatten)
    (hsorted : SortedRels self.relv) : Ends (asmRmdelop true peephole self) fun r => ∃ left : List ℕ → List (List ℕ),
      r.2.text = (instrs.flatMap left).flatten ∧ ∀ c ∈ instrs, KeepsStack c (left c) := by
  unfold asmRmdelop
  rw [if_neg (by decide)]
  cases peephole with
  | true =>
    rw [if_pos rfl, some_bind]
    refine Ends.bind (delopLoop_ends hinstrs htext hsorted) fun s hs => Ends.pure ?_
    exact ⟨fun c => surviving [c], by rw [hs, flatMap_surviving], fun c hc => surviving_keepsStack (hinstrs c hc)⟩
  | false =>
    obtain ⟨r, hrun, rfl⟩ := adjstackLoop_ends hinstrs
    rw [← htext] at hrun
    rw [if_neg Bool.false_ne_true, hrun, some_bind, loop_done (by exact if_neg (lt_irrefl _)), some_bind]
    exact Ends.pure ⟨replaced, rfl, fun c hc => replaced_keepsStack (hinstrs c hc)⟩

/-- `adjstack -2` and `adjstack 1` in its long form. -/
theorem rmdelop_keeps_stack_adjstack : Ends (asmRmdelop true false ⟨[0x27, 0xfe, 0xf0, 0x27, 0x01, 0x00], [], []⟩) fun r =>
    ∃ left : List ℕ → List (List ℕ), r.2.text = ([[0x27, 0xfe], [0xf0, 0x27, 0x01, 0x00]].flatMap left).flatten ∧
      ∀ c ∈ [[0x27, 0xfe], [0xf0, 0x27, 0x01, 0x00]], KeepsStack c (left c) :=
  rmdelop_keeps_stack false (by decide) rfl List.Pairwise.nil

end Kept

/-! ### A section with an unused byte -/

/-- `pop`, an unused byte, and `jmp` with a relocation at its operand. -/
def smallSection : AsmState :=
  ⟨[0x25, 0x8f, 0x14, 0x00], [⟨.disp8, false, 0, 3, 0⟩], [⟨2, 0, 0, 0, 1⟩]⟩

theorem deletesDelops_iff_smallSection : DeletesDelops true [[0x25], [0x8f], [0x14, 0x00]] smallSection ↔
    true = true ∨ [asmDelop] ∉ [[0x25], [0x8f], [0x14, 0x00]].flatMap replaced :=
  deletesDelops_iff (by decide) rfl (List.pairwise_singleton _ _)

/-- Without peephole optimization the unused byte stays. -/
theorem deletesDelops_fails : ¬DeletesDelops false [[0x25], [0x8f], [0x14, 0x00]] smallSection := by
  rintro ⟨r, hrun, hright⟩
  have htext : (asmRmdelop true false smallSection).map (fun r => r.2.text) = some [0x25, 0x8f, 0x14, 0x00] := by decide
  rw [hrun, Option.map_some, Option.some.injEq, hright.text] at htext
  revert htext
  decide

end Deemon.Asm
