import Deemon.Asm.Instr
import Deemon.Lib.Fields
import Deemon.Lib.Patches

/-!
# Linking

`asm_linkstack` and `asm_linktext` resolve the relocations of the text. A relocation is applied to an operand, whose
content before linking is added to the address or the stack depth of the symbol. The optimizations that run between
the two are not part of the model.
-/

namespace Deemon.Asm

open Deemon.Run Deemon.Fields Deemon.Radix Deemon.Patches

/-! ### Relocations -/

/-- `R_DMN_*`. -/
inductive RDmn where
  | none | static16
  | abs8 | abs16 | abs32
  | disp8 | disp16 | disp32
  | stck8 | stck16 | stcka8 | stcka16
  | delhand
  deriving DecidableEq

/-- `SECTION_INVALID`. -/
abbrev sectionInvalid : ℕ := 0xffff

/-- `ASM_SYM_STCK_INVALID`. -/
abbrev asmSymStckInvalid : ℕ := 0xffff

/-- `struct asm_sym`. -/
structure AsmSym where
  asAddr : ℕ
  asStck : ℕ
  asSect : ℕ
  asHand : ℕ
  asUsed : ℕ
  deriving DecidableEq

/-- `struct asm_rel`; `fuser` is the flag `R_DMN_FUSER` of `ar_type`, and `arSym` an index into the symbols. -/
structure AsmRel where
  arType : RDmn
  fuser : Bool
  arSym : ℕ
  arAddr : ℕ
  arValue : ℕ
  deriving DecidableEq

/-- The parts of `current_assembler` that linking works on: the main section and the symbols. -/
structure AsmState where
  text : List ℕ
  relv : List AsmRel
  syms : List AsmSym
  deriving DecidableEq

/-- `REL_HASSYM(ar_type)`. -/
def AsmRel.hasSym (rel : AsmRel) : Bool := rel.fuser || (rel.arType ≠ .none && rel.arType ≠ .static16)

/-- `asm_reldel`. -/
def asmReldel (syms : List AsmSym) (rel : AsmRel) : Option (List AsmSym × AsmRel) := do
  let deleted := { rel with arType := .none, fuser := false }
  if rel.hasSym then
    let sym ← syms[rel.arSym]?
    assert (sym.asUsed ≠ 0)
    some (syms.set rel.arSym { sym with asUsed := sym.asUsed - 1 }, deleted)
  else some (syms, deleted)

/-- How the round of a link loop for one relocation ends: with `continue`, after the `switch`, or at `trunc`. -/
inductive Linked where
  | skip
  | done (text : List ℕ)
  | trunc

/-! ### Single relocations -/

/-- The write of a value of `n` bytes, or `trunc`. -/
def linkField (text : List ℕ) (addr n : ℕ) (trunc : Bool) (v : ℕ) : Option Linked :=
  if trunc then some .trunc else (setLe text addr n v).map .done

/-- `rel_value` before the `switch`. -/
def relValue (sym : AsmSym) (rel : AsmRel) : ℤ := sint 32 (sint 32 sym.asAddr - rel.arAddr)

section Kinds

variable (text : List ℕ) (sym : AsmSym) (rel : AsmRel)

/-- `R_DMN_ABS8`. -/
def linkAbs8 : Option Linked :=
  let value := sint 32 (relValue sym rel + rel.arAddr)
  linkField text rel.arAddr 1 (0xff < uint 32 value) (uint 8 value)

/-- `R_DMN_ABS16`. -/
def linkAbs16 : Option Linked := do
  let value := sint 32 (sint 32 (relValue sym rel + rel.arAddr) + (← getLe text rel.arAddr 2))
  linkField text rel.arAddr 2 (0xffff < uint 32 value) (uint 16 value)

/-- `R_DMN_ABS32`. -/
def linkAbs32 : Option Linked := do
  let value := sint 32 (sint 32 (relValue sym rel + rel.arAddr) + (← getLe text rel.arAddr 4))
  linkField text rel.arAddr 4 false (uint 32 value)

/-- A signed displacement of `n` bytes; `rel_value` has 32 bits for every width. -/
def linkDisp (n : ℕ) (text : List ℕ) (sym : AsmSym) (rel : AsmRel) : Option Linked := do
  let value := sint 32 (relValue sym rel + sint (8 * n) (← getLe text rel.arAddr n))
  linkField text rel.arAddr n (¬FitsSigned (8 * n - 1) value) (uint (8 * n) value)

/-- `R_DMN_STCK8`. -/
def linkStck8 : Option Linked := do
  assert (sym.asStck ≠ asmSymStckInvalid)
  let value := sym.asStck - sint 8 (← getLe text rel.arAddr 1)
  linkField text rel.arAddr 1 (¬FitsSigned 7 value) (uint 8 value)

/-- `R_DMN_STCKA8`. -/
def linkStcka8 : Option Linked := do
  assert (sym.asStck ≠ asmSymStckInvalid)
  let value : ℤ := (← getLe text rel.arAddr 1) + sym.asStck
  linkField text rel.arAddr 1 (0xff < uint 32 value) (uint 8 value)

/-- The test for an instruction whose 16-bit operand may become one of 8 bits. -/
def mayShrink (optimize : Bool) (text : List ℕ) (rel : AsmRel) : Bool :=
  optimize && 2 ≤ rel.arAddr && cell text (rel.arAddr - 2) = asmExtended1 && !rel.fuser

/-- The instruction in its 8-bit form, with deleted bytes before and behind. -/
def shrinkField (text : List ℕ) (addr v : ℕ) : Option Linked := do
  let text ← setLe text addr 1 v
  let text ← wr text (addr - 2) asmDelop
  (wr text (addr + 1) asmDelop).map .done

/-- `R_DMN_STCK16`; `asm_linktext` does not shrink operands. -/
def linkStck16 (optimize : Bool) (text : List ℕ) (sym : AsmSym) (rel : AsmRel) : Option Linked := do
  assert (sym.asStck ≠ asmSymStckInvalid)
  let value := sym.asStck - sint 16 (← getLe text rel.arAddr 2)
  if FitsSigned 15 value ∧ FitsSigned 7 (sint 16 value) ∧ mayShrink optimize text rel then
    shrinkField text rel.arAddr (uint 8 (sint 8 value))
  else linkField text rel.arAddr 2 (¬FitsSigned 15 value) (uint 16 value)

/-- `R_DMN_STCKA16`; `asm_linktext` does not shrink operands. -/
def linkStcka16 (optimize : Bool) (text : List ℕ) (sym : AsmSym) (rel : AsmRel) : Option Linked := do
  assert (sym.asStck ≠ asmSymStckInvalid)
  let value : ℤ := (← getLe text rel.arAddr 2) + sym.asStck
  -- the cast comes before the comparison
  if 0xffff < uint 16 value then some .trunc
  else if value < 0xff ∧ mayShrink optimize text rel then shrinkField text rel.arAddr (uint 8 value)
  else linkField text rel.arAddr 2 false (uint 16 value)

/-- `R_DMN_DELHAND`. -/
def linkDelhand : Option Linked :=
  if rel.arValue < sym.asHand then some (.done text)
  else do
    let numKeep := rel.arValue - sym.asHand
    let numDelete := rel.arValue - numKeep
    let target ← nextInstrs text numKeep rel.arAddr
    let targetEnd ← nextInstrs text numDelete target
    (fillCells text target asmDelop (targetEnd - target)).map .done

end Kinds

/-! ### The passes -/

/-- The symbol of a relocation, which is defined. -/
def relSym (syms : List AsmSym) (rel : AsmRel) : Option AsmSym := do
  let sym ← syms[rel.arSym]?
  assert (sym.asSect ≠ sectionInvalid)
  some sym

/-- One round of `asm_linkstack`. -/
def linkstackRel (optimize : Bool) (text : List ℕ) (syms : List AsmSym) (rel : AsmRel) : Option Linked := do
  if rel.arType = .none ∨ rel.arType = .static16 then return .skip
  let sym ← relSym syms rel
  match rel.arType with
  | .stck8 => linkStck8 text sym rel
  | .stck16 => linkStck16 optimize text sym rel
  | .stcka8 => linkStcka8 text sym rel
  | .stcka16 => linkStcka16 optimize text sym rel
  | .delhand => linkDelhand text sym rel
  | _ => return .skip

/-- One round of `asm_linktext`. -/
def linktextRel (text : List ℕ) (syms : List AsmSym) (rel : AsmRel) : Option Linked := do
  if rel.arType = .none then return .skip
  let sym ← relSym syms rel
  match rel.arType with
  | .abs8 => linkAbs8 text sym rel
  | .abs16 => linkAbs16 text sym rel
  | .abs32 => linkAbs32 text sym rel
  | .disp8 => linkDisp 1 text sym rel
  | .disp16 => linkDisp 2 text sym rel
  | .disp32 => linkDisp 4 text sym rel
  | .stck8 => linkStck8 text sym rel
  | .stck16 => linkStck16 false text sym rel
  | .stcka8 => linkStcka8 text sym rel
  | .stcka16 => linkStcka16 false text sym rel
  | .delhand => linkDelhand text sym rel
  | _ => return .skip

/-- A relocation that a pass leaves as it is, in front of the ones behind it. -/
def AsmState.keepRel (rel : AsmRel) (r : AsmState × ℕ) : AsmState × ℕ :=
  ({ r.1 with relv := rel :: r.1.relv }, r.2)

/-- `asm_linkstack` from some relocation on. -/
def linkstackFrom (optimize : Bool) : List AsmRel → List ℕ → List AsmSym → Option (AsmState × ℕ)
  | [], text, syms => some (⟨text, [], syms⟩, 0)
  | rel :: rels, text, syms => do
    match ← linkstackRel optimize text syms rel with
    | .trunc => some (⟨text, rel :: rels, syms⟩, 1)
    | .skip => (linkstackFrom optimize rels text syms).map (AsmState.keepRel rel)
    | .done text =>
      let (syms, rel) ← asmReldel syms rel
      (linkstackFrom optimize rels text syms).map (AsmState.keepRel rel)

/-- `asm_linkstack`; the result is 0, or 1 for `trunc`. -/
def asmLinkstack (optimize : Bool) (self : AsmState) : Option (AsmState × ℕ) :=
  linkstackFrom optimize self.relv self.text self.syms

/-- `asm_linktext` from some relocation on. -/
def linktextFrom : List AsmRel → List ℕ → List AsmSym → Option (AsmState × ℕ)
  | [], text, syms => some (⟨text, [], syms⟩, 0)
  | rel :: rels, text, syms => do
    match ← linktextRel text syms rel with
    | .trunc => some (⟨text, rel :: rels, syms⟩, 1)
    | .skip => (linktextFrom rels text syms).map (AsmState.keepRel rel)
    | .done text => (linktextFrom rels text syms).map (AsmState.keepRel rel)

/-- `asm_linktext`; the result is 0, or 1 for `trunc`. -/
def asmLinktext (self : AsmState) : Option (AsmState × ℕ) := linktextFrom self.relv self.text self.syms

/-- `ASM_FPEEPHOLE` and `ASM_FOPTIMIZE` of `a_flag`. -/
structure AsmFlags where
  peephole : Bool
  optimize : Bool

/-- The linking that `code_docompile` does; `asm_linktext` follows if `asm_linkstack` did not fail. -/
def codeDocompileLink (flags : AsmFlags) (self : AsmState) : Option (AsmState × ℕ) := do
  if flags.peephole || flags.optimize then
    let (self, linkError) ← asmLinkstack flags.optimize self
    if linkError ≠ 0 then some (self, linkError) else asmLinktext self
  else asmLinktext self

end Deemon.Asm
