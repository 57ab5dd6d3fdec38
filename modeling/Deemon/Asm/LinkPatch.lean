import Deemon.Asm.Link

/-!
# Relocations as patches

Each relocation prescribes a value for its operand (`AsmRel.value`). The passes store another one (`AsmRel.linked`):
`R_DMN_ABS8` leaves out what the operand contained, the addresses are added in 32 bits, and the checks of
`R_DMN_ABS32`, `R_DMN_DISP32` and `R_DMN_STCKA16` never fail. A round of a link loop runs the patch of its relocation.
-/

namespace Deemon.Asm

open Deemon.Run Deemon.Fields Deemon.Radix Deemon.Patches

/-! ### What relocations prescribe -/

/-- The number of bytes of the operand. -/
def RDmn.width : RDmn → ℕ
  | .abs8 | .disp8 | .stck8 | .stcka8 => 1
  | .abs16 | .disp16 | .stck16 | .stcka16 => 2
  | .abs32 | .disp32 => 4
  | .none | .static16 | .delhand => 0

/-- The operand is signed. -/
def RDmn.signed : RDmn → Bool
  | .disp8 | .disp16 | .disp32 | .stck8 | .stck16 => true
  | _ => false

/-- `asm_linkstack` handles the relocation. -/
def RDmn.isStack : RDmn → Bool
  | .stck8 | .stck16 | .stcka8 | .stcka16 | .delhand => true
  | _ => false

/-- The relocation may shrink its operand. -/
def RDmn.shrinks : RDmn → Bool
  | .stck16 | .stcka16 => true
  | _ => false

/-- An integer of `n` bytes in the text. -/
def field (signed : Bool) (n : ℕ) (text : List ℕ) (addr : ℕ) : ℤ :=
  if signed then sint (8 * n) (seg 256 text addr n) else seg 256 text addr n

/-- The values of an integer of `n` bytes. -/
def FitsField (signed : Bool) (n : ℕ) (v : ℤ) : Prop :=
  if signed then FitsSigned (8 * n - 1) v else FitsUnsigned (8 * n) v

instance {signed : Bool} {n : ℕ} {v : ℤ} : Decidable (FitsField signed n v) :=
  inferInstanceAs (Decidable (if signed = true then _ else _))

namespace AsmRel

variable (rel : AsmRel) (text text' : List ℕ) (sym : AsmSym)

/-- What the operand contains before linking. -/
def addend : ℤ := field rel.arType.signed rel.arType.width text rel.arAddr

/-- The value for the operand by the type of the relocation. -/
def value : ℤ :=
  match rel.arType with
  | .abs8 | .abs16 | .abs32 => sym.asAddr + rel.addend text
  | .disp8 | .disp16 | .disp32 => sym.asAddr - rel.arAddr + rel.addend text
  | .stck8 | .stck16 => sym.asStck - rel.addend text
  | .stcka8 | .stcka16 => sym.asStck + rel.addend text
  | .none | .static16 | .delhand => 0

/-- The operand can hold `v`. -/
def Fits (v : ℤ) : Prop := FitsField rel.arType.signed rel.arType.width v

instance {v : ℤ} : Decidable (rel.Fits v) := inferInstanceAs (Decidable (FitsField _ _ _))

/-- `ASM_EXTENDED1` in front of the instruction was deleted, so that the operand has one byte. -/
def shrunk : Bool :=
  rel.arType.shrinks && !rel.fuser && 2 ≤ rel.arAddr && cell text (rel.arAddr - 2) = asmExtended1 &&
    cell text' (rel.arAddr - 2) = asmDelop

/-- The operand in the linked text `text'`. -/
def operand : ℤ :=
  field rel.arType.signed (if rel.shrunk text text' then 1 else rel.arType.width) text' rel.arAddr

/-- The value that is stored if it fits. -/
def linked : ℤ :=
  match rel.arType with
  | .abs8 => sym.asAddr
  | .abs16 | .abs32 => rel.value text sym % 2 ^ 32
  | .disp8 | .disp16 | .disp32 => sint 32 (rel.value text sym)
  | .stcka16 => rel.value text sym % 2 ^ 16
  | _ => rel.value text sym

/-- The bytes that linking the relocation may read or write. -/
def footprint : Set ℕ :=
  match rel.arType with
  | .none => ∅
  | .delhand => {j | rel.arAddr ≤ j ∧ j < (nextInstrs text rel.arValue rel.arAddr).getD 0}
  | _ => {j | rel.arAddr ≤ j ∧ j < rel.arAddr + rel.arType.width ∨
      rel.arType.shrinks ∧ !rel.fuser ∧ j + 2 = rel.arAddr}

end AsmRel

/-- The symbol of a relocation is defined, with a stack depth. -/
structure AsmRel.HasSymbol (rel : AsmRel) (syms : List AsmSym) (sym : AsmSym) : Prop where
  get : syms[rel.arSym]? = some sym
  sect : sym.asSect ≠ sectionInvalid
  addr_lt : sym.asAddr < 2 ^ 32
  stck_lt : sym.asStck < 2 ^ 16
  stck : rel.arType.isStack = true → sym.asStck ≠ asmSymStckInvalid

/-! ### Relocations as patches -/

section Patch

variable {rel : AsmRel} {sym : AsmSym} {text text' l l' m m' : List ℕ} {n a : ℕ} {x v : ℤ}

theorem AsmRel.mem_footprint {j : ℕ} (h : 0 < rel.arType.width) :
    j ∈ rel.footprint text ↔
      rel.arAddr ≤ j ∧ j < rel.arAddr + rel.arType.width ∨ rel.arType.shrinks ∧ !rel.fuser ∧ j + 2 = rel.arAddr := by
  unfold AsmRel.footprint
  cases htype : rel.arType with
  | none => rw [htype] at h; exact absurd h (Nat.lt_irrefl 0)
  | delhand => rw [htype] at h; exact absurd h (Nat.lt_irrefl 0)
  | _ => rfl

theorem field_congr {s : Bool} (h : ∀ i < n, cell m (a + i) = cell l (a + i)) : field s n m a = field s n l a := by
  unfold field
  rw [seg_congr h]

section Agree

variable (hw : 0 < rel.arType.width) (h : AgreeOn (rel.footprint text) l m)
include hw h

theorem AsmRel.addend_congr : rel.addend m = rel.addend l :=
  field_congr fun i hi => h.cells _ ((AsmRel.mem_footprint hw).mpr (Or.inl (by omega)))

theorem AsmRel.value_congr : rel.value m sym = rel.value l sym := by
  unfold AsmRel.value
  rw [AsmRel.addend_congr hw h]

theorem AsmRel.linked_congr : rel.linked m sym = rel.linked l sym := by
  unfold AsmRel.linked
  rw [AsmRel.value_congr hw h]

theorem AsmRel.shrunk_congr (h' : AgreeOn (rel.footprint text) l' m') : rel.shrunk m m' = rel.shrunk l l' := by
  unfold AsmRel.shrunk
  by_cases hmay : rel.arType.shrinks ∧ !rel.fuser ∧ 2 ≤ rel.arAddr
  · obtain ⟨hshrinks, hfuser, hle⟩ := hmay
    have hmem : rel.arAddr - 2 ∈ rel.footprint text :=
      (AsmRel.mem_footprint hw).mpr (Or.inr ⟨hshrinks, hfuser, by omega⟩)
    rw [h.cells _ hmem, h'.cells _ hmem]
  · have hfalse : (rel.arType.shrinks && !rel.fuser && decide (2 ≤ rel.arAddr)) = false := by
      rw [Bool.eq_false_iff]
      simpa only [ne_eq, Bool.and_eq_true, decide_eq_true_eq, and_assoc] using hmay
    simp only [hfalse, Bool.false_and]

theorem AsmRel.operand_congr (h' : AgreeOn (rel.footprint text) l' m') : rel.operand m m' = rel.operand l l' := by
  unfold AsmRel.operand
  rw [AsmRel.shrunk_congr hw h h']
  refine field_congr fun i hi => h'.cells _ ((AsmRel.mem_footprint hw).mpr (Or.inl ?_))
  have hle : (if rel.shrunk l l' = true then 1 else rel.arType.width) ≤ rel.arType.width := by
    split
    · exact hw
    · exact le_rfl
  omega

end Agree

/-- What a relocation of `text` does to a text, as a patch. -/
def relPatch (text : List ℕ) (sym : AsmSym) (rel : AsmRel) : Patch where
  footprint := rel.footprint text
  Needs l := rel.arAddr + rel.arType.width ≤ l.length ∧ Below 256 l rel.arAddr rel.arType.width ∧
    (rel.arType = .delhand → ∃ e, nextInstrs text rel.arValue rel.arAddr = some e ∧
      nextInstrs l rel.arValue rel.arAddr = some e ∧ e ≤ l.length)
  Refuses l := 0 < rel.arType.width ∧ ¬rel.Fits (rel.linked l sym)
  Does l l' := 0 < rel.arType.width → rel.operand l l' = rel.linked l sym
  needs_congr := by
    rintro l m h ⟨hin, hbelow, hwalk⟩
    refine ⟨h.length ▸ hin, fun i hi => ?_, fun htype => ?_⟩
    · rw [h.cells _ ((AsmRel.mem_footprint (Nat.zero_lt_of_lt hi)).mpr (Or.inl (by omega)))]
      exact hbelow i hi
    obtain ⟨e, htext, hl, hle⟩ := hwalk htype
    refine ⟨e, htext, nextInstrs_congr hl h.length fun j hlo hhi => h.cells j ?_, h.length ▸ hle⟩
    unfold AsmRel.footprint
    rw [htype, htext]
    exact ⟨hlo, hhi⟩
  refuses_congr := by
    rintro l m h ⟨hw, hfits⟩
    rw [← AsmRel.linked_congr hw h] at hfits
    exact ⟨hw, hfits⟩
  does_congr := by
    intro l l' m m' h h' hdoes hw
    rw [AsmRel.linked_congr hw h, AsmRel.operand_congr hw h h', hdoes hw]

/-- The frame of a write to the operand, and perhaps to the byte two before it. -/
theorem AsmRel.agreeOn_of_sameOut (hw : 0 < rel.arType.width) (h : SameOut l l' rel.arAddr rel.arType.width) :
    AgreeOn (rel.footprint text)ᶜ l l' := by
  refine ⟨h.length, fun j hj => h.out j ?_⟩
  rw [Set.mem_compl_iff, AsmRel.mem_footprint hw] at hj
  omega

/-- A write to the operand does not delete the byte in front of the opcode. -/
theorem AsmRel.not_shrunk (h : SameOut l l' rel.arAddr n) : rel.shrunk l l' = false := by
  unfold AsmRel.shrunk
  rw [Bool.eq_false_iff]
  simp only [ne_eq, Bool.and_eq_true, decide_eq_true_eq, not_and]
  rintro ⟨⟨-, hle⟩, hext⟩ hdel
  rw [h.out _ (Or.inl (by omega)), hext] at hdel
  exact absurd hdel (by decide)

/-- How a round of a link loop ends for a patch that the pass handles. -/
def Linked.Sat (p : Patch) (text : List ℕ) : Linked → Prop
  | .skip => False
  | .done text' => p.Spec text (some text')
  | .trunc => p.Spec text none

/-- The write of a value `x`, reduced to the width of the operand. -/
theorem linkField_sat {trunc : Bool} (hn : rel.arType.width = n) (hpos : 0 < n) (hin : rel.arAddr + n ≤ l.length)
    (htrunc : trunc = true ↔ ¬rel.Fits (rel.linked l sym))
    (hx : rel.Fits (rel.linked l sym) →
      (if rel.arType.signed then sint (8 * n) x else x % 2 ^ (8 * n)) = rel.linked l sym) :
    Ends (linkField l rel.arAddr n trunc (uint (8 * n) x)) (Linked.Sat (relPatch text sym rel) l) := by
  have hw : 0 < rel.arType.width := hn ▸ hpos
  unfold linkField
  by_cases ht : trunc = true
  · rw [if_pos ht]
    exact Ends.pure ⟨hw, htrunc.mp ht⟩
  · rw [if_neg ht]
    have hfits : rel.Fits (rel.linked l sym) := not_not.mp fun h => ht (htrunc.mpr h)
    have hlt : uint (8 * n) x < 256 ^ n := by
      rw [show (256 : ℕ) = 2 ^ 8 by norm_num, ← pow_mul]
      exact uint_lt
    refine (setLe_ends hin hlt).map ?_
    rintro l' ⟨hsame, -, hseg⟩
    refine ⟨fun h => h.2 hfits, AsmRel.agreeOn_of_sameOut hw (hn ▸ hsame), fun _ => ?_⟩
    have hread : rel.operand l l' = if rel.arType.signed then sint (8 * n) x else x % 2 ^ (8 * n) := by
      unfold AsmRel.operand field
      rw [AsmRel.not_shrunk hsame, if_neg Bool.false_ne_true, hn, hseg, sint_uint, natCast_uint]
    rw [hread, hx hfits]

/-! ### The types of relocations -/

theorem relValue_eq : relValue sym rel = sint 32 (sym.asAddr - rel.arAddr) := by
  unfold relValue
  rw [sub_eq_add_neg, sint_sint_add, ← sub_eq_add_neg]

theorem relValue_add : sint 32 (relValue sym rel + rel.arAddr) = sint 32 sym.asAddr := by
  rw [relValue_eq, sint_sint_add, sub_add_cancel]

theorem sint_emod {w k : ℕ} (h : k ≤ w) (x : ℤ) : sint w x % 2 ^ k = x % 2 ^ k := by
  have hmod : sint w x % 2 ^ w = x % 2 ^ w := by
    rw [← natCast_uint, uint_sint, natCast_uint]
  have hdvd : (2 : ℤ) ^ k ∣ 2 ^ w := pow_dvd_pow 2 h
  rw [← Int.emod_emod_of_dvd _ hdvd, hmod, Int.emod_emod_of_dvd _ hdvd]

theorem lt_uint_iff {w k b : ℕ} (hb : b + 1 = 2 ^ k) (x : ℤ) : b < uint w x ↔ ¬FitsUnsigned k (x % 2 ^ w) := by
  rw [← natCast_uint]
  unfold FitsUnsigned
  have hcast : ((2 ^ k : ℕ) : ℤ) = 2 ^ k := by push_cast; rfl
  rw [← hcast, ← hb]
  omega

theorem AsmRel.addend_eq (hsigned : rel.arType.signed = false) (hn : rel.arType.width = n) :
    rel.addend l = seg 256 l rel.arAddr n := by
  unfold AsmRel.addend field
  rw [hsigned, if_neg Bool.false_ne_true, hn]

theorem AsmRel.addend_eq_sint (hsigned : rel.arType.signed = true) (hn : rel.arType.width = n) :
    rel.addend l = sint (8 * n) (seg 256 l rel.arAddr n) := by
  unfold AsmRel.addend field
  rw [if_pos hsigned, hn]

theorem AsmRel.fits_iff (hsigned : rel.arType.signed = false) (hn : rel.arType.width = n) :
    rel.Fits v ↔ FitsUnsigned (8 * n) v := by
  unfold AsmRel.Fits FitsField
  rw [hsigned, if_neg Bool.false_ne_true, hn]

theorem AsmRel.fits_iff_signed (hsigned : rel.arType.signed = true) (hn : rel.arType.width = n) :
    rel.Fits v ↔ FitsSigned (8 * n - 1) v := by
  unfold AsmRel.Fits FitsField
  rw [if_pos hsigned, hn]

theorem linkAbs8_sat (htype : rel.arType = .abs8) (hin : rel.arAddr + 1 ≤ l.length) (haddr : sym.asAddr < 2 ^ 32) :
    Ends (linkAbs8 l sym rel) (Linked.Sat (relPatch text sym rel) l) := by
  have haddr' : (sym.asAddr : ℤ) % 2 ^ 32 = sym.asAddr := by omega
  have hlinked : rel.linked l sym = sym.asAddr := by
    unfold AsmRel.linked
    rw [htype]
  have hsigned : rel.arType.signed = false := by rw [htype]; rfl
  have hwidth : rel.arType.width = 1 := by rw [htype]; rfl
  have hfits := AsmRel.fits_iff (v := rel.linked l sym) hsigned hwidth
  unfold linkAbs8
  dsimp only
  rw [relValue_add]
  refine linkField_sat hwidth Nat.one_pos hin ?_ fun h => ?_
  · rw [decide_eq_true_iff, hfits, uint_sint, @lt_uint_iff 32 8 _ rfl, haddr', hlinked]
  · rw [hsigned, if_neg Bool.false_ne_true, sint_emod (by norm_num), hlinked]
    rw [hlinked] at hfits
    rw [hlinked, hfits] at h
    exact Int.emod_eq_of_lt h.1 h.2

theorem linkAbs16_sat (htype : rel.arType = .abs16) (hin : rel.arAddr + 2 ≤ l.length) :
    Ends (linkAbs16 l sym rel) (Linked.Sat (relPatch text sym rel) l) := by
  have hsigned : rel.arType.signed = false := by rw [htype]; rfl
  have hwidth : rel.arType.width = 2 := by rw [htype]; rfl
  have hvalue : rel.value l sym = sym.asAddr + seg 256 l rel.arAddr 2 := by
    rw [← AsmRel.addend_eq hsigned hwidth]
    unfold AsmRel.value
    rw [htype]
  have hlinked : rel.linked l sym = rel.value l sym % 2 ^ 32 := by
    unfold AsmRel.linked
    rw [htype]
  have hfits := AsmRel.fits_iff (v := rel.linked l sym) hsigned hwidth
  unfold linkAbs16
  rw [getLe_of_le hin, some_bind]
  dsimp only
  rw [relValue_add, sint_sint_add, ← hvalue]
  refine linkField_sat hwidth Nat.two_pos hin ?_ fun h => ?_
  · rw [decide_eq_true_iff, hfits, uint_sint, @lt_uint_iff 32 16 _ rfl, hlinked]
  · rw [hsigned, if_neg Bool.false_ne_true, sint_emod (by norm_num)]
    rw [hfits] at h
    have hdvd : (2 : ℤ) ^ (8 * 2) ∣ 2 ^ 32 := pow_dvd_pow 2 (by norm_num)
    rw [← Int.emod_emod_of_dvd _ hdvd, ← hlinked]
    exact Int.emod_eq_of_lt h.1 h.2

theorem linkAbs32_sat (htype : rel.arType = .abs32) (hin : rel.arAddr + 4 ≤ l.length) :
    Ends (linkAbs32 l sym rel) (Linked.Sat (relPatch text sym rel) l) := by
  have hsigned : rel.arType.signed = false := by rw [htype]; rfl
  have hwidth : rel.arType.width = 4 := by rw [htype]; rfl
  have hvalue : rel.value l sym = sym.asAddr + seg 256 l rel.arAddr 4 := by
    rw [← AsmRel.addend_eq hsigned hwidth]
    unfold AsmRel.value
    rw [htype]
  have hlinked : rel.linked l sym = rel.value l sym % 2 ^ 32 := by
    unfold AsmRel.linked
    rw [htype]
  have hfits : rel.Fits (rel.linked l sym) := by
    rw [AsmRel.fits_iff hsigned hwidth, hlinked, ← natCast_uint]
    exact fitsUnsigned_uint
  unfold linkAbs32
  rw [getLe_of_le hin, some_bind]
  dsimp only
  rw [relValue_add, sint_sint_add, ← hvalue]
  refine @linkField_sat rel sym text l 4 _ _ hwidth (by norm_num) hin ?_ fun h => ?_
  · exact ⟨fun h => absurd h Bool.false_ne_true, fun h => absurd hfits h⟩
  · rw [hsigned, if_neg Bool.false_ne_true, sint_emod (by norm_num), hlinked]

theorem linkDisp_sat (htype : rel.arType = .disp8 ∨ rel.arType = .disp16 ∨ rel.arType = .disp32)
    (hin : rel.arAddr + rel.arType.width ≤ l.length) :
    Ends (linkDisp rel.arType.width l sym rel) (Linked.Sat (relPatch text sym rel) l) := by
  have hsigned : rel.arType.signed = true := by rcases htype with htype | htype | htype <;> rw [htype] <;> rfl
  have hpos : 0 < rel.arType.width := by rcases htype with htype | htype | htype <;> rw [htype] <;> decide
  have hvalue : rel.value l sym = sym.asAddr - rel.arAddr + rel.addend l := by
    unfold AsmRel.value
    rcases htype with htype | htype | htype <;> rw [htype]
  have hlinked : rel.linked l sym = sint 32 (rel.value l sym) := by
    unfold AsmRel.linked
    rcases htype with htype | htype | htype <;> rw [htype]
  have hfits := AsmRel.fits_iff_signed (v := rel.linked l sym) hsigned rfl
  unfold linkDisp
  rw [getLe_of_le hin, some_bind]
  dsimp only
  rw [relValue_eq, sint_sint_add, ← AsmRel.addend_eq_sint hsigned rfl, ← hvalue, ← hlinked]
  refine linkField_sat rfl hpos hin ?_ fun h => ?_
  · rw [decide_eq_true_iff, hfits]
  · rw [if_pos hsigned]
    have hw : 8 * rel.arType.width = 8 * rel.arType.width - 1 + 1 := by omega
    rw [hw]
    exact sint_of_fits (hfits.mp h)

theorem linkStck8_sat (htype : rel.arType = .stck8) (hin : rel.arAddr + 1 ≤ l.length)
    (hstck : sym.asStck ≠ asmSymStckInvalid) :
    Ends (linkStck8 l sym rel) (Linked.Sat (relPatch text sym rel) l) := by
  have hsigned : rel.arType.signed = true := by rw [htype]; rfl
  have hwidth : rel.arType.width = 1 := by rw [htype]; rfl
  have hlinked : rel.linked l sym = sym.asStck - rel.addend l := by
    unfold AsmRel.linked AsmRel.value
    rw [htype]
  have hfits := AsmRel.fits_iff_signed (v := rel.linked l sym) hsigned hwidth
  unfold linkStck8
  rw [assert_of hstck, some_bind, getLe_of_le hin, some_bind]
  dsimp only
  rw [← AsmRel.addend_eq_sint (n := 1) hsigned hwidth, ← hlinked]
  refine linkField_sat hwidth Nat.one_pos hin ?_ fun h => ?_
  · rw [decide_eq_true_iff, hfits]
  · rw [if_pos hsigned]
    exact sint_of_fits (hfits.mp h)

theorem linkStcka8_sat (htype : rel.arType = .stcka8) (hin : rel.arAddr + 1 ≤ l.length)
    (hbelow : Below 256 l rel.arAddr 1) (hstck : sym.asStck ≠ asmSymStckInvalid) (hlt : sym.asStck < 2 ^ 16) :
    Ends (linkStcka8 l sym rel) (Linked.Sat (relPatch text sym rel) l) := by
  have hsigned : rel.arType.signed = false := by rw [htype]; rfl
  have hwidth : rel.arType.width = 1 := by rw [htype]; rfl
  have hlinked : rel.linked l sym = seg 256 l rel.arAddr 1 + sym.asStck := by
    rw [add_comm, ← AsmRel.addend_eq hsigned hwidth]
    unfold AsmRel.linked AsmRel.value
    rw [htype]
  have hfits := AsmRel.fits_iff (v := rel.linked l sym) hsigned hwidth
  have hsmall : rel.linked l sym % 2 ^ 32 = rel.linked l sym := by
    have hseg := seg_lt hbelow
    rw [hlinked]
    omega
  unfold linkStcka8
  rw [assert_of hstck, some_bind, getLe_of_le hin, some_bind]
  dsimp only
  rw [← hlinked]
  refine linkField_sat hwidth Nat.one_pos hin ?_ fun h => ?_
  · rw [decide_eq_true_iff, hfits, @lt_uint_iff 32 8 _ rfl, hsmall]
  · rw [hsigned, if_neg Bool.false_ne_true]
    rw [hfits] at h
    exact Int.emod_eq_of_lt h.1 h.2

/-- The 8-bit form of an instruction has the value as its operand. -/
theorem shrinkField_sat {n' : ℕ} (hshrinks : rel.arType.shrinks = true) (hwidth : rel.arType.width = 2)
    (hin : rel.arAddr + 2 ≤ l.length) (hmay : mayShrink true l rel = true)
    (hfits : rel.Fits (rel.linked l sym)) (hn' : n' < 256)
    (hread : (if rel.arType.signed then sint 8 n' else n') = rel.linked l sym) :
    Ends (shrinkField l rel.arAddr n') (Linked.Sat (relPatch text sym rel) l) := by
  have hw : 0 < rel.arType.width := hwidth ▸ Nat.two_pos
  unfold mayShrink at hmay
  simp only [Bool.true_and, Bool.and_eq_true, decide_eq_true_eq] at hmay
  obtain ⟨⟨hle, hext⟩, hfuser⟩ := hmay
  unfold shrinkField
  refine Ends.bind (setLe_ends (n := 1) (by omega) (by rwa [pow_one])) ?_
  rintro l₁ ⟨hsame, -, hseg⟩
  have hlen := hsame.length
  have hcell : cell l₁ rel.arAddr = n' := by
    rw [← hseg, seg_succ_front]
    show _ = _ + 256 * 0
    rw [Nat.mul_zero, Nat.add_zero]
  rw [wr_of_lt (by omega), some_bind, wr_of_lt (by rw [List.length_set]; omega)]
  have hdel : cell ((l₁.set (rel.arAddr - 2) asmDelop).set (rel.arAddr + 1) asmDelop) (rel.arAddr - 2) = asmDelop := by
    rw [cell_set_of_ne (by omega), cell_set_self (by omega)]
  have hop : cell ((l₁.set (rel.arAddr - 2) asmDelop).set (rel.arAddr + 1) asmDelop) rel.arAddr = n' := by
    rw [cell_set_of_ne (by omega), cell_set_of_ne (by omega), hcell]
  refine Ends.pure ⟨fun h => h.2 hfits, ⟨?_, fun j hj => ?_⟩, fun _ => ?_⟩
  · rw [List.length_set, List.length_set, hlen]
  · change j ∈ (rel.footprint text)ᶜ at hj
    rw [Set.mem_compl_iff, AsmRel.mem_footprint hw, hwidth] at hj
    have hout : ¬(rel.arAddr ≤ j ∧ j < rel.arAddr + 2) := fun h => hj (Or.inl h)
    have hext' : ¬j + 2 = rel.arAddr := fun h => hj (Or.inr ⟨hshrinks, hfuser, h⟩)
    rw [cell_set_of_ne (by omega), cell_set_of_ne (by omega), hsame.out j (by omega)]
  · have hshrunk : rel.shrunk l ((l₁.set (rel.arAddr - 2) asmDelop).set (rel.arAddr + 1) asmDelop) = true := by
      unfold AsmRel.shrunk
      simp only [hshrinks, hfuser, hle, hext, hdel, decide_true, Bool.and_true]
    unfold AsmRel.operand field
    rw [hshrunk, if_pos rfl, seg_succ_front, hop, ← hread]
    rfl

theorem linkStck16_sat {optimize : Bool} (htype : rel.arType = .stck16) (hin : rel.arAddr + 2 ≤ l.length)
    (hstck : sym.asStck ≠ asmSymStckInvalid) :
    Ends (linkStck16 optimize l sym rel) (Linked.Sat (relPatch text sym rel) l) := by
  have hsigned : rel.arType.signed = true := by rw [htype]; rfl
  have hwidth : rel.arType.width = 2 := by rw [htype]; rfl
  have hlinked : rel.linked l sym = sym.asStck - rel.addend l := by
    unfold AsmRel.linked AsmRel.value
    rw [htype]
  have hfits := AsmRel.fits_iff_signed (v := rel.linked l sym) hsigned hwidth
  unfold linkStck16
  rw [assert_of hstck, some_bind, getLe_of_le hin, some_bind]
  dsimp only
  rw [← AsmRel.addend_eq_sint (n := 2) hsigned hwidth, ← hlinked]
  by_cases hshrink : FitsSigned 15 (rel.linked l sym) ∧ FitsSigned 7 (sint 16 (rel.linked l sym)) ∧
      mayShrink optimize l rel = true
  · rw [if_pos hshrink]
    obtain ⟨hfits16, hfits8, hmay⟩ := hshrink
    rw [sint_of_fits hfits16] at hfits8
    obtain rfl : optimize = true := by
      unfold mayShrink at hmay
      simp only [Bool.and_eq_true] at hmay
      exact hmay.1.1.1
    refine shrinkField_sat (by rw [htype]; rfl) hwidth hin hmay (hfits.mpr hfits16) uint_lt ?_
    rw [if_pos hsigned, sint_uint, sint_of_fits hfits8, sint_of_fits hfits8]
  · rw [if_neg hshrink]
    refine linkField_sat hwidth Nat.two_pos hin ?_ fun h => ?_
    · rw [decide_eq_true_iff, hfits]
    · rw [if_pos hsigned]
      exact sint_of_fits (hfits.mp h)

theorem linkStcka16_sat {optimize : Bool} (htype : rel.arType = .stcka16) (hin : rel.arAddr + 2 ≤ l.length)
    (hstck : sym.asStck ≠ asmSymStckInvalid) :
    Ends (linkStcka16 optimize l sym rel) (Linked.Sat (relPatch text sym rel) l) := by
  have hsigned : rel.arType.signed = false := by rw [htype]; rfl
  have hwidth : rel.arType.width = 2 := by rw [htype]; rfl
  have hvalue : rel.value l sym = seg 256 l rel.arAddr 2 + sym.asStck := by
    rw [add_comm, ← AsmRel.addend_eq hsigned hwidth]
    unfold AsmRel.value
    rw [htype]
  have hlinked : rel.linked l sym = rel.value l sym % 2 ^ 16 := by
    unfold AsmRel.linked
    rw [htype]
  have hfits : rel.Fits (rel.linked l sym) := by
    rw [AsmRel.fits_iff hsigned hwidth, hlinked, ← natCast_uint]
    exact fitsUnsigned_uint
  unfold linkStcka16
  rw [assert_of hstck, some_bind, getLe_of_le hin, some_bind]
  dsimp only
  -- a value that was cast to 16 bits passes the check
  have hcast : ¬0xffff < uint 16 (rel.value l sym) := Nat.not_lt.mpr (Nat.le_of_lt_succ uint_lt)
  rw [← hvalue, if_neg hcast]
  by_cases hshrink : rel.value l sym < 0xff ∧ mayShrink optimize l rel = true
  · rw [if_pos hshrink]
    obtain ⟨hsmall, hmay⟩ := hshrink
    obtain rfl : optimize = true := by
      unfold mayShrink at hmay
      simp only [Bool.and_eq_true] at hmay
      exact hmay.1.1.1
    have hnonneg : 0 ≤ rel.value l sym := by rw [hvalue]; positivity
    refine shrinkField_sat (by rw [htype]; rfl) hwidth hin hmay hfits uint_lt ?_
    rw [hsigned, if_neg Bool.false_ne_true, hlinked, natCast_uint]
    omega
  · rw [if_neg hshrink]
    refine linkField_sat hwidth Nat.two_pos hin ?_ fun h => ?_
    · exact ⟨fun h => absurd h Bool.false_ne_true, fun h => absurd hfits h⟩
    · rw [hsigned, if_neg Bool.false_ne_true, hlinked]

theorem linkDelhand_sat (htype : rel.arType = .delhand) (h : (relPatch text sym rel).Needs l) :
    Ends (linkDelhand l sym rel) (Linked.Sat (relPatch text sym rel) l) := by
  have hwidth : ¬0 < rel.arType.width := by rw [htype]; decide
  obtain ⟨e, htext, hwalk, hle⟩ := h.2.2 htype
  unfold linkDelhand
  by_cases hnone : rel.arValue < sym.asHand
  · rw [if_pos hnone]
    exact Ends.pure ⟨fun h => hwidth h.1, AgreeOn.refl, fun h => absurd h hwidth⟩
  · rw [if_neg hnone]
    dsimp only
    rw [show rel.arValue = rel.arValue - sym.asHand + (rel.arValue - (rel.arValue - sym.asHand)) by omega,
      nextInstrs_add] at hwalk
    obtain ⟨mid, hkeep, hdelete⟩ := of_bind hwalk
    have hlo := nextInstrs_le hkeep
    have hhi := nextInstrs_le hdelete
    rw [hkeep, some_bind, hdelete, some_bind]
    refine (fillCells_ends (by omega)).map ?_
    rintro l' ⟨hsame, -⟩
    refine ⟨fun h => hwidth h.1, ⟨hsame.length, fun j hj => hsame.out j ?_⟩, fun h => absurd h hwidth⟩
    change j ∈ (rel.footprint text)ᶜ at hj
    unfold AsmRel.footprint at hj
    rw [htype, htext] at hj
    by_contra hin
    exact hj ⟨by omega, by show j < e; omega⟩

/-! ### Rounds -/

variable {syms : List AsmSym}

theorem relSym_of (h : rel.HasSymbol syms sym) : relSym syms rel = some sym := by
  unfold relSym
  rw [h.get, some_bind, assert_of h.sect, some_bind]

theorem linktextRel_sat (hnone : rel.arType ≠ .none) (hstatic : rel.arType ≠ .static16)
    (hsym : rel.HasSymbol syms sym) (h : (relPatch text sym rel).Needs l) :
    Ends (linktextRel l syms rel) (Linked.Sat (relPatch text sym rel) l) := by
  obtain ⟨hin, hbelow, -⟩ := id h
  have hstck := hsym.stck
  unfold linktextRel
  rw [if_neg hnone, relSym_of hsym, some_bind]
  cases htype : rel.arType with
  | none => exact absurd htype hnone
  | static16 => exact absurd htype hstatic
  | abs8 =>
    rw [htype] at hin
    exact linkAbs8_sat htype hin hsym.addr_lt
  | abs16 =>
    rw [htype] at hin
    exact linkAbs16_sat htype hin
  | abs32 =>
    rw [htype] at hin
    exact linkAbs32_sat htype hin
  | disp8 =>
    have hdisp := @linkDisp_sat rel sym text l (Or.inl htype) hin
    rwa [htype] at hdisp
  | disp16 =>
    have hdisp := @linkDisp_sat rel sym text l (Or.inr (Or.inl htype)) hin
    rwa [htype] at hdisp
  | disp32 =>
    have hdisp := @linkDisp_sat rel sym text l (Or.inr (Or.inr htype)) hin
    rwa [htype] at hdisp
  | stck8 =>
    rw [htype] at hin hstck
    exact linkStck8_sat htype hin (hstck rfl)
  | stck16 =>
    rw [htype] at hin hstck
    exact linkStck16_sat htype hin (hstck rfl)
  | stcka8 =>
    rw [htype] at hin hbelow hstck
    exact linkStcka8_sat htype hin hbelow (hstck rfl) hsym.stck_lt
  | stcka16 =>
    rw [htype] at hin hstck
    exact linkStcka16_sat htype hin (hstck rfl)
  | delhand => exact linkDelhand_sat htype h

theorem linkstackRel_sat {optimize : Bool} (hstack : rel.arType.isStack = true)
    (hsym : rel.HasSymbol syms sym) (h : (relPatch text sym rel).Needs l) :
    Ends (linkstackRel optimize l syms rel) (Linked.Sat (relPatch text sym rel) l) := by
  obtain ⟨hin, hbelow, -⟩ := id h
  have hstck := hsym.stck hstack
  have hskip : ¬(rel.arType = .none ∨ rel.arType = .static16) := by
    rintro (htype | htype) <;> rw [htype] at hstack <;> exact absurd hstack (by decide)
  unfold linkstackRel
  rw [if_neg hskip, relSym_of hsym, some_bind]
  cases htype : rel.arType with
  | stck8 =>
    rw [htype] at hin
    exact linkStck8_sat htype hin hstck
  | stck16 =>
    rw [htype] at hin
    exact linkStck16_sat htype hin hstck
  | stcka8 =>
    rw [htype] at hin hbelow
    exact linkStcka8_sat htype hin hbelow hstck hsym.stck_lt
  | stcka16 =>
    rw [htype] at hin
    exact linkStcka16_sat htype hin hstck
  | delhand => exact linkDelhand_sat htype h
  | _ =>
    rw [htype] at hstack
    exact absurd hstack (by decide)

theorem linkstackRel_skip {optimize : Bool} (hstack : rel.arType.isStack = false)
    (hsym : rel.arType ≠ .none → rel.HasSymbol syms sym) : linkstackRel optimize l syms rel = some .skip := by
  unfold linkstackRel
  by_cases hskip : rel.arType = .none ∨ rel.arType = .static16
  · rw [if_pos hskip]
    rfl
  · rw [if_neg hskip, relSym_of (hsym fun h => hskip (Or.inl h)), some_bind]
    cases htype : rel.arType with
    | none => exact absurd (Or.inl htype) hskip
    | static16 => exact absurd (Or.inr htype) hskip
    | abs8 => rfl
    | abs16 => rfl
    | abs32 => rfl
    | disp8 => rfl
    | disp16 => rfl
    | disp32 => rfl
    | _ =>
      rw [htype] at hstack
      exact absurd hstack (by decide)

end Patch

end Deemon.Asm
