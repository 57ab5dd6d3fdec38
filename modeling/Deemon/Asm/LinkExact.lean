import Deemon.Asm.LinkPatch
import Mathlib.Data.List.Pairwise

/-!
# Exactness of linking

The relocations of one text do not overlap (`AsmState.Linkable`), so that each of them acts as if it were alone. Linking
is therefore exact or refused if and only if a relocation is refused, or each stores the value that it prescribes.
-/

namespace Deemon.Asm

open Deemon.Run Deemon.Fields Deemon.Radix Deemon.Patches

/-! ### The passes -/

section Passes

variable {text l : List ℕ} {syms syms' : List AsmSym} {rels : List AsmRel} {sym : AsmSym} {rel : AsmRel}

/-- The symbols with other numbers of uses. -/
def SameSyms (syms syms' : List AsmSym) : Prop :=
  ∀ (s : ℕ) (sym : AsmSym), syms[s]? = some sym → ∃ u, syms'[s]? = some { sym with asUsed := u }

/-- Each symbol counts the relocations that use it. -/
def CountsUses (syms : List AsmSym) (rels : List AsmRel) : Prop :=
  ∀ (s : ℕ) (sym : AsmSym), syms[s]? = some sym → rels.countP (fun rel => rel.hasSym && rel.arSym = s) ≤ sym.asUsed

/-- Each relocation of `rels` that a pass may handle has a symbol, given by `symOf`, and can be applied. -/
structure Ready (text l : List ℕ) (syms : List AsmSym) (symOf : AsmRel → AsmSym) (rels : List AsmRel) : Prop where
  applied : ∀ rel ∈ rels, rel.arType ≠ .static16
  symbol : ∀ rel ∈ rels, rel.arType ≠ .none → ∃ u, rel.HasSymbol syms { symOf rel with asUsed := u }
  needs : ∀ rel ∈ rels, rel.arType ≠ .none → (relPatch text (symOf rel) rel).Needs l
  apart : rels.Pairwise fun rel rel' => Disjoint (rel.footprint text) (rel'.footprint text)

variable {symOf : AsmRel → AsmSym}

theorem AsmRel.HasSymbol.same (h : rel.HasSymbol syms sym) (hsame : SameSyms syms syms') :
    ∃ u, rel.HasSymbol syms' { sym with asUsed := u } := by
  obtain ⟨u, hu⟩ := hsame _ _ h.get
  exact ⟨u, hu, h.sect, h.addr_lt, h.stck_lt, h.stck⟩

theorem Ready.tail (h : Ready text l syms symOf (rel :: rels)) (hsame : SameSyms syms syms') {l' : List ℕ}
    (hneeds : ∀ rel' ∈ rels, AgreeOn (rel'.footprint text) l l') : Ready text l' syms' symOf rels := by
  refine ⟨fun r hr => h.applied r (List.mem_cons_of_mem _ hr), fun r hr hnone => ?_, fun r hr hnone => ?_,
    (List.pairwise_cons.mp h.apart).2⟩
  · obtain ⟨u, hu⟩ := h.symbol r (List.mem_cons_of_mem _ hr) hnone
    exact hu.same hsame
  · exact (relPatch text (symOf r) r).needs_congr (hneeds r hr) (h.needs r (List.mem_cons_of_mem _ hr) hnone)

/-- The other relocations see nothing of a patch. -/
theorem Ready.frame (h : Ready text l syms symOf (rel :: rels)) {l' : List ℕ}
    (hspec : (relPatch text (symOf rel) rel).Spec l (some l')) :
    ∀ rel' ∈ rels, AgreeOn (rel'.footprint text) l l' := fun rel' hrel' =>
  hspec.2.1.of_disjoint ((List.pairwise_cons.mp h.apart).1 rel' hrel').symm

theorem SameSyms.refl : SameSyms syms syms := fun _ sym hsym => ⟨sym.asUsed, hsym⟩

theorem asmReldel_ends (hhas : rel.hasSym = true) (hget : syms[rel.arSym]? = some sym)
    (huses : CountsUses syms (rel :: rels)) :
    Ends (asmReldel syms rel) fun r => SameSyms syms r.1 ∧ CountsUses r.1 rels ∧
      r.2 = { rel with arType := .none, fuser := false } := by
  have hcount := huses _ _ hget
  rw [List.countP_cons_of_pos (by simp [hhas])] at hcount
  have hlt : rel.arSym < syms.length := (List.getElem?_eq_some_iff.mp hget).1
  unfold asmReldel
  dsimp only
  rw [if_pos hhas, hget, some_bind, assert_of (by omega), some_bind]
  refine Ends.pure ⟨fun s sym' hsym' => ?_, fun s sym' hsym' => ?_, rfl⟩
  · by_cases hs : rel.arSym = s
    · subst hs
      rw [hget] at hsym'
      obtain rfl := Option.some.inj hsym'
      exact ⟨_, List.getElem?_set_self hlt⟩
    · exact ⟨sym'.asUsed, by dsimp only; rw [List.getElem?_set_ne hs]; exact hsym'⟩
  · dsimp only at hsym'
    by_cases hs : rel.arSym = s
    · subst hs
      rw [List.getElem?_set_self hlt] at hsym'
      obtain rfl := Option.some.inj hsym'
      show _ ≤ sym.asUsed - 1
      omega
    · rw [List.getElem?_set_ne hs] at hsym'
      have h := huses s sym' hsym'
      rw [List.countP_cons] at h
      omega

/-- A pass ended with 0, or with 1 for a text that was refused. -/
def Linked.Result (ps : List Patch) (l : List ℕ) (r : AsmState × ℕ) : Prop :=
  r.2 = 0 ∧ Patch.All ps l (some r.1.text) ∨ r.2 = 1 ∧ Patch.All ps l none

/-- The patches of the relocations with `p`. -/
def patchesOf (text : List ℕ) (symOf : AsmRel → AsmSym) (p : AsmRel → Bool) (rels : List AsmRel) : List Patch :=
  (rels.filter p).map fun rel => relPatch text (symOf rel) rel

theorem Linked.Result.cons {l' : List ℕ} {p : AsmRel → Bool} {rel' : AsmRel} {r : AsmState × ℕ} (hp : p rel = true)
    (h : Ready text l syms symOf (rel :: rels)) (hspec : (relPatch text (symOf rel) rel).Spec l (some l'))
    (hresult : Linked.Result (patchesOf text symOf p rels) l' r) :
    Linked.Result (patchesOf text symOf p (rel :: rels)) l (AsmState.keepRel rel' r) := by
  have hdisj : ∀ q ∈ patchesOf text symOf p rels,
      Disjoint (relPatch text (symOf rel) rel).footprint q.footprint := by
    intro q hq
    obtain ⟨rel'', hmem, rfl⟩ := List.mem_map.mp hq
    exact (List.pairwise_cons.mp h.apart).1 rel'' (List.mem_of_mem_filter hmem)
  unfold patchesOf
  rw [List.filter_cons_of_pos hp, List.map_cons]
  rcases hresult with ⟨hzero, hall⟩ | ⟨hone, hall⟩
  · exact Or.inl ⟨hzero, hspec.all_cons hall hdisj⟩
  · exact Or.inr ⟨hone, hspec.all_cons hall hdisj⟩

theorem Linked.Result.trunc {p : AsmRel → Bool} {self : AsmState} (hp : p rel = true)
    (hspec : (relPatch text (symOf rel) rel).Spec l none) :
    Linked.Result (patchesOf text symOf p (rel :: rels)) l (self, 1) := by
  refine Or.inr ⟨rfl, relPatch text (symOf rel) rel, ?_, hspec⟩
  unfold patchesOf
  rw [List.filter_cons_of_pos hp]
  exact List.mem_cons_self

theorem Linked.Result.skip {p : AsmRel → Bool} {r : AsmState × ℕ} (hp : p rel = false)
    (hresult : Linked.Result (patchesOf text symOf p rels) l r) :
    Linked.Result (patchesOf text symOf p (rel :: rels)) l (AsmState.keepRel rel r) := by
  unfold patchesOf
  rw [List.filter_cons_of_neg (by rw [hp]; exact Bool.false_ne_true)]
  exact hresult

/-- What `asm_linkstack` leaves of a relocation. -/
def AsmRel.afterStack (rel : AsmRel) : AsmRel :=
  if rel.arType.isStack then { rel with arType := .none, fuser := false } else rel

theorem RDmn.ne_none_of_isStack {t : RDmn} (h : t.isStack = true) : t ≠ .none := by
  rintro rfl
  exact absurd h (by decide)

theorem AsmRel.hasSym_of_isStack (h : rel.arType.isStack = true) : rel.hasSym = true := by
  unfold AsmRel.hasSym
  have hnone := RDmn.ne_none_of_isStack h
  have hstatic : rel.arType ≠ .static16 := by
    intro htype
    rw [htype] at h
    exact absurd h (by decide)
  simp [hnone, hstatic]

theorem CountsUses.tail (h : CountsUses syms (rel :: rels)) : CountsUses syms rels := fun s sym hget => by
  have hcount := h s sym hget
  rw [List.countP_cons] at hcount
  omega

theorem linkstackFrom_ends {optimize : Bool} (h : Ready text l syms symOf rels) (huses : CountsUses syms rels) :
    Ends (linkstackFrom optimize rels l syms) fun r =>
      Linked.Result (patchesOf text symOf (fun rel => rel.arType.isStack) rels) l r ∧
        (r.2 = 0 → r.1.relv = rels.map AsmRel.afterStack ∧ SameSyms syms r.1.syms) := by
  induction rels generalizing l syms with
  | nil => exact Ends.pure ⟨Or.inl ⟨rfl, Patch.All.nil⟩, fun _ => ⟨rfl, SameSyms.refl⟩⟩
  | cons rel rels ih =>
    unfold linkstackFrom
    cases hstack : rel.arType.isStack with
    | true =>
      have hnone := RDmn.ne_none_of_isStack hstack
      have hafter : rel.afterStack = { rel with arType := .none, fuser := false } := by
        unfold AsmRel.afterStack
        rw [if_pos hstack]
      obtain ⟨u, hsym⟩ := h.symbol rel List.mem_cons_self hnone
      refine Ends.bind (linkstackRel_sat hstack hsym (h.needs rel List.mem_cons_self hnone)) fun r hr => ?_
      cases r with
      | skip => exact hr.elim
      | trunc => exact Ends.pure ⟨Linked.Result.trunc hstack hr, fun h => absurd h Nat.one_ne_zero⟩
      | done l' =>
        refine Ends.bind (asmReldel_ends (AsmRel.hasSym_of_isStack hstack) hsym.get huses) ?_
        rintro ⟨syms', rel'⟩ ⟨hsame, huses', rfl⟩
        refine (ih (h.tail hsame (h.frame hr)) huses').map ?_
        rintro r ⟨hresult, hrest⟩
        refine ⟨hresult.cons hstack h hr, fun hzero => ?_⟩
        obtain ⟨hrelv, hsyms⟩ := hrest hzero
        refine ⟨?_, fun s sym hget => ?_⟩
        · rw [List.map_cons, ← hrelv, hafter]
          rfl
        · obtain ⟨u, hu⟩ := hsame s sym hget
          obtain ⟨u', hu'⟩ := hsyms s _ hu
          exact ⟨u', hu'⟩
    | false =>
      have hskip : linkstackRel optimize l syms rel = some .skip := by
        by_cases hnone : rel.arType = .none
        · exact @linkstackRel_skip rel (symOf rel) _ _ _ hstack fun h => absurd hnone h
        · obtain ⟨u, hsym⟩ := h.symbol rel List.mem_cons_self hnone
          exact linkstackRel_skip hstack fun _ => hsym
      have hafter : rel.afterStack = rel := by
        unfold AsmRel.afterStack
        rw [hstack, if_neg Bool.false_ne_true]
      rw [hskip, some_bind]
      refine (ih (h.tail SameSyms.refl fun _ _ => AgreeOn.refl) huses.tail).map ?_
      rintro r ⟨hresult, hrest⟩
      refine ⟨hresult.skip hstack, fun hzero => ?_⟩
      obtain ⟨hrelv, hsyms⟩ := hrest hzero
      rw [List.map_cons, ← hrelv, hafter]
      exact ⟨rfl, hsyms⟩

theorem linktextFrom_ends (h : Ready text l syms symOf rels) :
    Ends (linktextFrom rels l syms) fun r =>
      Linked.Result (patchesOf text symOf (fun rel => rel.arType ≠ .none) rels) l r := by
  induction rels generalizing l with
  | nil => exact Ends.pure (Or.inl ⟨rfl, Patch.All.nil⟩)
  | cons rel rels ih =>
    unfold linktextFrom
    by_cases hnone : rel.arType = .none
    · have hskip : linktextRel l syms rel = some .skip := by
        unfold linktextRel
        rw [if_pos hnone]
        rfl
      rw [hskip, some_bind]
      refine (ih (h.tail SameSyms.refl fun _ _ => AgreeOn.refl)).map fun r hresult => ?_
      exact hresult.skip (by simp [hnone])
    · have hp : decide (rel.arType ≠ .none) = true := decide_eq_true hnone
      obtain ⟨u, hsym⟩ := h.symbol rel List.mem_cons_self hnone
      have hneeds := h.needs rel List.mem_cons_self hnone
      refine Ends.bind (linktextRel_sat hnone (h.applied rel List.mem_cons_self) hsym hneeds) fun r hr => ?_
      cases r with
      | skip => exact hr.elim
      | trunc => exact Ends.pure (Linked.Result.trunc hp hr)
      | done l' => exact (ih (h.tail SameSyms.refl (h.frame hr))).map fun r hresult => hresult.cons hp h hr

end Passes

/-! ### Linking -/

/-- The symbol of a relocation. -/
def AsmState.symOf (self : AsmState) (rel : AsmRel) : AsmSym := self.syms.getD rel.arSym ⟨0, 0, sectionInvalid, 0, 0⟩

/-- What the assembler promises when it links: the static variables were counted, the symbols are defined, the
operands are in the text, and no two relocations touch the same bytes. -/
structure AsmState.Linkable (st : AsmState) : Prop where
  bytes : ∀ b ∈ st.text, b < 256
  applied : ∀ rel ∈ st.relv, rel.arType ≠ .static16
  symbol : ∀ rel ∈ st.relv, rel.arType ≠ .none → rel.HasSymbol st.syms (st.symOf rel)
  uses : CountsUses st.syms st.relv
  operand : ∀ rel ∈ st.relv, rel.arType ≠ .none → rel.arAddr + rel.arType.width ≤ st.text.length
  handlers : ∀ rel ∈ st.relv, rel.arType = .delhand →
    ∃ e, nextInstrs st.text rel.arValue rel.arAddr = some e ∧ e ≤ st.text.length
  apart : st.relv.Pairwise fun rel rel' => Disjoint (rel.footprint st.text) (rel'.footprint st.text)

theorem cell_lt_of_forall {l : List ℕ} {B : ℕ} [NeZero B] (h : ∀ b ∈ l, b < B) (i : ℕ) : cell l i < B := by
  by_cases hi : i < l.length
  · have hcell : cell l i = l[i] := by simp [cell, hi]
    rw [hcell]
    exact h _ (List.getElem_mem hi)
  · rw [cell_of_le (Nat.le_of_not_lt hi)]
    exact Nat.pos_of_neZero B

theorem AsmState.Linkable.ready {self : AsmState} (h : self.Linkable) :
    Ready self.text self.text self.syms self.symOf self.relv where
  applied := h.applied
  symbol rel hrel hnone := ⟨(self.symOf rel).asUsed, h.symbol rel hrel hnone⟩
  needs rel hrel hnone := by
    refine ⟨h.operand rel hrel hnone, fun i _ => cell_lt_of_forall h.bytes _, fun htype => ?_⟩
    obtain ⟨e, he, hle⟩ := h.handlers rel hrel htype
    exact ⟨e, he, he, hle⟩
  apart := h.apart

/-- A relocation is refused when the value that its pass computes does not fit. -/
def AsmState.Refuses (self : AsmState) (rel : AsmRel) : Prop :=
  0 < rel.arType.width ∧ ¬rel.Fits (rel.linked self.text (self.symOf rel))

section Linking

variable {self : AsmState} {ps : List Patch} {r : AsmState × ℕ}

/-- How linking ends: all relocations act as if they were alone. -/
def AsmState.LinkResult (self : AsmState) (r : AsmState × ℕ) : Prop :=
  (r.2 = 1 ∧ ∃ rel ∈ self.relv, self.Refuses rel) ∨
  (r.2 = 0 ∧ ∀ rel ∈ self.relv, ¬self.Refuses rel ∧
    (0 < rel.arType.width → rel.operand self.text r.1.text = rel.linked self.text (self.symOf rel)))

theorem Linked.Result.linkResult (h : Linked.Result ps self.text r)
    (hof : ∀ p ∈ ps, ∃ rel ∈ self.relv, p = relPatch self.text (self.symOf rel) rel)
    (hall : ∀ rel ∈ self.relv, 0 < rel.arType.width → relPatch self.text (self.symOf rel) rel ∈ ps) :
    self.LinkResult r := by
  rcases h with ⟨hzero, hdone⟩ | ⟨hone, p, hp, hrefuses⟩
  · refine Or.inr ⟨hzero, fun rel hrel => ?_⟩
    by_cases hw : 0 < rel.arType.width
    · obtain ⟨hrefuses, hdoes⟩ := hdone.1 _ (hall rel hrel hw)
      exact ⟨hrefuses, hdoes⟩
    · exact ⟨fun h => hw h.1, fun h => absurd h hw⟩
  · obtain ⟨rel, hrel, rfl⟩ := hof p hp
    exact Or.inl ⟨hone, rel, hrel, hrefuses⟩

theorem RDmn.ne_none_of_width {t : RDmn} (h : 0 < t.width) : t ≠ .none := by
  rintro rfl
  exact absurd h (by decide)

theorem AsmState.Linkable.disjoint (h : self.Linkable) {rel rel' : AsmRel} (hrel : rel ∈ self.relv)
    (hrel' : rel' ∈ self.relv) (hne : rel ≠ rel') :
    Disjoint (rel.footprint self.text) (rel'.footprint self.text) := by
  have hsymm : Std.Symm fun rel rel' : AsmRel => Disjoint (rel.footprint self.text) (rel'.footprint self.text) :=
    ⟨fun _ _ hdisj => hdisj.symm⟩
  exact h.apart.forall hrel hrel' hne

theorem AsmRel.afterStack_of_ne {rel : AsmRel} (h : rel.afterStack.arType ≠ .none) :
    rel.afterStack = rel ∧ rel.arType.isStack = false := by
  unfold AsmRel.afterStack at h ⊢
  cases hstack : rel.arType.isStack with
  | true =>
    rw [if_pos hstack] at h
    exact absurd rfl h
  | false => exact ⟨if_neg Bool.false_ne_true, rfl⟩

/-- What `asm_linktext` finds after `asm_linkstack`. -/
theorem AsmState.Linkable.ready_afterStack (h : self.Linkable) {text' : List ℕ} {syms' : List AsmSym}
    (hall : Patch.All (patchesOf self.text self.symOf (fun rel => rel.arType.isStack) self.relv) self.text
      (some text')) (hsame : SameSyms self.syms syms') :
    Ready self.text text' syms' self.symOf (self.relv.map AsmRel.afterStack) where
  applied rel hrel := by
    obtain ⟨rel₀, hrel₀, rfl⟩ := List.mem_map.mp hrel
    unfold AsmRel.afterStack
    split
    · exact RDmn.noConfusion
    · exact h.applied rel₀ hrel₀
  symbol rel hrel hnone := by
    obtain ⟨rel₀, hrel₀, rfl⟩ := List.mem_map.mp hrel
    obtain ⟨hafter, -⟩ := AsmRel.afterStack_of_ne hnone
    rw [hafter] at hnone ⊢
    exact (h.symbol rel₀ hrel₀ hnone).same hsame
  needs rel hrel hnone := by
    obtain ⟨rel₀, hrel₀, rfl⟩ := List.mem_map.mp hrel
    obtain ⟨hafter, hstack⟩ := AsmRel.afterStack_of_ne hnone
    rw [hafter] at hnone ⊢
    refine (relPatch self.text (self.symOf rel₀) rel₀).needs_congr (hall.agreeOn fun q hq => ?_)
      (h.ready.needs rel₀ hrel₀ hnone)
    obtain ⟨rel', hrel', rfl⟩ := List.mem_map.mp hq
    obtain ⟨hmem, hstack'⟩ := List.mem_filter.mp hrel'
    refine h.disjoint hrel₀ hmem ?_
    rintro rfl
    rw [hstack] at hstack'
    exact absurd hstack' Bool.false_ne_true
  apart := by
    have hsub : ∀ rel : AsmRel, rel.afterStack.footprint self.text ⊆ rel.footprint self.text := by
      intro rel
      unfold AsmRel.afterStack
      split
      · exact Set.empty_subset _
      · exact subset_rfl
    exact List.pairwise_map.mpr (h.apart.imp fun hdisj => hdisj.mono (hsub _) (hsub _))

theorem mem_patchesOf_afterStack {p : Patch}
    (hp : p ∈ patchesOf self.text self.symOf (fun rel => rel.arType ≠ .none) (self.relv.map AsmRel.afterStack)) :
    ∃ rel ∈ self.relv, rel.arType.isStack = false ∧ p = relPatch self.text (self.symOf rel) rel := by
  obtain ⟨rel', hmem, rfl⟩ := List.mem_map.mp hp
  obtain ⟨hmem, hnone⟩ := List.mem_filter.mp hmem
  obtain ⟨rel, hrel, rfl⟩ := List.mem_map.mp hmem
  obtain ⟨hafter, hstack⟩ := AsmRel.afterStack_of_ne (of_decide_eq_true hnone)
  exact ⟨rel, hrel, hstack, by rw [hafter]⟩

theorem AsmState.Linkable.disjoint_afterStack (h : self.Linkable) :
    ∀ p ∈ patchesOf self.text self.symOf (fun rel => rel.arType.isStack) self.relv,
    ∀ q ∈ patchesOf self.text self.symOf (fun rel => rel.arType ≠ .none) (self.relv.map AsmRel.afterStack),
      Disjoint p.footprint q.footprint := by
  intro p hp q hq
  obtain ⟨rel, hmem, rfl⟩ := List.mem_map.mp hp
  obtain ⟨hrel, hstack⟩ := List.mem_filter.mp hmem
  obtain ⟨rel', hrel', hstack', rfl⟩ := mem_patchesOf_afterStack hq
  refine h.disjoint hrel hrel' ?_
  rintro rfl
  rw [hstack'] at hstack
  exact absurd hstack Bool.false_ne_true

theorem codeDocompileLink_ends (h : self.Linkable) (flags : AsmFlags) :
    Ends (codeDocompileLink flags self) self.LinkResult := by
  have hnostack : Ends (asmLinktext self) self.LinkResult := by
    refine (linktextFrom_ends h.ready).mono fun r hr => hr.linkResult (fun p hp => ?_) fun rel hrel hw => ?_
    · obtain ⟨rel, hmem, rfl⟩ := List.mem_map.mp hp
      exact ⟨rel, List.mem_of_mem_filter hmem, rfl⟩
    · exact List.mem_map_of_mem (List.mem_filter.mpr ⟨hrel, decide_eq_true (RDmn.ne_none_of_width hw)⟩)
  unfold codeDocompileLink
  by_cases hflags : (flags.peephole || flags.optimize) = true
  · rw [if_pos hflags]
    refine Ends.bind (linkstackFrom_ends h.ready h.uses) ?_
    rintro ⟨self', linkError⟩ ⟨hstack, hrest⟩
    dsimp only at hrest ⊢
    by_cases hzero : linkError = 0
    · obtain ⟨hrelv, hsame⟩ := hrest hzero
      obtain ⟨-, hall⟩ := hstack.resolve_right fun h => absurd (hzero.symm.trans h.1) Nat.zero_ne_one
      rw [if_neg (not_not.mpr hzero)]
      unfold asmLinktext
      rw [hrelv]
      refine (linktextFrom_ends (h.ready_afterStack hall hsame)).mono fun r hr => ?_
      have hboth : Linked.Result (patchesOf self.text self.symOf (fun rel => rel.arType.isStack) self.relv ++
          patchesOf self.text self.symOf (fun rel => rel.arType ≠ .none) (self.relv.map AsmRel.afterStack))
          self.text r := by
        have hdisj := h.disjoint_afterStack
        rcases hr with ⟨hr0, hr⟩ | ⟨hr1, hr⟩
        · exact Or.inl ⟨hr0, hall.append hr hdisj⟩
        · exact Or.inr ⟨hr1, hall.append hr hdisj⟩
      refine hboth.linkResult (fun p hp => ?_) fun rel hrel hw => List.mem_append.mpr ?_
      · rcases List.mem_append.mp hp with hp | hp
        · obtain ⟨rel, hmem, rfl⟩ := List.mem_map.mp hp
          exact ⟨rel, List.mem_of_mem_filter hmem, rfl⟩
        · obtain ⟨rel, hmem, -, rfl⟩ := mem_patchesOf_afterStack hp
          exact ⟨rel, hmem, rfl⟩
      · have hnone := RDmn.ne_none_of_width hw
        cases hstack : rel.arType.isStack with
        | true => exact Or.inl (List.mem_map_of_mem (List.mem_filter.mpr ⟨hrel, hstack⟩))
        | false =>
          have hafter : rel.afterStack = rel := by
            unfold AsmRel.afterStack
            rw [hstack, if_neg Bool.false_ne_true]
          have hmem : rel ∈ self.relv.map AsmRel.afterStack := List.mem_map.mpr ⟨rel, hrel, hafter⟩
          exact Or.inr (List.mem_map_of_mem (List.mem_filter.mpr ⟨hmem, decide_eq_true hnone⟩))
    · obtain ⟨hone, p, hp, hrefuses⟩ := hstack.resolve_left fun h => hzero h.1
      obtain ⟨rel, hmem, rfl⟩ := List.mem_map.mp hp
      rw [if_pos hzero]
      exact Ends.pure (Or.inl ⟨hone, rel, List.mem_of_mem_filter hmem, hrefuses⟩)
  · rw [if_neg hflags]
    exact hnostack

/-- Linking is exact or refused: a result of 0 means that each operand has its value, and a value that does not fit
its operand means 1. -/
def AsmState.LinkExact (self : AsmState) (r : AsmState × ℕ) : Prop :=
  (r.2 = 0 → ∀ rel ∈ self.relv, 0 < rel.arType.width →
    rel.operand self.text r.1.text = rel.value self.text (self.symOf rel)) ∧
  ((∃ rel ∈ self.relv, 0 < rel.arType.width ∧ ¬rel.Fits (rel.value self.text (self.symOf rel))) → r.2 = 1)

/-- The relocation is linked right: an operand for `R_DMN_ABS8` contains 0, any other value fits. -/
def AsmState.LinksRight (self : AsmState) (rel : AsmRel) : Prop :=
  if rel.arType = .abs8 then rel.addend self.text = 0 else rel.Fits (rel.value self.text (self.symOf rel))

instance {rel : AsmRel} : Decidable (self.LinksRight rel) :=
  inferInstanceAs (Decidable (if rel.arType = .abs8 then _ else _))

theorem AsmState.linked_eq_value_iff {rel : AsmRel} (hw : 0 < rel.arType.width) (hrefuses : ¬self.Refuses rel) :
    rel.linked self.text (self.symOf rel) = rel.value self.text (self.symOf rel) ↔ self.LinksRight rel := by
  have hfits : rel.Fits (rel.linked self.text (self.symOf rel)) := not_not.mp fun h => hrefuses ⟨hw, h⟩
  unfold AsmState.LinksRight
  by_cases habs8 : rel.arType = .abs8
  · rw [if_pos habs8]
    unfold AsmRel.linked AsmRel.value
    rw [habs8]
    dsimp only
    omega
  · rw [if_neg habs8]
    refine ⟨fun h => h ▸ hfits, fun h => ?_⟩
    unfold AsmRel.Fits FitsField at h
    unfold AsmRel.linked
    cases htype : rel.arType with
    | abs8 => exact absurd htype habs8
    | abs16 =>
      rw [htype] at h
      exact h.emod_eq (by decide)
    | abs32 =>
      rw [htype] at h
      exact h.emod_eq (by decide)
    | stcka16 =>
      rw [htype] at h
      exact h.emod_eq (by decide)
    | disp8 =>
      rw [htype] at h
      exact sint_of_fits (h.mono (by decide))
    | disp16 =>
      rw [htype] at h
      exact sint_of_fits (h.mono (by decide))
    | disp32 =>
      rw [htype] at h
      exact sint_of_fits (h.mono (by decide))
    | _ => rfl

/-- Linking is exact or refused if and only if a relocation is refused or all of them are linked right. -/
theorem linkExact_iff (h : self.Linkable) (flags : AsmFlags) :
    Ends (codeDocompileLink flags self) self.LinkExact ↔
      (∃ rel ∈ self.relv, self.Refuses rel) ∨ ∀ rel ∈ self.relv, 0 < rel.arType.width → self.LinksRight rel := by
  obtain ⟨r, hr, hresult⟩ := codeDocompileLink_ends h flags
  constructor
  · intro hends
    obtain ⟨hexact, -⟩ := hends.of_eq hr
    rcases hresult with ⟨-, hrefuses⟩ | ⟨hzero, hlinked⟩
    · exact Or.inl hrefuses
    · refine Or.inr fun rel hrel hw => ?_
      obtain ⟨hrefuses, hoperand⟩ := hlinked rel hrel
      exact (AsmState.linked_eq_value_iff hw hrefuses).mp ((hoperand hw).symm.trans (hexact hzero rel hrel hw))
  · intro hcond
    refine ⟨r, hr, ?_⟩
    rcases hresult with ⟨hone, -⟩ | ⟨hzero, hlinked⟩
    · exact ⟨fun hzero => absurd (hzero.symm.trans hone) Nat.zero_ne_one, fun _ => hone⟩
    · have hright : ∀ rel ∈ self.relv, 0 < rel.arType.width →
          rel.linked self.text (self.symOf rel) = rel.value self.text (self.symOf rel) := by
        rcases hcond with ⟨rel, hrel, hrefuses⟩ | hright
        · exact absurd hrefuses (hlinked rel hrel).1
        · exact fun rel hrel hw => (AsmState.linked_eq_value_iff hw (hlinked rel hrel).1).mpr (hright rel hrel hw)
      refine ⟨fun _ rel hrel hw => ((hlinked rel hrel).2 hw).trans (hright rel hrel hw), ?_⟩
      rintro ⟨rel, hrel, hw, hfits⟩
      rw [← hright rel hrel hw] at hfits
      exact absurd ⟨hw, hfits⟩ (hlinked rel hrel).1

/-- `jmp 1f; adjstack #1f.SP; 1:`, with both operands of 16 bits. -/
def jmpAdjstack : AsmState :=
  ⟨[0x15, 0xfe, 0xff, 0xf0, 0x27, 0x01, 0x00, 0x00], [⟨.disp16, false, 0, 1, 0⟩, ⟨.stck16, false, 0, 5, 0⟩],
    [⟨7, 3, 0, 0, 2⟩]⟩

theorem jmpAdjstack_linkable : jmpAdjstack.Linkable where
  bytes := by decide
  applied := by decide
  symbol := by
    intro rel hrel _
    simp only [jmpAdjstack, List.mem_cons, List.not_mem_nil, or_false] at hrel
    rcases hrel with rfl | rfl <;> exact ⟨rfl, by decide, by decide, by decide, fun _ => by decide⟩
  uses := by
    rintro (_ | s) sym hget
    · obtain rfl := Option.some.inj hget
      decide
    · exact absurd hget (by simp [jmpAdjstack])
  operand := by decide
  handlers := by
    intro rel hrel htype
    simp only [jmpAdjstack, List.mem_cons, List.not_mem_nil, or_false] at hrel
    rcases hrel with rfl | rfl <;> cases htype
  apart := by
    refine List.pairwise_pair.mpr (Set.disjoint_left.mpr fun j hj hj' => ?_)
    rw [AsmRel.mem_footprint (by decide)] at hj hj'
    simp only [RDmn.width, RDmn.shrinks] at hj hj'
    omega

theorem linkExact_jmpAdjstack : Ends (codeDocompileLink ⟨true, true⟩ jmpAdjstack) jmpAdjstack.LinkExact :=
  (linkExact_iff jmpAdjstack_linkable ⟨true, true⟩).mpr (Or.inr (by decide))

/-- `.byte 1f + 1; 1:` and `.word 1f.SP + 0xffff; 1:`: the byte becomes 1, and the word becomes 0. -/
theorem linkExact_counterexample :
    ¬Ends (codeDocompileLink ⟨false, true⟩ ⟨[0x01, 0x00], [⟨.abs8, true, 0, 0, 0⟩], [⟨1, 0, 0, 0, 1⟩]⟩)
      (AsmState.LinkExact ⟨[0x01, 0x00], [⟨.abs8, true, 0, 0, 0⟩], [⟨1, 0, 0, 0, 1⟩]⟩) ∧
    ¬Ends (codeDocompileLink ⟨false, true⟩ ⟨[0xff, 0xff, 0x00], [⟨.stcka16, true, 0, 0, 0⟩], [⟨2, 1, 0, 0, 1⟩]⟩)
      (AsmState.LinkExact ⟨[0xff, 0xff, 0x00], [⟨.stcka16, true, 0, 0, 0⟩], [⟨2, 1, 0, 0, 1⟩]⟩) := by
  constructor
  · rintro ⟨r, hr, hexact, -⟩
    have hrun : codeDocompileLink ⟨false, true⟩ ⟨[0x01, 0x00], [⟨.abs8, true, 0, 0, 0⟩], [⟨1, 0, 0, 0, 1⟩]⟩ =
        some (⟨[0x01, 0x00], [⟨.abs8, true, 0, 0, 0⟩], [⟨1, 0, 0, 0, 1⟩]⟩, 0) := by decide
    obtain rfl := Option.some.inj (hrun.symm.trans hr)
    exact absurd (hexact rfl ⟨.abs8, true, 0, 0, 0⟩ List.mem_cons_self (by decide)) (by decide)
  · rintro ⟨r, hr, hexact, -⟩
    have hrun : codeDocompileLink ⟨false, true⟩
        ⟨[0xff, 0xff, 0x00], [⟨.stcka16, true, 0, 0, 0⟩], [⟨2, 1, 0, 0, 1⟩]⟩ =
        some (⟨[0x00, 0x00, 0x00], [⟨.none, false, 0, 0, 0⟩], [⟨2, 1, 0, 0, 0⟩]⟩, 0) := by decide
    obtain rfl := Option.some.inj (hrun.symm.trans hr)
    exact absurd (hexact rfl ⟨.stcka16, true, 0, 0, 0⟩ List.mem_cons_self (by decide)) (by decide)

end Linking

end Deemon.Asm
