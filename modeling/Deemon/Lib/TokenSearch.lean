import Deemon.Lib.Run

/-!
# Searching for patterns of tokens

A pattern is a list of tokens, some of which stand for any sequence up to a given character. The search tries all places
where that character stands, and does not notice that the text has ended when the last place has failed.
-/

namespace Deemon.TokenSearch

open Deemon.Run

/-- The parts of a pattern: a character, any character, the demand that there be another one, any sequence and a character
behind it, and all that is left. -/
inductive Token where
  | char (c : ℕ)
  | any
  | more
  | upTo (c : ℕ)
  | rest
  deriving DecidableEq

/-- Tries the rest of a pattern behind each place of a character. -/
def scan (c : ℕ) (f : List ℕ → Option Bool) : List ℕ → Option Bool
  | [] => none
  | x :: t =>
    if x = c then do
      if ← f t then some true else scan c f t
    else if t = [] then some false
    else scan c f t

/-- The search; `none` is a read behind the text. -/
def search : List Token → List ℕ → Option Bool
  | [], t => some (decide (t = []))
  | .rest :: _, _ => some true
  | .char _ :: _, [] => some false
  | .char c :: q, x :: t => if x = c then search q t else some false
  | .any :: _, [] => some false
  | .any :: q, _ :: t => search q t
  | .more :: _, [] => some false
  | .more :: q, x :: t => search q (x :: t)
  | .upTo _ :: _, [] => some false
  | .upTo c :: q, x :: t => scan c (search q) (x :: t)

/-- The texts of a pattern. -/
def Lang : List Token → List ℕ → Prop
  | [], t => t = []
  | .rest :: _, _ => True
  | .char c :: q, t => ∃ t', t = c :: t' ∧ Lang q t'
  | .any :: q, t => ∃ x t', t = x :: t' ∧ Lang q t'
  | .more :: q, t => t ≠ [] ∧ Lang q t
  | .upTo c :: q, t => ∃ u t', t = u ++ c :: t' ∧ Lang q t'

/-- Some way to read the pattern comes to a sequence up to the last character of the text. -/
def Stuck : List Token → List ℕ → Prop
  | [], _ => False
  | .rest :: _, _ => False
  | .char c :: q, t => ∃ t', t = c :: t' ∧ Stuck q t'
  | .any :: q, t => ∃ x t', t = x :: t' ∧ Stuck q t'
  | .more :: q, t => t ≠ [] ∧ Stuck q t
  | .upTo c :: q, t => t.getLast? = some c ∨ ∃ u t', t = u ++ c :: t' ∧ Stuck q t'

section Search

variable {q : List Token} {s t : List ℕ} {c x : ℕ} {f : List ℕ → Option Bool}

/-- Where a sequence is read at all, more text in front of it does no harm. -/
theorem Lang.of_suffix (hstuck : Stuck q t) (hsuffix : s <:+ t) (h : Lang q s) : Lang q t := by
  induction q generalizing s t with
  | nil => exact hstuck.elim
  | cons token q ih =>
    cases token with
    | rest => trivial
    | char c =>
      obtain ⟨t, rfl, hstuck⟩ := hstuck
      obtain ⟨s, rfl, h⟩ := h
      rcases List.suffix_cons_iff.mp hsuffix with heq | hsuffix
      · obtain rfl := List.tail_eq_of_cons_eq heq
        exact ⟨s, rfl, h⟩
      · exact ⟨t, rfl, ih hstuck ((List.suffix_cons c s).trans hsuffix) h⟩
    | any =>
      obtain ⟨y, t, rfl, hstuck⟩ := hstuck
      obtain ⟨x, s, rfl, h⟩ := h
      rcases List.suffix_cons_iff.mp hsuffix with heq | hsuffix
      · obtain rfl := List.tail_eq_of_cons_eq heq
        exact ⟨y, s, rfl, h⟩
      · exact ⟨y, t, rfl, ih hstuck ((List.suffix_cons x s).trans hsuffix) h⟩
    | more => exact ⟨hstuck.1, ih hstuck.2 hsuffix h.2⟩
    | upTo c =>
      obtain ⟨u, s, rfl, h⟩ := h
      obtain ⟨w, rfl⟩ := hsuffix
      exact ⟨w ++ u, s, (List.append_assoc _ _ _).symm, h⟩

/-- What a search that is right says: whether the text is one of the pattern, unless it has read behind it. -/
structure Right (q : List Token) (t : List ℕ) (r : Option Bool) : Prop where
  found : r = some true ↔ Lang q t
  fault : r = none ↔ ¬ Lang q t ∧ Stuck q t

theorem Right.of_iff {q' : List Token} {t' : List ℕ} {r : Option Bool} (h : Right q t r) (hlang : Lang q' t' ↔ Lang q t)
    (hstuck : Stuck q' t' ↔ Stuck q t) : Right q' t' r :=
  ⟨h.found.trans hlang.symm, by rw [h.fault, hlang, hstuck]⟩

theorem Right.false (hlang : ¬ Lang q t) (hstuck : ¬ Stuck q t) : Right q t (some false) :=
  ⟨iff_of_false nofun hlang, iff_of_false nofun fun h => hstuck h.2⟩

theorem Right.true (hlang : Lang q t) : Right q t (some true) :=
  ⟨iff_of_true rfl hlang, iff_of_false nofun fun h => h.1 hlang⟩

/-- The texts and faults of a sequence up to a character, by the first character of the text. -/
theorem lang_upTo_cons : Lang (.upTo c :: q) (x :: t) ↔ (x = c ∧ Lang q t) ∨ Lang (.upTo c :: q) t := by
  constructor
  · rintro ⟨u, t', heq, h⟩
    cases u with
    | nil =>
      obtain ⟨rfl, rfl⟩ := List.cons.inj heq
      exact .inl ⟨rfl, h⟩
    | cons y u =>
      obtain ⟨rfl, rfl⟩ := List.cons.inj heq
      exact .inr ⟨u, t', rfl, h⟩
  · rintro (⟨rfl, h⟩ | ⟨u, t', rfl, h⟩)
    · exact ⟨[], t, rfl, h⟩
    · exact ⟨x :: u, t', rfl, h⟩

theorem stuck_upTo_cons (ht : t ≠ []) :
    Stuck (.upTo c :: q) (x :: t) ↔ (x = c ∧ Stuck q t) ∨ Stuck (.upTo c :: q) t := by
  have hlast : (x :: t).getLast? = t.getLast? := by
    obtain ⟨y, t, rfl⟩ := List.exists_cons_of_ne_nil ht
    exact List.getLast?_cons_cons
  constructor
  · rintro (h | ⟨u, t', heq, h⟩)
    · exact .inr (.inl (hlast ▸ h))
    · cases u with
      | nil =>
        obtain ⟨rfl, rfl⟩ := List.cons.inj heq
        exact .inl ⟨rfl, h⟩
      | cons y u =>
        obtain ⟨rfl, rfl⟩ := List.cons.inj heq
        exact .inr (.inr ⟨u, t', rfl, h⟩)
  · rintro (⟨rfl, h⟩ | h | ⟨u, t', rfl, h⟩)
    · exact .inr ⟨[], t, rfl, h⟩
    · exact .inl (hlast.trans h)
    · exact .inr ⟨x :: u, t', rfl, h⟩

/-- In a single character there is one place only. -/
theorem lang_upTo_single : Lang (.upTo c :: q) [x] ↔ x = c ∧ Lang q [] := by
  rw [lang_upTo_cons, or_iff_left]
  rintro ⟨u, t', heq, -⟩
  exact absurd heq.symm (by simp)

theorem stuck_upTo_single : Stuck (.upTo c :: q) [x] ↔ x = c := by
  constructor
  · rintro (h | ⟨u, t', heq, -⟩)
    · exact Option.some.inj h
    · cases u with
      | nil => exact (List.cons.inj heq).1
      | cons y u => exact absurd (List.cons.inj heq).2.symm (by simp)
  · rintro rfl
    exact .inl rfl

/-- Scanning a text is right where the search of the rest of the pattern is. -/
theorem scan_right (hf : ∀ t, Right q t (f t)) (ht : t ≠ []) : Right (.upTo c :: q) t (scan c f t) := by
  induction t with
  | nil => exact absurd rfl ht
  | cons x t ih =>
    rw [scan]
    by_cases hx : x = c
    · rw [if_pos hx]
      have hright := hf t
      cases hrest : f t with
      | none =>
        obtain ⟨hlang, hstuck⟩ := hright.fault.mp hrest
        have hnot : ¬ Lang (.upTo c :: q) (x :: t) := by
          rw [lang_upTo_cons]
          rintro (⟨-, h⟩ | ⟨u, t', heq, h⟩)
          · exact hlang h
          · exact hlang (h.of_suffix hstuck ⟨u ++ [c], by rw [heq, List.append_assoc]; rfl⟩)
        exact ⟨iff_of_false nofun hnot, iff_of_true rfl ⟨hnot, .inr ⟨[], t, by rw [hx]; rfl, hstuck⟩⟩⟩
      | some b =>
        cases b with
        | true => exact Right.true (lang_upTo_cons.mpr (.inl ⟨hx, hright.found.mp hrest⟩))
        | false =>
          have hlang : ¬ Lang q t := fun h => by
            rw [hright.found.mpr h] at hrest
            cases hrest
          have hstuck : ¬ Stuck q t := fun h => by
            rw [hright.fault.mpr ⟨hlang, h⟩] at hrest
            cases hrest
          change Right _ _ (scan c f t)
          by_cases hend : t = []
          · subst hend
            have hnot : ¬ Lang (.upTo c :: q) [x] := fun h => hlang (lang_upTo_single.mp h).2
            exact ⟨iff_of_false nofun hnot, iff_of_true rfl ⟨hnot, stuck_upTo_single.mpr hx⟩⟩
          · refine (ih hend).of_iff ?_ ?_
            · rw [lang_upTo_cons, or_iff_right fun h => hlang h.2]
            · rw [stuck_upTo_cons hend, or_iff_right fun h => hstuck h.2]
    · rw [if_neg hx]
      by_cases hend : t = []
      · subst hend
        rw [if_pos rfl]
        exact Right.false (fun h => hx (lang_upTo_single.mp h).1) (fun h => hx (stuck_upTo_single.mp h))
      · rw [if_neg hend]
        refine (ih hend).of_iff ?_ ?_
        · rw [lang_upTo_cons, or_iff_right fun h => hx h.1]
        · rw [stuck_upTo_cons hend, or_iff_right fun h => hx h.1]

/-- The search finds the texts of a pattern, and reads behind a text just when it is none of them and some way to read the
pattern comes to a sequence up to its last character. -/
theorem search_right (q : List Token) (t : List ℕ) : Right q t (search q t) := by
  induction q generalizing t with
  | nil =>
    rw [search]
    by_cases ht : t = []
    · rw [decide_eq_true ht]
      exact Right.true ht
    · rw [decide_eq_false ht]
      exact Right.false ht not_false
  | cons token q ih =>
    cases token with
    | rest => exact Right.true trivial
    | char c =>
      cases t with
      | nil => exact Right.false (by rintro ⟨t', heq, -⟩; cases heq) (by rintro ⟨t', heq, -⟩; cases heq)
      | cons x t =>
        rw [search]
        by_cases hx : x = c
        · subst hx
          rw [if_pos rfl]
          refine (ih t).of_iff ?_ ?_
          · simp [Lang]
          · simp [Stuck]
        · rw [if_neg hx]
          exact Right.false (by rintro ⟨t', heq, -⟩; exact hx (List.cons.inj heq).1)
            (by rintro ⟨t', heq, -⟩; exact hx (List.cons.inj heq).1)
    | any =>
      cases t with
      | nil => exact Right.false (by rintro ⟨x, t', heq, -⟩; cases heq) (by rintro ⟨x, t', heq, -⟩; cases heq)
      | cons x t =>
        refine (ih t).of_iff ?_ ?_
        · simp [Lang]
        · simp [Stuck]
    | more =>
      cases t with
      | nil => exact Right.false (fun h => h.1 rfl) (fun h => h.1 rfl)
      | cons x t =>
        refine (ih (x :: t)).of_iff ?_ ?_
        · simp [Lang]
        · simp [Stuck]
    | upTo c =>
      cases t with
      | nil =>
        refine Right.false ?_ ?_
        · rintro ⟨u, t', heq, -⟩
          exact absurd heq.symm (by simp)
        · rintro (h | ⟨u, t', heq, -⟩)
          · cases h
          · exact absurd heq.symm (by simp)
      | cons x t => exact scan_right ih (List.cons_ne_nil x t)

end Search

end Deemon.TokenSearch
