import Mathlib.Data.List.Nodup
import Mathlib.Data.List.Pairwise

/-!
# Association lists in the order of insertion

Lists of pairs no two of which have the same key, for an equivalence that says which keys are the same. A pair that is
inserted goes to the end; a pair that had its key is gone then.
-/

namespace Deemon.KeyedList

variable {κ ν : Type} {same : κ → κ → Prop} {l pre post : List (κ × ν)} {p q : κ × ν}

/-- No two pairs have the same key. -/
def Distinct (same : κ → κ → Prop) (l : List (κ × ν)) : Prop := l.Pairwise fun p q => ¬same p.1 q.1

/-- The pairs whose keys differ from a key. -/
def without (same : κ → κ → Prop) [DecidableRel same] (k : κ) (l : List (κ × ν)) : List (κ × ν) :=
  l.filter fun q => !decide (same k q.1)

/-- The value of a key. -/
def lookup (same : κ → κ → Prop) [DecidableRel same] (k : κ) (l : List (κ × ν)) : Option ν :=
  (l.find? fun q => decide (same k q.1)).map Prod.snd

/-- A pair is inserted. -/
def insertLast (same : κ → κ → Prop) [DecidableRel same] (l : List (κ × ν)) (p : κ × ν) : List (κ × ν) :=
  without same p.1 l ++ [p]

theorem Distinct.nodup (hsame : Equivalence same) (h : Distinct same l) : (l.map Prod.fst).Nodup := by
  refine List.pairwise_map.mpr (List.Pairwise.imp ?_ h)
  intro p q hne heq
  exact hne (heq ▸ hsame.refl p.1)

theorem Distinct.ne_left (h : Distinct same (pre ++ q :: post)) (hp : p ∈ pre) : ¬same p.1 q.1 :=
  (List.pairwise_append.mp h).2.2 p hp q List.mem_cons_self

theorem Distinct.ne_right (h : Distinct same (pre ++ q :: post)) (hp : p ∈ post) : ¬same q.1 p.1 :=
  (List.pairwise_cons.mp (List.pairwise_append.mp h).2.1).1 p hp

section Without

variable [DecidableRel same] {k : κ}

theorem mem_without : q ∈ without same k l ↔ q ∈ l ∧ ¬same k q.1 := by
  unfold without
  rw [List.mem_filter, Bool.not_eq_true', decide_eq_false_iff_not]

theorem without_append : without same k (pre ++ post) = without same k pre ++ without same k post := List.filter_append ..

theorem without_of_new (h : ∀ q ∈ l, ¬same k q.1) : without same k l = l := by
  refine List.filter_eq_self.mpr fun q hq => ?_
  rw [decide_eq_false (h q hq)]
  rfl

/-- Among pairs with different keys there is one pair to leave out. -/
theorem without_of_mem (hsame : Equivalence same) (h : Distinct same (pre ++ q :: post)) (hq : same k q.1) :
    without same k (pre ++ q :: post) = pre ++ post := by
  have hpre : without same k pre = pre := without_of_new fun p hp hk =>
    h.ne_left hp (hsame.trans (hsame.symm hk) hq)
  have hpost : without same k post = post := without_of_new fun p hp hk =>
    h.ne_right hp (hsame.trans (hsame.symm hq) hk)
  have hcons : without same k (q :: post) = without same k post :=
    List.filter_cons_of_neg (by rw [decide_eq_true hq]; exact Bool.false_ne_true)
  rw [without_append, hpre, hcons, hpost]

theorem lookup_of_new (h : ∀ q ∈ l, ¬same k q.1) : lookup same k l = none := by
  have hfind : l.find? (fun q => decide (same k q.1)) = none := by simpa using fun a b hq => h (a, b) hq
  rw [lookup, hfind, Option.map_none]

theorem lookup_of_mem (hsame : Equivalence same) (h : Distinct same (pre ++ q :: post)) (hq : same k q.1) :
    lookup same k (pre ++ q :: post) = some q.2 := by
  have hpre : ∀ p ∈ pre, ¬same k p.1 := fun p hp hk => h.ne_left hp (hsame.trans (hsame.symm hk) hq)
  have hfind : (pre ++ q :: post).find? (fun p => decide (same k p.1)) = some q :=
    List.find?_eq_some_iff_append.mpr ⟨by simpa using hq, pre, post, rfl, fun p hp => by simpa using hpre p hp⟩
  rw [lookup, hfind, Option.map_some]

theorem Distinct.without (h : Distinct same l) : Distinct same (without same k l) := List.Pairwise.sublist List.filter_sublist h

end Without

section Insert

variable [DecidableRel same]

theorem insertLast_of_new (h : ∀ q ∈ l, ¬same p.1 q.1) : insertLast same l p = l ++ [p] := by
  unfold insertLast
  rw [without_of_new h]

theorem insertLast_of_mem (hsame : Equivalence same) (h : Distinct same (pre ++ q :: post)) (hq : same p.1 q.1) :
    insertLast same (pre ++ q :: post) p = pre ++ post ++ [p] := by
  unfold insertLast
  rw [without_of_mem hsame h hq]

theorem Distinct.insertLast (hsame : Equivalence same) (h : Distinct same l) : Distinct same (insertLast same l p) := by
  refine List.pairwise_append.mpr ⟨h.without, List.pairwise_singleton _ _, fun q hq r hr heq => ?_⟩
  rw [List.mem_singleton.mp hr] at heq
  exact (mem_without.mp hq).2 (hsame.symm heq)

theorem mem_of_mem_insertLast (h : q ∈ insertLast same l p) : q ∈ l ∨ q = p := by
  rcases List.mem_append.mp h with hold | hnew
  · exact .inl (mem_without.mp hold).1
  · exact .inr (List.mem_singleton.mp hnew)

/-- Pairs that are inserted one after the other are the only ones that come to be in the list. -/
theorem mem_of_mem_foldl {ps : List (κ × ν)} (h : q ∈ ps.foldl (insertLast same) l) : q ∈ l ∨ q ∈ ps := by
  induction ps generalizing l with
  | nil => exact .inl h
  | cons p ps ih =>
    rcases ih h with hl | hps
    · rcases mem_of_mem_insertLast hl with hold | rfl
      · exact .inl hold
      · exact .inr List.mem_cons_self
    · exact .inr (List.mem_cons_of_mem p hps)

end Insert

end Deemon.KeyedList
