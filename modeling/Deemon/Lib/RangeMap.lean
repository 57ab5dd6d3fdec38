import Mathlib.Data.List.Chain
import Mathlib.Order.SuccPred.Basic

/-!
# Maps from ranges of keys

A map from keys to values as a list of closed ranges in increasing order, over a discrete linear order. A range of keys
is written over by cutting it out of the map (`below`, `above`) and putting one range in its place. Two neighbours
that have the same value and touch can be merged into one range (`insertMerged`).
-/

namespace Deemon.RangeMap

variable {K V : Type} [LinearOrder K]

/-- The keys from `lo` to `hi` with their value. -/
structure Entry (K V : Type) where
  lo : K
  hi : K
  value : V
  deriving DecidableEq

/-- Ranges that are not empty and do not overlap, in increasing order. -/
structure Ordered (E : List (Entry K V)) : Prop where
  lo_le_hi : ∀ e ∈ E, e.lo ≤ e.hi
  apart : E.Pairwise fun x y => x.hi < y.lo

/-- The range has keys in common with those from `a` to `b`. -/
def Overlaps (a b : K) (e : Entry K V) : Prop := a ≤ e.hi ∧ e.lo ≤ b

instance (a b : K) (e : Entry K V) : Decidable (Overlaps a b e) := inferInstanceAs (Decidable (_ ∧ _))

/-- The keys from `a` to `b` take all keys of the ranges that they overlap with, and there are such ranges. -/
def Covers (a b : K) (E : List (Entry K V)) : Prop :=
  (∃ e ∈ E, Overlaps a b e) ∧ ∀ e ∈ E, Overlaps a b e → a ≤ e.lo ∧ e.hi ≤ b

instance (a b : K) (E : List (Entry K V)) : Decidable (Covers a b E) := inferInstanceAs (Decidable (_ ∧ _))

section Ordered

variable {E F : List (Entry K V)} {e : Entry K V}

theorem Ordered.nil : Ordered ([] : List (Entry K V)) := ⟨by simp, List.Pairwise.nil⟩

theorem Ordered.sublist (h : Ordered E) (hsub : List.Sublist F E) : Ordered F :=
  ⟨fun e he => h.lo_le_hi e (hsub.subset he), h.apart.sublist hsub⟩

theorem ordered_append : Ordered (E ++ F) ↔ Ordered E ∧ Ordered F ∧ ∀ x ∈ E, ∀ y ∈ F, x.hi < y.lo := by
  constructor
  · intro h
    exact ⟨h.sublist (List.sublist_append_left _ _), h.sublist (List.sublist_append_right _ _),
      (List.pairwise_append.mp h.apart).2.2⟩
  · rintro ⟨hE, hF, hapart⟩
    refine ⟨fun e he => ?_, List.pairwise_append.mpr ⟨hE.apart, hF.apart, hapart⟩⟩
    rcases List.mem_append.mp he with he | he
    · exact hE.lo_le_hi e he
    · exact hF.lo_le_hi e he

theorem ordered_cons : Ordered (e :: E) ↔ e.lo ≤ e.hi ∧ Ordered E ∧ ∀ x ∈ E, e.hi < x.lo := by
  constructor
  · intro h
    exact ⟨h.lo_le_hi e List.mem_cons_self, h.sublist (List.sublist_cons_self e E), (List.pairwise_cons.mp h.apart).1⟩
  · rintro ⟨hle, hE, hapart⟩
    refine ⟨fun x hx => ?_, List.pairwise_cons.mpr ⟨hapart, hE.apart⟩⟩
    rcases List.mem_cons.mp hx with rfl | hx
    · exact hle
    · exact hE.lo_le_hi x hx

end Ordered

/-! ### Cutting out a range -/

/-- What is left of a range below the key `a`. -/
def cutBelow [PredOrder K] (a : K) (e : Entry K V) : Option (Entry K V) :=
  if e.lo < a then some { e with hi := min e.hi (Order.pred a) } else none

/-- What is left of a range above the key `b`. -/
def cutAbove [SuccOrder K] (b : K) (e : Entry K V) : Option (Entry K V) :=
  if b < e.hi then some { e with lo := max e.lo (Order.succ b) } else none

/-- The map below `a`. -/
def below [PredOrder K] (a : K) (E : List (Entry K V)) : List (Entry K V) := E.filterMap (cutBelow a)

/-- The map above `b`. -/
def above [SuccOrder K] (b : K) (E : List (Entry K V)) : List (Entry K V) := E.filterMap (cutAbove b)

section Below

variable [PredOrder K] {a : K} {E F : List (Entry K V)} {e x : Entry K V}

theorem le_pred_of_lt {c : K} (h : c < a) : c ≤ Order.pred a := Order.le_pred_of_lt h

theorem pred_lt_of_lt {c : K} (h : c < a) : Order.pred a < a := Order.pred_lt_of_not_isMin fun hmin => hmin.not_lt h

theorem cutBelow_of_hi_lt (h : Ordered [e]) (hlt : e.hi < a) : cutBelow a e = some e := by
  have hle := h.lo_le_hi e List.mem_cons_self
  rw [cutBelow, if_pos (hle.trans_lt hlt), min_eq_left (le_pred_of_lt hlt)]

theorem cutBelow_eq_none (h : a ≤ e.lo) : cutBelow a e = none := if_neg h.not_gt

/-- A range that `a` is inside of is cut off in front of it. -/
theorem cutBelow_of_le_hi (hlo : e.lo < a) (hhi : a ≤ e.hi) : cutBelow a e = some { e with hi := Order.pred a } := by
  rw [cutBelow, if_pos hlo, min_eq_right ((Order.pred_le a).trans hhi)]

theorem below_append : below a (E ++ F) = below a E ++ below a F := List.filterMap_append

theorem below_of_hi_lt (h : Ordered E) (hlt : ∀ e ∈ E, e.hi < a) : below a E = E := by
  unfold below
  induction E with
  | nil => rfl
  | cons e E ih =>
    have hE := ordered_cons.mp h
    rw [List.filterMap_cons, cutBelow_of_hi_lt (h.sublist (by simp)) (hlt e List.mem_cons_self)]
    dsimp only
    rw [ih hE.2.1 fun x hx => hlt x (List.mem_cons_of_mem e hx)]

theorem below_eq_nil (h : ∀ e ∈ E, a ≤ e.lo) : below a E = [] :=
  List.filterMap_eq_nil_iff.mpr fun e he => cutBelow_eq_none (h e he)

/-- Only the first range that reaches `a` is cut. -/
theorem below_cons (h : Ordered (e :: E)) (hle : a ≤ e.hi) : below a (e :: E) = (cutBelow a e).toList := by
  have hE : below a E = [] := below_eq_nil fun x hx => hle.trans ((ordered_cons.mp h).2.2 x hx).le
  rw [below, List.filterMap_cons]
  cases hcut : cutBelow a e with
  | none => exact hE
  | some x => exact congrArg (x :: ·) hE

/-- A range below `a` is what is left of one of the map. -/
theorem mem_below (h : Ordered E) (hx : x ∈ below a E) :
    x.lo ≤ x.hi ∧ x.hi < a ∧ ∃ e ∈ E, x.lo = e.lo ∧ x.hi ≤ e.hi ∧ x.value = e.value := by
  obtain ⟨e, he, hcut⟩ := List.mem_filterMap.mp hx
  unfold cutBelow at hcut
  split_ifs at hcut with hlt
  obtain rfl := Option.some.inj hcut
  exact ⟨le_min (h.lo_le_hi e he) (le_pred_of_lt hlt), (min_le_right _ _).trans_lt (pred_lt_of_lt hlt), e, he, rfl,
    min_le_left _ _, rfl⟩

theorem ordered_below (h : Ordered E) (a : K) : Ordered (below a E) := by
  refine ⟨fun x hx => (mem_below h hx).1, h.apart.filterMap _ fun x y hxy x' hx' y' hy' => ?_⟩
  unfold cutBelow at hx' hy'
  split_ifs at hx' hy'
  obtain rfl := Option.some.inj hx'
  obtain rfl := Option.some.inj hy'
  exact (min_le_left _ _).trans_lt hxy

end Below

section Above

variable [SuccOrder K] {b : K} {E F : List (Entry K V)} {e x : Entry K V}

theorem succ_le_of_lt {c : K} (h : b < c) : Order.succ b ≤ c := Order.succ_le_of_lt h

theorem lt_succ_of_lt {c : K} (h : b < c) : b < Order.succ b := Order.lt_succ_of_not_isMax fun hmax => hmax.not_lt h

theorem cutAbove_of_lt_lo (h : Ordered [e]) (hlt : b < e.lo) : cutAbove b e = some e := by
  have hle := h.lo_le_hi e List.mem_cons_self
  rw [cutAbove, if_pos (hlt.trans_le hle), max_eq_left (succ_le_of_lt hlt)]

theorem cutAbove_eq_none (h : e.hi ≤ b) : cutAbove b e = none := if_neg h.not_gt

/-- A range that `b` is inside of is cut off behind it. -/
theorem cutAbove_of_lo_le (hlo : e.lo ≤ b) (hhi : b < e.hi) : cutAbove b e = some { e with lo := Order.succ b } := by
  rw [cutAbove, if_pos hhi, max_eq_right (hlo.trans (Order.le_succ b))]

theorem above_append : above b (E ++ F) = above b E ++ above b F := List.filterMap_append

theorem above_of_lt_lo (h : Ordered E) (hlt : ∀ e ∈ E, b < e.lo) : above b E = E := by
  unfold above
  induction E with
  | nil => rfl
  | cons e E ih =>
    have hE := ordered_cons.mp h
    rw [List.filterMap_cons, cutAbove_of_lt_lo (h.sublist (by simp)) (hlt e List.mem_cons_self)]
    dsimp only
    rw [ih hE.2.1 fun x hx => hlt x (List.mem_cons_of_mem e hx)]

theorem above_eq_nil (h : ∀ e ∈ E, e.hi ≤ b) : above b E = [] :=
  List.filterMap_eq_nil_iff.mpr fun e he => cutAbove_eq_none (h e he)

/-- Only the last range that reaches `b` is cut. -/
theorem above_concat (h : Ordered (E ++ [e])) (hle : e.lo ≤ b) : above b (E ++ [e]) = (cutAbove b e).toList := by
  have hE : above b E = [] := above_eq_nil fun x hx =>
    ((ordered_append.mp h).2.2 x hx e List.mem_cons_self).le.trans hle
  rw [above_append, hE, List.nil_append, above, List.filterMap_cons]
  cases cutAbove b e <;> rfl

/-- A range above `b` is what is left of one of the map. -/
theorem mem_above (h : Ordered E) (hx : x ∈ above b E) :
    x.lo ≤ x.hi ∧ b < x.lo ∧ ∃ e ∈ E, e.lo ≤ x.lo ∧ x.hi = e.hi ∧ x.value = e.value := by
  obtain ⟨e, he, hcut⟩ := List.mem_filterMap.mp hx
  unfold cutAbove at hcut
  split_ifs at hcut with hlt
  obtain rfl := Option.some.inj hcut
  exact ⟨max_le (h.lo_le_hi e he) (succ_le_of_lt hlt), (lt_succ_of_lt hlt).trans_le (le_max_right _ _), e, he,
    le_max_left _ _, rfl, rfl⟩

theorem ordered_above (h : Ordered E) (b : K) : Ordered (above b E) := by
  refine ⟨fun x hx => (mem_above h hx).1, h.apart.filterMap _ fun x y hxy x' hx' y' hy' => ?_⟩
  unfold cutAbove at hx' hy'
  split_ifs at hx' hy'
  obtain rfl := Option.some.inj hx'
  obtain rfl := Option.some.inj hy'
  exact hxy.trans_le (le_max_left _ _)

end Above

/-- One range in the place of all keys that it has. -/
theorem Ordered.replace [PredOrder K] [SuccOrder K] {E : List (Entry K V)} {e : Entry K V} (h : Ordered E)
    (he : e.lo ≤ e.hi) : Ordered (below e.lo E ++ e :: above e.hi E) := by
  refine ordered_append.mpr ⟨ordered_below h _, ordered_cons.mpr ⟨he, ordered_above h _, fun x hx => (mem_above h hx).2.1⟩, ?_⟩
  intro x hx y hy
  have hxlt := (mem_below h hx).2.1
  rcases List.mem_cons.mp hy with rfl | hy
  · exact hxlt
  · exact hxlt.trans (he.trans_lt (mem_above h hy).2.1)

/-- A range cut out. -/
theorem Ordered.remove [PredOrder K] [SuccOrder K] {E : List (Entry K V)} {a b : K} (h : Ordered E) (hab : a ≤ b) :
    Ordered (below a E ++ above b E) :=
  ordered_append.mpr ⟨ordered_below h _, ordered_above h _, fun _ hx _ hy =>
    (mem_below h hx).2.1.trans (hab.trans_lt (mem_above h hy).2.1)⟩

/-! ### Merging -/

/-- The two ranges touch and have the same value. -/
def Joined [SuccOrder K] (x y : Entry K V) : Prop := x.value = y.value ∧ Order.succ x.hi = y.lo

/-- No two neighbours touch and have the same value. -/
def Merged [SuccOrder K] (E : List (Entry K V)) : Prop := E.IsChain fun x y => ¬Joined x y

theorem merged_between [SuccOrder K] {pre post : List (Entry K V)} {e : Entry K V} (hpre : Merged pre)
    (hpost : Merged post) (hprev : ∀ p ∈ pre.getLast?, ¬Joined p e) (hnext : ∀ n ∈ post.head?, ¬Joined e n) :
    Merged (pre ++ e :: post) := by
  refine List.IsChain.append hpre (List.IsChain.cons hpost hnext) fun p hp x hx => ?_
  obtain rfl : e = x := Option.some.inj hx
  exact hprev p hp

section Merge

variable [DecidableEq V] (adj : K → K → Bool)

/-- The last of the ranges before `e` is merged into it. -/
def mergePrev (pre : List (Entry K V)) (e : Entry K V) : List (Entry K V) × Entry K V :=
  match pre.getLast? with
  | some p => if p.value = e.value ∧ adj p.hi e.lo = true then (pre.dropLast, { e with lo := p.lo }) else (pre, e)
  | none => (pre, e)

/-- The first of the ranges behind `e` is merged into it. -/
def mergeNext (e : Entry K V) (post : List (Entry K V)) : List (Entry K V) :=
  match post with
  | n :: rest => if n.value = e.value ∧ adj e.hi n.lo = true then { e with hi := n.hi } :: rest else e :: n :: rest
  | [] => [e]

/-- A range between others, merged with the neighbours that `adj` says touch it. -/
def insertMerged (pre : List (Entry K V)) (e : Entry K V) (post : List (Entry K V)) : List (Entry K V) :=
  (mergePrev adj pre e).1 ++ mergeNext adj (mergePrev adj pre e).2 post

variable {pre post : List (Entry K V)} {e p n : Entry K V}

omit [LinearOrder K] in
theorem mergePrev_concat : mergePrev adj (pre ++ [p]) e =
    if p.value = e.value ∧ adj p.hi e.lo = true then (pre, { e with lo := p.lo }) else (pre ++ [p], e) := by
  simp [mergePrev]

omit [LinearOrder K] in
theorem mergePrev_hi_value : (mergePrev adj pre e).2.hi = e.hi ∧ (mergePrev adj pre e).2.value = e.value := by
  unfold mergePrev
  split
  · split_ifs <;> exact ⟨rfl, rfl⟩
  · exact ⟨rfl, rfl⟩

/-- Merging covers the keys of two neighbours and those between them. -/
theorem ordered_insertMerged (h : Ordered (pre ++ e :: post)) : Ordered (insertMerged adj pre e post) := by
  have hprev : Ordered ((mergePrev adj pre e).1 ++ (mergePrev adj pre e).2 :: post) := by
    rcases List.eq_nil_or_concat pre with rfl | ⟨pre, p, rfl⟩
    · exact h
    · rw [List.concat_eq_append] at h ⊢
      rw [mergePrev_concat]
      split_ifs
      · rw [List.append_assoc, ordered_append] at h
        obtain ⟨hpre, hrest, hapart⟩ := h
        rw [List.singleton_append, ordered_cons, ordered_cons] at hrest
        obtain ⟨hp, ⟨he, hpost, heapart⟩, hpapart⟩ := hrest
        have hpe := hpapart e List.mem_cons_self
        refine ordered_append.mpr ⟨hpre, ordered_cons.mpr ⟨hp.trans (hpe.le.trans he), hpost, heapart⟩, ?_⟩
        intro x hx y hy
        rcases List.mem_cons.mp hy with rfl | hy
        · exact hapart x hx p (by simp)
        · exact hapart x hx y (by simp [hy])
      · exact h
  unfold insertMerged
  cases post with
  | nil => exact hprev
  | cons n rest =>
    rw [mergeNext]
    split_ifs
    · rw [ordered_append, ordered_cons, ordered_cons] at hprev
      obtain ⟨hpre, ⟨he, ⟨hn, hrest, hnapart⟩, heapart⟩, hapart⟩ := hprev
      have hen := heapart n List.mem_cons_self
      refine ordered_append.mpr ⟨hpre, ordered_cons.mpr ⟨he.trans (hen.le.trans hn), hrest, hnapart⟩, ?_⟩
      intro x hx y hy
      rcases List.mem_cons.mp hy with rfl | hy
      · exact hapart x hx (mergePrev adj pre e).2 List.mem_cons_self
      · exact hapart x hx y (by simp [hy])
    · exact hprev

variable [SuccOrder K]

theorem merged_mergePrev (hpre : Merged pre)
    (hprev : ∀ p ∈ pre.getLast?, p.value = e.value → (adj p.hi e.lo = true ↔ Order.succ p.hi = e.lo)) :
    Merged (mergePrev adj pre e).1 ∧ ∀ x ∈ (mergePrev adj pre e).1.getLast?, ¬Joined x (mergePrev adj pre e).2 := by
  rcases List.eq_nil_or_concat pre with rfl | ⟨pre, p, rfl⟩
  · exact ⟨hpre, by simp [mergePrev]⟩
  · rw [List.concat_eq_append] at hpre hprev ⊢
    rw [mergePrev_concat]
    split_ifs with hmerge
    · have hparts := List.isChain_append.mp hpre
      refine ⟨hparts.1, fun x hx hjoined => hparts.2.2 x hx p rfl ?_⟩
      exact ⟨hjoined.1.trans hmerge.1.symm, hjoined.2⟩
    · refine ⟨hpre, fun x hx hjoined => hmerge ?_⟩
      rw [List.getLast?_concat] at hx hprev
      obtain rfl : p = x := Option.some.inj hx
      exact ⟨hjoined.1, (hprev p rfl hjoined.1).mpr hjoined.2⟩

theorem merged_mergeNext (hpost : Merged post)
    (hnext : ∀ n ∈ post.head?, n.value = e.value → (adj e.hi n.lo = true ↔ Order.succ e.hi = n.lo)) :
    Merged (mergeNext adj e post) ∧ ∃ x ∈ (mergeNext adj e post).head?, x.lo = e.lo ∧ x.value = e.value := by
  cases post with
  | nil => exact ⟨List.isChain_singleton _, e, rfl, rfl, rfl⟩
  | cons n rest =>
    rw [mergeNext]
    split_ifs with hmerge
    · refine ⟨List.IsChain.cons hpost.tail fun y hy hjoined => ?_, _, rfl, rfl, rfl⟩
      exact hpost.rel_head? hy ⟨hmerge.1.trans hjoined.1, hjoined.2⟩
    · refine ⟨List.IsChain.cons hpost fun y hy hjoined => hmerge ?_, e, rfl, rfl, rfl⟩
      obtain rfl : n = y := Option.some.inj hy
      exact ⟨hjoined.1.symm, (hnext n rfl hjoined.1.symm).mpr hjoined.2⟩

/-- A range that is merged with its neighbours leaves no two neighbours to merge. -/
theorem merged_insertMerged (hpre : Merged pre) (hpost : Merged post)
    (hprev : ∀ p ∈ pre.getLast?, p.value = e.value → (adj p.hi e.lo = true ↔ Order.succ p.hi = e.lo))
    (hnext : ∀ n ∈ post.head?, n.value = e.value → (adj e.hi n.lo = true ↔ Order.succ e.hi = n.lo)) :
    Merged (insertMerged adj pre e post) := by
  obtain ⟨hpre', hlast⟩ := merged_mergePrev adj hpre hprev
  have hsame := @mergePrev_hi_value _ _ _ adj pre e
  obtain ⟨hpost', x, hx, hlo, hvalue⟩ := @merged_mergeNext _ _ _ _ adj _ (mergePrev adj pre e).2 _ hpost
    (by rw [hsame.1, hsame.2]; exact hnext)
  refine hpre'.append hpost' fun y hy z hz hjoined => hlast y hy ?_
  obtain rfl : x = z := Option.some.inj ((Option.mem_def.mp hx).symm.trans hz)
  exact ⟨hjoined.1.trans hvalue, hjoined.2.trans hlo⟩

end Merge

section Cut

variable [SuccOrder K] [PredOrder K] {E : List (Entry K V)} {a b : K}

theorem merged_below (h : Ordered E) (hmerged : Merged E) : Merged (below a E) := by
  induction E with
  | nil => exact List.isChain_nil
  | cons x E ih =>
    obtain ⟨-, hE, hapart⟩ := ordered_cons.mp h
    by_cases hlt : x.lo < a
    · have hcut : below a (x :: E) = { x with hi := min x.hi (Order.pred a) } :: below a E := by
        rw [below, List.filterMap_cons, cutBelow, if_pos hlt]
        rfl
      rw [hcut]
      refine List.IsChain.cons (ih hE hmerged.tail) fun y hy hjoined => ?_
      cases E with
      | nil => cases hy
      | cons z E =>
        by_cases hz : z.lo < a
        · rw [below, List.filterMap_cons, cutBelow, if_pos hz] at hy
          obtain rfl := Option.some.inj hy
          have hxz := hapart z List.mem_cons_self
          rw [Joined, min_eq_left (le_pred_of_lt (hxz.trans hz))] at hjoined
          exact hmerged.rel_head? rfl hjoined
        · have hnil : below a (z :: E) = [] := below_eq_nil fun w hw => by
            rcases List.mem_cons.mp hw with rfl | hw
            · exact not_lt.mp hz
            · obtain ⟨hzle, -, hzapart⟩ := ordered_cons.mp hE
              exact (not_lt.mp hz).trans (hzle.trans (hzapart w hw).le)
          rw [hnil] at hy
          cases hy
    · have hcut : below a (x :: E) = below a E := by
        rw [below, List.filterMap_cons, cutBelow, if_neg hlt]
        rfl
      rw [hcut]
      exact ih hE hmerged.tail

omit [PredOrder K] in
theorem merged_above (h : Ordered E) (hmerged : Merged E) : Merged (above b E) := by
  induction E with
  | nil => exact List.isChain_nil
  | cons x E ih =>
    obtain ⟨-, hE, hapart⟩ := ordered_cons.mp h
    by_cases hlt : b < x.hi
    · have hcut : above b (x :: E) = { x with lo := max x.lo (Order.succ b) } :: above b E := by
        rw [above, List.filterMap_cons, cutAbove, if_pos hlt]
        rfl
      have hrest : above b E = E := above_of_lt_lo hE fun y hy => hlt.trans (hapart y hy)
      rw [hcut, hrest]
      exact List.IsChain.cons hmerged.tail fun y hy hjoined => hmerged.rel_head? hy hjoined
    · have hcut : above b (x :: E) = above b E := by
        rw [above, List.filterMap_cons, cutAbove, if_neg hlt]
        rfl
      rw [hcut]
      exact ih hE hmerged.tail

/-- No range of what is left touches one behind the range cut out. -/
theorem merged_remove (h : Ordered E) (hmerged : Merged E) (hab : a ≤ b) : Merged (below a E ++ above b E) := by
  refine (merged_below h hmerged).append (merged_above h hmerged) fun x hx y hy hjoined => ?_
  have hxlt := (mem_below h (List.mem_of_mem_getLast? hx)).2.1
  have hylt := (mem_above h (List.mem_of_mem_head? hy)).2.1
  have hle := hjoined.2 ▸ Order.succ_le_of_lt hxlt
  exact absurd hylt (hle.trans hab).not_gt

end Cut

/-! ### The map as a relation -/

/-- The key has the value. -/
def At (E : List (Entry K V)) (k : K) (v : V) : Prop := ∃ e ∈ E, (e.lo ≤ k ∧ k ≤ e.hi) ∧ e.value = v

section At

variable {E F : List (Entry K V)} {e : Entry K V} {k : K} {v w : V}

theorem not_at_nil : ¬At ([] : List (Entry K V)) k v := by simp [At]

theorem at_cons : At (e :: E) k v ↔ (e.lo ≤ k ∧ k ≤ e.hi) ∧ e.value = v ∨ At E k v := by simp [At]

theorem at_append : At (E ++ F) k v ↔ At E k v ∨ At F k v := by simp [At, or_and_right, exists_or]

/-- A key has one value at most. -/
theorem Ordered.at_unique (h : Ordered E) (hv : At E k v) (hw : At E k w) : v = w := by
  induction E with
  | nil => exact absurd hv not_at_nil
  | cons e E ih =>
    obtain ⟨-, hE, hapart⟩ := ordered_cons.mp h
    have hrest : ∀ u, At E k u → e.hi < k := by
      rintro u ⟨x, hx, ⟨hlo, -⟩, -⟩
      exact (hapart x hx).trans_le hlo
    rcases at_cons.mp hv with ⟨⟨-, hle⟩, rfl⟩ | hv
    · rcases at_cons.mp hw with ⟨-, rfl⟩ | hw
      · rfl
      · exact absurd hle (hrest w hw).not_ge
    · rcases at_cons.mp hw with ⟨⟨-, hle⟩, rfl⟩ | hw
      · exact absurd hle (hrest v hv).not_ge
      · exact ih hE hv hw

theorem at_below [PredOrder K] {a : K} : At (below a E) k v ↔ At E k v ∧ k < a := by
  constructor
  · rintro ⟨x, hx, ⟨hlo, hhi⟩, rfl⟩
    obtain ⟨e, he, hcut⟩ := List.mem_filterMap.mp hx
    unfold cutBelow at hcut
    split_ifs at hcut with hlt
    obtain rfl := Option.some.inj hcut
    exact ⟨⟨e, he, ⟨hlo, hhi.trans (min_le_left _ _)⟩, rfl⟩, (hhi.trans (min_le_right _ _)).trans_lt (pred_lt_of_lt hlt)⟩
  · rintro ⟨⟨e, he, ⟨hlo, hhi⟩, rfl⟩, hlt⟩
    exact ⟨_, List.mem_filterMap.mpr ⟨e, he, if_pos (hlo.trans_lt hlt)⟩, ⟨hlo, le_min hhi (le_pred_of_lt hlt)⟩, rfl⟩

theorem at_above [SuccOrder K] {b : K} : At (above b E) k v ↔ At E k v ∧ b < k := by
  constructor
  · rintro ⟨x, hx, ⟨hlo, hhi⟩, rfl⟩
    obtain ⟨e, he, hcut⟩ := List.mem_filterMap.mp hx
    unfold cutAbove at hcut
    split_ifs at hcut with hlt
    obtain rfl := Option.some.inj hcut
    exact ⟨⟨e, he, ⟨(le_max_left _ _).trans hlo, hhi⟩, rfl⟩, (lt_succ_of_lt hlt).trans_le ((le_max_right _ _).trans hlo)⟩
  · rintro ⟨⟨e, he, ⟨hlo, hhi⟩, rfl⟩, hlt⟩
    exact ⟨_, List.mem_filterMap.mpr ⟨e, he, if_pos (hlt.trans_le hhi)⟩, ⟨max_le hlo (succ_le_of_lt hlt), hhi⟩, rfl⟩

/-- Two ranges that touch have the keys of the range from the first to the last of them. -/
theorem between_joined [SuccOrder K] {x y : Entry K V} (hx : x.lo ≤ x.hi) (hy : y.lo ≤ y.hi) (h : Order.succ x.hi = y.lo) :
    x.lo ≤ k ∧ k ≤ y.hi ↔ (x.lo ≤ k ∧ k ≤ x.hi) ∨ (y.lo ≤ k ∧ k ≤ y.hi) := by
  constructor
  · rintro ⟨hlo, hhi⟩
    rcases le_or_gt k x.hi with hle | hlt
    · exact .inl ⟨hlo, hle⟩
    · exact .inr ⟨h ▸ succ_le_of_lt hlt, hhi⟩
  · rintro (⟨hlo, hhi⟩ | ⟨hlo, hhi⟩)
    · exact ⟨hlo, hhi.trans ((h ▸ Order.le_succ x.hi).trans hy)⟩
    · exact ⟨hx.trans ((Order.le_succ x.hi).trans (h ▸ hlo)), hhi⟩

/-- Merging two ranges of one value leaves the map as it is. -/
theorem at_merge [SuccOrder K] {x y : Entry K V} (h : Ordered (E ++ x :: y :: F)) (hvalue : x.value = y.value)
    (hsucc : Order.succ x.hi = y.lo) : At (E ++ { x with hi := y.hi } :: F) k v ↔ At (E ++ x :: y :: F) k v := by
  have hrest := ordered_cons.mp (ordered_append.mp h).2.1
  have hy := (ordered_cons.mp hrest.2.1).1
  simp only [at_append, at_cons, between_joined hrest.1 hy hsucc, hvalue]
  tauto

theorem ordered_merge {x y : Entry K V} (h : Ordered (E ++ x :: y :: F)) : Ordered (E ++ { x with hi := y.hi } :: F) := by
  obtain ⟨hE, hrest, hapart⟩ := ordered_append.mp h
  obtain ⟨hx, hyF, hxapart⟩ := ordered_cons.mp hrest
  obtain ⟨hy, hF, hyapart⟩ := ordered_cons.mp hyF
  refine ordered_append.mpr ⟨hE, ordered_cons.mpr ⟨hx.trans ((hxapart y List.mem_cons_self).le.trans hy), hF, hyapart⟩, ?_⟩
  intro z hz w hw
  rcases List.mem_cons.mp hw with rfl | hw
  · exact hapart z hz x List.mem_cons_self
  · exact hapart z hz w (by simp [hw])

/-- Merging a range with its neighbours leaves the map as it is where `adj` calls only those adjacent that touch. -/
theorem at_insertMerged [SuccOrder K] [DecidableEq V] {adj : K → K → Bool} (h : Ordered (E ++ e :: F))
    (hprev : ∀ p ∈ E.getLast?, adj p.hi e.lo = true → Order.succ p.hi = e.lo)
    (hnext : ∀ n ∈ F.head?, adj e.hi n.lo = true → Order.succ e.hi = n.lo) :
    At (insertMerged adj E e F) k v ↔ At (E ++ e :: F) k v := by
  have hlast : Ordered ((mergePrev adj E e).1 ++ (mergePrev adj E e).2 :: F) ∧
      (At ((mergePrev adj E e).1 ++ (mergePrev adj E e).2 :: F) k v ↔ At (E ++ e :: F) k v) := by
    rcases List.eq_nil_or_concat E with rfl | ⟨E, p, rfl⟩
    · exact ⟨h, Iff.rfl⟩
    · rw [List.concat_eq_append] at h hprev ⊢
      rw [mergePrev_concat]
      split_ifs with hmerge
      · rw [List.append_assoc, List.singleton_append] at h ⊢
        have hsucc := hprev p (by simp) hmerge.2
        have heq : ({ e with lo := p.lo } : Entry K V) = { p with hi := e.hi } := by
          rw [← hmerge.1]
        rw [heq]
        exact ⟨ordered_merge h, at_merge h hmerge.1 hsucc⟩
      · exact ⟨h, Iff.rfl⟩
  obtain ⟨hordered, hat⟩ := hlast
  have hsame := @mergePrev_hi_value _ _ _ adj E e
  rw [insertMerged, ← hat]
  cases F with
  | nil => exact Iff.rfl
  | cons n rest =>
    rw [mergeNext]
    split_ifs with hmerge
    · refine at_merge hordered hmerge.1.symm ?_
      rw [hsame.1]
      exact hnext n rfl (hsame.1 ▸ hmerge.2)
    · exact Iff.rfl

theorem Ordered.hi_lt_of_at (h : Ordered (e :: E)) (hk : At E k v) : e.hi < k := by
  obtain ⟨x, hx, ⟨hlo, -⟩, -⟩ := hk
  exact ((ordered_cons.mp h).2.2 x hx).trans_le hlo

theorem Ordered.lo_le_of_at (h : Ordered (e :: E)) (hk : At (e :: E) k v) : e.lo ≤ k := by
  rcases at_cons.mp hk with ⟨⟨hlo, -⟩, -⟩ | hk
  · exact hlo
  · exact (h.lo_le_hi e List.mem_cons_self).trans (h.hi_lt_of_at hk).le

/-- A range taken out. -/
theorem at_without (h : Ordered (E ++ e :: F)) :
    At (E ++ F) k v ↔ ¬(e.lo ≤ k ∧ k ≤ e.hi) ∧ At (E ++ e :: F) k v := by
  obtain ⟨-, hrest, hapart⟩ := ordered_append.mp h
  have hbelow : At E k v → ¬(e.lo ≤ k ∧ k ≤ e.hi) := by
    rintro ⟨x, hx, ⟨-, hhi⟩, -⟩ hin
    exact (hhi.trans_lt (hapart x hx e List.mem_cons_self)).not_ge hin.1
  have habove : At F k v → ¬(e.lo ≤ k ∧ k ≤ e.hi) := fun hk hin => (hrest.hi_lt_of_at hk).not_ge hin.2
  rw [at_append, at_append, at_cons]
  tauto

theorem Ordered.le_hi_of_at (h : Ordered (E ++ [e])) (hk : At (E ++ [e]) k v) : k ≤ e.hi := by
  obtain ⟨x, hx, ⟨-, hhi⟩, -⟩ := hk
  rcases List.mem_append.mp hx with hx | hx
  · have hlt := (ordered_append.mp h).2.2 x hx e List.mem_cons_self
    exact hhi.trans (hlt.le.trans (h.lo_le_hi e (by simp)))
  · obtain rfl := List.mem_singleton.mp hx
    exact hhi

end At

end Deemon.RangeMap
