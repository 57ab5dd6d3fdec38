import Mathlib.Data.List.Sort

/-!
# Sorting by a strict weak order

A comparison `less` that is a strict weak order on the items of a list leaves items tied that it does not order. A
sorted list is determined by its elements and the order of the tied ones (`Sorted.eq_of_tied`). Insertion behind all
items that are not greater keeps tied items in their order; a merge that prefers the second list when it may swaps
the tied items of both.
-/

namespace Deemon.WeakOrder

variable {β : Type} {less : β → β → Bool}

/-- `less` is a strict weak order on the items of a list. -/
structure StrictWeakOn (less : β → β → Bool) (l : List β) : Prop where
  asymm : ∀ a ∈ l, ∀ b ∈ l, less a b = true → less b a = false
  trans_not : ∀ a ∈ l, ∀ b ∈ l, ∀ c ∈ l, less a b = false → less b c = false → less a c = false

/-- No item is less than one before it. -/
def Sorted (less : β → β → Bool) (l : List β) : Prop := l.Pairwise fun a b => less b a = false

/-- Neither of two items is less. -/
def tied (less : β → β → Bool) (a b : β) : Bool := !less a b && !less b a

theorem tied_iff {a b : β} : tied less a b = true ↔ less a b = false ∧ less b a = false := by
  simp [tied]

theorem StrictWeakOn.mono {l l' : List β} (h : StrictWeakOn less l) (hsub : ∀ a ∈ l', a ∈ l) : StrictWeakOn less l' :=
  ⟨fun a ha b hb => h.asymm a (hsub a ha) b (hsub b hb),
    fun a ha b hb c hc => h.trans_not a (hsub a ha) b (hsub b hb) c (hsub c hc)⟩

theorem StrictWeakOn.mono_cons {l l' : List β} {z : β} (h : StrictWeakOn less (z :: l)) (hsub : l' ⊆ l) :
    StrictWeakOn less (z :: l') :=
  h.mono fun _ hc => List.cons_subset_cons z hsub hc

section Order

variable {l : List β} {a b c : β}

theorem StrictWeakOn.irrefl (h : StrictWeakOn less l) (ha : a ∈ l) : less a a = false := by
  by_contra hne
  have htrue : less a a = true := by simpa using hne
  rw [h.asymm a ha a ha htrue] at htrue
  exact absurd htrue (by decide)

theorem StrictWeakOn.tied_self (h : StrictWeakOn less l) (ha : a ∈ l) : tied less a a = true :=
  tied_iff.mpr ⟨h.irrefl ha, h.irrefl ha⟩

/-- Below a tied item, below the item. -/
theorem StrictWeakOn.less_of_less_of_not (h : StrictWeakOn less l) (ha : a ∈ l) (hb : b ∈ l) (hc : c ∈ l)
    (hab : less a b = true) (hcb : less c b = false) : less a c = true := by
  by_contra hac
  have hfalse := h.trans_not a ha c hc b hb (by simpa using hac) hcb
  rw [hab] at hfalse
  exact absurd hfalse (by decide)

end Order

/-! ### Uniqueness -/

/-- The first item of a sorted list is not greater than any item. -/
theorem Sorted.head_le {l : List β} {a b : β} (hw : StrictWeakOn less (a :: l)) (hs : Sorted less (a :: l))
    (hb : b ∈ a :: l) : less b a = false := by
  rcases List.mem_cons.mp hb with rfl | hb
  · exact hw.irrefl (List.mem_cons_self ..)
  · exact List.rel_of_pairwise_cons hs hb

/-- Sorted lists are equal if their tied items are in the same order. -/
theorem Sorted.eq_of_tied {l l' : List β} (hw : StrictWeakOn less l) (hperm : l'.Perm l) (hs : Sorted less l)
    (hs' : Sorted less l') (htied : ∀ z ∈ l, l'.filter (tied less z) = l.filter (tied less z)) : l' = l := by
  induction l generalizing l' with
  | nil => exact hperm.eq_nil
  | cons a l ih =>
    cases l' with
    | nil => exact absurd hperm.symm (List.not_perm_cons_nil (a := a) (l := l))
    | cons b l' =>
      have ha : a ∈ a :: l := List.mem_cons_self ..
      have hb : b ∈ a :: l := hperm.subset (List.mem_cons_self ..)
      have hw' : StrictWeakOn less (b :: l') := hw.mono fun c hc => hperm.subset hc
      -- both heads are least items
      have hab : tied less a b = true :=
        tied_iff.mpr ⟨hs'.head_le hw' (hperm.symm.subset ha), hs.head_le hw hb⟩
      have heads := htied a ha
      rw [List.filter_cons_of_pos hab, List.filter_cons_of_pos (hw.tied_self ha), List.cons.injEq] at heads
      obtain ⟨rfl, -⟩ := heads
      congr 1
      refine ih (hw.mono fun c hc => List.mem_cons_of_mem _ hc) hperm.cons_inv hs.of_cons hs'.of_cons fun z hz => ?_
      have hz' := htied z (List.mem_cons_of_mem _ hz)
      by_cases hzb : tied less z b = true
      · rw [List.filter_cons_of_pos hzb, List.filter_cons_of_pos hzb, List.cons.injEq] at hz'
        exact hz'.2
      · rwa [List.filter_cons_of_neg hzb, List.filter_cons_of_neg hzb] at hz'

/-! ### Insertion -/

/-- Insertion before the first item that is greater. -/
theorem sorted_orderedInsert {l : List β} {x : β} (hw : StrictWeakOn less (x :: l)) (hs : Sorted less l) :
    Sorted less (l.orderedInsert (fun a b => less a b = true) x) := by
  induction l with
  | nil => exact List.pairwise_singleton _ _
  | cons d l ih =>
    have hx : x ∈ x :: d :: l := List.mem_cons_self ..
    have hd : d ∈ x :: d :: l := List.mem_cons_of_mem _ (List.mem_cons_self ..)
    rw [List.orderedInsert]
    by_cases hlt : less x d = true
    · rw [if_pos hlt]
      refine List.pairwise_cons.mpr ⟨fun b hb => ?_, hs⟩
      rcases List.mem_cons.mp hb with rfl | hb'
      · exact hw.asymm x hx _ hd hlt
      · have hbd : less b d = false := List.rel_of_pairwise_cons hs hb'
        exact hw.trans_not b (List.mem_cons_of_mem _ hb) d hd x hx hbd (hw.asymm x hx d hd hlt)
    · rw [if_neg hlt]
      refine List.pairwise_cons.mpr ⟨fun b hb => ?_, ih (hw.mono_cons (List.subset_cons_self d l)) hs.of_cons⟩
      rcases (List.mem_orderedInsert _).mp hb with rfl | hb'
      · simpa using hlt
      · exact List.rel_of_pairwise_cons hs hb'

/-- No item of a sorted list is tied with one that is less than the first. -/
theorem filter_tied_of_less {l : List β} {x d z : β} (hw : StrictWeakOn less (z :: x :: d :: l))
    (hs : Sorted less (d :: l)) (hlt : less x d = true) (hzx : tied less z x = true) :
    (d :: l).filter (tied less z) = [] := by
  refine List.filter_eq_nil_iff.mpr fun b hb hzb => ?_
  have hz : z ∈ z :: x :: d :: l := List.mem_cons_self ..
  have hx : x ∈ z :: x :: d :: l := List.mem_cons_of_mem _ (List.mem_cons_self ..)
  have hd : d ∈ z :: x :: d :: l := List.mem_cons_of_mem _ (List.mem_cons_of_mem _ (List.mem_cons_self ..))
  have hb' : b ∈ z :: x :: d :: l := List.mem_cons_of_mem _ (List.mem_cons_of_mem _ hb)
  have hdl : StrictWeakOn less (d :: l) :=
    hw.mono fun c hc => List.mem_cons_of_mem _ (List.mem_cons_of_mem _ hc)
  have hbd : less b d = false := hs.head_le hdl hb
  have hxb := hw.less_of_less_of_not hx hd hb' hlt hbd
  have hxz : less x b = false := hw.trans_not x hx z hz b hb' (tied_iff.mp hzx).2 (tied_iff.mp hzb).1
  rw [hxb] at hxz
  exact absurd hxz (by decide)

/-- Insertion puts an item behind those that it is tied with. -/
theorem filter_orderedInsert {l : List β} {x z : β} (hw : StrictWeakOn less (z :: x :: l)) (hs : Sorted less l) :
    (l.orderedInsert (fun a b => less a b = true) x).filter (tied less z) =
      l.filter (tied less z) ++ [x].filter (tied less z) := by
  induction l with
  | nil => rfl
  | cons d l ih =>
    rw [List.orderedInsert]
    by_cases hlt : less x d = true
    · rw [if_pos hlt]
      by_cases hzx : tied less z x = true
      · rw [List.filter_cons_of_pos hzx, List.filter_cons_of_pos hzx, filter_tied_of_less hw hs hlt hzx]
        rfl
      · rw [List.filter_cons_of_neg hzx, List.filter_cons_of_neg hzx, List.filter_nil, List.append_nil]
    · have hw' : StrictWeakOn less (z :: x :: l) :=
        hw.mono_cons (List.cons_subset_cons x (List.subset_cons_self d l))
      rw [if_neg hlt]
      by_cases hzd : tied less z d = true
      · rw [List.filter_cons_of_pos hzd, List.filter_cons_of_pos hzd, ih hw' hs.of_cons, List.cons_append]
      · rw [List.filter_cons_of_neg hzd, List.filter_cons_of_neg hzd, ih hw' hs.of_cons]

/-! ### Merging -/

/-- The merge that takes the head of the second list unless that of the first is less. -/
def mergeRuns (less : β → β → Bool) (xs ys : List β) : List β := List.merge ys xs fun y x => !less x y

theorem mergeRuns_cons_cons (x y : β) (xs ys : List β) : mergeRuns less (x :: xs) (y :: ys) =
    if less x y then x :: mergeRuns less xs (y :: ys) else y :: mergeRuns less (x :: xs) ys := by
  unfold mergeRuns
  rw [List.cons_merge_cons]
  cases less x y <;> rfl

@[simp] theorem mergeRuns_nil_left (ys : List β) : mergeRuns less [] ys = ys := List.merge_right ys

@[simp] theorem mergeRuns_nil_right (xs : List β) : mergeRuns less xs [] = xs := List.nil_merge xs

theorem mergeRuns_perm (xs ys : List β) : (mergeRuns less xs ys).Perm (xs ++ ys) :=
  (List.merge_perm_append ..).trans List.perm_append_comm

/-- Induction along a merge. -/
theorem mergeRuns_induct (less : β → β → Bool) {P : List β → List β → Prop} (hleft : ∀ ys, P [] ys) (hright : ∀ x xs, P (x :: xs) [])
    (hless : ∀ x y xs ys, less x y = true → P xs (y :: ys) → P (x :: xs) (y :: ys))
    (hnot : ∀ x y xs ys, less x y = false → P (x :: xs) ys → P (x :: xs) (y :: ys)) (xs ys : List β) : P xs ys := by
  induction xs generalizing ys with
  | nil => exact hleft ys
  | cons x xs ihx =>
    induction ys with
    | nil => exact hright x xs
    | cons y ys ihy =>
      cases h : less x y with
      | true => exact hless x y xs ys h (ihx (y :: ys))
      | false => exact hnot x y xs ys h ihy

theorem sorted_mergeRuns {xs ys : List β} (hw : StrictWeakOn less (xs ++ ys)) (hx : Sorted less xs)
    (hy : Sorted less ys) : Sorted less (mergeRuns less xs ys) := by
  revert hw hx hy
  refine mergeRuns_induct less (P := fun xs ys => StrictWeakOn less (xs ++ ys) → Sorted less xs → Sorted less ys →
    Sorted less (mergeRuns less xs ys)) ?_ ?_ ?_ ?_ xs ys
  · intro ys _ _ hy
    rwa [mergeRuns_nil_left]
  · intro x xs _ hx _
    rwa [mergeRuns_nil_right]
  · intro x y xs ys hlt ih hw hx hy
    have hxm : x ∈ x :: xs ++ y :: ys := by simp
    have hym : y ∈ x :: xs ++ y :: ys := by simp
    rw [mergeRuns_cons_cons, if_pos hlt]
    refine List.pairwise_cons.mpr ⟨fun b hb => ?_, ih (hw.mono fun c hc => List.mem_cons_of_mem _ hc) hx.of_cons hy⟩
    rcases List.mem_append.mp ((mergeRuns_perm xs (y :: ys)).subset hb) with hb | hb
    · exact List.rel_of_pairwise_cons hx hb
    · have hbm : b ∈ x :: xs ++ y :: ys := List.mem_append_right _ hb
      have hby := hy.head_le (hw.mono fun c hc => List.mem_append_right _ hc) hb
      exact hw.trans_not b hbm y hym x hxm hby (hw.asymm x hxm y hym hlt)
  · intro x y xs ys hlt ih hw hx hy
    have hxm : x ∈ x :: xs ++ y :: ys := by simp
    have hym : y ∈ x :: xs ++ y :: ys := by simp
    have hsub := ((List.sublist_cons_self y ys).append_left (x :: xs)).subset
    rw [mergeRuns_cons_cons, hlt, if_neg (by decide)]
    refine List.pairwise_cons.mpr ⟨fun b hb => ?_, ih (hw.mono fun c hc => hsub hc) hx hy.of_cons⟩
    rcases List.mem_append.mp ((mergeRuns_perm (x :: xs) ys).subset hb) with hb | hb
    · have hbm : b ∈ x :: xs ++ y :: ys := List.mem_append_left _ hb
      have hbx := hx.head_le (hw.mono fun c hc => List.mem_append_left _ hc) hb
      exact hw.trans_not b hbm x hxm y hym hbx hlt
    · exact List.rel_of_pairwise_cons hy hb

/-- A merge puts the tied items of the second list before those of the first. -/
theorem filter_mergeRuns {z : β} {xs ys : List β} (hw : StrictWeakOn less (z :: (xs ++ ys))) (hy : Sorted less ys) :
    (mergeRuns less xs ys).filter (tied less z) = ys.filter (tied less z) ++ xs.filter (tied less z) := by
  revert hw hy
  refine mergeRuns_induct less (P := fun xs ys => StrictWeakOn less (z :: (xs ++ ys)) → Sorted less ys →
    (mergeRuns less xs ys).filter (tied less z) = ys.filter (tied less z) ++ xs.filter (tied less z)) ?_ ?_ ?_ ?_ xs ys
  · intro ys _ _
    rw [mergeRuns_nil_left, List.filter_nil, List.append_nil]
  · intro x xs _ _
    rw [mergeRuns_nil_right, List.filter_nil, List.nil_append]
  · intro x y xs ys hlt ih hw hy
    have hw' : StrictWeakOn less (z :: (xs ++ y :: ys)) :=
      hw.mono_cons (List.subset_cons_self x (xs ++ y :: ys))
    rw [mergeRuns_cons_cons, if_pos hlt]
    by_cases hzx : tied less z x = true
    · have hnone : (y :: ys).filter (tied less z) = [] := by
        have hsub : x :: y :: ys ⊆ x :: xs ++ y :: ys := List.cons_subset_cons x (List.subset_append_right xs (y :: ys))
        exact filter_tied_of_less (hw.mono_cons hsub) hy hlt hzx
      rw [List.filter_cons_of_pos hzx, List.filter_cons_of_pos hzx, ih hw' hy, hnone, List.nil_append, List.nil_append]
    · rw [List.filter_cons_of_neg hzx, List.filter_cons_of_neg hzx, ih hw' hy]
  · intro x y xs ys hlt ih hw hy
    have hw' : StrictWeakOn less (z :: (x :: xs ++ ys)) :=
      hw.mono_cons ((List.sublist_cons_self y ys).append_left (x :: xs)).subset
    rw [mergeRuns_cons_cons, hlt, if_neg (by decide)]
    by_cases hzy : tied less z y = true
    · rw [List.filter_cons_of_pos hzy, List.filter_cons_of_pos hzy, ih hw' hy.of_cons, List.cons_append]
    · rw [List.filter_cons_of_neg hzy, List.filter_cons_of_neg hzy, ih hw' hy.of_cons]

/-- The image of a merge, under a map that keeps the comparison. -/
theorem map_mergeRuns {γ : Type} {less' : γ → γ → Bool} {f : β → γ} (hf : ∀ a b, less' (f a) (f b) = less a b)
    (xs ys : List β) : (mergeRuns less xs ys).map f = mergeRuns less' (xs.map f) (ys.map f) := by
  refine mergeRuns_induct less
    (P := fun xs ys => (mergeRuns less xs ys).map f = mergeRuns less' (xs.map f) (ys.map f)) ?_ ?_ ?_ ?_ xs ys
  · intro ys
    simp
  · intro x xs
    simp
  · intro x y xs ys hlt ih
    rw [mergeRuns_cons_cons, if_pos hlt, List.map_cons, ih, List.map_cons, List.map_cons, mergeRuns_cons_cons,
      hf, if_pos hlt]
  · intro x y xs ys hlt ih
    rw [mergeRuns_cons_cons, hlt, if_neg (by decide), List.map_cons, ih, List.map_cons, List.map_cons,
      mergeRuns_cons_cons, hf, hlt, if_neg (by decide)]

/-! ### Merge sort -/

/-- The merge sort that splits in the middle. -/
def sortRuns (less : β → β → Bool) (l : List β) : List β :=
  if l.length ≤ 1 then l
  else mergeRuns less (sortRuns less (l.take (l.length / 2))) (sortRuns less (l.drop (l.length / 2)))
termination_by l.length
decreasing_by all_goals grind

theorem sortRuns_of_length_le {l : List β} (h : l.length ≤ 1) : sortRuns less l = l := by
  rw [sortRuns, if_pos h]

/-- The induction along the halves of a list. -/
theorem halves_induct {P : List β → Prop} (hshort : ∀ l, l.length ≤ 1 → P l)
    (hlong : ∀ xs ys, P xs → P ys → xs.length = (xs ++ ys).length / 2 → ¬ (xs ++ ys).length ≤ 1 → P (xs ++ ys))
    (l : List β) : P l := by
  induction hn : l.length using Nat.strong_induction_on generalizing l with
  | _ n ih =>
    by_cases h : l.length ≤ 1
    · exact hshort l h
    · have htake : (l.take (l.length / 2)).length = l.length / 2 := by
        rw [List.length_take]
        omega
      have hdrop : (l.drop (l.length / 2)).length = l.length - l.length / 2 := List.length_drop
      have hl := hlong _ _ (ih _ (by omega) (l.take (l.length / 2)) rfl) (ih _ (by omega) (l.drop (l.length / 2)) rfl)
      rw [List.take_append_drop] at hl
      exact hl htake h

theorem sortRuns_append {xs ys : List β} (hlen : xs.length = (xs ++ ys).length / 2) (h : ¬ (xs ++ ys).length ≤ 1) :
    sortRuns less (xs ++ ys) = mergeRuns less (sortRuns less xs) (sortRuns less ys) := by
  rw [sortRuns, if_neg h, ← hlen, List.take_left, List.drop_left]

theorem sortRuns_perm (l : List β) : (sortRuns less l).Perm l := by
  refine halves_induct (P := fun l => (sortRuns less l).Perm l) ?_ ?_ l
  · intro l h
    rw [sortRuns_of_length_le h]
  · intro xs ys hx hy hlen h
    rw [sortRuns_append hlen h]
    exact (mergeRuns_perm _ _).trans (hx.append hy)

theorem map_sortRuns {γ : Type} {less' : γ → γ → Bool} {f : β → γ} (hf : ∀ a b, less' (f a) (f b) = less a b)
    (l : List β) : (sortRuns less l).map f = sortRuns less' (l.map f) := by
  refine halves_induct (P := fun l => (sortRuns less l).map f = sortRuns less' (l.map f)) ?_ ?_ l
  · intro l h
    rw [sortRuns_of_length_le h, sortRuns_of_length_le (by rwa [List.length_map])]
  · intro xs ys hx hy hlen h
    rw [sortRuns_append hlen h, map_mergeRuns hf, hx, hy, List.map_append]
    refine (sortRuns_append ?_ ?_).symm
    · rwa [← List.map_append, List.length_map, List.length_map]
    · rwa [← List.map_append, List.length_map]

theorem sorted_sortRuns {l : List β} (hw : StrictWeakOn less l) : Sorted less (sortRuns less l) := by
  revert hw
  refine halves_induct (P := fun l => StrictWeakOn less l → Sorted less (sortRuns less l)) ?_ ?_ l
  · intro l h _
    rw [sortRuns_of_length_le h]
    match l, h with
    | [], _ => exact List.Pairwise.nil
    | [a], _ => exact List.pairwise_singleton _ _
  · intro xs ys hx hy hlen h hw
    have hperm : (sortRuns less xs ++ sortRuns less ys).Perm (xs ++ ys) :=
      (sortRuns_perm xs).append (sortRuns_perm ys)
    rw [sortRuns_append hlen h]
    exact sorted_mergeRuns (hw.mono fun c hc => hperm.subset hc) (hx (hw.mono fun c hc => List.mem_append_left _ hc))
      (hy (hw.mono fun c hc => List.mem_append_right _ hc))

/-- The merge sort reverses tied items. -/
theorem filter_sortRuns {z : β} {l : List β} (hw : StrictWeakOn less (z :: l)) :
    (sortRuns less l).filter (tied less z) = (l.filter (tied less z)).reverse := by
  revert hw
  refine halves_induct (P := fun l => StrictWeakOn less (z :: l) →
    (sortRuns less l).filter (tied less z) = (l.filter (tied less z)).reverse) ?_ ?_ l
  · intro l h _
    rw [sortRuns_of_length_le h]
    have hfilter : (l.filter (tied less z)).length ≤ 1 := (List.length_filter_le _ _).trans h
    match l.filter (tied less z), hfilter with
    | [], _ => rfl
    | [_], _ => rfl
  · intro xs ys hx hy hlen h hw
    have hperm : (sortRuns less xs ++ sortRuns less ys).Perm (xs ++ ys) :=
      (sortRuns_perm xs).append (sortRuns_perm ys)
    have hwx : StrictWeakOn less (z :: xs) := hw.mono_cons (List.subset_append_left xs ys)
    have hwy : StrictWeakOn less (z :: ys) := hw.mono_cons (List.subset_append_right xs ys)
    have hwm : StrictWeakOn less (z :: (sortRuns less xs ++ sortRuns less ys)) :=
      hw.mono_cons hperm.subset
    have hsy : Sorted less (sortRuns less ys) := sorted_sortRuns (hwy.mono fun c hc => List.mem_cons_of_mem _ hc)
    rw [sortRuns_append hlen h, filter_mergeRuns hwm hsy, hx hwx, hy hwy, List.filter_append, List.reverse_append]

/-! ### Insertion sort -/

/-- The insertion sort that starts with the first item. -/
def insertRuns (less : β → β → Bool) (sorted l : List β) : List β :=
  l.foldl (fun sorted x => sorted.orderedInsert (fun a b => less a b = true) x) sorted

theorem insertRuns_perm (sorted l : List β) : (insertRuns less sorted l).Perm (sorted ++ l) := by
  induction l generalizing sorted with
  | nil => rw [List.append_nil]; rfl
  | cons x l ih =>
    refine (ih _).trans ?_
    have h := (List.perm_orderedInsert (fun a b => less a b = true) x sorted).append_right l
    exact h.trans List.perm_middle.symm

theorem sorted_insertRuns {sorted l : List β} (hw : StrictWeakOn less (sorted ++ l)) (hs : Sorted less sorted) :
    Sorted less (insertRuns less sorted l) := by
  induction l generalizing sorted with
  | nil => exact hs
  | cons x l ih =>
    have hperm := List.perm_orderedInsert (fun a b => less a b = true) x sorted
    refine ih (hw.mono fun c hc => ?_) (sorted_orderedInsert (hw.mono fun c hc => ?_) hs)
    · exact List.perm_middle.symm.subset ((hperm.append_right l).subset hc)
    · exact List.perm_middle.symm.subset (List.mem_append_left l hc)

/-- The insertion sort keeps the order of tied items. -/
theorem filter_insertRuns {z : β} {sorted l : List β} (hw : StrictWeakOn less (z :: (sorted ++ l)))
    (hs : Sorted less sorted) : (insertRuns less sorted l).filter (tied less z) =
      sorted.filter (tied less z) ++ l.filter (tied less z) := by
  induction l generalizing sorted with
  | nil => rw [List.filter_nil, List.append_nil]; rfl
  | cons x l ih =>
    have hperm := List.perm_orderedInsert (fun a b => less a b = true) x sorted
    have hsub : x :: sorted ⊆ sorted ++ x :: l := fun c hc => List.perm_middle.symm.subset (List.mem_append_left l hc)
    have hinsert : Sorted less (sorted.orderedInsert (fun a b => less a b = true) x) :=
      sorted_orderedInsert (hw.mono fun c hc => List.mem_cons_of_mem _ (hsub hc)) hs
    have hrest : StrictWeakOn less (z :: (sorted.orderedInsert (fun a b => less a b = true) x ++ l)) :=
      hw.mono_cons fun c hc => List.perm_middle.symm.subset ((hperm.append_right l).subset hc)
    have htail : (x :: l).filter (tied less z) = [x].filter (tied less z) ++ l.filter (tied less z) := by
      rw [← List.filter_append, List.singleton_append]
    rw [htail, ← List.append_assoc, ← filter_orderedInsert (hw.mono_cons hsub) hs]
    exact ih hrest hinsert

/-- The two sorts agree on the lists whose tied items are a palindrome. -/
theorem insertRuns_eq_sortRuns_iff {l : List β} (hw : StrictWeakOn less l) :
    insertRuns less [] l = sortRuns less l ↔
      ∀ z ∈ l, (l.filter (tied less z)).reverse = l.filter (tied less z) := by
  have hz : ∀ z ∈ l, StrictWeakOn less (z :: l) := fun z hz => hw.mono fun c hc => by
    rcases List.mem_cons.mp hc with rfl | hc
    · exact hz
    · exact hc
  have hinsert : ∀ z ∈ l, (insertRuns less [] l).filter (tied less z) = l.filter (tied less z) := fun z h => by
    rw [filter_insertRuns (by rw [List.nil_append]; exact hz z h) List.Pairwise.nil, List.filter_nil, List.nil_append]
  constructor
  · intro heq z h
    rw [← filter_sortRuns (hz z h), ← heq, hinsert z h]
  · intro hpal
    have hperm : (sortRuns less l).Perm l := sortRuns_perm l
    refine Sorted.eq_of_tied (hw.mono fun c hc => hperm.subset hc) ?_ (sorted_sortRuns hw)
      (sorted_insertRuns (by rwa [List.nil_append]) List.Pairwise.nil) fun z h => ?_
    · have hp : (insertRuns less [] l).Perm ([] ++ l) := insertRuns_perm [] l
      rw [List.nil_append] at hp
      exact hp.trans hperm.symm
    · have hzl := hperm.subset h
      rw [hinsert z hzl, filter_sortRuns (hz z hzl), hpal z hzl]

/-- Where only equal items are tied, a sorted list is the only one. -/
theorem Sorted.eq_of_perm {l l' : List β} (hperm : l'.Perm l) (hs : Sorted less l) (hs' : Sorted less l')
    (hsame : ∀ a ∈ l, ∀ b ∈ l, tied less a b = true → a = b) : l' = l :=
  hperm.eq_of_pairwise (fun a b ha hb hab hba => hsame a (hperm.subset ha) b hb (tied_iff.mpr ⟨hba, hab⟩)) hs' hs

end Deemon.WeakOrder
