import Deemon.Seq.SortRuns

/-!
# When sorting is correct

A sort is correct if there is one list that every run with no failed call writes, whatever memory there is, and if
every run with a failed call reports it and drops its references. Both merge sorts write the same list
(`sortUncached_merge_attempts`, `sortCached_attempts`). The insertion sort does not reverse the items that are tied,
compares with unbound slots, and leaks; the merge sorts leak two neighbours that could not be compared.
-/

namespace Deemon.Seq

open Deemon.WeakOrder

variable {α : Type}

/-- The bound items of the source. -/
def Args.items (args : Args α) : List α := args.src.slots.filterMap id

/-! ### Slots -/

theorem strictWeakOn_slotLess {less : α → α → Bool} {slots : List (Slot α)}
    (hw : StrictWeakOn less (slots.filterMap id)) : StrictWeakOn (slotLess less) slots := by
  have hmem : ∀ {a : α}, some a ∈ slots → a ∈ slots.filterMap id := fun ha => List.mem_filterMap.mpr ⟨_, ha, rfl⟩
  constructor
  · intro a ha b hb
    match a, b with
    | none, none => exact fun _ => rfl
    | none, some _ => exact fun _ => rfl
    | some _, none => exact fun h => absurd h (by simp [slotLess])
    | some a, some b => exact hw.asymm a (hmem ha) b (hmem hb)
  · intro a ha b hb c hc
    match a, b, c with
    | none, none, none => exact fun _ _ => rfl
    | none, none, some _ => exact fun _ h => absurd h (by simp [slotLess])
    | none, some _, _ => exact fun h => absurd h (by simp [slotLess])
    | some _, none, none => exact fun _ _ => rfl
    | some _, none, some _ => exact fun _ h => absurd h (by simp [slotLess])
    | some _, some _, none => exact fun _ _ => rfl
    | some a, some b, some c => exact hw.trans_not a (hmem ha) b (hmem hb) c (hmem hc)

theorem sortRuns_map_some (less : α → α → Bool) (items : List α) :
    sortRuns (slotLess less) (items.map some) = (sortRuns less items).map some :=
  (map_sortRuns (fun _ _ => rfl) items).symm

/-- The slots after an item, where none of the others is bound. -/
theorem sortRuns_cons_unbound {less : α → α → Bool} {s : Slot α} {tail : List (Slot α)}
    (hw : StrictWeakOn (slotLess less) (s :: tail)) (htail : ∀ t ∈ tail, t = none) :
    sortRuns (slotLess less) (s :: tail) = List.replicate tail.length none ++ [s] := by
  have hrep : tail = List.replicate tail.length none := List.eq_replicate_of_mem htail
  have hperm : (sortRuns (slotLess less) (s :: tail)).Perm (List.replicate tail.length none ++ [s]) := by
    rw [← hrep]
    exact (sortRuns_perm _).trans (List.perm_append_singleton s tail).symm
  refine Sorted.eq_of_perm hperm ?_ (sorted_sortRuns hw) ?_
  · refine List.pairwise_append.mpr ⟨?_, List.pairwise_singleton _ _, ?_⟩
    · exact List.pairwise_replicate.mpr (Or.inr rfl)
    · intro a ha b _
      rw [List.eq_of_mem_replicate ha]
      cases b <;> rfl
  · -- items that are not equal are `none` and `s`
    intro a ha b hb htied
    have hcases : ∀ c ∈ List.replicate tail.length none ++ [s], c = none ∨ c = s := fun c hc => by
      rcases List.mem_append.mp hc with hc | hc
      · exact Or.inl (List.eq_of_mem_replicate hc)
      · exact Or.inr (List.mem_singleton.mp hc)
    have hno : ∀ x : α, tied (slotLess less) none (some x) = true → False := fun x h => by
      rw [tied_iff] at h
      exact absurd h.1 (by simp [slotLess])
    have hno' : ∀ x : α, tied (slotLess less) (some x) none = true → False := fun x h => by
      rw [tied_iff] at h
      exact absurd h.2 (by simp [slotLess])
    rcases hcases a ha with rfl | rfl <;> rcases hcases b hb with rfl | rfl
    · rfl
    · cases b with
      | none => rfl
      | some x => exact (hno x htied).elim
    · cases a with
      | none => rfl
      | some x => exact (hno' x htied).elim
    · rfl

theorem orderedInsert_eq_insertIdx (less : α → α → Bool) (x : α) (l : List α) :
    l.orderedInsert (fun a b => less a b = true) x = l.insertIdx (l.findIdx (less x)) x := by
  induction l with
  | nil => rfl
  | cons d l ih =>
    rw [List.orderedInsert, List.findIdx_cons]
    by_cases h : less x d = true
    · rw [if_pos h, h]
      rfl
    · rw [if_neg h, ih, Bool.eq_false_iff.mpr h]
      rfl

/-- A source with the first bound slot after the first one. -/
theorem exists_bound {tail : List (Slot α)} (h : ¬ ∀ t ∈ tail, t = none) :
    ∃ k x rest, tail = List.replicate k none ++ some x :: rest := by
  induction tail with
  | nil => exact absurd (fun t ht => absurd ht List.not_mem_nil) h
  | cons t tail ih =>
    cases t with
    | some x => exact ⟨0, x, tail, rfl⟩
    | none =>
      obtain ⟨k, x, rest, rfl⟩ := ih fun hall => h fun t ht => (List.mem_cons.mp ht).elim id (hall t)
      exact ⟨k + 1, x, rest, rfl⟩

variable {args : Args α}

theorem refOf_of_vector (hget : ¬ args.src.hasGetitem = true) (s : Slot α) : args.refOf s = 0 := if_neg hget

/-! ### Correct sorts -/

variable [DecidableEq α]

/-- All runs, with whatever memory and up to any failed call, sort into one list or fail without references. -/
def SortsCorrectly (args : Args α) : Prop :=
  ∃ out : List (Slot α), out.Perm args.src.slots ∧ Sorted (slotLess args.less) out ∧
    ∀ (mem : Memory α) (budget : Option ℕ), Yields (deeSeqSort args mem) ⟨budget, false, 0⟩ fun r w' =>
      (budget = none → r ≠ none) ∧ (∀ dst, r = some dst → dst = out) ∧ (r = none ↔ w'.failed = true) ∧
        (r = none → w'.live = 0)

/-- The sources that are sorted correctly. -/
def Sortable (args : Args α) : Prop :=
  match args.src with
  | .vector items => items.length ≤ 2 ∨
      args.key = none ∧ ∀ x ∈ items, (items.filter (tied args.lt x)).reverse = items.filter (tied args.lt x)
  | .getItemIndexFast slots => slots.length ≤ 1 ∨ 3 ≤ slots.length ∧ ∀ s ∈ slots.tail, s = none
  | .tryGetItemIndex slots => slots.length ≤ 1 ∨
      3 ≤ slots.length ∧ (∀ s ∈ slots.tail, s = none) ∧ (args.key = none ∨ slots.head? = some none)

/-! ### Insertion sort -/

theorem decrefvIfRef_of_vector (hget : ¬ args.src.hasGetitem = true) (obs : List (Slot α)) :
    args.decrefvIfRef obs = pure () := if_neg hget

theorem insertPlace_attempts (hkey : args.key = none) (x : α) (dst : List α) (j : ℕ) (w : World α) :
    Attempts True (args.insertPlace (some x) (dst.map some) j) w w.live (· = j + dst.findIdx (args.lt x))
      fun _ => 0 := by
  induction dst generalizing j w with
  | nil => exact Attempts.pure_some rfl (zero_add _).symm
  | cons d dst ih =>
    rw [List.map_cons, Args.insertPlace, hkey]
    refine Attempts.bind (deeObjectCmpLoAsBool_attempts args.lt x d w) (fun w' hw' hlive => ?_) ?_
    · exact Attempts.pure_none hw' hlive
    rintro lo w' hlo hlive
    rw [zero_add] at hlive
    rw [List.findIdx_cons, ← hlo, ← hlive]
    cases lo with
    | true => exact Attempts.pure_some rfl (zero_add _).symm
    | false => exact Attempts.mono (ih (j + 1) w') id fun k hk => by rw [hk, cond_false, Nat.add_assoc, Nat.add_comm 1]

theorem insertIndex_attempts (hget : ¬ args.src.hasGetitem = true) (hkey : args.key = none) (x : α) (dst : List α)
    (w : World α) :
    Attempts True (args.insertIndex (some x) (dst.map some)) w w.live (· = dst.findIdx (args.lt x)) fun _ => 0 := by
  have h := insertPlace_attempts hkey x dst 0 w
  rw [Nat.zero_add] at h
  unfold Args.insertIndex
  rw [if_neg fun h => hget h.1, hkey]
  exact h

theorem insertLoop_vector {items : List α} (hsrc : args.src = .vector items) (hkey : args.key = none) {n i : ℕ}
    (hn : i + n = items.length) (dst : List α) (w : World α) :
    Attempts True (args.insertLoop n i (dst.map some)) w w.live
      (· = (insertRuns args.lt dst (items.drop i)).map some) fun _ => 0 := by
  have hget : ¬ args.src.hasGetitem = true := by
    rw [hsrc]
    exact Bool.false_ne_true
  induction n generalizing i dst w with
  | zero =>
    rw [List.drop_of_length_le (by omega)]
    exact Attempts.pure_some rfl (zero_add _).symm
  | succ n ih =>
    obtain ⟨x, hx⟩ : ∃ x, items[i]? = some x := ⟨_, List.getElem?_eq_getElem (by omega)⟩
    have hslot : args.src.slots[i]? = some (some x) := by
      rw [hsrc, Source.slots, List.getElem?_map, hx]
      rfl
    have hdrop : items.drop i = x :: items.drop (i + 1) := by
      rw [List.drop_eq_getElem_cons (by omega), ← Option.some.inj (hx.symm.trans (List.getElem?_eq_getElem (by omega)))]
    rw [Args.insertLoop, decrefvIfRef_of_vector hget, hdrop]
    refine Attempts.bind (getitem_attempts hslot w) (fun w' hw' hlive => Attempts.pure_none hw' hlive) ?_
    rintro _ w₁ rfl hlive₁
    rw [refOf_of_vector hget, zero_add] at hlive₁
    refine Attempts.bind (insertIndex_attempts hget hkey x dst w₁) (fun w₂ hw₂ hlive₂ => ?_) ?_
    · exact Attempts.pure_none hw₂ (hlive₂.trans hlive₁)
    rintro _ w₂ rfl hlive₂
    rw [zero_add, hlive₁] at hlive₂
    dsimp only
    rw [← List.map_insertIdx, ← orderedInsert_eq_insertIdx, ← hlive₂]
    exact ih (by omega) _ w₂

theorem insertIndex_unbound (hget : args.src.hasGetitem = true) (dst : List (Slot α)) :
    args.insertIndex none dst = pure (some 0) := if_pos ⟨hget, rfl⟩

/-- The loop over unbound slots, which go to the front. A source that may fail needs that all references are those of
the slots written. -/
theorem insertLoop_unbound_attempts (hget : args.src.hasGetitem = true) {n i : ℕ}
    (hslots : ∀ k, i ≤ k → k < i + n → args.src.slots[k]? = some none) {dst : List (Slot α)} {w : World α}
    {held base : Multiset α} (hlive : w.live = held + base)
    (hheld : (∃ slots, args.src = .getItemIndexFast slots) ∨ held = (dst.map args.refOf).sum) :
    Attempts True (args.insertLoop n i dst) w base (· = List.replicate n none ++ dst) fun _ => held := by
  induction n generalizing i dst w with
  | zero => exact Attempts.pure_some rfl hlive
  | succ n ih =>
    have hslot := hslots i le_rfl (by omega)
    have hout : List.replicate n none ++ dst.insertIdx 0 none = List.replicate (n + 1) none ++ dst := by
      rw [List.insertIdx_zero, List.replicate_succ', List.append_assoc]
      rfl
    have hnext : ∀ w' : World α, w'.live = held + base →
        Attempts True (args.insertLoop n (i + 1) (dst.insertIdx 0 none)) w' base
          (· = List.replicate (n + 1) none ++ dst) fun _ => held := fun w' hlive' => by
      rw [← hout]
      refine ih (fun k hlo hhi => hslots k (by omega) (by omega)) hlive' (hheld.imp id fun h => ?_)
      rw [h, List.insertIdx_zero, List.map_cons, List.sum_cons, Args.refOf, if_pos hget, slotRef, zero_add]
    rw [Args.insertLoop]
    rcases hheld with ⟨slots, hsrc⟩ | hheld
    · have hgetitem : args.getitem i = pure (some none) := by
        rw [hsrc, Source.slots] at hslot
        unfold Args.getitem
        rw [hsrc]
        dsimp only
        rw [hslot]
        rfl
      rw [hgetitem, pure_bind]
      dsimp only
      rw [insertIndex_unbound hget, pure_bind]
      exact hnext w hlive
    · refine Attempts.bind (getitem_attempts hslot w) (fun w' hw' hlive' => ?_) ?_
      · refine (releases_decrefvIfRef args dst).then_none hw' ?_
        rw [hlive', hlive, hheld]
      rintro _ w' rfl hlive'
      rw [Args.refOf, if_pos hget, slotRef, zero_add] at hlive'
      dsimp only
      rw [insertIndex_unbound hget, pure_bind]
      exact hnext w' (hlive'.trans hlive)

/-- The references that the insertion of a first item leaves: the one to its key is not dropped. -/
def Args.firstRef (args : Args α) (s : Slot α) : Multiset α :=
  match args.key, s with
  | some key, some ob => {key ob} + args.refOf s
  | _, _ => args.refOf s

theorem insertIndex_nil_attempts (hget : args.src.hasGetitem = true) (s : Slot α) {w : World α} {base : Multiset α}
    (hlive : w.live = args.refOf s + base) :
    Attempts True (args.insertIndex s []) w base (· = 0) fun _ => args.firstRef s := by
  obtain ⟨src, key, lt⟩ := args
  cases s with
  | none =>
    rw [insertIndex_unbound hget]
    refine Attempts.pure_some rfl ?_
    cases key <;> exact hlive
  | some ob =>
    unfold Args.insertIndex
    rw [if_neg fun h => absurd h.2 (by simp)]
    cases key with
    | none => exact Attempts.pure_some rfl hlive
    | some key =>
      refine Attempts.bind (deeObjectCall_attempts key ob w) (fun w' hw' hlive' => ?_) ?_
      · have hdrop := releases_decrefvIfRef (⟨src, some key, lt⟩ : Args α) [some ob]
        rw [List.map_singleton, List.sum_singleton] at hdrop
        exact hdrop.then_none hw' (hlive'.trans hlive)
      · rintro _ w' rfl hlive'
        refine Attempts.pure_some rfl ?_
        rw [hlive', hlive, ← add_assoc]
        rfl

/-- The insertion sort of a source with no bound slot after the first. -/
theorem insertsortImpl_attempts (hget : args.src.hasGetitem = true) {s : Slot α} {tail : List (Slot α)}
    (hslots : args.src.slots = s :: tail) (htail : ∀ t ∈ tail, t = none)
    (hfirst : (∃ slots, args.src = .getItemIndexFast slots) ∨ args.key = none ∨ s = none) {w : World α} :
    Attempts True (insertsortImpl args (tail.length + 1)) w w.live
      (· = List.replicate tail.length none ++ [s]) fun _ => args.firstRef s := by
  have hslot : args.src.slots[0]? = some s := by
    rw [hslots]
    rfl
  have hrest : ∀ k, 1 ≤ k → k < 1 + tail.length → args.src.slots[k]? = some none := by
    intro k hlo hhi
    obtain ⟨k, rfl⟩ : ∃ j, k = j + 1 := ⟨k - 1, by omega⟩
    rw [hslots, List.getElem?_cons_succ, List.getElem?_eq_getElem (by omega)]
    exact congrArg some (htail _ (List.getElem_mem _))
  unfold insertsortImpl
  rw [Args.insertLoop]
  refine Attempts.bind (getitem_attempts hslot w) (fun w' hw' hlive' => ?_) ?_
  · exact (releases_decrefvIfRef args []).then_none hw' (hlive'.trans (zero_add _).symm)
  rintro s w₁ rfl hlive₁
  refine Attempts.bind (insertIndex_nil_attempts hget s hlive₁) (fun w' hw' hlive' => ?_) ?_
  · exact (releases_decrefvIfRef args []).then_none hw' (hlive'.trans (zero_add _).symm)
  rintro _ w₂ rfl hlive₂
  refine insertLoop_unbound_attempts hget hrest hlive₂ (hfirst.imp id fun h => ?_)
  have hfirstRef : args.firstRef s = args.refOf s := by
    unfold Args.firstRef
    rcases h with h | rfl
    · rw [h]
    · cases args.key <;> rfl
  rw [hfirstRef]
  exact (add_zero _).symm

/-! ### The sources that are sorted correctly -/

theorem deeSeqSort_of_three_le (h : 3 ≤ args.src.slots.length) (mem : Memory α) : deeSeqSort args mem =
    match args.key with
    | some key =>
      if mem.alloc3 then sortCached args key mem args.src.slots.length
      else sortUncached args mem args.src.slots.length
    | none => sortUncached args mem args.src.slots.length := by
  unfold deeSeqSort
  obtain ⟨n, hn⟩ : ∃ n, args.src.slots.length = n + 3 := ⟨args.src.slots.length - 3, by omega⟩
  rw [hn]
  rfl

theorem deeSeqSort_uncached (h : 3 ≤ args.src.slots.length) {mem : Memory α} (hmem : mem.alloc3 = false) :
    deeSeqSort args mem = sortUncached args mem args.src.slots.length := by
  rw [deeSeqSort_of_three_le h]
  cases args.key with
  | none => rfl
  | some key =>
    dsimp only
    rw [hmem, if_neg Bool.false_ne_true]

theorem sortUncached_insert {mem : Memory α} (hmem : mem.alloc1 = false) (objc : ℕ) :
    sortUncached args mem objc = insertsortImpl args objc := by
  unfold sortUncached
  rw [hmem, if_neg Bool.false_ne_true]

/-- A list that every run writes which does not fail. -/
theorem sortsCorrectly_of_attempts (out : List (Slot α)) (hperm : out.Perm args.src.slots)
    (hsorted : Sorted (slotLess args.less) out)
    (h : ∀ (mem : Memory α) (budget : Option ℕ), ∃ refs,
      Attempts True (deeSeqSort args mem) ⟨budget, false, 0⟩ 0 (· = out) refs) : SortsCorrectly args := by
  refine ⟨out, hperm, hsorted, fun mem budget => ?_⟩
  obtain ⟨refs, hrun⟩ := h mem budget
  refine Yields.mono hrun fun r w' hout => ⟨fun hb hr => hout.failed hr hb, fun dst hdst => (hout.success dst hdst).1,
    ?_, fun hr => ?_⟩
  · rw [hout.reported]
    cases r <;> simp
  · obtain ⟨leaked, hlive, hz⟩ := hout.released hr
    rw [hlive, hz trivial, zero_add]

theorem sortsCorrectly_of_length_le_one (h : args.src.slots.length ≤ 1) : SortsCorrectly args := by
  refine sortsCorrectly_of_attempts _ (List.Perm.refl _) ?_ fun mem budget => ?_
  · match args.src.slots, h with
    | [], _ => exact List.Pairwise.nil
    | [s], _ => exact List.pairwise_singleton _ _
  unfold deeSeqSort
  match hslots : args.src.slots, h with
  | [], _ => exact ⟨fun _ => 0, Attempts.pure_some rfl rfl⟩
  | [s], _ =>
    have hslot : args.src.slots[0]? = some s := by
      rw [hslots]
      rfl
    refine ⟨fun _ => args.refOf s, Attempts.bind (getitem_attempts hslot _) (fun w' hw' hlive => ?_) ?_⟩
    · exact Attempts.pure_none hw' hlive
    · rintro s w' rfl hlive
      exact Attempts.pure_some rfl hlive

theorem sortsCorrectly_of_two {a b : α} (hsrc : args.src = .vector [a, b]) (hw : StrictWeakOn args.less [a, b]) :
    SortsCorrectly args := by
  have hget : ¬ args.src.hasGetitem = true := by
    rw [hsrc]
    exact Bool.false_ne_true
  have hslots : args.src.slots = [some a, some b] := by rw [hsrc]; rfl
  have hslot0 : args.src.slots[0]? = some (some a) := by rw [hslots]; rfl
  have hslot1 : args.src.slots[1]? = some (some b) := by rw [hslots]; rfl
  refine sortsCorrectly_of_attempts ((sortRuns args.less [a, b]).map some) ?_ ?_ fun mem budget =>
    ⟨fun _ => 0, ?_⟩
  · rw [hslots]
    exact (sortRuns_perm [a, b]).map some
  · exact List.pairwise_map.mpr (sorted_sortRuns hw)
  have hsort : sortRuns args.less [a, b] = if args.less a b then [a, b] else [b, a] := by
    show sortRuns args.less ([a] ++ [b]) = _
    rw [sortRuns_append (by simp) (by simp), sortRuns_of_length_le le_rfl, sortRuns_of_length_le le_rfl,
      mergeRuns_cons_cons, mergeRuns_nil_left, mergeRuns_nil_right]
  unfold deeSeqSort
  rw [hslots]
  show Attempts True (sortTwo args) _ _ _ _
  unfold sortTwo
  refine Attempts.bind (getitem_attempts hslot0 _) (fun w' hw' hlive => Attempts.pure_none hw' hlive) ?_
  rintro _ w₁ rfl hlive₁
  rw [refOf_of_vector hget, zero_add] at hlive₁
  refine Attempts.bind (getitem_attempts hslot1 w₁) (fun w' hw' hlive => ?_) ?_
  · dsimp only
    rw [decrefvIfRef_of_vector hget]
    exact Attempts.pure_none hw' (hlive.trans hlive₁)
  rintro _ w₂ rfl hlive₂
  rw [refOf_of_vector hget, zero_add] at hlive₂
  refine Attempts.bind (cmpLoAsBool_attempts a b w₂)
    (fun w' hw' hlive => Attempts.pure_none hw' (hlive.trans (hlive₂.trans hlive₁))) ?_
  intro lo w₃ hlo hlive₃
  rw [hlive₂, hlive₁] at hlive₃
  rw [hsort, ← hlo]
  cases lo with
  | true => exact Attempts.pure_some rfl hlive₃
  | false => exact Attempts.pure_some rfl hlive₃

theorem vector_insert_attempts {items : List α} (hsrc : args.src = .vector items) (hkey : args.key = none)
    (w : World α) : Attempts True (insertsortImpl args args.src.slots.length) w w.live
      (· = (insertRuns args.lt [] items).map some) fun _ => 0 := by
  have hlen : args.src.slots.length = items.length := by
    rw [hsrc]
    exact List.length_map ..
  rw [hlen]
  exact insertLoop_vector hsrc hkey (Nat.zero_add _) [] w

theorem sortsCorrectly_of_palindromes {items : List α} (hsrc : args.src = .vector items) (hlen : 3 ≤ items.length)
    (hkey : args.key = none) (hw : StrictWeakOn args.lt items)
    (hpal : ∀ x ∈ items, (items.filter (tied args.lt x)).reverse = items.filter (tied args.lt x)) :
    SortsCorrectly args := by
  have hslots : args.src.slots = items.map some := by rw [hsrc]; rfl
  have hlength : args.src.slots.length = items.length := by rw [hslots, List.length_map]
  have hless : args.less = args.lt := by
    unfold Args.less
    rw [hkey]
  have hget : ¬ args.src.hasGetitem = true := by
    rw [hsrc]
    exact Bool.false_ne_true
  refine sortsCorrectly_of_attempts ((sortRuns args.lt items).map some) ?_ ?_ fun mem budget => ?_
  · rw [hslots]
    exact (sortRuns_perm items).map some
  · rw [hless]
    exact List.pairwise_map.mpr (sorted_sortRuns hw)
  rw [deeSeqSort_of_three_le (by omega), hkey]
  by_cases hmem : mem.alloc1 = true
  · have h := sortUncached_merge_attempts args mem hmem (by omega) ⟨budget, false, 0⟩
    rw [hslots, hless, sortRuns_map_some, ← hslots] at h
    exact ⟨_, h.mono (fun _ => Or.inl hget) fun _ h => h⟩
  · dsimp only
    rw [sortUncached_insert (by simpa using hmem), ← (insertRuns_eq_sortRuns_iff hw).mpr hpal]
    exact ⟨_, vector_insert_attempts hsrc hkey _⟩

theorem sortsCorrectly_of_unbound (hget : args.src.hasGetitem = true) (hlen : 3 ≤ args.src.slots.length)
    (hw : StrictWeakOn (slotLess args.less) args.src.slots) (htail : ∀ t ∈ args.src.slots.tail, t = none)
    (hfirst : (∃ slots, args.src = .getItemIndexFast slots) ∨ args.key = none ∨ args.src.slots.head? = some none) :
    SortsCorrectly args := by
  obtain ⟨s, tail, hslots⟩ : ∃ s tail, args.src.slots = s :: tail := by
    match h : args.src.slots with
    | [] =>
      rw [h] at hlen
      exact absurd hlen (by simp)
    | s :: tail => exact ⟨s, tail, rfl⟩
  have htail' : ∀ t ∈ tail, t = none := by
    rw [hslots] at htail
    exact htail
  have hsort : sortRuns (slotLess args.less) args.src.slots = List.replicate tail.length none ++ [s] := by
    rw [hslots] at hw ⊢
    exact sortRuns_cons_unbound hw htail'
  have hpair : args.NoPair := fun i => by
    refine Or.inr ?_
    unfold Args.slotAt
    rw [hslots, List.getElem?_cons_succ]
    cases h : tail[i]? with
    | none => rfl
    | some t => exact htail' t (List.mem_of_getElem? h)
  refine sortsCorrectly_of_attempts _ (sortRuns_perm _) (sorted_sortRuns hw) fun mem budget => ?_
  have huncached : ∃ refs, Attempts True (sortUncached args mem args.src.slots.length) ⟨budget, false, 0⟩ 0
      (· = sortRuns (slotLess args.less) args.src.slots) refs := by
    by_cases hmem : mem.alloc1 = true
    · exact ⟨_, (sortUncached_merge_attempts args mem hmem (by omega) _).mono (fun _ => Or.inr hpair) fun _ h => h⟩
    · rw [sortUncached_insert (by simpa using hmem), hsort, hslots]
      refine ⟨_, insertsortImpl_attempts hget hslots htail' (hfirst.imp id fun h => h.imp id fun h => ?_)⟩
      rw [hslots] at h
      exact Option.some.inj h
  rw [deeSeqSort_of_three_le hlen]
  cases hkey : args.key with
  | none => exact huncached
  | some key =>
    dsimp only
    by_cases hmem : mem.alloc3 = true
    · rw [if_pos hmem]
      exact ⟨_, (sortCached_attempts args key hkey mem (by omega) _).mono (fun _ => ⟨hget, hpair⟩) fun _ h => h⟩
    · rw [if_neg hmem]
      exact huncached

/-! ### The runs that fail -/

/-- No memory for scratch buffers. -/
def noMemory : Memory α := ⟨false, false, fun _ _ => none⟩

theorem not_sortsCorrectly_of_crash (mem : Memory α) (budget : Option ℕ)
    (h : deeSeqSort args mem ⟨budget, false, 0⟩ = none) : ¬ SortsCorrectly args := by
  rintro ⟨out, -, -, hrun⟩
  obtain ⟨r, w', heq, -⟩ := hrun mem budget
  rw [h] at heq
  exact absurd heq (by simp)

theorem not_sortsCorrectly_of_leak (mem : Memory α) (budget : Option ℕ) (w' : World α)
    (h : deeSeqSort args mem ⟨budget, false, 0⟩ = some (none, w')) (hlive : w'.live ≠ 0) : ¬ SortsCorrectly args := by
  rintro ⟨out, -, -, hrun⟩
  exact hlive (((hrun mem budget).of_eq h).2.2.2 rfl)

theorem insertLoop_next {n i j : ℕ} {dst : List (Slot α)} {ob : Slot α} {w w₁ w₂ : World α}
    (hget : args.getitem i w = some (some ob, w₁)) (hidx : args.insertIndex ob dst w₁ = some (some j, w₂)) :
    args.insertLoop (n + 1) i dst w = args.insertLoop n (i + 1) (dst.insertIdx j ob) w₂ := by
  rw [Args.insertLoop]
  show (args.getitem i w >>= fun r => _) = _
  rw [hget]
  show (args.insertIndex ob dst w₁ >>= fun r => _) = _
  rw [hidx]
  rfl

theorem insertLoop_crash {n i : ℕ} {dst : List (Slot α)} {ob : Slot α} {w w₁ : World α}
    (hget : args.getitem i w = some (some ob, w₁)) (hidx : args.insertIndex ob dst w₁ = none) :
    args.insertLoop (n + 1) i dst w = none := by
  rw [Args.insertLoop]
  show (args.getitem i w >>= fun r => _) = _
  rw [hget]
  show (args.insertIndex ob dst w₁ >>= fun r => _) = _
  rw [hidx]
  rfl

/-- An error in the search for a place: what is not in `dst` stays. -/
theorem insertLoop_fail {n i : ℕ} {dst : List (Slot α)} {ob : Slot α} {w w₁ w₂ : World α} {leaked : Multiset α}
    (hget : args.getitem i w = some (some ob, w₁)) (hidx : args.insertIndex ob dst w₁ = some (none, w₂))
    (hlive : w₂.live = (dst.map args.refOf).sum + leaked) :
    args.insertLoop (n + 1) i dst w = some (none, ⟨w₂.budget, w₂.failed, leaked⟩) := by
  rw [Args.insertLoop]
  show (args.getitem i w >>= fun r => _) = _
  rw [hget]
  show (args.insertIndex ob dst w₁ >>= fun r => _) = _
  rw [hidx]
  show (args.decrefvIfRef dst w₂ >>= fun r => some (none, r.2)) = _
  rw [releases_decrefvIfRef args dst w₂ leaked hlive]
  rfl

/-- An error of the item getter. -/
theorem insertLoop_getitem_fail {n i : ℕ} {dst : List (Slot α)} {w w₁ : World α} {leaked : Multiset α}
    (hget : args.getitem i w = some (none, w₁)) (hlive : w₁.live = (dst.map args.refOf).sum + leaked) :
    args.insertLoop (n + 1) i dst w = some (none, ⟨w₁.budget, w₁.failed, leaked⟩) := by
  rw [Args.insertLoop]
  show (args.getitem i w >>= fun r => _) = _
  rw [hget]
  show (args.decrefvIfRef dst w₁ >>= fun r => some (none, r.2)) = _
  rw [releases_decrefvIfRef args dst w₁ leaked hlive]
  rfl

theorem deeSeqSort_noMemory (h : 3 ≤ args.src.slots.length) :
    deeSeqSort args noMemory = args.insertLoop args.src.slots.length 0 [] := by
  rw [deeSeqSort_uncached h rfl, sortUncached_insert rfl]
  rfl

/-- A key function that fails for the second item of a vector: the key of the first is leaked. -/
theorem not_sortsCorrectly_vector_key {a b c : α} {items : List α} {key : α → α} {lt : α → α → Bool} :
    ¬ SortsCorrectly (⟨.vector (a :: b :: c :: items), some key, lt⟩ : Args α) :=
  not_sortsCorrectly_of_leak noMemory (some 1) ⟨some 0, true, {key a}⟩ rfl (Multiset.singleton_ne_zero _)

/-- Tied items that the two sorts put into different orders. -/
theorem not_sortsCorrectly_vector {items : List α} (hsrc : args.src = .vector items) (hlen : 3 ≤ items.length)
    (hkey : args.key = none) (hw : StrictWeakOn args.lt items)
    (hpal : ¬ ∀ x ∈ items, (items.filter (tied args.lt x)).reverse = items.filter (tied args.lt x)) :
    ¬ SortsCorrectly args := by
  rintro ⟨out, -, -, hrun⟩
  have hslots : args.src.slots = items.map some := by rw [hsrc]; rfl
  have hlength : args.src.slots.length = items.length := by rw [hslots, List.length_map]
  have hless : args.less = args.lt := by
    unfold Args.less
    rw [hkey]
  have hout : ∀ (mem : Memory α) (l : List (Slot α)) (safe : Prop) (refs : List (Slot α) → Multiset α),
      Attempts safe (deeSeqSort args mem) ⟨none, false, 0⟩ 0 (· = l) refs → l = out := by
    intro mem l safe refs h
    obtain ⟨dst, w', heq, hdst, -⟩ := h.eq_some rfl
    rw [← hdst]
    exact ((hrun mem none).of_eq heq).2.1 dst rfl
  have hmerge := sortUncached_merge_attempts args ⟨false, true, fun _ _ => none⟩ rfl (by omega) ⟨none, false, 0⟩
  rw [← deeSeqSort_uncached (by omega) rfl, hslots, hless, sortRuns_map_some] at hmerge
  have hinsert := vector_insert_attempts hsrc hkey ⟨none, false, 0⟩
  rw [← sortUncached_insert (show (noMemory : Memory α).alloc1 = false from rfl), ← deeSeqSort_uncached (by omega) rfl] at hinsert
  have heq := (hout _ _ _ _ hinsert).trans (hout _ _ _ _ hmerge).symm
  rw [(List.map_injective_iff.mpr (Option.some_injective α)).eq_iff, insertRuns_eq_sortRuns_iff hw] at heq
  exact hpal heq

/-- Two slots of a getter: an unbound one is compared, and a failed comparison leaks both items. -/
theorem not_sortsCorrectly_two (hget : args.src.hasGetitem = true) {s t : Slot α}
    (hslots : args.src.slots = [s, t]) : ¬ SortsCorrectly args := by
  obtain ⟨src, key, lt⟩ := args
  cases src with
  | vector items => exact absurd hget Bool.false_ne_true
  | getItemIndexFast slots =>
    obtain rfl : slots = [s, t] := hslots
    match s, t with
    | none, none | none, some _ | some _, none => cases key <;> exact not_sortsCorrectly_of_crash noMemory none rfl
    | some a, some b =>
      have hlive : (b ::ₘ a ::ₘ 0 : Multiset α) ≠ 0 := Multiset.cons_ne_zero
      cases key <;> exact not_sortsCorrectly_of_leak noMemory (some 0) ⟨some 0, true, b ::ₘ a ::ₘ 0⟩ rfl hlive
  | tryGetItemIndex slots =>
    obtain rfl : slots = [s, t] := hslots
    match s, t with
    | none, none | none, some _ | some _, none => cases key <;> exact not_sortsCorrectly_of_crash noMemory none rfl
    | some a, some b =>
      have hlive : (b ::ₘ a ::ₘ 0 : Multiset α) ≠ 0 := Multiset.cons_ne_zero
      cases key <;> exact not_sortsCorrectly_of_leak noMemory (some 2) ⟨some 0, true, b ::ₘ a ::ₘ 0⟩ rfl hlive

/-- A bound slot is compared with the unbound one at the front. -/
theorem insertIndex_crash {x : α} {dst : List (Slot α)} {w : World α} (hw : w.budget = none) :
    args.insertIndex (some x) (none :: dst) w = none := by
  obtain ⟨src, key, lt⟩ := args
  obtain ⟨budget, failed, live⟩ := w
  obtain rfl : budget = none := hw
  unfold Args.insertIndex
  rw [if_neg fun h => absurd h.2 (by simp)]
  cases key <;> rfl

/-- The loop passes unbound slots when no call fails. -/
theorem insertLoop_skip (hget : args.src.hasGetitem = true) {n k i : ℕ} (hslots : ∀ j, i ≤ j → j < i + k →
    args.src.slots[j]? = some none) (dst : List (Slot α)) {w : World α} (hw : w.budget = none) :
    ∃ w', w'.budget = none ∧
      args.insertLoop (n + k) i dst w = args.insertLoop n (i + k) (List.replicate k none ++ dst) w' := by
  induction k generalizing i dst w with
  | zero => exact ⟨w, hw, rfl⟩
  | succ k ih =>
    obtain ⟨_, w₁, hgetitem, rfl, hw₁, -⟩ := (getitem_attempts (hslots i le_rfl (by omega)) w).eq_some hw
    have hidx : args.insertIndex none dst w₁ = some (some 0, w₁) := by
      rw [insertIndex_unbound hget]
      rfl
    obtain ⟨w', hw', hloop⟩ := ih (i := i + 1) (fun j hlo hhi => hslots j (by omega) (by omega)) (none :: dst) hw₁
    refine ⟨w', hw', ?_⟩
    rw [← Nat.add_assoc, insertLoop_next hgetitem hidx, List.insertIdx_zero, hloop, Nat.add_assoc, Nat.add_comm 1 k,
      List.replicate_succ', List.append_assoc]
    rfl

/-- A bound slot that meets an unbound one at the front. -/
theorem not_sortsCorrectly_unbound (hget : args.src.hasGetitem = true) (hlen : 3 ≤ args.src.slots.length)
    {s : Slot α} {k : ℕ} {x : α} {rest : List (Slot α)}
    (hslots : args.src.slots = s :: (List.replicate k none ++ some x :: rest)) (hfront : s = none ∨ 0 < k) :
    ¬ SortsCorrectly args := by
  refine not_sortsCorrectly_of_crash noMemory none ?_
  rw [deeSeqSort_noMemory hlen]
  have hlength : args.src.slots.length = rest.length + 1 + k + 1 := by
    rw [hslots, List.length_cons, List.length_append, List.length_replicate, List.length_cons]
    omega
  have hslot : args.src.slots[0]? = some s := by
    rw [hslots]
    rfl
  have hunbound : ∀ j, 1 ≤ j → j < 1 + k → args.src.slots[j]? = some none := by
    intro j hlo hhi
    obtain ⟨j, rfl⟩ : ∃ i, j = i + 1 := ⟨j - 1, by omega⟩
    rw [hslots, List.getElem?_cons_succ, List.getElem?_append_left (by rw [List.length_replicate]; omega),
      List.getElem?_replicate, if_pos (by omega)]
  have hbound : args.src.slots[1 + k]? = some (some x) := by
    rw [hslots, Nat.add_comm, List.getElem?_cons_succ, List.getElem?_append_right (by rw [List.length_replicate]),
      List.length_replicate, Nat.sub_self]
    rfl
  obtain ⟨ob, w₁, hgetitem, hob, hw₁, hlive₁⟩ := (getitem_attempts hslot ⟨none, false, 0⟩).eq_some rfl
  rw [hob] at hgetitem hlive₁
  obtain ⟨_, w₂, hidx, rfl, hw₂, -⟩ := (insertIndex_nil_attempts hget _ hlive₁).eq_some hw₁
  obtain ⟨w₃, hw₃, hloop⟩ := insertLoop_skip hget (n := rest.length + 1) hunbound [s] hw₂
  obtain ⟨_, w₄, hgetitem₄, rfl, hw₄, -⟩ := (getitem_attempts hbound w₃).eq_some hw₃
  rw [hlength, insertLoop_next hgetitem hidx, List.insertIdx_zero, hloop]
  obtain ⟨dst, hdst⟩ : ∃ dst, List.replicate k none ++ [s] = none :: dst := by
    rcases hfront with rfl | hk
    · exact ⟨List.replicate k none, by rw [← List.replicate_succ']; rfl⟩
    · obtain ⟨k, rfl⟩ : ∃ j, k = j + 1 := ⟨k - 1, by omega⟩
      exact ⟨List.replicate k none ++ [s], rfl⟩
  rw [hdst]
  exact insertLoop_crash hgetitem₄ (insertIndex_crash hw₄)

theorem insertLoop_pair_fail {n : ℕ} {y x : α} {w w₁ w₂ w₃ w₄ : World α} {leaked : Multiset α}
    (hget0 : args.getitem 0 w = some (some (some y), w₁))
    (hidx0 : args.insertIndex (some y) [] w₁ = some (some 0, w₂))
    (hget1 : args.getitem 1 w₂ = some (some (some x), w₃))
    (hidx1 : args.insertIndex (some x) [some y] w₃ = some (none, w₄))
    (hlive : w₄.live = args.refOf (some y) + leaked) :
    args.insertLoop (n + 2) 0 [] w = some (none, ⟨w₄.budget, w₄.failed, leaked⟩) := by
  rw [insertLoop_next hget0 hidx0, List.insertIdx_zero]
  refine insertLoop_fail hget1 hidx1 ?_
  rw [List.map_singleton, List.sum_singleton]
  exact hlive

/-- A key function that fails for an item which is not the first: the item is dropped. -/
theorem insertIndex_key_fail {key : α → α} (hkey : args.key = some key) (hget : args.src.hasGetitem = true) {x : α}
    {dst : List (Slot α)} {live : Multiset α} :
    args.insertIndex (some x) dst ⟨some 0, false, x ::ₘ live⟩ = some (none, ⟨some 0, true, live⟩) := by
  have hdrop := releases_decrefvIfRef args [some x]
  rw [List.map_singleton, List.sum_singleton, Args.refOf, if_pos hget, slotRef] at hdrop
  unfold Args.insertIndex
  rw [if_neg fun h => absurd h.2 (by simp), hkey]
  show (args.decrefvIfRef [some x] ⟨some 0, true, x ::ₘ live⟩ >>= fun r => some (none, r.2)) = _
  rw [hdrop ⟨some 0, true, x ::ₘ live⟩ live (Multiset.singleton_add x live).symm]
  rfl

/-- Two bound slots at the front: the second item is leaked when it cannot be compared, and the key of the first when
that of the second cannot be computed. -/
theorem not_sortsCorrectly_bound (hget : args.src.hasGetitem = true) {y x : α} {s : Slot α} {rest : List (Slot α)}
    (hslots : args.src.slots = some y :: some x :: s :: rest) : ¬ SortsCorrectly args := by
  have hlen : 3 ≤ args.src.slots.length := by
    rw [hslots]
    simp
  have hloop : ∀ w, deeSeqSort args noMemory w = args.insertLoop (rest.length + 1 + 2) 0 [] w := fun w => by
    rw [deeSeqSort_noMemory hlen, hslots]
    rfl
  have hpair : ∀ z : α, (z ::ₘ y ::ₘ 0 : Multiset α) = slotRef (some y) + {z} := fun z => Multiset.cons_swap z y 0
  have hne : ∀ z : α, ({z} : Multiset α) ≠ 0 := Multiset.singleton_ne_zero
  have hfail : ∀ key, args.key = some key → ∀ (dst : List (Slot α)) (live : Multiset α),
      args.insertIndex (some x) dst ⟨some 0, false, x ::ₘ live⟩ = some (none, ⟨some 0, true, live⟩) :=
    fun key hkey dst live => insertIndex_key_fail hkey hget
  obtain ⟨src, key, lt⟩ := args
  cases src with
  | vector items => exact absurd hget Bool.false_ne_true
  | getItemIndexFast slots =>
    obtain rfl : slots = some y :: some x :: s :: rest := hslots
    cases key with
    | none =>
      exact not_sortsCorrectly_of_leak noMemory (some 0) _
        ((hloop _).trans (insertLoop_pair_fail rfl rfl rfl rfl (hpair x))) (hne x)
    | some key =>
      have hidx := hfail key rfl [some y] (key y ::ₘ y ::ₘ 0)
      exact not_sortsCorrectly_of_leak noMemory (some 1) _
        ((hloop _).trans (insertLoop_pair_fail rfl rfl rfl hidx (hpair (key y)))) (hne (key y))
  | tryGetItemIndex slots =>
    obtain rfl : slots = some y :: some x :: s :: rest := hslots
    cases key with
    | none =>
      exact not_sortsCorrectly_of_leak noMemory (some 2) _
        ((hloop _).trans (insertLoop_pair_fail rfl rfl rfl rfl (hpair x))) (hne x)
    | some key =>
      have hidx := hfail key rfl [some y] (key y ::ₘ y ::ₘ 0)
      exact not_sortsCorrectly_of_leak noMemory (some 3) _
        ((hloop _).trans (insertLoop_pair_fail rfl rfl rfl hidx (hpair (key y)))) (hne (key y))

/-- An item getter that fails for the second item: the key of the first is leaked. -/
theorem not_sortsCorrectly_tryGet {y : α} {s t : Slot α} {rest : List (Slot α)} {key : α → α} {lt : α → α → Bool} :
    ¬ SortsCorrectly (⟨.tryGetItemIndex (some y :: s :: t :: rest), some key, lt⟩ : Args α) := by
  obtain ⟨args, hargs⟩ : ∃ args : Args α, args = ⟨.tryGetItemIndex (some y :: s :: t :: rest), some key, lt⟩ :=
    ⟨_, rfl⟩
  have hlen : 3 ≤ args.src.slots.length := by
    rw [hargs]
    simp [Source.slots]
  have hrun : deeSeqSort args noMemory ⟨some 2, false, 0⟩ = some (none, ⟨some 0, true, {key y}⟩) := by
    rw [deeSeqSort_noMemory hlen]
    subst hargs
    have hget1 : Args.getitem ⟨.tryGetItemIndex (some y :: s :: t :: rest), some key, lt⟩ 1
        ⟨some 0, false, key y ::ₘ y ::ₘ 0⟩ = some (none, ⟨some 0, true, key y ::ₘ y ::ₘ 0⟩) := rfl
    refine (insertLoop_next (n := rest.length + 2) (j := 0) rfl rfl).trans ?_
    exact insertLoop_getitem_fail (n := rest.length + 1) hget1 (Multiset.cons_swap (key y) y 0)
  rw [← hargs]
  exact not_sortsCorrectly_of_leak noMemory _ _ hrun (Multiset.singleton_ne_zero _)

/-! ### The condition -/

theorem vector_correct_iff {items : List α} {key : Option (α → α)} {lt : α → α → Bool}
    (hw : StrictWeakOn (Args.less ⟨.vector items, key, lt⟩) items) :
    SortsCorrectly (⟨.vector items, key, lt⟩ : Args α) ↔ Sortable (⟨.vector items, key, lt⟩ : Args α) := by
  by_cases hlen : items.length ≤ 2
  · refine iff_of_true ?_ (Or.inl hlen)
    match items, hlen with
    | [], _ => exact sortsCorrectly_of_length_le_one (by simp [Source.slots])
    | [a], _ => exact sortsCorrectly_of_length_le_one (by simp [Source.slots])
    | [a, b], _ => exact sortsCorrectly_of_two rfl hw
  · have hthree : 3 ≤ items.length := by omega
    cases key with
    | some key =>
      match items, hthree with
      | a :: b :: c :: items, _ =>
        refine iff_of_false not_sortsCorrectly_vector_key ?_
        rintro (h | ⟨h, -⟩)
        · exact hlen h
        · exact absurd h (by simp)
    | none =>
      by_cases hpal : ∀ x ∈ items, (items.filter (tied lt x)).reverse = items.filter (tied lt x)
      · exact iff_of_true (sortsCorrectly_of_palindromes rfl hthree rfl hw hpal) (Or.inr ⟨rfl, hpal⟩)
      · refine iff_of_false (not_sortsCorrectly_vector rfl hthree rfl hw hpal) ?_
        rintro (h | ⟨-, h⟩)
        · exact hlen h
        · exact hpal h

/-- What fails for a getter with at least two slots, one of them bound and not the first. -/
theorem not_sortsCorrectly_getter (hget : args.src.hasGetitem = true) (hlen : 3 ≤ args.src.slots.length)
    (htail : ¬ ∀ t ∈ args.src.slots.tail, t = none) : ¬ SortsCorrectly args := by
  obtain ⟨s, tail, hslots⟩ : ∃ s tail, args.src.slots = s :: tail := by
    match h : args.src.slots with
    | [] =>
      rw [h] at hlen
      exact absurd hlen (by simp)
    | s :: tail => exact ⟨s, tail, rfl⟩
  rw [hslots, List.tail_cons] at htail
  obtain ⟨k, x, rest, rfl⟩ := exists_bound htail
  match s, k with
  | none, k => exact not_sortsCorrectly_unbound hget hlen hslots (Or.inl rfl)
  | some y, k + 1 => exact not_sortsCorrectly_unbound hget hlen hslots (Or.inr (by omega))
  | some y, 0 =>
    match rest with
    | [] =>
      rw [hslots] at hlen
      exact absurd hlen (by simp)
    | t :: rest => exact not_sortsCorrectly_bound hget hslots

theorem not_sortsCorrectly_of_length_two (hget : args.src.hasGetitem = true) (h : args.src.slots.length = 2) :
    ¬ SortsCorrectly args := by
  obtain ⟨s, t, hslots⟩ := List.length_eq_two.mp h
  exact not_sortsCorrectly_two hget hslots

theorem getItemIndexFast_correct_iff {slots : List (Slot α)} {key : Option (α → α)} {lt : α → α → Bool}
    (hw : StrictWeakOn (slotLess (Args.less ⟨.getItemIndexFast slots, key, lt⟩)) slots) :
    SortsCorrectly (⟨.getItemIndexFast slots, key, lt⟩ : Args α) ↔
      Sortable (⟨.getItemIndexFast slots, key, lt⟩ : Args α) := by
  by_cases hone : slots.length ≤ 1
  · exact iff_of_true (sortsCorrectly_of_length_le_one hone) (Or.inl hone)
  by_cases htwo : slots.length = 2
  · refine iff_of_false (not_sortsCorrectly_of_length_two rfl htwo) ?_
    rintro (h | ⟨h, -⟩) <;> omega
  have hthree : 3 ≤ slots.length := by omega
  by_cases htail : ∀ t ∈ slots.tail, t = none
  · exact iff_of_true (sortsCorrectly_of_unbound rfl hthree hw htail (Or.inl ⟨slots, rfl⟩)) (Or.inr ⟨hthree, htail⟩)
  · refine iff_of_false (not_sortsCorrectly_getter rfl hthree htail) ?_
    rintro (h | ⟨-, h⟩)
    · exact hone h
    · exact htail h

theorem tryGetItemIndex_correct_iff {slots : List (Slot α)} {key : Option (α → α)} {lt : α → α → Bool}
    (hw : StrictWeakOn (slotLess (Args.less ⟨.tryGetItemIndex slots, key, lt⟩)) slots) :
    SortsCorrectly (⟨.tryGetItemIndex slots, key, lt⟩ : Args α) ↔
      Sortable (⟨.tryGetItemIndex slots, key, lt⟩ : Args α) := by
  by_cases hone : slots.length ≤ 1
  · exact iff_of_true (sortsCorrectly_of_length_le_one hone) (Or.inl hone)
  by_cases htwo : slots.length = 2
  · refine iff_of_false (not_sortsCorrectly_of_length_two rfl htwo) ?_
    rintro (h | ⟨h, -⟩) <;> omega
  have hthree : 3 ≤ slots.length := by omega
  by_cases htail : ∀ t ∈ slots.tail, t = none
  · by_cases hfirst : key = none ∨ slots.head? = some none
    · exact iff_of_true (sortsCorrectly_of_unbound rfl hthree hw htail (Or.inr hfirst))
        (Or.inr ⟨hthree, htail, hfirst⟩)
    · have hleak : ¬ SortsCorrectly (⟨.tryGetItemIndex slots, key, lt⟩ : Args α) := by
        match key, slots, hthree with
        | none, _, _ => exact absurd (Or.inl rfl) hfirst
        | some key, none :: s :: t :: rest, _ => exact absurd (Or.inr rfl) hfirst
        | some key, some y :: s :: t :: rest, _ => exact not_sortsCorrectly_tryGet
      refine iff_of_false hleak ?_
      rintro (h | ⟨-, -, h⟩)
      · exact hone h
      · exact hfirst h
  · refine iff_of_false (not_sortsCorrectly_getter rfl hthree htail) ?_
    rintro (h | ⟨-, h, -⟩)
    · exact hone h
    · exact htail h

/-- Sorting is correct exactly for the sources that are `Sortable`. -/
theorem deeSeqSort_correct_iff (args : Args α) (hw : StrictWeakOn args.less args.items) :
    SortsCorrectly args ↔ Sortable args := by
  obtain ⟨src, key, lt⟩ := args
  cases src with
  | vector items =>
    refine vector_correct_iff ?_
    have hitems : Args.items (⟨.vector items, key, lt⟩ : Args α) = items :=
      List.filterMap_map.trans List.filterMap_some
    rwa [hitems] at hw
  | getItemIndexFast slots => exact getItemIndexFast_correct_iff (strictWeakOn_slotLess hw)
  | tryGetItemIndex slots => exact tryGetItemIndex_correct_iff (strictWeakOn_slotLess hw)

theorem strictWeakOn_div (d : ℕ) (l : List ℕ) : StrictWeakOn (fun a b => decide (a / d < b / d)) l := by
  constructor
  · intro a _ b _ h
    rw [decide_eq_true_iff] at h
    exact decide_eq_false (by omega)
  · intro a _ b _ c _ h h'
    rw [decide_eq_false_iff_not] at h h'
    exact decide_eq_false (by omega)

/-- Four items of which no two are tied. -/
theorem deeSeqSort_correct_four : SortsCorrectly (⟨.vector [4, 2, 3, 1], none, fun a b => decide (a / 1 < b / 1)⟩ : Args ℕ) ↔
    Sortable (⟨.vector [4, 2, 3, 1], none, fun a b => decide (a / 1 < b / 1)⟩ : Args ℕ) :=
  deeSeqSort_correct_iff ⟨.vector [4, 2, 3, 1], none, fun a b => decide (a / 1 < b / 1)⟩ (strictWeakOn_div 1 _)

/-- Two items of a sequence, neither of which is released when their comparison throws, and three tied items, which
the two sorts put into different orders. -/
theorem deeSeqSort_incorrect :
    (StrictWeakOn (fun a b : ℕ => decide (a / 10 < b / 10)) [10, 20] ∧
      ¬ SortsCorrectly (⟨.getItemIndexFast [some 10, some 20], none, fun a b => decide (a / 10 < b / 10)⟩ : Args ℕ)) ∧
    (StrictWeakOn (fun a b : ℕ => decide (a / 10 < b / 10)) [10, 11, 12] ∧
      ¬ SortsCorrectly (⟨.vector [10, 11, 12], none, fun a b => decide (a / 10 < b / 10)⟩ : Args ℕ)) := by
  refine ⟨⟨strictWeakOn_div 10 _, not_sortsCorrectly_two rfl rfl⟩, strictWeakOn_div 10 _, ?_⟩
  exact not_sortsCorrectly_vector rfl le_rfl rfl (strictWeakOn_div 10 _) (by decide)

end Deemon.Seq
