import Deemon.Collections.ListSpliceExact
import Deemon.Collections.RemoveFirst

/-!
# Removing from lists

`DeeList_RemoveIf`, `list_mh_removeall` and `list_mh_remove` go through a range of a list and remove elements in place,
`list_mh_rremove` does so from the end. Nobody else changes the list during a call here, so what is checked when the lock
was taken again always holds.
-/

namespace Deemon.Collections

open Deemon.Run

variable {α κ : Type}

/-! ### The code -/

/-- A list during a call: how the number of references to each object has changed, and the elements that were compared,
by their positions before the call. -/
structure Removing (α : Type) where
  list : ObjectList α
  refs : α → ℤ
  compared : List ℕ

/-- A call starts. -/
def Removing.start (list : ObjectList α) : Removing α := ⟨list, fun _ => 0, []⟩

section Code

variable [DecidableEq α]

/-- `Dee_Incref` and `Dee_Decref`. -/
def addRef (n : ℤ) (refs : α → ℤ) (obj : α) : α → ℤ := fun x => if x = obj then refs x + n else refs x

/-- The element at `i` is compared. A reference to it is taken, and may be kept. -/
def Removing.compare (keeps : Bool) (self : Removing α) (position : ℕ) (thisElem : α) : Removing α where
  list := self.list
  refs := if keeps then addRef 1 self.refs thisElem else addRef (-1) (addRef 1 self.refs thisElem) thisElem
  compared := self.compared ++ [position]

/-- The successors of the element at `i` take its place, and the reference of the list is dropped. -/
def Removing.remove (self : Removing α) (i : ℕ) (thisElem : α) : Option (Removing α) := do
  let length := self.list.elemc - 1
  let elemv ← memmove self.list.elemv i (i + 1) (length - i)
  some { self with
    list := ⟨elemv, length⟩
    refs := addRef (-1) self.refs thisElem }

/-- The loop of the functions that go upwards. `result` is the number of elements removed; the result is `none` after an
error. -/
def removeLoop (keeps : Bool) (compare : α → Option Bool) (stop max : ℕ) :
    (fuel i result : ℕ) → Removing α → Option (Removing α × Option ℕ)
  | 0, _, _, _ => none
  | fuel + 1, i, result, self =>
    if i < self.list.elemc ∧ i < stop then do
      let thisElem ← (self.list.elemv[i]?).join
      -- the elements removed so far were in front of this one
      let self := self.compare keeps (i + result) thisElem
      match compare thisElem with
      | none => some (self, none)
      | some true => do
        let self ← self.remove i thisElem
        if max ≤ result + 1 then some (self, some (result + 1))
        else removeLoop keeps compare stop max fuel (i + 1) (result + 1) self
      | some false => removeLoop keeps compare stop max fuel (i + 1) result self
    else some (self, some result)

/-- A function that goes upwards, and stops when `max` elements were removed. -/
def removeUpwards (keeps : Bool) (compare : α → Option Bool) (start stop max : ℕ) (me : ObjectList α) :
    Option (Removing α × Option ℕ) :=
  if max = 0 then some (.start me, some 0) else removeLoop keeps compare stop max (me.elemc + 1) start 0 (.start me)

/-- The loop of the functions that go downwards, from below `i` on. -/
def rremoveLoop (compare : α → Option Bool) (start : ℕ) : (i : ℕ) → Removing α → Option (Removing α × Option ℕ)
  | 0, self => some (self, some 0)
  | i + 1, self =>
    if i + 1 ≤ start then some (self, some 0)
    else do
      let thisElem ← (self.list.elemv[i]?).join
      let self := self.compare false i thisElem
      match compare thisElem with
      | none => some (self, none)
      | some true => do
        let self ← self.remove i thisElem
        some (self, some 1)
      | some false => rremoveLoop compare start i self

/-- A function that goes downwards, and stops at the first match. -/
def rremoveDownwards (compare : α → Option Bool) (start stop : ℕ) (me : ObjectList α) : Option (Removing α × Option ℕ) :=
  rremoveLoop compare start (min stop me.elemc) (.start me)

/-- `DeeList_RemoveIf`. -/
def deeListRemoveIf (should : α → Option Bool) (start stop max : ℕ) (me : ObjectList α) :
    Option (Removing α × Option ℕ) := removeUpwards false should start stop max me

/-- `list_mh_removeall`. -/
def listMhRemoveall (tryCompareEq : α → α → Option Bool) (item : α) (start stop max : ℕ) (me : ObjectList α) :
    Option (Removing α × Option ℕ) := removeUpwards true (tryCompareEq item) start stop max me

/-- `list_mh_removeall_with_key`. -/
def listMhRemoveallWithKey (tryCompareKeyEq : α → α → κ → Option Bool) (item : α) (start stop max : ℕ) (key : κ)
    (me : ObjectList α) : Option (Removing α × Option ℕ) :=
  removeUpwards true (fun thisElem => tryCompareKeyEq item thisElem key) start stop max me

/-- `list_mh_remove`. -/
def listMhRemove (tryCompareEq : α → α → Option Bool) (item : α) (start stop : ℕ) (me : ObjectList α) :
    Option (Removing α × Option ℕ) := removeUpwards false (tryCompareEq item) start stop 1 me

/-- `list_mh_remove_with_key`. -/
def listMhRemoveWithKey (tryCompareKeyEq : α → α → κ → Option Bool) (item : α) (start stop : ℕ) (key : κ)
    (me : ObjectList α) : Option (Removing α × Option ℕ) :=
  removeUpwards false (fun thisElem => tryCompareKeyEq item thisElem key) start stop 1 me

/-- `list_mh_rremove`. -/
def listMhRremove (tryCompareEq : α → α → Option Bool) (item : α) (start stop : ℕ) (me : ObjectList α) :
    Option (Removing α × Option ℕ) := rremoveDownwards (tryCompareEq item) start stop me

/-- `list_mh_rremove_with_key`. -/
def listMhRremoveWithKey (tryCompareKeyEq : α → α → κ → Option Bool) (item : α) (start stop : ℕ) (key : κ)
    (me : ObjectList α) : Option (Removing α × Option ℕ) :=
  rremoveDownwards (fun thisElem => tryCompareKeyEq item thisElem key) start stop me

end Code

/-! ### What is removed -/

/-- The references of the list have changed as its elements have. -/
def CountsRefs [DecidableEq α] (xs ys : List α) (refs : α → ℤ) : Prop := ∀ x ∈ ys, refs x = (ys.count x : ℤ) - xs.count x

/-- The first `max` elements in the range that match were removed, those up to there were compared, and the elements that
stay have kept their references. -/
structure Removes [DecidableEq α] (f : α → Bool) (start stop max : ℕ) (xs : List α) (r : Removing α × Option ℕ) :
    Prop where
  elems : Holds r.1.list (replaceRange start stop xs (removeFirst f max (inRange start stop xs)))
  result : r.2 = some (min max ((inRange start stop xs).countP f))
  compared : r.1.compared = List.range' start (comparisons f max (inRange start stop xs))
  refs : CountsRefs xs (replaceRange start stop xs (removeFirst f max (inRange start stop xs))) r.1.refs

/-- The last element in the range that matches was removed. -/
structure RemovesLast [DecidableEq α] (f : α → Bool) (start stop : ℕ) (xs : List α) (r : Removing α × Option ℕ) :
    Prop where
  elems : Holds r.1.list (replaceRange start stop xs (removeFirst f 1 (inRange start stop xs).reverse).reverse)
  result : r.2 = some (min 1 ((inRange start stop xs).countP f))
  refs : CountsRefs xs (replaceRange start stop xs (removeFirst f 1 (inRange start stop xs).reverse).reverse) r.1.refs

/-! ### Steps -/

section Steps

variable {P A B C : List α} {m x : α}

theorem Holds.elem_eq {me : ObjectList α} (h : Holds me (A ++ m :: B)) : (me.elemv[A.length]?).join = some m := by
  have hget := congrArg (fun l => l[A.length]?) h.elems
  have hlt : A.length < (A ++ m :: B).length := by
    rw [List.length_append, List.length_cons]
    omega
  rw [List.getElem?_take_of_lt hlt, List.getElem?_map, List.getElem?_append_right le_rfl, Nat.sub_self,
    List.getElem?_cons_zero] at hget
  rw [hget]
  rfl

theorem splits_elemc {start stop : ℕ} {xs seg R : List α} {me : ObjectList α} (hsplit : Splits start stop xs P seg R)
    (h : Holds me xs) : me.elemc = start + seg.length + R.length := by
  rw [h.elemc, hsplit.eq, List.length_append, List.length_append, hsplit.length, Nat.add_assoc]

variable [DecidableEq α] {f : α → Bool} {keeps : Bool} {stop max fuel i result position : ℕ} {s s' : Removing α}
  {r : Removing α × Option ℕ}

@[simp] theorem compare_list : (s.compare keeps position m).list = s.list := rfl

@[simp] theorem compare_compared : (s.compare keeps position m).compared = s.compared ++ [position] := rfl

theorem addRef_of_ne (h : x ≠ m) (n : ℤ) (refs : α → ℤ) : addRef n refs m x = refs x := if_neg h

theorem addRef_self (n : ℤ) (refs : α → ℤ) : addRef n refs m m = refs m + n := if_pos rfl

/-- The reference that is taken for a comparison is dropped again. -/
theorem compare_refs : (s.compare false position m).refs = s.refs := by
  funext x
  show addRef (-1) (addRef 1 s.refs m) m x = s.refs x
  unfold addRef
  split_ifs
  · omega
  · rfl

theorem remove_ends (h : Holds s.list (A ++ m :: B)) : Ends (s.remove A.length m) fun s' =>
    Holds s'.list (A ++ B) ∧ s'.refs = addRef (-1) s.refs m ∧ s'.compared = s.compared := by
  have hlength : (A ++ m :: B).length = A.length + B.length + 1 := by
    rw [List.length_append, List.length_cons, Nat.add_assoc]
  have hroom := h.length_le
  have hcount : s.list.elemc - 1 - A.length = B.length := by
    rw [h.elemc]
    omega
  have hfront := h.take_eq (s := A.length) (by omega)
  have hback := h.slice_eq (s := A.length + 1) (n := B.length) (by omega)
  have hsucc : (A ++ m :: B).drop (A.length + 1) = B := by
    rw [← List.drop_drop, List.drop_left]
    rfl
  rw [List.take_left] at hfront
  rw [hsucc, List.take_length] at hback
  obtain ⟨b, hb, -, htake, hdrop⟩ := memmove_blocks (l := s.list.elemv) (d := A.length) (s := A.length + 1)
    (n := B.length) (by omega) (.inr (by omega))
  rw [Removing.remove, hcount, hb]
  refine Ends.pure ⟨⟨?_, ?_⟩, rfl, rfl⟩
  · show s.list.elemc - 1 = _
    rw [h.elemc, hlength, List.length_append, Nat.add_sub_cancel]
  · show b.take (A ++ B).length = _
    rw [List.length_append, List.take_add, htake, hdrop, hfront, hback, List.take_left' (List.length_map _),
      List.map_append]

theorem removeLoop_end (h : ¬ (i < s.list.elemc ∧ i < stop)) (compare : α → Option Bool) :
    removeLoop keeps compare stop max (fuel + 1) i result s = some (s, some result) := by
  rw [removeLoop, if_neg h]

theorem removeLoop_miss (h : Holds s.list (P ++ m :: C)) (hstop : P.length < stop) (hm : f m = false) :
    removeLoop keeps (fun x => some (f x)) stop max (fuel + 1) P.length result s =
      removeLoop keeps (fun x => some (f x)) stop max fuel (P.length + 1) result
        (s.compare keeps (P.length + result) m) := by
  have hlt : P.length < s.list.elemc := by
    rw [h.elemc, List.length_append, List.length_cons]
    omega
  rw [removeLoop, if_pos ⟨hlt, hstop⟩, h.elem_eq, some_bind]
  dsimp only
  rw [hm]

/-- A match: the element is removed, and the loop goes on unless there were `max` of them. -/
theorem removeLoop_match (h : Holds s.list (P ++ m :: C)) (hstop : P.length < stop) (hm : f m = true) :
    ∃ s', Holds s'.list (P ++ C) ∧ s'.refs = addRef (-1) (s.compare keeps (P.length + result) m).refs m ∧
      s'.compared = s.compared ++ [P.length + result] ∧
      removeLoop keeps (fun x => some (f x)) stop max (fuel + 1) P.length result s =
        if max ≤ result + 1 then some (s', some (result + 1))
        else removeLoop keeps (fun x => some (f x)) stop max fuel (P.length + 1) (result + 1) s' := by
  have hlt : P.length < s.list.elemc := by
    rw [h.elemc, List.length_append, List.length_cons]
    omega
  obtain ⟨s', hs', hlist, hrefs, hcompared⟩ :=
    remove_ends (s := s.compare keeps (P.length + result) m) (A := P) (m := m) (B := C) h
  refine ⟨s', hlist, hrefs, hcompared, ?_⟩
  rw [removeLoop, if_pos ⟨hlt, hstop⟩, h.elem_eq, some_bind]
  dsimp only
  rw [hm]
  dsimp only
  rw [hs', some_bind]

/-- Elements that do not match are compared, and stay. -/
theorem removeLoop_skip : ∀ (A P : List α) (s : Removing α), Holds s.list (P ++ (A ++ C)) → P.length + A.length ≤ stop →
    (∀ a ∈ A, f a = false) →
    ∃ s', s'.list = s.list ∧ s'.refs = s.refs ∧
      s'.compared = s.compared ++ List.range' (P.length + result) A.length ∧
      removeLoop false (fun x => some (f x)) stop max (fuel + A.length) P.length result s =
        removeLoop false (fun x => some (f x)) stop max fuel (P.length + A.length) result s' := by
  intro A
  induction A with
  | nil =>
    intro P s _ _ _
    exact ⟨s, rfl, rfl, (List.append_nil _).symm, rfl⟩
  | cons a A ih =>
    intro P s h hstop hA
    rw [List.length_cons] at hstop
    have hmiss := @removeLoop_miss α P (A ++ C) a _ f false stop max (fuel + A.length) result s h (by omega)
      (hA a List.mem_cons_self)
    have hnext : Holds (s.compare false (P.length + result) a).list (P ++ [a] ++ (A ++ C)) := by
      rw [List.append_assoc]
      exact h
    obtain ⟨s', hlist, hrefs, hcompared, hloop⟩ := ih (P ++ [a]) _ hnext
      (by rw [List.length_append, List.length_singleton]; omega) fun x hx => hA x (List.mem_cons_of_mem _ hx)
    rw [List.length_append, List.length_singleton] at hcompared hloop
    refine ⟨s', hlist, hrefs.trans compare_refs, ?_, ?_⟩
    · rw [hcompared, compare_compared, List.append_assoc, List.length_cons, List.range'_succ, Nat.add_right_comm]
      rfl
    · rw [List.length_cons, ← Nat.add_assoc, hmiss, hloop]
      congr 1
      omega

theorem remove_eq_some (h : s.remove i m = some s') : s'.compared = s.compared ∧ s'.refs = addRef (-1) s.refs m := by
  unfold Removing.remove at h
  obtain ⟨elemv, -, hs'⟩ := of_bind h
  cases hs'
  exact ⟨rfl, rfl⟩

/-- The loop never goes back: what is still compared is the element at `i` or behind it. -/
theorem removeLoop_compared {compare : α → Option Bool} : ∀ (fuel i result : ℕ) (s : Removing α),
    removeLoop keeps compare stop max fuel i result s = some r →
      ∃ L, r.1.compared = s.compared ++ L ∧ ∀ p ∈ L, i + result ≤ p := by
  intro fuel
  induction fuel with
  | zero => intro i result s h; cases h
  | succ fuel ih =>
    intro i result s h
    rw [removeLoop] at h
    by_cases hmore : i < s.list.elemc ∧ i < stop
    · rw [if_pos hmore] at h
      obtain ⟨thisElem, -, h⟩ := of_bind h
      dsimp only at h
      have hbehind : ∀ {L : List ℕ} {k : ℕ}, i + result ≤ k → (∀ p ∈ L, k ≤ p) → ∀ p ∈ (i + result) :: L, i + result ≤ p := by
        intro L k hk hL
        exact List.forall_mem_cons.mpr ⟨le_rfl, fun p hp => hk.trans (hL p hp)⟩
      cases hcompare : compare thisElem with
      | none =>
        rw [hcompare] at h
        cases h
        exact ⟨[i + result], rfl, by simp⟩
      | some found =>
        rw [hcompare] at h
        cases found with
        | false =>
          obtain ⟨L, hL, hle⟩ := ih _ _ _ h
          exact ⟨(i + result) :: L, by rw [hL, compare_compared, List.append_assoc]; rfl, hbehind (by omega) hle⟩
        | true =>
          obtain ⟨s', hremove, h⟩ := of_bind h
          obtain ⟨hcompared, -⟩ := remove_eq_some hremove
          rw [compare_compared] at hcompared
          split_ifs at h with hmax
          · cases h
            exact ⟨[i + result], hcompared, by simp⟩
          · obtain ⟨L, hL, hle⟩ := ih _ _ _ h
            exact ⟨(i + result) :: L, by rw [hL, hcompared, List.append_assoc]; rfl, hbehind (by omega) hle⟩
    · rw [if_neg hmore] at h
      cases h
      exact ⟨[], (List.append_nil _).symm, fun p hp => absurd hp List.not_mem_nil⟩

theorem le_compare_refs (x : α) : s.refs x ≤ (s.compare keeps position m).refs x := by
  cases keeps with
  | false => rw [compare_refs]
  | true =>
    show s.refs x ≤ addRef 1 s.refs m x
    unfold addRef
    split_ifs <;> omega

/-- No reference to an element that does not match is dropped. -/
theorem removeLoop_refs (hx : f x = false) : ∀ (fuel i result : ℕ) (s : Removing α),
    removeLoop keeps (fun x => some (f x)) stop max fuel i result s = some r → s.refs x ≤ r.1.refs x := by
  intro fuel
  induction fuel with
  | zero => intro i result s h; cases h
  | succ fuel ih =>
    intro i result s h
    rw [removeLoop] at h
    by_cases hmore : i < s.list.elemc ∧ i < stop
    · rw [if_pos hmore] at h
      obtain ⟨thisElem, -, h⟩ := of_bind h
      have hle := @le_compare_refs α thisElem _ keeps (i + result) s x
      dsimp only at h
      cases hfound : f thisElem with
      | false =>
        rw [hfound] at h
        exact hle.trans (ih _ _ _ h)
      | true =>
        rw [hfound] at h
        obtain ⟨s', hremove, h⟩ := of_bind h
        have hne : x ≠ thisElem := by
          rintro rfl
          rw [hx] at hfound
          cases hfound
        have hrefs : s'.refs x = (s.compare keeps (i + result) thisElem).refs x := by
          rw [(remove_eq_some hremove).2, addRef_of_ne hne]
        rw [← hrefs] at hle
        split_ifs at h with hmax
        · cases h
          exact hle
        · exact hle.trans (ih _ _ _ h)
    · rw [if_neg hmore] at h
      cases h
      exact le_rfl

end Steps

/-! ### Whole calls -/

section Calls

variable [DecidableEq α] {f : α → Bool} {keeps : Bool} {start stop max : ℕ} {me : ObjectList α} {xs P A B R : List α}
  {m x : α} {r : Removing α × Option ℕ}

theorem countsRefs_same {refs : α → ℤ} (h : refs = fun _ => 0) : CountsRefs xs xs refs := by
  intro x _
  rw [h, sub_self]

/-- Nothing is removed. -/
theorem removes_same (h : Holds me xs) (hseg : removeFirst f max (inRange start stop xs) = inRange start stop xs)
    (hcount : min max ((inRange start stop xs).countP f) = 0) {s : Removing α} (hlist : s.list = me)
    (hrefs : s.refs = fun _ => 0) (hcompared : s.compared = List.range' start (comparisons f max (inRange start stop xs))) :
    Removes f start stop max xs (s, some 0) := by
  refine ⟨?_, by rw [hcount], hcompared, ?_⟩
  · rw [hseg, replaceRange_inRange, hlist]
    exact h
  · rw [hseg, replaceRange_inRange]
    exact countsRefs_same hrefs

/-- One element was removed, and everything up to it compared. -/
theorem removes_one (hlt : start < min stop xs.length) (hsplit : Splits start stop xs P (A ++ m :: B) R)
    (hrange : inRange start stop xs = A ++ m :: B) (hP : P = xs.take start) (hR : R = xs.drop (min stop xs.length))
    (hA : ∀ a ∈ A, f a = false) (hm : f m = true) (hend : max = 0 ∨ B = []) {s : Removing α}
    (hlist : Holds s.list (P ++ A ++ (B ++ R))) (hcompared : s.compared = List.range' start (A.length + 1)) :
    CountsRefs xs (P ++ A ++ (B ++ R)) s.refs ↔ Removes f start stop (max + 1) xs (s, some 1) := by
  have hrest : removeFirst f max B = B := by
    rcases hend with rfl | rfl
    · rw [removeFirst]
    · exact removeFirst_nil
  have hcomparisons : comparisons f max B = 0 := by
    rcases hend with rfl | rfl
    · rw [comparisons]
    · cases max <;> rfl
  have hcount : min (max + 1) ((A ++ m :: B).countP f) = 1 := by
    rw [List.countP_append, List.countP_cons_of_pos hm, countP_none hA]
    rcases hend with rfl | rfl
    · omega
    · rw [List.countP_nil]
      omega
  have helems : replaceRange start stop xs (removeFirst f (max + 1) (inRange start stop xs)) = P ++ A ++ (B ++ R) := by
    rw [hrange, removeFirst_match hA hm, hrest, replaceRange_split hlt, ← hP, ← hR, List.append_assoc, List.append_assoc]
  refine ⟨fun hrefs => ⟨?_, ?_, ?_, ?_⟩, fun hr => ?_⟩
  · rw [helems]
    exact hlist
  · rw [hrange, hcount]
  · rw [hrange, comparisons_match hA hm, hcomparisons, Nat.add_zero]
    exact hcompared
  · rw [helems]
    exact hrefs
  · rw [← helems]
    exact hr.refs

/-- An element that does not match is not removed. -/
theorem count_removeFirst (hx : f x = false) : ∀ (max : ℕ) (xs : List α), (removeFirst f max xs).count x = xs.count x := by
  intro max xs
  induction xs generalizing max with
  | nil => rw [removeFirst_nil]
  | cons y xs ih =>
    cases max with
    | zero => rw [removeFirst]
    | succ max =>
      rw [removeFirst]
      split_ifs with hy
      · rw [ih, List.count_cons_of_ne]
        rintro rfl
        rw [hx] at hy
        cases hy
      · rw [List.count_cons, List.count_cons, ih]

/-- The count of the elements when one of them is taken out. -/
theorem count_erased (x : α) : ((P ++ A ++ (B ++ R)).count x : ℤ) - (P ++ (A ++ m :: B ++ R)).count x = if x = m then -1 else 0 := by
  simp only [List.count_append, List.count_cons]
  split_ifs with h1 h2 h2 <;> simp_all <;> omega

/-- When elements behind a match are left to compare, the next one is not compared. -/
theorem log_gap {a k : ℕ} {L : List ℕ} (hlog : List.range' start a ++ [start + a] ++ L = List.range' start (a + 1 + k))
    (hk : 0 < k) (hL : ∀ p ∈ L, start + a + 2 ≤ p) : False := by
  have hmem : start + a + 1 ∈ List.range' start (a + 1 + k) := by
    rw [List.mem_range'_1]
    omega
  rw [← hlog, List.mem_append, List.mem_append, List.mem_range'_1, List.mem_singleton] at hmem
  rcases hmem with (h | h) | h
  · omega
  · omega
  · have := hL _ h
    omega

/-- The loop goes through a range in which nothing matches. -/
theorem scan_none {seg : List α} (hsplit : Splits start stop xs P seg R) (h : Holds me xs) (hnone : ∀ a ∈ seg, f a = false) :
    ∃ s', s'.list = me ∧ (s'.refs = fun _ => 0) ∧ s'.compared = List.range' start seg.length ∧
      removeLoop false (fun x => some (f x)) stop max (me.elemc + 1) start 0 (.start me) = some (s', some 0) := by
  have hcount := splits_elemc hsplit h
  have hbound := hsplit.bound
  have hlen := hsplit.length
  have hholds : Holds (Removing.start me).list (P ++ (seg ++ R)) := hsplit.eq ▸ h
  obtain ⟨s', hlist, hrefs, hcompared, hloop⟩ := @removeLoop_skip α R _ f stop max (start + R.length + 1) 0 seg P
    (.start me) hholds (by omega) hnone
  refine ⟨s', hlist, hrefs, ?_, ?_⟩
  · rw [hcompared, Nat.add_zero, hlen]
    rfl
  · rw [hlen] at hloop
    rw [show me.elemc + 1 = start + R.length + 1 + seg.length by omega, hloop]
    refine removeLoop_end ?_ _
    rw [hlist]
    show ¬ (start + seg.length < me.elemc ∧ start + seg.length < stop)
    rcases hsplit.ends with rfl | hends
    · rw [List.length_nil] at hcount
      omega
    · omega

/-- The loop goes through a range up to the first match. -/
theorem scan_found (hsplit : Splits start stop xs P (A ++ m :: B) R) (h : Holds me xs) (hA : ∀ a ∈ A, f a = false)
    (hm : f m = true) :
    ∃ s' fuel, Holds s'.list (P ++ A ++ (B ++ R)) ∧ s'.refs = addRef (-1) (fun _ => 0) m ∧
      s'.compared = List.range' start (A.length + 1) ∧
      removeLoop false (fun x => some (f x)) stop max (me.elemc + 1) start 0 (.start me) =
        if max ≤ 1 then some (s', some 1)
        else removeLoop false (fun x => some (f x)) stop max (fuel + 1) (start + A.length + 1) 1 s' := by
  have hcount := splits_elemc hsplit h
  have hbound := hsplit.bound
  have hlen := hsplit.length
  rw [List.length_append, List.length_cons] at hcount hbound
  have hholds : Holds (Removing.start me).list (P ++ (A ++ (m :: B ++ R))) := by
    have heq := hsplit.eq
    rw [List.append_assoc] at heq
    exact heq ▸ h
  obtain ⟨s1, hlist1, hrefs1, hcompared1, hloop1⟩ := @removeLoop_skip α (m :: B ++ R) _ f stop max
    (start + B.length + R.length + 2) 0 A P (.start me) hholds (by omega) hA
  have hholds1 : Holds s1.list (P ++ A ++ m :: (B ++ R)) := by
    rw [hlist1, List.append_assoc]
    exact hholds
  have hPA : (P ++ A).length = start + A.length := by rw [List.length_append, hlen]
  obtain ⟨s2, hlist2, hrefs2, hcompared2, hloop2⟩ := @removeLoop_match α (P ++ A) (B ++ R) m _ f false stop max
    (start + B.length + R.length + 1) 0 s1 hholds1 (by omega) hm
  rw [hPA] at hcompared2 hloop2
  rw [hlen] at hcompared1 hloop1
  refine ⟨s2, start + B.length + R.length, hlist2, ?_, ?_, ?_⟩
  · rw [hrefs2, compare_refs, hrefs1]
    rfl
  · rw [hcompared2, hcompared1, Nat.add_zero, Nat.add_zero, List.range'_concat, Nat.one_mul]
    rfl
  · rw [show me.elemc + 1 = start + B.length + R.length + 2 + A.length by omega, hloop1, hloop2, Nat.zero_add]

theorem countsRefs_erased {refs : α → ℤ} (hsplit : Splits start stop xs P (A ++ m :: B) R)
    (hrefs : refs = addRef (-1) (fun _ => 0) m) : CountsRefs xs (P ++ A ++ (B ++ R)) refs := by
  intro x _
  rw [hsplit.eq, count_erased, hrefs]
  unfold addRef
  split_ifs <;> rfl

/-- Nothing is compared in an empty range. -/
theorem removes_empty (h : Holds me xs) (hge : min stop xs.length ≤ start) :
    removeLoop keeps (fun x => some (f x)) stop (max + 1) (me.elemc + 1) start 0 (.start me) = some (.start me, some 0) ∧
      Removes f start stop (max + 1) xs (.start me, some 0) := by
  have hseg : inRange start stop xs = [] := inRange_nil hge
  have hend : ¬ (start < me.elemc ∧ start < stop) := by
    rw [h.elemc]
    omega
  refine ⟨removeLoop_end hend _, removes_same h ?_ ?_ rfl rfl ?_⟩
  · rw [hseg, removeFirst]
  · rw [hseg, List.countP_nil, Nat.min_zero]
  · rw [hseg, comparisons]
    rfl

/-- When the reference to a removed element was kept, the references are right if it does not stay. -/
theorem countsRefs_kept (hsplit : Splits start stop xs P (A ++ m :: B) R) :
    CountsRefs xs (P ++ A ++ (B ++ R)) (fun _ => 0) ↔ m ∉ P ++ A ++ (B ++ R) := by
  constructor
  · intro h hm
    have hcount : (0 : ℤ) = _ := h m hm
    rw [hsplit.eq, count_erased, if_pos rfl] at hcount
    omega
  · intro h x hx
    have hne : x ≠ m := by
      rintro rfl
      exact h hx
    rw [hsplit.eq, count_erased, if_neg hne]

/-- A function that goes upwards and keeps no references is right exactly when at most one element is to be removed, or
only the last one in the range can be. -/
theorem removeUpwards_iff (h : Holds me xs) :
    (∃ r, removeUpwards false (fun x => some (f x)) start stop max me = some r ∧ Removes f start stop max xs r) ↔
      max ≤ 1 ∨ ∀ x ∈ (inRange start stop xs).dropLast, f x = false := by
  cases max with
  | zero =>
    refine iff_of_true ⟨_, by rw [removeUpwards, if_pos rfl], ?_⟩ (.inl (Nat.zero_le _))
    exact removes_same h (by rw [removeFirst]) (Nat.zero_min _) rfl rfl (by rw [comparisons]; rfl)
  | succ k =>
    rw [removeUpwards, if_neg (Nat.succ_ne_zero k)]
    rcases Nat.lt_or_ge start (min stop xs.length) with hlt | hge
    · have hsplit := inRange_split hlt
      rcases firstMatch f (inRange start stop xs) with hnone | ⟨A, m, B, hseg, hA, hm⟩
      · obtain ⟨s', hlist, hrefs, hcompared, hloop⟩ := @scan_none α _ f start stop (k + 1) me xs _ _ _ hsplit h hnone
        refine iff_of_true ⟨_, hloop, ?_⟩ (.inr fun x hx => hnone x (List.dropLast_subset _ hx))
        refine removes_same h (removeFirst_none hnone) ?_ hlist hrefs ?_
        · rw [countP_none hnone, Nat.min_zero]
        · rw [comparisons_none hnone, hcompared]
      · rw [hseg] at hsplit ⊢
        obtain ⟨s', fuel, hlist, hrefs, hcompared, hloop⟩ := @scan_found α _ f start stop (k + 1) me xs _ A B _ m hsplit h hA hm
        have hone := @removes_one α _ f start stop k xs _ A B _ m hlt hsplit hseg rfl rfl hA hm
        have hrefs' := countsRefs_erased hsplit hrefs
        cases k with
        | zero =>
          rw [hloop, if_pos le_rfl]
          exact iff_of_true ⟨_, rfl, (hone (.inl rfl) hlist hcompared).mp hrefs'⟩ (.inl le_rfl)
        | succ k =>
          rw [hloop, if_neg (by omega)]
          by_cases hB : B = []
          · subst hB
            have hend : ¬ (start + A.length + 1 < s'.list.elemc ∧ start + A.length + 1 < stop) := by
              have hlen := hsplit.length
              have hends := hsplit.ends
              rw [List.length_append, List.length_singleton] at hends
              rw [hlist.elemc, List.length_append, List.length_append, hlen, List.nil_append]
              rcases hends with hR | hends
              · rw [hR, List.length_nil]
                omega
              · omega
            refine iff_of_true ⟨_, removeLoop_end hend _, (hone (.inr rfl) hlist hcompared).mp hrefs'⟩ (.inr ?_)
            rw [List.dropLast_concat]
            exact hA
          · refine iff_of_false ?_ ?_
            · rintro ⟨r, hrun, hr⟩
              obtain ⟨L, hL, hle⟩ := removeLoop_compared _ _ _ _ hrun
              have hlog := hr.compared
              rw [hseg, comparisons_match hA hm, hL, hcompared, List.range'_concat, Nat.one_mul] at hlog
              exact log_gap hlog (comparisons_pos hB) fun p hp => by
                have := hle p hp
                omega
            · rintro (hmax | hnone)
              · omega
              · refine absurd (hnone m ?_) (by rw [hm]; decide)
                rw [List.dropLast_append_of_ne_nil (List.cons_ne_nil _ _), List.dropLast_cons_of_ne_nil hB]
                exact List.mem_append_right _ List.mem_cons_self
    · obtain ⟨hloop, hremoves⟩ := @removes_empty α _ f false start stop k me xs h hge
      refine iff_of_true ⟨_, hloop, hremoves⟩ (.inr ?_)
      rw [inRange_nil hge]
      intro x hx
      cases hx

/-- A function that goes upwards and keeps the references it takes is right exactly when it compares nothing, or only
one element, which matches and does not stay in the list at another place. -/
theorem removeUpwards_keeps_iff (h : Holds me xs) :
    (∃ r, removeUpwards true (fun x => some (f x)) start stop max me = some r ∧ Removes f start stop max xs r) ↔
      max = 0 ∨ inRange start stop xs = [] ∨ ∃ x rest, inRange start stop xs = x :: rest ∧ f x = true ∧
        (max = 1 ∨ rest = []) ∧ x ∉ replaceRange start stop xs rest := by
  cases max with
  | zero =>
    refine iff_of_true ⟨_, by rw [removeUpwards, if_pos rfl], ?_⟩ (.inl rfl)
    exact removes_same h (by rw [removeFirst]) (Nat.zero_min _) rfl rfl (by rw [comparisons]; rfl)
  | succ k =>
    rw [removeUpwards, if_neg (Nat.succ_ne_zero k)]
    rcases Nat.lt_or_ge start (min stop xs.length) with hlt | hge
    · have hsplit := inRange_split hlt
      cases hseg : inRange start stop xs with
      | nil =>
        have hlength := @inRange_length _ start stop xs
        rw [hseg, List.length_nil] at hlength
        omega
      | cons x rest =>
        rw [hseg] at hsplit
        have hlen := hsplit.length
        have hholds : Holds (Removing.start me).list (xs.take start ++ x :: (rest ++ xs.drop (min stop xs.length))) := by
          have heq := hsplit.eq
          rw [List.cons_append] at heq
          rw [← heq]
          exact h
        have hstop : (xs.take start).length < stop := by omega
        cases hx : f x with
        | false =>
          refine iff_of_false ?_ ?_
          · rintro ⟨r, hrun, hr⟩
            have hmiss := @removeLoop_miss α (xs.take start) _ x _ f true stop (k + 1) me.elemc 0 (.start me) hholds hstop hx
            rw [hlen] at hmiss
            rw [hmiss] at hrun
            have hkept := removeLoop_refs hx _ _ _ _ hrun
            have hone : ((Removing.start me).compare true (start + 0) x).refs x = 1 := addRef_self 1 _
            have helems := replaceRange_split hlt (removeFirst f (k + 1) (x :: rest))
            have hcount : (replaceRange start stop xs (removeFirst f (k + 1) (x :: rest))).count x = xs.count x := by
              rw [helems, List.count_append, List.count_append, count_removeFirst hx, ← List.count_append,
                ← List.count_append, ← hsplit.eq]
            have hin : x ∈ replaceRange start stop xs (removeFirst f (k + 1) (x :: rest)) := by
              rw [← List.count_pos_iff, hcount, List.count_pos_iff, hsplit.eq]
              exact List.mem_append_right _ List.mem_cons_self
            have hrefs := hr.refs
            rw [hseg] at hrefs
            have hzero := hrefs x hin
            rw [hcount, sub_self] at hzero
            omega
          · rintro (hmax | hnil | ⟨y, rest', heq, hy, -⟩)
            · omega
            · cases hnil
            · cases heq
              rw [hx] at hy
              cases hy
        | true =>
          obtain ⟨s', hlist, hrefs, hcompared, hloop⟩ :=
            @removeLoop_match α (xs.take start) _ x _ f true stop (k + 1) me.elemc 0 (.start me) hholds hstop hx
          rw [hlen] at hcompared hloop
          have hzero : s'.refs = fun _ => 0 := by
            rw [hrefs]
            exact @compare_refs α x _ 0 (.start me)
          have hone := @removes_one α _ f start stop k xs _ [] rest _ x hlt hsplit hseg rfl rfl
            (fun a ha => absurd ha List.not_mem_nil) hx
          rw [List.append_nil] at hone
          have hstays := countsRefs_kept (A := []) hsplit
          rw [List.append_nil, ← replaceRange_split hlt] at hstays
          rw [← replaceRange_split hlt] at hone hlist
          have hremoves := fun hend => hone hend hlist hcompared
          rw [hzero] at hremoves
          have hcond : (k + 1 = 0 ∨ x :: rest = [] ∨ ∃ y rest', x :: rest = y :: rest' ∧ f y = true ∧
              (k + 1 = 1 ∨ rest' = []) ∧ y ∉ replaceRange start stop xs rest') ↔
                (k = 0 ∨ rest = []) ∧ x ∉ replaceRange start stop xs rest := by
            constructor
            · rintro (hmax | hnil | ⟨y, rest', heq, -, hend, hy⟩)
              · omega
              · cases hnil
              · cases heq
                exact ⟨hend.imp_left fun hk => Nat.succ.inj hk, hy⟩
            · rintro ⟨hend, hy⟩
              exact .inr (.inr ⟨x, rest, rfl, hx, hend.imp_left fun hk => by rw [hk], hy⟩)
          rw [hcond]
          by_cases hend : k = 0 ∨ rest = []
          · have hrun : removeLoop true (fun x => some (f x)) stop (k + 1) (me.elemc + 1) start 0 (.start me) =
                some (s', some 1) := by
              rw [hloop]
              split_ifs with hmax
              · rfl
              · obtain rfl := hend.resolve_left (by omega)
                have hcount := splits_elemc hsplit h
                have hends := hsplit.ends
                rw [List.length_singleton] at hcount hends
                rw [show me.elemc = start + (xs.drop (min stop xs.length)).length + 1 by omega]
                refine removeLoop_end ?_ _
                rw [hlist.elemc, replaceRange_split hlt, List.length_append, hlen, List.nil_append]
                rcases hends with hR | hends
                · rw [hR, List.length_nil]
                  omega
                · omega
            rw [and_iff_right hend, ← hstays, hremoves hend, hrun]
            refine ⟨?_, fun h => ⟨_, rfl, h⟩⟩
            rintro ⟨r, hr, h⟩
            rwa [Option.some.inj hr]
          · refine iff_of_false ?_ fun hright => hend hright.1
            rintro ⟨r, hrun, hr⟩
            obtain ⟨hk, hrest⟩ := not_or.mp hend
            obtain ⟨k, rfl⟩ := Nat.exists_eq_succ_of_ne_zero hk
            rw [hloop, if_neg (by omega)] at hrun
            obtain ⟨L, hL, hle⟩ := removeLoop_compared _ _ _ _ hrun
            have hlog := hr.compared
            have hnil : ∀ a ∈ ([] : List α), f a = false := fun a ha => absurd ha List.not_mem_nil
            have hcomparisons := @comparisons_match α f (k + 1) [] rest x hnil hx
            rw [List.nil_append] at hcomparisons
            rw [hseg, hcomparisons, hL, hcompared] at hlog
            exact @log_gap start 0 _ L hlog (comparisons_pos hrest) fun p hp => by
              have := hle p hp
              omega
    · obtain ⟨hloop, hremoves⟩ := @removes_empty α _ f true start stop k me xs h hge
      exact iff_of_true ⟨_, hloop, hremoves⟩ (.inr (.inl (inRange_nil hge)))

theorem rremoveLoop_end {i : ℕ} {s : Removing α} (h : i ≤ start) (compare : α → Option Bool) :
    rremoveLoop compare start i s = some (s, some 0) := by
  cases i with
  | zero => rw [rremoveLoop]
  | succ i => rw [rremoveLoop, if_pos h]

/-- Elements that do not match are compared from the end, and stay. -/
theorem rremoveLoop_skip : ∀ (A P R : List α) (s : Removing α), Holds s.list (P ++ (A ++ R)) → start ≤ P.length →
    (∀ a ∈ A, f a = false) → ∃ s', s'.list = s.list ∧ s'.refs = s.refs ∧
      rremoveLoop (fun x => some (f x)) start (P.length + A.length) s =
        rremoveLoop (fun x => some (f x)) start P.length s' := by
  intro A
  induction A using List.reverseRecOn with
  | nil =>
    intro P R s _ _ _
    exact ⟨s, rfl, rfl, rfl⟩
  | append_singleton A a ih =>
    intro P R s h hstart hA
    have hPA : Holds s.list (P ++ A ++ a :: R) := by
      rw [List.append_assoc]
      rwa [List.append_assoc] at h
    have helem := hPA.elem_eq
    rw [List.length_append] at helem
    obtain ⟨s', hlist, hrefs, hloop⟩ := ih P (a :: R) (s.compare false (P.length + A.length) a)
      (by rwa [List.append_assoc] at hPA) hstart fun x hx => hA x (List.mem_append_left _ hx)
    refine ⟨s', hlist, hrefs.trans compare_refs, ?_⟩
    rw [List.length_append, List.length_singleton, ← Nat.add_assoc, rremoveLoop, if_neg (by omega), helem, some_bind]
    dsimp only
    rw [hA a (List.mem_append_right _ List.mem_cons_self)]
    exact hloop

theorem rremoveLoop_match {s : Removing α} (h : Holds s.list (P ++ m :: R)) (hstart : start ≤ P.length) (hm : f m = true) :
    ∃ s', Holds s'.list (P ++ R) ∧ s'.refs = addRef (-1) s.refs m ∧
      rremoveLoop (fun x => some (f x)) start (P.length + 1) s = some (s', some 1) := by
  obtain ⟨s', hs', hlist, hrefs, -⟩ :=
    remove_ends (s := s.compare false P.length m) (A := P) (m := m) (B := R) h
  refine ⟨s', hlist, ?_, ?_⟩
  · rw [hrefs, compare_refs]
  · rw [rremoveLoop, if_neg (by omega), h.elem_eq, some_bind]
    dsimp only
    rw [hm]
    dsimp only
    rw [hs', some_bind]

/-- A function that goes downwards removes the last match. -/
theorem rremoveDownwards_removes (h : Holds me xs) :
    ∃ r, rremoveDownwards (fun x => some (f x)) start stop me = some r ∧ RemovesLast f start stop xs r := by
  have hsame : (∀ a ∈ inRange start stop xs, f a = false) → ∀ {s : Removing α}, s.list = me → (s.refs = fun _ => 0) →
      RemovesLast f start stop xs (s, some 0) := by
    intro hnone s hlist hrefs
    have hitems : (removeFirst f 1 (inRange start stop xs).reverse).reverse = inRange start stop xs := by
      rw [removeFirst_none fun a ha => hnone a (List.mem_reverse.mp ha), List.reverse_reverse]
    refine ⟨?_, by rw [countP_none hnone]; rfl, ?_⟩
    · rw [hitems, replaceRange_inRange, hlist]
      exact h
    · rw [hitems, replaceRange_inRange]
      exact countsRefs_same hrefs
  unfold rremoveDownwards
  rcases Nat.lt_or_ge start (min stop xs.length) with hlt | hge
  · have hsplit := inRange_split hlt
    have hlen := hsplit.length
    have hlength := @inRange_length _ start stop xs
    have hfrom : min stop me.elemc = (xs.take start).length + (inRange start stop xs).length := by
      rw [h.elemc]
      omega
    rw [hfrom]
    rcases firstMatch f (inRange start stop xs).reverse with hnone | ⟨T, m, B, hrev, hT, hm⟩
    · have hnone' : ∀ a ∈ inRange start stop xs, f a = false := fun a ha => hnone a (List.mem_reverse.mpr ha)
      obtain ⟨s', hlist, hrefs, hloop⟩ := @rremoveLoop_skip α _ f start (inRange start stop xs) (xs.take start) _
        (.start me) (hsplit.eq ▸ h) hlen.ge hnone'
      rw [hloop, rremoveLoop_end hlen.le]
      exact ⟨_, rfl, hsame hnone' hlist hrefs⟩
    · have hseg : inRange start stop xs = B.reverse ++ m :: T.reverse := by
        rw [← List.reverse_reverse (inRange start stop xs), hrev, List.reverse_append, List.reverse_cons, List.append_assoc]
        rfl
      have hitems : (removeFirst f 1 (inRange start stop xs).reverse).reverse = B.reverse ++ T.reverse := by
        rw [hrev, removeFirst_match hT hm, removeFirst, List.reverse_append]
      have hcount : min 1 ((inRange start stop xs).countP f) = 1 := by
        rw [hseg, List.countP_append, List.countP_cons_of_pos hm]
        omega
      have helems : replaceRange start stop xs (B.reverse ++ T.reverse) =
          xs.take start ++ B.reverse ++ (T.reverse ++ xs.drop (min stop xs.length)) := by
        rw [replaceRange_split hlt, List.append_assoc, List.append_assoc]
      rw [hseg] at hsplit ⊢
      have hholds : Holds (Removing.start me).list
          (xs.take start ++ B.reverse ++ [m] ++ (T.reverse ++ xs.drop (min stop xs.length))) := by
        have heq := hsplit.eq
        rw [List.append_assoc, List.cons_append] at heq
        rw [List.append_assoc, List.append_assoc, List.singleton_append, ← heq]
        exact h
      obtain ⟨s1, hlist1, hrefs1, hloop1⟩ := @rremoveLoop_skip α _ f start T.reverse _ _ (.start me) hholds
        (by rw [List.length_append, List.length_append]; omega) fun a ha => hT a (List.mem_reverse.mp ha)
      have hholds1 : Holds s1.list (xs.take start ++ B.reverse ++ m :: (T.reverse ++ xs.drop (min stop xs.length))) := by
        rw [hlist1]
        rwa [List.append_assoc (_ ++ _) [m]] at hholds
      obtain ⟨s2, hlist2, hrefs2, hloop2⟩ := @rremoveLoop_match α _ f start _ _ m s1 hholds1
        (by rw [List.length_append]; omega) hm
      have hrun : rremoveLoop (fun x => some (f x)) start ((xs.take start).length + (B.reverse ++ m :: T.reverse).length)
          (.start me) = some (s2, some 1) := by
        rw [List.length_append, List.length_append, List.length_singleton] at hloop1
        rw [List.length_append] at hloop2
        rw [← hloop2, ← hloop1, List.length_append, List.length_cons]
        congr 1
        omega
      refine ⟨_, hrun, ?_, ?_, ?_⟩
      · rw [hitems, helems]
        exact hlist2
      · rw [hcount]
      · rw [hitems, helems]
        exact countsRefs_erased hsplit (hrefs2.trans (by rw [hrefs1]; rfl))
  · rw [h.elemc, rremoveLoop_end hge]
    exact ⟨_, rfl, hsame (by rw [inRange_nil hge]; intro a ha; cases ha) rfl rfl⟩

/-- The three functions that remove all matches are right exactly when none of them comes to compare an element that has
moved, and the two that keep references only when they compare at most one element, which then must not stay in the list.
The functions that remove one match are always right. -/
theorem list_removes (me : ObjectList α) (xs : List α) (should : α → Bool) (compareEq : α → α → Bool)
    (compareKeyEq : α → α → κ → Bool) (item : α) (key : κ) (start stop max : ℕ) (h : Holds me xs) :
    ((∃ r, deeListRemoveIf (fun x => some (should x)) start stop max me = some r ∧ Removes should start stop max xs r) ↔
      max ≤ 1 ∨ ∀ x ∈ (inRange start stop xs).dropLast, should x = false) ∧
    ((∃ r, listMhRemoveall (fun y x => some (compareEq y x)) item start stop max me = some r ∧
      Removes (compareEq item) start stop max xs r) ↔
      max = 0 ∨ inRange start stop xs = [] ∨ ∃ x rest, inRange start stop xs = x :: rest ∧ compareEq item x = true ∧
        (max = 1 ∨ rest = []) ∧ x ∉ replaceRange start stop xs rest) ∧
    ((∃ r, listMhRemoveallWithKey (fun y x k => some (compareKeyEq y x k)) item start stop max key me = some r ∧
      Removes (compareKeyEq item · key) start stop max xs r) ↔
      max = 0 ∨ inRange start stop xs = [] ∨ ∃ x rest, inRange start stop xs = x :: rest ∧
        compareKeyEq item x key = true ∧ (max = 1 ∨ rest = []) ∧ x ∉ replaceRange start stop xs rest) ∧
    (∃ r, listMhRemove (fun y x => some (compareEq y x)) item start stop me = some r ∧
      Removes (compareEq item) start stop 1 xs r) ∧
    (∃ r, listMhRemoveWithKey (fun y x k => some (compareKeyEq y x k)) item start stop key me = some r ∧
      Removes (compareKeyEq item · key) start stop 1 xs r) ∧
    (∃ r, listMhRremove (fun y x => some (compareEq y x)) item start stop me = some r ∧
      RemovesLast (compareEq item) start stop xs r) ∧
    (∃ r, listMhRremoveWithKey (fun y x k => some (compareKeyEq y x k)) item start stop key me = some r ∧
      RemovesLast (compareKeyEq item · key) start stop xs r) :=
  ⟨removeUpwards_iff h, removeUpwards_keeps_iff h, removeUpwards_keeps_iff h, (removeUpwards_iff h).mpr (.inl le_rfl),
    (removeUpwards_iff h).mpr (.inl le_rfl), rremoveDownwards_removes h, rremoveDownwards_removes h⟩

end Calls

/-- A list of two elements. -/
def twoElements : ObjectList ℕ := ⟨[some 1, some 2], 2⟩

theorem twoElements_holds : Holds twoElements [1, 2] := ⟨rfl, rfl⟩

theorem list_removes_two :
    Holds twoElements [1, 2] ∧ ∃ r, deeListRemoveIf (fun x => some (decide (x = 2))) 0 10 10 twoElements = some r ∧
      Removes (fun x => decide (x = 2)) 0 10 10 [1, 2] r :=
  ⟨twoElements_holds, ((list_removes twoElements [1, 2] (fun x => decide (x = 2)) (fun y x => decide (y = x))
    (fun y x k => decide (y + k = x)) 2 0 0 10 10 twoElements_holds).1).mpr (.inr (by decide))⟩

/-- Of two adjacent matches only the first is removed; and the reference to an element that stays is kept. -/
theorem list_removes_wrong :
    (∃ r, deeListRemoveIf (fun x => some (decide (x = 1))) 0 10 10 (⟨[some 1, some 1], 2⟩ : ObjectList ℕ) = some r ∧
      r.1.list.elemv.take r.1.list.elemc = [some 1] ∧ r.2 = some 1 ∧
        ¬ Removes (fun x => decide (x = 1)) 0 10 10 [1, 1] r) ∧
    ∃ r, listMhRemoveall (fun y x => some (decide (y = x))) 2 0 10 10 twoElements = some r ∧
      r.1.list.elemv.take r.1.list.elemc = [some 1] ∧ r.1.refs 1 = 1 ∧
        ¬ Removes (fun x => decide (2 = x)) 0 10 10 [1, 2] r := by
  refine ⟨⟨_, rfl, by decide, by decide, fun h => ?_⟩, _, rfl, by decide, by decide, fun h => ?_⟩
  · exact absurd h.result (by decide)
  · exact absurd (h.refs 1) (by decide)

end Deemon.Collections
