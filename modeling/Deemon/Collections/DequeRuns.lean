import Deemon.Collections.DequeRefines
import Deemon.Lib.Simulation

/-!
# Runs of deque operations

A reference for a program with deques is the same program with lists (`refStep`). The deques follow it as long as
each operation is `DequeOp.Sound`: no item goes into or comes from the middle of a deque, where the rotations are one
item short and, for removal, go the wrong way; no negative index is out of bounds, for which `Deque_Pops` does not go
back to the last item; and no deque is cleared or moved from, which sets its bucket size to 0.
-/

namespace Deemon.Collections

open Deemon.Run Deemon.Simulation

variable {α : Type} {d : Deque α} {xs : List α} {x : α}

/-! ### Any position -/

theorem insert_ends (h : d.Represents xs) {i : ℕ} (hi : i = 0 ∨ xs.length ≤ i) (x : α) :
    Ends (d.insert i x) fun r => r.Represents (xs.insertIdx (min i xs.length) x) := by
  have hlen := h.length
  unfold Deque.insert Deque.insertUnlocked
  rw [assert_of (Nat.min_le_right ..), some_bind]
  by_cases hzero : min i d.dSize = 0
  · rw [if_pos hzero, hlen, hzero, List.insertIdx_zero]
    exact pushFront_ends h x
  · have hend : min i d.dSize = d.dSize := by omega
    rw [hend] at hzero ⊢
    rw [if_neg hzero, if_neg (by omega), if_neg (by omega), hlen, hend, ← hlen, List.insertIdx_length_self, hlen]
    refine Ends.bind (pushBack_ends h x) fun r hr => ?_
    have hsize : r.dSize - d.dSize = 1 := by
      rw [← hr.length, List.length_append, List.length_singleton, hlen]
      omega
    unfold Deque.rrrotUnlocked
    rw [hsize, if_pos le_rfl]
    exact Ends.pure hr

theorem popUnlocked_ends (h : d.Represents xs) {i : ℕ} (hx : xs[i]? = some x) (hi : i = 0 ∨ i + 1 = xs.length) :
    Ends (d.popUnlocked i) fun r => r.1.Represents (xs.eraseIdx i) ∧ r.2 = x := by
  have hlen := h.length
  have hlt : i < xs.length := (List.getElem?_eq_some_iff.mp hx).1
  unfold Deque.popUnlocked
  rw [assert_of (by omega), some_bind]
  by_cases hzero : i = 0
  · subst hzero
    cases xs with
    | nil => exact absurd hx (by simp)
    | cons y ys =>
      obtain rfl : y = x := Option.some.inj hx
      rw [if_pos rfl]
      exact popFront_ends h
  · have hlast : i + 1 = xs.length := by omega
    rw [if_neg hzero, if_pos (by omega)]
    obtain ⟨init, y, rfl⟩ : ∃ init y, xs = init ++ [y] := by
      rcases List.eq_nil_or_concat' xs with rfl | hconcat
      · exact absurd hlt (Nat.not_lt_zero i)
      · exact hconcat
    rw [List.length_append, List.length_singleton] at hlast
    obtain rfl : i = init.length := by omega
    rw [List.getElem?_concat_length] at hx
    obtain rfl : y = x := Option.some.inj hx
    rw [List.eraseIdx_append_of_length_le le_rfl, Nat.sub_self, List.eraseIdx_zero, List.tail_cons, List.append_nil]
    exact popBack_ends h

theorem eraseLeft_zero_ends (h : d.Represents xs) {count : ℕ} (hcount : count ≤ xs.length) :
    Ends (d.eraseLeft 0 count) fun r => r.Represents (xs.drop count) := by
  refine forLoop_ends_zero (fun k r => Deque.Represents r (xs.drop k)) (by rwa [List.drop_zero]) ?_
  intro k r hk hr
  have hlt : k < xs.length := by omega
  have hx : (xs.drop k)[0]? = some xs[k] := by rw [List.getElem?_drop, Nat.add_zero, List.getElem?_eq_getElem hlt]
  refine (popUnlocked_ends hr hx (Or.inl rfl)).map fun p hp => ?_
  rw [← List.tail_drop, ← List.eraseIdx_zero]
  exact hp.1

theorem erase_ends (h : d.Represents xs) {i n : ℕ}
    (hi : min (xs.length - i) n = 0 ∨ i = 0 ∨ i = 1 ∧ xs.length = 2) :
    Ends (d.erase i n) fun r => r.Represents (xs.take i ++ xs.drop (i + n)) := by
  have hlen := h.length
  unfold Deque.erase
  dsimp only
  by_cases hnone : min (xs.length - i) n = 0
  · -- nothing to erase
    have hresult : min (d.dSize - min i d.dSize) n = 0 := by omega
    have hxs : xs.take i ++ xs.drop (i + n) = xs := by
      rcases Nat.min_eq_zero_iff.mp hnone with hout | rfl
      · rw [List.take_of_length_le (by omega), List.drop_of_length_le (by omega), List.append_nil]
      · exact List.take_append_drop i xs
    rw [hresult, hxs]
    split
    · exact Ends.pure h
    · exact Ends.pure h
  · rcases hi.resolve_left hnone with rfl | ⟨rfl, htwo⟩
    · rw [Nat.zero_min, Nat.sub_zero, if_pos (by omega), List.take_zero, Nat.zero_add, List.nil_append]
      refine (eraseLeft_zero_ends h (by omega)).mono fun r hr => ?_
      have hdrop : xs.drop (min d.dSize n) = xs.drop n := by
        rcases Nat.le_total n d.dSize with hle | hle
        · rw [Nat.min_eq_right hle]
        · rw [Nat.min_eq_left hle, List.drop_of_length_le (by omega), List.drop_of_length_le (by omega)]
      rwa [hdrop] at hr
    · -- the last of two items
      have hlt : 1 < xs.length := by omega
      have hresult : min (d.dSize - min 1 d.dSize) n = 1 := by omega
      rw [hresult, Nat.min_eq_left (by omega), if_pos (by omega), List.drop_of_length_le (by omega), List.append_nil]
      have hpop : Ends ((d.popUnlocked 1).map Prod.fst) fun r => r.Represents (xs.eraseIdx 1) :=
        (popUnlocked_ends h (List.getElem?_eq_getElem hlt) (Or.inr htwo.symm)).map fun p hp => hp.1
      refine Ends.bind hpop fun r hr => Ends.pure ?_
      rwa [List.eraseIdx_eq_take_drop_succ, List.drop_of_length_le (by omega), List.append_nil] at hr

/-! ### The reference -/

/-- Position `min i (size - 1)` is removed. -/
def refPop (xs : List α) (i : ℕ) : List α × Option α :=
  (xs.eraseIdx (min i (xs.length - 1)), xs[min i (xs.length - 1)]?)

/-- The position of an index that may count from the end. -/
def refIndex (xs : List α) (i : ℤ) : ℤ := if i < 0 then i + xs.length else i

/-- Such a position is removed; one before the first item counts as the last. -/
def refPops (xs : List α) (i : ℤ) : List α × Option α :=
  refPop xs (if refIndex xs i < 0 then xs.length else (refIndex xs i).toNat)

/-- An operation on list `j`. -/
def onRef (refs : List (List α)) (j : ℕ) (f : List α → List α × Option α) : Option (List (List α) × Option α) := do
  let r := f (← refs[j]?)
  some (refs.set j r.1, r.2)

/-- What an operation should do to lists. -/
def refStep (refs : List (List α)) : DequeOp α → Option (List (List α) × Option α)
  | .init seq bucketSize => if bucketSize = 0 then some (refs, none) else some (refs ++ [seq], none)
  | .pushFront j item => onRef refs j fun xs => (item :: xs, none)
  | .pushBack j item => onRef refs j fun xs => (xs ++ [item], none)
  | .popFront j => onRef refs j fun xs => refPop xs 0
  | .popBack j => onRef refs j fun xs => refPop xs xs.length
  | .insert j index item => onRef refs j fun xs => (xs.insertIdx (min index xs.length) item, none)
  | .pop j index => onRef refs j fun xs => refPop xs index
  | .pops j index => onRef refs j fun xs => refPops xs index
  | .erase j index count => onRef refs j fun xs => (xs.take index ++ xs.drop (index + count), none)
  | .setitemIndex j index value => onRef refs j fun xs => (xs.set index value, none)
  | .clear j => onRef refs j fun _ => ([], none)
  | .assign j k => do
    let other ← refs[k]?
    onRef refs j fun _ => (other, none)
  | .assignSeq j seq => onRef refs j fun _ => (seq, none)
  | .moveassign j k =>
    if j = k then some (refs, none)
    else do
      let other ← refs[k]?
      onRef (refs.set k []) j fun _ => (other, none)
  | .copy k => do
    let other ← refs[k]?
    some (refs ++ [other], none)

/-- The operation works at the ends only, and leaves no deque with buckets of size 0. A size is a `size_t`. -/
def DequeOp.Sound (refs : List (List α)) : DequeOp α → Prop
  | .insert j index _ => ∀ xs, refs[j]? = some xs → index = 0 ∨ xs.length ≤ index
  | .pop j index => ∀ xs, refs[j]? = some xs → index = 0 ∨ xs.length ≤ index + 1
  | .pops j index => ∀ xs, refs[j]? = some xs → xs = [] ∨
      (refIndex xs index = 0 ∨ refIndex xs index + 1 = xs.length) ∧ xs.length ≤ 2 ^ 64
  | .erase j index count => ∀ xs, refs[j]? = some xs → min (xs.length - index) count = 0 ∨ index = 0 ∨
      index = 1 ∧ xs.length = 2
  | .clear _ => False
  | .moveassign j k => j = k
  | _ => True

/-! ### Removal -/

theorem refPop_nil (i : ℕ) : refPop ([] : List α) i = ([], none) := by
  rw [refPop, List.eraseIdx_nil]
  rfl

theorem refPop_of_getElem? {i j : ℕ} (hj : min i (xs.length - 1) = j) (hx : xs[j]? = some x) :
    refPop xs i = (xs.eraseIdx j, some x) := by
  rw [refPop, hj, hx]

/-- Removal of the first or the last item by one of the functions that pop. -/
theorem withResult_popUnlocked_ends (h : d.Represents xs) {i j : ℕ} (hj : min i (xs.length - 1) = j)
    (hend : j = 0 ∨ j + 1 = xs.length) (hne : xs ≠ []) :
    Ends (withResult (d.popUnlocked j)) fun r => r.1.Represents (refPop xs i).1 ∧ r.2 = (refPop xs i).2 := by
  have hpos := List.length_pos_iff.mpr hne
  have hlt : j < xs.length := by omega
  rw [refPop_of_getElem? hj (List.getElem?_eq_getElem hlt)]
  exact (popUnlocked_ends h (List.getElem?_eq_getElem hlt) hend).map fun r hr => ⟨hr.1, congrArg some hr.2⟩

theorem pop_ends (h : d.Represents xs) {i : ℕ} (hi : i = 0 ∨ xs.length ≤ i + 1) :
    Ends (d.pop i) fun r => r.1.Represents (refPop xs i).1 ∧ r.2 = (refPop xs i).2 := by
  have hlen := h.length
  unfold Deque.pop
  by_cases hnil : xs = []
  · subst hnil
    rw [List.length_nil] at hlen
    rw [if_pos (by omega), if_pos hlen.symm, refPop_nil]
    exact Ends.pure ⟨h, rfl⟩
  · have hpos := List.length_pos_iff.mpr hnil
    by_cases hout : d.dSize ≤ i
    · rw [if_pos hout, if_neg (by omega)]
      exact withResult_popUnlocked_ends h (by omega) (by omega) hnil
    · rw [if_neg hout]
      exact withResult_popUnlocked_ends h (by omega) (by omega) hnil

theorem pops_ends (h : d.Represents xs) {i : ℤ}
    (hi : xs = [] ∨ (refIndex xs i = 0 ∨ refIndex xs i + 1 = xs.length) ∧ xs.length ≤ 2 ^ 64) :
    Ends (d.pops i) fun r => r.1.Represents (refPops xs i).1 ∧ r.2 = (refPops xs i).2 := by
  have hlen := h.length
  unfold Deque.pops refPops
  dsimp only
  by_cases hnil : xs = []
  · subst hnil
    rw [List.length_nil] at hlen
    rw [if_pos (by omega), if_pos hlen.symm, refPop_nil]
    exact Ends.pure ⟨h, rfl⟩
  · have hpos := List.length_pos_iff.mpr hnil
    obtain ⟨hend, hbound⟩ := hi.resolve_left hnil
    have hindex : (if i < 0 then i + (d.dSize : ℤ) else i) = refIndex xs i := by rw [refIndex, hlen]
    have hmod : (refIndex xs i % 2 ^ 64).toNat = (refIndex xs i).toNat := by
      rw [Int.emod_eq_of_lt (by omega) (by omega)]
    rw [hindex, hmod, if_neg (by omega), if_neg (by omega)]
    exact withResult_popUnlocked_ends h (by omega) (by omega) hnil

theorem popFront_eq_pop (d : Deque α) : d.popFront = d.pop 0 := by
  unfold Deque.popFront Deque.pop
  by_cases hsize : d.dSize = 0
  · rw [if_pos hsize, if_pos hsize.le, if_pos hsize]
  · rw [if_neg hsize, if_neg (by omega)]
    unfold Deque.popUnlocked
    rw [assert_of (Nat.pos_of_ne_zero hsize), some_bind, if_pos rfl]

theorem popBack_ends' (h : d.Represents xs) :
    Ends d.popBack fun r => r.1.Represents (refPop xs xs.length).1 ∧ r.2 = (refPop xs xs.length).2 := by
  have hlen := h.length
  unfold Deque.popBack
  rcases List.eq_nil_or_concat' xs with rfl | ⟨init, y, rfl⟩
  · rw [List.length_nil] at hlen
    rw [if_pos hlen.symm, refPop_nil]
    exact Ends.pure ⟨h, rfl⟩
  · rw [List.length_append, List.length_singleton] at hlen
    have hj : min (init ++ [y]).length ((init ++ [y]).length - 1) = init.length := by
      rw [List.length_append, List.length_singleton]
      omega
    rw [if_neg (by omega), refPop_of_getElem? hj (List.getElem?_concat_length ..),
      List.eraseIdx_append_of_length_le le_rfl, Nat.sub_self, List.eraseIdx_zero, List.tail_cons, List.append_nil]
    exact (popBack_ends h).map fun r hr => ⟨hr.1, congrArg some hr.2⟩

/-! ### One step -/

section Step

variable {heap : List (Deque α)} {refs : List (List α)} {j : ℕ} {r' : List (List α) × Option α}

theorem onDeque_ends {f : Deque α → Option (Deque α × Option α)} {g : List α → List α × Option α}
    (hR : List.Forall₂ Deque.Represents heap refs) (href : onRef refs j g = some r')
    (hf : ∀ d xs, refs[j]? = some xs → d.Represents xs → Ends (f d) fun r => r.1.Represents (g xs).1 ∧ r.2 = (g xs).2) :
    Ends (onDeque heap j f) fun r => List.Forall₂ Deque.Represents r.1 r'.1 ∧ r.2 = r'.2 := by
  obtain ⟨xs, hxs, hr'⟩ := of_bind href
  obtain rfl := Option.some.inj hr'
  obtain ⟨d, hd, hrep⟩ := forall₂_getElem? hR hxs
  unfold onDeque
  rw [hd, some_bind]
  exact Ends.bind (hf d xs hxs hrep) fun r hr => Ends.pure ⟨forall₂_set hR hr.1 j, hr.2⟩

theorem onDeque'_ends {f : Deque α → Option (Deque α)} {g : List α → List α}
    (hR : List.Forall₂ Deque.Represents heap refs) (href : onRef refs j (fun xs => (g xs, none)) = some r')
    (hf : ∀ d xs, refs[j]? = some xs → d.Represents xs → Ends (f d) fun r => r.Represents (g xs)) :
    Ends (onDeque' heap j f) fun r => List.Forall₂ Deque.Represents r.1 r'.1 ∧ r.2 = r'.2 :=
  onDeque_ends hR href fun d xs hxs h => (hf d xs hxs h).map fun _ hr => ⟨hr, rfl⟩

theorem dequeStep_ends {op : DequeOp α} (hR : List.Forall₂ Deque.Represents heap refs) (hok : op.Sound refs)
    (href : refStep refs op = some r') :
    Ends (dequeStep heap op) fun r => List.Forall₂ Deque.Represents r.1 r'.1 ∧ r.2 = r'.2 := by
  cases op with
  | init seq bucketSize =>
    rw [refStep] at href
    rw [dequeStep, deqInit]
    by_cases hzero : bucketSize = 0
    · rw [if_pos hzero] at href ⊢
      obtain rfl := Option.some.inj href
      exact Ends.pure ⟨hR, rfl⟩
    · rw [if_neg hzero] at href ⊢
      obtain rfl := Option.some.inj href
      obtain ⟨d, hd, hrep⟩ := pushAll_ends (empty_represents (Nat.pos_of_ne_zero hzero)) seq
      rw [hd]
      exact Ends.pure ⟨List.rel_append hR (List.Forall₂.cons hrep List.Forall₂.nil), rfl⟩
  | pushFront j item => exact onDeque'_ends hR href fun d xs _ h => pushFront_ends h item
  | pushBack j item => exact onDeque'_ends hR href fun d xs _ h => pushBack_ends h item
  | popFront j =>
    refine onDeque_ends hR href fun d xs _ h => ?_
    rw [popFront_eq_pop]
    exact pop_ends h (Or.inl rfl)
  | popBack j => exact onDeque_ends hR href fun d xs _ h => popBack_ends' h
  | insert j index item => exact onDeque'_ends hR href fun d xs hxs h => insert_ends h (hok xs hxs) item
  | pop j index => exact onDeque_ends hR href fun d xs hxs h => pop_ends h (hok xs hxs)
  | pops j index => exact onDeque_ends hR href fun d xs hxs h => pops_ends h (hok xs hxs)
  | erase j index count => exact onDeque'_ends hR href fun d xs hxs h => erase_ends h (hok xs hxs)
  | setitemIndex j index value =>
    exact onDeque'_ends hR href fun d xs _ h => (setitemIndex_ends h index value).map fun _ hr => hr
  | clear j => exact hok.elim
  | assign j k =>
    obtain ⟨other, hother, href⟩ := of_bind href
    obtain ⟨d, hd, hrep⟩ := forall₂_getElem? hR hother
    rw [dequeStep, hd, some_bind]
    exact onDeque'_ends hR href fun _ _ _ _ => copy_ends hrep
  | assignSeq j seq =>
    exact onDeque'_ends hR href fun _ _ _ _ => pushAll_ends (empty_represents (by decide)) seq
  | moveassign j k =>
    have hjk : j = k := hok
    rw [refStep, if_pos hjk] at href
    obtain rfl := Option.some.inj href
    rw [dequeStep, if_pos hjk]
    exact Ends.pure ⟨hR, rfl⟩
  | copy k =>
    obtain ⟨other, hother, href⟩ := of_bind href
    obtain rfl := Option.some.inj href
    obtain ⟨d, hd, hrep⟩ := forall₂_getElem? hR hother
    rw [dequeStep, hd, some_bind]
    exact Ends.bind (copy_ends hrep) fun r hr =>
      Ends.pure ⟨List.rel_append hR (List.Forall₂.cons hr List.Forall₂.nil), rfl⟩

end Step

/-! ### Runs -/

/-- The deque is in order and the items at its positions are `xs`. -/
def Deque.Lists (d : Deque α) (xs : List α) : Prop := d.Ok ∧ d.listing = some xs

/-- After each operation of a run of sound operations, the deques are in order, have the items of the lists of the
reference, and the operation returns what it returns for the lists. -/
theorem deque_refines_list {ops : List (DequeOp α)} {rs' : List (List (List α) × Option α)}
    (hsound : AllSteps (fun refs op => DequeOp.Sound refs op) refStep [] ops) (href : trace refStep [] ops = some rs') :
    Ends (trace dequeStep [] ops) fun rs =>
      List.Forall₂ (fun r r' => List.Forall₂ Deque.Lists r.1 r'.1 ∧ r.2 = r'.2) rs rs' := by
  have hrun := trace_ends (List.Forall₂ Deque.Represents)
    (fun heap refs op r' hR hok href => dequeStep_ends hR hok href) List.Forall₂.nil hsound href
  refine hrun.mono fun rs hrs => hrs.imp fun r r' h => ⟨h.1.imp fun d xs hd => ?_, h.2⟩
  exact ⟨hd.ok, listing_eq hd⟩

/-- Five operations at the ends of a deque with buckets of two cells. -/
theorem deque_refines_list_five :
    trace refStep [] [.init [1, 2, 3] 2, .pushFront 0 0, .insert 0 9 7, .pops 0 (-1), .erase 0 0 2] =
      some [([[1, 2, 3]], none), ([[0, 1, 2, 3]], none), ([[0, 1, 2, 3, 7]], none), ([[0, 1, 2, 3]], some 7),
        ([[2, 3]], none)] ∧
    Ends (trace dequeStep [] [.init [1, 2, 3] 2, .pushFront 0 0, .insert 0 9 7, .pops 0 (-1), .erase 0 0 2]) fun rs =>
      List.Forall₂ (fun r r' => List.Forall₂ Deque.Lists r.1 r'.1 ∧ r.2 = r'.2) rs
        [([[1, 2, 3]], none), ([[0, 1, 2, 3]], none), ([[0, 1, 2, 3, 7]], none), ([[0, 1, 2, 3]], some 7),
          ([[2, 3]], none)] := by
  refine ⟨by decide, deque_refines_list ?_ (by decide)⟩
  simp [AllSteps, refStep, onRef, DequeOp.Sound, refIndex, refPops, refPop]

/-- An item that is inserted before position 1 of four items becomes the first. -/
theorem deque_not_refines_list :
    trace refStep [] [.init [0, 1, 2, 3] 4, .insert 0 1 9] =
      some [([[0, 1, 2, 3]], none), ([[0, 9, 1, 2, 3]], none)] ∧
    ¬ Ends (trace dequeStep [] [.init [0, 1, 2, 3] 4, .insert 0 1 9]) fun rs =>
      List.Forall₂ (fun r r' => List.Forall₂ Deque.Lists r.1 r'.1 ∧ r.2 = r'.2) rs
        [([[0, 1, 2, 3]], none), ([[0, 9, 1, 2, 3]], none)] := by
  refine ⟨by decide, fun h => ?_⟩
  have hrun : trace dequeStep [] [.init [0, 1, 2, 3] 4, .insert 0 1 9] =
      some [([⟨[[none, none, some 0, some 1], [some 2, some 3, none, none]], 4, 2, 2, 2, 4⟩], none),
        ([⟨[[none, some 9, some 0, some 1], [some 2, some 3, none, none]], 5, 1, 3, 2, 4⟩], none)] := by decide
  obtain _ | ⟨-, hrest⟩ := h.of_eq hrun
  obtain _ | ⟨hlast, -⟩ := hrest
  obtain _ | ⟨hlists, -⟩ := hlast.1
  exact absurd hlists.2 (by decide)

end Deemon.Collections
