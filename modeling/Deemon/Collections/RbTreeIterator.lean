import Deemon.Collections.RbTree

/-!
# Iterators of an `RBTree`

An iterator points to the node that comes next, `NULL` at the end. In the middle of a tree its operations move as
their names say. Around the ends some do not: from the end, `revert` and `prev` go to the first node, `revert` at the
first node goes to the end, `advance` does not count, and `bool` is about the node after the next one.
-/

namespace Deemon.Collections

open Deemon.Run Deemon.LinkedTree

variable {K V : Type}

/-- `struct rbtree_iterator_object`, of a tree that is known. -/
structure RBTreeIterator where
  rbtiVersion : ℕ
  rbtiNext : Option ℕ
  deriving DecidableEq

/-- What `next` and `prev` return: the items of a tuple, `ITER_DONE`, or `NULL`. -/
inductive IterItem (K V : Type) where
  | item (minkey maxkey : K) (value : V)
  | iterDone
  | null
  deriving DecidableEq

/-! ### Operations -/

section Operations

variable (heap : NodeHeap K V) (tree : RBTree) (self : RBTreeIterator)

/-- `rbtreeiter_mh_iter_getindex`. -/
def rbtreeiterMhIterGetindex : Option ℕ :=
  if self.rbtiVersion ≠ tree.rbtVersion then some 0
  else
    match self.rbtiNext with
    | none =>
      match tree.rbtRoot with
      | some root => rbtreeNodeCount heap root
      | none => some 0
    | some node =>
      loop (fun (node, result) => do
        match ← rbtreeAbiPrevnode heap node with
        | some node => some (.next (node, result + 1))
        | none => some (.done result)) (heap.length + 1) (node, 0)

/-- `for (; step; --step) if ((node = nextnode(node)) == NULL) break;`, the node and what is left of `step`. -/
def skipNodes (node step : ℕ) : Option (Option ℕ × ℕ) :=
  loop (fun (node, step) =>
    if step = 0 then some (.done (some node, step))
    else do
      match ← rbtreeAbiNextnode heap node with
      | some node => some (.next (node, step - 1))
      | none => some (.done (none, step))) (heap.length + 1) (node, step)

/-- `rbtreeiter_mh_iter_setindex`. -/
def rbtreeiterMhIterSetindex (newIndex : ℕ) : Option RBTreeIterator :=
  match tree.rbtRoot with
  | none => some ⟨tree.rbtVersion, none⟩
  | some root => do
    let node ← firstBelow heap root
    let (node, _) ← skipNodes heap node newIndex
    some ⟨tree.rbtVersion, node⟩

/-- `while (--step) { … }` of `revert`: back by one node each round, until the first one. -/
def revertNodes (newNode : Option ℕ) (step : ℕ) : Option (Option ℕ × ℕ) :=
  loop (fun (newNode, step) =>
    if step - 1 = 0 then some (.done (newNode, step - 1))
    else do
      match ← rbtreeAbiPrevnode heap (← newNode) with
      | some prev => some (.next (some prev, step - 1))
      | none => some (.done (newNode, step - 1))) (heap.length + 1) (newNode, step)

/-- The node before the one of the iterator, or the one that is selected at the end; the inner `none` is an empty
tree. -/
def oldToNew : Option (Option (Option ℕ)) :=
  match self.rbtiNext with
  | some oldNode => do some (some (← rbtreeAbiPrevnode heap oldNode))
  | none =>
    match tree.rbtRoot with
    | none => some none
    | some root => do some (some (some (← firstBelow heap root)))

/-- `rbtreeiter_mh_iter_revert`; the inner `none` is the error for a changed tree. -/
def rbtreeiterMhIterRevert (step : ℕ) : Option (Option ℕ × RBTreeIterator) := do
  if step = 0 then some (some 0, self)
  else if self.rbtiVersion ≠ tree.rbtVersion then some (none, self)
  else
    match ← oldToNew heap tree self with
    | none => some (some 0, self)
    | some newNode => do
      let (newNode, rest) ← revertNodes heap newNode step
      some (some (step - rest), { self with rbtiNext := newNode })

/-- `rbtreeiter_mh_iter_advance`. -/
def rbtreeiterMhIterAdvance (step : ℕ) : Option (Option ℕ × RBTreeIterator) :=
  if self.rbtiVersion ≠ tree.rbtVersion then some (none, self)
  else
    match self.rbtiNext with
    | none => some (some 0, self)
    | some oldNode => do
      let (node, _) ← skipNodes heap oldNode step
      -- `result -= step` is not what is returned
      some (some 0, { self with rbtiNext := node })

/-- The items of a node. -/
def nodeItems (node : ℕ) : Option (IterItem K V) := do
  let n ← heap[node]?
  some (.item n.rbtnMinkey n.rbtnMaxkey n.rbtnValue)

/-- `rbtreeiter_mh_iter_prev`. -/
def rbtreeiterMhIterPrev : Option (IterItem K V × RBTreeIterator) := do
  if self.rbtiVersion ≠ tree.rbtVersion then some (.null, self)
  else
    match ← oldToNew heap tree self with
    | none => some (.null, self)
    | some newNode => do
      let items ← nodeItems heap (← newNode)
      some (items, { self with rbtiNext := newNode })

/-- `rbtreeiter_bool`; -1 is the error for a changed tree. -/
def rbtreeiterBool : Option ℤ :=
  if self.rbtiVersion ≠ tree.rbtVersion then some (-1)
  else
    match self.rbtiNext with
    | none => some 0
    | some node => do
      match ← rbtreeAbiNextnode heap node with
      | some _ => some 1
      | none => some 0

/-- `rbtreeiter_next`. -/
def rbtreeiterNext : Option (IterItem K V × RBTreeIterator) :=
  if self.rbtiVersion ≠ tree.rbtVersion then some (.null, self)
  else
    match self.rbtiNext with
    | none => some (.iterDone, self)
    | some oldNode => do
      let node ← rbtreeAbiNextnode heap oldNode
      let items ← nodeItems heap oldNode
      some (items, { self with rbtiNext := node })

end Operations

/-! ### Positions -/

/-- The iterator at a position of the tree, the end for its number of nodes. -/
def iterAt (tree : RBTree) (t : Shape ℕ) (p : ℕ) : RBTreeIterator := ⟨tree.rbtVersion, t.addrs[p]?⟩

/-- The items of the node at a position. -/
def itemsAt (heap : NodeHeap K V) (t : Shape ℕ) (p : ℕ) : Option (IterItem K V) := t.addrs[p]?.bind (nodeItems heap)

/-- What the operations do at a position. -/
structure PositionLaws (heap : NodeHeap K V) (tree : RBTree) (t : Shape ℕ) (p : ℕ) : Prop where
  getindex : rbtreeiterMhIterGetindex heap tree (iterAt tree t p) = some p
  setindex : ∀ i, rbtreeiterMhIterSetindex heap tree i = some (iterAt tree t (min i t.addrs.length))
  advance : ∀ step, Ends (rbtreeiterMhIterAdvance heap tree (iterAt tree t p) step) fun r =>
    r.1.isSome ∧ r.2 = iterAt tree t (min (p + step) t.addrs.length)
  revert : ∀ step, 0 < p → p < t.addrs.length → rbtreeiterMhIterRevert heap tree (iterAt tree t p) step =
    some (some (min step p), iterAt tree t (p - step))
  prev : 0 < p → p < t.addrs.length → Ends (rbtreeiterMhIterPrev heap tree (iterAt tree t p)) fun r =>
    some r.1 = itemsAt heap t (p - 1) ∧ r.2 = iterAt tree t (p - 1)
  bool_end : p = t.addrs.length → rbtreeiterBool heap tree (iterAt tree t p) = some 0
  bool_next : p + 1 < t.addrs.length → rbtreeiterBool heap tree (iterAt tree t p) = some 1
  next : p < t.addrs.length → Ends (rbtreeiterNext heap tree (iterAt tree t p)) fun r =>
    some r.1 = itemsAt heap t p ∧ r.2 = iterAt tree t (p + 1)
  next_end : p = t.addrs.length → rbtreeiterNext heap tree (iterAt tree t p) = some (.iterDone, iterAt tree t p)

section Laws

variable {heap : NodeHeap K V} {tree : RBTree} {t : Shape ℕ} {root : Option ℕ} {p i a step fuel : ℕ}

theorem getElem_min (l : List ℕ) (i : ℕ) : l[min i l.length]? = l[i]? := by
  by_cases h : i < l.length
  · rw [min_eq_left h.le]
  · rw [min_eq_right (not_lt.mp h), List.getElem?_eq_none le_rfl, List.getElem?_eq_none (not_lt.mp h)]

theorem iterAt_min (i : ℕ) : iterAt tree t (min i t.addrs.length) = iterAt tree t i := by
  rw [iterAt, iterAt, getElem_min]

theorem IsTree.nodeItems (h : IsTree heap root t) (ha : t.addrs[p]? = some a) :
    Ends (nodeItems heap a) fun items => some items = itemsAt heap t p := by
  obtain ⟨n, hn⟩ : ∃ n, heap[a]? = some n :=
    ⟨_, List.getElem?_eq_getElem (Linked.lt_length h.linked a (List.mem_of_getElem? ha))⟩
  refine ⟨_, by rw [Collections.nodeItems, hn, some_bind], ?_⟩
  rw [itemsAt, ha, Option.bind_some, Collections.nodeItems, hn, some_bind]

section Rounds

variable (h : IsTree heap root t) (ha : t.addrs[i]? = some a)
include h ha

/-- Counting back to the first node. -/
theorem getindex_rounds (hfuel : i < fuel) (k : ℕ) :
    loop (fun (node, result) => do
      match ← rbtreeAbiPrevnode heap node with
      | some node => some (Step.next (node, result + 1))
      | none => some (.done result)) fuel (a, k) = some (k + i) := by
  induction i generalizing a fuel k with
  | zero =>
    obtain ⟨fuel, rfl⟩ : ∃ k, fuel = k + 1 := ⟨fuel - 1, by omega⟩
    refine loop_done ?_
    dsimp only
    rw [h.prevnode ha, if_pos rfl, some_bind]
    rfl
  | succ i ih =>
    obtain ⟨fuel, rfl⟩ : ∃ k, fuel = k + 1 := ⟨fuel - 1, by omega⟩
    have hi := (List.getElem?_eq_some_iff.mp ha).1
    obtain ⟨b, hb⟩ : ∃ b, t.addrs[i]? = some b := ⟨_, List.getElem?_eq_getElem (by omega)⟩
    refine (loop_next (?_ : _ = some (Step.next (b, k + 1)))).trans ((ih hb (by omega) (k + 1)).trans ?_)
    · dsimp only
      rw [h.prevnode ha, if_neg (Nat.succ_ne_zero i), Nat.add_sub_cancel, hb, some_bind]
    · rw [Nat.add_right_comm, Nat.add_assoc]

/-- Skipping goes on for `step` nodes, or to the end. -/
theorem skip_rounds (hfuel : t.addrs.length - i < fuel) :
    Ends (loop (fun (node, step) =>
      if step = 0 then some (Step.done (some node, step))
      else do
        match ← rbtreeAbiNextnode heap node with
        | some node => some (.next (node, step - 1))
        | none => some (.done (none, step))) fuel (a, step)) fun r => r.1 = t.addrs[i + step]? := by
  induction fuel generalizing a i step with
  | zero => omega
  | succ fuel ih =>
    have hi := (List.getElem?_eq_some_iff.mp ha).1
    cases step with
    | zero =>
      refine ⟨(some a, 0), loop_done ?_, by rw [Nat.add_zero, ha]⟩
      dsimp only
      rw [if_pos rfl]
    | succ step =>
      have hnext := h.nextnode ha
      cases hb : t.addrs[i + 1]? with
      | none =>
        rw [hb] at hnext
        refine ⟨(none, step + 1), loop_done ?_, ?_⟩
        · dsimp only
          rw [if_neg (Nat.succ_ne_zero step), hnext, some_bind]
        · have hend := List.getElem?_eq_none_iff.mp hb
          exact (List.getElem?_eq_none (by omega)).symm
      | some b =>
        rw [hb] at hnext
        obtain ⟨r, hr, heq⟩ := @ih (i + 1) b step hb (by omega)
        refine ⟨r, (loop_next (?_ : _ = some (Step.next (b, step)))).trans hr, ?_⟩
        · dsimp only
          rw [if_neg (Nat.succ_ne_zero step), hnext, some_bind, Nat.add_sub_cancel]
        · exact heq.trans (by rw [Nat.add_right_comm, Nat.add_assoc])

theorem IsTree.skipNodes (step : ℕ) : Ends (skipNodes heap a step) fun r => r.1 = t.addrs[i + step]? := by
  have hle := h.length_le
  exact skip_rounds h ha (by omega)

/-- Reverting goes back by one node less than `step`, or to the first one. -/
theorem revert_rounds (hfuel : i < fuel) (hstep : 0 < step) :
    loop (fun (newNode, step) =>
      if step - 1 = 0 then some (Step.done (newNode, step - 1))
      else do
        match ← rbtreeAbiPrevnode heap (← newNode) with
        | some prev => some (.next (some prev, step - 1))
        | none => some (.done (newNode, step - 1))) fuel (some a, step) =
      some (t.addrs[i - (step - 1)]?, step - min step (i + 1)) := by
  induction i generalizing a fuel step with
  | zero =>
    obtain ⟨fuel, rfl⟩ : ∃ k, fuel = k + 1 := ⟨fuel - 1, by omega⟩
    rw [Nat.zero_sub, ha, min_eq_right hstep]
    refine loop_done ?_
    dsimp only
    by_cases hone : step - 1 = 0
    · rw [if_pos hone]
    · rw [if_neg hone, some_bind, h.prevnode ha, if_pos rfl, some_bind]
  | succ i ih =>
    obtain ⟨fuel, rfl⟩ : ∃ k, fuel = k + 1 := ⟨fuel - 1, by omega⟩
    by_cases hone : step - 1 = 0
    · obtain rfl : step = 1 := by omega
      rw [show i + 1 - (1 - 1) = i + 1 by omega, ha, min_eq_left (by omega)]
      refine loop_done ?_
      dsimp only
      rw [if_pos rfl]
    · have hi := (List.getElem?_eq_some_iff.mp ha).1
      obtain ⟨b, hb⟩ : ∃ b, t.addrs[i]? = some b := ⟨_, List.getElem?_eq_getElem (by omega)⟩
      refine (loop_next (?_ : _ = some (Step.next (some b, step - 1)))).trans ((ih hb (by omega) (by omega)).trans ?_)
      · dsimp only
        rw [if_neg hone, some_bind, h.prevnode ha, if_neg (Nat.succ_ne_zero i), Nat.add_sub_cancel, hb, some_bind]
      · rw [show i - (step - 1 - 1) = i + 1 - (step - 1) by omega,
          show step - 1 - min (step - 1) (i + 1) = step - min step (i + 1 + 1) by omega]

end Rounds

theorem IsTree.oldToNew {b : ℕ} (h : IsTree heap root t) (ha : t.addrs[p]? = some a) (hb : t.addrs[p - 1]? = some b)
    (hpos : 0 < p) : oldToNew heap tree (iterAt tree t p) = some (some (some b)) := by
  unfold Collections.oldToNew iterAt
  dsimp only
  rw [ha]
  dsimp only
  rw [h.prevnode ha, if_neg (by omega), hb, some_bind]

/-- The positions that the operations move to, in every tree. -/
theorem positionLaws (h : IsTree heap tree.rbtRoot t) (hp : p ≤ t.addrs.length) : PositionLaws heap tree t p := by
  have hle := h.length_le
  have hsome : p < t.addrs.length → ∃ a, t.addrs[p]? = some a := fun hlt => ⟨_, List.getElem?_eq_getElem hlt⟩
  have hend : p = t.addrs.length → t.addrs[p]? = none := fun heq => List.getElem?_eq_none heq.ge
  have hversion : ¬(iterAt tree t p).rbtiVersion ≠ tree.rbtVersion := fun hne => hne rfl
  constructor
  · unfold rbtreeiterMhIterGetindex iterAt
    rw [if_neg (not_not.mpr rfl)]
    rcases hp.lt_or_eq with hlt | heq
    · obtain ⟨a, ha⟩ := hsome hlt
      dsimp only
      rw [ha]
      dsimp only
      rw [getindex_rounds h ha (by omega), Nat.zero_add]
    · dsimp only
      rw [hend heq]
      dsimp only
      cases hroot : tree.rbtRoot with
      | none =>
        rw [heq, Shape.eq_leaf (h.root_eq.symm.trans hroot)]
        rfl
      | some root =>
        dsimp only
        rw [heq]
        exact IsTree.count (hroot ▸ h)
  · intro i
    unfold rbtreeiterMhIterSetindex
    rw [iterAt_min]
    cases hroot : tree.rbtRoot with
    | none =>
      rw [iterAt, Shape.eq_leaf (h.root_eq.symm.trans hroot)]
      rfl
    | some root =>
      have htree : IsTree heap (some root) t := hroot ▸ h
      obtain ⟨a, ha⟩ : ∃ a, t.addrs[0]? = some a :=
        ⟨_, List.getElem?_eq_getElem (List.length_pos_iff.mpr (Shape.addrs_ne_nil htree.root_eq.symm))⟩
      obtain ⟨⟨node, rest⟩, hskip, rfl⟩ := htree.skipNodes ha i
      dsimp only
      rw [htree.firstBelow, ha, some_bind, hskip, some_bind, iterAt, Nat.zero_add]
  · intro step
    unfold rbtreeiterMhIterAdvance iterAt
    rw [if_neg (not_not.mpr rfl)]
    rcases hp.lt_or_eq with hlt | heq
    · obtain ⟨a, ha⟩ := hsome hlt
      obtain ⟨⟨node, rest⟩, hskip, rfl⟩ := h.skipNodes ha step
      dsimp only
      rw [ha]
      dsimp only
      rw [hskip, some_bind]
      exact Ends.pure ⟨rfl, by rw [getElem_min]⟩
    · dsimp only
      rw [hend heq]
      refine Ends.pure ⟨rfl, ?_⟩
      rw [min_eq_right (by omega), ← heq, hend heq]
  · intro step hpos hlt
    obtain ⟨a, ha⟩ := hsome hlt
    obtain ⟨b, hb⟩ : ∃ b, t.addrs[p - 1]? = some b := ⟨_, List.getElem?_eq_getElem (by omega)⟩
    unfold rbtreeiterMhIterRevert
    by_cases hzero : step = 0
    · rw [if_pos hzero, hzero, Nat.zero_min, Nat.sub_zero]
    · have hrounds : revertNodes heap (some b) step = some (t.addrs[p - 1 - (step - 1)]?, step - min step (p - 1 + 1)) :=
        revert_rounds h hb (by omega) (by omega)
      rw [if_neg hzero, if_neg hversion, h.oldToNew ha hb hpos, some_bind]
      dsimp only
      rw [hrounds, some_bind]
      dsimp only [iterAt]
      rw [show p - 1 - (step - 1) = p - step by omega, show step - (step - min step (p - 1 + 1)) = min step p by omega]
  · intro hpos hlt
    obtain ⟨a, ha⟩ := hsome hlt
    obtain ⟨b, hb⟩ : ∃ b, t.addrs[p - 1]? = some b := ⟨_, List.getElem?_eq_getElem (by omega)⟩
    obtain ⟨items, hitems, heq⟩ := h.nodeItems hb
    unfold rbtreeiterMhIterPrev
    rw [if_neg hversion, h.oldToNew ha hb hpos, some_bind]
    dsimp only
    rw [some_bind, hitems, some_bind]
    exact Ends.pure ⟨heq, by simp only [iterAt, hb]⟩
  · intro heq
    unfold rbtreeiterBool iterAt
    rw [if_neg (not_not.mpr rfl)]
    dsimp only
    rw [hend heq]
  · intro hlt
    obtain ⟨a, ha⟩ := hsome (by omega)
    unfold rbtreeiterBool iterAt
    rw [if_neg (not_not.mpr rfl)]
    dsimp only
    rw [ha]
    dsimp only
    rw [h.nextnode ha, List.getElem?_eq_getElem hlt, some_bind]
  · intro hlt
    obtain ⟨a, ha⟩ := hsome hlt
    obtain ⟨items, hitems, heq⟩ := h.nodeItems ha
    unfold rbtreeiterNext iterAt
    rw [if_neg (not_not.mpr rfl)]
    dsimp only
    rw [ha]
    dsimp only
    rw [h.nextnode ha, some_bind, hitems, some_bind]
    exact Ends.pure ⟨heq, rfl⟩
  · intro heq
    unfold rbtreeiterNext iterAt
    rw [if_neg (not_not.mpr rfl)]
    dsimp only
    rw [hend heq]

end Laws

/-- A tree of three nodes. -/
def threeNodes : NodeHeap ℕ ℕ :=
  [⟨some 1, none, none, 0, 9, 5, true⟩, ⟨none, some 0, some 2, 10, 19, 6, false⟩,
    ⟨some 1, none, none, 20, 29, 7, true⟩]

/-- The shape of the three nodes. -/
def threeShape : Shape ℕ := .node (.node .leaf 0 .leaf) 1 (.node .leaf 2 .leaf)

theorem isTree_threeNodes : IsTree threeNodes (some 1) threeShape :=
  ⟨rfl, ⟨rfl, ⟨rfl, trivial, trivial⟩, ⟨rfl, trivial, trivial⟩⟩, by decide⟩

theorem positionLaws_threeNodes :
    IsTree threeNodes (some 1) threeShape ∧ 1 ≤ threeShape.addrs.length ∧
      PositionLaws threeNodes ⟨some 1, 0⟩ threeShape 1 :=
  ⟨isTree_threeNodes, by decide, positionLaws isTree_threeNodes (by decide)⟩

/-- `revert` counts nodes, which is not whether the start has been reached. From the end it goes to the first node, as
`prev` does, and from the first node to the end. `advance` returns 0 for a node that it skips, and `bool` is false at
the last node. -/
theorem positions_fail : IsTree threeNodes (some 1) threeShape ∧
    rbtreeiterMhIterRevert threeNodes ⟨some 1, 0⟩ (iterAt ⟨some 1, 0⟩ threeShape 2) 1 =
      some (some 1, iterAt ⟨some 1, 0⟩ threeShape 1) ∧
    rbtreeiterMhIterRevert threeNodes ⟨some 1, 0⟩ (iterAt ⟨some 1, 0⟩ threeShape 3) 1 =
      some (some 1, iterAt ⟨some 1, 0⟩ threeShape 0) ∧
    rbtreeiterMhIterRevert threeNodes ⟨some 1, 0⟩ (iterAt ⟨some 1, 0⟩ threeShape 0) 1 =
      some (some 1, iterAt ⟨some 1, 0⟩ threeShape 3) ∧
    rbtreeiterMhIterAdvance threeNodes ⟨some 1, 0⟩ (iterAt ⟨some 1, 0⟩ threeShape 0) 1 =
      some (some 0, iterAt ⟨some 1, 0⟩ threeShape 1) ∧
    rbtreeiterMhIterPrev threeNodes ⟨some 1, 0⟩ (iterAt ⟨some 1, 0⟩ threeShape 3) =
      some (.item 0 9 5, iterAt ⟨some 1, 0⟩ threeShape 0) ∧
    rbtreeiterBool threeNodes ⟨some 1, 0⟩ (iterAt ⟨some 1, 0⟩ threeShape 2) = some 0 :=
  ⟨isTree_threeNodes, by decide, by decide, by decide, by decide, by decide, by decide⟩

end Deemon.Collections
