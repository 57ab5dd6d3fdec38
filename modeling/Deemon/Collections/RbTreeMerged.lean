import Deemon.Collections.KeyAdjacent
import Deemon.Collections.RbTreeSetrange
import Deemon.Lib.Simulation
import Mathlib.Data.Int.SuccPred

/-!
# Runs of an `RBTree` with integer keys

In an `RBTree` with integers for keys `rbtree_setrange` merges a new node with its neighbours, so that no two neighbours
with one value touch. It does not do so where the range covers all nodes that it overlaps with, and not below zero, as
`int_a_plus_1_equals_b` does not find the successors of negative numbers. In runs without these cases, and with ranges
that are not reversed, the tree stays merged.
-/

namespace Deemon.Collections

open Deemon.Run Deemon.LinkedTree Deemon.RangeMap Deemon.Int Deemon.Simulation

variable {V : Type}

/-! ### Operations -/

/-- `key_supports_adjacent` and `key_adjacent` where all keys are integers. -/
def intKeyOps : AdjacencyOps ℤ where
  supportsAdjacent _ := true
  adjacent a b := do intAPlus1EqualsB (← newSigned a) (← newSigned b)

/-- `rb[minkey:maxkey] = value` and `del rb[minkey:maxkey]`. -/
inductive RangeOp (V : Type) where
  | setrange (range : KeyRange ℤ) (value : V)
  | delrange (range : KeyRange ℤ)

variable [DecidableEq V]

/-- One operation on a tree. -/
def rangeStep (abi : RbtreeAbi ℤ V) (s : TreeState ℤ V) : RangeOp V → Option (TreeState ℤ V × Unit)
  | .setrange range value => do
    let (heap, tree) ← rbtreeSetrange abi intKeyOps s.heap s.tree range value
    some (⟨heap, tree⟩, ())
  | .delrange range => do
    let (heap, tree) ← rbtreeDelrange abi s.heap s.tree range
    some (⟨heap, tree⟩, ())

omit [DecidableEq V] in
/-- No two neighbouring nodes have one value and touch. -/
def TreeState.IsMerged (s : TreeState ℤ V) : Prop :=
  s.entries.IsChain fun x y => ¬(x.value = y.value ∧ x.hi + 1 = y.lo)

/-- `int_a_plus_1_equals_b` tells whether `b` is the next number after `a`. -/
def AdjacencyFound (a b : ℤ) : Prop := ¬(a < 0 ∧ a + 1 = b) ∧ ¬(a = -(2 ^ 30 - 1) ∧ b = 0)

instance (a b : ℤ) : Decidable (AdjacencyFound a b) := inferInstanceAs (Decidable (_ ∧ _))

/-- What a new node for a range needs of the key `a` before the key `b`, where one of them is its own and the other one
that of a neighbour with its value: a node that is written over is not merged. -/
def MayMeet (range : KeyRange ℤ) (E : List (Entry ℤ V)) (a b : ℤ) : Prop :=
  if Covers range.minkey range.maxkey E then a + 1 ≠ b else AdjacencyFound a b

omit [DecidableEq V] in
instance (range : KeyRange ℤ) (E : List (Entry ℤ V)) (a b : ℤ) : Decidable (MayMeet range E a b) :=
  inferInstanceAs (Decidable (if Covers range.minkey range.maxkey E then a + 1 ≠ b else AdjacencyFound a b))

omit [DecidableEq V] in
/-- The operations that the tree stays merged in: the range is not reversed, and the new node may meet its neighbours. -/
def KeepsMerged (s : TreeState ℤ V) : RangeOp V → Prop
  | .setrange range value => range.minkey ≤ range.maxkey ∧
    (∀ p ∈ (below range.minkey s.entries).getLast?, p.value = value → MayMeet range s.entries p.hi range.minkey) ∧
    ∀ n ∈ (above range.maxkey s.entries).head?, n.value = value → MayMeet range s.entries range.maxkey n.lo
  | .delrange range => range.minkey ≤ range.maxkey

instance decidableKeepsMerged (s : TreeState ℤ V) : ∀ op : RangeOp V, Decidable (KeepsMerged s op)
  | .setrange _ _ => inferInstanceAs (Decidable (_ ∧ _ ∧ _))
  | .delrange _ => inferInstanceAs (Decidable (_ ≤ _))

/-! ### Steps -/

section Steps

variable {RedBlack : Nodes ℤ V → Prop} {abi : RbtreeAbi ℤ V} {s : TreeState ℤ V} {L : List (ℕ × Entry ℤ V)} {a b : ℤ}

/-- Where the test finds all successors it decides whether two keys touch. -/
theorem intKeyOps_adjacent (hlt : a < b) (h : AdjacencyFound a b) :
    intKeyOps.adjacent a b = some (decide (a + 1 = b)) := by
  obtain ⟨x, hx, hxc, rfl⟩ := newSigned_ends a
  obtain ⟨y, hy, hyc, rfl⟩ := newSigned_ends b
  obtain ⟨r, hr, hiff⟩ := intAPlus1EqualsB_ends hxc hyc hlt h.2
  have hneg := h.1
  have hr' : r = decide (x.toInt + 1 = y.toInt) := by
    rw [Bool.eq_iff_iff, hiff, decide_eq_true_iff]
    omega
  unfold intKeyOps
  dsimp only
  rw [hx, hy, some_bind, some_bind, hr, hr']

omit [DecidableEq V] in
theorem known_intKeyOps {x y : Entry ℤ V} (key : ℤ) (hlt : x.hi < y.lo)
    (h : x.value = y.value → AdjacencyFound x.hi y.lo) : Known intKeyOps (fun a b => decide (a + 1 = b)) key x y := by
  intro hvalue
  have hsupports : intKeyOps.supportsAdjacent key = true := rfl
  rw [if_pos hsupports, intKeyOps_adjacent hlt (h hvalue)]

/-- The nodes make up a tree with ranges in order, none of which could be merged with the next one. -/
structure TreeState.Inv (RedBlack : Nodes ℤ V → Prop) (s : TreeState ℤ V) : Prop where
  rows : ∃ L, Rows RedBlack ⟨s.heap, s.tree.rbtRoot⟩ L
  ordered : Ordered s.entries
  merged : Merged s.entries

omit [DecidableEq V] in
theorem TreeState.Inv.isMerged (h : s.Inv RedBlack) : s.IsMerged := h.merged

omit [DecidableEq V] in
theorem TreeState.inv_new (habi : abi.Correct RedBlack) : (TreeState.new : TreeState ℤ V).Inv RedBlack := by
  refine ⟨⟨[], habi.empty _, ⟨.leaf, ⟨rfl, trivial, List.nodup_nil⟩, rfl⟩, by simp⟩, ?_, ?_⟩
  · exact Ordered.nil
  · exact List.isChain_nil

/-- Setting a range keeps the tree merged where the new node may meet its neighbours. -/
theorem setrange_inv (habi : abi.Correct RedBlack) {range : KeyRange ℤ} {value : V} (h : s.Inv RedBlack)
    (hop : KeepsMerged s (.setrange range value)) :
    Ends (rangeStep abi s (.setrange range value)) fun r => r.1.Inv RedBlack := by
  obtain ⟨L, hrows⟩ := h.rows
  obtain ⟨hle, hprev, hnext⟩ := hop
  have hordered := h.ordered
  have hbelow := merged_below hordered h.merged (a := range.minkey)
  have habove := merged_above hordered h.merged (b := range.maxkey)
  have hprevlt : ∀ p ∈ (below range.minkey s.entries).getLast?, p.hi < range.minkey := fun p hp =>
    (mem_below hordered (List.mem_of_mem_getLast? hp)).2.1
  have hnextlt : ∀ n ∈ (above range.maxkey s.entries).head?, range.maxkey < n.lo := fun n hn =>
    (mem_above hordered (List.mem_of_mem_head? hn)).2.1
  have hentries := hrows.entries_eq
  unfold rangeStep
  have hknown : ¬Covers range.minkey range.maxkey (L.map Prod.snd) →
      KnownAt intKeyOps (fun a b => decide (a + 1 = b)) ⟨range.minkey, range.maxkey, value⟩ (L.map Prod.snd) := by
    rw [← hentries]
    intro hcov
    constructor
    · intro p hp
      refine known_intKeyOps _ (hprevlt p hp) fun hvalue => ?_
      have hmeet := hprev p hp hvalue
      rwa [MayMeet, if_neg hcov] at hmeet
    · intro n hn
      refine known_intKeyOps _ (hnextlt n hn) fun hvalue => ?_
      have hmeet := hnext n hn hvalue.symm
      rwa [MayMeet, if_neg hcov] at hmeet
  refine (rbtreeSetrange_ends hrows habi (hentries ▸ hordered) hle value hknown).bind ?_
  rintro ⟨heap, tree⟩ ⟨L', hrows', hmap⟩
  refine Ends.pure ⟨⟨L', hrows'⟩, ?_, ?_⟩
  · rw [Rows.entries_eq (s := ⟨heap, tree⟩) hrows', hmap, ← hentries]
    exact ordered_setEntries hordered hle
  · rw [Rows.entries_eq (s := ⟨heap, tree⟩) hrows', hmap, ← hentries, setEntries]
    split_ifs with hcov
    · refine merged_between hbelow habove (fun p hp hjoined => ?_) fun n hn hjoined => ?_
      · have hmeet := hprev p hp hjoined.1
        rw [MayMeet, if_pos hcov] at hmeet
        exact hmeet hjoined.2
      · have hmeet := hnext n hn hjoined.1.symm
        rw [MayMeet, if_pos hcov] at hmeet
        exact hmeet hjoined.2
    · exact merged_insertMerged _ hbelow habove (fun p _ _ => decide_eq_true_iff) fun n _ _ => decide_eq_true_iff

/-- Deleting a range keeps the tree merged. -/
theorem delrange_inv (habi : abi.Correct RedBlack) {range : KeyRange ℤ} (h : s.Inv RedBlack)
    (hle : range.minkey ≤ range.maxkey) : Ends (rangeStep abi s (.delrange range)) fun r => r.1.Inv RedBlack := by
  obtain ⟨L, hrows⟩ := h.rows
  have hentries := hrows.entries_eq
  unfold rangeStep
  refine (rbtreeDelrange_ends hrows habi (hentries ▸ h.ordered) hle).bind ?_
  rintro ⟨heap, tree⟩ ⟨L', hrows', hmap⟩
  have heq : TreeState.entries ⟨heap, tree⟩ = _ := (Rows.entries_eq (s := ⟨heap, tree⟩) hrows').trans hmap
  rw [← hentries] at heq
  exact Ends.pure ⟨⟨L', hrows'⟩, heq ▸ h.ordered.remove hle, heq ▸ merged_remove h.ordered h.merged hle⟩

end Steps

/-! ### A tree without balancing -/

section Spine

variable {K W : Type} {heap : NodeHeap K W} {l : List ℕ} {par : Option ℕ} {a x : ℕ}

/-- The tree in which each node is the right child of the one before. -/
def spineShape : List ℕ → Shape ℕ
  | [] => .leaf
  | a :: rest => .node .leaf a (spineShape rest)

/-- Links nodes as black ones, each of them as the right child of the one before. -/
def linkSpine (heap : NodeHeap K W) (par : Option ℕ) : List ℕ → NodeHeap K W
  | [] => heap
  | a :: rest => (linkSpine heap (some a) rest).modify a fun n =>
      { n with rbtnPar := par, rbtnLhs := none, rbtnRhs := rest.head?, rbtnRed := false }

theorem spineShape_addrs : (spineShape l).addrs = l := by
  induction l with
  | nil => rfl
  | cons a rest ih => rw [spineShape, Shape.addrs, ih, Shape.addrs, List.nil_append]

theorem spineShape_root : (spineShape l).root = l.head? := by
  cases l <;> rfl

theorem linkSpine_of_notMem (h : x ∉ l) : (linkSpine heap par l)[x]? = heap[x]? := by
  induction l generalizing par with
  | nil => rfl
  | cons a rest ih =>
    rw [List.mem_cons, not_or] at h
    rw [linkSpine, getElem_modify_ne h.1, ih h.2]

theorem linkSpine_sameEntries : SameEntries heap (linkSpine heap par l) := by
  induction l generalizing par with
  | nil => exact fun _ => rfl
  | cons a rest ih =>
    intro x
    have hrest : entryAt (linkSpine heap (some a) rest) x = entryAt heap x := ih x
    rw [linkSpine, ← hrest, entryAt, entryAt]
    by_cases hx : x = a
    · subst hx
      cases hn : (linkSpine heap (some x) rest)[x]? with
      | none => rw [List.getElem?_modify_eq, hn]; rfl
      | some n => rw [getElem_modify_self hn]; rfl
    · rw [getElem_modify_ne hx]

theorem linkSpine_linked (hnodup : l.Nodup) (hlt : ∀ a ∈ l, a < heap.length) :
    Linked (linkSpine heap par l).links par (spineShape l) := by
  induction l generalizing par with
  | nil => trivial
  | cons a rest ih =>
    obtain ⟨hnot, hrest⟩ := List.nodup_cons.mp hnodup
    have ha := hlt a List.mem_cons_self
    have hn : (linkSpine heap (some a) rest)[a]? = some heap[a] := by
      rw [linkSpine_of_notMem hnot, List.getElem?_eq_getElem ha]
    refine ⟨?_, trivial, ?_⟩
    · rw [NodeHeap.links, linkSpine, getElem_modify_self hn, spineShape_root]
      rfl
    · refine (ih hrest fun x hx => hlt x (List.mem_cons_of_mem a hx)).congr fun x hx => ?_
      rw [spineShape_addrs] at hx
      have hne : x ≠ a := by
        rintro rfl
        exact hnot hx
      rw [NodeHeap.links, linkSpine, getElem_modify_ne hne, NodeHeap.links]

/-- Nodes stay where they are linked in. To take one out, the others are linked anew. -/
def spineAbi : RbtreeAbi K W where
  insertRepair s _ _ := some s
  removenode s node :=
    let rest := (inorder s.heap.links (s.heap.length + 1) s.root).erase node
    some ⟨linkSpine s.heap none rest, rest.head?⟩

theorem spineAbi_correct : (spineAbi : RbtreeAbi K W).Correct fun _ => True where
  empty _ := trivial
  single _ _ _ _ := trivial
  frame _ _ _ _ := trivial
  insertRepair _ _ _ _ _ _ _ htree _ _ _ := Ends.pure ⟨trivial, fun _ => rfl, _, htree, rfl⟩
  removenode s t pre node post _ htree haddrs := by
    have hnodup := htree.nodup
    rw [haddrs] at hnodup
    have hnot : node ∉ pre := fun hmem => (List.nodup_append.mp hnodup).2.2 node hmem node List.mem_cons_self rfl
    have hrest : (inorder s.heap.links (s.heap.length + 1) s.root).erase node = pre ++ post := by
      rw [htree.root_eq, inorder_eq htree.linked (Nat.lt_succ_of_le htree.length_le), haddrs,
        List.erase_append_right _ hnot, List.erase_cons_head]
    have hsub : List.Sublist (pre ++ post) t.addrs := by
      rw [haddrs]
      exact (List.sublist_cons_self node post).append_left pre
    have hrestnodup : (pre ++ post).Nodup := htree.nodup.sublist hsub
    refine ⟨⟨linkSpine s.heap none (pre ++ post), (pre ++ post).head?⟩, by rw [← hrest]; rfl, trivial,
      linkSpine_sameEntries, fun a ha => linkSpine_of_notMem fun hmem => ha (hsub.subset hmem), spineShape (pre ++ post), ?_,
      spineShape_addrs⟩
    refine ⟨spineShape_root.symm, linkSpine_linked hrestnodup fun a ha => ?_, by rwa [spineShape_addrs]⟩
    exact Linked.lt_length htree.linked a (hsub.subset ha)

end Spine

/-! ### Runs -/

/-- In every run of operations that keep the tree merged, it is merged after each of them. -/
theorem staysMerged {RedBlack : Nodes ℤ V → Prop} {abi : RbtreeAbi ℤ V} (habi : abi.Correct RedBlack)
    (ops : List (RangeOp V)) (hops : AllSteps KeepsMerged (rangeStep abi) .new ops) :
    Ends (trace (rangeStep abi) .new ops) fun rs => ∀ r ∈ rs, r.1.IsMerged := by
  refine (trace_invariant (TreeState.Inv RedBlack) ?_ (TreeState.inv_new habi) hops).mono fun rs hrs r hr =>
    (hrs r hr).isMerged
  intro s op h hop
  cases op with
  | setrange range value => exact setrange_inv habi h hop
  | delrange range => exact delrange_inv habi h hop

/-- Setting the keys from `minkey` to `maxkey`. -/
def setTo (minkey maxkey : ℤ) (value : Bool) : RangeOp Bool := .setrange ⟨minkey, maxkey, false, by simp⟩ value

theorem staysMerged_extended : Ends (trace (rangeStep spineAbi) .new [setTo 0 9 true, setTo 10 19 true]) fun rs =>
    ∀ r ∈ rs, r.1.IsMerged :=
  staysMerged spineAbi_correct [setTo 0 9 true, setTo 10 19 true] (by decide)

/-- A range that is written over is not merged with a neighbour of the same value. -/
theorem merged_fails : ¬∀ ops : List (RangeOp Bool), Ends (trace (rangeStep spineAbi) .new ops) fun rs =>
    ∀ r ∈ rs, r.1.IsMerged := by
  intro hall
  obtain ⟨rs, hrs, hmerged⟩ := hall [setTo 0 9 true, setTo 10 19 false, setTo 10 19 true]
  have hentries : (trace (rangeStep spineAbi) .new [setTo 0 9 true, setTo 10 19 false, setTo 10 19 true]).map
      (fun rs => rs.map fun r => r.1.entries) =
      some [[⟨0, 9, true⟩], [⟨0, 9, true⟩, ⟨10, 19, false⟩], [⟨0, 9, true⟩, ⟨10, 19, true⟩]] := by
    decide
  rw [hrs, Option.map_some] at hentries
  have hmem : [(⟨0, 9, true⟩ : Entry ℤ Bool), ⟨10, 19, true⟩] ∈ rs.map fun r => r.1.entries := by
    rw [Option.some.inj hentries]
    simp
  obtain ⟨r, hr, heq⟩ := List.mem_map.mp hmem
  have hchain := hmerged r hr
  rw [TreeState.IsMerged, heq] at hchain
  exact absurd hchain (by simp)

/-- The successors of negative keys are not found. -/
example : (trace (rangeStep spineAbi) .new [setTo (-9) (-5) true, setTo (-4) (-1) true]).map
    (fun rs => rs.map fun r => r.1.entries) = some [[⟨-9, -5, true⟩], [⟨-9, -5, true⟩, ⟨-4, -1, true⟩]] := by
  decide

/-- A reversed range splits a node. -/
example : (trace (rangeStep spineAbi) .new [setTo 0 9 true, .delrange ⟨5, 4, false, by simp⟩]).map
    (fun rs => rs.map fun r => r.1.entries) = some [[⟨0, 9, true⟩], [⟨0, 4, true⟩, ⟨5, 9, true⟩]] := by
  decide

end Deemon.Collections
