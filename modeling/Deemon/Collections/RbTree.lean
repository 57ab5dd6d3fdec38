import Deemon.Lib.LinkedTree
import Mathlib.Data.List.Perm.Subperm

/-!
# The nodes of an `RBTree`

The nodes of `collections/rbtree.c` in memory, and the walks of `hybrid/sequence/rbtree-abi.h` over their pointers.
Memory is a list of nodes, an address the place of a node in it. Loops over nodes have fuel for each of them.
-/

namespace Deemon.Collections

open Deemon.Run Deemon.LinkedTree

variable {K V : Type}

/-! ### Nodes -/

/-- `struct rbtree_node`, with the red bit apart from the value that it shares a word with. -/
structure RbtreeNode (K V : Type) where
  rbtnPar : Option ℕ
  rbtnLhs : Option ℕ
  rbtnRhs : Option ℕ
  rbtnMinkey : K
  rbtnMaxkey : K
  rbtnValue : V
  rbtnRed : Bool

/-- The memory that nodes are in. -/
abbrev NodeHeap (K V : Type) := List (RbtreeNode K V)

/-- The pointers of a node. -/
def RbtreeNode.links (node : RbtreeNode K V) : Links ℕ := ⟨node.rbtnPar, node.rbtnLhs, node.rbtnRhs⟩

/-- The pointers of the nodes. -/
def NodeHeap.links (heap : NodeHeap K V) : Mem ℕ := fun a => (heap[a]?).map RbtreeNode.links

/-- `struct rbtree_object`. -/
structure RBTree where
  rbtRoot : Option ℕ
  rbtVersion : ℕ

/-! ### Walks -/

/-- `while (node->rbtn_lhs) node = node->rbtn_lhs;`. -/
def firstBelow (heap : NodeHeap K V) (node : ℕ) : Option ℕ := leftmost heap.links (heap.length + 1) node

/-- `rbtree_abi_nextnode`. -/
def rbtreeAbiNextnode (heap : NodeHeap K V) (node : ℕ) : Option (Option ℕ) := next heap.links (heap.length + 1) node

/-- `rbtree_abi_prevnode`, which is `rbtree_abi_nextnode` with `rbtn_lhs` and `rbtn_rhs` exchanged. -/
def rbtreeAbiPrevnode (heap : NodeHeap K V) (node : ℕ) : Option (Option ℕ) := prev heap.links (heap.length + 1) node

/-- `rbtree_node_count`, from the label `again` on. -/
def rbtreeNodeCountAgain (heap : NodeHeap K V) : ℕ → ℕ → ℕ → Option ℕ
  | 0, _, _ => none
  | fuel + 1, self, result => do
    let n ← heap[self]?
    match n.rbtnLhs with
    | some lhs =>
      match n.rbtnRhs with
      | some rhs => do
        let right ← rbtreeNodeCountAgain heap fuel rhs 1
        rbtreeNodeCountAgain heap fuel lhs (result + right + 1)
      | none => rbtreeNodeCountAgain heap fuel lhs (result + 1)
    | none =>
      match n.rbtnRhs with
      | some rhs => rbtreeNodeCountAgain heap fuel rhs (result + 1)
      | none => some result

/-- `rbtree_node_count`. -/
def rbtreeNodeCount (heap : NodeHeap K V) (self : ℕ) : Option ℕ := rbtreeNodeCountAgain heap (heap.length + 1) self 1

/-! ### Trees in memory -/

/-- The nodes below the root make up a tree of the shape. -/
structure IsTree (heap : NodeHeap K V) (root : Option ℕ) (t : Shape ℕ) : Prop where
  root_eq : root = t.root
  linked : Linked heap.links none t
  nodup : t.addrs.Nodup

section Trees

variable {heap : NodeHeap K V} {root p : Option ℕ} {t : Shape ℕ} {a i : ℕ}

theorem Linked.lt_length (h : Linked heap.links p t) : ∀ a ∈ t.addrs, a < heap.length := by
  induction t generalizing p with
  | leaf => simp [Shape.addrs]
  | node lhs b rhs ihl ihr =>
    obtain ⟨hb, hl, hr⟩ := h
    intro a ha
    rw [Shape.addrs, List.mem_append, List.mem_cons] at ha
    rcases ha with ha | rfl | ha
    · exact ihl hl a ha
    · obtain ⟨n, hn, -⟩ := Option.map_eq_some_iff.mp hb
      exact (List.getElem?_eq_some_iff.mp hn).1
    · exact ihr hr a ha

theorem IsTree.length_le (h : IsTree heap root t) : t.addrs.length ≤ heap.length := by
  have hsub : t.addrs ⊆ List.range heap.length := fun a ha => List.mem_range.mpr (Linked.lt_length h.linked a ha)
  have hle := (h.nodup.subperm hsub).length_le
  rwa [List.length_range] at hle

theorem IsTree.nextnode (h : IsTree heap root t) (ha : t.addrs[i]? = some a) :
    rbtreeAbiNextnode heap a = some t.addrs[i + 1]? :=
  next_getElem h.linked h.nodup ha (Nat.le_succ_of_le h.length_le)

theorem IsTree.prevnode (h : IsTree heap root t) (ha : t.addrs[i]? = some a) :
    rbtreeAbiPrevnode heap a = some (if i = 0 then none else t.addrs[i - 1]?) :=
  prev_getElem h.linked h.nodup ha (Nat.le_succ_of_le h.length_le)

theorem IsTree.firstBelow (h : IsTree heap (some a) t) : firstBelow heap a = t.addrs[0]? :=
  leftmost_root h.linked h.root_eq.symm (Nat.le_succ_of_le h.length_le)

/-- The count of a subtree is added to what has been counted before. -/
theorem rbtreeNodeCountAgain_eq {fuel k : ℕ} (h : Linked heap.links p t) (hroot : t.root = some a)
    (hfuel : t.addrs.length ≤ fuel) : rbtreeNodeCountAgain heap fuel a (k + 1) = some (k + t.addrs.length) := by
  induction t generalizing p a fuel k with
  | leaf => cases hroot
  | node lhs b rhs ihl ihr =>
    obtain rfl : b = a := Option.some.inj hroot
    obtain ⟨hb, hl, hr⟩ := h
    obtain ⟨n, hn, hlinks⟩ := Option.map_eq_some_iff.mp hb
    obtain ⟨hpar, hlhs, hrhs⟩ := Links.mk.inj hlinks
    simp only [Shape.addrs, List.length_append, List.length_cons] at hfuel ⊢
    obtain ⟨fuel, rfl⟩ : ∃ k, fuel = k + 1 := ⟨fuel - 1, by omega⟩
    rw [rbtreeNodeCountAgain, hn, some_bind, hlhs, hrhs]
    cases hrootl : lhs.root with
    | none =>
      rw [Shape.eq_leaf hrootl]
      cases hrootr : rhs.root with
      | none =>
        rw [Shape.eq_leaf hrootr]
        rfl
      | some r =>
        dsimp only
        rw [ihr hr hrootr (by omega)]
        congr 1
        simp only [Shape.addrs, List.length_nil]
        omega
    | some l =>
      cases hrootr : rhs.root with
      | none =>
        rw [Shape.eq_leaf hrootr]
        dsimp only
        rw [ihl hl hrootl (by omega)]
        congr 1
        simp only [Shape.addrs, List.length_nil]
        omega
      | some r =>
        have hright := @ihr (some b) r fuel 0 hr hrootr (by omega)
        dsimp only
        rw [hright, some_bind, ihl hl hrootl (by omega)]
        congr 1
        omega

theorem IsTree.count (h : IsTree heap (some a) t) : rbtreeNodeCount heap a = some t.addrs.length := by
  have hcount := @rbtreeNodeCountAgain_eq _ _ heap none t a (heap.length + 1) 0 h.linked h.root_eq.symm
    (Nat.le_succ_of_le h.length_le)
  rw [Nat.zero_add, Nat.zero_add] at hcount
  exact hcount

end Trees

end Deemon.Collections
