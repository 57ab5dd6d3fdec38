import Deemon.Collections.RbTree
import Deemon.Lib.RangeMap

/-!
# Changing the nodes of an `RBTree`

The functions of `collections/rbtree.c` link nodes in and out with `rbtree_abi__insert_repair` and
`rbtree_abi_removenode`, which also keep the tree balanced. These two are parameters here (`RbtreeAbi`); what the
callers rely on (`RbtreeAbi.Correct`) is that they leave the other nodes in order and all keys and values in place.

`Rows` gives the nodes of a tree, in order, with the range of keys and the value that each of them has.
-/

namespace Deemon.Collections

open Deemon.Run Deemon.LinkedTree Deemon.RangeMap

variable {K V : Type}

/-! ### Memory -/

/-- The nodes in memory, and the root of the tree. -/
structure Nodes (K V : Type) where
  heap : NodeHeap K V
  root : Option ℕ

/-- A write to the node at an address. -/
def setNode (heap : NodeHeap K V) (node : ℕ) (f : RbtreeNode K V → RbtreeNode K V) : Option (NodeHeap K V) :=
  if node < heap.length then some (heap.modify node f) else none

/-- The range of keys of a node, with its value. -/
def RbtreeNode.entry (node : RbtreeNode K V) : Entry K V := ⟨node.rbtnMinkey, node.rbtnMaxkey, node.rbtnValue⟩

def entryAt (heap : NodeHeap K V) (node : ℕ) : Option (Entry K V) := (heap[node]?).map RbtreeNode.entry

def redAt (heap : NodeHeap K V) (node : ℕ) : Option Bool := (heap[node]?).map RbtreeNode.rbtnRed

/-- All nodes have the keys and values that they had. -/
def SameEntries (heap heap' : NodeHeap K V) : Prop := ∀ a, entryAt heap' a = entryAt heap a

/-- All nodes have the pointers and the colours that they had. -/
def SameLinks (heap heap' : NodeHeap K V) : Prop :=
  ∀ (a : ℕ) (n : RbtreeNode K V), heap[a]? = some n →
    ∃ n' : RbtreeNode K V, heap'[a]? = some n' ∧ n'.links = n.links ∧ n'.rbtnRed = n.rbtnRed

/-! ### Balancing -/

/-- `rbtree_abi__insert_repair` and `rbtree_abi_removenode`. -/
structure RbtreeAbi (K V : Type) where
  insertRepair : Nodes K V → ℕ → ℕ → Option (Nodes K V)
  removenode : Nodes K V → ℕ → Option (Nodes K V)

/-- In a tree that meets the colour rules, `insert_repair` restores them after a red node without children was linked
in, and `removenode` takes a node out. The order of the other nodes stays, and so do all keys and values. -/
structure RbtreeAbi.Correct (abi : RbtreeAbi K V) (RedBlack : Nodes K V → Prop) : Prop where
  empty : ∀ heap, RedBlack ⟨heap, none⟩
  single : ∀ heap a, heap[a]?.map RbtreeNode.links = some ⟨none, none, none⟩ → redAt heap a = some false →
    RedBlack ⟨heap, some a⟩
  frame : ∀ s heap', SameLinks s.heap heap' → RedBlack s → RedBlack ⟨heap', s.root⟩
  insertRepair : ∀ s heap' (c : Path ℕ) node parent, RedBlack s → IsTree s.heap s.root (c.plug .leaf) →
    IsTree heap' s.root (c.plug (.node .leaf node .leaf)) → c.parent = some parent →
    (∀ a ∈ (c.plug .leaf).addrs, redAt heap' a = redAt s.heap a) → redAt heap' node = some true →
    Ends (abi.insertRepair ⟨heap', s.root⟩ node parent) fun s' => RedBlack s' ∧ SameEntries heap' s'.heap ∧
      ∃ t, IsTree s'.heap s'.root t ∧ t.addrs = (c.plug (.node .leaf node .leaf)).addrs
  removenode : ∀ s t pre node post, RedBlack s → IsTree s.heap s.root t → t.addrs = pre ++ node :: post →
    Ends (abi.removenode s node) fun s' => RedBlack s' ∧ SameEntries s.heap s'.heap ∧
      (∀ a, a ∉ t.addrs → s'.heap[a]? = s.heap[a]?) ∧ ∃ t', IsTree s'.heap s'.root t' ∧ t'.addrs = pre ++ post

/-! ### Rows -/

/-- The addresses and entries of the nodes of a tree, in order. -/
structure Rows (RedBlack : Nodes K V → Prop) (s : Nodes K V) (L : List (ℕ × Entry K V)) : Prop where
  redBlack : RedBlack s
  isTree : ∃ t, IsTree s.heap s.root t ∧ t.addrs = L.map Prod.fst
  entries : ∀ p ∈ L, entryAt s.heap p.1 = some p.2

/-- A node that is not in the tree, and its entry. -/
structure Unlinked (s : Nodes K V) (L : List (ℕ × Entry K V)) (node : ℕ) (e : Entry K V) : Prop where
  notMem : node ∉ L.map Prod.fst
  entry : entryAt s.heap node = some e

/-- A tree, and the memory of its nodes. -/
structure TreeState (K V : Type) where
  heap : NodeHeap K V
  tree : RBTree

def TreeState.new : TreeState K V := ⟨[], ⟨none, 0⟩⟩

/-- The ranges of the nodes, in order. -/
def TreeState.entries (s : TreeState K V) : List (Entry K V) :=
  (inorder s.heap.links (s.heap.length + 1) s.tree.rbtRoot).filterMap (entryAt s.heap)

section Memory

variable {heap heap' heap'' : NodeHeap K V} {a b : ℕ} {f : RbtreeNode K V → RbtreeNode K V}

theorem entryAt_eq_some {e : Entry K V} (h : entryAt heap a = some e) : ∃ n, heap[a]? = some n ∧ n.entry = e :=
  Option.map_eq_some_iff.mp h

theorem lt_of_entryAt {e : Entry K V} (h : entryAt heap a = some e) : a < heap.length := by
  obtain ⟨n, hn, -⟩ := entryAt_eq_some h
  exact (List.getElem?_eq_some_iff.mp hn).1

theorem SameEntries.trans (h : SameEntries heap heap') (h' : SameEntries heap' heap'') : SameEntries heap heap'' :=
  fun a => (h' a).trans (h a)

theorem setNode_of_lt (h : a < heap.length) : setNode heap a f = some (heap.modify a f) := if_pos h

theorem getElem_modify_self {n : RbtreeNode K V} (h : heap[a]? = some n) : (heap.modify a f)[a]? = some (f n) := by
  rw [List.getElem?_modify_eq, h]
  rfl

theorem getElem_modify_ne (h : b ≠ a) : (heap.modify a f)[b]? = heap[b]? :=
  List.getElem?_modify_ne _ _ h.symm

/-- A write that leaves the pointers and the colour alone. -/
theorem sameLinks_modify (hf : ∀ n, (f n).links = n.links ∧ (f n).rbtnRed = n.rbtnRed) :
    SameLinks heap (heap.modify a f) := by
  intro b n hn
  by_cases hb : b = a
  · subst hb
    exact ⟨f n, getElem_modify_self hn, hf n⟩
  · exact ⟨n, (getElem_modify_ne hb).trans hn, rfl, rfl⟩

theorem sameLinks_alloc (n : RbtreeNode K V) : SameLinks heap (heap ++ [n]) := fun _ _ hm =>
  ⟨_, List.getElem?_append_left (List.getElem?_eq_some_iff.mp hm).1 ▸ hm, rfl, rfl⟩

theorem SameLinks.isTree {root : Option ℕ} {t : Shape ℕ} (h : SameLinks heap heap') (ht : IsTree heap root t) :
    IsTree heap' root t := by
  refine ⟨ht.root_eq, ht.linked.congr fun x hx => ?_, ht.nodup⟩
  have hlt := Linked.lt_length ht.linked x hx
  obtain ⟨n', hn', hlinks, -⟩ := h x heap[x] (List.getElem?_eq_getElem hlt)
  rw [NodeHeap.links, NodeHeap.links, hn', List.getElem?_eq_getElem hlt, Option.map_some, Option.map_some, hlinks]

end Memory

section Rows

variable {RedBlack : Nodes K V → Prop} {abi : RbtreeAbi K V} {s : Nodes K V} {heap' : NodeHeap K V}
  {L pre post : List (ℕ × Entry K V)} {p : ℕ × Entry K V} {e e' : Entry K V} {a x node : ℕ} {n : RbtreeNode K V}
  {f : RbtreeNode K V → RbtreeNode K V}

theorem Rows.nodup (h : Rows RedBlack s L) : (L.map Prod.fst).Nodup := by
  obtain ⟨t, ht, haddrs⟩ := h.isTree
  exact haddrs ▸ ht.nodup

theorem Rows.nil_of_root (h : Rows RedBlack s L) (hroot : s.root = none) : L = [] := by
  obtain ⟨t, ht, haddrs⟩ := h.isTree
  rw [Shape.eq_leaf (ht.root_eq.symm.trans hroot)] at haddrs
  exact List.map_eq_nil_iff.mp haddrs.symm

theorem Rows.length_le (h : Rows RedBlack s L) : L.length ≤ s.heap.length := by
  obtain ⟨t, ht, haddrs⟩ := h.isTree
  have hle := ht.length_le
  rwa [haddrs, List.length_map] at hle

theorem Rows.entries_eq {s : TreeState K V} (h : Rows RedBlack ⟨s.heap, s.tree.rbtRoot⟩ L) :
    s.entries = L.map Prod.snd := by
  obtain ⟨t, ht, haddrs⟩ := h.isTree
  have hroot : s.tree.rbtRoot = t.root := ht.root_eq
  rw [TreeState.entries, hroot, inorder_eq ht.linked (Nat.lt_succ_of_le ht.length_le), haddrs, List.filterMap_map]
  rw [← List.filterMap_eq_map]
  exact List.filterMap_congr fun p hp => h.entries p hp

theorem Rows.exists_node (h : Rows RedBlack s L) (hp : p ∈ L) : ∃ n, s.heap[p.1]? = some n ∧ n.entry = p.2 :=
  entryAt_eq_some (h.entries p hp)

/-- A place in the order of the rows is one in the order of the tree. -/
theorem getElem_rows {t : Shape ℕ} (haddrs : t.addrs = L.map Prod.fst) (hL : L = pre ++ p :: post) :
    t.addrs[pre.length]? = some p.1 := by
  rw [haddrs, hL]
  simp

section Next

variable (h : Rows RedBlack s L) (hL : L = pre ++ p :: post)
include h hL

theorem Rows.nextnode : rbtreeAbiNextnode s.heap p.1 = some (post.head?.map Prod.fst) := by
  obtain ⟨t, ht, haddrs⟩ := h.isTree
  rw [ht.nextnode (getElem_rows haddrs hL), haddrs, hL]
  cases post <;> simp

theorem Rows.prevnode : rbtreeAbiPrevnode s.heap p.1 = some (pre.getLast?.map Prod.fst) := by
  obtain ⟨t, ht, haddrs⟩ := h.isTree
  rw [ht.prevnode (getElem_rows haddrs hL), haddrs, hL]
  rcases List.eq_nil_or_concat pre with rfl | ⟨pre, q, rfl⟩
  · rfl
  · simp [List.concat_eq_append]

/-- The nodes of the left subtree come before. -/
theorem Rows.lhs_mem (hn : s.heap[p.1]? = some n) (hx : n.rbtnLhs = some x) : x ∈ pre.map Prod.fst := by
  obtain ⟨t, ht, haddrs⟩ := h.isTree
  rw [hL, List.map_append, List.map_cons] at haddrs
  obtain ⟨c, lhs, rhs, rfl, hpre, -⟩ := exists_path haddrs
  obtain ⟨⟨hlinks, -, -⟩, -⟩ := linked_plug.mp ht.linked
  rw [NodeHeap.links, hn] at hlinks
  obtain ⟨-, hlhs, -⟩ := Links.mk.inj (Option.some.inj hlinks)
  rw [hpre]
  exact List.mem_append_right _ (Shape.root_mem (hlhs.symm.trans hx))

/-- The nodes of the right subtree come after. -/
theorem Rows.rhs_mem (hn : s.heap[p.1]? = some n) (hx : n.rbtnRhs = some x) : x ∈ post.map Prod.fst := by
  obtain ⟨t, ht, haddrs⟩ := h.isTree
  rw [hL, List.map_append, List.map_cons] at haddrs
  obtain ⟨c, lhs, rhs, rfl, -, hpost⟩ := exists_path haddrs
  obtain ⟨⟨hlinks, -, -⟩, -⟩ := linked_plug.mp ht.linked
  rw [NodeHeap.links, hn] at hlinks
  obtain ⟨-, -, hrhs⟩ := Links.mk.inj (Option.some.inj hlinks)
  rw [hpost]
  exact List.mem_append_left _ (Shape.root_mem (hrhs.symm.trans hx))

end Next

/-- Rows only depend on the pointers, the colours and the entries. -/
theorem Rows.of_sameLinks (h : Rows RedBlack s L) (habi : abi.Correct RedBlack) (hlinks : SameLinks s.heap heap')
    {L' : List (ℕ × Entry K V)} (haddrs : L'.map Prod.fst = L.map Prod.fst)
    (hentries : ∀ p ∈ L', entryAt heap' p.1 = some p.2) : Rows RedBlack ⟨heap', s.root⟩ L' := by
  obtain ⟨t, ht, hL⟩ := h.isTree
  exact ⟨habi.frame s heap' hlinks h.redBlack, ⟨t, hlinks.isTree ht, hL.trans haddrs.symm⟩, hentries⟩

/-- A new node is in memory, but not in the tree. -/
theorem Rows.alloc (h : Rows RedBlack s L) (habi : abi.Correct RedBlack) (n : RbtreeNode K V) :
    Rows RedBlack ⟨s.heap ++ [n], s.root⟩ L ∧ Unlinked ⟨s.heap ++ [n], s.root⟩ L s.heap.length n.entry := by
  have hlt : ∀ p ∈ L, p.1 < s.heap.length := fun p hp => lt_of_entryAt (h.entries p hp)
  refine ⟨h.of_sameLinks habi (sameLinks_alloc n) rfl fun p hp => ?_, ⟨fun hmem => ?_, ?_⟩⟩
  · rw [entryAt, List.getElem?_append_left (hlt p hp)]
    exact h.entries p hp
  · obtain ⟨p, hp, heq⟩ := List.mem_map.mp hmem
    exact absurd heq (hlt p hp).ne
  · rw [entryAt, List.getElem?_concat_length]
    rfl

/-- A node has another address than the other ones. -/
theorem Rows.ne_of_mem {q : ℕ × Entry K V} (h : Rows RedBlack s L) (hL : L = pre ++ p :: post) (hq : q ∈ pre ++ post) :
    q.1 ≠ p.1 := by
  have hnodup := h.nodup
  rw [hL, List.map_append, List.map_cons, List.nodup_middle, ← List.map_append] at hnodup
  intro heq
  exact (List.nodup_cons.mp hnodup).1 (heq ▸ List.mem_map_of_mem hq)

section Write

variable (h : Rows RedBlack s L) (habi : abi.Correct RedBlack)
include h habi

/-- A node of the tree gets another entry. -/
theorem Rows.of_write (hL : L = pre ++ p :: post) (hlinks : SameLinks s.heap heap') (he : entryAt heap' p.1 = some e)
    (hother : ∀ q ∈ L, q.1 ≠ p.1 → entryAt heap' q.1 = entryAt s.heap q.1) :
    Rows RedBlack ⟨heap', s.root⟩ (pre ++ (p.1, e) :: post) := by
  refine h.of_sameLinks habi hlinks (by simp [hL]) fun q hq => ?_
  have hkeep : q ∈ pre ++ post → entryAt heap' q.1 = some q.2 := by
    intro hmem
    have hqL : q ∈ L := by
      rw [hL, List.mem_append, List.mem_cons]
      rw [List.mem_append] at hmem
      tauto
    rw [hother q hqL (h.ne_of_mem hL hmem)]
    exact h.entries q hqL
  rw [List.mem_append, List.mem_cons] at hq
  rcases hq with hq | rfl | hq
  · exact hkeep (List.mem_append_left _ hq)
  · exact he
  · exact hkeep (List.mem_append_right _ hq)

/-- The keys or the value of a node are written. -/
theorem Rows.write (hL : L = pre ++ (a, e) :: post)
    (hf : ∀ n, (f n).links = n.links ∧ (f n).rbtnRed = n.rbtnRed) (he : ∀ n, n.entry = e → (f n).entry = e') :
    Ends (setNode s.heap a f) fun heap' => Rows RedBlack ⟨heap', s.root⟩ (pre ++ (a, e') :: post) ∧
      ∀ x, x ≠ a → entryAt heap' x = entryAt s.heap x := by
  obtain ⟨n, hn, hentry⟩ := h.exists_node (p := (a, e)) (by simp [hL])
  have hother : ∀ x, x ≠ a → entryAt (s.heap.modify a f) x = entryAt s.heap x := fun x hx =>
    congrArg (Option.map RbtreeNode.entry) (getElem_modify_ne hx)
  have hself : entryAt (s.heap.modify a f) a = some e' := by
    rw [entryAt, getElem_modify_self hn, Option.map_some, he n hentry]
  exact ⟨_, setNode_of_lt (List.getElem?_eq_some_iff.mp hn).1,
    h.of_write habi hL (sameLinks_modify hf) hself fun q _ hq => hother q.1 hq, hother⟩

/-- A write to a node that is not in the tree. -/
theorem Rows.writeOther (ha : Unlinked s L a e) (hf : ∀ n, (f n).links = n.links ∧ (f n).rbtnRed = n.rbtnRed) :
    Ends (setNode s.heap a f) fun heap' => Rows RedBlack ⟨heap', s.root⟩ L ∧
      ∀ x, x ≠ a → entryAt heap' x = entryAt s.heap x := by
  have hother : ∀ x, x ≠ a → entryAt (s.heap.modify a f) x = entryAt s.heap x := fun x hx =>
    congrArg (Option.map RbtreeNode.entry) (getElem_modify_ne hx)
  refine ⟨_, setNode_of_lt (lt_of_entryAt ha.entry), ?_, hother⟩
  refine h.of_sameLinks habi (sameLinks_modify hf) rfl fun p hp => ?_
  rw [hother p.1 fun heq => ha.notMem (heq ▸ List.mem_map_of_mem hp)]
  exact h.entries p hp

theorem Rows.remove (hL : L = pre ++ p :: post) :
    Ends (abi.removenode s p.1) fun s' => Rows RedBlack s' (pre ++ post) ∧ SameEntries s.heap s'.heap ∧
      ∀ a, a ∉ L.map Prod.fst → s'.heap[a]? = s.heap[a]? := by
  obtain ⟨t, ht, haddrs⟩ := h.isTree
  have hsplit := haddrs
  rw [hL, List.map_append, List.map_cons] at hsplit
  refine (habi.removenode s t _ p.1 _ h.redBlack ht hsplit).mono ?_
  rintro s' ⟨hrb, hsame, hother, t', ht', haddrs'⟩
  refine ⟨⟨hrb, ⟨t', ht', by rw [haddrs', List.map_append]⟩, fun q hq => ?_⟩, hsame, haddrs ▸ hother⟩
  rw [hsame]
  refine h.entries q ?_
  rw [hL, List.mem_append, List.mem_cons]
  rcases List.mem_append.mp hq with hq | hq
  · exact .inl hq
  · exact .inr (.inr hq)

end Write

end Rows

/-! ### Linking in -/

/-- The pointer to `node` is written into `parent`, then the pointers and the colour of `node`. -/
def linkNode (heap : NodeHeap K V) (parent node : ℕ) (f : RbtreeNode K V → RbtreeNode K V) : Option (NodeHeap K V) := do
  let heap ← setNode heap parent f
  setNode heap node fun n => { n with rbtnPar := some parent, rbtnLhs := none, rbtnRhs := none, rbtnRed := true }

/-- `parent->rbtn_lhs = node`, then `rbtree_abi__insert_repair`. -/
def linkLhs (abi : RbtreeAbi K V) (s : Nodes K V) (parent node : ℕ) : Option (Nodes K V) := do
  let heap ← linkNode s.heap parent node fun n => { n with rbtnLhs := some node }
  abi.insertRepair ⟨heap, s.root⟩ node parent

/-- `parent->rbtn_rhs = node`, then `rbtree_abi__insert_repair`. -/
def linkRhs (abi : RbtreeAbi K V) (s : Nodes K V) (parent node : ℕ) : Option (Nodes K V) := do
  let heap ← linkNode s.heap parent node fun n => { n with rbtnRhs := some node }
  abi.insertRepair ⟨heap, s.root⟩ node parent

/-- `while (node->rbtn_rhs) node = node->rbtn_rhs;`. -/
def lastBelow (heap : NodeHeap K V) (node : ℕ) : Option ℕ := leftmost heap.links.mirror (heap.length + 1) node

/-- `rbtree_insert_after`. -/
def rbtreeInsertAfter (abi : RbtreeAbi K V) (s : Nodes K V) (predecessor newnode : ℕ) : Option (Nodes K V) := do
  let n ← s.heap[predecessor]?
  match n.rbtnRhs with
  | none => linkRhs abi s predecessor newnode
  | some rhs => do linkLhs abi s (← firstBelow s.heap rhs) newnode

/-- `rbtree_insert_before`. -/
def rbtreeInsertBefore (abi : RbtreeAbi K V) (s : Nodes K V) (successor newnode : ℕ) : Option (Nodes K V) := do
  let n ← s.heap[successor]?
  match n.rbtnLhs with
  | none => linkLhs abi s successor newnode
  | some lhs => do linkRhs abi s (← lastBelow s.heap lhs) newnode

section Link

variable {RedBlack : Nodes K V → Prop} {abi : RbtreeAbi K V} {s : Nodes K V} {heap : NodeHeap K V}
  {L pre post : List (ℕ × Entry K V)} {p : ℕ × Entry K V} {e : Entry K V} {c : Path ℕ} {a parent node : ℕ}
  {lhs rhs : Shape ℕ} {f : RbtreeNode K V → RbtreeNode K V}

/-- The two writes change the pointers of the parent and the new node, and the colour of the new node. -/
theorem linkNode_ends (hne : node ≠ parent) (hparent : parent < heap.length) (hnode : node < heap.length)
    (hf : ∀ n, (f n).entry = n.entry ∧ (f n).rbtnRed = n.rbtnRed) :
    Ends (linkNode heap parent node f) fun heap' => SameEntries heap heap' ∧
      heap'.links node = some ⟨some parent, none, none⟩ ∧ redAt heap' node = some true ∧
      heap'.links parent = (heap[parent]?).map (fun n => (f n).links) ∧
      (∀ x, x ≠ parent → x ≠ node → heap'.links x = heap.links x) ∧ ∀ x, x ≠ node → redAt heap' x = redAt heap x := by
  have hm := List.getElem?_eq_getElem hparent
  have hn := List.getElem?_eq_getElem hnode
  have hn' : (heap.modify parent f)[node]? = some heap[node] := (getElem_modify_ne hne).trans hn
  refine ⟨_, by rw [linkNode, setNode_of_lt hparent, some_bind, setNode_of_lt (by simpa using hnode)], ?_⟩
  refine ⟨fun x => ?_, ?_, ?_, ?_, fun x hx hxnode => ?_, fun x hx => ?_⟩
  · by_cases hx : x = node
    · subst hx
      rw [entryAt, getElem_modify_self hn', entryAt, hn]
      rfl
    · rw [entryAt, getElem_modify_ne hx]
      by_cases hxp : x = parent
      · subst hxp
        rw [getElem_modify_self hm, entryAt, hm, Option.map_some, Option.map_some, (hf _).1]
      · rw [getElem_modify_ne hxp, entryAt]
  · rw [NodeHeap.links, getElem_modify_self hn']
    rfl
  · rw [redAt, getElem_modify_self hn']
    rfl
  · rw [NodeHeap.links, getElem_modify_ne hne.symm, getElem_modify_self hm, hm]
    rfl
  · rw [NodeHeap.links, NodeHeap.links, getElem_modify_ne hxnode, getElem_modify_ne hx]
  · rw [redAt, getElem_modify_ne hx]
    by_cases hxp : x = parent
    · subst hxp
      rw [getElem_modify_self hm, redAt, hm, Option.map_some, Option.map_some, (hf _).2]
    · rw [getElem_modify_ne hxp, redAt]

section Repair

variable (h : Rows RedBlack s L) (habi : abi.Correct RedBlack)
include h habi

/-- The new node is between the nodes before and after the place of the missing child. -/
theorem Rows.repair (hL : L = pre ++ post) (hnew : Unlinked s L node e) (ht : IsTree s.heap s.root (c.plug .leaf))
    (haddrs : (c.plug .leaf).addrs = L.map Prod.fst) (hbefore : c.before = pre.map Prod.fst)
    (hparent : c.parent = some parent) (hlinked : Linked heap.links none (c.plug (.node .leaf node .leaf)))
    (hsame : SameEntries s.heap heap) (hred : redAt heap node = some true)
    (hreds : ∀ x, x ≠ node → redAt heap x = redAt s.heap x) :
    Ends (abi.insertRepair ⟨heap, s.root⟩ node parent) fun s' =>
      Rows RedBlack s' (pre ++ (node, e) :: post) ∧ SameEntries s.heap s'.heap := by
  have hafter : c.after = post.map Prod.fst := by
    rw [Path.addrs_plug, Shape.addrs, List.append_nil, hbefore, hL, List.map_append] at haddrs
    exact List.append_cancel_left haddrs
  have hplug : (c.plug (.node .leaf node .leaf)).addrs = pre.map Prod.fst ++ node :: post.map Prod.fst := by
    rw [Path.addrs_plug, hbefore, hafter]
    simp [Shape.addrs]
  have hmem := hnew.notMem
  have hnodup := h.nodup
  rw [hL, List.map_append] at hmem hnodup
  have htree : IsTree heap s.root (c.plug (.node .leaf node .leaf)) := by
    refine ⟨ht.root_eq.trans (Path.root_plug_of_parent hparent _ _), hlinked, ?_⟩
    rw [hplug]
    exact List.nodup_middle.mpr (List.nodup_cons.mpr ⟨hmem, hnodup⟩)
  refine (habi.insertRepair s heap c node parent h.redBlack ht htree hparent (fun x hx => ?_) hred).mono ?_
  · refine hreds x ?_
    rintro rfl
    exact hnew.notMem (haddrs ▸ hx)
  · rintro s' ⟨hrb, hentries, t, hs', ht'⟩
    refine ⟨⟨hrb, ⟨t, hs', by rw [ht', hplug, List.map_append, List.map_cons]⟩, fun q hq => ?_⟩, hsame.trans hentries⟩
    rw [(hsame.trans hentries) q.1]
    rw [List.mem_append, List.mem_cons] at hq
    rcases hq with hq | rfl | hq
    · exact h.entries q (by simp [hL, hq])
    · exact hnew.entry
    · exact h.entries q (by simp [hL, hq])

/-- A node linked in on the left comes right before its parent. -/
theorem Rows.linkLhs (hL : L = pre ++ post)
    (hnew : Unlinked s L node e) (ht : IsTree s.heap s.root ((Path.fromLhs parent rhs c).plug .leaf))
    (haddrs : ((Path.fromLhs parent rhs c).plug .leaf).addrs = L.map Prod.fst) (hbefore : c.before = pre.map Prod.fst) :
    Ends (linkLhs abi s parent node) fun s' =>
      Rows RedBlack s' (pre ++ (node, e) :: post) ∧ SameEntries s.heap s'.heap := by
  have hmem : parent ∈ ((Path.fromLhs parent rhs c).plug .leaf).addrs := by
    rw [Path.addrs_plug]
    simp [Path.after]
  have hnotMem : node ∉ ((Path.fromLhs parent rhs c).plug .leaf).addrs := haddrs ▸ hnew.notMem
  have hne : node ≠ parent := fun heq => hnotMem (heq.symm ▸ hmem)
  refine (linkNode_ends (f := fun n => { n with rbtnLhs := some node }) hne
    (Linked.lt_length ht.linked parent hmem) (lt_of_entryAt hnew.entry) fun n => ⟨rfl, rfl⟩).bind ?_
  rintro heap ⟨hsame, hlinks, hred, hparent, hother, hreds⟩
  refine h.repair habi hL hnew ht haddrs hbefore rfl ?_ hsame hred hreds
  refine attach_lhs ht.linked ht.nodup hnotMem hlinks (fun n hn => ?_) hother
  obtain ⟨m, hm, rfl⟩ := Option.map_eq_some_iff.mp hn
  rw [hparent, hm]
  rfl

/-- A node linked in on the right comes right after its parent. -/
theorem Rows.linkRhs (hL : L = pre ++ post)
    (hnew : Unlinked s L node e) (ht : IsTree s.heap s.root ((Path.fromRhs lhs parent c).plug .leaf))
    (haddrs : ((Path.fromRhs lhs parent c).plug .leaf).addrs = L.map Prod.fst)
    (hbefore : (Path.fromRhs lhs parent c).before = pre.map Prod.fst) :
    Ends (linkRhs abi s parent node) fun s' =>
      Rows RedBlack s' (pre ++ (node, e) :: post) ∧ SameEntries s.heap s'.heap := by
  have hmem : parent ∈ ((Path.fromRhs lhs parent c).plug .leaf).addrs := by
    rw [Path.addrs_plug]
    simp [Path.before]
  have hnotMem : node ∉ ((Path.fromRhs lhs parent c).plug .leaf).addrs := haddrs ▸ hnew.notMem
  have hne : node ≠ parent := fun heq => hnotMem (heq.symm ▸ hmem)
  refine (linkNode_ends (f := fun n => { n with rbtnRhs := some node }) hne
    (Linked.lt_length ht.linked parent hmem) (lt_of_entryAt hnew.entry) fun n => ⟨rfl, rfl⟩).bind ?_
  rintro heap ⟨hsame, hlinks, hred, hparent, hother, hreds⟩
  refine h.repair habi hL hnew ht haddrs hbefore rfl ?_ hsame hred hreds
  refine attach_rhs ht.linked ht.nodup hnotMem hlinks (fun n hn => ?_) hother
  obtain ⟨m, hm, rfl⟩ := Option.map_eq_some_iff.mp hn
  rw [hparent, hm]
  rfl

/-- `rbtree_insert_after` puts the node right after the one that it is given. -/
theorem Rows.insertAfter (hL : L = pre ++ p :: post)
    (hnew : Unlinked s L node e) : Ends (rbtreeInsertAfter abi s p.1 node) fun s' =>
      Rows RedBlack s' (pre ++ p :: (node, e) :: post) ∧ SameEntries s.heap s'.heap := by
  obtain ⟨t, ht, haddrs⟩ := h.isTree
  have hsplit := haddrs
  rw [hL, List.map_append, List.map_cons] at hsplit
  obtain ⟨c, lhs, rhs, hplug, hpre, -⟩ := exists_path hsplit
  obtain ⟨⟨hlinks, -, hr⟩, -⟩ := linked_plug.mp (hplug ▸ ht.linked)
  obtain ⟨n, hn, -⟩ := h.exists_node (p := p) (by simp [hL])
  rw [NodeHeap.links, hn] at hlinks
  obtain ⟨-, -, hrhs⟩ := Links.mk.inj (Option.some.inj hlinks)
  have hbefore : (Path.fromRhs lhs p.1 c).before = (pre ++ [p]).map Prod.fst := by
    rw [Path.before, List.map_append, hpre, List.append_assoc]
    rfl
  have hL' : L = (pre ++ [p]) ++ post := by rw [hL, List.append_assoc, List.singleton_append]
  rw [← List.singleton_append, ← List.append_assoc]
  unfold rbtreeInsertAfter
  rw [hn, some_bind, hrhs]
  cases hroot : rhs.root with
  | none =>
    rw [Shape.eq_leaf hroot] at hplug
    subst hplug
    exact h.linkRhs habi hL' hnew ht haddrs hbefore
  | some x =>
    obtain ⟨a, r, d, hfirst, hhead, hsame⟩ := exists_first hroot (.fromRhs lhs p.1 c)
    have htree : (Path.fromLhs a r d).plug .leaf = t := hfirst.trans hplug
    have hlen : rhs.addrs.length ≤ s.heap.length := by
      have hle := ht.length_le
      rw [← hplug, Path.addrs_plug, Shape.addrs] at hle
      simp only [List.length_append, List.length_cons] at hle
      omega
    have hbelow : firstBelow s.heap x = some a := (leftmost_eq hr hroot (Nat.le_succ_of_le hlen)).trans hhead
    subst htree
    dsimp only
    rw [hbelow, some_bind]
    exact h.linkLhs habi hL' hnew ht haddrs (hsame.trans hbefore)

/-- `rbtree_insert_before` puts the node right before the one that it is given. -/
theorem Rows.insertBefore (hL : L = pre ++ p :: post)
    (hnew : Unlinked s L node e) : Ends (rbtreeInsertBefore abi s p.1 node) fun s' =>
      Rows RedBlack s' (pre ++ (node, e) :: p :: post) ∧ SameEntries s.heap s'.heap := by
  obtain ⟨t, ht, haddrs⟩ := h.isTree
  have hsplit := haddrs
  rw [hL, List.map_append, List.map_cons] at hsplit
  obtain ⟨c, lhs, rhs, hplug, hpre, hpost⟩ := exists_path hsplit
  obtain ⟨⟨hlinks, hl, -⟩, -⟩ := linked_plug.mp (hplug ▸ ht.linked)
  obtain ⟨n, hn, -⟩ := h.exists_node (p := p) (by simp [hL])
  rw [NodeHeap.links, hn] at hlinks
  obtain ⟨-, hlhs, -⟩ := Links.mk.inj (Option.some.inj hlinks)
  unfold rbtreeInsertBefore
  rw [hn, some_bind, hlhs]
  cases hroot : lhs.root with
  | none =>
    rw [Shape.eq_leaf hroot] at hplug hpre
    subst hplug
    refine h.linkLhs habi hL hnew ht haddrs ?_
    rw [hpre, Shape.addrs, List.append_nil]
  | some x =>
    obtain ⟨l, a, d, hlast, hend, hsame⟩ := exists_last hroot (.fromLhs p.1 rhs c)
    have htree : (Path.fromRhs l a d).plug .leaf = t := hlast.trans hplug
    have hlen : lhs.addrs.length ≤ s.heap.length := by
      have hle := ht.length_le
      rw [← hplug, Path.addrs_plug, Shape.addrs] at hle
      simp only [List.length_append, List.length_cons] at hle
      omega
    have hbelow : lastBelow s.heap x = some a := by
      have hleft := leftmost_eq hl.mirror ((Shape.root_mirror lhs).trans hroot)
        (show lhs.mirror.addrs.length ≤ s.heap.length + 1 by simp; omega)
      rw [Shape.addrs_mirror, List.head?_reverse, hend] at hleft
      exact hleft
    have hbefore : (Path.fromRhs l a d).before = pre.map Prod.fst := by
      have hall := haddrs
      rw [← htree, Path.addrs_plug, Shape.addrs, List.append_nil, hL, List.map_append, List.map_cons, hpost] at hall
      have hafter : (Path.fromRhs l a d).after = p.1 :: (rhs.addrs ++ c.after) := hsame
      rw [hafter] at hall
      exact List.append_cancel_right hall
    subst htree
    dsimp only
    rw [hbelow, some_bind]
    exact h.linkRhs habi hL hnew ht haddrs hbefore

end Repair

end Link

end Deemon.Collections
