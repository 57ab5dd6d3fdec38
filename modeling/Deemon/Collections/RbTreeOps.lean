import Deemon.Collections.RbTreeSetrange

/-!
# Lookup and removal in an `RBTree`

The operations of `collections/rbtree.c` on single keys and whole nodes, in one thread.
-/

namespace Deemon.Collections

open Deemon.Run Deemon.LinkedTree Deemon.RangeMap

variable {K V : Type}

/-! ### Operations -/

section Ops

variable [LinearOrder K]

/-- A round of `rbtree_trygetitem_node`. -/
def trygetitemRound (heap : NodeHeap K V) (key : K) : Option ℕ → Option (Step (Option ℕ) (Option ℕ))
  | none => some (.done none)
  | some node => do
    let n ← heap[node]?
    if key < n.rbtnMinkey then some (.next n.rbtnLhs)
    else if n.rbtnMaxkey < key then some (.next n.rbtnRhs)
    else some (.done (some node))

/-- `rbtree_trygetitem_node`; the inner `none` is `ITER_DONE`. -/
def rbtreeTrygetitemNode (heap : NodeHeap K V) (tree : RBTree) (key : K) : Option (Option ℕ) :=
  loop (trygetitemRound heap key) (heap.length + 2) tree.rbtRoot

/-- `rbtree_trygetitem`. -/
def rbtreeTrygetitem (heap : NodeHeap K V) (tree : RBTree) (key : K) : Option (Option V) := do
  match ← rbtreeTrygetitemNode heap tree key with
  | none => some none
  | some node => do
    let n ← heap[node]?
    some (some n.rbtnValue)

variable (abi : RbtreeAbi K V)

/-- `rbtree_mh_setnew_ex`: the value that the key has, or `none` after it was added. -/
def rbtreeMhSetnewEx [DecidableEq V] (ops : AdjacencyOps K) (heap : NodeHeap K V) (tree : RBTree) (key : K) (value : V) :
    Option ((NodeHeap K V × RBTree) × Option V) := do
  let newnode := heap.length
  let heap := heap ++ [⟨none, none, none, key, key, value, false⟩]
  match ← rbtreeDoInsert abi ops heap tree newnode with
  | .inserted heap tree => some ((heap, tree), none)
  | .overlap node => do
    let n ← heap[node]?
    some ((heap, tree), some n.rbtnValue)

omit [LinearOrder K] in
/-- The range of one key. -/
def singleKey (key : K) : KeyRange K := ⟨key, key, true, fun _ => rfl⟩

/-- `rbtree_setitem`. -/
def rbtreeSetitem [PredOrder K] [SuccOrder K] [DecidableEq V] (ops : AdjacencyOps K) (heap : NodeHeap K V) (tree : RBTree)
    (key : K) (value : V) : Option (NodeHeap K V × RBTree) :=
  rbtreeSetrange abi ops heap tree (singleKey key) value

/-- `rbtree_delitem`. -/
def rbtreeDelitem [PredOrder K] [SuccOrder K] (heap : NodeHeap K V) (tree : RBTree) (key : K) :
    Option (NodeHeap K V × RBTree) :=
  rbtreeDelrange abi heap tree (singleKey key)

section Removing

variable (heap : NodeHeap K V) (tree : RBTree)

omit [LinearOrder K] in
/-- `rbtree_abi_removenode`, and the tuple that is made of the node. -/
def takeNode (node : ℕ) : Option ((NodeHeap K V × RBTree) × Option (Entry K V)) := do
  let s ← abi.removenode ⟨heap, tree.rbtRoot⟩ node
  let n ← s.heap[node]?
  some ((s.heap, ⟨s.root, tree.rbtVersion + 1⟩), some n.entry)

/-- `rbtree_remove`. -/
def rbtreeRemove (key : K) : Option ((NodeHeap K V × RBTree) × Option (Entry K V)) := do
  match ← rbtreeTrygetitemNode heap tree key with
  | none => some ((heap, tree), none)
  | some node => takeNode abi heap tree node

omit [LinearOrder K] in
/-- `rbtree_popfront`; `none` is `err_empty`. -/
def rbtreePopfront : Option ((NodeHeap K V × RBTree) × Option (Entry K V)) :=
  match tree.rbtRoot with
  | none => some ((heap, tree), none)
  | some node => do takeNode abi heap tree (← firstBelow heap node)

omit [LinearOrder K] in
/-- `rbtree_popback`; `none` is `err_empty`. -/
def rbtreePopback : Option ((NodeHeap K V × RBTree) × Option (Entry K V)) :=
  match tree.rbtRoot with
  | none => some ((heap, tree), none)
  | some node => do takeNode abi heap tree (← lastBelow heap node)

omit [LinearOrder K] in
/-- `rbtree_clear`. -/
def rbtreeClear : NodeHeap K V × RBTree :=
  match tree.rbtRoot with
  | none => (heap, tree)
  | some _ => (heap, ⟨none, tree.rbtVersion + 1⟩)

end Removing

end Ops

/-! ### Lookup -/

section Lookup

variable [LinearOrder K] {RedBlack : Nodes K V → Prop} {heap : NodeHeap K V} {tree : RBTree} {par : Option ℕ}
  {t : Shape ℕ} {L T : List (ℕ × Entry K V)} {fuel : ℕ} {key : K} {v : V}

/-- A node whose range has the key, or none where no range has it. -/
def KeyFound (key : K) (T : List (ℕ × Entry K V)) : Option ℕ → Prop
  | none => ∀ p ∈ T, ¬(p.2.lo ≤ key ∧ key ≤ p.2.hi)
  | some node => ∃ p ∈ T, p.1 = node ∧ p.2.lo ≤ key ∧ key ≤ p.2.hi

/-- The search goes down between rows that are below and above the key. -/
theorem trygetitemSearch_ends (hlinked : Linked heap.links par t) (hentries : ∀ p ∈ T, entryAt heap p.1 = some p.2)
    (hT : t.addrs = T.map Prod.fst) (hordered : Ordered (T.map Prod.snd)) (hfuel : t.addrs.length < fuel) :
    Ends (loop (trygetitemRound heap key) fuel t.root) (KeyFound key T) := by
  induction t generalizing par T fuel with
  | leaf =>
    obtain rfl : T = [] := List.map_eq_nil_iff.mp hT.symm
    obtain ⟨fuel, rfl⟩ : ∃ k, fuel = k + 1 := ⟨fuel - 1, by omega⟩
    exact ⟨none, loop_done rfl, by simp [KeyFound]⟩
  | node l b r ihl ihr =>
    obtain ⟨hb, hl, hr⟩ := hlinked
    obtain ⟨n, hn, hlinks⟩ := Option.map_eq_some_iff.mp hb
    obtain ⟨-, hlhs, hrhs⟩ := Links.mk.inj hlinks
    simp only [Shape.addrs, List.length_append, List.length_cons] at hfuel
    obtain ⟨fuel, rfl⟩ : ∃ k, fuel = k + 1 := ⟨fuel - 1, by omega⟩
    obtain ⟨Tl, Tr', rfl, hTl, hTr'⟩ := List.map_eq_append_iff.mp hT.symm
    obtain ⟨p, Tr, rfl, rfl, hTr⟩ := List.map_eq_cons_iff.mp hTr'
    have hentry : n.entry = p.2 := by
      have hrow := hentries p (by simp)
      rw [entryAt, hn] at hrow
      exact Option.some.inj hrow
    have hlo : n.rbtnMinkey = p.2.lo := congrArg Entry.lo hentry
    have hhi : n.rbtnMaxkey = p.2.hi := congrArg Entry.hi hentry
    rw [List.map_append, List.map_cons, ordered_append, ordered_cons] at hordered
    obtain ⟨hordl, ⟨hle, hordr, hapartr⟩, hapartl⟩ := hordered
    have hround : trygetitemRound heap key (some p.1) = if key < p.2.lo then some (.next l.root)
        else if p.2.hi < key then some (.next r.root) else some (.done (some p.1)) := by
      rw [trygetitemRound, hn, some_bind, hlo, hhi, hlhs, hrhs]
    rw [Shape.root]
    by_cases hlt : key < p.2.lo
    · -- all rows from the node on are above the key
      obtain ⟨found, hfound, hspec⟩ := ihl hl (fun q hq => hentries q (by simp [hq])) hTl.symm hordl
        (show l.addrs.length < fuel by omega)
      refine ⟨found, (loop_next (by rw [hround, if_pos hlt])).trans hfound, ?_⟩
      cases found with
      | none =>
        intro q hq hin
        rcases List.mem_append.mp hq with hq | hq
        · exact hspec q hq hin
        · rcases List.mem_cons.mp hq with rfl | hq
          · exact hlt.not_ge hin.1
          · exact (hlt.trans_le (hle.trans (hapartr q.2 (List.mem_map_of_mem hq)).le)).not_ge hin.1
      | some node =>
        obtain ⟨q, hq, hspec⟩ := hspec
        exact ⟨q, List.mem_append_left _ hq, hspec⟩
    by_cases hgt : p.2.hi < key
    · -- all rows up to the node are below the key
      obtain ⟨found, hfound, hspec⟩ := ihr hr (fun q hq => hentries q (by simp [hq])) hTr.symm hordr
        (show r.addrs.length < fuel by omega)
      refine ⟨found, (loop_next (by rw [hround, if_neg hlt, if_pos hgt])).trans hfound, ?_⟩
      cases found with
      | none =>
        intro q hq hin
        rcases List.mem_append.mp hq with hq | hq
        · have hbefore := hapartl q.2 (List.mem_map_of_mem hq) p.2 List.mem_cons_self
          exact (hbefore.trans (hle.trans_lt hgt)).not_ge hin.2
        · rcases List.mem_cons.mp hq with rfl | hq
          · exact hgt.not_ge hin.2
          · exact hspec q hq hin
      | some node =>
        obtain ⟨q, hq, hspec⟩ := hspec
        exact ⟨q, by simp [hq], hspec⟩
    · refine ⟨some p.1, loop_done ?_, p, by simp, rfl, not_lt.mp hlt, not_lt.mp hgt⟩
      rw [hround, if_neg hlt, if_neg hgt]

/-- `rbtree_trygetitem_node` finds the node whose range has the key. -/
theorem rbtreeTrygetitemNode_ends (h : Rows RedBlack ⟨heap, tree.rbtRoot⟩ L) (hordered : Ordered (L.map Prod.snd))
    (key : K) : Ends (rbtreeTrygetitemNode heap tree key) (KeyFound key L) := by
  obtain ⟨t, ht, haddrs⟩ := h.isTree
  have hroot : tree.rbtRoot = t.root := ht.root_eq
  have hlen := ht.length_le
  dsimp only at hlen
  rw [rbtreeTrygetitemNode, hroot]
  exact trygetitemSearch_ends ht.linked h.entries haddrs hordered (by omega)

/-- `rbtree_trygetitem` returns the value of the key. -/
theorem rbtreeTrygetitem_ends (h : Rows RedBlack ⟨heap, tree.rbtRoot⟩ L) (hordered : Ordered (L.map Prod.snd)) (key : K) :
    Ends (rbtreeTrygetitem heap tree key) fun r => ∀ v, r = some v ↔ At (L.map Prod.snd) key v := by
  refine (rbtreeTrygetitemNode_ends h hordered key).bind fun found hfound => ?_
  cases found with
  | none =>
    refine Ends.pure fun v => iff_of_false (by simp) ?_
    rintro ⟨e, he, hin, -⟩
    obtain ⟨p, hp, rfl⟩ := List.mem_map.mp he
    exact hfound p hp hin
  | some node =>
    obtain ⟨p, hp, rfl, hin⟩ := hfound
    obtain ⟨n, hn, hentry⟩ := h.exists_node hp
    have hvalue : n.rbtnValue = p.2.value := congrArg Entry.value hentry
    have hat : At (L.map Prod.snd) key n.rbtnValue := ⟨p.2, List.mem_map_of_mem hp, hin, hvalue.symm⟩
    dsimp only at hn ⊢
    rw [hn, some_bind]
    refine Ends.pure fun v => ⟨fun hv => ?_, fun hv => ?_⟩
    · obtain rfl := Option.some.inj hv
      exact hat
    · rw [hordered.at_unique hat hv]

end Lookup

/-! ### Removal -/

section Remove

variable {RedBlack : Nodes K V → Prop} {abi : RbtreeAbi K V} {heap : NodeHeap K V} {tree : RBTree}
  {L pre post : List (ℕ × Entry K V)} {p : ℕ × Entry K V} {t : Shape ℕ} {a root : ℕ}

theorem IsTree.lastBelow (h : IsTree heap (some a) t) : lastBelow heap a = t.addrs.getLast? := by
  have hlen := h.length_le
  have hleft := leftmost_eq h.linked.mirror ((Shape.root_mirror t).trans h.root_eq.symm)
    (show t.mirror.addrs.length ≤ heap.length + 1 by simp; omega)
  rwa [Shape.addrs_mirror, List.head?_reverse] at hleft

section Take

variable (h : Rows RedBlack ⟨heap, tree.rbtRoot⟩ L) (habi : abi.Correct RedBlack)
include h habi

/-- A node is taken out of the rows, and its entry returned. -/
theorem Rows.takeNode (hL : L = pre ++ p :: post) : Ends (takeNode abi heap tree p.1) fun r =>
      Rows RedBlack ⟨r.1.1, r.1.2.rbtRoot⟩ (pre ++ post) ∧ r.2 = some p.2 := by
  refine (h.remove habi hL).bind ?_
  rintro s' ⟨hrows, hsame, -⟩
  obtain ⟨n, hn, hentry⟩ := entryAt_eq_some ((hsame p.1).trans (h.entries p (by simp [hL])))
  rw [hn, some_bind]
  exact Ends.pure ⟨hrows, congrArg some hentry⟩

/-- `rbtree_popfront` takes out the first row. -/
theorem rbtreePopfront_ends :
    Ends (rbtreePopfront abi heap tree) fun r =>
      Rows RedBlack ⟨r.1.1, r.1.2.rbtRoot⟩ L.tail ∧ r.2 = (L.map Prod.snd).head? := by
  obtain ⟨t, ht, haddrs⟩ := h.isTree
  unfold rbtreePopfront
  cases hroot : tree.rbtRoot with
  | none =>
    obtain rfl := h.nil_of_root hroot
    exact Ends.pure ⟨h, rfl⟩
  | some root =>
    have hfirst := (hroot ▸ ht).firstBelow
    dsimp only at hfirst ⊢
    rw [hfirst, haddrs]
    cases L with
    | nil =>
      have hnil := Shape.root_mem (ht.root_eq.symm.trans hroot)
      rw [haddrs] at hnil
      cases hnil
    | cons p L => exact h.takeNode habi (show p :: L = [] ++ p :: L from rfl)

/-- `rbtree_popback` takes out the last row. -/
theorem rbtreePopback_ends :
    Ends (rbtreePopback abi heap tree) fun r =>
      Rows RedBlack ⟨r.1.1, r.1.2.rbtRoot⟩ L.dropLast ∧ r.2 = (L.map Prod.snd).getLast? := by
  obtain ⟨t, ht, haddrs⟩ := h.isTree
  unfold rbtreePopback
  cases hroot : tree.rbtRoot with
  | none =>
    obtain rfl := h.nil_of_root hroot
    exact Ends.pure ⟨h, rfl⟩
  | some root =>
    have hlast := (hroot ▸ ht).lastBelow
    dsimp only at hlast ⊢
    rw [hlast, haddrs]
    rcases List.eq_nil_or_concat L with rfl | ⟨L, p, rfl⟩
    · have hnil := Shape.root_mem (ht.root_eq.symm.trans hroot)
      rw [haddrs] at hnil
      cases hnil
    · rw [List.concat_eq_append] at h ⊢
      refine Ends.bind (P := (· = p.1)) ⟨p.1, by simp, rfl⟩ ?_
      rintro _ rfl
      refine (h.takeNode habi rfl).mono fun r hr => ?_
      rw [List.append_nil] at hr
      simpa using hr

end Take

theorem rbtreeClear_rows (habi : abi.Correct RedBlack) :
    Rows RedBlack ⟨(rbtreeClear heap tree).1, (rbtreeClear heap tree).2.rbtRoot⟩ [] := by
  have hnone : (rbtreeClear heap tree).2.rbtRoot = none := by
    unfold rbtreeClear
    split
    · assumption
    · rfl
  rw [hnone]
  exact ⟨habi.empty _, ⟨.leaf, ⟨rfl, trivial, List.nodup_nil⟩, rfl⟩, by simp⟩

/-- `rbtree_remove` takes out the row whose range has the key. -/
theorem rbtreeRemove_ends [LinearOrder K] (h : Rows RedBlack ⟨heap, tree.rbtRoot⟩ L) (habi : abi.Correct RedBlack)
    (hordered : Ordered (L.map Prod.snd)) (key : K) : Ends (rbtreeRemove abi heap tree key) fun r =>
      (∃ pre p post, L = pre ++ p :: post ∧ (p.2.lo ≤ key ∧ key ≤ p.2.hi) ∧ r.2 = some p.2 ∧
        Rows RedBlack ⟨r.1.1, r.1.2.rbtRoot⟩ (pre ++ post)) ∨
      (∀ p ∈ L, ¬(p.2.lo ≤ key ∧ key ≤ p.2.hi)) ∧ r = ((heap, tree), none) := by
  refine (rbtreeTrygetitemNode_ends h hordered key).bind fun found hfound => ?_
  cases found with
  | none => exact Ends.pure (.inr ⟨hfound, rfl⟩)
  | some node =>
    obtain ⟨p, hp, rfl, hin⟩ := hfound
    obtain ⟨pre, post, hL⟩ := List.append_of_mem hp
    refine (h.takeNode habi hL).mono fun r hr => .inl ⟨pre, p, post, hL, hin, hr.2, hr.1⟩

end Remove

end Deemon.Collections
