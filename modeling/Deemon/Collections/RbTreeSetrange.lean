import Deemon.Collections.RbTreeDelrange

/-!
# Setting ranges of an `RBTree`

`rbtree_setrange` cuts a range of keys out of the nodes that overlap with it, links in one node for the range and merges
it with its neighbours. There is one path without a merge: where the range covers all nodes that it overlaps with, the
first of them is written over.
-/

namespace Deemon.Collections

open Deemon.Run Deemon.LinkedTree Deemon.RangeMap

variable {K V : Type}

/-! ### Operations -/

/-- `SWAP(&node->rbtn_value, &newnode->rbtn_value)`, with the red bits. -/
def swapValue (heap : NodeHeap K V) (node newnode : ℕ) : Option (NodeHeap K V) := do
  let n ← heap[node]?
  let m ← heap[newnode]?
  let heap ← setNode heap node fun n => { n with rbtnValue := m.rbtnValue, rbtnRed := m.rbtnRed }
  setNode heap newnode fun m => { m with rbtnValue := n.rbtnValue, rbtnRed := n.rbtnRed }

/-- The red bit stays with the node that is in the tree. -/
def keepRed (heap : NodeHeap K V) (node newnode : ℕ) : Option (NodeHeap K V) := do
  let m ← heap[newnode]?
  if m.rbtnRed then do
    let heap ← setNode heap node fun n => { n with rbtnRed := true }
    setNode heap newnode fun m => { m with rbtnRed := false }
  else do
    let n ← heap[node]?
    assert (n.rbtnRed = false)
    some heap

/-- The first of the covered nodes becomes the new one, the others are removed. -/
def overrideNodes (abi : RbtreeAbi K V) (s : Nodes K V) (minNode maxNode newnode : ℕ) : Option (Nodes K V) := do
  let s ← (if minNode ≠ maxNode then do
      removeNodes abi s (← ← rbtreeAbiNextnode s.heap minNode) (some maxNode)
    else some s)
  let heap ← swapMinkey s.heap minNode newnode
  let heap ← swapMaxkey heap minNode newnode
  let heap ← swapValue heap minNode newnode
  let heap ← keepRed heap minNode newnode
  some ⟨heap, s.root⟩

section Setrange

variable [LinearOrder K] [PredOrder K] [SuccOrder K] [DecidableEq V] (abi : RbtreeAbi K V) (ops : AdjacencyOps K)

/-- The special case of `rbtree_setrange` for a range inside of one node. -/
def setInside (s : Nodes K V) (lonode newnode : ℕ) (minkeyPred maxkeySucc : K) : Option (Nodes K V) := do
  let (heap, hinode) ← splitNode s.heap lonode minkeyPred maxkeySucc
  let s ← rbtreeInsertAfter abi ⟨heap, s.root⟩ lonode newnode
  let s ← rbtreeInsertAfter abi s newnode hinode
  rbtreeDoMergenode abi ops s newnode

/-- The case of `rbtree_setrange` for a range with other nodes that are cut off. -/
def setAcross (s : Nodes K V) (minNode maxNode newnode : ℕ) (minkeyPred maxkeySucc : Option K) :
    Option (Nodes K V) := do
  let s ← removeCovered abi s minNode maxNode minkeyPred maxkeySucc
  let s ← (if minkeyPred.isSome then rbtreeInsertAfter abi s minNode newnode
    else rbtreeInsertBefore abi s maxNode newnode)
  rbtreeDoMergenode abi ops s newnode

/-- The three cases of `rbtree_setrange` for a range that overlaps with nodes. -/
def setLocated (s : Nodes K V) (minNode maxNode newnode : ℕ) (minkeyPred maxkeySucc : Option K) : Option (Nodes K V) :=
  match minkeyPred, maxkeySucc with
  | none, none => overrideNodes abi s minNode maxNode newnode
  | some minkeyPred, some maxkeySucc =>
    if minNode = maxNode then setInside abi ops s minNode newnode minkeyPred maxkeySucc
    else setAcross abi ops s minNode maxNode newnode (some minkeyPred) (some maxkeySucc)
  | minkeyPred, maxkeySucc => setAcross abi ops s minNode maxNode newnode minkeyPred maxkeySucc

/-- `rbtree_setrange`. -/
def rbtreeSetrange (heap : NodeHeap K V) (tree : RBTree) (range : KeyRange K) (value : V) :
    Option (NodeHeap K V × RBTree) := do
  let newnode := heap.length
  let heap := heap ++ [⟨none, none, none, range.minkey, range.maxkey, value, false⟩]
  match ← rbtreeDoInsert abi ops heap tree newnode with
  | .inserted heap tree => some (heap, tree)
  | .overlap root => do
    let (minNode, maxNode) ← rbtreeDoMinmaxlocateNodeInRoot heap range root
    let s ← setLocated abi ops ⟨heap, tree.rbtRoot⟩ minNode maxNode newnode (minkeyPred range (← heap[minNode]?))
      (maxkeySucc range (← heap[maxNode]?))
    some (s.heap, ⟨s.root, tree.rbtVersion + 1⟩)

end Setrange

/-! ### Linking in -/

section LinkIn

variable [LinearOrder K] [PredOrder K] [SuccOrder K] [DecidableEq V] {RedBlack : Nodes K V → Prop} {abi : RbtreeAbi K V}
  {ops : AdjacencyOps K} {adj : K → K → Bool} {s : Nodes K V} {L pre mid post : List (ℕ × Entry K V)}
  {p q : ℕ × Entry K V} {e : Entry K V} {m M node : ℕ}

/-- A range inside of one node splits it in two, with the new node between them. -/
theorem Rows.setInside (h : Rows RedBlack s L) (habi : abi.Correct RedBlack) (hordered : Ordered (L.map Prod.snd))
    (hloc : RangeLocated e.lo e.hi L pre [p] post m M) (hnew : Unlinked s L node e)
    (hknown : KnownAt ops adj e (L.map Prod.snd)) (hlo : p.2.lo < e.lo) (hhi : e.hi < p.2.hi) :
    Ends (setInside abi ops s p.1 node (Order.pred e.lo) (Order.succ e.hi))
      (Overwritten adj RedBlack e (L.map Prod.snd)) := by
  have hbelow := hloc.below_eq hordered
  have habove := @RangeLocated.above_eq _ _ _ L pre [] post p e.lo e.hi m M _ hloc hordered
  have hinside := hloc.inside p List.mem_cons_self
  rw [cutBelow_of_le_hi hlo hinside.1] at hbelow
  rw [cutAbove_of_lo_le hinside.2 hhi] at habove
  have hL : L = pre ++ p :: post := by simp [hloc.eq]
  unfold Collections.setInside
  refine (h.splitNode habi hL).bind ?_
  rintro ⟨heap, hinode⟩ ⟨hrows, hhinode, hunlinked⟩
  obtain ⟨hne, hnode⟩ := hunlinked node e hnew
  refine (hrows.insertAfter habi rfl hnode).bind ?_
  rintro s' ⟨hrows', hsame'⟩
  have hsplit : pre ++ (p.1, (⟨p.2.lo, Order.pred e.lo, p.2.value⟩ : Entry K V)) :: (node, e) :: post =
      (pre ++ [(p.1, ⟨p.2.lo, Order.pred e.lo, p.2.value⟩)]) ++ (node, e) :: post := by simp
  have hmem : hinode ∉ (pre ++ (p.1, (⟨p.2.lo, Order.pred e.lo, p.2.value⟩ : Entry K V)) :: (node, e) :: post).map
      Prod.fst := by
    have hnot := hhinode.notMem
    simp only [List.map_append, List.map_cons, List.mem_append, List.mem_cons] at hnot ⊢
    tauto
  refine (hrows'.insertAfter habi hsplit (hhinode.of_same hsame'.others hmem)).bind ?_
  rintro s'' ⟨hrows'', -⟩
  exact hrows''.mergeInto habi (by rw [hbelow]; simp) (by rw [habove]; simp) hknown

/-- A range across nodes that are cut off or removed, with the new node between the rest of them. -/
theorem Rows.setAcross (h : Rows RedBlack s L) (habi : abi.Correct RedBlack) (hordered : Ordered (L.map Prod.snd))
    (hloc : RangeLocated e.lo e.hi L pre mid post m M) (hnew : Unlinked s L node e)
    (hknown : KnownAt ops adj e (L.map Prod.snd)) {minNode maxNode : RbtreeNode K V} (hmin : s.heap[m]? = some minNode)
    (hmax : s.heap[M]? = some maxNode) {range : KeyRange K} (hlo : range.minkey = e.lo) (hhi : range.maxkey = e.hi)
    (hcut : minkeyPred range minNode ≠ none ∨ maxkeySucc range maxNode ≠ none)
    (hne : minkeyPred range minNode ≠ none → maxkeySucc range maxNode ≠ none → m ≠ M) :
    Ends (setAcross abi ops s m M node (minkeyPred range minNode) (maxkeySucc range maxNode))
      (Overwritten adj RedBlack e (L.map Prod.snd)) := by
  rw [← hlo, ← hhi] at hloc
  unfold Collections.setAcross
  refine (h.removeCovered habi hordered hloc hmin hmax hcut hne).bind ?_
  rintro s' ⟨A, B, ⟨hrows, hA, hB⟩, hother, hsub, hlow, hhigh⟩
  have hnode : Unlinked s' (A ++ B) node e := hnew.of_same hother fun hmem => hnew.notMem (hsub hmem)
  rw [hlo] at hA
  rw [hhi] at hB
  cases hpred : minkeyPred range minNode with
  | some k =>
    obtain ⟨A', p, rfl, rfl⟩ := hlow (by rw [hpred]; simp)
    rw [if_pos (Option.isSome_some : (some k).isSome = true)]
    have hsplit : A' ++ [p] ++ B = A' ++ p :: B := by simp
    refine (hrows.insertAfter habi hsplit hnode).bind ?_
    rintro s'' ⟨hrows', -⟩
    rw [List.append_cons] at hrows'
    exact hrows'.mergeInto habi hA hB hknown
  | none =>
    obtain ⟨q, B', rfl, rfl⟩ := hhigh hpred
    rw [if_neg (by simp)]
    refine (hrows.insertBefore habi rfl hnode).bind ?_
    rintro s'' ⟨hrows', -⟩
    exact hrows'.mergeInto habi hA hB hknown

end LinkIn

/-! ### Overriding -/

section Override

variable {RedBlack : Nodes K V → Prop} {abi : RbtreeAbi K V} {s : Nodes K V} {heap₀ heap : NodeHeap K V}
  {L pre mid post : List (ℕ × Entry K V)} {p : ℕ × Entry K V} {e : Entry K V} {a b M : ℕ} {n m : RbtreeNode K V}
  {f g : RbtreeNode K V → RbtreeNode K V}

/-- Only the nodes at `a` and `b` were written to. -/
structure TwoNodes (heap₀ heap : NodeHeap K V) (a b : ℕ) (n m : RbtreeNode K V) : Prop where
  fst : heap[a]? = some n
  snd : heap[b]? = some m
  rest : ∀ x, x ≠ a → x ≠ b → heap[x]? = heap₀[x]?

section Two

variable (h : TwoNodes heap₀ heap a b n m) (hne : a ≠ b)
include h hne

theorem TwoNodes.set :
    Ends (setNode heap a f >>= fun heap => setNode heap b g) fun heap' => TwoNodes heap₀ heap' a b (f n) (g m) := by
  have ha : a < heap.length := (List.getElem?_eq_some_iff.mp h.fst).1
  have hb : b < (heap.modify a f).length := by
    rw [List.length_modify]
    exact (List.getElem?_eq_some_iff.mp h.snd).1
  rw [setNode_of_lt ha, some_bind, setNode_of_lt hb]
  refine Ends.pure ⟨?_, ?_, fun x hxa hxb => ?_⟩
  · rw [getElem_modify_ne hne, getElem_modify_self h.fst]
  · exact getElem_modify_self ((getElem_modify_ne hne.symm).trans h.snd)
  · rw [getElem_modify_ne hxb, getElem_modify_ne hxa, h.rest x hxa hxb]

theorem TwoNodes.swapMinkey :
    Ends (swapMinkey heap a b) fun heap' =>
      TwoNodes heap₀ heap' a b { n with rbtnMinkey := m.rbtnMinkey } { m with rbtnMinkey := n.rbtnMinkey } := by
  unfold Collections.swapMinkey
  rw [h.fst, h.snd, some_bind, some_bind]
  exact h.set hne

theorem TwoNodes.swapMaxkey :
    Ends (swapMaxkey heap a b) fun heap' =>
      TwoNodes heap₀ heap' a b { n with rbtnMaxkey := m.rbtnMaxkey } { m with rbtnMaxkey := n.rbtnMaxkey } := by
  unfold Collections.swapMaxkey
  rw [h.fst, h.snd, some_bind, some_bind]
  exact h.set hne

theorem TwoNodes.swapValue :
    Ends (swapValue heap a b) fun heap' =>
      TwoNodes heap₀ heap' a b { n with rbtnValue := m.rbtnValue, rbtnRed := m.rbtnRed }
        { m with rbtnValue := n.rbtnValue, rbtnRed := n.rbtnRed } := by
  unfold Collections.swapValue
  rw [h.fst, h.snd, some_bind, some_bind]
  exact h.set hne

/-- The node in the tree was black, as a new node is, so it gets the red bit that it had. -/
theorem TwoNodes.keepRed (hn : n.rbtnRed = false) :
    Ends (keepRed heap a b) fun heap' =>
      TwoNodes heap₀ heap' a b { n with rbtnRed := m.rbtnRed } { m with rbtnRed := false } := by
  unfold Collections.keepRed
  rw [h.snd, some_bind]
  by_cases hm : m.rbtnRed = true
  · rw [if_pos hm, hm]
    exact h.set hne
  · rw [if_neg hm, h.fst, some_bind, assert_of hn, some_bind]
    have hm' : m.rbtnRed = false := by simpa using hm
    have hsame : { n with rbtnRed := m.rbtnRed } = n ∧ { m with rbtnRed := false } = m := by
      constructor
      · rw [hm', ← hn]
      · rw [← hm']
    rw [hsame.1, hsame.2]
    exact Ends.pure h

end Two

/-- The new node and the first one of those that it covers exchange all but their places. -/
theorem Rows.override (h : Rows RedBlack s L) (habi : abi.Correct RedBlack) (hL : L = pre ++ p :: post)
    (hnew : Unlinked s L b e) (hred : redAt s.heap b = some false) :
    Ends (do
      let heap ← Collections.swapMinkey s.heap p.1 b
      let heap ← Collections.swapMaxkey heap p.1 b
      let heap ← swapValue heap p.1 b
      let heap ← keepRed heap p.1 b
      some (⟨heap, s.root⟩ : Nodes K V)) fun s' => Rows RedBlack s' (pre ++ (p.1, e) :: post) := by
  obtain ⟨n, hn, -⟩ := h.exists_node (p := p) (by simp [hL])
  obtain ⟨m, hm, rfl⟩ := entryAt_eq_some hnew.entry
  have hmred : m.rbtnRed = false := by simpa [redAt, hm] using hred
  have hne : p.1 ≠ b := fun heq => hnew.notMem (by simp [hL, heq])
  have htwo : TwoNodes s.heap s.heap p.1 b n m := ⟨hn, hm, fun _ _ _ => rfl⟩
  refine (htwo.swapMinkey hne).bind fun heap₁ h₁ => ?_
  refine (h₁.swapMaxkey hne).bind fun heap₂ h₂ => ?_
  refine (h₂.swapValue hne).bind fun heap₃ h₃ => ?_
  refine (h₃.keepRed hne hmred).bind fun heap₄ h₄ => Ends.pure ?_
  have hlinks : SameLinks s.heap heap₄ := by
    intro x k hk
    by_cases hxp : x = p.1
    · subst hxp
      obtain rfl := Option.some.inj (hn.symm.trans hk)
      exact ⟨_, h₄.fst, rfl, rfl⟩
    by_cases hxb : x = b
    · subst hxb
      obtain rfl := Option.some.inj (hm.symm.trans hk)
      exact ⟨_, h₄.snd, rfl, hmred.symm⟩
    · exact ⟨k, (h₄.rest x hxp hxb).trans hk, rfl, rfl⟩
  have hentry : entryAt heap₄ p.1 = some m.entry := by
    rw [entryAt, h₄.fst]
    rfl
  refine h.of_write habi hL hlinks hentry fun q hq hqp => ?_
  have hqb : q.1 ≠ b := fun heq => hnew.notMem (heq ▸ List.mem_map_of_mem hq)
  rw [entryAt, h₄.rest q.1 hqp hqb]
  rfl

/-- The first one of the covered nodes becomes the new one, the others are removed. -/
theorem Rows.overrideNodes (h : Rows RedBlack s L) (habi : abi.Correct RedBlack) (hL : L = pre ++ p :: (mid ++ post))
    (hlast : (p :: mid).getLast?.map Prod.fst = some M) (hnew : Unlinked s L b e)
    (hred : redAt s.heap b = some false) :
    Ends (overrideNodes abi s p.1 M b) fun s' => Rows RedBlack s' (pre ++ (p.1, e) :: post) := by
  have hfirst := h.first_eq_last hL hlast
  unfold Collections.overrideNodes
  cases mid with
  | nil =>
    rw [if_neg (not_not.mpr (hfirst.mpr rfl)), some_bind]
    exact h.override habi hL hnew hred
  | cons q mid =>
    rw [if_pos fun heq => absurd (hfirst.mp heq) (by simp), h.nextnode hL, some_bind]
    rw [List.getLast?_cons_cons] at hlast
    have hsplit : L = (pre ++ [p]) ++ q :: mid ++ post := by simp [hL]
    refine (h.removeNodes habi hsplit rfl hlast).bind ?_
    rintro s' ⟨hrows, hsame, hother⟩
    have hrest : pre ++ [p] ++ post = pre ++ p :: post := by simp
    have hnew' : Unlinked s' (pre ++ [p] ++ post) b e := by
      refine ⟨fun hmem => hnew.notMem ?_, (hsame b).trans hnew.entry⟩
      rw [hrest] at hmem
      simp only [hL, List.map_append, List.map_cons, List.mem_append, List.mem_cons] at hmem ⊢
      tauto
    have hred' : redAt s'.heap b = some false := by
      rw [redAt, hother b hnew.notMem]
      exact hred
    exact hrows.override habi hrest hnew' hred'

end Override

/-! ### Results -/

section Results

variable [LinearOrder K] {RedBlack : Nodes K V → Prop} {abi : RbtreeAbi K V} {L pre mid post : List (ℕ × Entry K V)}
  {p q : ℕ × Entry K V} {s : Nodes K V} {heap : NodeHeap K V} {tree : RBTree} {lo hi : K} {m M : ℕ}

/-- The range covers what it overlaps with if it reaches over the first and the last node there. -/
theorem RangeLocated.covers_iff (h : RangeLocated lo hi L pre mid post m M) (hordered : Ordered (L.map Prod.snd))
    (hp : mid.head? = some p) (hq : mid.getLast? = some q) :
    Covers lo hi (L.map Prod.snd) ↔ lo ≤ p.2.lo ∧ q.2.hi ≤ hi := by
  have hpmem := List.mem_of_mem_head? hp
  have hqmem := List.mem_of_mem_getLast? hq
  have hmem : ∀ x ∈ mid, x.2 ∈ L.map Prod.snd := by
    intro x hx
    refine List.mem_map_of_mem ?_
    rw [h.eq, List.mem_append, List.mem_append]
    exact .inl (.inr hx)
  constructor
  · rintro ⟨-, hall⟩
    exact ⟨(hall p.2 (hmem p hpmem) (h.inside p hpmem)).1, (hall q.2 (hmem q hqmem) (h.inside q hqmem)).2⟩
  · rintro ⟨hlo, hhi⟩
    refine ⟨⟨p.2, hmem p hpmem, h.inside p hpmem⟩, fun e he hover => ?_⟩
    obtain ⟨x, hx, rfl⟩ := List.mem_map.mp he
    rw [h.eq, List.mem_append, List.mem_append] at hx
    rcases hx with (hx | hx) | hx
    · exact absurd hover.1 (h.before x hx).not_ge
    · rw [h.eq, List.map_append, List.map_append] at hordered
      have hmid := (ordered_append.mp (ordered_append.mp hordered).1).2.1
      constructor
      · obtain ⟨rest, hrest⟩ := List.head?_eq_some_iff.mp hp
        rw [hrest, List.map_cons, ordered_cons] at hmid
        rw [hrest, List.mem_cons] at hx
        rcases hx with rfl | hx
        · exact hlo
        · exact hlo.trans (hmid.1.trans (hmid.2.2 x.2 (List.mem_map_of_mem hx)).le)
      · obtain ⟨rest, hrest⟩ := List.getLast?_eq_some_iff.mp hq
        rw [hrest, List.map_append, ordered_append] at hmid
        rw [hrest, List.mem_append, List.mem_singleton] at hx
        rcases hx with hx | rfl
        · have hlt := hmid.2.2 x.2 (List.mem_map_of_mem hx) q.2 (by simp)
          have hle := hmid.2.1.lo_le_hi q.2 (by simp)
          exact hlt.le.trans (hle.trans hhi)
        · exact hhi
    · exact absurd hover.2 (h.behind x hx).not_ge

variable [PredOrder K] [SuccOrder K] [DecidableEq V] {range : KeyRange K} {ops : AdjacencyOps K} {adj : K → K → Bool}

/-- What becomes of the entries `E` when `e` is written over them: it is merged with its neighbours, unless it covers all
that it overlaps with. -/
def setEntries (adj : K → K → Bool) (e : Entry K V) (E : List (Entry K V)) : List (Entry K V) :=
  if Covers e.lo e.hi E then below e.lo E ++ e :: above e.hi E else insertMerged adj (below e.lo E) e (above e.hi E)

theorem ordered_setEntries {E : List (Entry K V)} {e : Entry K V} (h : Ordered E) (he : e.lo ≤ e.hi) :
    Ordered (setEntries adj e E) := by
  unfold setEntries
  split_ifs
  · exact h.replace he
  · exact ordered_insertMerged adj (h.replace he)

/-- The part of `rbtree_setrange` behind `rbtree_do_minmaxlocate_node_in_root`. -/
theorem Rows.setLocated (h : Rows RedBlack s L) (habi : abi.Correct RedBlack) (hordered : Ordered (L.map Prod.snd))
    {e : Entry K V} (hloc : RangeLocated e.lo e.hi L pre mid post m M) {node : ℕ} (hnew : Unlinked s L node e)
    (hred : redAt s.heap node = some false)
    (hknown : ¬Covers e.lo e.hi (L.map Prod.snd) → KnownAt ops adj e (L.map Prod.snd)) {minNode maxNode : RbtreeNode K V}
    (hmin : s.heap[m]? = some minNode) (hmax : s.heap[M]? = some maxNode) (hlo : range.minkey = e.lo)
    (hhi : range.maxkey = e.hi) :
    Ends (setLocated abi ops s m M node (minkeyPred range minNode) (maxkeySucc range maxNode)) fun s' => ∃ L',
        Rows RedBlack s' L' ∧ L'.map Prod.snd = setEntries adj e (L.map Prod.snd) := by
  obtain ⟨p, q, n, n', hp, hq, rfl, rfl, hn, hn', hnentry, hnentry'⟩ := h.located_ends hloc
  obtain rfl := Option.some.inj (hn.symm.trans hmin)
  obtain rfl := Option.some.inj (hn'.symm.trans hmax)
  have hplo : n.rbtnMinkey = p.2.lo := congrArg Entry.lo hnentry
  have hqhi : n'.rbtnMaxkey = q.2.hi := congrArg Entry.hi hnentry'
  have hcovers : Covers e.lo e.hi (L.map Prod.snd) ↔ minkeyPred range n = none ∧ maxkeySucc range n' = none := by
    rw [minkeyPred_eq_none, maxkeySucc_eq_none, hplo, hqhi, hlo, hhi]
    exact hloc.covers_iff hordered hp hq
  -- where the range does not cover all nodes, the new one is merged
  have hmerge : ¬Covers e.lo e.hi (L.map Prod.snd) → ∀ s', Overwritten adj RedBlack e (L.map Prod.snd) s' →
      ∃ L', Rows RedBlack s' L' ∧ L'.map Prod.snd = setEntries adj e (L.map Prod.snd) := by
    rintro hcov s' ⟨L', hrows, hmap⟩
    exact ⟨L', hrows, by rw [hmap, setEntries, if_neg hcov]⟩
  have hacross : ¬Covers e.lo e.hi (L.map Prod.snd) →
      (minkeyPred range n ≠ none → maxkeySucc range n' ≠ none → p.1 ≠ q.1) →
      Ends (Collections.setAcross abi ops s p.1 q.1 node (minkeyPred range n) (maxkeySucc range n')) fun s' => ∃ L',
        Rows RedBlack s' L' ∧ L'.map Prod.snd = setEntries adj e (L.map Prod.snd) := by
    intro hcov hne
    have hcut : minkeyPred range n ≠ none ∨ maxkeySucc range n' ≠ none := by
      rw [hcovers] at hcov
      tauto
    exact (h.setAcross habi hordered hloc hnew (hknown hcov) hn hn' hlo hhi hcut hne).mono (hmerge hcov)
  unfold Collections.setLocated
  cases hpred : minkeyPred range n with
  | none =>
    cases hsucc : maxkeySucc range n' with
    | none =>
      have hcov := hcovers.mpr ⟨hpred, hsucc⟩
      obtain ⟨rest, hrest⟩ := List.head?_eq_some_iff.mp hp
      obtain ⟨rest', hrest'⟩ := List.getLast?_eq_some_iff.mp hq
      have hL : L = pre ++ p :: (rest ++ post) := by simp [hloc.eq, hrest]
      refine (h.overrideNodes habi hL (hrest ▸ hloc.last) hnew hred).mono fun s' hrows => ⟨_, hrows, ?_⟩
      rw [minkeyPred_eq_none, hplo, hlo] at hpred
      rw [maxkeySucc_eq_none, hqhi, hhi] at hsucc
      have hbelow := (hrest ▸ hloc).below_eq hordered
      have habove := (hrest' ▸ hloc).above_eq hordered
      rw [cutBelow_eq_none hpred, Option.toList_none, List.append_nil] at hbelow
      rw [cutAbove_eq_none hsucc, Option.toList_none, List.nil_append] at habove
      rw [setEntries, if_pos hcov, hbelow, habove]
      simp
    | some k =>
      rw [hpred, hsucc] at hacross hcovers
      exact hacross (by rw [hcovers]; simp) (by simp)
  | some k =>
    cases hsucc : maxkeySucc range n' with
    | none =>
      rw [hpred, hsucc] at hacross hcovers
      exact hacross (by rw [hcovers]; simp) (by simp)
    | some k' =>
      have hcov : ¬Covers e.lo e.hi (L.map Prod.snd) := by
        rw [hcovers, hpred]
        simp
      obtain ⟨hplt, rfl⟩ := minkeyPred_eq_some hpred
      obtain ⟨hqgt, rfl⟩ := maxkeySucc_eq_some hsucc
      dsimp only
      split_ifs with hpq
      · obtain ⟨x, rfl, -⟩ := h.singleton_of_eq (hpq ▸ hloc)
        obtain rfl := Option.some.inj hp
        obtain rfl := Option.some.inj hq
        rw [hplo, hlo] at hplt
        rw [hqhi, hhi] at hqgt
        rw [hlo, hhi]
        exact (h.setInside habi hordered hloc hnew (hknown hcov) hplt hqgt).mono (hmerge hcov)
      · rw [← hpred, ← hsucc]
        exact hacross hcov fun _ _ => hpq

/-- `rbtree_setrange` writes the range over the entries, provided that the keys of the new node and its neighbours can be
told to touch wherever it is merged with these. -/
theorem rbtreeSetrange_ends (h : Rows RedBlack ⟨heap, tree.rbtRoot⟩ L) (habi : abi.Correct RedBlack)
    (hordered : Ordered (L.map Prod.snd)) (hle : range.minkey ≤ range.maxkey) (value : V)
    (hknown : ¬Covers range.minkey range.maxkey (L.map Prod.snd) →
      KnownAt ops adj ⟨range.minkey, range.maxkey, value⟩ (L.map Prod.snd)) :
    Ends (rbtreeSetrange abi ops heap tree range value) fun r => ∃ L', Rows RedBlack ⟨r.1, r.2.rbtRoot⟩ L' ∧
      L'.map Prod.snd = setEntries adj ⟨range.minkey, range.maxkey, value⟩ (L.map Prod.snd) := by
  obtain ⟨hrows, hnew⟩ := h.alloc habi ⟨none, none, none, range.minkey, range.maxkey, value, false⟩
  have hred : redAt (heap ++ [⟨none, none, none, range.minkey, range.maxkey, value, false⟩]) heap.length = some false := by
    rw [redAt, List.getElem?_concat_length]
    rfl
  have hnot : (∀ q ∈ L.map Prod.snd, ¬Overlaps range.minkey range.maxkey q) →
      ¬Covers range.minkey range.maxkey (L.map Prod.snd) := by
    rintro hno ⟨⟨q, hq, hover⟩, -⟩
    exact hno q hq hover
  unfold rbtreeSetrange
  refine (rbtreeDoInsert_ends hrows habi hordered hnew hle fun hno => hknown (hnot hno)).bind ?_
  rintro r (⟨x, hx, rfl, hover⟩ | ⟨hno, heap', tree', rfl, L', hrows', hmap⟩)
  · refine (hrows.minmaxlocateInRoot hordered range hx hover).bind ?_
    rintro ⟨minNode, maxNode⟩ ⟨pre, mid, post, hloc⟩
    obtain ⟨-, -, n, n', -, -, -, -, hn, hn', -⟩ := hrows.located_ends hloc
    dsimp only at hn hn' ⊢
    rw [hn, some_bind, hn', some_bind]
    refine (hrows.setLocated habi hordered hloc hnew hred hknown hn hn' rfl rfl).bind ?_
    rintro s' ⟨L', hrows', hmap⟩
    exact Ends.pure ⟨L', hrows', hmap⟩
  · exact Ends.pure ⟨L', hrows', by rw [hmap, setEntries, if_neg (hnot hno)]; rfl⟩

end Results

end Deemon.Collections
