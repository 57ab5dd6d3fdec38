import Deemon.Collections.RbTreeIterator

/-!
# Comparing the iterators of an `RBTree`

`rbtreeiter_lo_impl` looks for the node of the other iterator among the nodes before its own: in the left subtree, and
while it goes up, in each parent that it reaches from the right and in the left subtree of that parent. It answers
`true` where it finds the node, so two iterators at different positions compare the wrong way around; the end of the
tree is never found, and to start from it is to dereference `NULL`.
-/

namespace Deemon.Collections

open Deemon.Run Deemon.LinkedTree

variable {K V : Type}

/-- `struct rbtree_iterator_object`, with its own address and the one of its tree. -/
structure RBTreeIteratorObject where
  addr : ℕ
  rbtiTree : ℕ
  iter : RBTreeIterator

/-! ### Operations -/

/-- `rbtree_node_subtree_contains`, from the label `again` on. -/
def rbtreeNodeSubtreeContains (heap : NodeHeap K V) (elem : Option ℕ) : ℕ → ℕ → Option Bool
  | 0, _ => none
  | fuel + 1, subtree =>
    if some subtree = elem then some true
    else do
      let n ← heap[subtree]?
      match n.rbtnLhs with
      | some lhs =>
        match n.rbtnRhs with
        | some rhs => do
          if ← rbtreeNodeSubtreeContains heap elem fuel rhs then some true
          else rbtreeNodeSubtreeContains heap elem fuel lhs
        | none => rbtreeNodeSubtreeContains heap elem fuel lhs
      | none =>
        match n.rbtnRhs with
        | some rhs => rbtreeNodeSubtreeContains heap elem fuel rhs
        | none => some false

/-- `lhs_node->rbtn_lhs && rbtree_node_subtree_contains(lhs_node->rbtn_lhs, rhs_node)`. -/
def lhsContains (heap : NodeHeap K V) (rhsNode lhs : Option ℕ) : Option Bool :=
  match lhs with
  | some lhs => rbtreeNodeSubtreeContains heap rhsNode (heap.length + 1) lhs
  | none => some false

/-- One round of the loop of `rbtreeiter_lo_impl`, which starts at the label `goto_par` if the flag is set. -/
def findBeforeRound (heap : NodeHeap K V) (rhsNode : Option ℕ) (lhsNode : ℕ) (gotoPar : Bool) :
    Option (Step (ℕ × Bool) Bool) := do
  let n ← heap[lhsNode]?
  if ← (if gotoPar then some false else lhsContains heap rhsNode n.rbtnLhs) then some (.done true)
  else
    match n.rbtnPar with
    | none => some (.done false)
    | some par => do
      let m ← heap[par]?
      if m.rbtnLhs = some lhsNode then
        if some par = rhsNode then some (.done false) else some (.next (par, true))
      else
        if some par = rhsNode then some (.done true) else some (.next (par, false))

/-- The loop of `rbtreeiter_lo_impl`. -/
def findBefore (heap : NodeHeap K V) (rhsNode : Option ℕ) (fuel lhsNode : ℕ) (gotoPar : Bool) : Option Bool :=
  loop (fun (lhsNode, gotoPar) => findBeforeRound heap rhsNode lhsNode gotoPar) fuel (lhsNode, gotoPar)

/-- `lhs < rhs` of two addresses, `NULL` below all others. -/
def addrLo : Option ℕ → Option ℕ → Bool
  | _, none => false
  | none, some _ => true
  | some lhs, some rhs => decide (lhs < rhs)

/-- `lhs <= rhs` of two addresses. -/
def addrLe (lhs rhs : Option ℕ) : Bool := !addrLo rhs lhs

/-- What `rbtreeiter_lo_impl` and `rbtreeiter_le_impl` have in common: they differ in what they return for the same
node, and for a tree that has changed. -/
def rbtreeiterCmpImpl (same : Bool) (changed : Option ℕ → Option ℕ → Bool) (heap : NodeHeap K V) (tree : RBTree)
    (self other : RBTreeIteratorObject) : Option Bool :=
  if self.addr = other.addr then some same
  else if self.rbtiTree ≠ other.rbtiTree then some (decide (self.rbtiTree < other.rbtiTree))
  else if self.iter.rbtiNext = other.iter.rbtiNext then some same
  else if self.iter.rbtiVersion ≠ tree.rbtVersion ∨ other.iter.rbtiVersion ≠ tree.rbtVersion then
    some (changed self.iter.rbtiNext other.iter.rbtiNext)
  else do
    findBefore heap other.iter.rbtiNext (heap.length + 1) (← self.iter.rbtiNext) false

section Operators

variable (heap : NodeHeap K V) (tree : RBTree) (self other : RBTreeIteratorObject)

/-- `rbtreeiter_lo_impl`. -/
def rbtreeiterLoImpl : Option Bool :=
  rbtreeiterCmpImpl false addrLo heap tree self other

/-- `rbtreeiter_le_impl`. -/
def rbtreeiterLeImpl : Option Bool :=
  rbtreeiterCmpImpl true addrLe heap tree self other

/-- `rbtreeiter_eq_impl`. -/
def rbtreeiterEqImpl : Bool :=
  if self.addr = other.addr then true
  else if self.rbtiTree ≠ other.rbtiTree then false
  else if self.iter.rbtiNext ≠ other.iter.rbtiNext then false
  else true

/-- `rbtreeiter_eq`. -/
def rbtreeiterEq : Bool := rbtreeiterEqImpl self other

/-- `rbtreeiter_ne`. -/
def rbtreeiterNe : Bool := !rbtreeiterEqImpl self other

/-- `rbtreeiter_lo`. -/
def rbtreeiterLo : Option Bool :=
  rbtreeiterLoImpl heap tree self other

/-- `rbtreeiter_le`. -/
def rbtreeiterLe : Option Bool :=
  rbtreeiterLeImpl heap tree self other

/-- `rbtreeiter_gr`. -/
def rbtreeiterGr : Option Bool :=
  rbtreeiterLoImpl heap tree other self

/-- `rbtreeiter_ge`. -/
def rbtreeiterGe : Option Bool :=
  rbtreeiterLeImpl heap tree other self

end Operators

/-! ### The nodes before a node -/

section Find

variable {heap : NodeHeap K V} {p b : Option ℕ} {t lhs : Shape ℕ} {a fuel : ℕ}

/-- The subtree is searched as a whole. -/
theorem subtreeContains_ends (h : Linked heap.links p t) (hroot : t.root = some a) (hfuel : t.addrs.length ≤ fuel) :
    Ends (rbtreeNodeSubtreeContains heap b fuel a) fun r => r = true ↔ ∃ x ∈ t.addrs, some x = b := by
  induction t generalizing p a fuel with
  | leaf => cases hroot
  | node lhs c rhs ihl ihr =>
    obtain rfl : c = a := Option.some.inj hroot
    obtain ⟨hc, hl, hr⟩ := h
    obtain ⟨n, hn, hlinks⟩ := Option.map_eq_some_iff.mp hc
    obtain ⟨hpar, hlhs, hrhs⟩ := Links.mk.inj hlinks
    simp only [Shape.addrs, List.length_append, List.length_cons] at hfuel
    simp only [Shape.addrs, List.mem_append, List.mem_cons]
    obtain ⟨fuel, rfl⟩ : ∃ k, fuel = k + 1 := ⟨fuel - 1, by omega⟩
    rw [rbtreeNodeSubtreeContains]
    by_cases heq : some c = b
    · rw [if_pos heq]
      exact Ends.pure ⟨fun _ => ⟨c, .inr (.inl rfl), heq⟩, fun _ => rfl⟩
    · rw [if_neg heq, hn, some_bind, hlhs, hrhs]
      cases hrootl : lhs.root with
      | none =>
        rw [Shape.eq_leaf hrootl]
        cases hrootr : rhs.root with
        | none =>
          rw [Shape.eq_leaf hrootr]
          exact Ends.pure (by simp [Shape.addrs, heq])
        | some r =>
          refine (ihr hr hrootr (by omega)).mono fun found hfound => hfound.trans ?_
          simp [Shape.addrs, heq]
      | some l =>
        cases hrootr : rhs.root with
        | none =>
          rw [Shape.eq_leaf hrootr]
          refine (ihl hl hrootl (by omega)).mono fun found hfound => hfound.trans ?_
          simp [Shape.addrs, or_and_right, exists_or, heq]
        | some r =>
          dsimp only
          refine (ihr hr hrootr (by omega)).bind fun found hfound => ?_
          cases found with
          | true =>
            obtain ⟨x, hx, hxb⟩ := hfound.mp rfl
            exact Ends.pure ⟨fun _ => ⟨x, .inr (.inr hx), hxb⟩, fun _ => rfl⟩
          | false =>
            have hright : ¬∃ x ∈ rhs.addrs, some x = b := fun hx => Bool.false_ne_true (hfound.mpr hx)
            refine (ihl hl hrootl (by omega)).mono fun found hfound => hfound.trans ?_
            simp only [or_and_right, exists_or, exists_eq_left, heq, hright, or_false]

theorem lhsContains_ends (h : Linked heap.links p lhs) (hle : lhs.addrs.length ≤ heap.length) :
    Ends (lhsContains heap b lhs.root) fun r => r = true ↔ ∃ x ∈ lhs.addrs, some x = b := by
  cases hroot : lhs.root with
  | none =>
    rw [Shape.eq_leaf hroot]
    exact Ends.pure (by simp [Shape.addrs])
  | some l => exact subtreeContains_ends h hroot (Nat.le_succ_of_le hle)

/-- A round that finds nothing in the left subtree goes on at `goto_par`. -/
theorem findBefore_false {n : Links ℕ} (ha : heap.links a = some n) (hroot : n.lhs = lhs.root)
    (hl : Linked heap.links p lhs) (hle : lhs.addrs.length ≤ heap.length) :
    (∃ x ∈ lhs.addrs, some x = b) ∧ findBefore heap b (fuel + 1) a false = some true ∨
      (¬∃ x ∈ lhs.addrs, some x = b) ∧ findBefore heap b (fuel + 1) a false = findBefore heap b (fuel + 1) a true := by
  obtain ⟨node, hnode, rfl⟩ := Option.map_eq_some_iff.mp ha
  obtain ⟨found, hfound, hiff⟩ := lhsContains_ends (b := b) hl hle
  rw [← hroot] at hfound
  have hround : findBeforeRound heap b a false = if found then some (.done true) else findBeforeRound heap b a true := by
    unfold findBeforeRound
    rw [hnode, some_bind, some_bind, if_neg Bool.false_ne_true, if_pos rfl, some_bind]
    exact congrArg (· >>= _) hfound
  cases found with
  | true => exact .inl ⟨hiff.mp rfl, loop_done (hround.trans (if_pos rfl))⟩
  | false =>
    refine .inr ⟨fun hx => Bool.false_ne_true (hiff.mpr hx), ?_⟩
    change (findBeforeRound heap b a false >>= _) = (findBeforeRound heap b a true >>= _)
    rw [hround, if_neg Bool.false_ne_true]

/-- A round at `goto_par` looks at the parent only. -/
theorem findBeforeRound_true {l r : Option ℕ} {par : ℕ} {m : Links ℕ} (ha : heap.links a = some ⟨some par, l, r⟩)
    (hm : heap.links par = some m) : findBeforeRound heap b a true =
      if m.lhs = some a then if some par = b then some (.done false) else some (.next (par, true))
      else if some par = b then some (.done true) else some (.next (par, false)) := by
  obtain ⟨node, hnode, hlinks⟩ := Option.map_eq_some_iff.mp ha
  obtain ⟨hpar, -, -⟩ := Links.mk.inj hlinks
  obtain ⟨parent, hparent, rfl⟩ := Option.map_eq_some_iff.mp hm
  unfold findBeforeRound
  rw [hnode, some_bind, if_pos rfl, some_bind, if_neg Bool.false_ne_true, hpar]
  dsimp only
  rw [hparent, some_bind]
  rfl

/-- Going up finds exactly what is before the node. -/
theorem findBefore_true {c : Path ℕ} (ha : ∃ l r, heap.links a = some ⟨c.parent, l, r⟩)
    (hc : LinkedPath heap.links (some a) c) (hnodup : (c.before ++ a :: c.after).Nodup)
    (hle : c.before.length ≤ heap.length) (hfuel : c.length < fuel) :
    Ends (findBefore heap b fuel a true) fun r => r = true ↔ ∃ x ∈ c.before, some x = b := by
  obtain ⟨l, r, ha⟩ := ha
  obtain ⟨fuel, rfl⟩ : ∃ k, fuel = k + 1 := ⟨fuel - 1, by omega⟩
  induction c generalizing a fuel l r with
  | top =>
    obtain ⟨node, hnode, hlinks⟩ := Option.map_eq_some_iff.mp ha
    obtain ⟨hpar, -, -⟩ := Links.mk.inj hlinks
    refine ⟨false, loop_done ?_, by simp [Path.before]⟩
    dsimp only
    unfold findBeforeRound
    rw [hnode, some_bind, if_pos rfl, some_bind, if_neg Bool.false_ne_true, hpar]
    rfl
  | fromLhs par rhs c ih =>
    obtain ⟨hm, -, hc⟩ := hc
    rw [Path.before, Path.after] at hnodup
    rw [Path.length] at hfuel
    have hsub : (c.before ++ par :: c.after).Nodup := by
      refine hnodup.sublist (List.Sublist.append_left ?_ _)
      exact (List.Sublist.cons_cons _ (List.sublist_append_right _ _)).cons _
    have hround := findBeforeRound_true (b := b) ha hm
    rw [if_pos rfl] at hround
    by_cases hb : some par = b
    · rw [if_pos hb] at hround
      refine ⟨false, loop_done hround, ⟨fun h => absurd h Bool.false_ne_true, ?_⟩⟩
      rintro ⟨x, hx, rfl⟩
      obtain rfl := Option.some.inj hb
      exact absurd rfl ((List.nodup_append.mp hsub).2.2 par hx par (by simp))
    · rw [if_neg hb] at hround
      obtain ⟨fuel, rfl⟩ : ∃ k, fuel = k + 1 := ⟨fuel - 1, by omega⟩
      obtain ⟨found, hfound, hiff⟩ := ih hc hsub hle _ _ hm fuel (by omega)
      exact ⟨found, (loop_next hround).trans hfound, hiff⟩
  | fromRhs lhs par c ih =>
    obtain ⟨hm, hl, hc⟩ := hc
    rw [Path.before, Path.after, List.append_assoc, List.append_assoc] at hnodup
    rw [Path.before, List.length_append, List.length_append] at hle
    rw [Path.length] at hfuel
    have hsub : (c.before ++ par :: c.after).Nodup := by
      refine hnodup.sublist (List.Sublist.append_left ?_ _)
      exact (List.Sublist.cons_cons _ (List.sublist_cons_self _ _)).trans (List.sublist_append_right _ _)
    have hne : ¬lhs.root = some a := by
      intro hroot
      have hrest := (List.nodup_append.mp (List.nodup_append.mp hnodup).2.1).2.2
      exact hrest a (Shape.root_mem hroot) a (by simp) rfl
    have hround := findBeforeRound_true (b := b) ha hm
    rw [if_neg hne] at hround
    by_cases hb : some par = b
    · rw [if_pos hb] at hround
      exact ⟨true, loop_done hround, fun _ => ⟨par, by simp [Path.before], hb⟩, fun _ => rfl⟩
    · rw [if_neg hb] at hround
      obtain ⟨fuel, rfl⟩ : ∃ k, fuel = k + 1 := ⟨fuel - 1, by omega⟩
      have hnext : findBefore heap b (fuel + 1 + 1) a true = findBefore heap b (fuel + 1) par false := loop_next hround
      rw [hnext]
      rcases @findBefore_false _ _ heap _ b lhs par fuel _ hm rfl hl (by omega) with
        ⟨⟨x, hx, hxb⟩, htrue⟩ | ⟨hnone, hsame⟩
      · exact ⟨true, htrue, fun _ => ⟨x, by simp [Path.before, hx], hxb⟩, fun _ => rfl⟩
      · rw [hsame]
        refine (ih hc hsub (by omega) _ _ hm fuel (by omega)).mono fun found hiff => hiff.trans ?_
        simp only [Path.before, List.mem_append, List.mem_singleton, or_and_right, exists_or, exists_eq_left, hb, hnone,
          or_false]

end Find

/-! ### The order of positions -/

/-- The iterator at a position, as an object at the address `addr`. -/
def iterObjectAt (addr rbtiTree : ℕ) (tree : RBTree) (t : Shape ℕ) (p : ℕ) : RBTreeIteratorObject :=
  ⟨addr, rbtiTree, iterAt tree t p⟩

/-- The comparisons of two iterators are those of their positions. -/
structure OrderLaws (heap : NodeHeap K V) (tree : RBTree) (x y : RBTreeIteratorObject) (p q : ℕ) : Prop where
  lo : rbtreeiterLo heap tree x y = some (decide (p < q))
  le : rbtreeiterLe heap tree x y = some (decide (p ≤ q))
  eq : rbtreeiterEq x y = decide (p = q)
  ne : rbtreeiterNe x y = decide (p ≠ q)
  gr : rbtreeiterGr heap tree x y = some (decide (p > q))
  ge : rbtreeiterGe heap tree x y = some (decide (p ≥ q))

section Order

variable {heap : NodeHeap K V} {tree : RBTree} {t : Shape ℕ} {root : Option ℕ} {p q i j addr fuel : ℕ}

/-- Positions up to the end are told apart by what they point to. -/
theorem getElem_inj {l : List ℕ} (hnodup : l.Nodup) (hp : p ≤ l.length) (hq : q ≤ l.length) :
    l[p]? = l[q]? ↔ p = q := by
  constructor
  · intro h
    rcases hp.lt_or_eq with hlt | rfl
    · exact (List.getElem?_inj hlt hnodup).mp h
    · rw [List.getElem?_eq_none le_rfl] at h
      exact le_antisymm (List.getElem?_eq_none_iff.mp h.symm) hq
  · exact fun h => h ▸ rfl

theorem mem_take_iff {l : List ℕ} (hnodup : l.Nodup) (hp : p ≤ l.length) (hq : q ≤ l.length) :
    (∃ x ∈ l.take p, some x = l[q]?) ↔ q < p := by
  constructor
  · rintro ⟨x, hx, heq⟩
    obtain ⟨i, hi, rfl⟩ := List.mem_take_iff_getElem.mp hx
    rw [← List.getElem?_eq_getElem, getElem_inj hnodup (by omega) hq] at heq
    omega
  · intro hlt
    exact ⟨l[q], List.mem_take_iff_getElem.mpr ⟨q, by omega, rfl⟩, (List.getElem?_eq_getElem _).symm⟩

/-- The other node is found if it is before the first one. -/
theorem IsTree.findBefore (h : IsTree heap root t) (hp : p < t.addrs.length) (hq : q ≤ t.addrs.length) :
    findBefore heap t.addrs[q]? (heap.length + 1) t.addrs[p] false = some (decide (q < p)) := by
  have hsplit : t.addrs = t.addrs.take p ++ t.addrs[p] :: t.addrs.drop (p + 1) := by simp
  have hheap := h.length_le
  obtain ⟨c, lhs, rhs, hplug, hpre, hpost⟩ := exists_path hsplit
  obtain ⟨⟨ha, hl, hr⟩, hc⟩ := linked_plug.mp (hplug ▸ h.linked)
  have hlen := c.length_le (.node lhs t.addrs[p] rhs)
  have haddrs := c.addrs_plug (.node lhs t.addrs[p] rhs)
  rw [hplug] at hlen haddrs
  have hcount := congrArg List.length haddrs
  simp only [Shape.addrs, List.length_append, List.length_cons] at hlen hcount
  have hnodup : (c.before ++ t.addrs[p] :: c.after).Nodup := by
    have hall := h.nodup
    rw [haddrs, Shape.addrs, List.append_assoc, List.append_assoc] at hall
    refine hall.sublist (List.Sublist.append_left ?_ _)
    exact (List.Sublist.cons_cons _ (List.sublist_append_right _ _)).trans (List.sublist_append_right _ _)
  have hmem : (∃ x ∈ c.before ++ lhs.addrs, some x = t.addrs[q]?) ↔ q < p := by
    rw [← hpre]
    exact mem_take_iff h.nodup hp.le hq
  have hfuel : c.length < heap.length + 1 := by omega
  rcases @findBefore_false _ _ heap _ t.addrs[q]? lhs _ heap.length _ ha rfl hl (by omega) with
    ⟨⟨x, hx, hxb⟩, htrue⟩ | ⟨hnone, hsame⟩
  · rw [htrue, decide_eq_true (hmem.mp ⟨x, List.mem_append_right _ hx, hxb⟩)]
  · obtain ⟨found, hfound, hiff⟩ := findBefore_true (b := t.addrs[q]?) ⟨_, _, ha⟩ hc hnodup (by omega) hfuel
    rw [hsame, hfound]
    congr 1
    rw [Bool.eq_iff_iff, hiff, decide_eq_true_iff, ← hmem]
    simp only [List.mem_append, or_and_right, exists_or, hnone, or_false]

/-- What a comparison returns: the order the wrong way around, and nothing at the end of the tree. -/
theorem cmpImpl_eq (h : IsTree heap tree.rbtRoot t) (hp : p ≤ t.addrs.length) (hq : q ≤ t.addrs.length)
    (haddr : i = j → p = q) (same : Bool) (changed : Option ℕ → Option ℕ → Bool) :
    rbtreeiterCmpImpl same changed heap tree (iterObjectAt i addr tree t p) (iterObjectAt j addr tree t q) =
      if p = q then some same else if p = t.addrs.length then none else some (decide (q < p)) := by
  have hnext : (iterAt tree t p).rbtiNext = (iterAt tree t q).rbtiNext ↔ p = q := getElem_inj h.nodup hp hq
  unfold rbtreeiterCmpImpl iterObjectAt
  dsimp only
  by_cases hpq : p = q
  · rw [if_pos hpq]
    by_cases hij : i = j
    · rw [if_pos hij]
    · rw [if_neg hij, if_neg (not_not.mpr rfl), if_pos (hnext.mpr hpq)]
  · have hversion : ¬((iterAt tree t p).rbtiVersion ≠ tree.rbtVersion ∨
        (iterAt tree t q).rbtiVersion ≠ tree.rbtVersion) := by
      rintro (hne | hne)
      · exact hne rfl
      · exact hne rfl
    rw [if_neg hpq, if_neg (mt haddr hpq), if_neg (not_not.mpr rfl), if_neg (mt hnext.mp hpq), if_neg hversion]
    dsimp only [iterAt]
    rcases hp.lt_or_eq with hlt | heq
    · rw [if_neg hlt.ne, List.getElem?_eq_getElem hlt, some_bind]
      exact h.findBefore hlt hq
    · rw [if_pos heq, List.getElem?_eq_none heq.ge]
      rfl

theorem eqImpl_eq (h : IsTree heap tree.rbtRoot t) (hp : p ≤ t.addrs.length) (hq : q ≤ t.addrs.length)
    (haddr : i = j → p = q) :
    rbtreeiterEqImpl (iterObjectAt i addr tree t p) (iterObjectAt j addr tree t q) = decide (p = q) := by
  have hnext : (iterAt tree t p).rbtiNext = (iterAt tree t q).rbtiNext ↔ p = q := getElem_inj h.nodup hp hq
  unfold rbtreeiterEqImpl iterObjectAt
  dsimp only
  by_cases hij : i = j
  · rw [if_pos hij, decide_eq_true (haddr hij)]
  · rw [if_neg hij, if_neg (not_not.mpr rfl)]
    by_cases hpq : p = q
    · rw [if_neg (not_not.mpr (hnext.mpr hpq)), decide_eq_true hpq]
    · rw [if_pos (mt hnext.mp hpq), decide_eq_false hpq]

/-- The comparisons order two iterators as their positions only where these are the same. -/
theorem orderLaws_iff (h : IsTree heap tree.rbtRoot t) (hp : p ≤ t.addrs.length) (hq : q ≤ t.addrs.length)
    (haddr : i = j → p = q) :
    OrderLaws heap tree (iterObjectAt i addr tree t p) (iterObjectAt j addr tree t q) p q ↔ p = q := by
  have hcmp := @cmpImpl_eq _ _ heap tree t p q i j addr h hp hq haddr
  have hswap := @cmpImpl_eq _ _ heap tree t q p j i addr h hq hp fun hji => (haddr hji.symm).symm
  constructor
  · intro hlaws
    by_contra hpq
    have hle := (hcmp true addrLe).symm.trans hlaws.le
    rw [if_neg hpq] at hle
    split_ifs at hle with hend
    have hiff := decide_eq_decide.mp (Option.some.inj hle)
    omega
  · intro hpq
    simp only [if_pos hpq] at hcmp
    simp only [if_pos hpq.symm] at hswap
    constructor
    · exact (hcmp false addrLo).trans (congrArg some (decide_eq_false hpq.not_lt).symm)
    · exact (hcmp true addrLe).trans (congrArg some (decide_eq_true hpq.le).symm)
    · exact eqImpl_eq h hp hq haddr
    · unfold rbtreeiterNe
      rw [eqImpl_eq h hp hq haddr, decide_not]
    · exact (hswap false addrLo).trans (congrArg some (decide_eq_false hpq.not_gt).symm)
    · exact (hswap true addrLe).trans (congrArg some (decide_eq_true hpq.ge).symm)

end Order

theorem orderLaws_threeNodes : IsTree threeNodes (some 1) threeShape ∧ 2 ≤ threeShape.addrs.length ∧
    (OrderLaws threeNodes ⟨some 1, 0⟩ (iterObjectAt 0 0 ⟨some 1, 0⟩ threeShape 2)
      (iterObjectAt 1 0 ⟨some 1, 0⟩ threeShape 2) 2 2 ↔ 2 = 2) :=
  ⟨isTree_threeNodes, by decide, orderLaws_iff isTree_threeNodes (by decide) (by decide) (fun _ => rfl)⟩

/-- The first position is not below the second one but the second is below the first, and to compare from the end is
to dereference `NULL`. -/
theorem order_reversed : IsTree threeNodes (some 1) threeShape ∧
    rbtreeiterLo threeNodes ⟨some 1, 0⟩ (iterObjectAt 0 0 ⟨some 1, 0⟩ threeShape 0)
      (iterObjectAt 1 0 ⟨some 1, 0⟩ threeShape 1) = some false ∧
    rbtreeiterLo threeNodes ⟨some 1, 0⟩ (iterObjectAt 1 0 ⟨some 1, 0⟩ threeShape 1)
      (iterObjectAt 0 0 ⟨some 1, 0⟩ threeShape 0) = some true ∧
    rbtreeiterLo threeNodes ⟨some 1, 0⟩ (iterObjectAt 0 0 ⟨some 1, 0⟩ threeShape 3)
      (iterObjectAt 1 0 ⟨some 1, 0⟩ threeShape 0) = none ∧
    ¬OrderLaws threeNodes ⟨some 1, 0⟩ (iterObjectAt 0 0 ⟨some 1, 0⟩ threeShape 0)
      (iterObjectAt 1 0 ⟨some 1, 0⟩ threeShape 1) 0 1 :=
  ⟨isTree_threeNodes, by decide, by decide, by decide, fun h => absurd h.lo (by decide)⟩

end Deemon.Collections
