import Deemon.Collections.RbTreeInsert

/-!
# Locating the nodes of an `RBTree` that overlap with a range

`rbtree_do_minmaxlocate_node_in_root` starts at one node that overlaps and goes down to the left and to the right as far
as the range reaches. From where this ends it walks on to the neighbours, so that it does not matter which nodes below
the first one it has seen: of the walk down only that it stays inside the range on one side is needed.
-/

namespace Deemon.Collections

open Deemon.Run Deemon.LinkedTree Deemon.RangeMap

variable {K V : Type}

/-! ### Operations -/

/-- The `minkey` and `maxkey` that a function is given, and whether these are one object. -/
structure KeyRange (K : Type) where
  minkey : K
  maxkey : K
  same : Bool
  same_eq : same = true → minkey = maxkey

/-- `while (iter) { if (!outside) { node = iter; break; } iter = iter->rbtn_lhs; }`. -/
def walkLhs (heap : NodeHeap K V) (outside : RbtreeNode K V → Bool) (fuel node : ℕ) (iter : Option ℕ) : Option ℕ :=
  loop (fun iter => match iter with
    | none => some (.done node)
    | some iter => do
      let n ← heap[iter]?
      if outside n then some (.next n.rbtnLhs) else some (.done iter)) fuel iter

section Locate

variable [LinearOrder K]

/-- The first loop of `rbtree_do_minmaxlocate_node_in_root`: down to the left. -/
def locateMin (heap : NodeHeap K V) (minkey : K) (fuel root : ℕ) : Option ℕ :=
  loop (fun minNode => do
    let n ← heap[minNode]?
    match n.rbtnLhs with
    | none => some (.done minNode)
    | some iter => do
      let m ← heap[iter]?
      if m.rbtnMaxkey < minkey then do
        some (.done (← walkLhs heap (fun n => decide (n.rbtnMaxkey < minkey)) (heap.length + 1) minNode m.rbtnLhs))
      else some (.next iter)) fuel root

/-- The second loop of `rbtree_do_minmaxlocate_node_in_root`: down to the right. -/
def locateMax (heap : NodeHeap K V) (maxkey : K) (fuel root : ℕ) : Option ℕ :=
  loop (fun maxNode => do
    let n ← heap[maxNode]?
    match n.rbtnRhs with
    | none => some (.done maxNode)
    | some iter => do
      let m ← heap[iter]?
      if maxkey < m.rbtnMinkey then do
        some (.done (← walkLhs heap (fun n => decide (maxkey < n.rbtnMinkey)) (heap.length + 1) maxNode m.rbtnLhs))
      else some (.next iter)) fuel root

/-- The third loop of `rbtree_do_minmaxlocate_node_in_root`: on to the nodes before. -/
def extendMin (heap : NodeHeap K V) (minkey : K) (fuel minNode : ℕ) : Option ℕ :=
  loop (fun minNode => do
    match ← rbtreeAbiPrevnode heap minNode with
    | none => some (.done minNode)
    | some iter => do
      let n ← heap[iter]?
      if n.rbtnMaxkey < minkey then some (.done minNode) else some (.next iter)) fuel minNode

/-- The last loop of `rbtree_do_minmaxlocate_node_in_root`: on to the nodes behind. -/
def extendMax (heap : NodeHeap K V) (maxkey : K) (fuel maxNode : ℕ) : Option ℕ :=
  loop (fun maxNode => do
    match ← rbtreeAbiNextnode heap maxNode with
    | none => some (.done maxNode)
    | some iter => do
      let n ← heap[iter]?
      if maxkey < n.rbtnMinkey then some (.done maxNode) else some (.next iter)) fuel maxNode

/-- `rbtree_do_minmaxlocate_node_in_root`. -/
def rbtreeDoMinmaxlocateNodeInRoot (heap : NodeHeap K V) (range : KeyRange K) (root : ℕ) : Option (ℕ × ℕ) :=
  if range.same then some (root, root)
  else do
    let minNode ← locateMin heap range.minkey (heap.length + 1) root
    let maxNode ← locateMax heap range.maxkey (heap.length + 1) root
    let minNode ← extendMin heap range.minkey (heap.length + 1) minNode
    let maxNode ← extendMax heap range.maxkey (heap.length + 1) maxNode
    some (minNode, maxNode)

/-- `rbtree_do_minmaxlocate_node`; the inner `none` is that no nodes overlap. It looks for the first node that overlaps as
`rbtree_do_insert` does. -/
def rbtreeDoMinmaxlocateNode (heap : NodeHeap K V) (tree : RBTree) (range : KeyRange K) : Option (Option (ℕ × ℕ)) :=
  match tree.rbtRoot with
  | none => some none
  | some root => do
    match ← loop (insertRound heap range.minkey range.maxkey) (heap.length + 1) root with
    | .overlap root => do some (some (← rbtreeDoMinmaxlocateNodeInRoot heap range root))
    | .lhs _ => some none
    | .rhs _ => some none

end Locate

/-! ### Walks -/

/-- The place of a node in the rows. -/
def rank (L : List (ℕ × Entry K V)) (node : ℕ) : ℕ := (L.map Prod.fst).idxOf node

/-- The node is in the tree, with an entry that satisfies `P`. -/
def RowOf (L : List (ℕ × Entry K V)) (P : Entry K V → Prop) (node : ℕ) : Prop := ∃ p ∈ L, p.1 = node ∧ P p.2

section Walks

variable {RedBlack : Nodes K V → Prop} {s : Nodes K V} {L pre post : List (ℕ × Entry K V)} {p q : ℕ × Entry K V} {x : ℕ}
  {n : RbtreeNode K V} {P : Entry K V → Prop}

theorem Rows.rank_eq (h : Rows RedBlack s L) (hL : L = pre ++ p :: post) : rank L p.1 = pre.length := by
  have hnodup := h.nodup
  rw [hL, List.map_append, List.map_cons] at hnodup
  have hpre : p.1 ∉ pre.map Prod.fst := fun hmem =>
    (List.nodup_append.mp hnodup).2.2 p.1 hmem p.1 List.mem_cons_self rfl
  rw [rank, hL, List.map_append, List.map_cons, List.idxOf_append_of_notMem hpre, List.idxOf_cons_self, List.length_map,
    Nat.add_zero]

theorem rank_lt (hp : p ∈ L) : rank L p.1 < L.length := by
  have hlt := List.idxOf_lt_length_of_mem (List.mem_map_of_mem (f := Prod.fst) hp)
  rwa [List.length_map] at hlt

/-- Before means in a lower place. -/
theorem Rows.rank_lt_rank (h : Rows RedBlack s L) (hL : L = pre ++ post) (hp : p ∈ pre) (hq : q ∈ post) :
    rank L p.1 < rank L q.1 := by
  obtain ⟨pre₁, pre₂, rfl⟩ := List.append_of_mem hp
  obtain ⟨post₁, post₂, rfl⟩ := List.append_of_mem hq
  have hLp : L = pre₁ ++ p :: (pre₂ ++ (post₁ ++ q :: post₂)) := by simp [hL]
  have hLq : L = (pre₁ ++ p :: pre₂ ++ post₁) ++ q :: post₂ := by simp [hL]
  rw [h.rank_eq hLp, h.rank_eq hLq]
  simp only [List.length_append, List.length_cons]
  omega

theorem Rows.lhs (h : Rows RedBlack s L) (hp : p ∈ L) (hn : s.heap[p.1]? = some n) (hx : n.rbtnLhs = some x) :
    ∃ q ∈ L, q.1 = x ∧ rank L q.1 < rank L p.1 := by
  obtain ⟨pre, post, rfl⟩ := List.append_of_mem hp
  obtain ⟨q, hq, rfl⟩ := List.mem_map.mp (h.lhs_mem rfl hn hx)
  exact ⟨q, List.mem_append_left _ hq, rfl, h.rank_lt_rank rfl hq List.mem_cons_self⟩

theorem Rows.rhs (h : Rows RedBlack s L) (hp : p ∈ L) (hn : s.heap[p.1]? = some n) (hx : n.rbtnRhs = some x) :
    ∃ q ∈ L, q.1 = x ∧ rank L p.1 < rank L q.1 := by
  obtain ⟨pre, post, rfl⟩ := List.append_of_mem hp
  obtain ⟨q, hq, rfl⟩ := List.mem_map.mp (h.rhs_mem rfl hn hx)
  have hsplit : pre ++ p :: post = (pre ++ [p]) ++ post := by simp
  exact ⟨q, List.mem_append_right _ (List.mem_cons_of_mem p hq), rfl, h.rank_lt_rank hsplit (by simp) hq⟩

/-- The walk to the left of a child ends at the node that it started from, or at one inside the range. -/
theorem Rows.walkLhs (h : Rows RedBlack s L) {outside : RbtreeNode K V → Bool} {node : ℕ} {iter : Option ℕ}
    (houtside : ∀ n, outside n = false → P n.entry) (hnode : RowOf L P node)
    (hiter : ∀ x ∈ iter, RowOf L (fun _ => True) x) :
    Ends (walkLhs s.heap outside (s.heap.length + 1) node iter) (RowOf L P) := by
  have hlen := h.length_le
  refine loop_ends (fun iter => ∀ x ∈ iter, RowOf L (fun _ => True) x) (fun iter => iter.elim 0 fun x => rank L x + 1)
    hiter ?_ ?_
  · cases iter with
    | none => exact Nat.succ_pos _
    | some x =>
      obtain ⟨q, hq, rfl, -⟩ := hiter x rfl
      have hlt := rank_lt hq
      dsimp only [Option.elim]
      omega
  · rintro (_ | x) hx
    · exact Ends.pure hnode
    · obtain ⟨q, hq, rfl, -⟩ := hx x rfl
      obtain ⟨n, hn, hentry⟩ := h.exists_node hq
      dsimp only
      rw [hn, some_bind]
      split_ifs with hout
      · refine Ends.pure ⟨fun y hy => ?_, ?_⟩
        · obtain ⟨r, hr, hry, -⟩ := h.lhs hq hn hy
          exact ⟨r, hr, hry, trivial⟩
        · cases hlhs : n.rbtnLhs with
          | none => exact Nat.succ_pos _
          | some y =>
            obtain ⟨r, hr, rfl, hlt⟩ := h.lhs hq hn hlhs
            exact Nat.succ_lt_succ hlt
      · exact Ends.pure ⟨q, hq, rfl, hentry ▸ houtside n (Bool.eq_false_of_not_eq_true hout)⟩

end Walks

section Locate

variable [LinearOrder K] {RedBlack : Nodes K V → Prop} {s : Nodes K V} {L : List (ℕ × Entry K V)} {x : ℕ} {lo hi : K}

theorem Rows.locateMin (h : Rows RedBlack s L) (hx : RowOf L (fun e => lo ≤ e.hi) x) :
    Ends (locateMin s.heap lo (s.heap.length + 1) x) (RowOf L fun e => lo ≤ e.hi) := by
  have hlen := h.length_le
  refine loop_ends (RowOf L fun e => lo ≤ e.hi) (rank L) hx ?_ ?_
  · obtain ⟨p, hp, rfl, -⟩ := hx
    have hlt := rank_lt hp
    omega
  · intro x hx
    obtain ⟨p, hp, rfl, hle⟩ := id hx
    obtain ⟨n, hn, hentry⟩ := h.exists_node hp
    rw [hn, some_bind]
    cases hlhs : n.rbtnLhs with
    | none => exact Ends.pure hx
    | some y =>
      obtain ⟨q, hq, rfl, hlt⟩ := h.lhs hp hn hlhs
      obtain ⟨m, hm, hmentry⟩ := h.exists_node hq
      dsimp only
      rw [hm, some_bind]
      split_ifs with hout
      · refine (h.walkLhs (P := fun e => lo ≤ e.hi) (fun n hn => not_lt.mp (of_decide_eq_false hn)) hx
          fun z hz => ?_).bind fun r hr => Ends.pure hr
        obtain ⟨r, hr, hrz, -⟩ := h.lhs hq hm hz
        exact ⟨r, hr, hrz, trivial⟩
      · exact Ends.pure ⟨⟨q, hq, rfl, hmentry ▸ not_lt.mp hout⟩, hlt⟩

theorem Rows.locateMax (h : Rows RedBlack s L) (hx : RowOf L (fun e => e.lo ≤ hi) x) :
    Ends (locateMax s.heap hi (s.heap.length + 1) x) (RowOf L fun e => e.lo ≤ hi) := by
  have hlen := h.length_le
  refine loop_ends (RowOf L fun e => e.lo ≤ hi) (fun x => L.length - rank L x) hx (by omega) ?_
  intro x hx
  obtain ⟨p, hp, rfl, hle⟩ := id hx
  obtain ⟨n, hn, hentry⟩ := h.exists_node hp
  rw [hn, some_bind]
  cases hrhs : n.rbtnRhs with
  | none => exact Ends.pure hx
  | some y =>
    obtain ⟨q, hq, rfl, hlt⟩ := h.rhs hp hn hrhs
    obtain ⟨m, hm, hmentry⟩ := h.exists_node hq
    have hbound := rank_lt hq
    dsimp only
    rw [hm, some_bind]
    split_ifs with hout
    · refine (h.walkLhs (P := fun e => e.lo ≤ hi) (fun n hn => not_lt.mp (of_decide_eq_false hn)) hx
        fun z hz => ?_).bind fun r hr => Ends.pure hr
      obtain ⟨r, hr, hrz, -⟩ := h.lhs hq hm hz
      exact ⟨r, hr, hrz, trivial⟩
    · exact Ends.pure ⟨⟨q, hq, rfl, hmentry ▸ not_lt.mp hout⟩, by dsimp only; omega⟩

/-- On to the first row that the range reaches from above. -/
theorem Rows.extendMin (h : Rows RedBlack s L) (hordered : Ordered (L.map Prod.snd))
    (hx : RowOf L (fun e => lo ≤ e.hi) x) : Ends (extendMin s.heap lo (s.heap.length + 1) x) fun r =>
      ∃ pre p post, L = pre ++ p :: post ∧ p.1 = r ∧ lo ≤ p.2.hi ∧ ∀ q ∈ pre, q.2.hi < lo := by
  have hlen := h.length_le
  refine loop_ends (RowOf L fun e => lo ≤ e.hi) (rank L) hx ?_ ?_
  · obtain ⟨p, hp, rfl, -⟩ := hx
    have hlt := rank_lt hp
    omega
  · rintro x ⟨p, hp, rfl, hle⟩
    obtain ⟨pre, post, hL⟩ := List.append_of_mem hp
    rw [h.prevnode hL, some_bind]
    rcases List.eq_nil_or_concat pre with rfl | ⟨pre, q, rfl⟩
    · exact Ends.pure ⟨[], p, post, hL, rfl, hle, by simp⟩
    · rw [List.concat_eq_append] at hL ⊢
      have hq : q ∈ L := by simp [hL]
      obtain ⟨n, hn, hentry⟩ := h.exists_node hq
      rw [List.getLast?_concat, Option.map_some]
      dsimp only
      rw [hn, some_bind]
      split_ifs with hout
      · refine Ends.pure ⟨pre ++ [q], p, post, hL, rfl, hle, fun r hr => ?_⟩
        have hqlt : q.2.hi < lo := hentry ▸ hout
        rw [List.mem_append, List.mem_singleton] at hr
        rcases hr with hr | rfl
        · have hall := hL ▸ hordered
          rw [List.append_assoc, List.map_append, ordered_append] at hall
          have hapart := hall.2.2 r.2 (List.mem_map_of_mem hr) q.2 (by simp)
          have hqle := hall.2.1.lo_le_hi q.2 (by simp)
          exact hapart.trans (hqle.trans_lt hqlt)
        · exact hqlt
      · exact Ends.pure ⟨⟨q, hq, rfl, hentry ▸ not_lt.mp hout⟩, h.rank_lt_rank hL (by simp) List.mem_cons_self⟩

/-- On to the last row that the range reaches from below. -/
theorem Rows.extendMax (h : Rows RedBlack s L) (hordered : Ordered (L.map Prod.snd))
    (hx : RowOf L (fun e => e.lo ≤ hi) x) : Ends (extendMax s.heap hi (s.heap.length + 1) x) fun r =>
      ∃ pre p post, L = pre ++ p :: post ∧ p.1 = r ∧ p.2.lo ≤ hi ∧ ∀ q ∈ post, hi < q.2.lo := by
  have hlen := h.length_le
  refine loop_ends (RowOf L fun e => e.lo ≤ hi) (fun x => L.length - rank L x) hx (by omega) ?_
  rintro x ⟨p, hp, rfl, hle⟩
  obtain ⟨pre, post, hL⟩ := List.append_of_mem hp
  rw [h.nextnode hL, some_bind]
  cases post with
  | nil => exact Ends.pure ⟨pre, p, [], hL, rfl, hle, by simp⟩
  | cons q post =>
    have hq : q ∈ L := by simp [hL]
    obtain ⟨n, hn, hentry⟩ := h.exists_node hq
    rw [List.head?_cons, Option.map_some]
    dsimp only
    rw [hn, some_bind]
    split_ifs with hout
    · refine Ends.pure ⟨pre, p, q :: post, hL, rfl, hle, fun r hr => ?_⟩
      have hqlt : hi < q.2.lo := hentry ▸ hout
      rw [List.mem_cons] at hr
      rcases hr with rfl | hr
      · exact hqlt
      · have hall := hL ▸ hordered
        rw [List.map_append, ordered_append, List.map_cons, List.map_cons, ordered_cons, ordered_cons] at hall
        obtain ⟨hqle, -, hapart⟩ := hall.2.1.2.1
        exact hqlt.trans_le (hqle.trans (hapart r.2 (List.mem_map_of_mem hr)).le)
    · have hbound := rank_lt hq
      have hsplit : L = (pre ++ [p]) ++ q :: post := by simp [hL]
      have hlt := h.rank_lt_rank hsplit (p := p) (q := q) (by simp) List.mem_cons_self
      exact Ends.pure ⟨⟨q, hq, rfl, hentry ▸ not_lt.mp hout⟩, by dsimp only; omega⟩

/-- The rows before, inside and behind the range from `lo` to `hi`; the first and the last one inside are `minNode` and
`maxNode`. -/
structure RangeLocated (lo hi : K) (L pre mid post : List (ℕ × Entry K V)) (minNode maxNode : ℕ) : Prop where
  eq : L = pre ++ mid ++ post
  before : ∀ p ∈ pre, p.2.hi < lo
  inside : ∀ p ∈ mid, Overlaps lo hi p.2
  behind : ∀ p ∈ post, hi < p.2.lo
  first : mid.head?.map Prod.fst = some minNode
  last : mid.getLast?.map Prod.fst = some maxNode

/-- The first row that reaches up to the range and the last one that reaches down to it, if some row does both. -/
theorem exists_located {pre post pre' post' : List (ℕ × Entry K V)} {p q r : ℕ × Entry K V}
    (hordered : Ordered (L.map Prod.snd)) (hp : L = pre ++ p :: post) (hlo : lo ≤ p.2.hi) (hpre : ∀ x ∈ pre, x.2.hi < lo)
    (hq : L = pre' ++ q :: post') (hhi : q.2.lo ≤ hi) (hpost : ∀ x ∈ post', hi < x.2.lo) (hr : r ∈ L)
    (hroot : Overlaps lo hi r.2) : ∃ mid, RangeLocated lo hi L pre mid post' p.1 q.1 := by
  suffices hmid : ∃ mid, L = pre ++ mid ++ post' ∧ mid.head? = some p ∧ mid.getLast? = some q by
    obtain ⟨mid, hL, hfirst, hlast⟩ := hmid
    refine ⟨mid, hL, hpre, fun x hx => ?_, hpost, by rw [hfirst]; rfl, by rw [hlast]; rfl⟩
    rw [hL, List.map_append, List.map_append] at hordered
    have hinner := (ordered_append.mp (ordered_append.mp hordered).1).2.1
    have hx' : x.2 ∈ mid.map Prod.snd := List.mem_map_of_mem hx
    constructor
    · obtain ⟨rest, hrest⟩ := List.head?_eq_some_iff.mp hfirst
      rw [hrest] at hx
      rcases List.mem_cons.mp hx with rfl | hx
      · exact hlo
      · rw [hrest, List.map_cons] at hinner
        exact hlo.trans (((ordered_cons.mp hinner).2.2 x.2 (List.mem_map_of_mem hx)).le.trans
          (hinner.lo_le_hi x.2 (by simp [List.mem_map_of_mem hx])))
    · obtain ⟨rest, hrest⟩ := List.getLast?_eq_some_iff.mp hlast
      rw [hrest, List.mem_append, List.mem_singleton] at hx
      rcases hx with hx | rfl
      · rw [hrest, List.map_append] at hinner
        exact (hinner.lo_le_hi x.2 (by simp [List.mem_map_of_mem hx])).trans
          (((ordered_append.mp hinner).2.2 x.2 (List.mem_map_of_mem hx) q.2 (by simp)).le.trans hhi)
      · exact hhi
  rcases List.append_eq_append_iff.mp (hp.symm.trans hq) with ⟨mid, hpre', hmid⟩ | ⟨mid, hpre', hmid⟩
  · cases mid with
    | nil =>
      obtain ⟨rfl, rfl⟩ := List.cons.inj hmid
      exact ⟨[p], by simpa using hp, rfl, rfl⟩
    | cons y mid =>
      obtain ⟨rfl, rfl⟩ := List.cons.inj hmid
      exact ⟨p :: mid ++ [q], by simp [hp], rfl, List.getLast?_concat⟩
  · cases mid with
    | nil =>
      obtain ⟨rfl, rfl⟩ := List.cons.inj hmid
      rw [List.append_nil] at hpre'
      exact ⟨[q], by simp [hp, hpre'], rfl, rfl⟩
    | cons y mid =>
      -- no row could be inside the range
      obtain ⟨rfl, rfl⟩ := List.cons.inj hmid
      rw [hp] at hr
      rcases List.mem_append.mp hr with hr | hr
      · exact absurd hroot.1 (hpre r hr).not_ge
      · exact absurd hroot.2 (hpost r (List.mem_append_right mid hr)).not_ge

/-- `rbtree_do_minmaxlocate_node_in_root` finds all rows that overlap. -/
theorem Rows.minmaxlocateInRoot (h : Rows RedBlack s L) (hordered : Ordered (L.map Prod.snd)) (range : KeyRange K)
    {r : ℕ × Entry K V} (hr : r ∈ L) (hroot : Overlaps range.minkey range.maxkey r.2) :
    Ends (rbtreeDoMinmaxlocateNodeInRoot s.heap range r.1) fun m =>
      ∃ pre mid post, RangeLocated range.minkey range.maxkey L pre mid post m.1 m.2 := by
  unfold rbtreeDoMinmaxlocateNodeInRoot
  split_ifs with hsame
  · obtain ⟨pre, post, hL⟩ := List.append_of_mem hr
    have heq := range.same_eq hsame
    refine Ends.pure ⟨pre, [r], post, by simp [hL], fun x hx => ?_, by simpa using hroot, fun x hx => ?_, rfl, rfl⟩
    · rw [hL, List.map_append, ordered_append] at hordered
      exact (hordered.2.2 x.2 (List.mem_map_of_mem hx) r.2 (by simp)).trans_le (heq ▸ hroot.2)
    · rw [hL, List.map_append, ordered_append, List.map_cons, ordered_cons] at hordered
      exact (heq ▸ hroot.1).trans_lt (hordered.2.1.2.2 x.2 (List.mem_map_of_mem hx))
  · refine (h.locateMin ⟨r, hr, rfl, hroot.1⟩).bind fun minNode hmin => ?_
    refine (h.locateMax ⟨r, hr, rfl, hroot.2⟩).bind fun maxNode hmax => ?_
    refine (h.extendMin hordered hmin).bind ?_
    rintro _ ⟨pre, p, post, hp, rfl, hlo, hpre⟩
    refine (h.extendMax hordered hmax).bind ?_
    rintro _ ⟨pre', q, post', hq, rfl, hhi, hpost⟩
    obtain ⟨mid, hmid⟩ := exists_located hordered hp hlo hpre hq hhi hpost hr hroot
    exact Ends.pure ⟨pre, mid, post', hmid⟩

/-- `rbtree_do_minmaxlocate_node` finds all rows that overlap, if there are any. -/
theorem Rows.minmaxlocate {heap : NodeHeap K V} {tree : RBTree} (h : Rows RedBlack ⟨heap, tree.rbtRoot⟩ L)
    (hordered : Ordered (L.map Prod.snd)) (range : KeyRange K) :
    Ends (rbtreeDoMinmaxlocateNode heap tree range) fun m =>
      (m = none ∧ ∃ pre post, Gap range.minkey range.maxkey L pre post) ∨
      ∃ minNode maxNode, m = some (minNode, maxNode) ∧
        ∃ pre mid post, RangeLocated range.minkey range.maxkey L pre mid post minNode maxNode := by
  obtain ⟨t, ht, haddrs⟩ := h.isTree
  unfold rbtreeDoMinmaxlocateNode
  cases hroot : tree.rbtRoot with
  | none =>
    obtain rfl := h.nil_of_root hroot
    exact Ends.pure (.inl ⟨rfl, [], [], rfl, by simp, by simp⟩)
  | some root =>
    dsimp only
    obtain ⟨place, hplace, hfound⟩ := @insertSearch_ends _ _ _ ⟨heap, tree.rbtRoot⟩ [] L [] t .top none root
      (heap.length + 1) range.minkey range.maxkey ht.linked (ht.root_eq.symm.trans hroot) h.entries haddrs rfl hordered
      (by simp) (by simp) (Nat.le_succ_of_le ht.length_le)
    rw [List.nil_append, List.append_nil] at hfound
    dsimp only at hplace
    rw [hplace, some_bind]
    cases place with
    | overlap x =>
      obtain ⟨p, hp, rfl, hoverlaps⟩ := hfound
      refine (h.minmaxlocateInRoot hordered range hp hoverlaps).bind ?_
      rintro ⟨minNode, maxNode⟩ hlocated
      exact Ends.pure (.inr ⟨minNode, maxNode, rfl, hlocated⟩)
    | lhs x =>
      obtain ⟨-, -, pre, post, -, hgap, -⟩ := hfound
      exact Ends.pure (.inl ⟨rfl, pre, post, hgap⟩)
    | rhs x =>
      obtain ⟨-, -, pre, post, -, hgap, -⟩ := hfound
      exact Ends.pure (.inl ⟨rfl, pre, post, hgap⟩)

end Locate

end Deemon.Collections
