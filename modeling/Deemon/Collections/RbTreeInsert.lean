import Deemon.Collections.RbTreeNodes

/-!
# Inserting a node into an `RBTree`

`rbtree_do_insert` looks for the place of a new node by comparing ranges of keys, and gives up at a node that overlaps.
After a node was linked in, `rbtree_do_mergenode` merges it with its neighbours of the same value whose keys touch.
-/

namespace Deemon.Collections

open Deemon.Run Deemon.LinkedTree Deemon.RangeMap

variable {K V : Type}

/-! ### Operations -/

/-- `key_supports_adjacent` and `key_adjacent` for the type of the keys. -/
structure AdjacencyOps (K : Type) where
  supportsAdjacent : K → Bool
  adjacent : K → K → Option Bool

/-- `SWAP(&node->rbtn_minkey, &nextnode->rbtn_minkey)`. -/
def swapMinkey (heap : NodeHeap K V) (node nextnode : ℕ) : Option (NodeHeap K V) := do
  let n ← heap[node]?
  let m ← heap[nextnode]?
  let heap ← setNode heap node fun n => { n with rbtnMinkey := m.rbtnMinkey }
  setNode heap nextnode fun m => { m with rbtnMinkey := n.rbtnMinkey }

/-- `SWAP(&node->rbtn_maxkey, &nextnode->rbtn_maxkey)`. -/
def swapMaxkey (heap : NodeHeap K V) (node nextnode : ℕ) : Option (NodeHeap K V) := do
  let n ← heap[node]?
  let m ← heap[nextnode]?
  let heap ← setNode heap node fun n => { n with rbtnMaxkey := m.rbtnMaxkey }
  setNode heap nextnode fun m => { m with rbtnMaxkey := n.rbtnMaxkey }

section Merge

variable [DecidableEq V] (abi : RbtreeAbi K V) (ops : AdjacencyOps K)

/-- What `rbtree_do_mergenode` does with one neighbour: where the values and the keys allow it, the neighbour is removed
and gives `node` its key. -/
def mergeNeighbor (s : Nodes K V) (node : ℕ) (nextnode : Option ℕ)
    (adjacent : RbtreeNode K V → RbtreeNode K V → Option Bool)
    (swap : NodeHeap K V → ℕ → ℕ → Option (NodeHeap K V)) : Option (Nodes K V) :=
  match nextnode with
  | none => some s
  | some nextnode => do
    let n ← s.heap[node]?
    let m ← s.heap[nextnode]?
    if m.rbtnValue = n.rbtnValue then do
      if ← adjacent m n then do
        let s ← abi.removenode s nextnode
        let heap ← swap s.heap node nextnode
        some ⟨heap, s.root⟩
      else some s
    else some s

/-- The first half of `rbtree_do_mergenode`. -/
def mergePrevnode (s : Nodes K V) (node : ℕ) : Option (Nodes K V) := do
  let n ← s.heap[node]?
  if ops.supportsAdjacent n.rbtnMinkey then
    mergeNeighbor abi s node (← rbtreeAbiPrevnode s.heap node)
      (fun prev node => ops.adjacent prev.rbtnMaxkey node.rbtnMinkey) swapMinkey
  else some s

/-- The second half of `rbtree_do_mergenode`. -/
def mergeNextnode (s : Nodes K V) (node : ℕ) : Option (Nodes K V) := do
  let n ← s.heap[node]?
  if ops.supportsAdjacent n.rbtnMaxkey then
    mergeNeighbor abi s node (← rbtreeAbiNextnode s.heap node)
      (fun next node => ops.adjacent node.rbtnMaxkey next.rbtnMinkey) swapMaxkey
  else some s

/-- `rbtree_do_mergenode`. -/
def rbtreeDoMergenode (s : Nodes K V) (node : ℕ) : Option (Nodes K V) := do
  let s ← mergePrevnode abi ops s node
  mergeNextnode abi ops s node

end Merge

/-- Where the search of `rbtree_do_insert` ends: at a node that overlaps, or below a node that has no child there. -/
inductive InsertPlace where
  | overlap (root : ℕ)
  | lhs (root : ℕ)
  | rhs (root : ℕ)

/-- What `rbtree_do_insert` returns: the node that overlaps, or the tree with the new node. -/
inductive InsertResult (K V : Type) where
  | overlap (node : ℕ)
  | inserted (heap : NodeHeap K V) (tree : RBTree)

section Insert

variable [LinearOrder K] [DecidableEq V] (abi : RbtreeAbi K V) (ops : AdjacencyOps K)

/-- A round of the search of `rbtree_do_insert`, from the label `again_load_root` on. -/
def insertRound (heap : NodeHeap K V) (minkey maxkey : K) (root : ℕ) : Option (Step ℕ InsertPlace) := do
  let n ← heap[root]?
  if maxkey < n.rbtnMinkey then
    match n.rbtnLhs with
    | some nextnode => some (.next nextnode)
    | none => some (.done (.lhs root))
  else if n.rbtnMaxkey < minkey then
    match n.rbtnRhs with
    | some nextnode => some (.next nextnode)
    | none => some (.done (.rhs root))
  else some (.done (.overlap root))

/-- The end of `rbtree_do_insert`, after the node was linked in. -/
def insertDone (tree : RBTree) (s : Nodes K V) (node : ℕ) : Option (InsertResult K V) := do
  let s ← rbtreeDoMergenode abi ops s node
  some (.inserted s.heap ⟨s.root, tree.rbtVersion + 1⟩)

/-- `rbtree_do_insert`. -/
def rbtreeDoInsert (heap : NodeHeap K V) (tree : RBTree) (node : ℕ) : Option (InsertResult K V) := do
  let n ← heap[node]?
  match tree.rbtRoot with
  | none => do
    let heap ← setNode heap node fun n => { n with rbtnPar := none, rbtnLhs := none, rbtnRhs := none, rbtnRed := false }
    some (.inserted heap ⟨some node, tree.rbtVersion + 1⟩)
  | some root => do
    match ← loop (insertRound heap n.rbtnMinkey n.rbtnMaxkey) (heap.length + 1) root with
    | .overlap root => some (.overlap root)
    | .lhs root => do insertDone abi ops tree (← linkLhs abi ⟨heap, tree.rbtRoot⟩ root node) node
    | .rhs root => do insertDone abi ops tree (← linkRhs abi ⟨heap, tree.rbtRoot⟩ root node) node

end Insert

/-! ### Merging -/

/-- Whether two neighbours of the same value are merged: `key` is the one that `key_supports_adjacent` is asked about. -/
def Known (ops : AdjacencyOps K) (adj : K → K → Bool) (key : K) (x y : Entry K V) : Prop :=
  x.value = y.value → (if ops.supportsAdjacent key then ops.adjacent x.hi y.lo else some false) = some (adj x.hi y.lo)

section Merge

variable {RedBlack : Nodes K V → Prop} {abi : RbtreeAbi K V} {ops : AdjacencyOps K} {adj : K → K → Bool} {s : Nodes K V}
  {pre post L : List (ℕ × Entry K V)} {p : ℕ × Entry K V} {e : Entry K V} {node : ℕ}

/-- A write to a node of the tree and one to a node that is not in the tree. -/
theorem Rows.writeBoth {f g : RbtreeNode K V → RbtreeNode K V} {e' : Entry K V}
    (h : Rows RedBlack s (pre ++ (node, e) :: post)) (habi : abi.Correct RedBlack)
    (hp : Unlinked s (pre ++ (node, e) :: post) p.1 p.2)
    (hf : ∀ n, (f n).links = n.links ∧ (f n).rbtnRed = n.rbtnRed)
    (hg : ∀ n, (g n).links = n.links ∧ (g n).rbtnRed = n.rbtnRed) (he : ∀ n, n.entry = e → (f n).entry = e') :
    Ends (setNode s.heap node f >>= fun heap => setNode heap p.1 g) fun heap =>
      Rows RedBlack ⟨heap, s.root⟩ (pre ++ (node, e') :: post) := by
  have hne : p.1 ≠ node := fun heq => hp.notMem (by simp [heq])
  refine (h.write habi rfl hf he).bind ?_
  rintro heap ⟨hrows, hother⟩
  have hun : Unlinked ⟨heap, s.root⟩ (pre ++ (node, e') :: post) p.1 p.2 :=
    ⟨by simpa using hp.notMem, (hother p.1 hne).trans hp.entry⟩
  exact (hrows.writeOther habi hun hg).mono fun _ hr => hr.1

theorem Rows.swapMinkey (h : Rows RedBlack s (pre ++ (node, e) :: post)) (habi : abi.Correct RedBlack)
    (hp : Unlinked s (pre ++ (node, e) :: post) p.1 p.2) : Ends (swapMinkey s.heap node p.1) fun heap =>
      Rows RedBlack ⟨heap, s.root⟩ (pre ++ (node, { e with lo := p.2.lo }) :: post) := by
  obtain ⟨n, hn, -⟩ := h.exists_node (p := (node, e)) (by simp)
  obtain ⟨m, hm, hentry⟩ := entryAt_eq_some hp.entry
  unfold Collections.swapMinkey
  rw [hn, hm, some_bind, some_bind]
  refine h.writeBoth (f := fun n => { n with rbtnMinkey := m.rbtnMinkey }) habi hp (fun _ => ⟨rfl, rfl⟩)
    (fun _ => ⟨rfl, rfl⟩) fun x hx => ?_
  rw [← hx, ← hentry]
  rfl

theorem Rows.swapMaxkey (h : Rows RedBlack s (pre ++ (node, e) :: post)) (habi : abi.Correct RedBlack)
    (hp : Unlinked s (pre ++ (node, e) :: post) p.1 p.2) : Ends (swapMaxkey s.heap node p.1) fun heap =>
      Rows RedBlack ⟨heap, s.root⟩ (pre ++ (node, { e with hi := p.2.hi }) :: post) := by
  obtain ⟨n, hn, -⟩ := h.exists_node (p := (node, e)) (by simp)
  obtain ⟨m, hm, hentry⟩ := entryAt_eq_some hp.entry
  unfold Collections.swapMaxkey
  rw [hn, hm, some_bind, some_bind]
  refine h.writeBoth (f := fun n => { n with rbtnMaxkey := m.rbtnMaxkey }) habi hp (fun _ => ⟨rfl, rfl⟩)
    (fun _ => ⟨rfl, rfl⟩) fun x hx => ?_
  rw [← hx, ← hentry]
  rfl

/-- A node that was removed is out of the tree, with its entry. -/
theorem Rows.unlinked_of_remove {s' : Nodes K V} (h : Rows RedBlack s (pre ++ p :: post))
    (hsame : SameEntries s.heap s'.heap) : Unlinked s' (pre ++ post) p.1 p.2 := by
  have hnodup := h.nodup
  rw [List.map_append, List.map_cons, List.nodup_middle, ← List.map_append] at hnodup
  exact ⟨(List.nodup_cons.mp hnodup).1, (hsame p.1).trans (h.entries p (by simp))⟩

variable [DecidableEq V]

/-- A neighbour is merged if its value and its keys say so. -/
theorem mergeNeighbor_ends {n m : RbtreeNode K V} {q : ℕ} {r : Bool}
    {adjacent : RbtreeNode K V → RbtreeNode K V → Option Bool}
    {swap : NodeHeap K V → ℕ → ℕ → Option (NodeHeap K V)} {P : Nodes K V → Prop} (hn : s.heap[node]? = some n)
    (hm : s.heap[q]? = some m) (hadjacent : m.rbtnValue = n.rbtnValue → adjacent m n = some r)
    (hmerge : m.rbtnValue = n.rbtnValue ∧ r = true → Ends (do
      let s' ← abi.removenode s q
      let heap ← swap s'.heap node q
      some (⟨heap, s'.root⟩ : Nodes K V)) P)
    (hkeep : ¬(m.rbtnValue = n.rbtnValue ∧ r = true) → P s) :
    Ends (mergeNeighbor abi s node (some q) adjacent swap) P := by
  unfold mergeNeighbor
  dsimp only
  rw [hn, some_bind, hm, some_bind]
  split_ifs with hvalue
  · rw [hadjacent hvalue, some_bind]
    split_ifs with hr
    · exact hmerge ⟨hvalue, hr⟩
    · exact Ends.pure (hkeep fun hboth => hr hboth.2)
  · exact Ends.pure (hkeep fun hboth => hvalue hboth.1)

/-- The node before is merged into the new one. -/
theorem Rows.mergePrevnode (h : Rows RedBlack s (pre ++ (node, e) :: post)) (habi : abi.Correct RedBlack)
    (hknown : ∀ q ∈ (pre.map Prod.snd).getLast?, Known ops adj e.lo q e) :
    Ends (mergePrevnode abi ops s node) fun s' => ∃ pre' e', Rows RedBlack s' (pre' ++ (node, e') :: post) ∧
      (pre'.map Prod.snd, e') = mergePrev adj (pre.map Prod.snd) e := by
  obtain ⟨n, hn, rfl⟩ := h.exists_node (p := (node, e)) (by simp)
  dsimp only at hn
  unfold Collections.mergePrevnode
  rw [hn, some_bind, h.prevnode rfl]
  rcases List.eq_nil_or_concat pre with rfl | ⟨pre, q, rfl⟩
  · refine Ends.mono (P := fun s' => s' = s) ?_ fun s' hs' => ⟨[], n.entry, hs' ▸ h, rfl⟩
    split_ifs
    · exact Ends.pure rfl
    · exact Ends.pure rfl
  rw [List.concat_eq_append] at h hknown ⊢
  obtain ⟨m, hm, hq⟩ := h.exists_node (p := q) (by simp)
  rw [List.map_append, List.map_singleton, mergePrev_concat]
  rw [List.map_append, List.map_singleton, List.getLast?_concat] at hknown
  rw [List.getLast?_concat, Option.map_some, some_bind]
  have hkeys := hknown q.2 rfl
  rw [← hq] at hkeys ⊢
  have hkeep : ¬(m.entry.value = n.entry.value ∧ adj m.entry.hi n.entry.lo = true) → ∃ pre' e',
      Rows RedBlack s (pre' ++ (node, e') :: post) ∧ (pre'.map Prod.snd, e') =
        if m.entry.value = n.entry.value ∧ adj m.entry.hi n.entry.lo = true then
          (pre.map Prod.snd, { n.entry with lo := m.entry.lo })
        else (pre.map Prod.snd ++ [m.entry], n.entry) := fun hno =>
    ⟨pre ++ [q], n.entry, h, by rw [if_neg hno, List.map_append, List.map_singleton, ← hq]⟩
  by_cases hsup : ops.supportsAdjacent n.rbtnMinkey
  · rw [if_pos hsup]
    refine mergeNeighbor_ends hn hm (fun hvalue => ?_) (fun hboth => ?_) hkeep
    · exact (if_pos hsup).symm.trans (hkeys hvalue)
    · have hrows : Rows RedBlack s (pre ++ q :: (node, n.entry) :: post) := by
        rw [List.append_assoc] at h
        exact h
      refine (hrows.remove habi rfl).bind ?_
      rintro s' ⟨hrows', hsame, -⟩
      refine (hrows'.swapMinkey habi (hrows.unlinked_of_remove hsame)).bind fun heap hheap => ?_
      exact Ends.pure ⟨pre, _, hheap, by rw [if_pos (show m.entry.value = n.entry.value ∧ _ from hboth), hq]⟩
  · rw [if_neg hsup]
    refine Ends.pure (hkeep fun hboth => ?_)
    have hfalse := (if_neg hsup).symm.trans (hkeys hboth.1)
    rw [hboth.2] at hfalse
    cases hfalse

/-- The node behind is merged into the new one. -/
theorem Rows.mergeNextnode (h : Rows RedBlack s (pre ++ (node, e) :: post)) (habi : abi.Correct RedBlack)
    (hknown : ∀ q ∈ (post.map Prod.snd).head?, Known ops adj e.hi e q) :
    Ends (mergeNextnode abi ops s node) fun s' => ∃ L, Rows RedBlack s' L ∧
      L.map Prod.snd = pre.map Prod.snd ++ mergeNext adj e (post.map Prod.snd) := by
  obtain ⟨n, hn, rfl⟩ := h.exists_node (p := (node, e)) (by simp)
  dsimp only at hn
  unfold Collections.mergeNextnode
  rw [hn, some_bind, h.nextnode rfl]
  cases post with
  | nil =>
    refine Ends.mono (P := fun s' => s' = s) ?_ fun s' hs' => ⟨_, hs' ▸ h, by simp [mergeNext]⟩
    split_ifs
    · exact Ends.pure rfl
    · exact Ends.pure rfl
  | cons q post =>
    obtain ⟨m, hm, hq⟩ := h.exists_node (p := q) (by simp)
    rw [List.map_cons, mergeNext]
    rw [List.head?_cons, Option.map_some, some_bind]
    have hkeys := hknown q.2 rfl
    rw [← hq] at hkeys ⊢
    have hkeep : ¬(m.entry.value = n.entry.value ∧ adj n.entry.hi m.entry.lo = true) → ∃ L, Rows RedBlack s L ∧
        L.map Prod.snd = pre.map Prod.snd ++
          if m.entry.value = n.entry.value ∧ adj n.entry.hi m.entry.lo = true then
            { n.entry with hi := m.entry.hi } :: post.map Prod.snd
          else n.entry :: m.entry :: post.map Prod.snd := fun hno =>
      ⟨_, h, by rw [if_neg hno, List.map_append, List.map_cons, List.map_cons, hq]⟩
    by_cases hsup : ops.supportsAdjacent n.rbtnMaxkey
    · rw [if_pos hsup]
      refine mergeNeighbor_ends hn hm (fun hvalue => ?_) (fun hboth => ?_) hkeep
      · exact (if_pos hsup).symm.trans (hkeys hvalue.symm)
      · have hrows : Rows RedBlack s ((pre ++ [(node, n.entry)]) ++ q :: post) := by
          rw [List.append_assoc]
          exact h
        refine (hrows.remove habi rfl).bind ?_
        rintro s' ⟨hrows', hsame, -⟩
        have hun := hrows.unlinked_of_remove hsame
        rw [List.append_assoc, List.singleton_append] at hrows' hun
        refine (hrows'.swapMaxkey habi hun).bind fun heap hheap => ?_
        refine Ends.pure ⟨_, hheap, ?_⟩
        rw [if_pos (show m.entry.value = n.entry.value ∧ _ from hboth), hq, List.map_append, List.map_cons]
    · rw [if_neg hsup]
      refine Ends.pure (hkeep fun hboth => ?_)
      have hfalse := (if_neg hsup).symm.trans (hkeys hboth.1.symm)
      rw [hboth.2] at hfalse
      cases hfalse

/-- `rbtree_do_mergenode`. -/
theorem Rows.mergenode (h : Rows RedBlack s (pre ++ (node, e) :: post)) (habi : abi.Correct RedBlack)
    (hprev : ∀ q ∈ (pre.map Prod.snd).getLast?, Known ops adj e.lo q e)
    (hnext : ∀ q ∈ (post.map Prod.snd).head?, Known ops adj e.hi e q) :
    Ends (rbtreeDoMergenode abi ops s node) fun s' => ∃ L, Rows RedBlack s' L ∧
      L.map Prod.snd = insertMerged adj (pre.map Prod.snd) e (post.map Prod.snd) := by
  refine (h.mergePrevnode habi hprev).bind ?_
  rintro s' ⟨pre', e', hrows, heq⟩
  have hsame : e'.hi = e.hi ∧ e'.value = e.value := by
    have hsnd := congrArg Prod.snd heq
    dsimp only at hsnd
    rw [hsnd]
    exact mergePrev_hi_value adj
  have hnext' : ∀ q ∈ (post.map Prod.snd).head?, Known ops adj e'.hi e' q := by
    intro q hq
    rw [Known, hsame.1, hsame.2]
    exact hnext q hq
  refine (hrows.mergeNextnode habi hnext').mono ?_
  · rintro s'' ⟨L, hL, hmap⟩
    exact ⟨L, hL, by rw [hmap, insertMerged, ← heq]⟩

end Merge

/-! ### Searching -/

section Search

variable [LinearOrder K] {RedBlack : Nodes K V → Prop} {s : Nodes K V} {L A T B pre post : List (ℕ × Entry K V)}
  {t : Shape ℕ} {c : Path ℕ} {par : Option ℕ} {a fuel : ℕ} {lo hi : K}

/-- The rows before and behind a place where no row has keys from `lo` to `hi`. -/
structure Gap (lo hi : K) (L pre post : List (ℕ × Entry K V)) : Prop where
  eq : L = pre ++ post
  before : ∀ p ∈ pre, p.2.hi < lo
  behind : ∀ p ∈ post, hi < p.2.lo

/-- Where the search ends in a tree with the rows `L`. -/
def PlaceFound (lo hi : K) (t : Shape ℕ) (L : List (ℕ × Entry K V)) : InsertPlace → Prop
  | .overlap root => ∃ p ∈ L, p.1 = root ∧ Overlaps lo hi p.2
  | .lhs root => ∃ rhs d pre post, (Path.fromLhs root rhs d).plug .leaf = t ∧ Gap lo hi L pre post ∧
      d.before = pre.map Prod.fst
  | .rhs root => ∃ lhs d pre post, (Path.fromRhs lhs root d).plug .leaf = t ∧ Gap lo hi L pre post ∧
      (Path.fromRhs lhs root d).before = pre.map Prod.fst

/-- The search goes down between rows that are below and above the range. -/
theorem insertSearch_ends (hlinked : Linked s.heap.links par t) (hroot : t.root = some a)
    (hentries : ∀ p ∈ T, entryAt s.heap p.1 = some p.2) (hT : t.addrs = T.map Prod.fst)
    (hA : c.before = A.map Prod.fst) (hordered : Ordered (T.map Prod.snd)) (hbefore : ∀ p ∈ A, p.2.hi < lo)
    (hbehind : ∀ p ∈ B, hi < p.2.lo) (hfuel : t.addrs.length ≤ fuel) :
    Ends (loop (insertRound s.heap lo hi) fuel a) (PlaceFound lo hi (c.plug t) (A ++ T ++ B)) := by
  induction t generalizing par c A T B a fuel with
  | leaf => cases hroot
  | node l b r ihl ihr =>
    obtain rfl : b = a := Option.some.inj hroot
    obtain ⟨hb, hl, hr⟩ := hlinked
    obtain ⟨n, hn, hlinks⟩ := Option.map_eq_some_iff.mp hb
    obtain ⟨-, hlhs, hrhs⟩ := Links.mk.inj hlinks
    simp only [Shape.addrs, List.length_append, List.length_cons] at hfuel
    obtain ⟨fuel, rfl⟩ : ∃ k, fuel = k + 1 := ⟨fuel - 1, by omega⟩
    obtain ⟨Tl, Tr', rfl, hTl, hTr'⟩ := List.map_eq_append_iff.mp hT.symm
    obtain ⟨p, Tr, rfl, hp, hTr⟩ := List.map_eq_cons_iff.mp hTr'
    obtain ⟨b', e⟩ := p
    obtain rfl : b' = b := hp
    have hentry : n.entry = e := by
      have hrow := hentries (b', e) (by simp)
      rw [entryAt, hn] at hrow
      exact Option.some.inj hrow
    rw [List.map_append, List.map_cons, ordered_append, ordered_cons] at hordered
    obtain ⟨hordl, ⟨hle, hordr, hapartr⟩, hapartl⟩ := hordered
    have hround : insertRound s.heap lo hi b' =
        if hi < e.lo then (match l.root with
          | some nextnode => some (.next nextnode)
          | none => some (.done (.lhs b')))
        else if e.hi < lo then (match r.root with
          | some nextnode => some (.next nextnode)
          | none => some (.done (.rhs b')))
        else some (.done (.overlap b')) := by
      unfold insertRound
      rw [hn, some_bind, hlhs, hrhs, ← hentry]
      rfl
    by_cases hlt : hi < e.lo
    · -- to the left: the node and all behind it are above the range
      have hbehind' : ∀ p ∈ (b', e) :: Tr ++ B, hi < p.2.lo := by
        intro p hp
        rw [List.cons_append, List.mem_cons, List.mem_append] at hp
        rcases hp with rfl | hp | hp
        · exact hlt
        · exact hlt.trans_le (hle.trans (hapartr p.2 (List.mem_map_of_mem hp)).le)
        · exact hbehind p hp
      cases hrootl : l.root with
      | none =>
        rw [Shape.eq_leaf hrootl] at hTl ⊢
        obtain rfl : Tl = [] := List.map_eq_nil_iff.mp hTl
        refine ⟨.lhs b', loop_done ?_, r, c, A, (b', e) :: Tr ++ B, rfl, ⟨by simp, hbefore, hbehind'⟩, hA⟩
        rw [hround, if_pos hlt, hrootl]
      | some x =>
        rw [show A ++ (Tl ++ (b', e) :: Tr) ++ B = A ++ Tl ++ ((b', e) :: Tr ++ B) by simp]
        obtain ⟨place, hplace, hfound⟩ := @ihl A Tl ((b', e) :: Tr ++ B) (.fromLhs b' r c) (some b') x fuel hl hrootl
          (fun p hp => hentries p (by simp [hp])) hTl.symm hA hordl hbefore hbehind' (by omega)
        refine ⟨place, (loop_next ?_).trans hplace, hfound⟩
        rw [hround, if_pos hlt, hrootl]
    by_cases hgt : e.hi < lo
    · -- to the right: the node and all before it are below the range
      have hbefore' : ∀ p ∈ A ++ (Tl ++ [(b', e)]), p.2.hi < lo := by
        intro p hp
        rw [List.mem_append, List.mem_append, List.mem_singleton] at hp
        rcases hp with hp | hp | rfl
        · exact hbefore p hp
        · exact (hapartl p.2 (List.mem_map_of_mem hp) e List.mem_cons_self).trans (hle.trans_lt hgt)
        · exact hgt
      have hA' : (Path.fromRhs l b' c).before = (A ++ (Tl ++ [(b', e)])).map Prod.fst := by
        rw [Path.before, hA, ← hTl]
        simp
      cases hrootr : r.root with
      | none =>
        rw [Shape.eq_leaf hrootr] at hTr ⊢
        obtain rfl : Tr = [] := List.map_eq_nil_iff.mp hTr
        refine ⟨.rhs b', loop_done ?_, l, c, _, B, rfl, ⟨by simp, hbefore', hbehind⟩, hA'⟩
        rw [hround, if_neg hlt, if_pos hgt, hrootr]
      | some x =>
        rw [show A ++ (Tl ++ (b', e) :: Tr) ++ B = A ++ (Tl ++ [(b', e)]) ++ Tr ++ B by simp]
        obtain ⟨place, hplace, hfound⟩ := @ihr _ Tr B (.fromRhs l b' c) (some b') x fuel hr hrootr
          (fun p hp => hentries p (by simp [hp])) hTr.symm hA' hordr hbefore' hbehind (by omega)
        refine ⟨place, (loop_next ?_).trans hplace, hfound⟩
        rw [hround, if_neg hlt, if_pos hgt, hrootr]
    · refine ⟨.overlap b', loop_done ?_, (b', e), by simp, rfl, not_lt.mp hgt, not_lt.mp hlt⟩
      rw [hround, if_neg hlt, if_neg hgt]

theorem Gap.below [PredOrder K] (h : Gap lo hi L pre post) (hordered : Ordered (L.map Prod.snd)) (hle : lo ≤ hi) :
    below lo (L.map Prod.snd) = pre.map Prod.snd := by
  rw [h.eq, List.map_append] at hordered ⊢
  rw [below_append, below_of_hi_lt (ordered_append.mp hordered).1, below_eq_nil, List.append_nil]
  · intro e he
    obtain ⟨p, hp, rfl⟩ := List.mem_map.mp he
    exact hle.trans (h.behind p hp).le
  · intro e he
    obtain ⟨p, hp, rfl⟩ := List.mem_map.mp he
    exact h.before p hp

theorem Gap.above [SuccOrder K] (h : Gap lo hi L pre post) (hordered : Ordered (L.map Prod.snd)) (hle : lo ≤ hi) :
    above hi (L.map Prod.snd) = post.map Prod.snd := by
  rw [h.eq, List.map_append] at hordered ⊢
  rw [above_append, above_of_lt_lo (ordered_append.mp hordered).2.1, above_eq_nil, List.nil_append]
  · intro e he
    obtain ⟨p, hp, rfl⟩ := List.mem_map.mp he
    exact (h.before p hp).le.trans hle
  · intro e he
    obtain ⟨p, hp, rfl⟩ := List.mem_map.mp he
    exact h.behind p hp

theorem Gap.not_overlaps (h : Gap lo hi L pre post) : ∀ e ∈ L.map Prod.snd, ¬Overlaps lo hi e := by
  intro e he
  obtain ⟨p, hp, rfl⟩ := List.mem_map.mp he
  rw [h.eq] at hp
  rintro ⟨hlo, hhi⟩
  rcases List.mem_append.mp hp with hp | hp
  · exact (h.before p hp).not_ge hlo
  · exact (h.behind p hp).not_ge hhi

end Search

section Insert

variable [LinearOrder K] [PredOrder K] [SuccOrder K] [DecidableEq V] {RedBlack : Nodes K V → Prop} {abi : RbtreeAbi K V}
  {ops : AdjacencyOps K} {adj : K → K → Bool} {s : Nodes K V} {heap : NodeHeap K V} {tree : RBTree}
  {L pre post : List (ℕ × Entry K V)} {e : Entry K V} {node : ℕ}

/-- The neighbours of `e` in the place of the keys that it covers are compared as `adj` says. -/
structure KnownAt (ops : AdjacencyOps K) (adj : K → K → Bool) (e : Entry K V) (E : List (Entry K V)) : Prop where
  prev : ∀ q ∈ (below e.lo E).getLast?, Known ops adj e.lo q e
  next : ∀ q ∈ (above e.hi E).head?, Known ops adj e.hi e q

/-- What becomes of the rows `L` when `e` is written over them and merged with its neighbours. -/
def Overwritten (adj : K → K → Bool) (RedBlack : Nodes K V → Prop) (e : Entry K V) (E : List (Entry K V))
    (s : Nodes K V) : Prop :=
  ∃ L, Rows RedBlack s L ∧ L.map Prod.snd = insertMerged adj (below e.lo E) e (above e.hi E)

/-- A node in the place of the keys that it covers is merged with its neighbours. -/
theorem Rows.mergeInto {E : List (Entry K V)} (h : Rows RedBlack s (pre ++ (node, e) :: post))
    (habi : abi.Correct RedBlack) (hpre : pre.map Prod.snd = below e.lo E) (hpost : post.map Prod.snd = above e.hi E)
    (hknown : KnownAt ops adj e E) : Ends (rbtreeDoMergenode abi ops s node) (Overwritten adj RedBlack e E) := by
  refine (h.mergenode habi (hpre ▸ hknown.prev) (hpost ▸ hknown.next)).mono ?_
  rintro s' ⟨L, hrows, hmap⟩
  exact ⟨L, hrows, by rw [hmap, hpre, hpost]⟩

theorem Gap.insertDone (h : Gap e.lo e.hi L pre post) (habi : abi.Correct RedBlack)
    (hordered : Ordered (L.map Prod.snd)) (hle : e.lo ≤ e.hi) (hknown : KnownAt ops adj e (L.map Prod.snd))
    (hs : Rows RedBlack s (pre ++ (node, e) :: post)) :
    Ends (insertDone abi ops tree s node) fun r => ∃ heap' tree', r = .inserted heap' tree' ∧
      Overwritten adj RedBlack e (L.map Prod.snd) ⟨heap', tree'.rbtRoot⟩ := by
  refine (hs.mergeInto habi (h.below hordered hle).symm (h.above hordered hle).symm hknown).bind ?_
  rintro s' hs'
  exact Ends.pure ⟨_, _, rfl, hs'⟩

/-- `rbtree_do_insert`. -/
theorem rbtreeDoInsert_ends (h : Rows RedBlack ⟨heap, tree.rbtRoot⟩ L) (habi : abi.Correct RedBlack)
    (hordered : Ordered (L.map Prod.snd)) (hnew : Unlinked ⟨heap, tree.rbtRoot⟩ L node e) (hle : e.lo ≤ e.hi)
    (hknown : (∀ q ∈ L.map Prod.snd, ¬Overlaps e.lo e.hi q) → KnownAt ops adj e (L.map Prod.snd)) :
    Ends (rbtreeDoInsert abi ops heap tree node) fun r =>
      (∃ p ∈ L, r = .overlap p.1 ∧ Overlaps e.lo e.hi p.2) ∨
      (∀ q ∈ L.map Prod.snd, ¬Overlaps e.lo e.hi q) ∧ ∃ heap' tree', r = .inserted heap' tree' ∧
        Overwritten adj RedBlack e (L.map Prod.snd) ⟨heap', tree'.rbtRoot⟩ := by
  obtain ⟨n, hn, hentry⟩ := entryAt_eq_some hnew.entry
  obtain ⟨t, ht, haddrs⟩ := h.isTree
  unfold rbtreeDoInsert
  dsimp only at hn
  rw [hn, some_bind]
  cases hroot : tree.rbtRoot with
  | none =>
    obtain rfl := h.nil_of_root hroot
    have hlt := lt_of_entryAt hnew.entry
    dsimp only at hlt ⊢
    rw [setNode_of_lt hlt, some_bind]
    refine Ends.pure (.inr ⟨by simp, _, _, rfl, [(node, e)], ⟨?_, ⟨.node .leaf node .leaf, ⟨rfl, ?_, ?_⟩, rfl⟩, ?_⟩, rfl⟩)
    · refine habi.single _ node ?_ ?_
      · rw [getElem_modify_self hn]
        rfl
      · rw [redAt, getElem_modify_self hn]
        rfl
    · refine ⟨?_, trivial, trivial⟩
      dsimp only [NodeHeap.links]
      rw [getElem_modify_self hn]
      rfl
    · simp [Shape.addrs]
    · intro p hp
      obtain rfl := List.mem_singleton.mp hp
      dsimp only [entryAt]
      rw [getElem_modify_self hn, ← hentry]
      rfl
  | some root =>
    dsimp only
    obtain ⟨place, hplace, hfound⟩ := @insertSearch_ends _ _ _ ⟨heap, tree.rbtRoot⟩ [] L [] t .top none root
      (heap.length + 1) e.lo e.hi ht.linked (ht.root_eq.symm.trans hroot) h.entries haddrs rfl hordered (by simp)
      (by simp) (Nat.le_succ_of_le ht.length_le)
    have hkeys : loop (insertRound heap n.rbtnMinkey n.rbtnMaxkey) (heap.length + 1) root = some place := by
      rw [← hentry] at hplace
      exact hplace
    rw [List.nil_append, List.append_nil] at hfound
    rw [hkeys, some_bind]
    cases place with
    | overlap x =>
      obtain ⟨p, hp, rfl, hoverlaps⟩ := hfound
      exact Ends.pure (.inl ⟨p, hp, rfl, hoverlaps⟩)
    | lhs x =>
      obtain ⟨rhs, d, pre, post, rfl, hgap, hbefore⟩ := hfound
      rw [← hroot]
      refine (h.linkLhs habi hgap.eq hnew ht haddrs hbefore).bind ?_
      rintro s ⟨hs, -⟩
      exact (hgap.insertDone habi hordered hle (hknown hgap.not_overlaps) hs).mono fun r hr =>
        .inr ⟨hgap.not_overlaps, hr⟩
    | rhs x =>
      obtain ⟨lhs, d, pre, post, rfl, hgap, hbefore⟩ := hfound
      rw [← hroot]
      refine (h.linkRhs habi hgap.eq hnew ht haddrs hbefore).bind ?_
      rintro s ⟨hs, -⟩
      exact (hgap.insertDone habi hordered hle (hknown hgap.not_overlaps) hs).mono fun r hr =>
        .inr ⟨hgap.not_overlaps, hr⟩

end Insert

end Deemon.Collections
