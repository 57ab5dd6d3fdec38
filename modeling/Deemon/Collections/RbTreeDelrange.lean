import Deemon.Collections.RbTreeLocate

/-!
# Deleting ranges of an `RBTree`

`rbtree_delrange` cuts a range of keys out of the nodes that overlap with it: a node is shortened, split in two, or
removed.
-/

namespace Deemon.Collections

open Deemon.Run Deemon.LinkedTree Deemon.RangeMap

variable {K V : Type}

/-! ### Operations -/

/-- The loop that removes all nodes from `iter` to `maxnode`. -/
def removeNodes (abi : RbtreeAbi K V) (s : Nodes K V) (iter : ℕ) (maxnode : Option ℕ) : Option (Nodes K V) :=
  loop (fun (s, iter) =>
    if some iter = maxnode then do some (.done (← abi.removenode s iter))
    else do
      let next ← rbtreeAbiNextnode s.heap iter
      let s ← abi.removenode s iter
      some (.next (s, ← next))) (s.heap.length + 1) (s, iter)

/-- The nodes at the two ends are cut off, and those between them are removed. -/
def removeCovered (abi : RbtreeAbi K V) (s : Nodes K V) (minNode maxNode : ℕ) (minkeyPred maxkeySucc : Option K) :
    Option (Nodes K V) := do
  let (heap, removeEmpty, removeMinnode) ← (match minkeyPred with
    | some minkeyPred => do
      let heap ← setNode s.heap minNode fun n => { n with rbtnMaxkey := minkeyPred }
      some (heap, decide (minNode = maxNode), ← rbtreeAbiNextnode heap minNode)
    | none => some (s.heap, false, some minNode))
  let (heap, removeEmpty, removeMaxnode) ← (match maxkeySucc with
    | some maxkeySucc => do
      let removeEmpty := removeEmpty || decide (removeMinnode = some maxNode)
      let heap ← setNode heap maxNode fun n => { n with rbtnMinkey := maxkeySucc }
      some (heap, removeEmpty, ← rbtreeAbiPrevnode heap maxNode)
    | none => some (heap, removeEmpty, some maxNode))
  if removeEmpty then some ⟨heap, s.root⟩
  else do removeNodes abi ⟨heap, s.root⟩ (← removeMinnode) removeMaxnode

/-- The new `hinode` for the keys of `lonode` from `maxkey_succ` on; `lonode` keeps those up to `minkey_pred`. -/
def splitNode (heap : NodeHeap K V) (lonode : ℕ) (minkeyPred maxkeySucc : K) : Option (NodeHeap K V × ℕ) := do
  let hinode := heap.length
  let lo ← heap[lonode]?
  let heap := heap ++ [⟨none, none, none, maxkeySucc, lo.rbtnMaxkey, lo.rbtnValue, false⟩]
  let heap ← setNode heap lonode fun n => { n with rbtnMaxkey := minkeyPred }
  some (heap, hinode)

section Ranges

variable [LinearOrder K] [PredOrder K] [SuccOrder K]

/-- `minkey_pred`, unless `minkey <= minnode_minkey`. -/
def minkeyPred (range : KeyRange K) (minnode : RbtreeNode K V) : Option K :=
  if range.minkey ≤ minnode.rbtnMinkey then none else some (Order.pred range.minkey)

/-- `maxkey_succ`, unless `maxkey >= maxnode_maxkey`. -/
def maxkeySucc (range : KeyRange K) (maxnode : RbtreeNode K V) : Option K :=
  if range.maxkey < maxnode.rbtnMaxkey then some (Order.succ range.maxkey) else none

/-- The special case of `rbtree_delrange` for a range inside of one node. -/
def delInside (abi : RbtreeAbi K V) (s : Nodes K V) (lonode : ℕ) (minkeyPred maxkeySucc : K) : Option (Nodes K V) := do
  let (heap, hinode) ← splitNode s.heap lonode minkeyPred maxkeySucc
  rbtreeInsertAfter abi ⟨heap, s.root⟩ lonode hinode

/-- The three cases of `rbtree_delrange` for a range that overlaps with nodes. -/
def delLocated (abi : RbtreeAbi K V) (s : Nodes K V) (minNode maxNode : ℕ) (minkeyPred maxkeySucc : Option K) :
    Option (Nodes K V) :=
  match minkeyPred, maxkeySucc with
  | none, none => removeNodes abi s minNode (some maxNode)
  | some minkeyPred, some maxkeySucc =>
    if minNode = maxNode then delInside abi s minNode minkeyPred maxkeySucc
    else removeCovered abi s minNode maxNode (some minkeyPred) (some maxkeySucc)
  | minkeyPred, maxkeySucc => removeCovered abi s minNode maxNode minkeyPred maxkeySucc

/-- `rbtree_delrange`. -/
def rbtreeDelrange (abi : RbtreeAbi K V) (heap : NodeHeap K V) (tree : RBTree) (range : KeyRange K) :
    Option (NodeHeap K V × RBTree) := do
  match ← rbtreeDoMinmaxlocateNode heap tree range with
  | none => some (heap, tree)
  | some (minNode, maxNode) => do
    let s ← delLocated abi ⟨heap, tree.rbtRoot⟩ minNode maxNode (minkeyPred range (← heap[minNode]?))
      (maxkeySucc range (← heap[maxNode]?))
    some (s.heap, ⟨s.root, tree.rbtVersion + 1⟩)

end Ranges

/-! ### Removing -/

section Remove

variable {RedBlack : Nodes K V → Prop} {abi : RbtreeAbi K V} {s : Nodes K V} {L pre mid post : List (ℕ × Entry K V)}
  {iter maxnode fuel : ℕ}

/-- The first node of a block is the last one if there are no others. -/
theorem Rows.first_eq_last {p : ℕ × Entry K V} (h : Rows RedBlack s L) (hL : L = pre ++ p :: (mid ++ post))
    (hlast : (p :: mid).getLast?.map Prod.fst = some maxnode) : p.1 = maxnode ↔ mid = [] := by
  cases mid with
  | nil => exact iff_of_true (Option.some.inj hlast) rfl
  | cons q mid =>
    obtain ⟨r, hr, rfl⟩ := Option.map_eq_some_iff.mp hlast
    rw [List.getLast?_cons_cons] at hr
    have hmem : r ∈ pre ++ (q :: mid ++ post) := by
      rw [List.mem_append, List.mem_append]
      exact .inr (.inl (List.mem_of_mem_getLast? hr))
    exact iff_of_false (h.ne_of_mem hL hmem).symm (by simp)

theorem removeNodes_rounds (h : Rows RedBlack s (pre ++ mid ++ post)) (habi : abi.Correct RedBlack)
    (hfirst : mid.head?.map Prod.fst = some iter) (hlast : mid.getLast?.map Prod.fst = some maxnode)
    (hfuel : mid.length ≤ fuel) :
    Ends (loop (fun (s, iter) =>
      if some iter = some maxnode then do some (.done (← abi.removenode s iter))
      else do
        let next ← rbtreeAbiNextnode s.heap iter
        let s ← abi.removenode s iter
        some (.next (s, ← next))) fuel (s, iter)) fun s' => Rows RedBlack s' (pre ++ post) ∧
      SameEntries s.heap s'.heap ∧ ∀ a, a ∉ (pre ++ mid ++ post).map Prod.fst → s'.heap[a]? = s.heap[a]? := by
  induction mid generalizing s iter fuel with
  | nil => cases hfirst
  | cons p mid ih =>
    obtain rfl : p.1 = iter := Option.some.inj hfirst
    obtain ⟨fuel, rfl⟩ : ∃ k, fuel = k + 1 := ⟨fuel - 1, by simp only [List.length_cons] at hfuel; omega⟩
    have hrows : Rows RedBlack s (pre ++ p :: (mid ++ post)) := by simpa using h
    obtain ⟨s', hrun, hrows', hsame, hother⟩ := hrows.remove habi rfl
    cases mid with
    | nil =>
      obtain rfl : p.1 = maxnode := Option.some.inj hlast
      refine ⟨s', loop_done ?_, hrows', hsame, fun a ha => hother a (by simpa using ha)⟩
      dsimp only
      rw [if_pos rfl, hrun]
      rfl
    | cons q mid =>
      have hne : p.1 ≠ maxnode := fun heq => by simpa using (hrows.first_eq_last rfl hlast).mp heq
      rw [List.getLast?_cons_cons] at hlast
      have hstep : Rows RedBlack s' (pre ++ (q :: mid) ++ post) := by rwa [List.append_assoc]
      obtain ⟨s'', hrun', hrows'', hsame', hother'⟩ := ih hstep rfl hlast (Nat.le_of_succ_le_succ hfuel)
      refine ⟨s'', (loop_next (?_ : _ = some (Step.next (s', q.1)))).trans hrun', hrows'', hsame.trans hsame',
        fun a ha => ?_⟩
      · dsimp only
        rw [if_neg (fun heq => hne (Option.some.inj heq)), hrows.nextnode rfl, some_bind, hrun]
        rfl
      · rw [hother' a (by simp at ha ⊢; tauto), hother a (by simpa using ha)]

/-- The nodes from the first to the last one of a block are removed. -/
theorem Rows.removeNodes (h : Rows RedBlack s L) (habi : abi.Correct RedBlack) (hL : L = pre ++ mid ++ post)
    (hfirst : mid.head?.map Prod.fst = some iter) (hlast : mid.getLast?.map Prod.fst = some maxnode) :
    Ends (removeNodes abi s iter (some maxnode)) fun s' => Rows RedBlack s' (pre ++ post) ∧
      SameEntries s.heap s'.heap ∧ ∀ a, a ∉ L.map Prod.fst → s'.heap[a]? = s.heap[a]? := by
  have hlen := h.length_le
  subst hL
  refine removeNodes_rounds h habi hfirst hlast ?_
  simp only [List.length_append] at hlen
  omega

section Covered

variable {p q : ℕ × Entry K V} {rest : List (ℕ × Entry K V)} {m : ℕ} {k k' : K}

/-- The nodes that are not in the tree keep their entries. -/
def OthersSame (L : List (ℕ × Entry K V)) (heap heap' : NodeHeap K V) : Prop :=
  ∀ x, x ∉ L.map Prod.fst → entryAt heap' x = entryAt heap x

theorem OthersSame.trans {L' : List (ℕ × Entry K V)} {heap heap' heap'' : NodeHeap K V} (h : OthersSame L heap heap')
    (h' : OthersSame L' heap' heap'') (hsub : L'.map Prod.fst ⊆ L.map Prod.fst) : OthersSame L heap heap'' :=
  fun x hx => (h' x fun hmem => hx (hsub hmem)).trans (h x hx)

theorem SameEntries.others {heap heap' : NodeHeap K V} (h : SameEntries heap heap') : OthersSame L heap heap' :=
  fun x _ => h x

section Cut

variable (h : Rows RedBlack s L) (habi : abi.Correct RedBlack)
include h habi

/-- The upper key of a node is written. -/
theorem Rows.setMaxkey (hL : L = pre ++ p :: post) (k : K) :
    Ends (setNode s.heap p.1 fun n => { n with rbtnMaxkey := k }) fun heap =>
      Rows RedBlack ⟨heap, s.root⟩ (pre ++ (p.1, ⟨p.2.lo, k, p.2.value⟩) :: post) ∧ OthersSame L s.heap heap := by
  have hentry : ∀ n : RbtreeNode K V, n.entry = p.2 → RbtreeNode.entry { n with rbtnMaxkey := k } = ⟨p.2.lo, k, p.2.value⟩ := by
    intro n hn
    rw [← hn]
    rfl
  obtain ⟨heap, hset, hrows, hother⟩ := h.write (f := fun n => { n with rbtnMaxkey := k }) habi hL (fun _ => ⟨rfl, rfl⟩)
    hentry
  exact ⟨heap, hset, hrows, fun x hx => hother x fun heq => hx (by simp [hL, heq])⟩

/-- The lower key of a node is written. -/
theorem Rows.setMinkey (hL : L = pre ++ p :: post) (k : K) :
    Ends (setNode s.heap p.1 fun n => { n with rbtnMinkey := k }) fun heap =>
      Rows RedBlack ⟨heap, s.root⟩ (pre ++ (p.1, ⟨k, p.2.hi, p.2.value⟩) :: post) ∧ OthersSame L s.heap heap := by
  have hentry : ∀ n : RbtreeNode K V, n.entry = p.2 → RbtreeNode.entry { n with rbtnMinkey := k } = ⟨k, p.2.hi, p.2.value⟩ := by
    intro n hn
    rw [← hn]
    rfl
  obtain ⟨heap, hset, hrows, hother⟩ := h.write (f := fun n => { n with rbtnMinkey := k }) habi hL (fun _ => ⟨rfl, rfl⟩)
    hentry
  exact ⟨heap, hset, hrows, fun x hx => hother x fun heq => hx (by simp [hL, heq])⟩

/-- The first node is cut off at its end, the others are removed. -/
theorem Rows.removeCovered_low (hL : L = pre ++ p :: (mid ++ post)) (hlast : (p :: mid).getLast?.map Prod.fst = some m) :
    Ends (removeCovered abi s p.1 m (some k) none) fun s' =>
      Rows RedBlack s' (pre ++ (p.1, ⟨p.2.lo, k, p.2.value⟩) :: post) ∧ OthersSame L s.heap s'.heap := by
  obtain ⟨heap, hset, hrows, hother⟩ := h.setMaxkey habi hL k
  have hempty : decide (p.1 = m) = decide (mid = []) := decide_eq_decide.mpr (h.first_eq_last hL hlast)
  unfold removeCovered
  dsimp only
  rw [hset, some_bind, hrows.nextnode rfl, some_bind, some_bind, some_bind, hempty]
  cases mid with
  | nil => exact Ends.pure ⟨hrows, hother⟩
  | cons q mid =>
    rw [List.getLast?_cons_cons] at hlast
    rw [if_neg (by simp)]
    have hsplit : pre ++ (p.1, (⟨p.2.lo, k, p.2.value⟩ : Entry K V)) :: (q :: mid ++ post) =
        (pre ++ [(p.1, ⟨p.2.lo, k, p.2.value⟩)]) ++ q :: mid ++ post := by simp
    refine (hrows.removeNodes habi hsplit rfl hlast).mono ?_
    rintro s' ⟨hrows', hsame, -⟩
    exact ⟨by simpa using hrows', fun x hx => (hsame x).trans (hother x hx)⟩

/-- The last node is cut off at its start, the others are removed. -/
theorem Rows.removeCovered_high (hL : L = pre ++ mid ++ q :: post) (hfirst : (mid ++ [q]).head?.map Prod.fst = some m) :
    Ends (removeCovered abi s m q.1 none (some k)) fun s' =>
      Rows RedBlack s' (pre ++ (q.1, ⟨k, q.2.hi, q.2.value⟩) :: post) ∧ OthersSame L s.heap s'.heap := by
  obtain ⟨heap, hset, hrows, hother⟩ := h.setMinkey habi hL k
  have hempty : decide (some m = some q.1) = decide (mid = []) := by
    refine decide_eq_decide.mpr ?_
    cases mid with
    | nil => exact iff_of_true hfirst.symm rfl
    | cons p mid =>
      obtain rfl : p.1 = m := Option.some.inj hfirst
      have hsplit : L = pre ++ p :: (mid ++ q :: post) := by simp [hL]
      have hne : q.1 ≠ p.1 := h.ne_of_mem hsplit (by simp)
      exact iff_of_false (fun heq => hne (Option.some.inj heq).symm) (by simp)
  unfold removeCovered
  dsimp only
  rw [some_bind]
  dsimp only
  rw [hset, some_bind, hrows.prevnode rfl, some_bind, some_bind, hempty, Bool.false_or]
  cases mid with
  | nil => exact Ends.pure ⟨by simpa using hrows, hother⟩
  | cons p mid =>
    have hfirst' : (p :: mid).head?.map Prod.fst = some m := hfirst
    obtain ⟨r, hr⟩ : ∃ r, (p :: mid).getLast? = some r := ⟨_, List.getLast?_eq_some_getLast (by simp)⟩
    have hlast : (pre ++ p :: mid).getLast? = some r := by rw [List.getLast?_append, hr]; rfl
    rw [if_neg (by simp), some_bind, hlast]
    refine (hrows.removeNodes habi rfl hfirst' (by rw [hr]; rfl)).mono ?_
    rintro s' ⟨hrows', hsame, -⟩
    exact ⟨hrows', fun x hx => (hsame x).trans (hother x hx)⟩

/-- Two nodes are cut off, those between them are removed. -/
theorem Rows.removeCovered_both (hL : L = pre ++ p :: (mid ++ q :: post)) :
    Ends (removeCovered abi s p.1 q.1 (some k) (some k')) fun s' =>
      Rows RedBlack s' (pre ++ (p.1, ⟨p.2.lo, k, p.2.value⟩) :: (q.1, ⟨k', q.2.hi, q.2.value⟩) :: post) ∧
        OthersSame L s.heap s'.heap := by
  obtain ⟨heap, hset, hrows, hother⟩ := h.setMaxkey habi hL k
  have hsplit : pre ++ (p.1, (⟨p.2.lo, k, p.2.value⟩ : Entry K V)) :: (mid ++ q :: post) =
      (pre ++ (p.1, ⟨p.2.lo, k, p.2.value⟩) :: mid) ++ q :: post := by simp
  obtain ⟨heap', hset', hrows', hother'⟩ := hrows.setMinkey habi hsplit k'
  have hothers : OthersSame L s.heap heap' := hother.trans hother' (by simp [hL])
  have hpq : q.1 ≠ p.1 := h.ne_of_mem hL (by simp)
  have hne : decide (p.1 = q.1) = false := decide_eq_false hpq.symm
  have hempty : decide ((mid ++ q :: post).head?.map Prod.fst = some q.1) = decide (mid = []) := by
    refine decide_eq_decide.mpr ?_
    cases mid with
    | nil => exact iff_of_true rfl rfl
    | cons r mid =>
      have hmid : L = (pre ++ [p]) ++ r :: (mid ++ q :: post) := by simp [hL]
      have hrq : q.1 ≠ r.1 := h.ne_of_mem hmid (by simp)
      exact iff_of_false (fun heq => hrq (Option.some.inj heq).symm) (by simp)
  unfold removeCovered
  dsimp only
  rw [hset, some_bind, hrows.nextnode rfl, some_bind, some_bind]
  dsimp only
  rw [hset', some_bind, hrows'.prevnode rfl, some_bind, some_bind, hne, hempty, Bool.false_or]
  cases mid with
  | nil => exact Ends.pure ⟨by simpa using hrows', hothers⟩
  | cons r mid =>
    obtain ⟨x, hx⟩ : ∃ x, (r :: mid).getLast? = some x := ⟨_, List.getLast?_eq_some_getLast (by simp)⟩
    have hlast : (pre ++ (p.1, (⟨p.2.lo, k, p.2.value⟩ : Entry K V)) :: r :: mid).getLast? = some x := by
      rw [List.getLast?_append, List.getLast?_cons_cons, hx]
      rfl
    rw [if_neg (by simp), hlast]
    have hmid : (pre ++ (p.1, (⟨p.2.lo, k, p.2.value⟩ : Entry K V)) :: r :: mid) ++ (q.1, ⟨k', q.2.hi, q.2.value⟩) :: post =
        (pre ++ [(p.1, ⟨p.2.lo, k, p.2.value⟩)]) ++ r :: mid ++ (q.1, ⟨k', q.2.hi, q.2.value⟩) :: post := by simp
    refine (hrows'.removeNodes habi hmid rfl (by rw [hx]; rfl)).mono ?_
    rintro s' ⟨hrows'', hsame, -⟩
    exact ⟨by simpa using hrows'', fun x hx => (hsame x).trans (hothers x hx)⟩

end Cut

end Covered

end Remove

/-! ### What is left -/

section Entries

variable [LinearOrder K] {L pre mid post : List (ℕ × Entry K V)} {p q : ℕ × Entry K V} {lo hi : K} {m M : ℕ}

theorem RangeLocated.below_eq [PredOrder K] (h : RangeLocated lo hi L pre (p :: mid) post m M)
    (hordered : Ordered (L.map Prod.snd)) : below lo (L.map Prod.snd) = pre.map Prod.snd ++ (cutBelow lo p.2).toList := by
  have hL : L.map Prod.snd = pre.map Prod.snd ++ p.2 :: (mid ++ post).map Prod.snd := by simp [h.eq]
  rw [hL] at hordered ⊢
  obtain ⟨hpre, hrest, -⟩ := ordered_append.mp hordered
  rw [below_append, below_of_hi_lt hpre, below_cons hrest (h.inside p List.mem_cons_self).1]
  intro e he
  obtain ⟨x, hx, rfl⟩ := List.mem_map.mp he
  exact h.before x hx

theorem RangeLocated.above_eq [SuccOrder K] (h : RangeLocated lo hi L pre (mid ++ [q]) post m M)
    (hordered : Ordered (L.map Prod.snd)) : above hi (L.map Prod.snd) = (cutAbove hi q.2).toList ++ post.map Prod.snd := by
  have hL : L.map Prod.snd = ((pre ++ mid).map Prod.snd ++ [q.2]) ++ post.map Prod.snd := by simp [h.eq]
  rw [hL] at hordered ⊢
  obtain ⟨hrest, hpost, -⟩ := ordered_append.mp hordered
  rw [above_append, above_of_lt_lo hpost, above_concat hrest (h.inside q (by simp)).2]
  intro e he
  obtain ⟨x, hx, rfl⟩ := List.mem_map.mp he
  exact h.behind x hx

end Entries

section Inside

variable {RedBlack : Nodes K V → Prop} {abi : RbtreeAbi K V} {s : Nodes K V} {L pre post : List (ℕ × Entry K V)}
  {p : ℕ × Entry K V} {k k' : K}

/-- One node keeps its lower keys, a new one has the upper ones. -/
theorem Rows.splitNode (h : Rows RedBlack s L) (habi : abi.Correct RedBlack) (hL : L = pre ++ p :: post) :
    Ends (splitNode s.heap p.1 k k') fun r => Rows RedBlack ⟨r.1, s.root⟩ (pre ++ (p.1, ⟨p.2.lo, k, p.2.value⟩) :: post) ∧
      Unlinked ⟨r.1, s.root⟩ (pre ++ (p.1, ⟨p.2.lo, k, p.2.value⟩) :: post) r.2 ⟨k', p.2.hi, p.2.value⟩ ∧
      ∀ x e, Unlinked s L x e → x ≠ r.2 ∧
        Unlinked ⟨r.1, s.root⟩ (pre ++ (p.1, ⟨p.2.lo, k, p.2.value⟩) :: post) x e := by
  obtain ⟨n, hn, hentry⟩ := h.exists_node (p := p) (by simp [hL])
  obtain ⟨hrows, hnew⟩ := h.alloc habi ⟨none, none, none, k', n.rbtnMaxkey, n.rbtnValue, false⟩
  obtain ⟨heap, hset, hrows', hother⟩ := hrows.setMaxkey habi hL k
  have hmem : ∀ x, x ∉ L.map Prod.fst → x ∉ (pre ++ (p.1, (⟨p.2.lo, k, p.2.value⟩ : Entry K V)) :: post).map Prod.fst := by
    intro x hx
    simpa [hL] using hx
  dsimp only at hset
  refine ⟨(heap, s.heap.length), ?_, hrows', ⟨hmem _ hnew.notMem, ?_⟩, fun x e hx => ⟨?_, hmem x hx.notMem, ?_⟩⟩
  · unfold Collections.splitNode
    dsimp only
    rw [hn, some_bind, hset]
    rfl
  · refine (hother _ hnew.notMem).trans (hnew.entry.trans ?_)
    rw [← hentry]
    rfl
  · exact (lt_of_entryAt hx.entry).ne
  · refine (hother x hx.notMem).trans ?_
    have hlt := lt_of_entryAt hx.entry
    rw [entryAt, List.getElem?_append_left hlt]
    exact hx.entry

theorem Unlinked.of_same {s' : Nodes K V} {L' : List (ℕ × Entry K V)} {x : ℕ} {e : Entry K V} (h : Unlinked s L x e)
    (hsame : OthersSame L s.heap s'.heap) (hmem : x ∉ L'.map Prod.fst) : Unlinked s' L' x e :=
  ⟨hmem, (hsame x h.notMem).trans h.entry⟩

end Inside

section Rest

variable [LinearOrder K] [PredOrder K] [SuccOrder K] {RedBlack : Nodes K V → Prop} {abi : RbtreeAbi K V} {s : Nodes K V}
  {L pre mid post : List (ℕ × Entry K V)} {m M : ℕ} {range : KeyRange K} {minNode maxNode : RbtreeNode K V}

/-- The rows below and above the range from `lo` to `hi` that are left of the entries `E`. -/
structure Rest (RedBlack : Nodes K V → Prop) (lo hi : K) (E : List (Entry K V)) (s : Nodes K V)
    (A B : List (ℕ × Entry K V)) : Prop where
  rows : Rows RedBlack s (A ++ B)
  below : A.map Prod.snd = below lo E
  above : B.map Prod.snd = above hi E

/-- All that overlaps is removed, except for the ends of the first and the last node. -/
theorem Rows.removeCovered (h : Rows RedBlack s L) (habi : abi.Correct RedBlack) (hordered : Ordered (L.map Prod.snd))
    (hloc : RangeLocated range.minkey range.maxkey L pre mid post m M) (hmin : s.heap[m]? = some minNode)
    (hmax : s.heap[M]? = some maxNode) (hcut : minkeyPred range minNode ≠ none ∨ maxkeySucc range maxNode ≠ none)
    (hne : minkeyPred range minNode ≠ none → maxkeySucc range maxNode ≠ none → m ≠ M) :
    Ends (removeCovered abi s m M (minkeyPred range minNode) (maxkeySucc range maxNode)) fun s' => ∃ A B,
      Rest RedBlack range.minkey range.maxkey (L.map Prod.snd) s' A B ∧ OthersSame L s.heap s'.heap ∧
      (A ++ B).map Prod.fst ⊆ L.map Prod.fst ∧
      (minkeyPred range minNode ≠ none → ∃ A' p, A = A' ++ [p] ∧ p.1 = m) ∧
      (minkeyPred range minNode = none → ∃ q B', B = q :: B' ∧ q.1 = M) := by
  obtain ⟨p, hp, rfl⟩ := Option.map_eq_some_iff.mp hloc.first
  obtain ⟨q, hq, rfl⟩ := Option.map_eq_some_iff.mp hloc.last
  obtain ⟨rest, hrest⟩ := List.head?_eq_some_iff.mp hp
  obtain ⟨rest', hrest'⟩ := List.getLast?_eq_some_iff.mp hq
  have hbelow := (hrest ▸ hloc).below_eq hordered
  have habove := (hrest' ▸ hloc).above_eq hordered
  have hinsidep := hloc.inside p (by simp [hrest])
  have hinsideq := hloc.inside q (by simp [hrest'])
  obtain ⟨n, hn, hnentry⟩ := h.exists_node (p := p) (by simp [hloc.eq, hrest])
  obtain rfl := Option.some.inj (hn.symm.trans hmin)
  obtain ⟨n', hn', hnentry'⟩ := h.exists_node (p := q) (by simp [hloc.eq, hrest'])
  obtain rfl := Option.some.inj (hn'.symm.trans hmax)
  have hplo : n.rbtnMinkey = p.2.lo := congrArg Entry.lo hnentry
  have hqhi : n'.rbtnMaxkey = q.2.hi := congrArg Entry.hi hnentry'
  unfold minkeyPred maxkeySucc at hcut hne ⊢
  rw [hplo, hqhi] at hcut hne ⊢
  by_cases hlo : range.minkey ≤ p.2.lo
  · -- the first node is covered: the last one is not
    simp only [if_pos hlo, ne_eq, not_true_eq_false, false_or] at hcut
    have hhi : range.maxkey < q.2.hi := by
      by_contra hno
      exact hcut (if_neg hno)
    rw [if_pos hlo, if_pos hhi]
    rw [cutBelow_eq_none hlo, Option.toList_none, List.append_nil] at hbelow
    rw [cutAbove_of_lo_le hinsideq.2 hhi] at habove
    have hL : L = pre ++ rest' ++ q :: post := by simp [hloc.eq, hrest']
    refine (h.removeCovered_high habi hL (by rw [← hrest', hp]; rfl)).mono ?_
    rintro s' ⟨hrows, hother⟩
    refine ⟨pre, _, ⟨hrows, hbelow.symm, by rw [habove]; rfl⟩, hother, ?_, by simp, fun _ => ⟨_, _, rfl, rfl⟩⟩
    intro x hx
    simp only [hloc.eq, hrest', List.map_append, List.map_cons, List.mem_append, List.mem_cons] at hx ⊢
    tauto
  · rw [if_neg hlo] at hne ⊢
    rw [cutBelow_of_le_hi (not_le.mp hlo) hinsidep.1] at hbelow
    by_cases hhi : range.maxkey < q.2.hi
    · -- neither is covered, so these are two nodes
      rw [if_pos hhi] at hne ⊢
      have hpq := hne (by simp) (by simp)
      rw [cutAbove_of_lo_le hinsideq.2 hhi] at habove
      obtain ⟨inner, hinner⟩ : ∃ inner, mid = p :: (inner ++ [q]) := by
        rcases List.eq_nil_or_concat rest with rfl | ⟨inner, r, rfl⟩
        · rw [hrest] at hq
          exact absurd (congrArg Prod.fst (Option.some.inj hq)) hpq
        · rw [hrest, List.concat_eq_append, ← List.cons_append, List.getLast?_concat] at hq
          rw [hrest, List.concat_eq_append, Option.some.inj hq]
          exact ⟨inner, rfl⟩
      have hL : L = pre ++ p :: (inner ++ q :: post) := by simp [hloc.eq, hinner]
      refine (h.removeCovered_both habi hL).mono ?_
      rintro s' ⟨hrows, hother⟩
      refine ⟨pre ++ [(p.1, ⟨p.2.lo, Order.pred range.minkey, p.2.value⟩)], _, ⟨by simpa using hrows, ?_, ?_⟩, hother, ?_,
        fun _ => ⟨pre, _, rfl, rfl⟩, by simp⟩
      · rw [hbelow]
        simp
      · rw [habove]
        rfl
      · intro x hx
        simp only [hloc.eq, hinner, List.map_append, List.map_cons, List.mem_append, List.mem_cons, List.map_nil,
          List.not_mem_nil, or_false] at hx ⊢
        tauto
    · rw [if_neg hhi]
      rw [cutAbove_eq_none (not_lt.mp hhi), Option.toList_none, List.nil_append] at habove
      have hL : L = pre ++ p :: (rest ++ post) := by simp [hloc.eq, hrest]
      refine (h.removeCovered_low habi hL (by rw [← hrest, hq]; rfl)).mono ?_
      rintro s' ⟨hrows, hother⟩
      refine ⟨pre ++ [(p.1, ⟨p.2.lo, Order.pred range.minkey, p.2.value⟩)], post, ⟨by simpa using hrows, ?_, habove.symm⟩,
        hother, ?_, fun _ => ⟨pre, _, rfl, rfl⟩, by simp⟩
      · rw [hbelow]
        simp
      · intro x hx
        simp only [hloc.eq, hrest, List.map_append, List.map_cons, List.mem_append, List.mem_cons, List.map_nil,
          List.not_mem_nil, or_false] at hx ⊢
        tauto

end Rest

/-! ### Results -/

section Results

variable [LinearOrder K] {RedBlack : Nodes K V → Prop} {abi : RbtreeAbi K V} {L pre mid post : List (ℕ × Entry K V)}
  {s : Nodes K V} {heap : NodeHeap K V} {tree : RBTree} {lo hi : K} {m M : ℕ}

/-- The first and the last node that the range overlaps with. -/
theorem Rows.located_ends (h : Rows RedBlack s L) (hloc : RangeLocated lo hi L pre mid post m M) :
    ∃ p q n n', mid.head? = some p ∧ mid.getLast? = some q ∧ p.1 = m ∧ q.1 = M ∧ s.heap[m]? = some n ∧
      s.heap[M]? = some n' ∧ n.entry = p.2 ∧ n'.entry = q.2 := by
  obtain ⟨p, hp, rfl⟩ := Option.map_eq_some_iff.mp hloc.first
  obtain ⟨q, hq, rfl⟩ := Option.map_eq_some_iff.mp hloc.last
  obtain ⟨n, hn, hnentry⟩ := h.exists_node (p := p) (by simp [hloc.eq, List.mem_of_mem_head? hp])
  obtain ⟨n', hn', hnentry'⟩ := h.exists_node (p := q) (by simp [hloc.eq, List.mem_of_mem_getLast? hq])
  exact ⟨p, q, n, n', hp, hq, rfl, rfl, hn, hn', hnentry, hnentry'⟩

/-- A node that is the first and the last one is the only one. -/
theorem Rows.singleton_of_eq (h : Rows RedBlack s L) (hloc : RangeLocated lo hi L pre mid post m m) :
    ∃ p, mid = [p] ∧ p.1 = m := by
  obtain ⟨p, hp, rfl⟩ := Option.map_eq_some_iff.mp hloc.first
  obtain ⟨rest, hrest⟩ := List.head?_eq_some_iff.mp hp
  have hL : L = pre ++ p :: (rest ++ post) := by simp [hloc.eq, hrest]
  have hnil := (h.first_eq_last hL (hrest ▸ hloc.last)).mp rfl
  exact ⟨p, by rw [hrest, hnil], rfl⟩

section Cuts

variable {n : RbtreeNode K V} {range : KeyRange K} {k : K}

theorem minkeyPred_eq_none [PredOrder K] : minkeyPred range n = none ↔ range.minkey ≤ n.rbtnMinkey := by
  unfold minkeyPred
  split_ifs with h
  · exact iff_of_true rfl h
  · exact iff_of_false (by simp) h

theorem minkeyPred_eq_some [PredOrder K] (h : minkeyPred range n = some k) :
    n.rbtnMinkey < range.minkey ∧ k = Order.pred range.minkey := by
  unfold minkeyPred at h
  split_ifs at h with hle
  exact ⟨not_le.mp hle, (Option.some.inj h).symm⟩

theorem maxkeySucc_eq_none [SuccOrder K] : maxkeySucc range n = none ↔ n.rbtnMaxkey ≤ range.maxkey := by
  unfold maxkeySucc
  split_ifs with h
  · exact iff_of_false (by simp) h.not_ge
  · exact iff_of_true rfl (not_lt.mp h)

theorem maxkeySucc_eq_some [SuccOrder K] (h : maxkeySucc range n = some k) :
    range.maxkey < n.rbtnMaxkey ∧ k = Order.succ range.maxkey := by
  unfold maxkeySucc at h
  split_ifs at h with hlt
  exact ⟨hlt, (Option.some.inj h).symm⟩

end Cuts

variable [PredOrder K] [SuccOrder K] {range : KeyRange K}

/-- The part of `rbtree_delrange` behind `rbtree_do_minmaxlocate_node`. -/
theorem Rows.delLocated (h : Rows RedBlack s L) (habi : abi.Correct RedBlack) (hordered : Ordered (L.map Prod.snd))
    (hloc : RangeLocated range.minkey range.maxkey L pre mid post m M) {minNode maxNode : RbtreeNode K V}
    (hmin : s.heap[m]? = some minNode) (hmax : s.heap[M]? = some maxNode) :
    Ends (delLocated abi s m M (minkeyPred range minNode) (maxkeySucc range maxNode)) fun s' => ∃ L',
      Rows RedBlack s' L' ∧
        L'.map Prod.snd = below range.minkey (L.map Prod.snd) ++ above range.maxkey (L.map Prod.snd) := by
  obtain ⟨p, q, n, n', hp, hq, rfl, rfl, hn, hn', hnentry, hnentry'⟩ := h.located_ends hloc
  obtain rfl := Option.some.inj (hn.symm.trans hmin)
  obtain rfl := Option.some.inj (hn'.symm.trans hmax)
  have hplo : n.rbtnMinkey = p.2.lo := congrArg Entry.lo hnentry
  have hqhi : n'.rbtnMaxkey = q.2.hi := congrArg Entry.hi hnentry'
  obtain ⟨rest, hrest⟩ := List.head?_eq_some_iff.mp hp
  obtain ⟨rest', hrest'⟩ := List.getLast?_eq_some_iff.mp hq
  have hbelow := (hrest ▸ hloc).below_eq hordered
  have habove := (hrest' ▸ hloc).above_eq hordered
  have hcovered : (minkeyPred range n ≠ none ∨ maxkeySucc range n' ≠ none) →
      (minkeyPred range n ≠ none → maxkeySucc range n' ≠ none → p.1 ≠ q.1) →
      Ends (Collections.removeCovered abi s p.1 q.1 (minkeyPred range n) (maxkeySucc range n')) fun s' => ∃ L',
        Rows RedBlack s' L' ∧
          L'.map Prod.snd = below range.minkey (L.map Prod.snd) ++ above range.maxkey (L.map Prod.snd) := by
    intro hcut hne
    refine (h.removeCovered habi hordered hloc hn hn' hcut hne).mono ?_
    rintro s' ⟨A, B, hleft, -⟩
    exact ⟨A ++ B, hleft.rows, by rw [List.map_append, hleft.below, hleft.above]⟩
  unfold Collections.delLocated
  cases hpred : minkeyPred range n with
  | none =>
    cases hsucc : maxkeySucc range n' with
    | none =>
      rw [minkeyPred_eq_none, hplo] at hpred
      rw [maxkeySucc_eq_none, hqhi] at hsucc
      rw [cutBelow_eq_none hpred, Option.toList_none, List.append_nil] at hbelow
      rw [cutAbove_eq_none hsucc, Option.toList_none, List.nil_append] at habove
      refine (h.removeNodes habi hloc.eq hloc.first hloc.last).mono ?_
      rintro s' ⟨hrows, -⟩
      exact ⟨pre ++ post, hrows, by rw [hbelow, habove, List.map_append]⟩
    | some k =>
      rw [hpred, hsucc] at hcovered
      exact hcovered (by simp) (by simp)
  | some k =>
    cases hsucc : maxkeySucc range n' with
    | none =>
      rw [hpred, hsucc] at hcovered
      exact hcovered (by simp) (by simp)
    | some k' =>
      obtain ⟨hplt, rfl⟩ := minkeyPred_eq_some hpred
      obtain ⟨hqgt, rfl⟩ := maxkeySucc_eq_some hsucc
      dsimp only
      split_ifs with hpq
      · -- the range is inside of one node, which is split
        obtain ⟨x, rfl, -⟩ := h.singleton_of_eq (hpq ▸ hloc)
        obtain rfl := Option.some.inj hp
        obtain rfl : x = q := Option.some.inj hq
        obtain ⟨hover, hover'⟩ := hloc.inside x List.mem_cons_self
        rw [cutBelow_of_le_hi (hplo ▸ hplt) hover] at hbelow
        rw [cutAbove_of_lo_le hover' (hqhi ▸ hqgt)] at habove
        have hL : L = pre ++ x :: post := by simp [hloc.eq]
        unfold delInside
        refine (h.splitNode habi hL).bind ?_
        rintro ⟨heap, hinode⟩ ⟨hrows, hhinode, -⟩
        refine (hrows.insertAfter habi rfl hhinode).mono ?_
        rintro s' ⟨hrows', -⟩
        exact ⟨_, hrows', by rw [hbelow, habove]; simp⟩
      · rw [hpred, hsucc] at hcovered
        exact hcovered (by simp) fun _ _ => hpq

/-- `rbtree_delrange` cuts the range out of the entries. -/
theorem rbtreeDelrange_ends (h : Rows RedBlack ⟨heap, tree.rbtRoot⟩ L) (habi : abi.Correct RedBlack)
    (hordered : Ordered (L.map Prod.snd)) (hle : range.minkey ≤ range.maxkey) :
    Ends (rbtreeDelrange abi heap tree range) fun r => ∃ L', Rows RedBlack ⟨r.1, r.2.rbtRoot⟩ L' ∧
      L'.map Prod.snd = below range.minkey (L.map Prod.snd) ++ above range.maxkey (L.map Prod.snd) := by
  unfold rbtreeDelrange
  refine (h.minmaxlocate hordered range).bind ?_
  rintro r (⟨rfl, pre, post, hgap⟩ | ⟨minNode, maxNode, rfl, pre, mid, post, hloc⟩)
  · refine Ends.pure ⟨L, h, ?_⟩
    rw [hgap.below hordered hle, hgap.above hordered hle, hgap.eq, List.map_append]
  · obtain ⟨-, -, n, n', -, -, -, -, hn, hn', -⟩ := h.located_ends hloc
    dsimp only at hn hn' ⊢
    rw [hn, some_bind, hn', some_bind]
    refine (h.delLocated habi hordered hloc hn hn').bind ?_
    rintro s' ⟨L', hrows', hmap⟩
    exact Ends.pure ⟨L', hrows', hmap⟩

end Results

end Deemon.Collections
