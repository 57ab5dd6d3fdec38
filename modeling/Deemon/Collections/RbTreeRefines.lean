import Deemon.Collections.RbTreeMerged
import Deemon.Collections.RbTreeOps

/-!
# An `RBTree` is a map

What an `RBTree` is for: a partial function from keys to values, in which whole ranges of keys are set and deleted. In
every run the operations of `collections/rbtree.c` return what they return for that function, whatever ranges the
nodes have; the keys are of any discrete linear order.
-/

namespace Deemon.Collections

open Deemon.Run Deemon.LinkedTree Deemon.RangeMap Deemon.Int Deemon.Simulation

variable {K V : Type}

/-! ### The map -/

/-- The operations on a tree. -/
inductive TreeOp (K V : Type) where
  | getitem (key : K)
  | setitem (key : K) (value : V)
  | delitem (key : K)
  | setnew (key : K) (value : V)
  | setrange (range : KeyRange K) (value : V)
  | delrange (range : KeyRange K)
  | remove (key : K)
  | popfront
  | popback
  | clear

/-- What an operation returns: nothing, the value of a key, or a range with its value. -/
inductive TreeResult (K V : Type) where
  | done
  | value (value : Option V)
  | node (entry : Option (Entry K V))

section Meaning

variable [LinearOrder K] {t t' : K → Option V}

/-- The function with the keys from `lo` to `hi` set to `v`, or without them. -/
def mapRange (t : K → Option V) (lo hi : K) (v : Option V) : K → Option V :=
  fun k => if lo ≤ k ∧ k ≤ hi then v else t k

/-- A range `e` of keys with one value is taken out. -/
def TakesOut (t : K → Option V) (e : Entry K V) (t' : K → Option V) : Prop :=
  e.lo ≤ e.hi ∧ (∀ k, e.lo ≤ k ∧ k ≤ e.hi → t k = some e.value) ∧ t' = mapRange t e.lo e.hi none

/-- What the operations mean for the function. -/
def TreeMeans (t : K → Option V) : TreeOp K V → (K → Option V) → TreeResult K V → Prop
  | .getitem key, t', r => t' = t ∧ r = .value (t key)
  | .setitem key v, t', r => t' = mapRange t key key (some v) ∧ r = .done
  | .delitem key, t', r => t' = mapRange t key key none ∧ r = .done
  | .setnew key v, t', r => t' = (if t key = none then mapRange t key key (some v) else t) ∧ r = .value (t key)
  | .setrange range v, t', r => t' = mapRange t range.minkey range.maxkey (some v) ∧ r = .done
  | .delrange range, t', r => t' = mapRange t range.minkey range.maxkey none ∧ r = .done
  | .remove key, t', r =>
    (∃ e, (e.lo ≤ key ∧ key ≤ e.hi) ∧ TakesOut t e t' ∧ r = .node (some e)) ∨ t key = none ∧ t' = t ∧ r = .node none
  | .popfront, t', r =>
    (∃ e, (∀ k, t k ≠ none → e.lo ≤ k) ∧ TakesOut t e t' ∧ r = .node (some e)) ∨
      (∀ k, t k = none) ∧ t' = t ∧ r = .node none
  | .popback, t', r =>
    (∃ e, (∀ k, t k ≠ none → k ≤ e.hi) ∧ TakesOut t e t' ∧ r = .node (some e)) ∨
      (∀ k, t k = none) ∧ t' = t ∧ r = .node none
  | .clear, t', r => t' = (fun _ => none) ∧ r = .done

end Meaning

/-! ### Trees -/

section Step

variable [LinearOrder K] [PredOrder K] [SuccOrder K] [DecidableEq V] (abi : RbtreeAbi K V) (ops : AdjacencyOps K)

/-- One operation on a tree. -/
def treeStep (s : TreeState K V) : TreeOp K V → Option (TreeState K V × TreeResult K V)
  | .getitem key => do
    let v ← rbtreeTrygetitem s.heap s.tree key
    some (s, .value v)
  | .setitem key value => do
    let r ← rbtreeSetitem abi ops s.heap s.tree key value
    some (⟨r.1, r.2⟩, .done)
  | .delitem key => do
    let r ← rbtreeDelitem abi s.heap s.tree key
    some (⟨r.1, r.2⟩, .done)
  | .setnew key value => do
    let r ← rbtreeMhSetnewEx abi ops s.heap s.tree key value
    some (⟨r.1.1, r.1.2⟩, .value r.2)
  | .setrange range value => do
    let r ← rbtreeSetrange abi ops s.heap s.tree range value
    some (⟨r.1, r.2⟩, .done)
  | .delrange range => do
    let r ← rbtreeDelrange abi s.heap s.tree range
    some (⟨r.1, r.2⟩, .done)
  | .remove key => do
    let r ← rbtreeRemove abi s.heap s.tree key
    some (⟨r.1.1, r.1.2⟩, .node r.2)
  | .popfront => do
    let r ← rbtreePopfront abi s.heap s.tree
    some (⟨r.1.1, r.1.2⟩, .node r.2)
  | .popback => do
    let r ← rbtreePopback abi s.heap s.tree
    some (⟨r.1.1, r.1.2⟩, .node r.2)
  | .clear => some (⟨(rbtreeClear s.heap s.tree).1, (rbtreeClear s.heap s.tree).2⟩, .done)

end Step

/-! ### The test for neighbours -/

section Tested

variable [LinearOrder K]

/-- The test calls only those keys adjacent that are. -/
def AdjacencyOps.Sound [SuccOrder K] (ops : AdjacencyOps K) : Prop :=
  ∀ a b, a < b → ops.adjacent a b = some true → Order.succ a = b

/-- If two neighbours with one value are tested, the test has an answer. -/
def TestAnswers (ops : AdjacencyOps K) (key : K) (x y : Entry K V) : Prop :=
  x.value = y.value → ops.supportsAdjacent key = true → (ops.adjacent x.hi y.lo).isSome = true

instance [DecidableEq V] (ops : AdjacencyOps K) (key : K) (x y : Entry K V) : Decidable (TestAnswers ops key x y) :=
  inferInstanceAs (Decidable (_ → _))

variable [PredOrder K] [SuccOrder K]

/-- The tests for a new node with its neighbours have answers. -/
def Tested (ops : AdjacencyOps K) (e : Entry K V) (E : List (Entry K V)) : Prop :=
  ¬Covers e.lo e.hi E → (∀ p ∈ (below e.lo E).getLast?, TestAnswers ops e.lo p e) ∧
    ∀ n ∈ (above e.hi E).head?, TestAnswers ops e.hi e n

instance [DecidableEq V] (ops : AdjacencyOps K) (e : Entry K V) (E : List (Entry K V)) : Decidable (Tested ops e E) :=
  inferInstanceAs (Decidable (_ → _ ∧ _))

/-- Ranges are not reversed, and the tests for a new node have answers. -/
def TreeAllows (ops : AdjacencyOps K) (s : TreeState K V) : TreeOp K V → Prop
  | .setitem key value => Tested ops ⟨key, key, value⟩ s.entries
  | .setnew key value => Tested ops ⟨key, key, value⟩ s.entries
  | .setrange range value =>
    range.minkey ≤ range.maxkey ∧ Tested ops ⟨range.minkey, range.maxkey, value⟩ s.entries
  | .delrange range => range.minkey ≤ range.maxkey
  | _ => True

instance decidableTreeAllows [DecidableEq V] (ops : AdjacencyOps K) (s : TreeState K V) :
    ∀ op : TreeOp K V, Decidable (TreeAllows ops s op)
  | .getitem _ | .delitem _ | .remove _ | .popfront | .popback | .clear => isTrue trivial
  | .setitem _ _ | .setnew _ _ => inferInstanceAs (Decidable (Tested _ _ _))
  | .setrange _ _ => inferInstanceAs (Decidable (_ ∧ _))
  | .delrange _ => inferInstanceAs (Decidable (_ ≤ _))

/-- The answers that the tests for a new node give. -/
def answer (ops : AdjacencyOps K) (e : Entry K V) (a b : K) : Bool :=
  ops.supportsAdjacent (if a = e.hi then e.hi else e.lo) && ops.adjacent a b == some true

variable {ops : AdjacencyOps K} {e : Entry K V} {E : List (Entry K V)} {k : K} {v : V}

omit [PredOrder K] [SuccOrder K] in
theorem TestAnswers.known {x y : Entry K V} {key : K} (h : TestAnswers ops key x y)
    (hkey : (if x.hi = e.hi then e.hi else e.lo) = key) : Known ops (answer ops e) key x y := by
  intro hvalue
  unfold answer
  rw [hkey]
  by_cases hsup : ops.supportsAdjacent key
  · obtain ⟨r, hr⟩ := Option.isSome_iff_exists.mp (h hvalue hsup)
    cases r <;> simp [hsup, hr]
  · simp [hsup]

theorem Tested.knownAt (h : Tested ops e E) (hordered : Ordered E) (he : e.lo ≤ e.hi) (hcov : ¬Covers e.lo e.hi E) :
    KnownAt ops (answer ops e) e E := by
  obtain ⟨hprev, hnext⟩ := h hcov
  constructor
  · intro q hq
    have hlt := (mem_below hordered (List.mem_of_mem_getLast? hq)).2.1
    exact (hprev q hq).known (if_neg (hlt.trans_le he).ne)
  · intro q hq
    exact (hnext q hq).known (if_pos rfl)

/-- What is written over a range is the value of its keys, with or without merging. -/
theorem at_setEntries [DecidableEq V] (hops : ops.Sound) (hordered : Ordered E) (he : e.lo ≤ e.hi) :
    At (setEntries (answer ops e) e E) k v ↔ if e.lo ≤ k ∧ k ≤ e.hi then e.value = v else At E k v := by
  have hsound : ∀ {a b}, a < b → answer ops e a b = true → Order.succ a = b := fun hlt hadj =>
    hops _ _ hlt (by simpa using (Bool.and_eq_true_iff.mp hadj).2)
  have hreplace : At (setEntries (answer ops e) e E) k v ↔ At (below e.lo E ++ e :: above e.hi E) k v := by
    unfold setEntries
    split_ifs
    · rfl
    · refine at_insertMerged (hordered.replace he) (fun p hp => hsound ?_) fun n hn => hsound ?_
      · exact (mem_below hordered (List.mem_of_mem_getLast? hp)).2.1
      · exact (mem_above hordered (List.mem_of_mem_head? hn)).2.1
  rw [hreplace, at_append, at_cons, at_below, at_above]
  split_ifs with hin
  · have hlo := hin.1.not_gt
    have hhi := hin.2.not_gt
    tauto
  · have hout : k < e.lo ∨ e.hi < k := by rwa [not_and_or, not_le, not_le] at hin
    tauto

theorem at_cutOut {a b : K} :
    At (below a E ++ above b E) k v ↔ ¬(a ≤ k ∧ k ≤ b) ∧ At E k v := by
  rw [at_append, at_below, at_above, not_and_or, not_le, not_le]
  tauto

end Tested

/-! ### Steps -/

section Steps

variable [LinearOrder K] {RedBlack : Nodes K V → Prop} {abi : RbtreeAbi K V} {ops : AdjacencyOps K} {s : TreeState K V}
  {heap : NodeHeap K V} {tree : RBTree} {t t' : K → Option V} {L L' pre post : List (ℕ × Entry K V)} {p : ℕ × Entry K V}
  {key : K} {value : V}

/-- The nodes make up a tree with ranges in order, which have the values of the function. -/
def Represents (RedBlack : Nodes K V → Prop) (s : TreeState K V) (t : K → Option V) : Prop :=
  ∃ L, Rows RedBlack ⟨s.heap, s.tree.rbtRoot⟩ L ∧ Ordered (L.map Prod.snd) ∧
    ∀ k v, t k = some v ↔ At (L.map Prod.snd) k v

theorem represents_new (habi : abi.Correct RedBlack) : Represents RedBlack (.new : TreeState K V) fun _ => none :=
  ⟨[], ⟨habi.empty _, ⟨.leaf, ⟨rfl, trivial, List.nodup_nil⟩, rfl⟩, by simp⟩, Ordered.nil, fun k v =>
    iff_of_false (by simp) not_at_nil⟩

/-- A key without a value is in no range. -/
theorem value_eq_none (hat : ∀ k v, t k = some v ↔ At (L.map Prod.snd) k v) :
    t key = none ↔ ∀ p ∈ L, ¬(p.2.lo ≤ key ∧ key ≤ p.2.hi) := by
  rw [Option.eq_none_iff_forall_ne_some]
  constructor
  · exact fun h p hp hin => h p.2.value ((hat _ _).mpr ⟨p.2, List.mem_map_of_mem hp, hin, rfl⟩)
  · intro h v hv
    obtain ⟨e, he, hin, -⟩ := (hat _ _).mp hv
    obtain ⟨p, hp, rfl⟩ := List.mem_map.mp he
    exact h p hp hin

/-- Rows that have the values of a function where a range was set. -/
theorem represents_mapRange {lo hi : K} {w : Option V} (hrows : Rows RedBlack ⟨heap, tree.rbtRoot⟩ L')
    (hordered : Ordered (L'.map Prod.snd)) (hat : ∀ k v, t k = some v ↔ At (L.map Prod.snd) k v)
    (h : ∀ k v, At (L'.map Prod.snd) k v ↔ if lo ≤ k ∧ k ≤ hi then w = some v else At (L.map Prod.snd) k v) :
    Represents RedBlack ⟨heap, tree⟩ (mapRange t lo hi w) := by
  refine ⟨L', hrows, hordered, fun k v => ?_⟩
  rw [h, mapRange]
  split_ifs
  · rfl
  · exact hat k v

/-- A row is taken out. -/
theorem Represents.takeRow (hordered : Ordered (L.map Prod.snd)) (hat : ∀ k v, t k = some v ↔ At (L.map Prod.snd) k v)
    (hL : L = pre ++ p :: post) (hrows : Rows RedBlack ⟨heap, tree.rbtRoot⟩ (pre ++ post)) :
    TakesOut t p.2 (mapRange t p.2.lo p.2.hi none) ∧ Represents RedBlack ⟨heap, tree⟩ (mapRange t p.2.lo p.2.hi none) := by
  have hmem : p.2 ∈ L.map Prod.snd := List.mem_map_of_mem (by simp [hL])
  refine ⟨⟨hordered.lo_le_hi p.2 hmem, fun k hk => (hat _ _).mpr ⟨p.2, hmem, hk, rfl⟩, rfl⟩, ?_⟩
  rw [hL, List.map_append, List.map_cons] at hordered
  refine represents_mapRange hrows ?_ hat fun k v => ?_
  · rw [List.map_append]
    exact hordered.sublist ((List.sublist_cons_self _ _).append_left _)
  · rw [hL, List.map_append, List.map_append, List.map_cons, at_without hordered]
    split_ifs with hin
    · simp [hin]
    · simp [hin]

variable [PredOrder K] [SuccOrder K]

/-- Rows where a range was cut out. -/
theorem represents_delrange {a b : K} (hab : a ≤ b) (hordered : Ordered (L.map Prod.snd))
    (hat : ∀ k v, t k = some v ↔ At (L.map Prod.snd) k v) (hrows : Rows RedBlack ⟨heap, tree.rbtRoot⟩ L')
    (hmap : L'.map Prod.snd = below a (L.map Prod.snd) ++ above b (L.map Prod.snd)) :
    Represents RedBlack ⟨heap, tree⟩ (mapRange t a b none) := by
  refine represents_mapRange hrows (hmap ▸ hordered.remove hab) hat fun k v => ?_
  rw [hmap, at_cutOut]
  split_ifs with hin
  · simp [hin]
  · simp [hin]

theorem delrange_ends (habi : abi.Correct RedBlack) (h : Represents RedBlack s t) {range : KeyRange K}
    (hle : range.minkey ≤ range.maxkey) : Ends (rbtreeDelrange abi s.heap s.tree range) fun r =>
      Represents RedBlack ⟨r.1, r.2⟩ (mapRange t range.minkey range.maxkey none) := by
  obtain ⟨L, hrows, hordered, hat⟩ := h
  refine (rbtreeDelrange_ends hrows habi hordered hle).mono ?_
  rintro r ⟨L', hrows', hmap⟩
  exact represents_delrange hle hordered hat hrows' hmap

variable [DecidableEq V]

/-- Rows where a range was written over. -/
theorem represents_setrange {e : Entry K V} (hops : ops.Sound) (he : e.lo ≤ e.hi) (hordered : Ordered (L.map Prod.snd))
    (hat : ∀ k v, t k = some v ↔ At (L.map Prod.snd) k v) (hrows : Rows RedBlack ⟨heap, tree.rbtRoot⟩ L')
    (hmap : L'.map Prod.snd = setEntries (answer ops e) e (L.map Prod.snd)) :
    Represents RedBlack ⟨heap, tree⟩ (mapRange t e.lo e.hi (some e.value)) := by
  refine represents_mapRange hrows (hmap ▸ ordered_setEntries hordered he) hat fun k v => ?_
  rw [hmap, at_setEntries hops hordered he]
  simp only [Option.some.injEq]

section Ranges

variable (habi : abi.Correct RedBlack) (hops : ops.Sound) (h : Represents RedBlack s t)
include habi hops h

theorem setrange_ends {range : KeyRange K} (hle : range.minkey ≤ range.maxkey)
    (htested : Tested ops ⟨range.minkey, range.maxkey, value⟩ s.entries) :
    Ends (rbtreeSetrange abi ops s.heap s.tree range value) fun r =>
      Represents RedBlack ⟨r.1, r.2⟩ (mapRange t range.minkey range.maxkey (some value)) := by
  obtain ⟨L, hrows, hordered, hat⟩ := h
  rw [hrows.entries_eq] at htested
  refine (rbtreeSetrange_ends hrows habi hordered hle value (htested.knownAt hordered hle)).mono ?_
  rintro r ⟨L', hrows', hmap⟩
  exact represents_setrange hops hle hordered hat hrows' hmap

/-- A key without a value gets one, and others keep theirs. -/
theorem setnew_ends (htested : Tested ops ⟨key, key, value⟩ s.entries) :
    Ends (rbtreeMhSetnewEx abi ops s.heap s.tree key value) fun r => r.2 = t key ∧
      Represents RedBlack ⟨r.1.1, r.1.2⟩ (if t key = none then mapRange t key key (some value) else t) := by
  obtain ⟨L, hrows, hordered, hat⟩ := h
  obtain ⟨hrows', hnew⟩ := hrows.alloc habi ⟨none, none, none, key, key, value, false⟩
  rw [hrows.entries_eq] at htested
  have hnot : (∀ q ∈ L.map Prod.snd, ¬Overlaps key key q) → ¬Covers key key (L.map Prod.snd) := by
    rintro hno ⟨⟨q, hq, hover⟩, -⟩
    exact hno q hq hover
  have hin : ∀ q : Entry K V, Overlaps key key q ↔ q.lo ≤ key ∧ key ≤ q.hi := fun _ => and_comm
  unfold rbtreeMhSetnewEx
  refine (rbtreeDoInsert_ends hrows' habi hordered hnew le_rfl fun hno =>
    htested.knownAt hordered le_rfl (hnot hno)).bind ?_
  rintro r (⟨x, hx, rfl, hover⟩ | ⟨hno, heap', tree', rfl, L', hrows'', hmap⟩)
  · obtain ⟨n, hn, hentry⟩ := hrows'.exists_node hx
    have hvalue : n.rbtnValue = x.2.value := congrArg Entry.value hentry
    have hsome : t key = some n.rbtnValue := (hat _ _).mpr ⟨x.2, List.mem_map_of_mem hx, (hin _).mp hover, hvalue.symm⟩
    dsimp only at hn ⊢
    rw [hn, some_bind, hsome, if_neg (by simp)]
    exact Ends.pure ⟨rfl, L, hrows', hordered, hat⟩
  · have hnone : t key = none := (value_eq_none hat).mpr fun p hp hkey =>
      hno p.2 (List.mem_map_of_mem hp) ((hin _).mpr hkey)
    rw [hnone, if_pos rfl]
    refine Ends.pure ⟨rfl, represents_setrange (e := ⟨key, key, value⟩) hops le_rfl hordered hat hrows'' ?_⟩
    rw [hmap, setEntries, if_neg (hnot hno)]
    rfl

/-- Each operation does to the function what it is meant to do. -/
theorem treeStep_ends (op : TreeOp K V) (hop : TreeAllows ops s op) :
    Ends (treeStep abi ops s op) fun r => ∃ t', TreeMeans t op t' r.2 ∧ Represents RedBlack r.1 t' := by
  have hrep := h
  obtain ⟨L, hrows, hordered, hat⟩ := h
  unfold treeStep
  cases op with
  | getitem key =>
    refine (rbtreeTrygetitem_ends hrows hordered key).bind fun r hr => Ends.pure ⟨t, ⟨rfl, ?_⟩, hrep⟩
    have heq : r = t key := Option.ext fun v => (hr v).trans (hat key v).symm
    rw [heq]
  | setitem key value =>
    have hset := setrange_ends habi hops hrep (show (singleKey key).minkey ≤ (singleKey key).maxkey from le_rfl) hop
    exact hset.bind fun r hr => Ends.pure ⟨_, ⟨rfl, rfl⟩, hr⟩
  | delitem key =>
    have hdel := delrange_ends habi hrep (show (singleKey key).minkey ≤ (singleKey key).maxkey from le_rfl)
    exact hdel.bind fun r hr => Ends.pure ⟨_, ⟨rfl, rfl⟩, hr⟩
  | setnew key value =>
    exact (setnew_ends habi hops hrep hop).bind fun r hr => Ends.pure ⟨_, ⟨rfl, congrArg _ hr.1⟩, hr.2⟩
  | setrange range value =>
    exact (setrange_ends habi hops hrep hop.1 hop.2).bind fun r hr => Ends.pure ⟨_, ⟨rfl, rfl⟩, hr⟩
  | delrange range => exact (delrange_ends habi hrep hop).bind fun r hr => Ends.pure ⟨_, ⟨rfl, rfl⟩, hr⟩
  | remove key =>
    refine (rbtreeRemove_ends hrows habi hordered key).bind ?_
    rintro r (⟨pre, p, post, hL, hin, hr, hrows'⟩ | ⟨hnone, rfl⟩)
    · obtain ⟨htakes, hrep'⟩ := Represents.takeRow hordered hat hL hrows'
      exact Ends.pure ⟨_, .inl ⟨p.2, hin, htakes, congrArg _ hr⟩, hrep'⟩
    · exact Ends.pure ⟨t, .inr ⟨(value_eq_none hat).mpr hnone, rfl, rfl⟩, hrep⟩
  | popfront =>
    refine (rbtreePopfront_ends hrows habi).bind fun r hr => Ends.pure ?_
    cases L with
    | nil => exact ⟨t, .inr ⟨fun k => (value_eq_none hat).mpr (by simp), rfl, congrArg _ hr.2⟩, _, hr.1, hordered, hat⟩
    | cons p L =>
      obtain ⟨htakes, hrep'⟩ := Represents.takeRow hordered hat (show p :: L = [] ++ p :: L from rfl) hr.1
      refine ⟨_, .inl ⟨p.2, fun k hk => ?_, htakes, congrArg _ hr.2⟩, hrep'⟩
      obtain ⟨v, hv⟩ := Option.ne_none_iff_exists'.mp hk
      exact hordered.lo_le_of_at ((hat k v).mp hv)
  | popback =>
    refine (rbtreePopback_ends hrows habi).bind fun r hr => Ends.pure ?_
    rcases List.eq_nil_or_concat L with rfl | ⟨L, p, rfl⟩
    · exact ⟨t, .inr ⟨fun k => (value_eq_none hat).mpr (by simp), rfl, congrArg _ hr.2⟩, _, hr.1, hordered, hat⟩
    · rw [List.concat_eq_append] at hr hordered hat
      rw [List.dropLast_concat, List.map_append, List.map_singleton, List.getLast?_concat] at hr
      obtain ⟨htakes, hrep'⟩ := Represents.takeRow hordered hat (show L ++ [p] = L ++ p :: [] from rfl) (by simpa using hr.1)
      refine ⟨_, .inl ⟨p.2, fun k hk => ?_, htakes, congrArg _ hr.2⟩, hrep'⟩
      obtain ⟨v, hv⟩ := Option.ne_none_iff_exists'.mp hk
      rw [List.map_append, List.map_singleton] at hordered hat
      exact hordered.le_hi_of_at ((hat k v).mp hv)
  | clear =>
    refine Ends.pure ⟨_, ⟨rfl, rfl⟩, [], rbtreeClear_rows habi, Ordered.nil, fun k v => ?_⟩
    exact iff_of_false (by simp) not_at_nil

end Ranges

end Steps

/-! ### Runs -/

section Runs

variable [LinearOrder K] [PredOrder K] [SuccOrder K] [DecidableEq V] {RedBlack : Nodes K V → Prop} {abi : RbtreeAbi K V}
  {ops : AdjacencyOps K}

/-- In every run the operations on a tree do to a function from keys to values what they are meant to do. -/
theorem rbtree_refines_map (habi : abi.Correct RedBlack) (hops : ops.Sound) (l : List (TreeOp K V))
    (hl : AllSteps (TreeAllows ops) (treeStep abi ops) .new l) :
    Ends (trace (treeStep abi ops) .new l) (Follows (Represents RedBlack) TreeMeans (fun _ => none) l) :=
  trace_follows (Represents RedBlack) (fun _ _ op h hop => treeStep_ends habi hops h op hop) (represents_new habi) hl

theorem intKeyOps_sound : AdjacencyOps.Sound intKeyOps := by
  intro a b hlt h
  obtain ⟨x, hx, hxc, rfl⟩ := newSigned_ends a
  obtain ⟨y, hy, hyc, rfl⟩ := newSigned_ends b
  unfold intKeyOps at h
  dsimp only at h
  rw [hx, hy, some_bind, some_bind] at h
  by_cases hread : x.toInt = -(2 ^ 30 - 1) ∧ y.toInt = 0
  · rw [intAPlus1EqualsB_eq_none hxc hyc hread.1 hread.2] at h
    cases h
  · obtain ⟨r, hr, hiff⟩ := intAPlus1EqualsB_ends hxc hyc hlt hread
    obtain rfl := Option.some.inj (hr.symm.trans h)
    exact (hiff.mp rfl).2

/-- Ranges that are merged, cut, split and taken out. -/
def someOps : List (TreeOp ℤ Bool) :=
  [.setrange ⟨0, 4, false, by simp⟩ true, .setitem 5 true, .setitem 2 false, .setnew 2 true, .getitem 3, .setitem 2 true,
    .delitem 1, .popfront, .remove 9, .popback]

theorem someOps_refine : Ends (trace (treeStep spineAbi intKeyOps) .new someOps)
    (Follows (Represents fun _ => True) TreeMeans (fun _ => none) someOps) :=
  rbtree_refines_map spineAbi_correct intKeyOps_sound someOps (by decide)

example : (trace (treeStep spineAbi intKeyOps) .new someOps).map (fun rs => rs.map fun r => r.1.entries.map fun e => (e.lo, e.hi)) =
    some [[(0, 4)], [(0, 5)], [(0, 1), (2, 2), (3, 5)], [(0, 1), (2, 2), (3, 5)], [(0, 1), (2, 2), (3, 5)],
      [(0, 1), (2, 2), (3, 5)], [(0, 0), (2, 2), (3, 5)], [(2, 2), (3, 5)], [(2, 2), (3, 5)], [(2, 2)]] := by
  decide

end Runs

end Deemon.Collections
