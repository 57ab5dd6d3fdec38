import Deemon.Collections.DequeRefines

/-!
# Iterators of deques

An iterator is a bucket and a cell of it. It is set to a position from the nearer end, moves on to the next cell, and
its position is read back from the bucket. An iterator object is exhausted when its version is not that of the deque.
-/

namespace Deemon.Collections

open Deemon.Run Deemon.Blocks

variable {α : Type}

/-! ### The code -/

/-- `DequeIterator_GetIndex`, in 64 bits. -/
def DequeIterator.getIndex (self : DequeIterator) (deq : Deque α) : Option ℕ :=
  if self.diBucket = deq.dChain.length - 1 then some ((deq.dSize - deq.dTailSz + self.diIndex) % 2 ^ 64)
  else forLoop (fun _ result => some ((result + deq.dBucketSz) % 2 ^ 64)) 0 self.diBucket
    ((2 ^ 64 + self.diIndex - deq.dHeadIdx) % 2 ^ 64)

/-- `DequeIterator_InitAt`. -/
def Deque.initAt (deq : Deque α) (index : ℕ) : Option DequeIterator := do
  assert (index < deq.dSize)
  if index < deq.dHeadUse then some ⟨0, deq.dHeadIdx + index⟩
  else if deq.dSize / 2 ≤ index then do
    let rindex := deq.dSize - index
    if rindex ≤ deq.dTailSz then some ⟨deq.dChain.length - 1, deq.dTailSz - rindex⟩
    else do
      let (iter, index) ← searchRight deq.dBucketSz (deq.dChain.length - 1) (rindex - deq.dTailSz)
      some ⟨iter, index⟩
  else do
    let (iter, index) ← searchLeft deq.dBucketSz deq.dChain.length 0 (index - deq.dHeadUse)
    some ⟨iter, index⟩

/-- `DequeIteratorObject`, without its deque. -/
structure DequeIteratorObject where
  diIter : DequeIterator
  diVer : ℕ

/-- `--self->di_ver`. -/
def invalidated (version : ℕ) : ℕ := (version + (2 ^ 64 - 1)) % 2 ^ 64

/-- `deq_iter`. -/
def Deque.iter (deq : Deque α) (dVersion : ℕ) : DequeIteratorObject :=
  ⟨deq.iterBegin, if deq.dSize = 0 then invalidated dVersion else dVersion⟩

/-- `deqiter_getindex`. -/
def DequeIteratorObject.getindex (self : DequeIteratorObject) (deq : Deque α) (dVersion : ℕ) : Option ℕ :=
  if self.diVer ≠ dVersion then some (2 ^ 64 - 1) else self.diIter.getIndex deq

/-- `deqiter_setindex`. -/
def DequeIteratorObject.setindex (self : DequeIteratorObject) (deq : Deque α) (dVersion index : ℕ) :
    Option DequeIteratorObject :=
  if deq.dSize ≤ index then some ⟨self.diIter, invalidated dVersion⟩
  else do some ⟨← deq.initAt index, dVersion⟩

/-- `deqiter_next`; `none` is `ITER_DONE`. -/
def DequeIteratorObject.next (self : DequeIteratorObject) (deq : Deque α) (dVersion : ℕ) :
    Option (DequeIteratorObject × Option α) :=
  if self.diVer ≠ dVersion then some (self, none)
  else do
    let result ← deq.read self.diIter.diBucket self.diIter.diIndex
    if self.diIter.hasNext deq then some (⟨self.diIter.next deq, self.diVer⟩, some result)
    else some (⟨self.diIter, invalidated self.diVer⟩, some result)

/-- The results of `n` calls of `deqiter_next`. -/
def DequeIteratorObject.nexts (deq : Deque α) (dVersion : ℕ) : ℕ → DequeIteratorObject → Option (List (Option α))
  | 0, _ => some []
  | n + 1, self => do
    let (self, result) ← self.next deq dVersion
    some (result :: (← nexts deq dVersion n self))

/-- The deques that pushes and pops at both ends lead to. -/
inductive Deque.Built : Deque α → Prop
  | empty {bucketSz : ℕ} (h : 0 < bucketSz) : Built (Deque.empty bucketSz)
  | pushFront {d d' : Deque α} {x : α} (h : Built d) (hrun : d.pushFrontUnlocked x = some d') : Built d'
  | pushBack {d d' : Deque α} {x : α} (h : Built d) (hrun : d.pushBackUnlocked x = some d') : Built d'
  | popFront {d d' : Deque α} {x : α} (h : Built d) (hrun : d.popFrontUnlocked = some (d', x)) : Built d'
  | popBack {d d' : Deque α} {x : α} (h : Built d) (hrun : d.popBackUnlocked = some (d', x)) : Built d'

/-- The counters are of the type `size_t`. -/
structure Deque.InRange (d : Deque α) : Prop where
  size : d.dSize < 2 ^ 64
  bucketSz : d.dBucketSz < 2 ^ 64

/-! ### Positions -/

variable {d : Deque α} {xs : List α} {x : α} {it : DequeIterator} {i : ℕ}

/-- The iterator is at position `i`. -/
structure DequeIterator.At (it : DequeIterator) (d : Deque α) (i : ℕ) : Prop where
  bucket : it.diBucket < d.dChain.length
  index : it.diIndex < d.dBucketSz
  sum : it.diBucket * d.dBucketSz + it.diIndex = d.dHeadIdx + i

theorem initAt_eq (d : Deque α) (i : ℕ) : d.initAt i = (d.itemPointer i).map fun p => ⟨p.1, p.2⟩ := by
  unfold Deque.initAt Deque.itemPointer
  by_cases hsize : i < d.dSize
  · rw [assert_of hsize, some_bind, some_bind]
    dsimp only
    split_ifs
    · rfl
    · rfl
    · cases searchRight d.dBucketSz (d.dChain.length - 1) (d.dSize - i - d.dTailSz) <;> rfl
    · cases searchLeft d.dBucketSz d.dChain.length 0 (i - d.dHeadUse) <;> rfl
  · rw [assert, if_neg hsize]
    rfl

theorem DequeIterator.At.read_eq (hat : it.At d i) (h : d.Represents xs) (hx : xs[i]? = some x) :
    d.read it.diBucket it.diIndex = some x :=
  Deque.read_eq h.ok.buckets hat.index (by rw [hat.sum]; exact h.getElem? hx)

theorem iterBegin_at (h : d.Ok) (hpos : 0 < d.dSize) : d.iterBegin.At d 0 := by
  refine ⟨?_, h.headIdx, by rw [Deque.iterBegin, Nat.zero_mul, Nat.zero_add, Nat.add_zero]⟩
  rcases Nat.eq_zero_or_pos d.dChain.length with hlen | hlen
  · have := h.empty hlen
    omega
  · exact hlen

/-- The cell behind position `i` in the last bucket. -/
theorem DequeIterator.At.hasNext_iff (hat : it.At d i) (h : d.Ok) (hi : i < d.dSize) :
    it.hasNext d = true ↔ i + 1 < d.dSize := by
  have hbucket := hat.bucket
  have hindex := hat.index
  have hsum := hat.sum
  unfold DequeIterator.hasNext
  rcases length_cases d.dChain with hlen | hlen | ⟨n, hlen⟩
  · omega
  · have hsingle := h.single hlen
    have hzero : it.diBucket = 0 := by omega
    rw [hzero, Nat.zero_mul] at hsum
    rw [if_neg (by omega), if_neg (by omega), decide_eq_true_eq]
    omega
  · have hmany := h.many n hlen
    by_cases hlast : it.diBucket = n + 1
    · rw [hlast, Nat.succ_mul] at hsum
      rw [if_neg (by omega), if_pos (by omega), decide_eq_true_eq]
      omega
    · rw [if_pos (by omega)]
      have hle : it.diBucket * d.dBucketSz ≤ n * d.dBucketSz := Nat.mul_le_mul_right _ (by omega)
      have htail : d.dTailSz ≠ 0 := fun h0 => by
        have := h.tail.mp h0
        omega
      exact iff_of_true rfl (by omega)

/-- The next cell is in a bucket as long as an item is left. -/
theorem DequeIterator.At.next (hat : it.At d i) (h : d.Ok) (hi : i + 1 < d.dSize) : (it.next d).At d (i + 1) := by
  have hbucket := hat.bucket
  have hindex := hat.index
  have hsum := hat.sum
  have hfits := h.fits
  rw [h.length_flatten] at hfits
  unfold DequeIterator.next
  split_ifs with hend
  · have hcell : (it.diBucket + 1) * d.dBucketSz = d.dHeadIdx + (i + 1) := by
      rw [Nat.succ_mul]
      omega
    refine ⟨?_, h.bucketSz, by dsimp only; omega⟩
    by_contra hout
    have hle := Nat.mul_le_mul_right d.dBucketSz (not_lt.mp hout)
    dsimp only at hle
    omega
  · exact ⟨hbucket, by dsimp only; omega, by dsimp only; omega⟩

/-! ### Reading a position back -/

theorem forLoop_add {n m k result : ℕ} :
    forLoop (fun _ result => some ((result + k) % 2 ^ 64)) n m (result % 2 ^ 64) =
      some ((result + m * k) % 2 ^ 64) := by
  induction m generalizing n result with
  | zero => rw [forLoop, Nat.zero_mul, Nat.add_zero]
  | succ m ih =>
    rw [forLoop, some_bind, Nat.mod_add_mod, ih, Nat.succ_mul]
    congr 2
    omega

/-- Only with more than one bucket the position is read back as it is: one bucket has no tail, and its head free. -/
theorem DequeIterator.At.getIndex_iff (hat : it.At d i) (h : d.Ok) (hi : i < d.dSize) (hrange : d.InRange) :
    it.getIndex d = some i ↔ 2 ≤ d.dChain.length := by
  have hbucket := hat.bucket
  have hindex := hat.index
  have hsum := hat.sum
  have hsize := hrange.size
  have hbucketSz := hrange.bucketSz
  have hheadIdx := h.headIdx
  unfold DequeIterator.getIndex
  rcases length_cases d.dChain with hlen | hlen | ⟨n, hlen⟩
  · omega
  · have hsingle := h.single hlen
    have htail := h.tail.mpr hlen.le
    have hzero : it.diBucket = 0 := by omega
    rw [hzero, Nat.zero_mul] at hsum
    rw [if_pos (by omega), Option.some.injEq]
    exact iff_of_false (by omega) (by omega)
  · have hmany := h.many n hlen
    refine iff_of_true ?_ (by omega)
    by_cases hlast : it.diBucket = n + 1
    · rw [hlast, Nat.succ_mul] at hsum
      rw [if_pos (by omega), Option.some.injEq]
      omega
    · have hfull : (2 ^ 64 + it.diIndex - d.dHeadIdx + it.diBucket * d.dBucketSz) = 2 ^ 64 + i := by omega
      rw [if_neg (by omega), forLoop_add, hfull, Nat.add_mod_left, Nat.mod_eq_of_lt (by omega)]

/-! ### Runs -/

theorem invalidated_ne (version : ℕ) : invalidated version ≠ version := by
  unfold invalidated
  omega

/-- From position `i` on, `next` gives the items that are left and then nothing. -/
theorem nexts_eq (h : d.Represents xs) (version n : ℕ) (hat : it.At d i)
    (hi : i < d.dSize) :
    DequeIteratorObject.nexts d version n ⟨it, version⟩ = some ((List.range n).map fun k => xs[i + k]?) := by
  have hexhausted : ∀ n (self : DequeIteratorObject), self.diVer ≠ version →
      DequeIteratorObject.nexts d version n self = some (List.replicate n none) := by
    intro n
    induction n with
    | zero => exact fun _ _ => rfl
    | succ n ih =>
      intro self hself
      rw [DequeIteratorObject.nexts, DequeIteratorObject.next, if_pos hself, some_bind]
      dsimp only
      rw [ih self hself]
      rfl
  induction n generalizing it i with
  | zero => rfl
  | succ n ih =>
    have hlen := h.length
    obtain ⟨x, hx⟩ : ∃ x, xs[i]? = some x := ⟨_, List.getElem?_eq_getElem (by omega)⟩
    have hnext := hat.hasNext_iff h.ok hi
    rw [DequeIteratorObject.nexts, DequeIteratorObject.next, if_neg (not_not.mpr rfl), hat.read_eq h hx, some_bind,
      List.range_succ_eq_map, List.map_cons, Nat.add_zero, hx, List.map_map]
    by_cases hmore : i + 1 < d.dSize
    · rw [if_pos (hnext.mpr hmore), some_bind]
      dsimp only
      rw [ih (hat.next h.ok hmore) hmore, some_bind]
      congr 2
      refine List.map_congr_left fun k _ => ?_
      rw [Function.comp_apply, Nat.add_assoc, Nat.add_comm 1]
    · rw [if_neg (fun h => hmore (hnext.mp h)), some_bind]
      dsimp only
      rw [hexhausted n ⟨it, invalidated version⟩ (invalidated_ne version), some_bind]
      congr 2
      refine List.ext_getElem? fun k => ?_
      rw [List.getElem?_replicate, List.getElem?_map]
      by_cases hk : k < n
      · rw [if_pos hk, List.getElem?_range hk, Option.map_some, Function.comp_apply, List.getElem?_eq_none (by omega)]
      · rw [if_neg hk, List.getElem?_eq_none (by simpa using hk)]
        rfl

theorem Deque.Built.represents (h : d.Built) : ∃ xs, d.Represents xs := by
  induction h with
  | empty hpos => exact ⟨[], empty_represents hpos⟩
  | @pushFront d d' x h hrun ih =>
    obtain ⟨xs, hxs⟩ := ih
    exact ⟨x :: xs, (pushFront_ends hxs x).of_eq hrun⟩
  | @pushBack d d' x h hrun ih =>
    obtain ⟨xs, hxs⟩ := ih
    exact ⟨xs ++ [x], (pushBack_ends hxs x).of_eq hrun⟩
  | @popFront d d' x h hrun ih =>
    obtain ⟨xs, hxs⟩ := ih
    cases xs with
    | nil =>
      have hsize := hxs.length
      rw [List.length_nil] at hsize
      rw [Deque.popFrontUnlocked, assert, if_neg (not_not.mpr hsize.symm)] at hrun
      cases hrun
    | cons y xs => exact ⟨xs, ((popFront_ends hxs).of_eq hrun).1⟩
  | @popBack d d' x h hrun ih =>
    obtain ⟨xs, hxs⟩ := ih
    rcases List.eq_nil_or_concat' xs with rfl | ⟨init, y, rfl⟩
    · have hempty := hxs.ok.of_size_eq_zero hxs.length.symm
      rw [Deque.popBackUnlocked, assert, if_neg (not_not.mpr (List.eq_nil_of_length_eq_zero hempty))] at hrun
      cases hrun
    · exact ⟨init, ((popBack_ends hxs).of_eq hrun).1⟩

/-- An iterator that is set to position `i` is at the item there and goes through the items from it on. Its position is
read back, also that of a new iterator, exactly if there is more than one bucket. -/
theorem dequeIterator_iff (h : d.Built) (hrange : d.InRange) (hi : i < d.dSize) (version : ℕ)
    (self : DequeIteratorObject) :
    ∃ xs it, d.listing = some xs ∧ self.setindex d version i = some it ∧
      d.itemPointer i = some (it.diIter.diBucket, it.diIter.diIndex) ∧
      (∀ n, DequeIteratorObject.nexts d version n it = some ((List.range n).map fun k => xs[i + k]?)) ∧
      (it.getindex d version = some i ↔ 2 ≤ d.dChain.length) ∧
      ((d.iter version).getindex d version = some 0 ↔ 2 ≤ d.dChain.length) := by
  obtain ⟨xs, hxs⟩ := h.represents
  obtain ⟨p, hp, hat⟩ := itemPointer_ends hxs.ok hi
  have hat' : DequeIterator.At ⟨p.1, p.2⟩ d i := ⟨hat.1, hat.2.1, hat.2.2⟩
  have hinit : d.initAt i = some ⟨p.1, p.2⟩ := by
    rw [initAt_eq, hp]
    rfl
  refine ⟨xs, ⟨⟨p.1, p.2⟩, version⟩, listing_eq hxs, ?_, hp, fun n => nexts_eq hxs version n hat' hi, ?_, ?_⟩
  · rw [DequeIteratorObject.setindex, if_neg (by omega), hinit]
    rfl
  · rw [DequeIteratorObject.getindex, if_neg (not_not.mpr rfl)]
    exact hat'.getIndex_iff hxs.ok hi hrange
  · have hver : (d.iter version).diVer = version := if_neg (by omega)
    rw [DequeIteratorObject.getindex, if_neg (not_not.mpr hver)]
    exact (iterBegin_at hxs.ok (by omega)).getIndex_iff hxs.ok (by omega) hrange

/-- Position 1 of two items in two buckets. -/
theorem dequeIterator_two : ∃ it : DequeIteratorObject,
    (⟨⟨0, 0⟩, 0⟩ : DequeIteratorObject).setindex (⟨[[some 5], [some 6]], 2, 0, 1, 1, 1⟩ : Deque ℕ) 9 1 = some it ∧
      it.getindex (⟨[[some 5], [some 6]], 2, 0, 1, 1, 1⟩ : Deque ℕ) 9 = some 1 := by
  have hbuilt : Deque.Built (⟨[[some 5], [some 6]], 2, 0, 1, 1, 1⟩ : Deque ℕ) :=
    .pushBack (x := 6) (.pushBack (x := 5) (.empty Nat.one_pos)
      (show _ = some (⟨[[some 5]], 1, 0, 1, 0, 1⟩ : Deque ℕ) by decide)) (by decide)
  obtain ⟨xs, it, -, hset, -, -, hget, -⟩ :=
    dequeIterator_iff hbuilt ⟨by norm_num, by norm_num⟩ (show 1 < 2 by norm_num) 9 ⟨⟨0, 0⟩, 0⟩
  exact ⟨it, hset, hget.mpr le_rfl⟩

/-- Position 0 of one item is read back as 2 when its bucket has two cells. -/
theorem dequeIterator_counterexample :
    let d : Deque ℕ := ⟨[[none, some 5]], 1, 1, 1, 0, 2⟩
    (Deque.empty 2).pushBackUnlocked 5 = some d ∧ d.Built ∧ d.InRange ∧
      ∃ it, DequeIteratorObject.setindex ⟨⟨0, 0⟩, 0⟩ d 9 0 = some it ∧ it.getindex d 9 = some 2 ∧
        ¬ it.getindex d 9 = some 0 ∧ ¬ (d.iter 9).getindex d 9 = some 0 := by
  have hpush : (Deque.empty 2).pushBackUnlocked 5 = some (⟨[[none, some 5]], 1, 1, 1, 0, 2⟩ : Deque ℕ) := by decide
  exact ⟨hpush, .pushBack (.empty Nat.two_pos) hpush, ⟨by norm_num, by norm_num⟩, _, rfl, by decide, by decide, by decide⟩

end Deemon.Collections
