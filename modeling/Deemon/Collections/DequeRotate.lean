import Deemon.Collections.DequeIterator
import Mathlib.Data.List.Rotate

/-!
# Rotating the ends of a deque

The first or the last `n` items of a deque are meant to be rotated by one. The loops make one round too few, so that the
item at one end of the `n` items stays where it is and the others are rotated without it.
-/

namespace Deemon.Collections

open Deemon.Run Deemon.Blocks

variable {α : Type}

/-! ### The code -/

/-- `DEQUE_TAIL(self) = item`. -/
def Deque.writeTail (self : Deque α) (item : α) : Option (Deque α) :=
  if self.dChain.length ≤ 1 then self.write 0 (self.dHeadIdx + self.dHeadUse - 1) item
  else self.write (self.dChain.length - 1) (self.dTailSz - 1) item

/-- A round of the loop of `Deque_lrrot_unlocked`: the deque, the iterator and `temp`. -/
def lrrotStep (s : Deque α × DequeIterator × α) : Option (Deque α × DequeIterator × α) := do
  let iter := s.2.1.next s.1
  let next ← s.1.read iter.diBucket iter.diIndex
  let self ← s.1.write iter.diBucket iter.diIndex s.2.2
  some (self, iter, next)

/-- `Deque_lrrot_unlocked`. -/
def Deque.lrrotUnlocked (self : Deque α) (numObjects : ℕ) : Option (Deque α) :=
  if numObjects ≤ 1 then some self
  else do
    assert (numObjects ≤ self.dSize)
    let temp ← self.read self.iterBegin.diBucket self.iterBegin.diIndex
    let s ← forLoop (fun _ s => lrrotStep s) 0 (numObjects - 2) (self, self.iterBegin, temp)
    s.1.write 0 s.1.dHeadIdx s.2.2

/-- A round of the loop of `Deque_rlrot_unlocked`: the deque, the iterator and `temp`. -/
def rlrotStep (s : Deque α × DequeIterator × α) : Option (Deque α × DequeIterator × α) := do
  let iter ← s.2.1.prev s.1
  let next ← s.1.read iter.diBucket iter.diIndex
  let self ← s.1.write iter.diBucket iter.diIndex s.2.2
  some (self, iter, next)

/-- `Deque_rlrot_unlocked`. -/
def Deque.rlrotUnlocked (self : Deque α) (numObjects : ℕ) : Option (Deque α) :=
  if numObjects ≤ 1 then some self
  else do
    assert (numObjects ≤ self.dSize)
    let iter ← self.iterRBegin
    let temp ← self.read iter.diBucket iter.diIndex
    let s ← forLoop (fun _ s => rlrotStep s) 0 (numObjects - 2) (self, iter, temp)
    s.1.writeTail s.2.2

/-! ### One cell -/

section Cell

variable {d : Deque α} {xs pre post : List α} {u v x : α} {it : DequeIterator} {i n : ℕ}

/-- A write to a position changes the item there, and nothing that an iterator looks at. -/
theorem DequeIterator.At.write (hat : it.At d i) (h : d.Represents xs) (v : α) :
    ∃ chain, d.write it.diBucket it.diIndex v = some { d with dChain := chain } ∧ chain.length = d.dChain.length ∧
      Deque.Represents { d with dChain := chain } (xs.set i v) := by
  have hok := h.ok
  have hsize := h.length
  obtain ⟨chain, hw, hb, hlen, hflat⟩ := Deque.write_eq hok.buckets hat.bucket hat.index v
  refine ⟨chain, hw, hlen, ⟨hok.bucketSz, hok.headIdx, hok.headUse, hok.tailSz, hb, ?_, ?_, ?_, ?_⟩, ?_⟩
  · exact hlen ▸ hok.tail
  · exact hlen ▸ hok.empty
  · exact hlen ▸ hok.single
  · exact hlen ▸ hok.many
  · have hcells := h.cells
    rw [Deque.cells] at hcells
    rw [Deque.cells]
    dsimp only
    rw [hflat, hat.sum, window_set (by omega), hcells, Nat.add_sub_cancel_left, List.map_set]

theorem DequeIterator.At.of_length {d' : Deque α} (hat : it.At d i) (hchain : d'.dChain.length = d.dChain.length)
    (hbucketSz : d'.dBucketSz = d.dBucketSz) (hheadIdx : d'.dHeadIdx = d.dHeadIdx) : it.At d' i :=
  ⟨by rw [hchain]; exact hat.bucket, by rw [hbucketSz]; exact hat.index, by rw [hbucketSz, hheadIdx]; exact hat.sum⟩

/-- A write in the middle of a list. -/
theorem DequeIterator.At.replace (hat : it.At d pre.length) (h : d.Represents (pre ++ u :: post)) (v : α) :
    ∃ d', d.write it.diBucket it.diIndex v = some d' ∧ d'.Represents (pre ++ v :: post) ∧
      ∀ {it' : DequeIterator} {j : ℕ}, it'.At d j → it'.At d' j := by
  obtain ⟨chain, hw, hlen, hrep⟩ := hat.write h v
  refine ⟨_, hw, ?_, fun hat' => hat'.of_length hlen rfl rfl⟩
  rwa [List.set_append_right _ _ le_rfl, Nat.sub_self, List.set_cons_zero] at hrep

theorem DequeIterator.At.item (hat : it.At d pre.length) (h : d.Represents (pre ++ u :: post)) :
    d.read it.diBucket it.diIndex = some u :=
  hat.read_eq h (by simp)

theorem DequeIterator.At.prev (hat : it.At d (i + 1)) (h : d.Ok) : ∃ it', it.prev d = some it' ∧ it'.At d i := by
  have hbucket := hat.bucket
  have hindex := hat.index
  have hsum := hat.sum
  have hpos := h.bucketSz
  unfold DequeIterator.prev
  by_cases hzero : it.diIndex = 0
  · have hcarry : 0 < it.diBucket := by
      by_contra hnone
      rw [Nat.eq_zero_of_not_pos hnone, Nat.zero_mul] at hsum
      omega
    obtain ⟨b, hb⟩ := Nat.exists_eq_succ_of_ne_zero hcarry.ne'
    rw [hb, Nat.succ_mul] at hsum
    rw [if_pos hzero, hb, decr, some_bind]
    exact ⟨_, rfl, by dsimp only; omega, by dsimp only; omega, by dsimp only; omega⟩
  · rw [if_neg hzero]
    exact ⟨_, rfl, hbucket, by dsimp only; omega, by dsimp only; omega⟩

/-- The cell that `DequeIterator_NextItemPointer` points to is that of the next iterator. -/
theorem DequeIterator.At.nextItemPointer (hat : it.At d i) (h : d.Ok) (hi : i + 1 < d.dSize) :
    it.nextItemPointer d = some ((it.next d).diBucket, (it.next d).diIndex) := by
  have hnext := (hat.hasNext_iff h (by omega)).mpr hi
  unfold DequeIterator.nextItemPointer DequeIterator.next
  rw [assert_of hnext, some_bind]
  by_cases hend : it.diIndex + 1 < d.dBucketSz
  · rw [if_pos hend, if_neg (by omega)]
  · rw [if_neg hend, if_pos (by omega)]

theorem iterRBegin_at (h : d.Ok) (hpos : 0 < d.dSize) : ∃ it, d.iterRBegin = some it ∧ it.At d (d.dSize - 1) := by
  unfold Deque.iterRBegin
  rcases length_cases d.dChain with hlen | hlen | ⟨n, hlen⟩
  · have := h.empty hlen
    omega
  · have hsingle := h.single hlen
    rw [if_pos hlen.le, assert_of hsingle.1.ne', some_bind]
    exact ⟨_, rfl, by dsimp only; omega, by dsimp only; omega, by dsimp only; omega⟩
  · have hmany := h.many n hlen
    have htail : d.dTailSz ≠ 0 := fun h0 => by
      have := h.tail.mp h0
      omega
    have htailSz := h.tailSz
    have hmul : (d.dChain.length - 1) * d.dBucketSz = n * d.dBucketSz + d.dBucketSz := by
      rw [hlen, Nat.add_sub_assoc (by decide), Nat.succ_mul]
    rw [if_neg (by omega), assert_of htail, some_bind]
    exact ⟨_, rfl, by dsimp only; omega, by dsimp only; omega, by dsimp only; omega⟩

/-- `DEQUE_TAIL` is the cell of the last iterator. -/
theorem writeTail_eq (hit : d.iterRBegin = some it) (x : α) : d.writeTail x = d.write it.diBucket it.diIndex x := by
  unfold Deque.iterRBegin at hit
  unfold Deque.writeTail
  split_ifs at hit ⊢ with hone
  · obtain ⟨_, _, hit⟩ := of_bind hit
    obtain rfl := Option.some.inj hit
    rfl
  · obtain ⟨_, _, hit⟩ := of_bind hit
    obtain rfl := Option.some.inj hit
    rfl

end Cell

/-! ### The loops -/

section Loop

variable {d : Deque α} {pre mid post : List α} {u t : α} {it : DequeIterator}

theorem llrotLoop_ends (k : ℕ) (h : d.Represents (pre ++ u :: (mid ++ post))) (hat : it.At d pre.length) :
    ∃ d' it' w, forLoop (fun _ s => llrotStep s) k mid.length (d, it) = some (d', it') ∧
      d'.Represents (pre ++ mid ++ w :: post) ∧ it'.At d' (pre ++ mid).length := by
  induction mid generalizing d it pre u k with
  | nil => exact ⟨d, it, u, rfl, by simpa using h, by simpa using hat⟩
  | cons v mid ih =>
    have hsize := h.length
    have hmore : pre.length + 1 < d.dSize := by
      simp only [List.length_append, List.length_cons] at hsize
      omega
    have hnext : (it.next d).At d (pre ++ [u]).length := by
      rw [List.length_append]
      exact hat.next h.ok hmore
    have h' : d.Represents (pre ++ [u] ++ v :: (mid ++ post)) := by simpa using h
    have hitem := hnext.item h'
    obtain ⟨d', hwrite, hrep, hkeep⟩ := hat.replace h v
    have hat' : (it.next d').At d' (pre ++ [v]).length := by
      rw [List.length_append]
      exact (hkeep hat).next hrep.ok (by simp only [← hrep.length, List.length_append, List.length_cons]; omega)
    obtain ⟨d'', it'', w, hloop, hrep', hat''⟩ := @ih d' (pre ++ [v]) v (it.next d') (k + 1) (by simpa using hrep) hat'
    refine ⟨d'', it'', w, ?_, by simpa using hrep', by simpa using hat''⟩
    rw [List.length_cons, forLoop, llrotStep, hat.nextItemPointer h.ok hmore, some_bind]
    dsimp only
    rw [hitem, some_bind, hwrite, some_bind, some_bind]
    exact hloop

theorem lrrotLoop_ends (k : ℕ) (h : d.Represents (pre ++ u :: (mid ++ post))) (hat : it.At d pre.length) :
    ∃ d' it' last init, forLoop (fun _ s => lrrotStep s) k mid.length (d, it, t) = some (d', it', last) ∧
      t :: mid = init ++ [last] ∧ d'.Represents (pre ++ u :: (init ++ post)) := by
  induction mid generalizing d it pre u t k with
  | nil => exact ⟨d, it, t, [], rfl, rfl, h⟩
  | cons v mid ih =>
    have hmore : pre.length + 1 < d.dSize := by
      simp only [← h.length, List.length_append, List.length_cons]
      omega
    have hnext : (it.next d).At d (pre ++ [u]).length := by
      rw [List.length_append]
      exact hat.next h.ok hmore
    have h' : d.Represents (pre ++ [u] ++ v :: (mid ++ post)) := by simpa using h
    obtain ⟨d', hwrite, hrep, hkeep⟩ := hnext.replace h' t
    obtain ⟨d'', it'', last, init, hloop, hlast, hrep'⟩ := @ih d' (pre ++ [u]) t v (it.next d) (k + 1) hrep (hkeep hnext)
    refine ⟨d'', it'', last, t :: init, ?_, by rw [hlast, List.cons_append], by simpa using hrep'⟩
    rw [List.length_cons, forLoop, lrrotStep]
    dsimp only
    rw [hnext.item h', some_bind, hwrite, some_bind, some_bind]
    exact hloop

theorem rlrotLoop_ends (k : ℕ) (h : d.Represents (pre ++ mid ++ u :: post)) (hat : it.At d (pre ++ mid).length) :
    ∃ d' it' first rest, forLoop (fun _ s => rlrotStep s) k mid.length (d, it, t) = some (d', it', first) ∧
      mid ++ [t] = first :: rest ∧ d'.Represents (pre ++ rest ++ u :: post) := by
  induction mid using List.reverseRecOn generalizing d it u t post k with
  | nil => exact ⟨d, it, t, [], rfl, rfl, h⟩
  | append_singleton mid v ih =>
    rw [← List.append_assoc, List.length_append, List.length_singleton] at hat
    obtain ⟨it', hprev, hat'⟩ := hat.prev h.ok
    have h' : d.Represents (pre ++ mid ++ v :: u :: post) := by simpa using h
    obtain ⟨d', hwrite, hrep, hkeep⟩ := hat'.replace h' t
    obtain ⟨d'', it'', first, rest, hloop, hfirst, hrep'⟩ := @ih d' (u :: post) t v it' (k + 1) hrep (hkeep hat')
    refine ⟨d'', it'', first, rest ++ [t], ?_, by rw [hfirst, List.cons_append], by simpa using hrep'⟩
    rw [List.length_append, List.length_singleton, forLoop, rlrotStep]
    dsimp only
    rw [hprev, some_bind, hat'.item h', some_bind, hwrite, some_bind, some_bind]
    exact hloop

theorem rrrotLoop_ends (k : ℕ) (h : d.Represents (pre ++ mid ++ u :: post)) (hat : it.At d (pre ++ mid).length) :
    ∃ d' it' w, forLoop (fun _ s => rrrotStep s) k mid.length (d, it) = some (d', it') ∧
      d'.Represents (pre ++ w :: (mid ++ post)) ∧ it'.At d' pre.length := by
  induction mid using List.reverseRecOn generalizing d it u post k with
  | nil => exact ⟨d, it, u, rfl, by simpa using h, by simpa using hat⟩
  | append_singleton mid v ih =>
    rw [← List.append_assoc, List.length_append, List.length_singleton] at hat
    obtain ⟨it', hprev, hat'⟩ := hat.prev h.ok
    have h' : d.Represents (pre ++ mid ++ v :: u :: post) := by simpa using h
    have hmore : (pre ++ mid).length + 1 < d.dSize := by
      simp only [← h'.length, List.length_append, List.length_cons]
      omega
    have hnext : (it'.next d).At d (pre ++ (mid ++ [v])).length := by
      rw [← List.append_assoc, List.length_append, List.length_singleton]
      exact hat'.next h.ok hmore
    obtain ⟨d', hwrite, hrep, hkeep⟩ := hnext.replace h v
    obtain ⟨d'', it'', w, hloop, hrep', hat''⟩ :=
      @ih d' (v :: post) v it' (k + 1) (by simpa using hrep) (hkeep hat')
    refine ⟨d'', it'', w, ?_, by simpa using hrep', hat''⟩
    rw [List.length_append, List.length_singleton, forLoop, rrrotStep]
    dsimp only
    rw [hprev, some_bind, hat'.item h', some_bind, hat'.nextItemPointer h.ok hmore, some_bind, hwrite, some_bind, some_bind]
    exact hloop

end Loop

/-! ### Rotations -/

section Rotate

variable {d : Deque α} {xs ys pre mid init rest post : List α} {a b c z : α} {n : ℕ}

theorem llrot_ends (h : d.Represents (a :: (mid ++ b :: post))) :
    Ends (d.llrotUnlocked (mid.length + 2)) fun r => r.Represents (mid ++ a :: b :: post) := by
  have hsize := h.length
  simp only [List.length_append, List.length_cons] at hsize
  have hbegin := iterBegin_at h.ok (by omega)
  obtain ⟨d', it', w, hloop, hrep, hat⟩ := @llrotLoop_ends _ d [] mid (b :: post) a _ 0 h hbegin
  obtain ⟨d'', hwrite, hrep', -⟩ := hat.replace hrep a
  unfold Deque.llrotUnlocked
  rw [if_neg (by omega), assert_of (by omega), some_bind, hbegin.read_eq h (x := a) rfl, some_bind, Nat.add_sub_cancel,
    hloop, some_bind, hwrite]
  exact Ends.pure hrep'

theorem lrrot_ends (h : d.Represents (init ++ c :: b :: post)) :
    Ends (d.lrrotUnlocked (init.length + 2)) fun r => r.Represents (c :: (init ++ b :: post)) := by
  obtain ⟨a, mid, hmid⟩ := List.exists_cons_of_ne_nil (List.concat_ne_nil c init)
  have hlen := congrArg List.length hmid
  rw [List.length_append, List.length_singleton, List.length_cons] at hlen
  have hxs : init ++ c :: b :: post = a :: (mid ++ b :: post) := by
    rw [← List.cons_append, ← hmid, List.append_assoc, List.singleton_append]
  rw [hxs] at h
  have hsize := h.length
  simp only [List.length_append, List.length_cons] at hsize
  have hbegin := iterBegin_at h.ok (by omega)
  obtain ⟨d', it', last, init', hloop, hlast, hrep⟩ := @lrrotLoop_ends _ d [] mid (b :: post) a a _ 0 h hbegin
  obtain ⟨rfl, hc⟩ := List.append_inj' (hmid.trans hlast) rfl
  obtain rfl := List.singleton_inj.mp hc
  have hbegin' : DequeIterator.At d'.iterBegin d' ([] : List α).length := by
    refine iterBegin_at hrep.ok ?_
    simp only [← hrep.length, List.nil_append, List.length_cons]
    omega
  obtain ⟨d'', hwrite, hrep', -⟩ := hbegin'.replace hrep c
  unfold Deque.lrrotUnlocked
  rw [if_neg (by omega), assert_of (by omega), some_bind, hbegin.read_eq h (x := a) rfl, some_bind, Nat.add_sub_cancel,
    show init.length = mid.length by omega, hloop, some_bind]
  exact ⟨d'', hwrite, hrep'⟩

theorem Deque.Represents.iterRBegin_at (h : d.Represents (pre ++ [z])) : ∃ it, d.iterRBegin = some it ∧ it.At d pre.length := by
  have hsize := h.length
  rw [List.length_append, List.length_singleton] at hsize
  rw [show pre.length = d.dSize - 1 by omega]
  exact Collections.iterRBegin_at h.ok (by omega)

theorem rlrot_ends (h : d.Represents (pre ++ b :: c :: rest)) :
    Ends (d.rlrotUnlocked (rest.length + 2)) fun r => r.Represents (pre ++ b :: (rest ++ [c])) := by
  obtain ⟨mid, z, hmid⟩ := (List.eq_nil_or_concat' (c :: rest)).resolve_left (List.cons_ne_nil _ _)
  have hlen := congrArg List.length hmid
  rw [List.length_append, List.length_singleton, List.length_cons] at hlen
  have hxs : pre ++ b :: c :: rest = pre ++ [b] ++ mid ++ z :: [] := by
    rw [hmid]
    simp
  rw [hxs] at h
  have hsize := h.length
  simp only [List.length_append, List.length_cons, List.length_nil] at hsize
  obtain ⟨it, hbegin, hat⟩ := h.iterRBegin_at
  obtain ⟨d', it', first, rest', hloop, hfirst, hrep⟩ := @rlrotLoop_ends _ d (pre ++ [b]) mid [] z z it 0 h hat
  obtain ⟨rfl, rfl⟩ := List.cons.inj (hmid.trans hfirst)
  obtain ⟨it'', hlast, hat'⟩ := hrep.iterRBegin_at
  obtain ⟨d'', hwrite, hrep', -⟩ := hat'.replace hrep c
  unfold Deque.rlrotUnlocked
  rw [if_neg (by omega), assert_of (by omega), some_bind, hbegin, some_bind, hat.item h, some_bind, Nat.add_sub_cancel,
    show rest.length = mid.length by omega, hloop, some_bind]
  dsimp only
  rw [writeTail_eq hlast, hwrite]
  exact Ends.pure (by simpa using hrep')

theorem rrrot_ends (h : d.Represents (pre ++ b :: (mid ++ [z]))) :
    Ends (d.rrrotUnlocked (mid.length + 2)) fun r => r.Represents (pre ++ b :: z :: mid) := by
  have hxs : pre ++ b :: (mid ++ [z]) = pre ++ [b] ++ mid ++ z :: [] := by simp
  rw [hxs] at h
  have hsize := h.length
  simp only [List.length_append, List.length_cons, List.length_nil] at hsize
  obtain ⟨it, hbegin, hat⟩ := h.iterRBegin_at
  obtain ⟨d', it', w, hloop, hrep, hat'⟩ := @rrrotLoop_ends _ d (pre ++ [b]) mid [] z it 0 h hat
  obtain ⟨d'', hwrite, hrep', -⟩ := hat'.replace hrep z
  unfold Deque.rrrotUnlocked
  rw [if_neg (by omega), assert_of (by omega), some_bind, hbegin, some_bind, hat.item h, some_bind, Nat.add_sub_cancel,
    hloop, some_bind, hwrite]
  exact Ends.pure (by simpa using hrep')

theorem Deque.Represents.unique (h : d.Represents xs) (h' : d.Represents ys) : xs = ys :=
  List.map_injective_iff.mpr (Option.some_injective α) (h.cells.symm.trans h'.cells)

/-- A run gives the list that is meant exactly if that is the list it gives. -/
theorem ends_represents_iff {m : Option (Deque α)} (h : Ends m fun r => r.Represents ys) :
    (Ends m fun r => r.Represents xs) ↔ xs = ys := by
  constructor
  · rintro ⟨r, hr, hxs⟩
    exact hxs.unique (h.of_eq hr)
  · rintro rfl
    exact h

/-! ### The items at both ends of a part -/

theorem exists_first_and_last (hn : n + 2 ≤ xs.length) : ∃ a mid b post, xs = a :: (mid ++ b :: post) ∧ mid.length = n := by
  cases xs with
  | nil => cases hn
  | cons a xs =>
    rw [List.length_cons] at hn
    refine ⟨a, xs.take n, xs[n], xs.drop (n + 1), ?_, ?_⟩
    · rw [← List.drop_eq_getElem_cons (by omega), List.take_append_drop]
    · rw [List.length_take]
      omega

theorem exists_last_two (hn : n + 2 ≤ xs.length) : ∃ init c b post, xs = init ++ c :: b :: post ∧ init.length = n := by
  refine ⟨xs.take n, xs[n], xs[n + 1], xs.drop (n + 2), ?_, ?_⟩
  · rw [← List.drop_eq_getElem_cons (by omega), ← List.drop_eq_getElem_cons (by omega), List.take_append_drop]
  · rw [List.length_take]
    omega

theorem exists_first_two (hn : n + 2 ≤ xs.length) : ∃ pre b c rest, xs = pre ++ b :: c :: rest ∧ rest.length = n := by
  obtain ⟨pre, b, c, rest, rfl, hlen⟩ := @exists_last_two _ xs (xs.length - (n + 2)) (by omega)
  refine ⟨pre, b, c, rest, rfl, ?_⟩
  simp only [List.length_append, List.length_cons] at hlen hn
  omega

theorem exists_ends (hn : n + 2 ≤ xs.length) : ∃ pre b mid z, xs = pre ++ b :: (mid ++ [z]) ∧ mid.length = n := by
  obtain ⟨pre, b, c, rest, rfl, hlen⟩ := exists_first_two hn
  obtain ⟨mid, z, hmid⟩ := (List.eq_nil_or_concat' (c :: rest)).resolve_left (List.cons_ne_nil _ _)
  refine ⟨pre, b, mid, z, by rw [hmid], ?_⟩
  have hlen' := congrArg List.length hmid
  rw [List.length_append, List.length_singleton, List.length_cons] at hlen'
  omega

/-- The first `n` items rotated left by `k`. -/
def rotateFirst (n k : ℕ) (xs : List α) : List α := (xs.take n).rotate k ++ xs.drop n

/-- The last `n` items rotated left by `k`. -/
def rotateLast (n k : ℕ) (xs : List α) : List α :=
  xs.take (xs.length - n) ++ (xs.drop (xs.length - n)).rotate k

theorem rotate_of_length_le_one {k : ℕ} (h : xs.length ≤ 1) : xs.rotate k = xs := by
  cases xs with
  | nil => rw [List.rotate_nil]
  | cons x xs =>
    obtain rfl : xs = [] := List.eq_nil_of_length_eq_zero (Nat.le_zero.mp (Nat.le_of_succ_le_succ h))
    rw [List.rotate_singleton]

theorem rotateFirst_of_le_one {k : ℕ} (hn : n ≤ 1) : rotateFirst n k xs = xs := by
  rw [rotateFirst, rotate_of_length_le_one ((List.length_take_le n xs).trans hn), List.take_append_drop]

theorem rotateLast_of_le_one {k : ℕ} (hn : n ≤ 1) : rotateLast n k xs = xs := by
  rw [rotateLast, rotate_of_length_le_one (by rw [List.length_drop]; omega), List.take_append_drop]

theorem rotateFirst_append {k : ℕ} (hn : ys.length = n) : rotateFirst n k (ys ++ post) = ys.rotate k ++ post := by
  rw [rotateFirst, List.take_left' hn, List.drop_left' hn]

theorem rotateLast_append {k : ℕ} (hn : ys.length = n) : rotateLast n k (pre ++ ys) = pre ++ ys.rotate k := by
  have hlen : (pre ++ ys).length - n = pre.length := by
    rw [List.length_append]
    omega
  rw [rotateLast, hlen, List.take_left, List.drop_left]

/-! ### What the rotations do -/

theorem llrot_iff (h : d.Represents xs) (hn : n ≤ xs.length) :
    (Ends (d.llrotUnlocked n) fun r => r.Represents (rotateFirst n 1 xs)) ↔ n ≤ 1 ∨ xs[0]? = xs[n - 1]? := by
  rcases Nat.lt_or_ge n 2 with hone | htwo
  · rw [Deque.llrotUnlocked, if_pos (by omega), rotateFirst_of_le_one (by omega)]
    exact iff_of_true (Ends.pure h) (.inl (by omega))
  · obtain ⟨n, rfl⟩ := Nat.exists_eq_add_of_le' htwo
    obtain ⟨a, mid, b, post, rfl, rfl⟩ := exists_first_and_last hn
    have hrotated : rotateFirst (mid.length + 2) 1 (a :: (mid ++ b :: post)) = mid ++ b :: a :: post := by
      rw [show a :: (mid ++ b :: post) = a :: (mid ++ [b]) ++ post by simp, rotateFirst_append (by simp),
        List.rotate_cons_succ, List.rotate_zero]
      simp
    rw [ends_represents_iff (llrot_ends h), hrotated]
    simp [eq_comm]

theorem lrrot_iff (h : d.Represents xs) (hn : n ≤ xs.length) :
    (Ends (d.lrrotUnlocked n) fun r => r.Represents (rotateFirst n (n - 1) xs)) ↔ n ≤ 1 ∨ xs[n - 2]? = xs[n - 1]? := by
  rcases Nat.lt_or_ge n 2 with hone | htwo
  · rw [Deque.lrrotUnlocked, if_pos (by omega), rotateFirst_of_le_one (by omega)]
    exact iff_of_true (Ends.pure h) (.inl (by omega))
  · obtain ⟨n, rfl⟩ := Nat.exists_eq_add_of_le' htwo
    obtain ⟨init, c, b, post, rfl, rfl⟩ := exists_last_two hn
    have hrotated : rotateFirst (init.length + 2) (init.length + 1) (init ++ c :: b :: post) = b :: (init ++ c :: post) := by
      rw [show init ++ c :: b :: post = (init ++ [c] ++ [b]) ++ post by simp, rotateFirst_append (by simp),
        show init.length + 1 = (init ++ [c]).length by simp, List.rotate_append_length_eq]
      simp
    rw [ends_represents_iff (lrrot_ends h)]
    change rotateFirst (init.length + 2) (init.length + 1) _ = _ ↔ _
    rw [hrotated]
    simp [eq_comm]

theorem rlrot_iff (h : d.Represents xs) (hn : n ≤ xs.length) :
    (Ends (d.rlrotUnlocked n) fun r => r.Represents (rotateLast n 1 xs)) ↔
      n ≤ 1 ∨ xs[xs.length - n]? = xs[xs.length - n + 1]? := by
  rcases Nat.lt_or_ge n 2 with hone | htwo
  · rw [Deque.rlrotUnlocked, if_pos (by omega), rotateLast_of_le_one (by omega)]
    exact iff_of_true (Ends.pure h) (.inl (by omega))
  · obtain ⟨n, rfl⟩ := Nat.exists_eq_add_of_le' htwo
    obtain ⟨pre, b, c, rest, rfl, rfl⟩ := exists_first_two hn
    have hlen : (pre ++ b :: c :: rest).length - (rest.length + 2) = pre.length := by simp
    have hrotated : rotateLast (rest.length + 2) 1 (pre ++ b :: c :: rest) = pre ++ c :: (rest ++ [b]) := by
      rw [rotateLast_append (by simp), List.rotate_cons_succ, List.rotate_zero, List.cons_append]
    rw [ends_represents_iff (rlrot_ends h), hrotated, hlen]
    simp [eq_comm]

theorem rrrot_iff (h : d.Represents xs) (hn : n ≤ xs.length) :
    (Ends (d.rrrotUnlocked n) fun r => r.Represents (rotateLast n (n - 1) xs)) ↔
      n ≤ 1 ∨ xs[xs.length - n]? = xs[xs.length - 1]? := by
  rcases Nat.lt_or_ge n 2 with hone | htwo
  · rw [Deque.rrrotUnlocked, if_pos (by omega), rotateLast_of_le_one (by omega)]
    exact iff_of_true (Ends.pure h) (.inl (by omega))
  · obtain ⟨n, rfl⟩ := Nat.exists_eq_add_of_le' htwo
    obtain ⟨pre, b, mid, z, rfl, rfl⟩ := exists_ends hn
    have hlen : (pre ++ b :: (mid ++ [z])).length - (mid.length + 2) = pre.length := by simp
    have hrotated : rotateLast (mid.length + 2) (mid.length + 1) (pre ++ b :: (mid ++ [z])) = pre ++ z :: b :: mid := by
      rw [rotateLast_append (by simp), show b :: (mid ++ [z]) = (b :: mid) ++ [z] by simp,
        show mid.length + 1 = (b :: mid).length by simp, List.rotate_append_length_eq]
      simp
    rw [ends_represents_iff (rrrot_ends h), hlen]
    change rotateLast (mid.length + 2) (mid.length + 1) _ = _ ↔ _
    rw [hrotated]
    simp [eq_comm]

/-- The rotations to the left and to the right undo each other. -/
theorem rotate_inverse (h : d.Represents xs) (hn : n ≤ xs.length) :
    (Ends (d.llrotUnlocked n >>= fun r => r.lrrotUnlocked n) fun r => r.Represents xs) ∧
    (Ends (d.lrrotUnlocked n >>= fun r => r.llrotUnlocked n) fun r => r.Represents xs) ∧
    (Ends (d.rlrotUnlocked n >>= fun r => r.rrrotUnlocked n) fun r => r.Represents xs) ∧
    (Ends (d.rrrotUnlocked n >>= fun r => r.rlrotUnlocked n) fun r => r.Represents xs) := by
  rcases Nat.lt_or_ge n 2 with hone | htwo
  · have hle : n ≤ 1 := by omega
    have hsame : Ends (some d) fun r => r.Represents xs := Ends.pure h
    rw [Deque.llrotUnlocked, Deque.lrrotUnlocked, Deque.rlrotUnlocked, Deque.rrrotUnlocked, if_pos hle, if_pos hle,
      if_pos hle, if_pos hle, some_bind, some_bind, some_bind, some_bind, Deque.llrotUnlocked, Deque.lrrotUnlocked,
      Deque.rlrotUnlocked, Deque.rrrotUnlocked, if_pos hle, if_pos hle, if_pos hle, if_pos hle]
    exact ⟨hsame, hsame, hsame, hsame⟩
  · obtain ⟨n, rfl⟩ := Nat.exists_eq_add_of_le' htwo
    refine ⟨?_, ?_, ?_, ?_⟩
    · obtain ⟨a, mid, b, post, rfl, rfl⟩ := exists_first_and_last hn
      exact Ends.bind (llrot_ends h) fun r hr => lrrot_ends hr
    · obtain ⟨init, c, b, post, rfl, rfl⟩ := exists_last_two hn
      exact Ends.bind (lrrot_ends h) fun r hr => llrot_ends hr
    · obtain ⟨pre, b, c, rest, rfl, rfl⟩ := exists_first_two hn
      exact Ends.bind (rlrot_ends h) fun r hr => rrrot_ends hr
    · obtain ⟨pre, b, mid, z, rfl, rfl⟩ := exists_ends hn
      exact Ends.bind (rrrot_ends h) fun r hr => rlrot_ends hr

/-- Each rotation of `n` items does what it should exactly if the item that it leaves out does not matter. -/
theorem deque_rotate_iff (h : d.Represents xs) (hn : n ≤ xs.length) :
    ((Ends (d.llrotUnlocked n) fun r => r.Represents (rotateFirst n 1 xs)) ↔ n ≤ 1 ∨ xs[0]? = xs[n - 1]?) ∧
    ((Ends (d.lrrotUnlocked n) fun r => r.Represents (rotateFirst n (n - 1) xs)) ↔ n ≤ 1 ∨ xs[n - 2]? = xs[n - 1]?) ∧
    ((Ends (d.rlrotUnlocked n) fun r => r.Represents (rotateLast n 1 xs)) ↔
      n ≤ 1 ∨ xs[xs.length - n]? = xs[xs.length - n + 1]?) ∧
    ((Ends (d.rrrotUnlocked n) fun r => r.Represents (rotateLast n (n - 1) xs)) ↔
      n ≤ 1 ∨ xs[xs.length - n]? = xs[xs.length - 1]?) ∧
    (Ends (d.llrotUnlocked n >>= fun r => r.lrrotUnlocked n) fun r => r.Represents xs) ∧
    (Ends (d.lrrotUnlocked n >>= fun r => r.llrotUnlocked n) fun r => r.Represents xs) ∧
    (Ends (d.rlrotUnlocked n >>= fun r => r.rrrotUnlocked n) fun r => r.Represents xs) ∧
    (Ends (d.rrrotUnlocked n >>= fun r => r.rlrotUnlocked n) fun r => r.Represents xs) :=
  ⟨llrot_iff h hn, lrrot_iff h hn, rlrot_iff h hn, rrrot_iff h hn, rotate_inverse h hn⟩

/-- Five items, the first and the third of which are the same, rotate left as they should. -/
theorem deque_rotate_same : ∃ d : Deque ℕ, (Deque.empty 2).pushAll [10, 20, 10, 40, 50] = some d ∧
    Ends (d.llrotUnlocked 3) fun r => r.Represents [20, 10, 10, 40, 50] := by
  obtain ⟨d, hd, hrep⟩ := pushAll_ends (empty_represents Nat.two_pos) [10, 20, 10, 40, 50]
  exact ⟨d, hd, (deque_rotate_iff hrep (n := 3) (by decide)).1.mpr (.inr rfl)⟩

/-- `deque({ 10, 20, 30, 40, 50 }).llrot(3)` rotates two items only. -/
theorem deque_rotate_counterexample :
    ∃ d : Deque ℕ, (Deque.empty 62).pushAll [10, 20, 30, 40, 50] = some d ∧ d.Represents [10, 20, 30, 40, 50] ∧
      (d.llrotUnlocked 3).bind Deque.listing = some [20, 10, 30, 40, 50] ∧
      ¬ Ends (d.llrotUnlocked 3) fun r => r.Represents (rotateFirst 3 1 [10, 20, 30, 40, 50]) := by
  obtain ⟨d, hd, hrep⟩ := pushAll_ends (empty_represents (show 0 < 62 by decide)) [10, 20, 30, 40, 50]
  have hrun : (((Deque.empty 62).pushAll [10, 20, 30, 40, 50]).bind fun d => d.llrotUnlocked 3).bind Deque.listing =
      some [20, 10, 30, 40, 50] := by decide
  rw [hd, Option.bind_some] at hrun
  refine ⟨d, hd, hrep, hrun, ?_⟩
  rintro ⟨r, hr, hrotated⟩
  rw [hr, Option.bind_some, listing_eq hrotated] at hrun
  exact absurd hrun (by decide)

end Rotate

end Deemon.Collections
