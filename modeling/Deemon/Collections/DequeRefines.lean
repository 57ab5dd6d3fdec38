import Deemon.Collections.Deque
import Deemon.Lib.Blocks

/-!
# Deques refine lists

The items of a deque are a window of the concatenation of its buckets. Pushing and popping at both ends, reading and
writing a position, and copying keep the invariant of `struct Deque` (`Deque.Ok`) and do to this window what they
should do to a list. Insertion and removal do so at both ends only.
-/

namespace Deemon.Collections

open Deemon.Run Deemon.Blocks

variable {α : Type} {d : Deque α} {xs : List α} {x : α}

/-! ### The invariant -/

/-- What the comments of `struct Deque` promise. -/
structure Deque.Ok (d : Deque α) : Prop where
  bucketSz : 0 < d.dBucketSz
  headIdx : d.dHeadIdx < d.dBucketSz
  headUse : d.dHeadUse ≤ d.dBucketSz
  tailSz : d.dTailSz ≤ d.dBucketSz
  buckets : Uniform d.dBucketSz d.dChain
  tail : d.dTailSz = 0 ↔ d.dChain.length ≤ 1
  empty : d.dChain.length = 0 → d.dSize = 0 ∧ d.dHeadIdx = 0 ∧ d.dHeadUse = 0
  single : d.dChain.length = 1 → 0 < d.dHeadUse ∧ d.dHeadIdx + d.dHeadUse ≤ d.dBucketSz ∧ d.dSize = d.dHeadUse
  many : ∀ n, d.dChain.length = n + 2 → 0 < d.dHeadUse ∧ d.dHeadIdx + d.dHeadUse = d.dBucketSz ∧
    d.dSize = d.dHeadUse + n * d.dBucketSz + d.dTailSz

/-- The cells in use, front to back. -/
def Deque.cells (d : Deque α) : List (Option α) := window d.dChain.flatten d.dHeadIdx d.dSize

/-- The deque is in order and holds the items `xs`. -/
structure Deque.Represents (d : Deque α) (xs : List α) : Prop where
  ok : d.Ok
  cells : d.cells = xs.map some

theorem Deque.Ok.length_flatten (h : d.Ok) : d.dChain.flatten.length = d.dChain.length * d.dBucketSz :=
  h.buckets.length_flatten

/-- The chain is empty, one bucket, or a head, full buckets and a tail. -/
theorem length_cases (chain : List (DequeBucket α)) :
    chain.length = 0 ∨ chain.length = 1 ∨ ∃ n, chain.length = n + 2 := by
  rcases Nat.lt_or_ge chain.length 2 with h | h
  · omega
  · exact Or.inr (Or.inr ⟨chain.length - 2, by omega⟩)

/-- The cells in use are cells of the buckets. -/
theorem Deque.Ok.fits (h : d.Ok) : d.dHeadIdx + d.dSize ≤ d.dChain.flatten.length := by
  rw [h.length_flatten]
  rcases length_cases d.dChain with hlen | hlen | ⟨n, hlen⟩
  · have := h.empty hlen
    omega
  · have := h.single hlen
    rw [hlen]
    omega
  · have hmany := h.many n hlen
    have htail := h.tailSz
    rw [hlen, Nat.add_mul]
    omega

theorem Deque.Represents.length (h : d.Represents xs) : xs.length = d.dSize := by
  have hlen := congrArg List.length h.cells
  rw [Deque.cells, length_window h.ok.fits, List.length_map] at hlen
  exact hlen.symm

theorem Deque.Ok.of_size_eq_zero (h : d.Ok) (hsize : d.dSize = 0) : d.dChain.length = 0 := by
  rcases length_cases d.dChain with hlen | hlen | ⟨n, hlen⟩
  · exact hlen
  · have := h.single hlen
    omega
  · have := h.many n hlen
    omega

/-- The item at position `i` is in a cell of the buckets. -/
theorem Deque.Represents.getElem? (h : d.Represents xs) {i : ℕ} (hi : xs[i]? = some x) :
    d.dChain.flatten[d.dHeadIdx + i]? = some (some x) := by
  have hlt : i < d.dSize := by
    rw [← h.length]
    exact (List.getElem?_eq_some_iff.mp hi).1
  have hcell : d.cells[i]? = (xs.map some)[i]? := by rw [h.cells]
  rwa [Deque.cells, getElem?_window hlt, List.getElem?_map, hi] at hcell

/-! ### Cells -/

theorem Deque.read_eq (hb : Uniform d.dBucketSz d.dChain) {b c : ℕ} (hc : c < d.dBucketSz)
    (hcell : d.dChain.flatten[b * d.dBucketSz + c]? = some (some x)) : d.read b c = some x := by
  have hlt := (List.getElem?_eq_some_iff.mp hcell).1
  rw [hb.length_flatten] at hlt
  have hblen : b < d.dChain.length := by
    by_contra hge
    have hmul := Nat.mul_le_mul_right d.dBucketSz (not_lt.mp hge)
    omega
  have hbucket : d.dChain[b]? = some d.dChain[b] := List.getElem?_eq_getElem hblen
  rw [hb.getElem?_flatten hbucket hc] at hcell
  unfold Deque.read
  rw [hbucket]
  dsimp only
  rw [hcell]
  rfl

theorem Deque.write_eq (hb : Uniform d.dBucketSz d.dChain) {b c : ℕ} (hblen : b < d.dChain.length)
    (hc : c < d.dBucketSz) (x : α) :
    ∃ chain, d.write b c x = some { d with dChain := chain } ∧ Uniform d.dBucketSz chain ∧
      chain.length = d.dChain.length ∧
      chain.flatten = d.dChain.flatten.set (b * d.dBucketSz + c) (some x) := by
  have hbucket : d.dChain[b]? = some d.dChain[b] := List.getElem?_eq_getElem hblen
  have hlen : d.dChain[b].length = d.dBucketSz := hb _ (List.getElem_mem hblen)
  refine ⟨d.dChain.set b (d.dChain[b].set c (some x)), ?_, hb.set (by rw [List.length_set, hlen]) b, List.length_set,
    hb.flatten_set hbucket hc (some x)⟩
  unfold Deque.write
  rw [hbucket]
  dsimp only
  rw [if_pos (by omega)]

theorem length_tryNewBucket (n : ℕ) : (tryNewBucket n : DequeBucket α).length = n := List.length_replicate

/-! ### Pushing -/

theorem window_push_front {flat : List (Option α)} {start len : ℕ} (h : start < flat.length) (x : α) :
    window (flat.set start (some x)) start (len + 1) = some x :: window flat (start + 1) len := by
  rw [window_succ_left (by rw [List.getElem?_set_self h]), window_set_of_out (by omega)]

theorem window_push_back {flat : List (Option α)} {start len : ℕ} (h : start + len < flat.length) (x : α) :
    window (flat.set (start + len) (some x)) start (len + 1) = window flat start len ++ [some x] := by
  rw [window_succ_right (by rw [List.getElem?_set_self h]), window_set_of_out (by omega)]

/-- The first bucket is used from its middle on. -/
theorem pushFirst_represents (hbsz : 0 < d.dBucketSz) (hsize : d.dSize = 0) (htail : d.dTailSz = 0) (x : α) :
    Ends (Deque.write { d with
      dChain := [tryNewBucket d.dBucketSz]
      dHeadIdx := d.dBucketSz / 2
      dHeadUse := 1
      dSize := d.dSize + 1 } 0 (d.dBucketSz / 2) x) fun r => r.Represents [x] := by
  have hmid : d.dBucketSz / 2 < d.dBucketSz := Nat.div_lt_self hbsz (by decide)
  have hnew : Uniform d.dBucketSz [(tryNewBucket d.dBucketSz : DequeBucket α)] := fun k hk => by
    rw [List.mem_singleton.mp hk, length_tryNewBucket]
  obtain ⟨chain, hw, hb, hlen, hflat⟩ := Deque.write_eq (d := { d with
    dChain := [tryNewBucket d.dBucketSz]
    dHeadIdx := d.dBucketSz / 2
    dHeadUse := 1
    dSize := d.dSize + 1 }) hnew (b := 0) (by simp) hmid x
  rw [hw]
  refine Ends.pure ⟨⟨hbsz, hmid, hbsz, ?_, hb, ?_, ?_, ?_, ?_⟩, ?_⟩
  all_goals dsimp only [List.length_singleton] at *
  · omega
  · omega
  · omega
  · omega
  · omega
  · rw [Deque.cells]
    dsimp only
    rw [hflat, hsize, Nat.zero_mul, Nat.zero_add, window_push_front ?_ x]
    · rfl
    · rw [hnew.length_flatten, List.length_singleton]
      omega

theorem pushFront_ends (h : d.Represents xs) (x : α) :
    Ends (d.pushFrontUnlocked x) fun r => r.Represents (x :: xs) := by
  have hok := h.ok
  have hbsz := hok.bucketSz
  have hidx := hok.headIdx
  have htailSz := hok.tailSz
  have htail := hok.tail
  have hfits := hok.fits
  have hcells := h.cells
  rw [Deque.cells] at hcells
  unfold Deque.pushFrontUnlocked
  rw [assert_of hidx, some_bind, assert_of hok.headUse, some_bind, assert_of hok.tailSz, some_bind]
  by_cases hzero : d.dHeadIdx ≠ 0
  · rw [if_pos hzero]
    have hchain : 0 < d.dChain.length := by
      rcases Nat.eq_zero_or_pos d.dChain.length with hlen | hlen
      · exact absurd (hok.empty hlen).2.1 hzero
      · exact hlen
    obtain ⟨chain, hw, hb, hlen, hflat⟩ := Deque.write_eq (d := { d with
      dHeadIdx := d.dHeadIdx - 1
      dSize := d.dSize + 1
      dHeadUse := d.dHeadUse + 1 }) hok.buckets (b := 0) hchain (c := d.dHeadIdx - 1) (by dsimp only; omega) x
    rw [hw]
    dsimp only at hb hlen hflat
    refine Ends.pure ⟨⟨hbsz, ?_, ?_, htailSz, hb, ?_, ?_, ?_, ?_⟩, ?_⟩
    all_goals dsimp only
    · omega
    · rcases length_cases d.dChain with hlen | hlen | ⟨n, hlen⟩
      · omega
      · have := hok.single hlen
        omega
      · have := hok.many n hlen
        omega
    · rw [hlen, htail]
    · omega
    · intro h1
      have := hok.single (hlen ▸ h1)
      omega
    · intro n hn
      have := hok.many n (hlen ▸ hn)
      omega
    · rw [Deque.cells]
      dsimp only
      rw [hflat, Nat.zero_mul, Nat.zero_add, window_push_front (by omega), Nat.sub_add_cancel (by omega), hcells]
      rfl
  · have hzero' : d.dHeadIdx = 0 := not_not.mp hzero
    rw [if_neg hzero]
    by_cases hchain : d.dChain ≠ []
    · have hpos := List.length_pos_iff.mpr hchain
      have hsingle : d.dChain.length = 1 → d.dSize ≤ d.dBucketSz := fun h1 => by
        have := hok.single h1
        omega
      rw [if_pos hchain, assert_of hsingle, some_bind]
      have hnew : Uniform d.dBucketSz (tryNewBucket d.dBucketSz :: d.dChain) :=
        Uniform.cons (length_tryNewBucket _) hok.buckets
      obtain ⟨chain, hw, hb, hlen, hflat⟩ := Deque.write_eq (d := { d with
        dChain := tryNewBucket d.dBucketSz :: d.dChain
        dHeadIdx := d.dBucketSz - 1
        dHeadUse := 1
        dTailSz := if d.dChain.length = 1 then d.dSize else d.dTailSz
        dSize := d.dSize + 1 }) hnew (b := 0) (by simp) (c := d.dBucketSz - 1) (by dsimp only; omega) x
      rw [hw]
      dsimp only at hb hlen hflat
      rw [List.length_cons] at hlen
      refine Ends.pure ⟨⟨hbsz, ?_, hbsz, ?_, hb, ?_, ?_, ?_, ?_⟩, ?_⟩
      all_goals dsimp only
      · omega
      · split <;> omega
      · split
        · have := hok.single ‹_›
          omega
        · omega
      · omega
      · omega
      · intro n hn
        rcases length_cases d.dChain with hlen' | hlen' | ⟨m, hlen'⟩
        · omega
        · obtain rfl : n = 0 := by omega
          have := hok.single hlen'
          rw [if_pos hlen']
          omega
        · obtain rfl : n = m + 1 := by omega
          have := hok.many m hlen'
          rw [if_neg (by omega), Nat.add_mul]
          omega
      · rw [Deque.cells]
        dsimp only
        have hlt : d.dBucketSz - 1 < (tryNewBucket d.dBucketSz :: d.dChain).flatten.length := by
          rw [List.flatten_cons, List.length_append, length_tryNewBucket]
          omega
        have hright := @window_append_right _ (tryNewBucket d.dBucketSz) d.dChain.flatten 0 d.dSize
        rw [length_tryNewBucket, Nat.add_zero] at hright
        rw [hflat, Nat.zero_mul, Nat.zero_add, window_push_front hlt, Nat.sub_add_cancel (by omega),
          List.flatten_cons, hright, ← hzero', hcells]
        rfl
    · have hempty := hok.empty (by rw [not_not.mp hchain]; rfl)
      have htail0 : d.dTailSz = 0 := htail.mpr (by rw [not_not.mp hchain]; exact Nat.zero_le 1)
      obtain rfl : xs = [] := List.eq_nil_of_length_eq_zero (h.length.trans hempty.1)
      rw [if_neg hchain, assert_of hempty.1, some_bind, assert_of htail0, some_bind]
      exact pushFirst_represents hbsz hempty.1 htail0 x

/-- An item in a new bucket behind the others, which are used up to their end. -/
theorem pushBackBucket_ends (h : d.Represents xs) (hfull : d.dHeadIdx + d.dSize = d.dChain.length * d.dBucketSz) (x : α) :
    Ends (d.pushBackBucket x) fun r => r.Represents (xs ++ [x]) := by
  have hok := h.ok
  have hbsz := hok.bucketSz
  have hcells := h.cells
  rw [Deque.cells] at hcells
  unfold Deque.pushBackBucket
  by_cases hchain : d.dChain = []
  · have hempty := hok.empty (by rw [hchain]; rfl)
    have htail0 : d.dTailSz = 0 := hok.tail.mpr (by rw [hchain]; exact Nat.zero_le 1)
    obtain rfl : xs = [] := List.eq_nil_of_length_eq_zero (h.length.trans hempty.1)
    rw [if_pos hchain, assert_of htail0, some_bind]
    exact pushFirst_represents hbsz hempty.1 htail0 x
  · have hpos := List.length_pos_iff.mpr hchain
    have hnew : Uniform d.dBucketSz (d.dChain ++ [tryNewBucket d.dBucketSz]) :=
      hok.buckets.concat (length_tryNewBucket _)
    obtain ⟨chain, hw, hb, hlen, hflat⟩ := Deque.write_eq (d := { d with
      dChain := d.dChain ++ [tryNewBucket d.dBucketSz]
      dTailSz := 1
      dSize := d.dSize + 1 }) hnew (b := d.dChain.length) (by simp) hbsz x
    rw [if_neg hchain, hw]
    dsimp only at hb hlen hflat
    rw [List.length_append, List.length_singleton] at hlen
    refine Ends.pure ⟨⟨hbsz, hok.headIdx, hok.headUse, hbsz, hb, ?_, ?_, ?_, ?_⟩, ?_⟩
    all_goals dsimp only
    · omega
    · omega
    · omega
    · intro n hn
      rcases length_cases d.dChain with hlen' | hlen' | ⟨m, hlen'⟩
      · omega
      · obtain rfl : n = 0 := by omega
        have := hok.single hlen'
        rw [hlen'] at hfull
        omega
      · obtain rfl : n = m + 1 := by omega
        have := hok.many m hlen'
        rw [hlen', Nat.add_mul] at hfull
        rw [Nat.add_mul]
        omega
    · rw [Deque.cells]
      dsimp only
      have hlt : d.dHeadIdx + d.dSize < (d.dChain ++ [tryNewBucket d.dBucketSz]).flatten.length := by
        rw [hnew.length_flatten, List.length_append, List.length_singleton, Nat.add_mul, hfull]
        omega
      rw [hflat, Nat.add_zero, ← hfull, window_push_back hlt, List.flatten_append, window_append_left hok.fits, hcells,
        List.map_append]
      rfl

theorem pushBack_ends (h : d.Represents xs) (x : α) :
    Ends (d.pushBackUnlocked x) fun r => r.Represents (xs ++ [x]) := by
  have hok := h.ok
  have hbsz := hok.bucketSz
  have htailSz := hok.tailSz
  have htail := hok.tail
  have hfits := hok.fits
  have hcells := h.cells
  have hflatlen := hok.length_flatten
  rw [Deque.cells] at hcells
  unfold Deque.pushBackUnlocked
  rw [assert_of hok.headIdx, some_bind, assert_of hok.headUse, some_bind, assert_of hok.tailSz, some_bind]
  by_cases hmany : 2 ≤ d.dChain.length
  · obtain ⟨n, hn⟩ : ∃ n, d.dChain.length = n + 2 := ⟨d.dChain.length - 2, by omega⟩
    obtain ⟨huse, hhead, hsize⟩ := hok.many n hn
    rw [if_pos hmany]
    by_cases hroom : d.dTailSz < d.dBucketSz
    · -- the tail has room
      have hpos : (d.dChain.length - 1) * d.dBucketSz + d.dTailSz = d.dHeadIdx + d.dSize := by
        rw [show d.dChain.length - 1 = n + 1 by omega, Nat.add_mul]
        omega
      have hlt : d.dHeadIdx + d.dSize < d.dChain.flatten.length := by
        rw [hflatlen, hn, Nat.add_mul]
        omega
      obtain ⟨chain, hw, hb, hlen, hflat⟩ := Deque.write_eq
        (d := { d with dTailSz := d.dTailSz + 1, dSize := d.dSize + 1 }) hok.buckets (b := d.dChain.length - 1)
        (by dsimp only; omega) hroom x
      rw [if_pos hroom, hw]
      dsimp only at hb hlen hflat
      refine Ends.pure ⟨⟨hbsz, hok.headIdx, hok.headUse, hroom, hb, ?_, ?_, ?_, ?_⟩, ?_⟩
      all_goals dsimp only
      · omega
      · omega
      · omega
      · intro m hm
        obtain rfl : m = n := by omega
        omega
      · rw [Deque.cells]
        dsimp only
        rw [hflat, hpos, window_push_back hlt, hcells, List.map_append]
        rfl
    · rw [if_neg hroom]
      refine pushBackBucket_ends h ?_ x
      rw [hn, Nat.add_mul]
      omega
  · rw [if_neg hmany]
    by_cases hchain : d.dChain ≠ []
    · have hlen1 : d.dChain.length = 1 := by
        have := List.length_pos_iff.mpr hchain
        omega
      obtain ⟨huse, hle, hsize⟩ := hok.single hlen1
      have htail0 : d.dTailSz = 0 := htail.mpr (by omega)
      rw [if_pos hchain, assert_of htail0, some_bind, assert_of (by omega), some_bind, assert_of hle, some_bind]
      by_cases hroom : d.dHeadIdx + d.dHeadUse < d.dBucketSz
      · obtain ⟨chain, hw, hb, hlen, hflat⟩ := Deque.write_eq
          (d := { d with dHeadUse := d.dHeadUse + 1, dSize := d.dSize + 1 }) hok.buckets (b := 0)
          (by dsimp only; omega) hroom x
        have hlt : d.dHeadIdx + d.dSize < d.dChain.flatten.length := by
          rw [hflatlen, hlen1]
          omega
        rw [if_pos hroom, hw]
        dsimp only at hb hlen hflat
        refine Ends.pure ⟨⟨hbsz, hok.headIdx, ?_, htailSz, hb, ?_, ?_, ?_, ?_⟩, ?_⟩
        all_goals dsimp only
        · omega
        · rw [hlen, htail]
        · omega
        · omega
        · omega
        · rw [Deque.cells]
          dsimp only
          rw [hflat, Nat.zero_mul, Nat.zero_add, ← hsize, window_push_back hlt, hcells, List.map_append]
          rfl
      · rw [if_neg hroom]
        refine pushBackBucket_ends h ?_ x
        rw [hlen1]
        omega
    · rw [if_neg hchain]
      have hempty := hok.empty (by rw [not_not.mp hchain]; rfl)
      refine pushBackBucket_ends h ?_ x
      rw [not_not.mp hchain, List.length_nil]
      omega

/-! ### Popping -/

theorem decr_of_pos {n : ℕ} (h : 0 < n) : decr n = some (n - 1) := by
  obtain ⟨m, rfl⟩ : ∃ m, n = m + 1 := ⟨n - 1, by omega⟩
  rfl

theorem window_pop_front {flat : List (Option α)} {start len : ℕ} {v : Option α} {l : List (Option α)}
    (h : window flat start (len + 1) = v :: l) : flat[start]? = some v ∧ window flat (start + 1) len = l := by
  have hv : flat[start]? = some v := by
    have h0 := @getElem?_window _ flat start (len + 1) 0 (Nat.zero_lt_succ len)
    rwa [h, Nat.add_zero, eq_comm] at h0
  refine ⟨hv, ?_⟩
  rw [window_succ_left hv, List.cons.injEq] at h
  exact h.2

theorem window_pop_back {flat : List (Option α)} {start len : ℕ} {v : Option α} {l : List (Option α)}
    (hlen : l.length = len) (h : window flat start (len + 1) = l ++ [v]) :
    flat[start + len]? = some v ∧ window flat start len = l := by
  have hv : flat[start + len]? = some v := by
    have h0 := @getElem?_window _ flat start (len + 1) len (Nat.lt_succ_self len)
    rwa [h, ← hlen, List.getElem?_concat_length, hlen, eq_comm] at h0
  refine ⟨hv, ?_⟩
  rw [window_succ_right hv, List.append_left_inj] at h
  exact h

theorem popFront_ends (h : d.Represents (x :: xs)) :
    Ends d.popFrontUnlocked fun r => r.1.Represents xs ∧ r.2 = x := by
  have hok := h.ok
  have hbsz := hok.bucketSz
  have hidx := hok.headIdx
  have htailSz := hok.tailSz
  have htail := hok.tail
  have hfits := hok.fits
  have hsize : d.dSize = xs.length + 1 := h.length.symm
  have hcells := h.cells
  rw [Deque.cells, hsize, List.map_cons] at hcells
  obtain ⟨hcell, hrest⟩ := window_pop_front hcells
  have huse : 0 < d.dHeadUse := by
    rcases length_cases d.dChain with hlen | hlen | ⟨n, hlen⟩
    · have := hok.empty hlen
      omega
    · have := hok.single hlen
      omega
    · have := hok.many n hlen
      omega
  have hread : d.read 0 d.dHeadIdx = some x :=
    Deque.read_eq hok.buckets hidx (by rwa [Nat.zero_mul, Nat.zero_add])
  unfold Deque.popFrontUnlocked
  rw [assert_of (by omega), some_bind, hread, some_bind, decr_of_pos (by omega), some_bind, decr_of_pos huse,
    some_bind]
  by_cases hlast : d.dHeadUse - 1 = 0
  · rw [if_pos hlast]
    rcases length_cases d.dChain with hlen | hlen | ⟨n, hlen⟩
    · have := hok.empty hlen
      omega
    · -- the only bucket
      have hone := hok.single hlen
      have hxs : xs = [] := List.eq_nil_of_length_eq_zero (by omega)
      have htail0 := htail.mpr hlen.le
      rw [assert_of (by omega), some_bind, if_pos hlen]
      refine Ends.pure ⟨⟨⟨hbsz, hbsz, Nat.zero_le _, htailSz, ?_, ?_, ?_, ?_, ?_⟩, ?_⟩, rfl⟩
      all_goals dsimp only
      · exact fun k hk => absurd hk List.not_mem_nil
      · rw [List.length_nil]
        omega
      · omega
      · exact fun h1 => absurd h1 (by simp)
      · exact fun m hm => absurd hm (by simp)
      · rw [hxs, Deque.cells]
        dsimp only
        rw [hsize, hxs]
        rfl
    · -- the next bucket becomes the head
      have hmany := hok.many n hlen
      have hnext : d.dHeadIdx + 1 = d.dBucketSz := by omega
      have htail' : d.dTailSz ≠ 0 := fun h0 => by
        have := htail.mp h0
        omega
      obtain ⟨head, chain, hchain⟩ : ∃ head chain, d.dChain = head :: chain := by
        match h : d.dChain with
        | [] =>
          rw [h, List.length_nil] at hlen
          omega
        | head :: chain => exact ⟨head, chain, rfl⟩
      have hbuckets := hok.buckets
      rw [hchain] at hbuckets hlen
      have hhead : head.length = d.dBucketSz := hbuckets head (List.mem_cons_self ..)
      have hwindow : window chain.flatten 0 xs.length = xs.map some := by
        rw [← hrest, hchain, List.flatten_cons, hnext, ← hhead]
        exact window_append_right.symm
      rw [List.length_cons] at hlen
      rw [assert_of (by rw [hchain, List.length_cons]; omega), some_bind,
        if_neg (by rw [hchain, List.length_cons]; omega), hchain, List.tail_cons, List.length_cons]
      by_cases htwo : chain.length + 1 = 2
      · obtain rfl : n = 0 := by omega
        rw [if_pos htwo, assert_of (by omega), some_bind]
        refine Ends.pure ⟨⟨⟨hbsz, hbsz, htailSz, Nat.zero_le _, hbuckets.of_cons, ?_, ?_, ?_, ?_⟩, ?_⟩, rfl⟩
        all_goals dsimp only
        · omega
        · omega
        · omega
        · omega
        · rw [Deque.cells]
          dsimp only
          rw [hsize, Nat.add_sub_cancel, hwindow]
      · obtain ⟨m, rfl⟩ : ∃ m, n = m + 1 := ⟨n - 1, by omega⟩
        have hsum := hmany.2.2
        rw [Nat.add_mul] at hsum
        rw [if_neg htwo]
        refine Ends.pure ⟨⟨⟨hbsz, hbsz, le_rfl, htailSz, hbuckets.of_cons, ?_, ?_, ?_, ?_⟩, ?_⟩, rfl⟩
        all_goals dsimp only
        · rw [htail, hchain, List.length_cons]
          omega
        · omega
        · omega
        · intro k hk
          obtain rfl : k = m := by omega
          omega
        · rw [Deque.cells]
          dsimp only
          rw [hsize, Nat.add_sub_cancel, hwindow]
  · rw [if_neg hlast]
    have hlt : d.dHeadIdx + 1 < d.dBucketSz := by
      rcases length_cases d.dChain with hlen | hlen | ⟨n, hlen⟩
      · have := hok.empty hlen
        omega
      · have := hok.single hlen
        omega
      · have := hok.many n hlen
        omega
    refine Ends.pure ⟨⟨⟨hbsz, hlt, ?_, htailSz, hok.buckets, htail, ?_, ?_, ?_⟩, ?_⟩, rfl⟩
    all_goals dsimp only
    · have := hok.headUse
      omega
    · intro hlen
      have := hok.empty hlen
      omega
    · intro hlen
      have := hok.single hlen
      omega
    · intro n hn
      have := hok.many n hn
      omega
    · rw [Deque.cells]
      dsimp only
      rw [hsize, Nat.add_sub_cancel, hrest]

theorem popBack_ends (h : d.Represents (xs ++ [x])) :
    Ends d.popBackUnlocked fun r => r.1.Represents xs ∧ r.2 = x := by
  have hok := h.ok
  have hbsz := hok.bucketSz
  have htailSz := hok.tailSz
  have htail := hok.tail
  have hfits := hok.fits
  have hflatlen := hok.length_flatten
  have hsize : d.dSize = xs.length + 1 := by
    rw [← h.length, List.length_append, List.length_singleton]
  have hcells := h.cells
  rw [Deque.cells, hsize, List.map_append, List.map_singleton] at hcells
  obtain ⟨hcell, hrest⟩ := window_pop_back (List.length_map ..) hcells
  unfold Deque.popBackUnlocked
  rcases length_cases d.dChain with hlen | hlen | ⟨n, hlen⟩
  · have := hok.empty hlen
    omega
  · -- one bucket
    obtain ⟨huse, hle, hsum⟩ := hok.single hlen
    have htail0 := htail.mpr hlen.le
    have hread : d.read 0 (d.dHeadIdx + (d.dHeadUse - 1)) = some x := by
      refine Deque.read_eq hok.buckets (by omega) ?_
      rwa [Nat.zero_mul, Nat.zero_add, show d.dHeadUse - 1 = xs.length by omega]
    rw [assert_of (List.length_pos_iff.mp (by omega)), some_bind, if_pos hlen, assert_of (by omega), some_bind,
      assert_of hsum, some_bind, assert_of htail0, some_bind, decr_of_pos (by omega), some_bind, decr_of_pos huse,
      some_bind, hread, some_bind]
    by_cases hlast : d.dHeadUse - 1 = 0
    · rw [if_pos hlast]
      have hxs : xs = [] := List.eq_nil_of_length_eq_zero (by omega)
      refine Ends.pure ⟨⟨⟨hbsz, hbsz, Nat.zero_le _, htailSz, ?_, ?_, ?_, ?_, ?_⟩, ?_⟩, rfl⟩
      all_goals dsimp only
      · exact fun k hk => absurd hk List.not_mem_nil
      · rw [List.length_nil]
        omega
      · omega
      · exact fun h1 => absurd h1 (by simp)
      · exact fun m hm => absurd hm (by simp)
      · rw [hxs, Deque.cells]
        dsimp only
        rw [hsize, hxs]
        rfl
    · rw [if_neg hlast]
      refine Ends.pure ⟨⟨⟨hbsz, hok.headIdx, ?_, htailSz, hok.buckets, htail, ?_, ?_, ?_⟩, ?_⟩, rfl⟩
      all_goals dsimp only
      · omega
      · omega
      · omega
      · omega
      · rw [Deque.cells]
        dsimp only
        rw [hsize, Nat.add_sub_cancel, hrest]
  · -- several buckets
    obtain ⟨huse, hhead, hsum⟩ := hok.many n hlen
    have htail' : 0 < d.dTailSz := by
      refine Nat.pos_of_ne_zero fun h0 => ?_
      have := htail.mp h0
      omega
    have hpos : (d.dChain.length - 1) * d.dBucketSz + (d.dTailSz - 1) = d.dHeadIdx + xs.length := by
      rw [show d.dChain.length - 1 = n + 1 by omega, Nat.add_mul]
      omega
    have hread : d.read (d.dChain.length - 1) (d.dTailSz - 1) = some x :=
      Deque.read_eq hok.buckets (by omega) (by rwa [hpos])
    rw [assert_of (List.length_pos_iff.mp (by omega)), some_bind, if_neg (by omega), assert_of htail'.ne', some_bind,
      decr_of_pos (by omega), some_bind, decr_of_pos htail', some_bind, hread, some_bind]
    by_cases hlast : d.dTailSz - 1 = 0
    · have hdrop : d.dChain.dropLast.length = n + 1 := by
        rw [List.length_dropLast]
        omega
      have hwindow : window d.dChain.dropLast.flatten d.dHeadIdx xs.length = xs.map some := by
        rw [hok.buckets.flatten_dropLast, ← hrest]
        refine window_take ?_
        rw [show d.dChain.length - 1 = n + 1 by omega, Nat.add_mul]
        omega
      rw [if_pos hlast]
      by_cases htwo : d.dChain.length = 2
      · obtain rfl : n = 0 := by omega
        rw [if_pos htwo, assert_of (by omega), some_bind, assert_of hhead, some_bind, assert_of (by omega), some_bind]
        refine Ends.pure ⟨⟨⟨hbsz, hok.headIdx, hok.headUse, Nat.zero_le _, hok.buckets.dropLast, ?_, ?_, ?_, ?_⟩, ?_⟩,
          rfl⟩
        all_goals dsimp only
        · omega
        · omega
        · omega
        · omega
        · rw [Deque.cells]
          dsimp only
          rw [hsize, Nat.add_sub_cancel, hwindow]
      · obtain ⟨m, rfl⟩ : ∃ m, n = m + 1 := ⟨n - 1, by omega⟩
        rw [Nat.add_mul] at hsum
        rw [if_neg htwo]
        refine Ends.pure ⟨⟨⟨hbsz, hok.headIdx, hok.headUse, le_rfl, hok.buckets.dropLast, ?_, ?_, ?_, ?_⟩, ?_⟩, rfl⟩
        all_goals dsimp only
        · omega
        · omega
        · omega
        · intro k hk
          obtain rfl : k = m := by omega
          omega
        · rw [Deque.cells]
          dsimp only
          rw [hsize, Nat.add_sub_cancel, hwindow]
    · rw [if_neg hlast]
      refine Ends.pure ⟨⟨⟨hbsz, hok.headIdx, hok.headUse, ?_, hok.buckets, ?_, ?_, ?_, ?_⟩, ?_⟩, rfl⟩
      all_goals dsimp only
      · omega
      · omega
      · omega
      · omega
      · intro m hm
        obtain rfl : m = n := by omega
        omega
      · rw [Deque.cells]
        dsimp only
        rw [hsize, Nat.add_sub_cancel, hrest]

/-! ### Positions -/

theorem searchRight_eq {bucketSz : ℕ} {b r : ℕ} (hr : 0 < r) (hle : r ≤ b * bucketSz) :
    ∃ p, searchRight bucketSz b r = some p ∧ p.1 < b ∧ p.2 < bucketSz ∧ p.1 * bucketSz + p.2 + r = b * bucketSz := by
  induction b generalizing r with
  | zero => omega
  | succ b ih =>
    rw [Nat.succ_mul] at hle ⊢
    rw [searchRight]
    by_cases hin : r ≤ bucketSz
    · rw [if_pos hin]
      refine ⟨_, rfl, ?_⟩
      dsimp only
      omega
    · rw [if_neg hin]
      obtain ⟨p, hp, hlt, hcell, hsum⟩ := @ih (r - bucketSz) (by omega) (by omega)
      exact ⟨p, hp, by omega, hcell, by omega⟩

theorem searchLeft_eq {bucketSz : ℕ} {n m b index : ℕ} (hm : m ≤ n) (hlt : index < m * bucketSz) :
    ∃ p, searchLeft bucketSz n b index = some p ∧ p.1 ≤ b + m ∧ p.2 < bucketSz ∧
      p.1 * bucketSz + p.2 = (b + 1) * bucketSz + index := by
  induction n generalizing m b index with
  | zero =>
    obtain rfl : m = 0 := by omega
    omega
  | succ n ih =>
    have hpos : 0 < m := Nat.pos_of_ne_zero fun h0 => by
      rw [h0, Nat.zero_mul] at hlt
      omega
    obtain ⟨k, rfl⟩ : ∃ k, m = k + 1 := ⟨m - 1, by omega⟩
    rw [Nat.succ_mul] at hlt
    rw [searchLeft]
    by_cases hin : index < bucketSz
    · rw [if_pos hin]
      refine ⟨_, rfl, ?_⟩
      dsimp only
      omega
    · rw [if_neg hin]
      obtain ⟨p, hp, hle, hcell, hsum⟩ := @ih k (b + 1) (index - bucketSz) (by omega) (by omega)
      refine ⟨p, hp, by omega, hcell, ?_⟩
      rw [hsum, Nat.succ_mul]
      omega

/-- Position `i` is the cell `i` after the first one in use. -/
theorem itemPointer_ends (h : d.Ok) {i : ℕ} (hi : i < d.dSize) :
    Ends (d.itemPointer i) fun p =>
      p.1 < d.dChain.length ∧ p.2 < d.dBucketSz ∧ p.1 * d.dBucketSz + p.2 = d.dHeadIdx + i := by
  have htailSz := h.tailSz
  unfold Deque.itemPointer
  rw [assert_of hi, some_bind]
  rcases length_cases d.dChain with hlen | hlen | ⟨n, hlen⟩
  · have := h.empty hlen
    omega
  · have := h.single hlen
    rw [if_pos (by omega)]
    refine Ends.pure ?_
    dsimp only
    omega
  · obtain ⟨huse, hhead, hsize⟩ := h.many n hlen
    have hmul : (n + 1) * d.dBucketSz = n * d.dBucketSz + d.dBucketSz := Nat.succ_mul ..
    rw [hlen]
    by_cases hin : i < d.dHeadUse
    · rw [if_pos hin]
      refine Ends.pure ?_
      dsimp only
      omega
    · rw [if_neg hin]
      by_cases hright : d.dSize / 2 ≤ i
      · rw [if_pos hright]
        by_cases htail : d.dSize - i ≤ d.dTailSz
        · rw [if_pos htail]
          refine Ends.pure ?_
          dsimp only
          rw [Nat.add_sub_assoc (by decide), hmul]
          omega
        · rw [if_neg htail, Nat.add_sub_assoc (by decide)]
          obtain ⟨p, hp, hlt, hcell, hsum⟩ := @searchRight_eq d.dBucketSz (n + 1) (d.dSize - i - d.dTailSz) (by omega)
            (by omega)
          rw [hp]
          exact Ends.pure ⟨by omega, hcell, by omega⟩
      · rw [if_neg hright]
        obtain ⟨p, hp, hle, hcell, hsum⟩ := @searchLeft_eq d.dBucketSz (n + 2) (n + 1) 0 (i - d.dHeadUse) (by omega)
          (by omega)
        rw [hp]
        exact Ends.pure ⟨by omega, hcell, by omega⟩

theorem item_eq (h : d.Represents xs) {i : ℕ} (hi : xs[i]? = some x) : d.item i = some x := by
  have hlt : i < d.dSize := by
    rw [← h.length]
    exact (List.getElem?_eq_some_iff.mp hi).1
  obtain ⟨p, hp, -, hcell, hsum⟩ := itemPointer_ends h.ok hlt
  unfold Deque.item
  rw [hp, some_bind]
  refine Deque.read_eq h.ok.buckets hcell ?_
  rw [hsum]
  exact h.getElem? hi

theorem mapM_eq_some {β : Type} {f : β → Option α} {l : List β} {r : List α} (h : l.map f = r.map some) :
    l.mapM f = some r := by
  induction l generalizing r with
  | nil =>
    obtain rfl : r = [] := List.map_eq_nil_iff.mp h.symm
    rfl
  | cons b l ih =>
    cases r with
    | nil => exact absurd h (by simp)
    | cons y r =>
      rw [List.map_cons, List.map_cons, List.cons.injEq] at h
      rw [List.mapM_cons, h.1, ih h.2]
      rfl

/-- The positions list the items. -/
theorem listing_eq (h : d.Represents xs) : d.listing = some xs := by
  refine mapM_eq_some (List.ext_getElem? fun i => ?_)
  rw [List.getElem?_map, List.getElem?_map]
  by_cases hi : i < d.dSize
  · have hlen : i < xs.length := by rwa [h.length]
    have hx : xs[i]? = some xs[i] := List.getElem?_eq_getElem hlen
    rw [List.getElem?_range hi, hx, Option.map_some, Option.map_some, item_eq h hx]
  · rw [List.getElem?_eq_none (by rw [List.length_range]; omega), List.getElem?_eq_none (by rw [h.length]; omega)]
    rfl

theorem setitemIndex_ends (h : d.Represents xs) (i : ℕ) (v : α) :
    Ends (d.setitemIndex i v) fun r => r.1.Represents (xs.set i v) := by
  unfold Deque.setitemIndex
  by_cases hi : d.dSize ≤ i
  · rw [if_pos hi]
    refine Ends.pure ?_
    rw [List.set_eq_of_length_le (by rwa [h.length])]
    exact h
  · have hlt : i < d.dSize := not_le.mp hi
    have hxlen : i < xs.length := by rwa [h.length]
    have hx : xs[i]? = some xs[i] := List.getElem?_eq_getElem hxlen
    obtain ⟨p, hp, hblen, hcell, hsum⟩ := itemPointer_ends h.ok hlt
    have hread : d.read p.1 p.2 = some xs[i] :=
      Deque.read_eq h.ok.buckets hcell (by rw [hsum]; exact h.getElem? hx)
    obtain ⟨chain, hw, hb, hlen, hflat⟩ := Deque.write_eq h.ok.buckets hblen hcell v
    rw [if_neg hi, hp, some_bind, hread, some_bind, hw, some_bind]
    have hok := h.ok
    refine Ends.pure ⟨⟨hok.bucketSz, hok.headIdx, hok.headUse, hok.tailSz, hb, ?_, ?_, ?_, ?_⟩, ?_⟩
    · exact hlen ▸ hok.tail
    · exact hlen ▸ hok.empty
    · exact hlen ▸ hok.single
    · exact hlen ▸ hok.many
    · have hcells := h.cells
      rw [Deque.cells] at hcells
      rw [Deque.cells]
      dsimp only
      rw [hflat, hsum, window_set (by omega), hcells, Nat.add_sub_cancel_left, List.map_set]

/-! ### Whole deques -/

theorem mapM_id_ends {l : List (Option α)} (h : ∀ c ∈ l, c.isSome) : Ends (l.mapM id) fun items => items.map some = l := by
  induction l with
  | nil => exact Ends.pure rfl
  | cons c l ih =>
    obtain ⟨v, rfl⟩ := Option.isSome_iff_exists.mp (h c (List.mem_cons_self ..))
    obtain ⟨items, hitems, hmap⟩ := ih fun k hk => h k (List.mem_cons_of_mem _ hk)
    rw [List.mapM_cons, hitems]
    refine Ends.pure ?_
    rw [List.map_cons, hmap]

/-- The copy of a bucket has the same items in use. -/
theorem copyBucket_ends {bucket : DequeBucket α} {n start used : ℕ} (hlen : bucket.length = n) (hfit : start + used ≤ n)
    (h : ∀ c ∈ window bucket start used, c.isSome) :
    Ends (copyBucket bucket n start used) fun r => r.length = n ∧ window r start used = window bucket start used := by
  unfold copyBucket
  rw [assert_of hfit, some_bind]
  refine Ends.bind (mapM_id_ends h) fun items hitems => ?_
  have hmap : items.map some = window bucket start used := hitems
  have hused : (items.map some).length = used := by rw [hmap, length_window (by omega)]
  refine Ends.pure ⟨?_, ?_⟩
  · rw [List.length_append, List.length_append, List.length_replicate, List.length_replicate, hused]
    omega
  · have hright := @window_append_right _ (List.replicate start none) (items.map some) 0 used
    rw [List.length_replicate, Nat.add_zero] at hright
    rw [window_append_left (by rw [List.length_append, List.length_replicate, hused]), hright, window_all hused, hmap]

/-- The copy of the buckets after the head, of which all but the last are full. -/
theorem copyBuckets_ends {chain : List (DequeBucket α)} {n tailSz : ℕ} (hb : Uniform n chain) (htail : tailSz ≤ n)
    (hne : chain ≠ []) (h : ∀ c ∈ window chain.flatten 0 ((chain.length - 1) * n + tailSz), c.isSome) :
    Ends (copyBuckets n tailSz chain) fun r => Uniform n r ∧ r.length = chain.length ∧
      window r.flatten 0 ((chain.length - 1) * n + tailSz) =
        window chain.flatten 0 ((chain.length - 1) * n + tailSz) := by
  induction chain with
  | nil => exact absurd rfl hne
  | cons iter chain ih =>
    have hiter : iter.length = n := hb iter (List.mem_cons_self ..)
    rw [copyBuckets]
    rcases List.eq_nil_or_concat' chain with rfl | hcons
    · -- the tail
      rw [if_pos rfl]
      rw [List.length_singleton, Nat.sub_self, Nat.zero_mul, Nat.zero_add, List.flatten_singleton] at h ⊢
      refine Ends.bind (copyBucket_ends hiter (by omega) h) fun copy hcopy => ?_
      refine Ends.pure ⟨?_, rfl, ?_⟩
      · exact fun k hk => by rw [List.mem_singleton.mp hk, hcopy.1]
      · rw [List.flatten_singleton, hcopy.2]
    · -- a full bucket
      have hne' : chain ≠ [] := by
        obtain ⟨init, last, rfl⟩ := hcons
        exact List.concat_ne_nil last init
      have hpos := List.length_pos_iff.mpr hne'
      have hsplit : ∀ (b : DequeBucket α) (flat : List (Option α)), b.length = n →
          window (b ++ flat) 0 ((chain.length + 1 - 1) * n + tailSz) =
            window b 0 n ++ window flat 0 ((chain.length - 1) * n + tailSz) := fun b flat hblen => by
        have hmul : (chain.length + 1 - 1) * n = n + (chain.length - 1) * n := by
          obtain ⟨m, hm⟩ : ∃ m, chain.length = m + 1 := ⟨chain.length - 1, by omega⟩
          rw [hm, Nat.add_sub_cancel, Nat.add_sub_cancel, Nat.succ_mul, Nat.add_comm]
        rw [hmul, Nat.add_assoc, window_append (by omega)]
      rw [List.length_cons, List.flatten_cons, hsplit iter _ hiter] at h
      rw [if_neg hne', List.length_cons, List.flatten_cons, hsplit iter _ hiter]
      refine Ends.bind (copyBucket_ends hiter (by omega) fun c hc => h c (List.mem_append_left _ hc)) fun copy hcopy => ?_
      refine Ends.bind (ih hb.of_cons hne' fun c hc => h c (List.mem_append_right _ hc)) fun copies hcopies => ?_
      refine Ends.pure ⟨Uniform.cons hcopy.1 hcopies.1, ?_, ?_⟩
      · rw [List.length_cons, hcopies.2.1]
      · rw [List.flatten_cons, hsplit copy _ hcopy.1, hcopy.2, hcopies.2.2]

theorem isSome_of_mem_map {c : Option α} (h : c ∈ xs.map some) : c.isSome := by
  obtain ⟨v, -, rfl⟩ := List.mem_map.mp h
  rfl

theorem copy_ends (h : d.Represents xs) : Ends d.copy fun r => r.Represents xs := by
  have hok := h.ok
  have htailSz := hok.tailSz
  have hcells := h.cells
  rw [Deque.cells] at hcells
  unfold Deque.copy
  cases hchain : d.dChain with
  | nil =>
    refine Ends.pure ?_
    have hd : { d with dChain := [] } = d := by rw [← hchain]
    rwa [hd]
  | cons head chain =>
    have hb := hok.buckets
    rw [hchain] at hb hcells
    have hhead : head.length = d.dBucketSz := hb head (List.mem_cons_self ..)
    have hsome : ∀ c ∈ window (head :: chain).flatten d.dHeadIdx d.dSize, c.isSome := fun c hc =>
      isSome_of_mem_map (hcells ▸ hc)
    dsimp only
    rcases length_cases d.dChain with hlen | hlen | ⟨n, hlen⟩
    · rw [hchain] at hlen
      exact absurd hlen (Nat.succ_ne_zero _)
    · obtain ⟨huse, hle, hsize⟩ := hok.single hlen
      rw [hchain, List.length_cons] at hlen
      obtain rfl : chain = [] := List.eq_nil_of_length_eq_zero (by omega)
      rw [List.flatten_singleton, hsize] at hsome hcells
      refine Ends.bind (copyBucket_ends hhead hle hsome) fun copy hcopy => ?_
      rw [copyBuckets, some_bind]
      refine Ends.pure ⟨⟨hok.bucketSz, hok.headIdx, hok.headUse, hok.tailSz, ?_, ?_, ?_, ?_, ?_⟩, ?_⟩
      · exact fun k hk => by rw [List.mem_singleton.mp hk, hcopy.1]
      · rw [hok.tail, hchain]
        rfl
      · exact fun h0 => absurd h0 (by simp)
      · exact fun _ => ⟨huse, hle, hsize⟩
      · exact fun m hm => absurd hm (by simp)
      · rw [Deque.cells]
        dsimp only
        rw [List.flatten_singleton, hsize, hcopy.2, hcells]
    · obtain ⟨huse, hheadUse, hsize⟩ := hok.many n hlen
      rw [hchain, List.length_cons] at hlen
      have hrest : chain.length - 1 = n := by omega
      have hne : chain ≠ [] := List.length_pos_iff.mp (by omega)
      have hsplit : ∀ (b : DequeBucket α) (flat : List (Option α)), b.length = d.dBucketSz →
          window (b ++ flat) d.dHeadIdx d.dSize =
            window b d.dHeadIdx d.dHeadUse ++ window flat 0 ((chain.length - 1) * d.dBucketSz + d.dTailSz) :=
        fun b flat hblen => by rw [hsize, hrest, Nat.add_assoc, window_append (by omega)]
      rw [List.flatten_cons, hsplit head _ hhead] at hsome hcells
      refine Ends.bind (copyBucket_ends hhead (by omega) fun c hc => hsome c (List.mem_append_left _ hc))
        fun copy hcopy => ?_
      refine Ends.bind (copyBuckets_ends hb.of_cons htailSz hne fun c hc => hsome c (List.mem_append_right _ hc))
        fun copies hcopies => ?_
      have hlens : (copy :: copies).length = d.dChain.length := by
        rw [hchain, List.length_cons, List.length_cons, hcopies.2.1]
      refine Ends.pure ⟨⟨hok.bucketSz, hok.headIdx, hok.headUse, hok.tailSz, Uniform.cons hcopy.1 hcopies.1, ?_, ?_, ?_, ?_⟩,
        ?_⟩
      · exact hlens ▸ hok.tail
      · exact hlens ▸ hok.empty
      · exact hlens ▸ hok.single
      · exact hlens ▸ hok.many
      · rw [Deque.cells]
        dsimp only
        rw [List.flatten_cons, hsplit copy _ hcopy.1, hcopy.2, hcopies.2.2, hcells]

theorem empty_represents {n : ℕ} (hn : 0 < n) : (Deque.empty n : Deque α).Represents [] := by
  refine ⟨⟨hn, hn, Nat.zero_le _, Nat.zero_le _, fun k hk => absurd hk List.not_mem_nil, ?_, ?_, ?_, ?_⟩, rfl⟩
  · exact ⟨fun _ => Nat.zero_le 1, fun _ => rfl⟩
  · exact fun _ => ⟨rfl, rfl, rfl⟩
  · exact fun h1 => absurd h1 (by simp [Deque.empty])
  · exact fun m hm => absurd hm (by simp [Deque.empty])

theorem pushAll_ends (h : d.Represents xs) (seq : List α) : Ends (d.pushAll seq) fun r => r.Represents (xs ++ seq) := by
  unfold Deque.pushAll
  induction seq generalizing d xs with
  | nil => exact Ends.pure (by rwa [List.append_nil])
  | cons y seq ih =>
    rw [List.foldlM_cons]
    refine Ends.bind (pushBack_ends h y) fun r hr => (ih hr).mono fun r' hr' => ?_
    rwa [List.append_assoc, List.singleton_append] at hr'

end Deemon.Collections
