import Deemon.Collections.BitsetTail
import Deemon.Int.FixedWidth

/-!
# Bitsets built from sequences

`bs_init_fromseq` collects indices of any size in a buffer that grows by doubling. The bits are right as long as
every size that it asks the allocator for is one whose words hold its bits. The rounding to words wraps for the last
seven values of `size_t`, which are reached by a large `minbits`, by a large index, and, in a run that is refused
memory for a doubled size, by doubling the capacity that it got instead. A `minbits` that does not fit `size_t` is
read as 0.
-/

namespace Deemon.Collections

open Deemon.Run Deemon.BitString Deemon.Hybrid Deemon.Int

/-! ### Arguments -/

/-- `DeeObject_AsSize` of an index, an exception for the larger ones. -/
def objectAsSize (v : ℕ) : Option ℕ := if v < 2 ^ 64 then some v else none

/-- `minbits` after `DeeInt_AsSize(minbits_ob, &minbits)`; the inner `none` is the error. -/
def minbitsOf : Option DeeInt → Option (Option ℕ)
  | none => some (some 0)
  | some minbitsOb => do
    let out ← deeIntAsUInt64 minbitsOb
    -- 0 is what was in it before the call
    some (if out.code ≠ 0 then none else some (out.result.getD 0))

/-- `bs_init_fromseq`, with the object for `minbits`. -/
def bsInitFromseqOb (seq : SeqArg) (minbitsOb : Option DeeInt) : Option (Option BitsetObject) := do
  match ← minbitsOf minbitsOb with
  | none => some none
  | some minbits => bsInitFromseq seq minbits

/-! ### Sizes -/

/-- The capacity after an item, or the error. -/
def nextAbits (item : SeqItem) (abits : ℕ) : Option ℕ := do
  let bitno ← item.bitno
  if abits ≤ bitno then growAbits item abits bitno else some abits

/-- The bit counts that an item asks memory for, each with the bits that it has to hold. -/
def itemRequests (item : SeqItem) (abits : ℕ) : List (ℕ × ℕ) :=
  match item.bitno with
  | none => []
  | some bitno =>
    if abits ≤ bitno then
      match newAbits abits bitno with
      | none => []
      | some new => (bitno + 1, new) :: if item.tryRealloc then [] else [(bitno + 1, (bitno + 1) % 2 ^ 64)]
    else []

/-- The same for the items of a sequence. -/
def requests : List SeqItem → BitsetFromseqData → List (ℕ × ℕ)
  | [], _ => []
  | item :: items, me =>
    itemRequests item me.bsfsdAbits ++
      match bitsetFromseqCb me item with
      | some (some me) => requests items me
      | _ => []

/-- The state before the first item. -/
def initData (minbits : ℕ) : BitsetFromseqData := ⟨⟨minbits, bitsetCalloc (initAbits minbits)⟩, initAbits minbits⟩

/-- The bit counts that `bs_init_fromseq` asks memory for. -/
def seqRequests (seq : SeqArg) (minbitsOb : Option DeeInt) : List (ℕ × ℕ) :=
  match minbitsOf minbitsOb with
  | some (some minbits) =>
    (minbits, initAbits minbits) :: if seq.calloc then requests seq.items (initData minbits) else []
  | _ => []

/-! ### What is built -/

/-- A bit count that holds what it has to, and whose words hold its bits. -/
def RequestMet (request : ℕ × ℕ) : Prop := request.1 ≤ request.2 ∧ request.2 ≤ 8 * bitsetLengthof request.2

/-- The bitset of the indices `vs`, with `minbits` bits at least. -/
structure BitsetOf (vs : List ℕ) (minbits : ℤ) (b : BitsetObject) : Prop where
  covers : b.bsNbits ≤ 8 * b.bsBitset.length
  minbits_le : minbits ≤ b.bsNbits
  lt_nbits : ∀ v ∈ vs, v < b.bsNbits
  bits : ∀ i < b.bsNbits, Bits b.bsBitset i ↔ i ∈ vs

/-- The number of a `minbits` argument. -/
def minbitsValue : Option DeeInt → ℤ
  | none => 0
  | some minbitsOb => minbitsOb.toInt

/-- A run is free of faults and of sizes that wrap, and a bitset that it returns is the one of the indices. -/
structure BuildsExactly (seq : SeqArg) (minbitsOb : Option DeeInt) (vs : List ℕ) : Prop where
  sizes : ∀ request ∈ seqRequests seq minbitsOb, RequestMet request
  result : Ends (bsInitFromseqOb seq minbitsOb) fun r => ∀ b, r = some b → BitsetOf vs (minbitsValue minbitsOb) b

/-! ### When it is -/

/-- An index that is larger than all before it, and not below the first capacity. -/
def NewTop (abits : ℕ) (pre : List ℕ) (u : ℕ) : Prop := ∃ p q, pre = p ++ u :: q ∧ abits ≤ u ∧ ∀ x ∈ p, x < u

/-- No growth for `v` asks for one of the last seven sizes: not the one for `v` alone, and not the one that doubles
the capacity for the last index of a prefix. -/
def RoomFor (abits : ℕ) (pre : List ℕ) (v : ℕ) : Prop :=
  v + 8 < 2 ^ 64 ∧ ∀ u, NewTop abits pre u → u < v → ∀ n, newAbits (u + 1) v = some n → n + 7 < 2 ^ 64

/-- There is room for all indices before the first one that does not fit. -/
def SizesFit (minbits : ℕ) (vs : List ℕ) : Prop :=
  minbits + 7 < 2 ^ 64 ∧
  ∀ pre v post, vs = pre ++ v :: post → (∀ x ∈ pre, x + 1 < 2 ^ 64) → v + 1 < 2 ^ 64 →
    RoomFor (initAbits minbits) pre v

/-- The condition for `minbits`. What does not fit `size_t` is 0 instead, which is noticed only if the run fails for
another reason. -/
def ArgumentsFit (n : ℤ) (vs : List ℕ) : Prop :=
  (-2 ^ 63 ≤ n ∧ n < 0) ∨
  (0 ≤ n ∧ n < 2 ^ 64 ∧ SizesFit n.toNat vs) ∨
  (n < -2 ^ 63 ∧ SizesFit 0 vs) ∨
  (2 ^ 64 ≤ n ∧ SizesFit 0 vs ∧ ∃ v ∈ vs, 2 ^ 64 ≤ v + 1)

/-! ### Doubling -/

/-- `d` is the first multiple of `b` by a power of two, modulo `2 ^ 64`, that is larger than `v` or 0. -/
def Doubling (b v d : ℕ) : Prop :=
  ∃ t, 1 ≤ t ∧ d = 2 ^ t * b % 2 ^ 64 ∧ (v < d ∨ d = 0) ∧
    ∀ j, 1 ≤ j → j < t → 2 ^ j * b % 2 ^ 64 ≤ v ∧ 2 ^ j * b % 2 ^ 64 ≠ 0

section Doubling

variable {a b v w d d' n : ℕ}

theorem doubleAbits_rounds (v k b : ℕ) :
    ∃ t, 1 ≤ t ∧ t ≤ k + 1 ∧ doubleAbits v (k + 1) b = 2 ^ t * b % 2 ^ 64 ∧
      (v < 2 ^ t * b % 2 ^ 64 ∨ 2 ^ t * b % 2 ^ 64 = 0 ∨ t = k + 1) ∧
      ∀ j, 1 ≤ j → j < t → 2 ^ j * b % 2 ^ 64 ≤ v ∧ 2 ^ j * b % 2 ^ 64 ≠ 0 := by
  have hshift : ∀ b, b <<< 1 % 2 ^ 64 = 2 ^ 1 * b % 2 ^ 64 := fun b => by rw [Nat.shiftLeft_eq, Nat.mul_comm]
  induction k generalizing b with
  | zero =>
    refine ⟨1, le_rfl, le_rfl, ?_, Or.inr (Or.inr rfl), fun j hj hlt => by omega⟩
    simp only [doubleAbits, hshift, ite_self]
  | succ k ih =>
    rw [doubleAbits, hshift]
    by_cases hmore : 2 ^ 1 * b % 2 ^ 64 ≤ v ∧ 2 ^ 1 * b % 2 ^ 64 ≠ 0
    · rw [if_pos hmore]
      obtain ⟨t, ht, htk, heq, hend, hall⟩ := ih (2 ^ 1 * b % 2 ^ 64)
      have hstep : ∀ j, 2 ^ j * (2 ^ 1 * b % 2 ^ 64) % 2 ^ 64 = 2 ^ (j + 1) * b % 2 ^ 64 := fun j => by
        rw [Nat.mul_mod_mod, ← Nat.mul_assoc, ← pow_add]
      rw [hstep] at heq hend
      refine ⟨t + 1, by omega, by omega, heq, hend.imp_right (Or.imp_right fun h => by omega), fun j hj hlt => ?_⟩
      obtain rfl | ⟨i, rfl⟩ : j = 1 ∨ ∃ i, j = i + 1 := by
        rcases Nat.exists_eq_add_of_le hj with ⟨i, rfl⟩
        exact Or.inr ⟨i, by omega⟩
      · exact hmore
      · cases i with
        | zero => exact hmore
        | succ i =>
          rw [← hstep]
          exact hall (i + 1) (by omega) (by omega)
    · rw [if_neg hmore]
      refine ⟨1, le_rfl, by omega, rfl, ?_, fun j hj hlt => by omega⟩
      rw [not_and_or, not_le, not_not] at hmore
      exact hmore.imp_right Or.inl

theorem doubling_doubleAbits (b v : ℕ) : Doubling b v (doubleAbits v 65 b) := by
  obtain ⟨t, ht, -, heq, hend, hall⟩ := doubleAbits_rounds v 64 b
  refine ⟨t, ht, heq, ?_, hall⟩
  rw [heq]
  rcases hend with hlt | hzero | rfl
  · exact Or.inl hlt
  · exact Or.inr hzero
  · refine Or.inr ?_
    rw [show 2 ^ (64 + 1) * b = 2 ^ 64 * (2 * b) by ring, Nat.mul_mod_right]

theorem Doubling.unique (h : Doubling b v d) (h' : Doubling b v d') : d = d' := by
  obtain ⟨t, ht, rfl, hend, hall⟩ := h
  obtain ⟨t', ht', rfl, hend', hall'⟩ := h'
  rcases lt_trichotomy t t' with hlt | rfl | hlt
  · have hearlier := hall' t ht hlt
    omega
  · rfl
  · have hearlier := hall t' ht' hlt
    omega

/-- Doubling on from where it has stopped for a smaller index. -/
theorem Doubling.trans (h : Doubling b w a) (hw : w < a) (ha : a ≤ v) (h' : Doubling a v d) : Doubling b v d := by
  obtain ⟨t, ht, rfl, -, hall⟩ := h
  obtain ⟨t', ht', rfl, hend, hall'⟩ := h'
  have hstep : ∀ j, 2 ^ j * (2 ^ t * b % 2 ^ 64) % 2 ^ 64 = 2 ^ (t + j) * b % 2 ^ 64 := fun j => by
    rw [Nat.mul_mod_mod, ← Nat.mul_assoc, ← pow_add, Nat.add_comm]
  rw [hstep] at hend ⊢
  refine ⟨t + t', by omega, rfl, hend, fun j hj hlt => ?_⟩
  rcases lt_trichotomy j t with hjt | rfl | hjt
  · have hearlier := hall j hj hjt
    omega
  · omega
  · obtain ⟨i, rfl⟩ : ∃ i, j = t + i := ⟨j - t, by omega⟩
    rw [← hstep]
    exact hall' i (by omega) (by omega)

/-- The same size serves every index below it. -/
theorem Doubling.of_lt (h : Doubling b w d) (hw : w ≤ v) (hv : v < d) : Doubling b v d := by
  obtain ⟨t, ht, rfl, -, hall⟩ := h
  refine ⟨t, ht, rfl, Or.inl hv, fun j hj hlt => ?_⟩
  have hearlier := hall j hj hlt
  omega

/-- Where doubling fails for an index, it fails for the larger ones. -/
theorem Doubling.of_zero (h : Doubling b w 0) (hw : w ≤ v) : Doubling b v 0 := by
  obtain ⟨t, ht, hzero, -, hall⟩ := h
  refine ⟨t, ht, hzero, Or.inr rfl, fun j hj hlt => ?_⟩
  have hearlier := hall j hj hlt
  omega

theorem Doubling.eq (h : Doubling b v d) : doubleAbits v 65 b = d := (doubling_doubleAbits b v).unique h

/-- The new size is the doubled one, or the one for the index. -/
theorem newAbits_cases (hv : v + 1 < 2 ^ 64) :
    (v < doubleAbits v 65 b ∧ newAbits b v = some (doubleAbits v 65 b)) ∨
    (doubleAbits v 65 b = 0 ∧ newAbits b v = some (v + 1)) := by
  unfold newAbits
  dsimp only
  rcases doubleAbits_done v b with hlt | hzero
  · rw [if_neg (not_le.mpr hlt)]
    exact Or.inl ⟨hlt, rfl⟩
  · rw [if_pos (by omega), Nat.mod_eq_of_lt hv, if_neg (by omega)]
    exact Or.inr ⟨hzero, rfl⟩

theorem newAbits_none (hv : v < 2 ^ 64) (hmax : 2 ^ 64 ≤ v + 1) : newAbits b v = none := by
  have hlt : doubleAbits v 65 b < 2 ^ 64 := doubleAbits_lt v 64 b
  unfold newAbits
  dsimp only
  rw [if_pos (by omega), show v + 1 = 2 ^ 64 by omega, Nat.mod_self, if_pos (Nat.zero_le _)]

theorem newAbits_congr (h : doubleAbits v 65 a = doubleAbits v 65 b) : newAbits a v = newAbits b v := by
  unfold newAbits
  rw [h]

/-- A capacity that is `b`, or comes from it by doubling. -/
def From (b a : ℕ) : Prop := a = b ∨ ∃ w, b ≤ w ∧ w < a ∧ Doubling b w a

theorem From.newAbits_eq (h : From b a) (ha : a ≤ v) : newAbits a v = newAbits b v := by
  rcases h with rfl | ⟨w, -, hw, hdouble⟩
  · rfl
  · refine newAbits_congr ?_
    exact (hdouble.trans hw ha (doubling_doubleAbits a v)).eq.symm

theorem From.le (h : From b a) : b ≤ a := by
  rcases h with rfl | ⟨w, hbw, hw, -⟩
  · exact le_rfl
  · omega

/-- A growth by doubling stays with the same capacity, any other makes a new one. -/
theorem From.grow (h : From b a) (ha : a ≤ v) (hv : v + 1 < 2 ^ 64) (hnew : newAbits a v = some n) :
    From b n ∨ n = v + 1 := by
  rw [h.newAbits_eq ha] at hnew
  rcases newAbits_cases (b := b) hv with ⟨hlt, heq⟩ | ⟨-, heq⟩
  · cases hnew.symm.trans heq
    exact Or.inl (Or.inr ⟨v, h.le.trans ha, hlt, doubling_doubleAbits b v⟩)
  · cases hnew.symm.trans heq
    exact Or.inr rfl

/-- Doubling a multiple of 8 does not reach the last seven sizes. -/
theorem newAbits_room (hb : 8 ∣ b) (hv : v + 8 < 2 ^ 64) (hnew : newAbits b v = some n) : n + 7 < 2 ^ 64 := by
  have hv' : v + 1 < 2 ^ 64 := by omega
  rcases newAbits_cases (b := b) hv' with ⟨-, heq⟩ | ⟨-, heq⟩
  · cases hnew.symm.trans heq
    obtain ⟨t, -, hd, -, -⟩ := doubling_doubleAbits b v
    have hlt : doubleAbits v 65 b < 2 ^ 64 := doubleAbits_lt v 64 b
    have hdvd : 8 ∣ doubleAbits v 65 b := by
      rw [hd]
      exact (Nat.dvd_mod_iff ⟨2 ^ 61, by norm_num⟩).mpr (hb.mul_left _)
    omega
  · cases hnew.symm.trans heq
    omega

end Doubling

/-! ### Capacities -/

section Capacities

variable {pre : List ℕ} {m0 a a' u v n : ℕ} {item : SeqItem}

theorem NewTop.append (h : NewTop m0 pre u) (v : ℕ) : NewTop m0 (pre ++ [v]) u := by
  obtain ⟨p, q, rfl, hle, hp⟩ := h
  exact ⟨p, q ++ [v], by simp, hle, hp⟩

theorem newTop_last (hm : m0 ≤ v) (hpre : ∀ x ∈ pre, x < v) : NewTop m0 (pre ++ [v]) v := ⟨pre, [], rfl, hm, hpre⟩

/-- The capacity comes from the first one, or from one for the last index of a prefix. -/
structure Capacity (m0 : ℕ) (pre : List ℕ) (a : ℕ) : Prop where
  le : m0 ≤ a
  lt : ∀ x ∈ pre, x < a
  origin : From m0 a ∨ ∃ u, NewTop m0 pre u ∧ From (u + 1) a

theorem capacity_init (m0 : ℕ) : Capacity m0 [] m0 := ⟨le_rfl, by simp, Or.inl (Or.inl rfl)⟩

/-- Growing from a capacity that a run can have does not reach the last seven sizes if there is room. -/
theorem Capacity.room (h : Capacity m0 pre a) (hm : 8 ∣ m0) (hroom : RoomFor m0 pre v) (ha : a ≤ v)
    (hnew : newAbits a v = some n) : n + 7 < 2 ^ 64 := by
  rcases h.origin with hfrom | ⟨u, htop, hfrom⟩
  · rw [hfrom.newAbits_eq ha] at hnew
    exact newAbits_room hm hroom.1 hnew
  · have hle := hfrom.le
    rw [hfrom.newAbits_eq ha] at hnew
    exact hroom.2 u htop (by omega) n hnew

theorem growAbits_cases (hv : v + 1 < 2 ^ 64) (h : growAbits item a v = some a') :
    newAbits a v = some a' ∨ a' = v + 1 := by
  unfold growAbits at h
  cases hnew : newAbits a v with
  | none =>
    rw [hnew] at h
    exact absurd h (by simp)
  | some n =>
    rw [hnew, some_bind, Nat.mod_eq_of_lt hv] at h
    split_ifs at h
    · exact Or.inl h
    · exact Or.inr (Option.some.inj h).symm

theorem Capacity.next (h : Capacity m0 pre a) (hv : v + 1 < 2 ^ 64) (hitem : item.bitno = some v)
    (hnext : nextAbits item a = some a') : Capacity m0 (pre ++ [v]) a' := by
  have hlt := h.lt
  have hle := h.le
  rw [nextAbits, hitem, some_bind] at hnext
  by_cases hgrow : a ≤ v
  · rw [if_pos hgrow] at hnext
    have hva := lt_growAbits hnext
    have htop : NewTop m0 (pre ++ [v]) v := newTop_last (hle.trans hgrow) fun x hx => (hlt x hx).trans_le hgrow
    have hnewcap : a' = v + 1 → From m0 a' ∨ ∃ u, NewTop m0 (pre ++ [v]) u ∧ From (u + 1) a' :=
      fun heq => Or.inr ⟨v, htop, Or.inl heq⟩
    refine ⟨by omega, fun x hx => ?_, ?_⟩
    · rcases List.mem_append.mp hx with hx | hx
      · have hxa := hlt x hx
        omega
      · rwa [List.mem_singleton.mp hx]
    · rcases growAbits_cases hv hnext with hnew | heq
      · rcases h.origin with hfrom | ⟨u, hu, hfrom⟩
        · exact (hfrom.grow hgrow hv hnew).elim Or.inl hnewcap
        · exact (hfrom.grow hgrow hv hnew).elim (fun hfrom => Or.inr ⟨u, hu.append v, hfrom⟩) hnewcap
      · exact hnewcap heq
  · rw [if_neg hgrow] at hnext
    cases hnext
    refine ⟨hle, fun x hx => ?_, h.origin.imp_right fun ⟨u, hu, hfrom⟩ => ⟨u, hu.append v, hfrom⟩⟩
    rcases List.mem_append.mp hx with hx | hx
    · exact hlt x hx
    · rw [List.mem_singleton.mp hx]
      omega

/-- An index that does not fit makes the run fail. -/
theorem nextAbits_none (hitem : item.bitno = objectAsSize v) (hv : ¬v + 1 < 2 ^ 64) (ha : a < 2 ^ 64) :
    nextAbits item a = none := by
  rw [nextAbits, hitem, objectAsSize]
  by_cases hlt : v < 2 ^ 64
  · rw [if_pos hlt, some_bind, if_pos (by omega), growAbits, newAbits_none hlt (not_lt.mp hv)]
    rfl
  · rw [if_neg hlt]
    rfl

theorem itemRequests_of_max (hitem : item.bitno = objectAsSize v) (hv : ¬v + 1 < 2 ^ 64) :
    itemRequests item a = [] := by
  rw [itemRequests, hitem, objectAsSize]
  by_cases hlt : v < 2 ^ 64
  · rw [if_pos hlt]
    dsimp only
    rw [newAbits_none hlt (not_lt.mp hv), ite_self]
  · rw [if_neg hlt]

theorem requestMet_of_room {k : ℕ} (hk : k ≤ n) (hn : n + 7 < 2 ^ 64) : RequestMet (k, n) := ⟨hk, bitsetLengthof_le hn⟩

/-- The last seven sizes are rounded to no words at all. -/
theorem not_requestMet_of_wrap {k : ℕ} (hn : n < 2 ^ 64) (hwrap : 2 ^ 64 ≤ n + 7) : ¬RequestMet (k, n) := by
  rintro ⟨-, hle⟩
  have hzero : bitsetLengthof n = 0 := by
    rw [bitsetLengthof, Nat.shiftRight_eq_div_pow]
    omega
  dsimp only at hle
  rw [hzero] at hle
  omega

/-- What an item asks for holds the index, if there is room. -/
theorem Capacity.requests_hold (h : Capacity m0 pre a) (hm : 8 ∣ m0) (hroom : RoomFor m0 pre v)
    (hitem : item.bitno = some v) : ∀ request ∈ itemRequests item a, RequestMet request := by
  have hv := hroom.1
  rw [itemRequests, hitem]
  dsimp only
  by_cases hgrow : a ≤ v
  · rw [if_pos hgrow]
    cases hnew : newAbits a v with
    | none => simp
    | some n =>
      have hlt := (newAbits_bounds hnew).1
      have hn : RequestMet (v + 1, n) := requestMet_of_room hlt (h.room hm hroom hgrow hnew)
      have hone : RequestMet (v + 1, (v + 1) % 2 ^ 64) := by
        rw [Nat.mod_eq_of_lt (by omega)]
        exact requestMet_of_room le_rfl (by omega)
      dsimp only
      split_ifs
      · simpa using hn
      · simpa using ⟨hn, hone⟩
  · rw [if_neg hgrow]
    simp

end Capacities

/-! ### The buffer -/

section Buffer

variable {pre : List ℕ} {minbits v a : ℕ} {me : BitsetFromseqData} {item : SeqItem}

/-- Memory keeps its bits as far as it had any. -/
theorem bits_realloc {content : ℕ → Word} {self : List Word} {n i : ℕ} (hself : i < 8 * self.length)
    (hn : i < 8 * bitsetLengthof n) : Bits (bitsetRealloc content self n) i ↔ Bits self i := by
  have hword : word (bitsetRealloc content self n) (i / 8) = word self (i / 8) := by
    unfold bitsetRealloc
    rw [word, List.getD_eq_getElem _ _ (by simpa using by omega), List.getElem_map, List.getElem_range,
      if_pos (by omega)]
  rw [Bits, Bits, bitAt, bitAt, hword]

/-- The state after a prefix: the bits are its indices, all the way up to the capacity. -/
structure Collected (minbits : ℕ) (pre : List ℕ) (me : BitsetFromseqData) : Prop where
  minbits_le : minbits ≤ me.bsfsdBitset.bsNbits
  lt_nbits : ∀ x ∈ pre, x < me.bsfsdBitset.bsNbits
  nbits_le : me.bsfsdBitset.bsNbits ≤ me.bsfsdAbits
  abits_le : me.bsfsdAbits ≤ 8 * me.bsfsdBitset.bsBitset.length
  abits_lt : me.bsfsdAbits + 7 < 2 ^ 64
  bits : ∀ i < me.bsfsdAbits, Bits me.bsfsdBitset.bsBitset i ↔ i ∈ pre

theorem initAbits_dvd (minbits : ℕ) : 8 ∣ initAbits minbits := by
  unfold initAbits
  split_ifs
  · exact Nat.dvd_sub_mod _
  · decide

theorem collected_init (h : minbits + 7 < 2 ^ 64) : Collected minbits [] (initData minbits) := by
  obtain ⟨hle, hlt⟩ := initAbits_ok h
  have hlen := length_bitsetCalloc (initAbits minbits)
  have hroom := bitsetLengthof_le hlt
  refine ⟨le_rfl, by simp, hle, ?_, hlt, fun i _ => ?_⟩
  · dsimp only [initData]
    omega
  · dsimp only [initData]
    simp [not_bits_calloc]

/-- One more bit in a buffer that has room for it. -/
theorem addBit_collects (h : Collected minbits pre me) (hroom : v < me.bsfsdAbits) :
    ∃ me', (do
      let nbits := if me.bsfsdBitset.bsNbits ≤ v then v + 1 else me.bsfsdBitset.bsNbits
      let words ← bitsetSet me.bsfsdBitset.bsBitset 0 v
      some (some ({ me with bsfsdBitset := ⟨nbits, words⟩ } : BitsetFromseqData))) = some (some me') ∧
      Collected minbits (pre ++ [v]) me' ∧ me'.bsfsdAbits = me.bsfsdAbits := by
  have hle := h.abits_le
  have hmin := h.minbits_le
  have hnle := h.nbits_le
  obtain ⟨words, hwords, hlen, hbits⟩ := @bitsetSet_bits me.bsfsdBitset.bsBitset 0 v (by omega)
  obtain ⟨n, hn⟩ : ∃ n, n = (if me.bsfsdBitset.bsNbits ≤ v then v + 1 else me.bsfsdBitset.bsNbits) := ⟨_, rfl⟩
  have hnge : me.bsfsdBitset.bsNbits ≤ n ∧ v < n ∧ n ≤ me.bsfsdAbits := by
    rw [hn]
    split_ifs <;> omega
  dsimp only
  rw [← hn, hwords, some_bind]
  refine ⟨_, rfl, ⟨hmin.trans hnge.1, fun x hx => ?_, hnge.2.2, hle.trans_eq (by rw [hlen]), h.abits_lt, ?_⟩, rfl⟩
  · rcases List.mem_append.mp hx with hx | hx
    · exact (h.lt_nbits x hx).trans_le hnge.1
    · rw [List.mem_singleton.mp hx]
      exact hnge.2.1
  · intro i hi
    rw [hbits, List.mem_append, List.mem_singleton, Nat.mul_zero, Nat.zero_add]
    exact or_congr_left (h.bits i hi)

theorem bitsetFromseqCb_fails (hnext : nextAbits item me.bsfsdAbits = none) :
    bitsetFromseqCb me item = some none := by
  unfold bitsetFromseqCb
  dsimp only
  unfold nextAbits at hnext
  cases hbitno : item.bitno with
  | none => rfl
  | some bitno =>
    rw [hbitno, some_bind] at hnext
    dsimp only
    by_cases hgrow : me.bsfsdAbits ≤ bitno
    · rw [if_pos hgrow] at hnext ⊢
      rw [hnext]
    · rw [if_neg hgrow] at hnext
      exact absurd hnext (by simp)

/-- An item that gets its capacity is added to the bits. -/
theorem bitsetFromseqCb_collects (h : Collected minbits pre me) (hitem : item.bitno = some v)
    (hnext : nextAbits item me.bsfsdAbits = some a) (ha : a + 7 < 2 ^ 64) :
    ∃ me', bitsetFromseqCb me item = some (some me') ∧ Collected minbits (pre ++ [v]) me' ∧ me'.bsfsdAbits = a := by
  unfold bitsetFromseqCb
  dsimp only
  unfold nextAbits at hnext
  rw [hitem, some_bind] at hnext
  rw [hitem]
  dsimp only
  by_cases hgrow : me.bsfsdAbits ≤ v
  · rw [if_pos hgrow] at hnext ⊢
    have hva := lt_growAbits hnext
    have hnle := h.nbits_le
    have hle := h.abits_le
    have hlen := length_bitsetRealloc item.content me.bsfsdBitset.bsBitset a
    have hroom := bitsetLengthof_le ha
    have hfits : 8 * 0 + a ≤ 8 * (bitsetRealloc item.content me.bsfsdBitset.bsBitset a).length := by omega
    obtain ⟨words, hwords, hclear, hoff⟩ := @bitsetNclear_ends _ _ me.bsfsdBitset.bsNbits _ hfits
    obtain ⟨words', hwords', hkeep⟩ := @bitsetNclear_keeps _ _ me.bsfsdBitset.bsNbits _ hfits
    cases hwords.symm.trans hwords'
    rw [hnext]
    dsimp only
    rw [hwords, some_bind]
    have hclearLen := hclear.length
    have hbits : ∀ i < a, Bits words i ↔ i ∈ pre := fun i hi => by
      by_cases hlow : i < me.bsfsdBitset.bsNbits
      · rw [← h.bits i (by omega), ← @bits_realloc item.content me.bsfsdBitset.bsBitset a i (by omega) (by omega)]
        exact ⟨hclear.bits i (Nat.zero_le i), hkeep.bits i (by omega)⟩
      · have hbit := hoff i (not_lt.mp hlow) hi
        rw [Nat.mul_zero, Nat.zero_add] at hbit
        exact iff_of_false hbit fun hmem => hlow (h.lt_nbits i hmem)
    have hgrown : Collected minbits pre ⟨⟨me.bsfsdBitset.bsNbits, words⟩, a⟩ :=
      ⟨h.minbits_le, h.lt_nbits, by dsimp only; omega, by dsimp only; omega, ha, hbits⟩
    exact addBit_collects hgrown hva
  · rw [if_neg hgrow] at hnext ⊢
    cases hnext
    exact addBit_collects h (not_le.mp hgrow)

end Buffer

/-! ### Runs over the items -/

section Runs

variable {pre rest : List ℕ} {minbits v a : ℕ} {me : BitsetFromseqData} {item : SeqItem} {items : List SeqItem}

/-- There is room for each index of `rest` that comes after `pre`. -/
def RoomAfter (m0 : ℕ) (pre rest : List ℕ) : Prop :=
  ∀ p v q, rest = p ++ v :: q → (∀ x ∈ p, x + 1 < 2 ^ 64) → v + 1 < 2 ^ 64 → RoomFor m0 (pre ++ p) v

theorem RoomAfter.head {m0 : ℕ} (h : RoomAfter m0 pre (v :: rest)) (hv : v + 1 < 2 ^ 64) : RoomFor m0 pre v := by
  have hroom := h [] v rest rfl (by simp) hv
  rwa [List.append_nil] at hroom

theorem RoomAfter.tail {m0 : ℕ} (h : RoomAfter m0 pre (v :: rest)) (hv : v + 1 < 2 ^ 64) :
    RoomAfter m0 (pre ++ [v]) rest := by
  intro p w q heq hp hw
  have hroom := h (v :: p) w q (by rw [heq]; rfl) (by simpa using ⟨hv, hp⟩) hw
  rwa [List.append_cons] at hroom

theorem objectAsSize_of_lt (hv : v < 2 ^ 64) : objectAsSize v = some v := if_pos hv

/-- One item: the requests hold, and the run fails or goes on. -/
theorem item_step {m0 : ℕ} (hm : 8 ∣ m0) (h : Collected minbits pre me) (hcap : Capacity m0 pre me.bsfsdAbits)
    (hroom : RoomFor m0 pre v) (hitem : item.bitno = some v) :
    (∀ request ∈ itemRequests item me.bsfsdAbits, RequestMet request) ∧
    (bitsetFromseqCb me item = some none ∧ nextAbits item me.bsfsdAbits = none ∨
      ∃ me', bitsetFromseqCb me item = some (some me') ∧ Collected minbits (pre ++ [v]) me' ∧
        Capacity m0 (pre ++ [v]) me'.bsfsdAbits ∧ nextAbits item me.bsfsdAbits = some me'.bsfsdAbits) := by
  have hv := hroom.1
  refine ⟨hcap.requests_hold hm hroom hitem, ?_⟩
  cases hnext : nextAbits item me.bsfsdAbits with
  | none => exact Or.inl ⟨bitsetFromseqCb_fails hnext, rfl⟩
  | some a =>
    have ha : a + 7 < 2 ^ 64 := by
      have hsome := hnext
      rw [nextAbits, hitem, some_bind] at hsome
      by_cases hgrow : me.bsfsdAbits ≤ v
      · rw [if_pos hgrow] at hsome
        rcases growAbits_cases (by omega) hsome with hnew | heq
        · exact hcap.room hm hroom hgrow hnew
        · omega
      · rw [if_neg hgrow] at hsome
        cases hsome
        exact h.abits_lt
    obtain ⟨me', hcb, hcollected, habits⟩ := bitsetFromseqCb_collects h hitem hnext ha
    refine Or.inr ⟨me', hcb, hcollected, ?_, by rw [habits]⟩
    rw [habits]
    exact hcap.next (by omega) hitem hnext

/-- A run over items with room for all of them collects them or fails. -/
theorem bitsetFromseq_collects {m0 : ℕ} (hm : 8 ∣ m0) (h : Collected minbits pre me)
    (hcap : Capacity m0 pre me.bsfsdAbits) (hitems : items.map SeqItem.bitno = rest.map objectAsSize)
    (hroom : RoomAfter m0 pre rest) :
    (∀ request ∈ requests items me, RequestMet request) ∧
    Ends (bitsetFromseq items me) fun r =>
      ∀ me', r = some me' → Collected minbits (pre ++ rest) me' ∧ ∀ x ∈ rest, x + 1 < 2 ^ 64 := by
  induction items generalizing pre rest me with
  | nil =>
    obtain rfl : rest = [] := by simpa using hitems.symm
    refine ⟨by simp [requests], Ends.pure ?_⟩
    rintro me' ⟨⟩
    rw [List.append_nil]
    exact ⟨h, by simp⟩
  | cons item items ih =>
    obtain ⟨v, rest, rfl⟩ : ∃ v rest', rest = v :: rest' := by
      cases rest with
      | nil => simp at hitems
      | cons v rest => exact ⟨v, rest, rfl⟩
    rw [List.map_cons, List.map_cons, List.cons.injEq] at hitems
    obtain ⟨hitem, hitems⟩ := hitems
    rw [requests, bitsetFromseq]
    by_cases hv : v + 1 < 2 ^ 64
    · rw [objectAsSize_of_lt (by omega)] at hitem
      obtain ⟨hrequests, ⟨hcb, -⟩ | ⟨me', hcb, hcollected, hcap', -⟩⟩ := item_step hm h hcap (hroom.head hv) hitem
      · rw [hcb, some_bind]
        exact ⟨by simpa using hrequests, Ends.pure (by simp)⟩
      · obtain ⟨hrest, hends⟩ := ih hcollected hcap' hitems (hroom.tail hv)
        rw [hcb, some_bind]
        refine ⟨fun request hmem => ?_, hends.mono fun r hr me'' heq => ?_⟩
        · exact (List.mem_append.mp hmem).elim (hrequests request) (hrest request)
        · obtain ⟨hdone, hsmall⟩ := hr me'' heq
          rw [← List.append_cons] at hdone
          exact ⟨hdone, by simpa using ⟨hv, hsmall⟩⟩
    · have habits := h.abits_lt
      rw [bitsetFromseqCb_fails (nextAbits_none hitem hv (by omega)), itemRequests_of_max hitem hv, some_bind]
      exact ⟨by simp, Ends.pure (by simp)⟩

/-- What is left of the buffer in the end. -/
theorem bitsetOf_collected (h : Collected minbits rest me) (shrink : Bool) :
    Ends (do
      let result := me.bsfsdBitset
      assert (result.bsNbits ≤ me.bsfsdAbits)
      if result.bsNbits < me.bsfsdAbits ∧ shrink then
        some (some { result with bsBitset := bitsetRealloc (fun _ => 0) result.bsBitset result.bsNbits })
      else some (some result)) fun r => ∀ b, r = some b → BitsetOf rest minbits b ∧ b.bsNbits < 2 ^ 64 := by
  have hnle := h.nbits_le
  have hle := h.abits_le
  have hlt := h.abits_lt
  have hroom : me.bsfsdBitset.bsNbits ≤ 8 * bitsetLengthof me.bsfsdBitset.bsNbits := bitsetLengthof_le (by omega)
  have hmin : (minbits : ℤ) ≤ me.bsfsdBitset.bsNbits := by exact_mod_cast h.minbits_le
  dsimp only
  rw [assert_of hnle, some_bind]
  split_ifs with hshrink
  · refine Ends.pure ?_
    rintro b ⟨⟩
    refine ⟨⟨?_, hmin, h.lt_nbits, fun i hi => ?_⟩, by dsimp only; omega⟩
    · rw [length_bitsetRealloc]
      exact hroom
    · dsimp only at hi ⊢
      rw [bits_realloc (by omega) (by omega)]
      exact h.bits i (by omega)
  · refine Ends.pure ?_
    rintro b ⟨⟩
    exact ⟨⟨by omega, hmin, h.lt_nbits, fun i hi => h.bits i (by omega)⟩, by omega⟩

theorem initAbits_le (h : minbits + 7 < 2 ^ 64) : minbits ≤ initAbits minbits := (initAbits_ok h).1

/-- With room for all indices, the result is their bitset or an error. -/
theorem bsInitFromseq_builds {seq : SeqArg} (hfit : SizesFit minbits rest)
    (hitems : seq.items.map SeqItem.bitno = rest.map objectAsSize) :
    (∀ request ∈ requests seq.items (initData minbits), RequestMet request) ∧
    Ends (bsInitFromseq seq minbits) fun r =>
      ∀ b, r = some b → BitsetOf rest minbits b ∧ b.bsNbits < 2 ^ 64 ∧ ∀ x ∈ rest, x + 1 < 2 ^ 64 := by
  obtain ⟨hmin, hroom⟩ := hfit
  have hafter : RoomAfter (initAbits minbits) [] rest := fun p v q heq hp hv => hroom p v q heq hp hv
  obtain ⟨hrequests, hends⟩ :=
    bitsetFromseq_collects (initAbits_dvd minbits) (collected_init hmin) (capacity_init _) hitems hafter
  refine ⟨hrequests, ?_⟩
  unfold bsInitFromseq
  by_cases hcalloc : (!seq.calloc) = true
  · rw [if_pos hcalloc]
    exact Ends.pure (by simp)
  · rw [if_neg hcalloc]
    refine Ends.bind hends fun r hr => ?_
    cases r with
    | none => exact Ends.pure (by simp)
    | some me =>
      obtain ⟨hcollected, hsmall⟩ := hr me rfl
      dsimp only
      by_cases hfinished : (!seq.finished) = true
      · rw [if_pos hfinished]
        exact Ends.pure (by simp)
      · rw [if_neg hfinished]
        exact (bitsetOf_collected hcollected seq.shrink).mono fun r hr b heq =>
          ⟨(hr b heq).1, (hr b heq).2, hsmall⟩

end Runs

/-! ### Runs that ask for too little -/

section Refuted

variable {pre q : List ℕ} {minbits m0 u v a n : ℕ} {me : BitsetFromseqData} {item : SeqItem}

/-- An item that gets the doubled size when it needs one. -/
def grant (v : ℕ) : SeqItem := ⟨objectAsSize v, true, true, fun _ => 0⟩

/-- An item that gets only the size for its index. -/
def deny (v : ℕ) : SeqItem := ⟨objectAsSize v, false, true, fun _ => 0⟩

theorem nextAbits_ne_none (hv : v + 1 < 2 ^ 64) (hitem : item.bitno = objectAsSize v) (hrealloc : item.realloc = true) :
    nextAbits item a ≠ none := by
  rw [nextAbits, hitem, objectAsSize_of_lt (by omega), some_bind]
  by_cases hgrow : a ≤ v
  · rw [if_pos hgrow, growAbits, hrealloc]
    rcases newAbits_cases (b := a) hv with ⟨-, heq⟩ | ⟨-, heq⟩
    · rw [heq, some_bind]
      simp only [↓reduceIte]
      split_ifs <;> simp
    · rw [heq, some_bind]
      simp only [↓reduceIte]
      split_ifs <;> simp
  · rw [if_neg hgrow]
    simp

/-- A run that gets its memory goes through the indices that there is room for, and keeps what each of them keeps. -/
theorem run_through {mk : ℕ → SeqItem} {P : ℕ → Prop} (hm : 8 ∣ m0)
    (hmk : ∀ x, (mk x).bitno = objectAsSize x ∧ (mk x).realloc = true)
    (hP : ∀ x ∈ q, ∀ a a', P a → nextAbits (mk x) a = some a' → P a') (hq : ∀ x ∈ q, x + 1 < 2 ^ 64)
    (hroom : RoomAfter m0 pre q) (h : Collected minbits pre me) (hcap : Capacity m0 pre me.bsfsdAbits)
    (hme : P me.bsfsdAbits) :
    ∃ me', Collected minbits (pre ++ q) me' ∧ Capacity m0 (pre ++ q) me'.bsfsdAbits ∧ P me'.bsfsdAbits ∧
      ∀ rest, bitsetFromseq (q.map mk ++ rest) me = bitsetFromseq rest me' ∧
        ∀ request ∈ requests rest me', request ∈ requests (q.map mk ++ rest) me := by
  induction q generalizing pre me with
  | nil =>
    rw [List.append_nil]
    exact ⟨me, h, hcap, hme, fun rest => ⟨rfl, fun request hmem => hmem⟩⟩
  | cons x q ih =>
    have hx := hq x List.mem_cons_self
    obtain ⟨hbitno, hrealloc⟩ := hmk x
    have hsome := nextAbits_ne_none (a := me.bsfsdAbits) hx hbitno hrealloc
    rw [objectAsSize_of_lt (by omega)] at hbitno
    obtain ⟨-, ⟨-, hnone⟩ | ⟨me', hcb, hcollected, hcap', hnext⟩⟩ := item_step hm h hcap (hroom.head hx) hbitno
    · exact absurd hnone hsome
    · have hme' := hP x List.mem_cons_self _ _ hme hnext
      obtain ⟨me'', hdone, hcap'', hP'', hrequests⟩ :=
        ih (fun y hy => hP y (List.mem_cons_of_mem x hy)) (fun y hy => hq y (List.mem_cons_of_mem x hy))
          (hroom.tail hx) hcollected hcap' hme'
      rw [← List.append_cons] at hdone hcap''
      refine ⟨me'', hdone, hcap'', hP'', fun rest => ?_⟩
      obtain ⟨hrun, hmem⟩ := hrequests rest
      rw [List.map_cons, List.cons_append, requests, bitsetFromseq, hcb, some_bind]
      exact ⟨hrun, fun request hrequest => List.mem_append_right _ (hmem request hrequest)⟩

theorem RoomAfter.append_left {p r : List ℕ} (h : RoomAfter m0 pre (p ++ r)) : RoomAfter m0 pre p := by
  intro s w t heq
  exact h s w (t ++ r) (by rw [heq]; simp)

theorem RoomAfter.append_right {p r : List ℕ} (h : RoomAfter m0 pre (p ++ r)) (hp : ∀ x ∈ p, x + 1 < 2 ^ 64) :
    RoomAfter m0 (pre ++ p) r := by
  intro s w t heq hs hw
  have hroom := h (p ++ s) w t (by rw [heq]; simp) (fun x hx => (List.mem_append.mp hx).elim (hp x) (hs x)) hw
  rwa [← List.append_assoc] at hroom

/-- The first index that there is no room for. -/
theorem exists_first (h : ¬RoomAfter m0 pre q) :
    ∃ p v r, q = p ++ v :: r ∧ (∀ x ∈ p, x + 1 < 2 ^ 64) ∧ v + 1 < 2 ^ 64 ∧ RoomAfter m0 pre p ∧
      ¬RoomFor m0 (pre ++ p) v := by
  induction q generalizing pre with
  | nil =>
    refine absurd (fun p v r heq => ?_) h
    simp at heq
  | cons x q ih =>
    by_cases hx : x + 1 < 2 ^ 64
    · by_cases hroom : RoomFor m0 pre x
      · have hrest : ¬RoomAfter m0 (pre ++ [x]) q := by
          refine fun hrest => h fun p v r heq hp hv => ?_
          cases p with
          | nil =>
            obtain ⟨rfl, -⟩ := List.cons.inj heq
            rwa [List.append_nil]
          | cons y p =>
            obtain ⟨rfl, htail⟩ := List.cons.inj heq
            rw [List.append_cons]
            exact hrest p v r htail (fun z hz => hp z (List.mem_cons_of_mem _ hz)) hv
        obtain ⟨p, v, r, rfl, hp, hv, hafter, hno⟩ := ih hrest
        refine ⟨x :: p, v, r, rfl, by simpa using ⟨hx, hp⟩, hv, ?_, by rwa [List.append_cons]⟩
        intro s w t heq hs hw
        cases s with
        | nil =>
          obtain ⟨rfl, -⟩ := List.cons.inj heq
          rwa [List.append_nil]
        | cons y s =>
          obtain ⟨rfl, htail⟩ := List.cons.inj heq
          rw [List.append_cons]
          exact hafter s w t htail (fun z hz => hs z (List.mem_cons_of_mem _ hz)) hw
      · refine ⟨[], x, q, rfl, by simp, hx, fun p v r heq => ?_, by rwa [List.append_nil]⟩
        simp at heq
    · refine absurd (fun p v r heq hp hv => ?_) h
      cases p with
      | nil =>
        obtain ⟨rfl, -⟩ := List.cons.inj heq
        exact absurd hv hx
      | cons y p =>
        obtain ⟨rfl, -⟩ := List.cons.inj heq
        exact absurd (hp x List.mem_cons_self) hx

/-- The request of an index that does not fit the capacity. -/
theorem request_mem (hv : v < 2 ^ 64) (ha : me.bsfsdAbits ≤ v) (hnew : newAbits me.bsfsdAbits v = some n)
    (rest : List SeqItem) : (v + 1, n) ∈ requests (grant v :: rest) me := by
  have hbitno : (grant v).bitno = some v := objectAsSize_of_lt hv
  rw [requests, itemRequests, hbitno]
  dsimp only
  rw [if_pos ha, hnew]
  simp

/-- A size that doubling reaches only for `v` is not reached for the indices that there is room for. -/
theorem grant_keeps {x a' : ℕ} (hbad : Doubling (u + 1) v n) (hn : 2 ^ 64 ≤ n + 7)
    (hx : x + 8 < 2 ^ 64) (hroom : u < x → ∀ k, newAbits (u + 1) x = some k → k + 7 < 2 ^ 64)
    (ha : From (u + 1) a ∧ a ≤ v) (hnext : nextAbits (grant x) a = some a') : From (u + 1) a' ∧ a' ≤ v := by
  obtain ⟨hfrom, hav⟩ := ha
  have hbitno : (grant x).bitno = some x := objectAsSize_of_lt (by omega)
  rw [nextAbits, hbitno, some_bind] at hnext
  by_cases hgrow : a ≤ x
  · have hux := hfrom.le
    have hx1 : x + 1 < 2 ^ 64 := by omega
    rw [if_pos hgrow] at hnext
    have hnew : newAbits (u + 1) x = some a' := by
      rw [← hfrom.newAbits_eq hgrow]
      unfold growAbits at hnext
      cases hnew : newAbits a x with
      | none => simp [hnew] at hnext
      | some k => simpa [hnew, grant] using hnext
    have hk := hroom (by omega) a' hnew
    -- from `v` on the doubled size would be the bad one
    have hxv : x < v := by
      by_contra hle
      have hdouble := (hbad.of_lt (not_lt.mp hle) (by omega)).eq
      rcases newAbits_cases (b := u + 1) hx1 with ⟨-, heq⟩ | ⟨hzero, -⟩
      · cases hnew.symm.trans heq
        omega
      · omega
    rcases newAbits_cases (b := u + 1) hx1 with ⟨hlt, heq⟩ | ⟨hzero, heq⟩
    · cases hnew.symm.trans heq
      have hdouble := doubling_doubleAbits (u + 1) x
      refine ⟨Or.inr ⟨x, by omega, hlt, hdouble⟩, ?_⟩
      by_contra hle
      have hsame := hbad.unique (hdouble.of_lt hxv.le (not_le.mp hle))
      omega
    · have hdouble := doubling_doubleAbits (u + 1) x
      rw [hzero] at hdouble
      have hsame := hbad.unique (hdouble.of_zero hxv.le)
      omega
  · rw [if_neg hgrow] at hnext
    cases hnext
    exact ⟨hfrom, hav⟩

theorem deny_keeps {x a' : ℕ} (hu : u + 1 < 2 ^ 64) (hx : x < u) (ha : a ≤ u) (hnext : nextAbits (deny x) a = some a') :
    a' ≤ u := by
  have hbitno : (deny x).bitno = some x := objectAsSize_of_lt (by omega)
  rw [nextAbits, hbitno, some_bind] at hnext
  by_cases hgrow : a ≤ x
  · rw [if_pos hgrow, growAbits] at hnext
    cases hnew : newAbits a x with
    | none => simp [hnew] at hnext
    | some k =>
      rw [hnew, some_bind, Nat.mod_eq_of_lt (by omega)] at hnext
      simp only [deny, Bool.false_eq_true, if_false, if_true, Option.some.injEq] at hnext
      omega
  · rw [if_neg hgrow] at hnext
    cases hnext
    exact ha

/-- An index past the capacity that gets only its own size. -/
theorem nextAbits_deny (hu : u + 1 < 2 ^ 64) (ha : a ≤ u) : nextAbits (deny u) a = some (u + 1) := by
  have hbitno : (deny u).bitno = some u := objectAsSize_of_lt (by omega)
  rw [nextAbits, hbitno, some_bind, if_pos ha, growAbits]
  rcases newAbits_cases (b := a) hu with ⟨-, heq⟩ | ⟨-, heq⟩ <;>
    · rw [heq, some_bind, Nat.mod_eq_of_lt hu]
      rfl

/-- Where there is no room for an index, some run asks for too little. -/
theorem exists_bad_run (hm : minbits + 7 < 2 ^ 64) {vs : List ℕ} (h : ¬RoomAfter (initAbits minbits) [] vs) :
    ∃ items : List SeqItem, items.map SeqItem.bitno = vs.map objectAsSize ∧
      ∃ request ∈ requests items (initData minbits), ¬RequestMet request := by
  have hdvd := initAbits_dvd minbits
  have hgrant : ∀ x, (grant x).bitno = objectAsSize x ∧ (grant x).realloc = true := fun x => ⟨rfl, rfl⟩
  have hdeny : ∀ x, (deny x).bitno = objectAsSize x ∧ (deny x).realloc = true := fun x => ⟨rfl, rfl⟩
  have hmap : ∀ l : List ℕ, (l.map grant).map SeqItem.bitno = l.map objectAsSize := fun l => by
    rw [List.map_map]
    rfl
  have hmap' : ∀ l : List ℕ, (l.map deny).map SeqItem.bitno = l.map objectAsSize := fun l => by
    rw [List.map_map]
    rfl
  obtain ⟨p, v, r, rfl, hp, hv, hafter, hno⟩ := exists_first h
  rw [List.nil_append] at hno
  by_cases hv8 : v + 8 < 2 ^ 64
  · -- doubling on from a capacity without slack
    obtain ⟨u, htop, huv, n, hnew, hn⟩ : ∃ u, NewTop (initAbits minbits) p u ∧ u < v ∧
        ∃ n, newAbits (u + 1) v = some n ∧ 2 ^ 64 ≤ n + 7 := by
      by_contra hall
      refine hno ⟨hv8, fun u htop huv n hnew => ?_⟩
      by_contra hn
      exact hall ⟨u, htop, huv, n, hnew, not_lt.mp hn⟩
    obtain ⟨p, q, rfl, hmu, hpu⟩ := htop
    have hu : u + 1 < 2 ^ 64 := hp u (by simp)
    have hp' : ∀ x ∈ p, x + 1 < 2 ^ 64 := fun x hx => hp x (by simp [hx])
    have hpre : ∀ x ∈ p ++ [u], x + 1 < 2 ^ 64 := fun x hx => hp x (by simp at hx ⊢; tauto)
    have hq : ∀ x ∈ q, x + 1 < 2 ^ 64 := fun x hx => hp x (by simp [hx])
    have hafterQ : RoomAfter (initAbits minbits) ([] ++ (p ++ [u])) q :=
      RoomAfter.append_right (by rwa [← List.append_cons]) hpre
    obtain ⟨hvn, hbad⟩ : v < n ∧ Doubling (u + 1) v n := by
      rcases newAbits_cases (b := u + 1) hv with ⟨hlt, heq⟩ | ⟨-, heq⟩
      · cases hnew.symm.trans heq
        exact ⟨hlt, doubling_doubleAbits (u + 1) v⟩
      · cases hnew.symm.trans heq
        omega
    obtain ⟨me1, hcollected1, hcap1, hle1, hrequests1⟩ :=
      run_through (P := (· ≤ u)) hdvd hdeny (fun x hx a a' ha => deny_keeps hu (hpu x hx) ha) hp'
        hafter.append_left (collected_init hm) (capacity_init _) hmu
    obtain ⟨me2, hcollected2, hcap2, heq2, hrequests2⟩ :=
      run_through (q := [u]) (P := fun a => a ≤ u ∨ a = u + 1) hdvd hdeny
        (fun x hx a a' ha hnext => by
          rw [List.mem_singleton.mp hx] at hnext
          rcases ha with ha | rfl
          · rw [nextAbits_deny hu ha] at hnext
            exact Or.inr (Option.some.inj hnext).symm
          · rw [nextAbits, show (deny u).bitno = some u from objectAsSize_of_lt (by omega), some_bind,
              if_neg (by omega)] at hnext
            exact Or.inr (Option.some.inj hnext).symm)
        (fun x hx => by rwa [List.mem_singleton.mp hx])
        ((RoomAfter.append_right hafter hp').append_left (p := [u]) (r := q)) hcollected1 hcap1 (Or.inl hle1)
    have habits2 : me2.bsfsdAbits = u + 1 := by
      have hlt := hcap2.lt u (by simp)
      omega
    obtain ⟨me3, hcollected3, hcap3, ⟨hfrom, hle3⟩, hrequests3⟩ :=
      run_through (P := fun a => From (u + 1) a ∧ a ≤ v) hdvd hgrant
        (fun x hx a a' => by
          obtain ⟨q1, q2, rfl⟩ := List.append_of_mem hx
          have hroom := hafterQ q1 x q2 rfl (fun y hy => hq y (by simp [hy])) (hq x hx)
          have htop : NewTop (initAbits minbits) ([] ++ (p ++ [u]) ++ q1) u := ⟨p, q1, by simp, hmu, hpu⟩
          exact grant_keeps hbad hn hroom.1 (hroom.2 u htop))
        hq (by rwa [List.append_assoc]) hcollected2 hcap2 ⟨Or.inl habits2, by omega⟩
    refine ⟨p.map deny ++ ([u].map deny ++ (q.map grant ++ grant v :: r.map grant)), ?_, (v + 1, n), ?_, ?_⟩
    · simp only [List.map_append, List.map_cons, List.map_nil, hmap, hmap']
      simp [grant, deny]
    · refine (hrequests1 _).2 _ ((hrequests2 _).2 _ ((hrequests3 _).2 _ (request_mem (by omega) hle3 ?_ _)))
      rw [hfrom.newAbits_eq hle3, hnew]
    · exact not_requestMet_of_wrap (newAbits_bounds hnew).2 hn
  · -- one of the last indices
    obtain ⟨me', hcollected, -, -, hrequests⟩ :=
      run_through (P := fun _ => True) hdvd hgrant (fun _ _ _ _ _ _ => trivial) hp hafter (collected_init hm)
        (capacity_init _) trivial
    have habits := hcollected.abits_lt
    obtain ⟨n, hnew⟩ : ∃ n, newAbits me'.bsfsdAbits v = some n := by
      rcases newAbits_cases (b := me'.bsfsdAbits) hv with ⟨-, heq⟩ | ⟨-, heq⟩
      · exact ⟨_, heq⟩
      · exact ⟨_, heq⟩
    obtain ⟨hlt, hn⟩ := newAbits_bounds hnew
    refine ⟨p.map grant ++ grant v :: r.map grant, ?_, (v + 1, n), ?_, not_requestMet_of_wrap hn (by omega)⟩
    · simp only [List.map_append, List.map_cons, hmap]
      rfl
    · exact (hrequests _).2 _ (request_mem (by omega) (by omega) hnew _)

/-- Of sizes that all hold, there is room for all indices. -/
theorem sizesFit_of_holds {minbitsOb : Option DeeInt} {vs : List ℕ} (hm : minbits < 2 ^ 64)
    (hob : minbitsOf minbitsOb = some (some minbits))
    (h : ∀ seq : SeqArg, seq.items.map SeqItem.bitno = vs.map objectAsSize →
      ∀ request ∈ seqRequests seq minbitsOb, RequestMet request) : SizesFit minbits vs := by
  by_cases hwrap : minbits + 7 < 2 ^ 64
  · by_contra hno
    have hnoRoom : ¬RoomAfter (initAbits minbits) [] vs := fun hroom =>
      hno ⟨hwrap, fun p v r heq hp hv => hroom p v r heq hp hv⟩
    obtain ⟨items, hitems, request, hmem, hbad⟩ := exists_bad_run hwrap hnoRoom
    refine hbad (h ⟨items, true, true, true⟩ hitems request ?_)
    rw [seqRequests, hob]
    exact List.mem_cons_of_mem _ hmem
  · -- the first size is rounded to 0
    have hholds := h ⟨vs.map grant, true, true, true⟩ (by rw [List.map_map]; rfl) (minbits, initAbits minbits) (by
      rw [seqRequests, hob]
      exact List.mem_cons_self)
    have hzero : initAbits minbits = 0 := by
      rw [initAbits, if_pos (by omega)]
      omega
    have hle := hholds.1
    dsimp only at hle
    omega

/-- A run that gets its memory and has room for all indices returns a bitset. -/
theorem exists_result {vs : List ℕ} (hfit : SizesFit minbits vs) (hvs : ∀ v ∈ vs, v + 1 < 2 ^ 64) :
    ∃ b, bsInitFromseq ⟨vs.map grant, true, true, false⟩ minbits = some (some b) := by
  obtain ⟨hm, hroom⟩ := hfit
  have hafter : RoomAfter (initAbits minbits) [] vs := fun p v q heq hp hv => hroom p v q heq hp hv
  have hgrant : ∀ x, (grant x).bitno = objectAsSize x ∧ (grant x).realloc = true := fun x => ⟨rfl, rfl⟩
  obtain ⟨me, hcollected, -, -, hrun⟩ :=
    run_through (P := fun _ => True) (initAbits_dvd minbits) hgrant (fun _ _ _ _ _ _ => trivial) hvs hafter
      (collected_init hm) (capacity_init _) trivial
  have hdone := (hrun []).1
  rw [List.append_nil, initData] at hdone
  refine ⟨me.bsfsdBitset, ?_⟩
  rw [bsInitFromseq]
  dsimp only
  rw [hdone]
  simp [assert, bitsetFromseq, hcollected.nbits_le]

end Refuted

/-! ### The condition -/

section Condition

variable {x : DeeInt} {minbitsOb : Option DeeInt} {vs : List ℕ} {seq : SeqArg}

/-- `DeeInt_AsSize` stores nothing and returns 0 for what does not fit. -/
theorem asUInt64_unfit (hx : x.Canonical) (h : ¬Fits 64 x.toInt) :
    Ends (deeIntAsUInt64 x) fun out => out.code = 0 ∧ out.result = none := by
  obtain ⟨⟨kind, bits⟩, hr, hclass⟩ := deeIntTryGet64Bit_ends hx
  unfold deeIntAsUInt64 asUIntN deeIntGet64Bit getNBit
  rw [hr, some_bind]
  rcases hclass with ⟨h0, h1, -⟩ | ⟨-, hkind⟩ | ⟨h0, h1, -⟩ | ⟨-, hkind⟩
  · exact absurd ⟨le_trans (by norm_num) h0, h1⟩ h
  · obtain rfl : kind = .posOverflow := hkind
    exact Ends.pure ⟨rfl, rfl⟩
  · exact absurd ⟨h0, h1.trans (by norm_num)⟩ h
  · obtain rfl : kind = .negOverflow := hkind
    exact Ends.pure ⟨rfl, rfl⟩

/-- What `minbits` is read as. -/
theorem minbitsOf_some (hx : x.Canonical) :
    (-2 ^ 63 ≤ x.toInt ∧ x.toInt < 0 ∧ minbitsOf (some x) = some none) ∨
    (0 ≤ x.toInt ∧ x.toInt < 2 ^ 64 ∧ minbitsOf (some x) = some (some x.toInt.toNat)) ∨
    ((x.toInt < -2 ^ 63 ∨ 2 ^ 64 ≤ x.toInt) ∧ minbitsOf (some x) = some (some 0)) := by
  by_cases hfits : Fits 64 x.toInt
  · obtain ⟨out, hout, hasked⟩ := asUInt_ends hx .w64
    obtain ⟨hsuccess, hfailure⟩ := hasked.1 hfits
    have hout : deeIntAsUInt64 x = some out := hout
    rw [minbitsOf, hout, some_bind]
    by_cases hneg : x.toInt < 0
    · have hcode := (hfailure fun hin => absurd hneg (not_lt.mpr hin.1)).1
      refine Or.inl ⟨hfits.1, hneg, ?_⟩
      rw [hcode]
      rfl
    · have heq := hsuccess (not_lt.mp hneg) hfits.2
      refine Or.inr (Or.inl ⟨not_lt.mp hneg, hfits.2, ?_⟩)
      rw [heq]
      dsimp only
      rw [if_neg (not_not.mpr rfl), Option.getD_some]
      exact congrArg (fun n => some (some n)) (wordOf_of_nonneg (not_lt.mp hneg) hfits.2)
  · obtain ⟨out, hout, hcode, hresult⟩ := asUInt64_unfit hx hfits
    refine Or.inr (Or.inr ⟨?_, ?_⟩)
    · by_contra hin
      rw [not_or, not_lt, not_le] at hin
      exact hfits hin
    · rw [minbitsOf, hout, some_bind, hcode, hresult]
      rfl

/-- With room for all indices, the run is exact for the number that `minbits` is read as. -/
theorem buildsExactly_of_sizesFit {minbits : ℕ} (hob : minbitsOf minbitsOb = some (some minbits))
    (hfit : SizesFit minbits vs) (hitems : seq.items.map SeqItem.bitno = vs.map objectAsSize)
    (hvalue : (∀ v ∈ vs, v + 1 < 2 ^ 64) → minbitsValue minbitsOb ≤ minbits) : BuildsExactly seq minbitsOb vs := by
  obtain ⟨hrequests, hends⟩ := bsInitFromseq_builds hfit hitems
  constructor
  · rw [seqRequests, hob]
    intro request hmem
    rcases List.mem_cons.mp hmem with rfl | hmem
    · exact requestMet_of_room (initAbits_le hfit.1) (initAbits_ok hfit.1).2
    · split_ifs at hmem
      · exact hrequests request hmem
      · simp at hmem
  · rw [bsInitFromseqOb, hob, some_bind]
    refine hends.mono fun r hr b heq => ?_
    obtain ⟨hb, -, hsmall⟩ := hr b heq
    exact ⟨hb.covers, (hvalue hsmall).trans hb.minbits_le, hb.lt_nbits, hb.bits⟩

/-- Whatever the allocator does, the bitset of a sequence of indices is built exactly if and only if the arguments
stay clear of the sizes that wrap. -/
theorem buildsExactly_iff (hob : ∀ x ∈ minbitsOb, x.Canonical) :
    (∀ seq : SeqArg, seq.items.map SeqItem.bitno = vs.map objectAsSize → BuildsExactly seq minbitsOb vs) ↔
      ArgumentsFit (minbitsValue minbitsOb) vs := by
  have hgrant : (vs.map grant).map SeqItem.bitno = vs.map objectAsSize := by
    rw [List.map_map]
    rfl
  cases minbitsOb with
  | none =>
    have hnone : minbitsOf none = some (some 0) := rfl
    constructor
    · intro h
      have hlt : (0 : ℤ) < 2 ^ 64 := by norm_num
      refine Or.inr (Or.inl ⟨le_rfl, hlt, ?_⟩)
      show SizesFit 0 vs
      exact sizesFit_of_holds (by norm_num) hnone fun seq hitems => (h seq hitems).sizes
    · rintro (⟨-, hneg⟩ | ⟨-, -, hfit⟩ | ⟨hneg, -⟩ | ⟨hlarge, -⟩) seq hitems
      · exact absurd hneg (by norm_num [minbitsValue])
      · exact buildsExactly_of_sizesFit hnone hfit hitems fun _ => le_rfl
      · exact absurd hneg (by norm_num [minbitsValue])
      · exact absurd hlarge (by norm_num [minbitsValue])
  | some x =>
    rcases minbitsOf_some (hob x rfl) with ⟨hlow, hneg, hread⟩ | ⟨hnn, hlt, hread⟩ | ⟨hout, hread⟩
    · -- a negative number is an error
      refine iff_of_true (fun seq hitems => ⟨?_, ?_⟩) (Or.inl ⟨hlow, hneg⟩)
      · rw [seqRequests, hread]
        simp
      · rw [bsInitFromseqOb, hread, some_bind]
        exact Ends.pure (by simp)
    · constructor
      · intro h
        refine Or.inr (Or.inl ⟨hnn, hlt, ?_⟩)
        refine sizesFit_of_holds ?_ hread fun seq hitems => (h seq hitems).sizes
        show x.toInt.toNat < 2 ^ 64
        omega
      · intro harg seq hitems
        have hfit : SizesFit x.toInt.toNat vs := by
          rcases harg with ⟨-, hneg⟩ | ⟨-, -, hfit⟩ | ⟨hneg, -⟩ | ⟨hlarge, -⟩
          · exact absurd hneg (not_lt.mpr hnn)
          · exact hfit
          · exact absurd hneg (not_lt.mpr (le_trans (by norm_num) hnn))
          · exact absurd hlarge (not_le.mpr hlt)
        refine buildsExactly_of_sizesFit hread hfit hitems fun _ => ?_
        show x.toInt ≤ (x.toInt.toNat : ℤ)
        omega
    · constructor
      · intro h
        have hfit : SizesFit 0 vs := sizesFit_of_holds (by norm_num) hread fun seq hitems => (h seq hitems).sizes
        rcases hout with hneg | hlarge
        · exact Or.inr (Or.inr (Or.inl ⟨hneg, hfit⟩))
        · refine Or.inr (Or.inr (Or.inr ⟨hlarge, hfit, ?_⟩))
          by_contra hsmall
          obtain ⟨b, hb⟩ := exists_result hfit fun v hv => not_le.mp fun hle => hsmall ⟨v, hv, hle⟩
          obtain ⟨r, hr, hexact⟩ := (h ⟨vs.map grant, true, true, false⟩ hgrant).result
          obtain ⟨-, r', hr', hbound⟩ := @bsInitFromseq_builds _ _ ⟨vs.map grant, true, true, false⟩ hfit hgrant
          rw [bsInitFromseqOb, hread, some_bind] at hr
          have hmin := (hexact b (Option.some.inj (hr.symm.trans hb))).minbits_le
          have hlt := (hbound b (Option.some.inj (hr'.symm.trans hb))).2.1
          have hvalue : minbitsValue (some x) = x.toInt := rfl
          omega
      · intro harg seq hitems
        have hfit : SizesFit 0 vs := by
          rcases harg with ⟨hlow, hneg⟩ | ⟨hnn, hlt, -⟩ | ⟨-, hfit⟩ | ⟨-, hfit, -⟩
          · exact absurd hout (by have hvalue : minbitsValue (some x) = x.toInt := rfl; omega)
          · exact absurd hout (by have hvalue : minbitsValue (some x) = x.toInt := rfl; omega)
          · exact hfit
          · exact hfit
        refine buildsExactly_of_sizesFit hread hfit hitems fun hsmall => ?_
        have hvalue : minbitsValue (some x) = x.toInt := rfl
        rcases harg with ⟨hlow, hneg⟩ | ⟨hnn, hlt, -⟩ | ⟨hneg, -⟩ | ⟨-, -, v, hv, hmax⟩
        · omega
        · omega
        · omega
        · exact absurd (hsmall v hv) (not_lt.mpr hmax)

theorem buildsExactly_iff_five :
    (∀ seq : SeqArg, seq.items.map SeqItem.bitno = [5].map objectAsSize → BuildsExactly seq (some ⟨1, [200]⟩) [5]) ↔
      ArgumentsFit 200 [5] := by
  refine buildsExactly_iff ?_
  rintro x ⟨⟩
  decide

/-- The bitset of the index `2 ^ 64 - 2` is written outside of its memory, which is that of no words at all. -/
theorem fromSeq_outside :
    bsInitFromseqOb ⟨[⟨some (2 ^ 64 - 2), true, true, fun _ => 0⟩], true, true, true⟩ none = none ∧
      ¬BuildsExactly ⟨[⟨some (2 ^ 64 - 2), true, true, fun _ => 0⟩], true, true, true⟩ none [2 ^ 64 - 2] := by
  have hfault : bsInitFromseqOb ⟨[⟨some (2 ^ 64 - 2), true, true, fun _ => 0⟩], true, true, true⟩ none = none := by
    decide +kernel
  refine ⟨hfault, fun hbuilds => ?_⟩
  obtain ⟨r, hr, -⟩ := hbuilds.result
  rw [hfault] at hr
  exact absurd hr (by simp)

end Condition

end Deemon.Collections
