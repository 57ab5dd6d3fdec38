import Deemon.Int.BitExtract

/-!
# The reference implementations of `int.pext` and `int.pdep`

The tests compare `int_pext` and `int_pdep` with two loops over runs of equal bits of the mask, `correctPExt` and
`correctPDep`. They work on integers of any size and sign, and they compute the same gathering and scattering.
-/

namespace Deemon.Int

open Deemon.Run Deemon.Bits Deemon.Gather DeeInt

/-! ### Definitions -/

/-- `int.ctz`, of an integer that is not zero. -/
def ctz (x : ℤ) : ℕ := (List.range (x.natAbs.size + 1)).findIdx x.testBit

/-- `int.ct1`, of an integer that is not -1. -/
def ct1 (x : ℤ) : ℕ := (List.range (x.natAbs.size + 1)).findIdx fun i => !x.testBit i

/-- `int.bitmask`. -/
def bitmask (n : ℕ) : ℤ := 2 ^ n - 1

/-- `correctPExt`. -/
def correctPExt (self mask : ℤ) : Option ℤ :=
  loop (fun (self, mask, result, resultShift) =>
    if mask ≠ 0 then
      let nSkip := ctz mask
      let mask := mask >>> nSkip
      let self := self >>> nSkip
      if mask = -1 then some (.done (Int.lor result (self <<< resultShift)))
      else
        let nCopy := ct1 mask
        let addend := Int.land self (bitmask nCopy)
        some (.next (self >>> nCopy, mask >>> nCopy, Int.lor result (addend <<< resultShift), resultShift + nCopy))
    else some (.done result)) (mask.natAbs + 1) (self, mask, 0, (0 : ℕ))

/-- `correctPDep`. -/
def correctPDep (self mask : ℤ) : Option ℤ :=
  loop (fun (self, mask, result, resultShift) =>
    if mask ≠ 0 then
      let nSkip := ctz mask
      let resultShift := resultShift + nSkip
      let mask := mask >>> nSkip
      if mask = -1 then some (.done (Int.lor result (self <<< resultShift)))
      else
        let nCopy := ct1 mask
        let addend := Int.land self (bitmask nCopy)
        some (.next (self >>> nCopy, mask >>> nCopy, Int.lor result (addend <<< resultShift), resultShift + nCopy))
    else some (.done result)) (mask.natAbs + 1) (self, mask, 0, (0 : ℕ))

/-- How many bits of an integer that is not negative are set. -/
def setBits (x : ℤ) : ℕ := bitCount x.testBit x.natAbs.size

/-! ### Runs of bits -/

section Runs

variable {x : ℤ} {n : ℕ} {p : ℕ → Bool}

theorem findIdx_range (h : ∃ i < n, p i = true) :
    p ((List.range n).findIdx p) = true ∧ ∀ j < (List.range n).findIdx p, p j = false := by
  have hlt : (List.range n).findIdx p < (List.range n).length := by
    obtain ⟨i, hi, hp⟩ := h
    exact List.findIdx_lt_length_of_exists ⟨i, List.mem_range.mpr hi, hp⟩
  refine ⟨?_, fun j hj => ?_⟩
  · have hget := List.findIdx_getElem (w := hlt)
    rwa [List.getElem_range] at hget
  · have hnot := List.not_of_lt_findIdx hj
    rwa [List.getElem_range] at hnot

theorem exists_testBit (h : x ≠ 0) : ∃ i < x.natAbs.size + 1, x.testBit i = true := by
  cases x with
  | ofNat a =>
    obtain ⟨i, hi⟩ := Nat.exists_testBit_of_ne_zero fun h0 => h (congrArg Int.ofNat h0)
    exact ⟨i, Nat.lt_succ_of_lt (Nat.lt_size.mpr (Nat.ge_two_pow_of_testBit hi)), hi⟩
  | negSucc a =>
    have hlt : a < 2 ^ (a + 1).size := lt_trans a.lt_succ_self (Nat.lt_size_self (a + 1))
    refine ⟨(a + 1).size, Nat.lt_succ_self _, ?_⟩
    change (!a.testBit _) = true
    rw [Nat.testBit_eq_false_of_lt hlt, Bool.not_false]

theorem exists_not_testBit (h : x ≠ -1) : ∃ i < x.natAbs.size + 1, (!x.testBit i) = true := by
  cases x with
  | ofNat a =>
    refine ⟨a.size, Nat.lt_succ_self _, ?_⟩
    change (!a.testBit a.size) = true
    rw [Nat.testBit_eq_false_of_lt (Nat.lt_size_self a), Bool.not_false]
  | negSucc a =>
    obtain ⟨i, hi⟩ := Nat.exists_testBit_of_ne_zero (x := a) fun h0 => h (by rw [h0]; rfl)
    have hle : 2 ^ i ≤ a + 1 := (Nat.ge_two_pow_of_testBit hi).trans a.le_succ
    refine ⟨i, Nat.lt_succ_of_lt (Nat.lt_size.mpr hle), ?_⟩
    change (!!a.testBit i) = true
    rw [hi]
    rfl

theorem ctz_spec (h : x ≠ 0) : x.testBit (ctz x) = true ∧ ∀ j < ctz x, x.testBit j = false :=
  findIdx_range (exists_testBit h)

theorem ct1_spec (h : x ≠ -1) : ∀ j < ct1 x, x.testBit j = true := fun j hj =>
  Bool.not_inj (show (!x.testBit j) = !true from (findIdx_range (exists_not_testBit h)).2 j hj)

theorem ct1_pos (h : x ≠ -1) (hbit : x.testBit 0 = true) : 0 < ct1 x := by
  refine Nat.pos_of_ne_zero fun h0 => ?_
  have hclear := (findIdx_range (exists_not_testBit h)).1
  change (!x.testBit (ct1 x)) = true at hclear
  rw [h0, hbit] at hclear
  cases hclear

end Runs

/-! ### The reference loops -/

section Loops

variable {x m : ℤ} {k s n : ℕ}

theorem shr_eq_neg_one (h : m >>> k = -1) {i : ℕ} (hi : k ≤ i) : m.testBit i = true := by
  obtain ⟨d, rfl⟩ := Nat.exists_eq_add_of_le hi
  rw [← testBit_shr, h, testBit_neg_one]

theorem shr_eq_zero (h : m >>> k = 0) {i : ℕ} (hi : k ≤ i) : m.testBit i = false := by
  obtain ⟨d, rfl⟩ := Nat.exists_eq_add_of_le hi
  rw [← testBit_shr, h]
  exact Nat.zero_testBit d

/-- A run of zeros of the mask, as `ctz` finds it. -/
theorem skip_zeros (h : m >>> k ≠ 0) : m.testBit (k + ctz (m >>> k)) = true ∧
    ∀ i < ctz (m >>> k), m.testBit (k + i) = false := by
  obtain ⟨hset, hclear⟩ := ctz_spec h
  rw [testBit_shr] at hset
  refine ⟨hset, fun i hi => ?_⟩
  rw [← testBit_shr]
  exact hclear i hi

/-- A run of ones of the mask, as `ct1` finds it. -/
theorem copy_ones (h : m >>> k ≠ -1) (hbit : m.testBit k = true) :
    0 < ct1 (m >>> k) ∧ ∀ i < ct1 (m >>> k), m.testBit (k + i) = true := by
  refine ⟨ct1_pos h ?_, fun i hi => ?_⟩
  · rw [testBit_shr, Nat.add_zero]
    exact hbit
  · rw [← testBit_shr]
    exact ct1_spec h i hi

theorem mask_decreases (h1 : m >>> (k + s) ≠ -1) (hbit : m.testBit (k + s) = true) (hn : 0 < n) :
    (m >>> (k + s) >>> n).natAbs < (m >>> k).natAbs := by
  have hne : m >>> (k + s) ≠ 0 := fun h => by
    rw [shr_eq_zero h le_rfl] at hbit
    cases hbit
  have hle : (m >>> (k + s)).natAbs ≤ (m >>> k).natAbs := by
    rw [Int.shiftRight_add]
    exact natAbs_shr_le _ _
  exact (natAbs_shr_lt hne h1 hn).trans_le hle

theorem bitCount_skip (h : ∀ i < s, m.testBit (k + i) = false) : bitCount m.testBit (k + s) = bitCount m.testBit k := by
  rw [bitCount_add, bitCount_eq_zero h, Nat.add_zero]

theorem bitCount_copy (h : ∀ i < n, m.testBit (k + i) = true) :
    bitCount m.testBit (k + n) = bitCount m.testBit k + n := by
  rw [bitCount_add, bitCount_eq_self h]

/-- A run of ones is gathered at once. -/
theorem gather_copy (h : ∀ i < n, m.testBit (k + i) = true) :
    Int.lor (gather m.testBit x.testBit k) (Int.land (x >>> k) (bitmask n) <<< bitCount m.testBit k) =
      (gather m.testBit x.testBit (k + n) : ℕ) := by
  refine testBit_ext fun j => ?_
  rw [Int.testBit_lor, testBit_shl, bitmask, testBit_land_ones, testBit_shr, gather_add]
  change ((gather m.testBit x.testBit k).testBit j || _) = Nat.testBit _ j
  rw [Nat.add_comm (gather m.testBit x.testBit k), Nat.testBit_two_pow_mul_add _ gather_lt]
  by_cases hj : j < bitCount m.testBit k
  · rw [if_pos hj, decide_eq_false (by omega), Bool.false_and, Bool.or_false]
  · rw [if_neg hj, testBit_gather_of_le (not_lt.mp hj), decide_eq_true (not_lt.mp hj), Bool.false_or, Bool.true_and,
      testBit_gather_of_ones h]

/-- A run of ones is scattered at once. -/
theorem scatter_copy (h : ∀ i < n, m.testBit (k + i) = true) :
    Int.lor (scatter m.testBit x.testBit k) (Int.land (x >>> bitCount m.testBit k) (bitmask n) <<< k) =
      (scatter m.testBit x.testBit (k + n) : ℕ) := by
  refine testBit_ext fun j => ?_
  rw [Int.testBit_lor, testBit_shl, bitmask, testBit_land_ones, testBit_shr, scatter_add]
  change ((scatter m.testBit x.testBit k).testBit j || _) = Nat.testBit _ j
  rw [Nat.add_comm (scatter m.testBit x.testBit k), Nat.testBit_two_pow_mul_add _ scatter_lt]
  by_cases hj : j < k
  · rw [if_pos hj, decide_eq_false (by omega), Bool.false_and, Bool.or_false]
  · have hhigh : (scatter m.testBit x.testBit k).testBit j = false :=
      Nat.testBit_eq_false_of_lt (lt_of_lt_of_le scatter_lt (Nat.pow_le_pow_right Nat.two_pos (not_lt.mp hj)))
    rw [if_neg hj, hhigh, decide_eq_true (not_lt.mp hj), Bool.false_or, Bool.true_and, testBit_scatter_of_ones h]

/-- The first reference implementation gathers. -/
theorem correctPExt_ends (x m : ℤ) :
    Ends (correctPExt x m) fun z => Gathers m.testBit x.testBit z.testBit := by
  unfold correctPExt
  refine loop_ends (fun s => ∃ k : ℕ, s = (x >>> k, m >>> k, ((gather m.testBit x.testBit k : ℕ) : ℤ),
    bitCount m.testBit k)) (fun s => s.2.1.natAbs) ⟨0, ?_⟩ (Nat.lt_succ_self _) ?_
  · rw [Int.shiftRight_zero, Int.shiftRight_zero]
    rfl
  rintro _ ⟨k, rfl⟩
  dsimp only
  by_cases h0 : m >>> k = 0
  · rw [if_neg (not_not.mpr h0)]
    exact Ends.pure (gathers_of_zeros fun i hi => by rw [shr_eq_zero h0 hi, Bool.false_and])
  rw [if_pos h0]
  obtain ⟨hbit, hzeros⟩ := skip_zeros h0
  generalize ctz (m >>> k) = s at hbit hzeros ⊢
  have hgather : gather m.testBit x.testBit k = gather m.testBit x.testBit (k + s) :=
    (gather_of_zeros fun i hi => by rw [hzeros i hi, Bool.false_and]).symm
  rw [← Int.shiftRight_add, ← Int.shiftRight_add, hgather, ← bitCount_skip hzeros]
  by_cases h1 : m >>> (k + s) = -1
  · rw [if_pos h1]
    have hbits := gathers_of_mask_ones (x := x.testBit) fun i hi => shr_eq_neg_one h1 hi
    refine Ends.pure ?_
    rw [Step.Sat, show (Int.lor _ _).testBit = _ from funext fun j => by
      rw [Int.testBit_lor, testBit_shl, testBit_shr]]
    exact hbits
  · rw [if_neg h1]
    obtain ⟨hpos, hones⟩ := copy_ones h1 hbit
    have hless := mask_decreases h1 hbit hpos
    generalize ct1 (m >>> (k + s)) = n at hpos hones hless ⊢
    refine Ends.pure ⟨⟨k + s + n, ?_⟩, hless⟩
    rw [gather_copy hones, bitCount_copy hones, ← Int.shiftRight_add, ← Int.shiftRight_add]

/-- The second one scatters. -/
theorem correctPDep_ends (x m : ℤ) :
    Ends (correctPDep x m) fun z => Scatters m.testBit x.testBit z.testBit := by
  unfold correctPDep
  refine loop_ends (fun s => ∃ k : ℕ, s = (x >>> bitCount m.testBit k, m >>> k,
    ((scatter m.testBit x.testBit k : ℕ) : ℤ), k)) (fun s => s.2.1.natAbs) ⟨0, ?_⟩ (Nat.lt_succ_self _) ?_
  · rw [bitCount_zero, Int.shiftRight_zero, Int.shiftRight_zero]
    rfl
  rintro _ ⟨k, rfl⟩
  dsimp only
  by_cases h0 : m >>> k = 0
  · rw [if_neg (not_not.mpr h0)]
    exact Ends.pure (scatters_of_zeros fun i hi => by rw [shr_eq_zero h0 hi, Bool.false_and])
  rw [if_pos h0]
  obtain ⟨hbit, hzeros⟩ := skip_zeros h0
  generalize ctz (m >>> k) = s at hbit hzeros ⊢
  have hscatter : scatter m.testBit x.testBit k = scatter m.testBit x.testBit (k + s) :=
    (scatter_of_zeros fun i hi => by rw [hzeros i hi, Bool.false_and]).symm
  rw [← Int.shiftRight_add, hscatter, ← bitCount_skip hzeros]
  by_cases h1 : m >>> (k + s) = -1
  · rw [if_pos h1]
    have hbits := scatters_of_mask_ones (x := x.testBit) fun i hi => shr_eq_neg_one h1 hi
    refine Ends.pure ?_
    rw [Step.Sat, show (Int.lor _ _).testBit = _ from funext fun j => by
      rw [Int.testBit_lor, testBit_shl, testBit_shr]]
    exact hbits
  · rw [if_neg h1]
    obtain ⟨hpos, hones⟩ := copy_ones h1 hbit
    have hless := mask_decreases h1 hbit hpos
    generalize ct1 (m >>> (k + s)) = n at hpos hones hless ⊢
    refine Ends.pure ⟨⟨k + s + n, ?_⟩, hless⟩
    rw [scatter_copy hones, bitCount_copy hones, ← Int.shiftRight_add, ← Int.shiftRight_add]

end Loops

/-! ### Results -/

section Results

variable {self mask : DeeInt}

theorem intPext_reference (hself : self.Canonical) (hmask : mask.Canonical) :
    Ends (intPext self mask) fun r => r.Canonical ∧ Gathers mask.toInt.testBit self.toInt.testBit r.toInt.testBit ∧
      correctPExt self.toInt mask.toInt = some r.toInt := by
  refine (intPext_ends hself hmask).mono fun r hr => ⟨hr.1, hr.2, ?_⟩
  obtain ⟨z, hz, hbits⟩ := correctPExt_ends self.toInt mask.toInt
  rw [hz, testBit_ext fun i => congrFun (hbits.unique hr.2) i]

/-- Behind the set bits of a mask that is not negative there are no positions. -/
theorem testBit_of_size_le {m : ℤ} (h : 0 ≤ m) {i : ℕ} (hi : m.natAbs.size ≤ i) : m.testBit i = false := by
  obtain ⟨n, rfl⟩ := Int.eq_ofNat_of_zero_le h
  exact Nat.testBit_eq_false_of_lt (Nat.size_le.mp hi)

/-- Extracting what was deposited gives back the low bits. -/
theorem intPext_deposited (hr : self.Canonical) (hmask : mask.Canonical) (hm : 0 ≤ mask.toInt) {x : ℤ} (hx : 0 ≤ x)
    (hbits : Scatters mask.toInt.testBit x.testBit self.toInt.testBit) :
    Ends (intPext self mask) fun z => z.toInt = x % 2 ^ setBits mask.toInt := by
  refine (intPext_ends hr hmask).mono fun z hz => testBit_ext fun i => ?_
  obtain ⟨n, rfl⟩ := Int.eq_ofNat_of_zero_le hx
  rw [hbits.gathers hz.2 (fun i hi => testBit_of_size_le hm hi) i]
  exact (Nat.testBit_mod_two_pow n (setBits mask.toInt) i).symm

/-- `int_pext` gathers the two's complement bits of `self` at the positions of the mask, and `int_pdep` scatters them,
both as the reference implementations do. All accesses stay inside the operands and the result. -/
theorem parallelBits_exact (self mask : DeeInt) (hself : self.Canonical) (hmask : mask.Canonical) :
    (Ends (intPext self mask) fun r => r.Canonical ∧ Gathers mask.toInt.testBit self.toInt.testBit r.toInt.testBit ∧
      correctPExt self.toInt mask.toInt = some r.toInt) ∧
    (0 ≤ self.toInt → 0 ≤ mask.toInt → Ends (intPdep self mask) fun r => r.Canonical ∧
      Scatters mask.toInt.testBit self.toInt.testBit r.toInt.testBit ∧
      correctPDep self.toInt mask.toInt = some r.toInt ∧
      Ends (intPext r mask) fun z => z.toInt = self.toInt % 2 ^ setBits mask.toInt) := by
  refine ⟨intPext_reference hself hmask, fun hx hm => ?_⟩
  refine (intPdep_ends hself hmask hx hm).mono fun r hr => ⟨hr.1, hr.2.2, ?_, ?_⟩
  · obtain ⟨z, hz, hbits⟩ := correctPDep_ends self.toInt mask.toInt
    rw [hz, testBit_ext fun i => congrFun (hbits.unique hr.2.2) i]
  · exact intPext_deposited hr.1 hmask hm hx hr.2.2

/-- Two digits, deposited into and extracted from a mask with a gap. -/
theorem parallelBits_exact_twoDigits :
    (Ends (intPext ⟨2, [5, 1]⟩ ⟨2, [6, 3]⟩) fun r => r.Canonical ∧
      Gathers (toInt ⟨2, [6, 3]⟩).testBit (toInt ⟨2, [5, 1]⟩).testBit r.toInt.testBit ∧
      correctPExt (toInt ⟨2, [5, 1]⟩) (toInt ⟨2, [6, 3]⟩) = some r.toInt) ∧
    (Ends (intPdep ⟨2, [5, 1]⟩ ⟨2, [6, 3]⟩) fun r => r.Canonical ∧
      Scatters (toInt ⟨2, [6, 3]⟩).testBit (toInt ⟨2, [5, 1]⟩).testBit r.toInt.testBit ∧
      correctPDep (toInt ⟨2, [5, 1]⟩) (toInt ⟨2, [6, 3]⟩) = some r.toInt ∧
      Ends (intPext r ⟨2, [6, 3]⟩) fun z =>
        z.toInt = (toInt ⟨2, [5, 1]⟩) % 2 ^ setBits (toInt ⟨2, [6, 3]⟩)) :=
  ⟨(parallelBits_exact ⟨2, [5, 1]⟩ ⟨2, [6, 3]⟩ (by decide) (by decide)).1,
    (parallelBits_exact ⟨2, [5, 1]⟩ ⟨2, [6, 3]⟩ (by decide) (by decide)).2 (by decide) (by decide)⟩

example : intPext ⟨-1, [6]⟩ ⟨-1, [4]⟩ = some ⟨-1, [2]⟩ := by rfl

end Results

end Deemon.Int
