import Deemon.Int.FixedWidth
import Deemon.Int.IncDec

/-!
# Machine integers and integer objects compared

`DeeInt_Size_Compare` and `DeeInt_SSize_Compare` take the integer object out as a word, with `DeeInt_TryGetSizeBit`, and
compare words. When it does not fit, nothing is stored and the word that is compared is the one the variable held before.
-/

namespace Deemon.Int

open Deemon.Run Deemon.Radix DeeInt

/-! ### The comparisons -/

/-- `Dee_COMPARE_LO`. -/
def deeCompareLo : ℤ := -1

/-- `Dee_COMPARE_EQ`. -/
def deeCompareEq : ℤ := 0

/-- `Dee_COMPARE_GR`. -/
def deeCompareGr : ℤ := 1

/-- `Dee_COMPARE_NE`. -/
def deeCompareNe : ℤ := 1

/-- `Dee_COMPARE_ERR`. -/
def deeCompareErr : ℤ := -2

/-- `DeeInt_TryGetSizeBit`, which is `DeeInt_TryGet64Bit`, on a variable that holds `garbage`. -/
def deeIntTryGetSizeBit (self : DeeInt) (garbage : ℕ) : Option (IntKind × ℕ) := do
  match ← deeIntTryGet64Bit self with
  | (.unsigned, bits) => some (.unsigned, bits)
  | (.signed, bits) => some (.signed, bits)
  | (error, _) => some (error, garbage)

/-- `Dee_ssize_compare_int`. -/
def ssizeCompareInt (lhs : ℤ) (rhs : DeeInt) (garbage : ℕ) : Option ℤ := do
  let (error, rhsValue) ← deeIntTryGetSizeBit rhs garbage
  if error = .unsigned ∧ 2 ^ 63 - 1 < rhsValue then some deeCompareLo
  else if lhs < castSigned 64 rhsValue then some deeCompareLo
  else if castSigned 64 rhsValue < lhs then some deeCompareGr
  else some deeCompareEq

/-- `Dee_ssize_compare_int_eq`. -/
def ssizeCompareIntEq (lhs : ℤ) (rhs : DeeInt) (garbage : ℕ) : Option ℤ := do
  let (error, rhsValue) ← deeIntTryGetSizeBit rhs garbage
  if lhs ≠ castSigned 64 rhsValue then some deeCompareNe
  else if error = .unsigned ∧ 2 ^ 63 - 1 < rhsValue then some deeCompareNe
  else some deeCompareEq

/-- `Dee_size_compare_int`. -/
def sizeCompareInt (lhs : ℕ) (rhs : DeeInt) (garbage : ℕ) : Option ℤ := do
  let (error, rhsValue) ← deeIntTryGetSizeBit rhs garbage
  if error = .signed ∧ castSigned 64 rhsValue < 0 then some deeCompareGr
  else if lhs < rhsValue then some deeCompareLo
  else if rhsValue < lhs then some deeCompareGr
  else some deeCompareEq

/-- `Dee_size_compare_int_eq`. -/
def sizeCompareIntEq (lhs : ℕ) (rhs : DeeInt) (garbage : ℕ) : Option ℤ := do
  let (error, rhsValue) ← deeIntTryGetSizeBit rhs garbage
  if lhs ≠ rhsValue then some deeCompareNe
  else if error = .signed ∧ castSigned 64 rhsValue < 0 then some deeCompareNe
  else some deeCompareEq

/-- The right operand: an integer object, or an object that may have an operator `int`, which gives an integer or fails. -/
inductive Comparand where
  | int (self : DeeInt)
  | other (asint : Option (Option DeeInt))

/-- `DeeInt_SSize_Compare`, `DeeInt_Size_Compare` and their variants `CompareEq`: the comparison is one of the four. -/
def compareObject (compare : DeeInt → Option ℤ) : Comparand → Option ℤ
  | .int self => compare self
  | .other (some (some rhsInt)) => compare rhsInt
  | .other (some none) => some deeCompareErr
  | .other none => some deeCompareErr

/-- `DeeInt_SSize_TryCompareEq` and `DeeInt_Size_TryCompareEq`. -/
def tryCompareObject (compare : DeeInt → Option ℤ) : Comparand → Option ℤ
  | .int self => compare self
  | .other (some (some rhsInt)) => compare rhsInt
  | .other (some none) => some deeCompareErr
  -- an object without the operator is just not equal
  | .other none => some deeCompareNe

/-- `DeeInt_SSize_Compare`. -/
def deeIntSSizeCompare (lhs : ℤ) (rhs : Comparand) (garbage : ℕ) : Option ℤ :=
  compareObject (ssizeCompareInt lhs · garbage) rhs

/-- `DeeInt_SSize_CompareEq`. -/
def deeIntSSizeCompareEq (lhs : ℤ) (rhs : Comparand) (garbage : ℕ) : Option ℤ :=
  compareObject (ssizeCompareIntEq lhs · garbage) rhs

/-- `DeeInt_SSize_TryCompareEq`. -/
def deeIntSSizeTryCompareEq (lhs : ℤ) (rhs : Comparand) (garbage : ℕ) : Option ℤ :=
  tryCompareObject (ssizeCompareIntEq lhs · garbage) rhs

/-- `DeeInt_Size_Compare`. -/
def deeIntSizeCompare (lhs : ℕ) (rhs : Comparand) (garbage : ℕ) : Option ℤ :=
  compareObject (sizeCompareInt lhs · garbage) rhs

/-- `DeeInt_Size_CompareEq`. -/
def deeIntSizeCompareEq (lhs : ℕ) (rhs : Comparand) (garbage : ℕ) : Option ℤ :=
  compareObject (sizeCompareIntEq lhs · garbage) rhs

/-- `DeeInt_Size_TryCompareEq`. -/
def deeIntSizeTryCompareEq (lhs : ℕ) (rhs : Comparand) (garbage : ℕ) : Option ℤ :=
  tryCompareObject (sizeCompareIntEq lhs · garbage) rhs

/-! ### One comparison for both types -/

/-- A `size_t` or an `ssize_t`. -/
inductive MachineInt where
  | size (lhs : ℕ) (fits : lhs < 2 ^ 64)
  | ssize (lhs : ℤ) (fits : -2 ^ 63 ≤ lhs ∧ lhs < 2 ^ 63)

namespace MachineInt

def toInt : MachineInt → ℤ
  | size lhs _ => lhs
  | ssize lhs _ => lhs

/-- The word that stands for it. -/
def word : MachineInt → ℕ
  | size lhs _ => lhs
  | ssize lhs _ => (lhs % 2 ^ 64).toNat

/-- `DeeInt_NewSize` and `DeeInt_NewSSize`. -/
def object : MachineInt → Option DeeInt
  | size lhs _ => deeIntNewUInt64 lhs
  | ssize lhs _ => deeIntNewInt64 lhs

def compare : MachineInt → Comparand → ℕ → Option ℤ
  | size lhs _ => deeIntSizeCompare lhs
  | ssize lhs _ => deeIntSSizeCompare lhs

def compareEq : MachineInt → Comparand → ℕ → Option ℤ
  | size lhs _ => deeIntSizeCompareEq lhs
  | ssize lhs _ => deeIntSSizeCompareEq lhs

def tryCompareEq : MachineInt → Comparand → ℕ → Option ℤ
  | size lhs _ => deeIntSizeTryCompareEq lhs
  | ssize lhs _ => deeIntSSizeTryCompareEq lhs

end MachineInt

/-- The three comparisons order the machine integer and the object as `int_compareint` orders the two objects: `d` is
its result, of which the sign counts. -/
structure ComparesAs (d : ℤ) (l : MachineInt) (rhs : Comparand) (garbage : ℕ) : Prop where
  compare : l.compare rhs garbage = some d.sign
  compareEq : l.compareEq rhs garbage = some (if d = 0 then deeCompareEq else deeCompareNe)
  tryCompareEq : l.tryCompareEq rhs garbage = some (if d = 0 then deeCompareEq else deeCompareNe)

/-- The comparisons agree with `int_compareint` on the object of the machine integer, whatever the variable holds. -/
def CompareAgrees (l : MachineInt) (r : DeeInt) : Prop :=
  ∃ lhs d, l.object = some lhs ∧ intCompareint lhs r = some d ∧
    ∀ garbage < 2 ^ 64, ComparesAs d l (.int r) garbage

/-! ### The order of the objects -/

section Order

variable {a b : DeeInt}

theorem toInt_lt_of_obSize_lt (ha : a.Canonical) (hb : b.Canonical) (h : a.obSize < b.obSize) :
    a.toInt < b.toInt := by
  have hnega := ha.toInt_neg_iff
  have hnegb := hb.toInt_neg_iff
  by_cases hpos : 0 ≤ a.obSize
  · have hmag := mag_lt_of_absSize_lt ha.toWF hb (by unfold absSize; omega)
    rw [toInt_of_nonneg hpos, toInt_of_nonneg (by omega)]
    exact_mod_cast hmag
  by_cases hneg : b.obSize < 0
  · have hmag := mag_lt_of_absSize_lt hb.toWF ha (by unfold absSize; omega)
    rw [toInt_of_neg (by omega), toInt_of_neg hneg]
    exact neg_lt_neg (by exact_mod_cast hmag)
  · omega

/-- `int_compareint` orders canonical objects as their numbers are ordered. -/
theorem intCompareint_ends (ha : a.Canonical) (hb : b.Canonical) :
    Ends (intCompareint a b) fun d => d.sign = (a.toInt - b.toInt).sign := by
  unfold intCompareint
  by_cases hsize : a.obSize = b.obSize
  · have habs : a.absSize = b.absSize := by rw [absSize, absSize, hsize]
    have hvalue : a.toInt - b.toInt = if a.obSize < 0 then (b.mag : ℤ) - a.mag else (a.mag : ℤ) - b.mag := by
      split_ifs with hneg
      · rw [toInt_of_neg hneg, toInt_of_neg (hsize ▸ hneg)]
        ring
      · rw [toInt_of_nonneg (not_lt.mp hneg), toInt_of_nonneg (hsize ▸ not_lt.mp hneg)]
    rw [if_neg (not_not.mpr hsize), hvalue]
    refine Ends.bind (xSubScan_ends ha.toWF hb.toWF le_rfl habs.le) fun scan hscan => ?_
    cases scan with
    | none =>
      have hmag : a.mag = b.mag := by
        unfold mag
        rw [← habs]
        exact seg_congr fun j hj => by simpa using hscan j hj
      rw [hmag]
      exact Ends.pure (by simp)
    | some i =>
      obtain ⟨hi, hne, htail⟩ := hscan
      have hdiff : (a.mag : ℤ) - b.mag =
          (seg digitBase a.obDigit 0 (i + 1) : ℤ) - seg digitBase b.obDigit 0 (i + 1) := by
        unfold mag
        rw [← habs]
        exact seg_sub_seg hi htail
      have hsign : ((cell a.obDigit i : ℤ) - cell b.obDigit i).sign = ((a.mag : ℤ) - b.mag).sign := by
        rcases Nat.lt_or_gt_of_ne hne with hlt | hlt
        · have hseg : seg digitBase a.obDigit 0 (i + 1) < seg digitBase b.obDigit 0 (i + 1) :=
            seg_lt_of_top_lt (ha.below.mono (by omega : i ≤ a.absSize)) (by rwa [Nat.zero_add])
          rw [Int.sign_eq_neg_one_of_neg (by omega), Int.sign_eq_neg_one_of_neg (by omega)]
        · have hseg : seg digitBase b.obDigit 0 (i + 1) < seg digitBase a.obDigit 0 (i + 1) :=
            seg_lt_of_top_lt (hb.below.mono (by omega : i ≤ b.absSize)) (by rwa [Nat.zero_add])
          rw [Int.sign_eq_one_of_pos (by omega), Int.sign_eq_one_of_pos (by omega)]
      dsimp only
      rw [rd_of_lt (ha.lt_length hi), rd_of_lt (hb.lt_length (by omega)), some_bind, some_bind]
      refine Ends.pure ?_
      split_ifs
      · rw [Int.sign_neg, hsign, ← Int.sign_neg, neg_sub]
      · exact hsign
  · rw [if_pos hsize]
    refine Ends.pure ?_
    rcases lt_or_gt_of_ne hsize with hlt | hlt
    · have hval := toInt_lt_of_obSize_lt ha hb hlt
      rw [Int.sign_eq_neg_one_of_neg (by omega), Int.sign_eq_neg_one_of_neg (by omega)]
    · have hval := toInt_lt_of_obSize_lt hb ha hlt
      rw [Int.sign_eq_one_of_pos (by omega), Int.sign_eq_one_of_pos (by omega)]

end Order

/-! ### The comparisons of words -/

section WordCompare

variable {r : DeeInt} {garbage : ℕ}

/-- The word is the number when it fits with one sign or the other, and else what the variable held. -/
theorem deeIntTryGetSizeBit_ends (hr : r.Canonical) (garbage : ℕ) : Ends (deeIntTryGetSizeBit r garbage) fun got =>
    (0 ≤ r.toInt ∧ r.toInt < 2 ^ 64 ∧ got = (.unsigned, r.toInt.toNat)) ∨
    (-2 ^ 63 ≤ r.toInt ∧ r.toInt < 0 ∧ got = (.signed, (r.toInt + 2 ^ 64).toNat)) ∨
    (¬(-2 ^ 63 ≤ r.toInt ∧ r.toInt < 2 ^ 64) ∧ got.1 ≠ .unsigned ∧ got.1 ≠ .signed ∧ got.2 = garbage) := by
  refine Ends.bind (deeIntTryGet64Bit_ends hr) ?_
  rintro ⟨kind, bits⟩ hclass
  rcases hclass with ⟨h0, h1, heq⟩ | ⟨h0, heq⟩ | ⟨h0, h1, heq⟩ | ⟨h0, heq⟩
  · obtain ⟨rfl, rfl⟩ := Prod.mk.inj heq
    exact Ends.pure (.inl ⟨h0, h1, rfl⟩)
  · obtain rfl : kind = .posOverflow := heq
    exact Ends.pure (.inr (.inr ⟨by omega, nofun, nofun, rfl⟩))
  · obtain ⟨rfl, rfl⟩ := Prod.mk.inj heq
    exact Ends.pure (.inr (.inl ⟨h0, h1, rfl⟩))
  · obtain rfl : kind = .negOverflow := heq
    exact Ends.pure (.inr (.inr ⟨by omega, nofun, nofun, rfl⟩))

theorem threeWay_eq (l n : ℤ) :
    (if l < n then some deeCompareLo else if n < l then some deeCompareGr else some deeCompareEq) =
      some (l - n).sign := by
  split_ifs with hlt hgt
  · rw [Int.sign_eq_neg_one_of_neg (by omega)]
    rfl
  · rw [Int.sign_eq_one_of_pos (by omega)]
    rfl
  · rw [show l - n = 0 by omega]
    rfl

theorem twoWay_eq (l n : ℤ) : (if l ≠ n then some deeCompareNe else some deeCompareEq) =
    some (if l = n then deeCompareEq else deeCompareNe) := by
  rw [ite_not]
  split_ifs <;> rfl

theorem ssizeCompareInt_eq {lhs : ℤ} (hlhs : -2 ^ 63 ≤ lhs ∧ lhs < 2 ^ 63) (hr : r.Canonical) (garbage : ℕ)
    (hfits : -2 ^ 63 ≤ r.toInt ∧ r.toInt < 2 ^ 64) :
    ssizeCompareInt lhs r garbage = some (lhs - r.toInt).sign ∧
      ssizeCompareIntEq lhs r garbage = some (if lhs = r.toInt then deeCompareEq else deeCompareNe) := by
  obtain ⟨got, hgot, hcases⟩ := deeIntTryGetSizeBit_ends hr garbage
  unfold ssizeCompareInt ssizeCompareIntEq
  rw [hgot, some_bind, some_bind]
  rcases hcases with ⟨h0, h1, rfl⟩ | ⟨h0, h1, rfl⟩ | ⟨hout, -⟩
  · dsimp only
    rw [castSigned_toNat h0]
    by_cases hlarge : r.toInt < 2 ^ 63
    · have hnot : ¬(IntKind.unsigned = .unsigned ∧ 2 ^ 63 - 1 < r.toInt.toNat) := by omega
      rw [if_neg hnot, if_neg hnot, if_pos (show r.toInt < 2 ^ (64 - 1) from hlarge)]
      exact ⟨threeWay_eq _ _, twoWay_eq _ _⟩
    · have hwide : IntKind.unsigned = .unsigned ∧ 2 ^ 63 - 1 < r.toInt.toNat := ⟨rfl, by omega⟩
      rw [if_pos hwide, if_pos hwide, ite_self, Int.sign_eq_neg_one_of_neg (by omega), if_neg (by omega)]
      exact ⟨rfl, rfl⟩
  · have hnot : ¬(IntKind.signed = .unsigned ∧ 2 ^ 63 - 1 < (r.toInt + 2 ^ 64).toNat) := fun h => nomatch h.1
    dsimp only
    rw [castSigned_of_neg (by norm_num) h0 h1, if_neg hnot, if_neg hnot]
    exact ⟨threeWay_eq _ _, twoWay_eq _ _⟩
  · exact absurd hfits hout

theorem sizeCompareInt_eq {lhs : ℕ} (hlhs : lhs < 2 ^ 64) (hr : r.Canonical) (garbage : ℕ)
    (hfits : -2 ^ 63 ≤ r.toInt ∧ r.toInt < 2 ^ 64) :
    sizeCompareInt lhs r garbage = some ((lhs : ℤ) - r.toInt).sign ∧
      sizeCompareIntEq lhs r garbage = some (if (lhs : ℤ) = r.toInt then deeCompareEq else deeCompareNe) := by
  obtain ⟨got, hgot, hcases⟩ := deeIntTryGetSizeBit_ends hr garbage
  unfold sizeCompareInt sizeCompareIntEq
  rw [hgot, some_bind, some_bind]
  rcases hcases with ⟨h0, h1, rfl⟩ | ⟨h0, h1, rfl⟩ | ⟨hout, -⟩
  · have hlt : lhs < r.toInt.toNat ↔ (lhs : ℤ) < r.toInt := by omega
    have hgt : r.toInt.toNat < lhs ↔ r.toInt < (lhs : ℤ) := by omega
    have hne : lhs ≠ r.toInt.toNat ↔ (lhs : ℤ) ≠ r.toInt := by omega
    have hnot : ¬(IntKind.unsigned = .signed ∧ castSigned 64 r.toInt.toNat < 0) := fun h => nomatch h.1
    dsimp only
    rw [if_neg hnot, if_neg hnot, if_congr hlt rfl rfl, if_congr hgt rfl rfl, if_congr hne rfl rfl]
    exact ⟨threeWay_eq _ _, twoWay_eq _ _⟩
  · have hneg : IntKind.signed = .signed ∧ r.toInt < 0 := ⟨rfl, h1⟩
    dsimp only
    rw [castSigned_of_neg (by norm_num) h0 h1, if_pos hneg, if_pos hneg, ite_self,
      Int.sign_eq_one_of_pos (by omega), if_neg (by omega)]
    exact ⟨rfl, rfl⟩
  · exact absurd hfits hout

/-- A variable that holds the left operand makes it equal to everything that does not fit. -/
theorem compare_of_garbage (l : MachineInt) (hr : r.Canonical) (hout : ¬(-2 ^ 63 ≤ r.toInt ∧ r.toInt < 2 ^ 64)) :
    l.compare (.int r) l.word = some deeCompareEq := by
  obtain ⟨⟨error, value⟩, hgot, hcases⟩ := deeIntTryGetSizeBit_ends hr l.word
  rcases hcases with ⟨h0, h1, -⟩ | ⟨h0, h1, -⟩ | ⟨-, hunsigned, hsigned, hvalue⟩
  · exact absurd ⟨by omega, h1⟩ hout
  · exact absurd ⟨h0, by omega⟩ hout
  dsimp only at hunsigned hsigned hvalue
  subst hvalue
  cases l with
  | size lhs hlhs =>
    show sizeCompareInt lhs r _ = _
    unfold sizeCompareInt
    rw [hgot, some_bind]
    simp [hsigned, MachineInt.word]
  | ssize lhs hlhs =>
    have hcast : castSigned 64 (lhs % 2 ^ 64).toNat = lhs := by
      rw [castSigned_toNat (by omega)]
      split_ifs <;> omega
    show ssizeCompareInt lhs r _ = _
    unfold ssizeCompareInt
    rw [hgot, some_bind]
    dsimp only [MachineInt.word]
    rw [hcast, if_neg fun h => hunsigned h.1, if_neg (lt_irrefl _), if_neg (lt_irrefl _)]

/-- The comparisons agree with `int_compareint` exactly on the integers that fit 64 bits with one sign or the other. -/
theorem compareAgrees_iff (l : MachineInt) (hr : r.Canonical) :
    CompareAgrees l r ↔ -2 ^ 63 ≤ r.toInt ∧ r.toInt < 2 ^ 64 := by
  obtain ⟨lhs, hlhs, hcanonical, hvalue⟩ : Ends l.object fun lhs => lhs.Canonical ∧ lhs.toInt = l.toInt := by
    cases l with
    | size lhs _ => exact newUnsigned_ends lhs
    | ssize lhs _ => exact newSigned_ends lhs
  obtain ⟨d, hd, hsign⟩ := intCompareint_ends hcanonical hr
  rw [hvalue] at hsign
  have hzero : d = 0 ↔ l.toInt = r.toInt := by rw [← Int.sign_eq_zero_iff_zero, hsign, Int.sign_eq_zero_iff_zero, sub_eq_zero]
  constructor
  · rintro ⟨lhs', d', hlhs', hd', hagree⟩
    obtain rfl : lhs = lhs' := Option.some.inj (hlhs.symm.trans hlhs')
    obtain rfl : d = d' := Option.some.inj (hd.symm.trans hd')
    by_contra hout
    have hword : l.word < 2 ^ 64 := by cases l <;> simp only [MachineInt.word] <;> omega
    have hrange : -2 ^ 63 ≤ l.toInt ∧ l.toInt < 2 ^ 64 := by cases l <;> simp only [MachineInt.toInt] <;> omega
    have heq := (hagree l.word hword).compare
    rw [compare_of_garbage l hr hout] at heq
    rw [hzero.mp (Int.sign_eq_zero_iff_zero.mp (Option.some.inj heq).symm)] at hrange
    exact hout hrange
  · intro hfits
    refine ⟨lhs, d, hlhs, hd, fun garbage _ => ?_⟩
    cases l with
    | size n hn =>
      obtain ⟨hcompare, heq⟩ := sizeCompareInt_eq hn hr garbage hfits
      have heq' := heq.trans (congrArg some (if_congr hzero.symm rfl rfl))
      exact ⟨hcompare.trans (congrArg some hsign.symm), heq', heq'⟩
    | ssize n hn =>
      obtain ⟨hcompare, heq⟩ := ssizeCompareInt_eq hn hr garbage hfits
      have heq' := heq.trans (congrArg some (if_congr hzero.symm rfl rfl))
      exact ⟨hcompare.trans (congrArg some hsign.symm), heq', heq'⟩

theorem compareAgrees_iff_minusOne : CompareAgrees (.ssize 5 (by omega)) ⟨-1, [1]⟩ ↔
    (-2 : ℤ) ^ 63 ≤ -1 ∧ (-1 : ℤ) < 2 ^ 64 :=
  compareAgrees_iff (.ssize 5 (by omega)) (r := ⟨-1, [1]⟩) (by decide)

/-- `DeeInt_Size_Compare` finds 0 equal to 2 ^ 64 when its variable holds 0. -/
theorem sizeCompare_equal_fails : DeeInt.Canonical ⟨3, [0, 0, 16]⟩ ∧
    deeIntSizeCompare 0 (.int ⟨3, [0, 0, 16]⟩) 0 = some deeCompareEq ∧
    intCompareint ⟨0, [0]⟩ ⟨3, [0, 0, 16]⟩ = some (-3) ∧
    ¬∀ l : MachineInt, ∀ r : DeeInt, r.Canonical → CompareAgrees l r := by
  refine ⟨by decide, by decide, by decide, fun hall => ?_⟩
  obtain ⟨lhs, d, hlhs, hd, hagree⟩ := hall (.size 0 (by norm_num)) ⟨3, [0, 0, 16]⟩ (by decide)
  have hcompare : deeIntSizeCompare 0 (.int ⟨3, [0, 0, 16]⟩) 0 = some d.sign := (hagree 0 (by norm_num)).compare
  have hequal : deeIntSizeCompare 0 (.int ⟨3, [0, 0, 16]⟩) 0 = some 0 := by decide
  have hobject : deeIntNewUInt64 0 = some ⟨0, [0]⟩ := by decide
  obtain rfl : ⟨0, [0]⟩ = lhs := Option.some.inj (hobject.symm.trans hlhs)
  have horder : intCompareint ⟨0, [0]⟩ ⟨3, [0, 0, 16]⟩ = some (-3) := by decide
  obtain rfl : -3 = d := Option.some.inj (horder.symm.trans hd)
  rw [hequal] at hcompare
  exact absurd (Option.some.inj hcompare) (by decide)

end WordCompare

end Deemon.Int
