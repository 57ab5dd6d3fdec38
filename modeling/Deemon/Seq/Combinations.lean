import Deemon.Lib.Tuples

/-!
# Combinations and permutations

The iterators of `combinations.c` keep a vector of indices and step to the next one in place: an index grows, and those
behind it are filled in again. A new iterator holds what would come before the first tuple, with an index that may wrap.
Vectors get their memory; those whose bytes wrap `size_t`, from about 2 ^ 61 indices on, are left out.
-/

namespace Deemon.Seq

open Deemon.Run Deemon.Iteration Deemon.Tuples

/-! ### The code -/

/-- `SeqCombinations`: the size of the sequence, and how many items are taken. -/
structure SeqCombinations where
  scSeqsize : ℕ
  scRparam : ℕ
  size_lt : scSeqsize < 2 ^ 64 - 1
  param_pos : 0 < scRparam
  param_lt : scRparam < 2 ^ 64

/-- `sc_getrparam`: without the parameter it is the size. -/
def SeqCombinations.getrparam (self : SeqCombinations) : ℕ :=
  if self.scRparam = 2 ^ 64 - 1 then (if self.scSeqsize = 0 then 1 else self.scSeqsize) else self.scRparam

/-- An index that has grown by one. -/
def grownTo (index : ℕ) : ℕ := (index + 1) % 2 ^ 64

/-- The indices of a new iterator: `0` to `rparam - 1`, with the last one decremented. -/
def normalMatrix (rparam : ℕ) : List ℕ := (List.range rparam).set (rparam - 1) ((rparam - 1 + (2 ^ 64 - 1)) % 2 ^ 64)

/-- `sc_iter` and `sp_iter`; `none` is the empty iterator. -/
def scIter (self : SeqCombinations) : Option (List ℕ) :=
  if self.scSeqsize < self.getrparam then none else some (normalMatrix self.getrparam)

/-- `src_iter`. -/
def srcIter (self : SeqCombinations) : Option (List ℕ) :=
  some ((List.replicate self.getrparam 0).set (self.getrparam - 1) (2 ^ 64 - 1))

/-- The search from the right for an index that can grow, of `sci_inc` and its siblings: its place and value. -/
def growing (grows : ℕ → ℕ → Bool) (idx : List ℕ) : Option (Option (ℕ × ℕ)) :=
  loop (fun i => do
    let i := i - 1
    let value ← rd idx i
    if grows i value then some (.done (some (i, value)))
    else if i ≠ 0 then some (.next i)
    else some (.done none)) idx.length idx.length

/-- `value < i + seqsize - rparam`. -/
def sciGrows (seqsize rparam i value : ℕ) : Bool := value < (i + seqsize + (2 ^ 64 - rparam)) % 2 ^ 64

/-- `value + 1 < seqsize`. -/
def srciGrows (seqsize _i value : ℕ) : Bool := grownTo value < seqsize

section Increments

variable (seqsize : ℕ) (idx : List ℕ)

/-- `sci_bool`. -/
def sciBool : Option Bool := do
  some (← growing (sciGrows seqsize idx.length) idx).isSome

/-- `sci_inc`. -/
def sciInc : Option (Bool × List ℕ) := do
  match ← growing (sciGrows seqsize idx.length) idx with
  | none => some (false, idx)
  | some (i, value) => do
    let (_, idx) ← forLoop (fun i (value, idx) => do
      let value := grownTo value
      some (value, ← wr idx i value)) i (idx.length - i) (value, idx)
    some (true, idx)

/-- `srci_bool`. -/
def srciBool : Option Bool := do
  some (← growing (srciGrows seqsize) idx).isSome

/-- `srci_inc`. -/
def srciInc : Option (Bool × List ℕ) := do
  match ← growing (srciGrows seqsize) idx with
  | none => some (false, idx)
  | some (i, value) => do
    let offset := grownTo value
    some (true, ← forLoop (fun i idx => wr idx i offset) i (idx.length - i) idx)

/-- `spi_bool`. -/
def spiBool : Option Bool :=
  loop (fun i => do
    if grownTo (← rd idx i) < (seqsize + (2 ^ 64 - i)) % 2 ^ 64 then some (.done true)
    else if i + 1 < idx.length then some (.next (i + 1))
    else some (.done false)) idx.length 0

end Increments

/-- Whether another index is the same. -/
def occurs (idx : List ℕ) (i index : ℕ) : Bool := (List.range idx.length).any fun j => j ≠ i ∧ cell idx j = index

/-- A round of `spi_inc` at an index. -/
def spiRound (seqsize : ℕ) : ℕ × List ℕ → Option (Step (ℕ × List ℕ) (Bool × List ℕ))
  | (i, idx) => do
    let index := grownTo (← rd idx i)
    let idx ← wr idx i index
    if seqsize ≤ index then
      if i = 0 then some (.done (false, ← wr idx i (seqsize - 1)))
      else some (.next (i - 1, ← wr idx i 0))
    else if occurs idx i index then some (.next (i, idx))
    else some (.done (true, idx))

/-- `spi_inc`. An index takes each value once at most. -/
def spiInc (seqsize : ℕ) (idx : List ℕ) : Option (Bool × List ℕ) := do
  let first ← rd idx 0
  if seqsize ≤ first ∧ first ≠ 2 ^ 64 - 1 ∧ idx.length ≠ 0 then some (false, idx)
  else loop (spiRound seqsize) (idx.length * (seqsize + 2)) (idx.length - 1, idx)

/-- `sci_next`, `srci_next` and `spi_next`: the view of an item shows the indices as they are then. -/
def nextWith (inc : List ℕ → Option (Bool × List ℕ)) (idx : List ℕ) : Option (Option (List ℕ) × List ℕ) := do
  let (more, idx) ← inc idx
  some (if more then some idx else none, idx)

example : nextWith (sciInc 3) (normalMatrix 2) = some (some [0, 1], [0, 1]) := by decide

/-! ### The search -/

section Search

variable {grows : ℕ → ℕ → Bool} {idx : List ℕ} {n : ℕ}

/-- The last index that can grow. -/
inductive LastGrowing (grows : ℕ → ℕ → Bool) (idx : List ℕ) : Option (ℕ × ℕ) → Prop where
  | none (h : ∀ j < idx.length, grows j (cell idx j) = false) : LastGrowing grows idx none
  | some (i : ℕ) (hi : i < idx.length) (h : grows i (cell idx i) = true)
      (hlast : ∀ j, i < j → j < idx.length → grows j (cell idx j) = false) : LastGrowing grows idx (some (i, cell idx i))

theorem growing_ends (grows : ℕ → ℕ → Bool) (hpos : 0 < idx.length) :
    Ends (growing grows idx) (LastGrowing grows idx) := by
  refine loop_ends (fun i => 0 < i ∧ i ≤ idx.length ∧ ∀ j, i ≤ j → j < idx.length → grows j (cell idx j) = false)
    (fun i => i - 1) ⟨hpos, le_rfl, by omega⟩ (by omega) ?_
  rintro i ⟨hi, hle, hlast⟩
  dsimp only
  rw [rd_of_lt (by omega), some_bind]
  cases hgrows : grows (i - 1) (cell idx (i - 1)) with
  | true => exact Ends.pure (.some (i - 1) (by omega) hgrows fun j hj => hlast j (by omega))
  | false =>
    have hlast' : ∀ j, i - 1 ≤ j → j < idx.length → grows j (cell idx j) = false := by
      intro j hj hlt
      rcases Nat.eq_or_lt_of_le hj with rfl | hj
      · exact hgrows
      · exact hlast j (by omega) hlt
    rw [if_neg Bool.false_ne_true]
    by_cases hzero : i - 1 ≠ 0
    · rw [if_pos hzero]
      exact Ends.pure ⟨⟨by omega, by omega, hlast'⟩, by dsimp only; omega⟩
    · rw [if_neg hzero]
      exact Ends.pure (.none fun j hj => hlast' j (by omega) hj)

end Search

/-! ### What an iterator is to enumerate -/

/-- The three kinds of tuples. -/
inductive Kind where
  | combinations
  | repeatCombinations
  | permutations

/-- How the indices of a tuple are to each other: ascending, not descending, or pairwise different. -/
def Kind.Related : Kind → List ℕ → Prop
  | .combinations, t => t.Pairwise (· < ·)
  | .repeatCombinations, t => t.Pairwise (· ≤ ·)
  | .permutations, t => t.Nodup

/-- The tuples of a kind. -/
def Kind.Valid (kind : Kind) (n r : ℕ) (t : List ℕ) : Prop := Tuple n r t ∧ kind.Related t

/-- The new iterator of a kind. -/
def Kind.iter : Kind → SeqCombinations → Option (List ℕ)
  | .combinations, self | .permutations, self => scIter self
  | .repeatCombinations, self => srcIter self

/-- The step of a kind. -/
def Kind.inc : Kind → ℕ → List ℕ → Option (Bool × List ℕ)
  | .combinations => sciInc
  | .repeatCombinations => srciInc
  | .permutations => spiInc

/-- The truth value of a kind. -/
def Kind.bool : Kind → ℕ → List ℕ → Option Bool
  | .combinations => sciBool
  | .repeatCombinations => srciBool
  | .permutations => spiBool

/-- A new iterator enumerates the tuples of its kind in lexicographic order, each once, and then ends for ever; before
every call its truth value says whether there is another tuple. -/
def Complete (kind : Kind) (self : SeqCombinations) : Prop :=
  ∃ tuples, Lists (kind.Valid self.scSeqsize self.getrparam) tuples ∧
    match kind.iter self with
    | none => tuples = []
    | some idx => Iterates (nextWith (kind.inc self.scSeqsize)) (kind.bool self.scSeqsize) idx tuples

section Facts

variable {kind : Kind} {self : SeqCombinations} {n r : ℕ} {t : List ℕ}

theorem Kind.Valid.length (h : kind.Valid n r t) : t.length = r := h.1.length

theorem Kind.exists_lists (kind : Kind) (n r : ℕ) : ∃ tuples, Lists (kind.Valid n r) tuples :=
  Tuples.exists_lists fun _ ht => ht.1

theorem getrparam_pos (self : SeqCombinations) : 0 < self.getrparam := by
  have hpos := self.param_pos
  unfold SeqCombinations.getrparam
  split_ifs <;> omega

/-- Ascending and pairwise different indices cannot be more than there are. -/
theorem Kind.Valid.le (h : kind.Valid n r t) (hkind : kind ≠ .repeatCombinations) : r ≤ n := by
  obtain ⟨htuple, hrelated⟩ := h
  cases kind with
  | combinations => exact htuple.le_of_nodup (hrelated.imp fun hlt => hlt.ne)
  | repeatCombinations => exact absurd rfl hkind
  | permutations => exact htuple.le_of_nodup hrelated

/-- Where more items are taken than there are, the empty iterator is right. -/
theorem complete_of_lt (hkind : kind ≠ .repeatCombinations) (h : self.scSeqsize < self.getrparam) : Complete kind self := by
  have hiter : kind.iter self = none := by
    cases kind with
    | combinations | permutations => exact if_pos h
    | repeatCombinations => exact absurd rfl hkind
  refine ⟨[], ⟨List.Pairwise.nil, fun t => iff_of_false List.not_mem_nil fun ht => ?_⟩, ?_⟩
  · have := ht.le hkind
    omega
  · rw [hiter]

theorem length_normalMatrix (r : ℕ) : (normalMatrix r).length = r := by simp [normalMatrix]

theorem cell_normalMatrix (hr : 2 ≤ r) (hlt : r < 2 ^ 64) {j : ℕ} (hj : j < r) :
    cell (normalMatrix r) j = if j = r - 1 then r - 2 else j := by
  unfold normalMatrix
  split_ifs with hlast
  · rw [hlast, cell_set_self (by simp; omega)]
    omega
  · rw [cell_set_of_ne (by omega)]
    simp [cell, hj]

end Facts

/-! ### Combinations -/

section Combinations

variable {self : SeqCombinations} {n r i value : ℕ} {t idx : List ℕ}

theorem cell_le_of_ascending (h : Kind.combinations.Valid n r t) {j : ℕ} (hj : j < r) : cell t j + r ≤ j + n := by
  have hlen := h.1.length
  have hlast := h.1.cell_lt (show r - 1 < r by omega)
  have hadd := add_le_cell (i := j) (n := r - 1 - j) h.2 (by omega)
  rw [show j + (r - 1 - j) = r - 1 by omega] at hadd
  omega

theorem fillAscending_ends (idx : List ℕ) (value : ℕ) (hi : i ≤ idx.length) (hfit : value + (idx.length - i) < 2 ^ 64) :
    Ends (forLoop (fun i (value, idx) => do
        let value := grownTo value
        some (value, ← wr idx i value)) i (idx.length - i) (value, idx)) fun s =>
      s.2.length = idx.length ∧ ∀ j, cell s.2 j = if i ≤ j ∧ j < idx.length then value + 1 + (j - i) else cell idx j := by
  have h := forLoop_ends (f := fun i (value, idx) => do
        let value := grownTo value
        some (value, ← wr idx i value)) (n := idx.length - i) (s := (value, idx))
    (fun k s => s.1 = value + (k - i) ∧ s.2.length = idx.length ∧
      ∀ j, cell s.2 j = if i ≤ j ∧ j < k then value + 1 + (j - i) else cell idx j) (a := i) ?_ ?_
  · rw [show i + (idx.length - i) = idx.length by omega] at h
    exact h.mono fun s hs => hs.2
  · refine ⟨by simp, rfl, fun j => ?_⟩
    rw [if_neg (by omega)]
  · rintro k ⟨v, l⟩ hik hk ⟨hv, hlen, hcells⟩
    dsimp only at hv hlen hcells ⊢
    have hmod : grownTo v = value + 1 + (k - i) := by
      rw [grownTo, Nat.mod_eq_of_lt (by omega)]
      omega
    rw [hmod, wr_of_lt (by omega)]
    refine Ends.pure ⟨by dsimp only; omega, by simpa using hlen, fun j => ?_⟩
    dsimp only
    by_cases hjk : j = k
    · subst hjk
      rw [cell_set_self (by omega), if_pos (by omega)]
    · rw [cell_set_of_ne (Ne.symm hjk), hcells]
      split_ifs <;> first | rfl | omega

theorem sciGrows_eq (hnr : r ≤ n) (hn : n < 2 ^ 64) (hi : i < r) : sciGrows n r i value = decide (value + r < i + n) := by
  rw [sciGrows, show i + n + (2 ^ 64 - r) = i + n - r + 2 ^ 64 by omega, Nat.add_mod_right,
    Nat.mod_eq_of_lt (by omega)]
  exact decide_eq_decide.mpr (by omega)

/-- The truth value is that of the answer, and the answer is the tuple that has grown at the last place where it can. -/
theorem sciNext_ends (idx : List ℕ) (hpos : 0 < idx.length) (hle : idx.length ≤ n) (hn : n < 2 ^ 64) :
    Ends (nextWith (sciInc n) idx) fun s => sciBool n idx = some s.1.isSome ∧ s.2.length = idx.length ∧
      ((s = (none, idx) ∧ ∀ j < idx.length, j + n ≤ cell idx j + idx.length) ∨
        ∃ i < idx.length, s.1 = some s.2 ∧ cell idx i + idx.length < i + n ∧
          (∀ j, i < j → j < idx.length → j + n ≤ cell idx j + idx.length) ∧
          ∀ j, cell s.2 j = if i ≤ j ∧ j < idx.length then cell idx i + 1 + (j - i) else cell idx j) := by
  have hgrows : ∀ i v, i < idx.length → sciGrows n idx.length i v = decide (v + idx.length < i + n) :=
    fun i v hi => sciGrows_eq hle hn hi
  obtain ⟨o, ho, hlast⟩ := growing_ends (sciGrows n idx.length) hpos
  rw [nextWith, sciInc, sciBool, ho]
  cases hlast with
  | none h =>
    refine Ends.pure ⟨rfl, rfl, .inl ⟨rfl, fun j hj => ?_⟩⟩
    have hj' := h j hj
    rw [hgrows j _ hj, decide_eq_false_iff_not] at hj'
    omega
  | some i hi h hbehind =>
    rw [hgrows i _ hi, decide_eq_true_eq] at h
    obtain ⟨⟨v, l⟩, hl, hlen, hcells⟩ := fillAscending_ends idx (cell idx i) hi.le (by omega)
    dsimp only [some_bind]
    rw [hl]
    refine Ends.pure ⟨rfl, hlen, .inr ⟨i, hi, rfl, h, fun j hij hj => ?_, hcells⟩⟩
    have hj' := hbehind j hij hj
    rw [hgrows j _ hj, decide_eq_false_iff_not] at hj'
    omega

/-- Ascending cells make a combination. -/
theorem valid_of_ascending (hlen : t.length = r) (hbelow : ∀ j < r, cell t j < n)
    (hasc : ∀ i j, i < j → j < r → cell t i < cell t j) : Kind.combinations.Valid n r t := by
  refine ⟨⟨hlen, fun x hx => ?_⟩, pairwise_cells.mpr fun i j hij hj => hasc i j hij (by omega)⟩
  obtain ⟨j, hj, rfl⟩ := List.mem_iff_getElem.mp hx
  have := hbelow j (by omega)
  simpa [cell, hj] using this

/-- Taking two items or more, all combinations are enumerated. -/
theorem complete_combinations (hr : 2 ≤ self.getrparam) (hle : self.getrparam ≤ self.scSeqsize) :
    Complete .combinations self := by
  have hsize := self.size_lt
  obtain ⟨tuples, htuples⟩ := Kind.combinations.exists_lists self.scSeqsize self.getrparam
  refine ⟨tuples, htuples, ?_⟩
  rw [show Kind.combinations.iter self = some (normalMatrix self.getrparam) from if_neg (by omega)]
  dsimp only [Kind.inc, Kind.bool]
  generalize hn : self.scSeqsize = n at *
  generalize hr' : self.getrparam = r at *
  refine iterates_of_follows (fun p s => s.length = r ∧
    (p = ⊥ ∧ s = normalMatrix r ∨ p = (s : WithBot (List ℕ)) ∧ Kind.combinations.Valid n r s)) htuples
    ⟨length_normalMatrix r, .inl ⟨rfl, rfl⟩⟩ ?_
  rintro p s ⟨hlen, hs⟩
  refine (sciNext_ends (n := n) s (by omega) (by omega) (by omega)).mono ?_
  rintro ⟨o, s'⟩ ⟨hbool, hlen', hnext⟩
  rw [hlen] at hnext hlen'
  rcases hnext with ⟨heq, hfull⟩ | ⟨i, hi, heq, hgrows, hfull, hcells⟩
  · obtain ⟨rfl, rfl⟩ := Prod.mk.inj heq
    refine ⟨?_, hbool, hlen, hs⟩
    rcases hs with ⟨rfl, rfl⟩ | ⟨rfl, hvalid⟩
    · have := hfull (r - 1) (by omega)
      rw [cell_normalMatrix hr (by omega) (by omega), if_pos rfl] at this
      omega
    · refine follows_none hlen (fun u hu => hu.length) fun u hu j hj _ => ?_
      have := cell_le_of_ascending hu hj
      have := hfull j hj
      omega
  · dsimp only at heq hlen' hcells
    subst heq
    have hvalue : ∀ j < r, cell s' j = if i ≤ j then cell s i + 1 + (j - i) else cell s j := by
      intro j hj
      rw [hcells]
      split_ifs <;> first | rfl | omega
    rcases hs with ⟨rfl, rfl⟩ | ⟨rfl, hvalid⟩
    · have hlast : i = r - 1 := by
        by_contra hne
        have := hfull (r - 1) (by omega) (by omega)
        rw [cell_normalMatrix hr (by omega) (by omega), if_pos rfl] at this
        omega
      have hfirst : ∀ j < r, cell s' j = j := by
        intro j hj
        rw [hvalue j hj, cell_normalMatrix hr (by omega) hi, cell_normalMatrix hr (by omega) hj]
        split_ifs <;> omega
      have hvalid : Kind.combinations.Valid n r s' := by
        refine valid_of_ascending hlen' (fun j hj => ?_) fun a b hab hb => ?_
        · rw [hfirst j hj]
          omega
        · rw [hfirst a (by omega), hfirst b hb]
          exact hab
      refine ⟨follows_bot hlen' hvalid (fun u hu => hu.length) fun u hu j hj => ?_, hbool, hlen', .inr ⟨rfl, hvalid⟩⟩
      have hadd := add_le_cell (i := 0) (n := j) hu.2 (by rw [hu.length]; omega)
      rw [hfirst j hj]
      rw [Nat.zero_add] at hadd
      omega
    · have hasc := pairwise_cells.mp hvalid.2
      have hvalid' : Kind.combinations.Valid n r s' := by
        refine valid_of_ascending hlen' (fun j hj => ?_) fun a b hab hb => ?_
        · have hbelow := hvalid.1.cell_lt hj
          rw [hvalue j hj]
          split_ifs <;> omega
        · rw [hvalue a (by omega), hvalue b hb]
          have hab' := hasc a b hab (by omega)
          split_ifs with ha hb'
          · omega
          · omega
          · rcases Nat.eq_or_lt_of_le (show i ≤ b from ‹_›) with rfl | hib
            · omega
            · have hai := hasc a i (by omega) (by omega)
              omega
          · exact hab'
      refine ⟨Grows.follows ⟨hi, ?_, ?_, ?_, ?_⟩ hlen hlen' hvalid' (fun u hu => hu.length), hbool, hlen', .inr ⟨rfl, hvalid'⟩⟩
      · intro j hj
        rw [hvalue j (by omega), if_neg (by omega)]
      · rw [hvalue i hi, if_pos le_rfl]
        omega
      · intro u hu j hij hj _
        have := cell_le_of_ascending hu hj
        have := hfull j hij hj
        omega
      · intro u hu hsame j hij hj
        have hadd := add_le_cell (i := i) (n := j - i) hu.2 (by rw [hu.length]; omega)
        have hstart := hsame i le_rfl
        rw [hvalue i hi, if_pos le_rfl] at hstart
        rw [hvalue j hj, if_pos hij.le]
        rw [show i + (j - i) = j by omega] at hadd
        omega

/-- Taking one item, a new iterator ends at once. -/
theorem not_complete_combinations (hr : self.getrparam = 1) (hle : 1 ≤ self.scSeqsize) : ¬ Complete .combinations self := by
  rintro ⟨tuples, htuples, hiter⟩
  have hsize := self.size_lt
  rw [show Kind.combinations.iter self = some (normalMatrix self.getrparam) from if_neg (by omega)] at hiter
  dsimp only [Kind.inc] at hiter
  rw [hr] at htuples hiter
  have hidx : normalMatrix 1 = [2 ^ 64 - 1] := by decide
  obtain ⟨s, hs, -, -, hnext⟩ := sciNext_ends (n := self.scSeqsize) [2 ^ 64 - 1] Nat.one_pos hle (by omega)
  have hend : s.1 = none := by
    rcases hnext with ⟨rfl, -⟩ | ⟨i, hi, -, hgrows, -⟩
    · rfl
    · obtain rfl : i = 0 := Nat.lt_one_iff.mp hi
      have hcell : cell [2 ^ 64 - 1] 0 = 2 ^ 64 - 1 := rfl
      rw [hcell] at hgrows
      omega
  have hanswer := hiter.enumerates 0
  rw [answer, stateAfter, some_bind, hidx, hs, Option.map_some, hend, Option.some.injEq, eq_comm,
    List.getElem?_eq_none_iff] at hanswer
  have hmem := (htuples.mem [0]).mpr ⟨⟨rfl, by simp; omega⟩, List.pairwise_singleton _ _⟩
  rw [List.length_eq_zero_iff.mp (show tuples.length = 0 by omega)] at hmem
  exact List.not_mem_nil hmem

theorem complete_combinations_iff (self : SeqCombinations) :
    Complete .combinations self ↔ self.getrparam ≠ 1 ∨ self.scSeqsize = 0 := by
  have hpos := getrparam_pos self
  constructor
  · intro h
    by_contra hnot
    exact not_complete_combinations (by omega) (by omega) h
  · intro h
    by_cases hle : self.getrparam ≤ self.scSeqsize
    · exact complete_combinations (by omega) hle
    · exact complete_of_lt nofun (by omega)

end Combinations

/-! ### Combinations with repetition -/

section RepeatCombinations

variable {self : SeqCombinations} {n r i value : ℕ} {t idx : List ℕ}

theorem fillSame_ends (idx : List ℕ) (offset : ℕ) (hi : i ≤ idx.length) :
    Ends (forLoop (fun i idx => wr idx i offset) i (idx.length - i) idx) fun l =>
      l.length = idx.length ∧ ∀ j, cell l j = if i ≤ j ∧ j < idx.length then offset else cell idx j := by
  have h := forLoop_ends (f := fun i idx => wr idx i offset) (n := idx.length - i) (s := idx)
    (fun k l => l.length = idx.length ∧ ∀ j, cell l j = if i ≤ j ∧ j < k then offset else cell idx j) (a := i) ?_ ?_
  · rwa [show i + (idx.length - i) = idx.length by omega] at h
  · refine ⟨rfl, fun j => ?_⟩
    rw [if_neg (by omega)]
  · rintro k l hik hk ⟨hlen, hcells⟩
    rw [wr_of_lt (by omega)]
    refine Ends.pure ⟨by simpa using hlen, fun j => ?_⟩
    by_cases hjk : j = k
    · subst hjk
      rw [cell_set_self (by omega), if_pos (by omega)]
    · rw [cell_set_of_ne (Ne.symm hjk), hcells]
      split_ifs <;> first | rfl | omega

theorem srciNext_ends (idx : List ℕ) (hpos : 0 < idx.length) :
    Ends (nextWith (srciInc n) idx) fun s => srciBool n idx = some s.1.isSome ∧ s.2.length = idx.length ∧
      ((s = (none, idx) ∧ ∀ j < idx.length, n ≤ grownTo (cell idx j)) ∨
        ∃ i < idx.length, s.1 = some s.2 ∧ grownTo (cell idx i) < n ∧
          (∀ j, i < j → j < idx.length → n ≤ grownTo (cell idx j)) ∧
          ∀ j, cell s.2 j = if i ≤ j ∧ j < idx.length then grownTo (cell idx i) else cell idx j) := by
  have hstop : ∀ {i v}, srciGrows n i v = false → n ≤ grownTo v := by
    intro i v h
    rw [srciGrows, decide_eq_false_iff_not] at h
    exact not_lt.mp h
  obtain ⟨o, ho, hlast⟩ := growing_ends (srciGrows n) hpos
  rw [nextWith, srciInc, srciBool, ho]
  cases hlast with
  | none h => exact Ends.pure ⟨rfl, rfl, .inl ⟨rfl, fun j hj => hstop (h j hj)⟩⟩
  | some i hi h hbehind =>
    obtain ⟨l, hl, hlen, hcells⟩ := fillSame_ends idx (grownTo (cell idx i)) hi.le
    dsimp only [some_bind]
    rw [hl]
    exact Ends.pure ⟨rfl, hlen, .inr ⟨i, hi, rfl, of_decide_eq_true h, fun j hij hj => hstop (hbehind j hij hj), hcells⟩⟩

theorem valid_of_monotone (hlen : t.length = r) (hbelow : ∀ j < r, cell t j < n)
    (hmono : ∀ i j, i < j → j < r → cell t i ≤ cell t j) : Kind.repeatCombinations.Valid n r t := by
  refine ⟨⟨hlen, fun x hx => ?_⟩, pairwise_cells.mpr fun i j hij hj => hmono i j hij (by omega)⟩
  obtain ⟨j, hj, rfl⟩ := List.mem_iff_getElem.mp hx
  have := hbelow j (by omega)
  simpa [cell, hj] using this

/-- All combinations with repetition are enumerated. -/
theorem complete_repeatCombinations (self : SeqCombinations) : Complete .repeatCombinations self := by
  have hsize := self.size_lt
  have hpos := getrparam_pos self
  obtain ⟨tuples, htuples⟩ := Kind.repeatCombinations.exists_lists self.scSeqsize self.getrparam
  refine ⟨tuples, htuples, ?_⟩
  dsimp only [Kind.iter, srcIter, Kind.inc, Kind.bool]
  generalize self.scSeqsize = n at *
  generalize self.getrparam = r at *
  have hfresh : ∀ j < r, cell ((List.replicate r 0).set (r - 1) (2 ^ 64 - 1)) j = if j = r - 1 then 2 ^ 64 - 1 else 0 := by
    intro j hj
    split_ifs with hlast
    · rw [hlast, cell_set_self (by rw [List.length_replicate]; omega)]
    · rw [cell_set_of_ne (by omega), cell_replicate hj]
  have hwrap : grownTo (2 ^ 64 - 1) = 0 := by decide
  have hgrown : ∀ v, v < n → grownTo v = v + 1 := fun v hv => Nat.mod_eq_of_lt (by omega)
  refine iterates_of_follows (fun p s => s.length = r ∧ (p = ⊥ ∧ s = (List.replicate r 0).set (r - 1) (2 ^ 64 - 1) ∨
    p = (s : WithBot (List ℕ)) ∧ Kind.repeatCombinations.Valid n r s)) htuples ⟨by simp, .inl ⟨rfl, rfl⟩⟩ ?_
  rintro p s ⟨hlen, hs⟩
  refine (srciNext_ends (n := n) s (by omega)).mono ?_
  rintro ⟨o, s'⟩ ⟨hbool, hlen', hnext⟩
  rw [hlen] at hnext hlen'
  rcases hnext with ⟨heq, hfull⟩ | ⟨i, hi, heq, hgrows, hfull, hcells⟩
  · obtain ⟨rfl, rfl⟩ := Prod.mk.inj heq
    refine ⟨?_, hbool, hlen, hs⟩
    rcases hs with ⟨rfl, rfl⟩ | ⟨rfl, hvalid⟩
    · have hzero := hfull (r - 1) (by omega)
      rw [hfresh _ (by omega), if_pos rfl, hwrap] at hzero
      intro u hu _
      have := hu.1.cell_lt hpos
      omega
    · refine follows_none hlen (fun u hu => hu.length) fun u hu j hj _ => ?_
      have hstop := hfull j hj
      rw [hgrown _ (hvalid.1.cell_lt hj)] at hstop
      have := hu.1.cell_lt hj
      omega
  · dsimp only at heq hlen' hcells
    subst heq
    have hvalue : ∀ j < r, cell s' j = if i ≤ j then grownTo (cell s i) else cell s j := by
      intro j hj
      rw [hcells]
      split_ifs <;> first | rfl | omega
    rcases hs with ⟨rfl, rfl⟩ | ⟨rfl, hvalid⟩
    · have hlast : i = r - 1 := by
        by_contra hne
        have hzero := hfull (r - 1) (by omega) (by omega)
        rw [hfresh _ (by omega), if_pos rfl, hwrap] at hzero
        omega
      have hfirst : ∀ j < r, cell s' j = 0 := by
        intro j hj
        rw [hvalue j hj, hfresh i hi, if_pos hlast, hwrap, hfresh j hj]
        split_ifs <;> omega
      have hvalid : Kind.repeatCombinations.Valid n r s' := by
        refine valid_of_monotone hlen' (fun j hj => ?_) fun a b hab hb => ?_
        · rw [hfirst j hj]
          omega
        · rw [hfirst a (by omega), hfirst b hb]
      refine ⟨follows_bot hlen' hvalid (fun u hu => hu.length) fun u hu j hj => ?_, hbool, hlen', .inr ⟨rfl, hvalid⟩⟩
      rw [hfirst j hj]
      exact Nat.zero_le _
    · have hmono := pairwise_cells.mp hvalid.2
      rw [hgrown _ (hvalid.1.cell_lt hi)] at hgrows hvalue
      have hvalid' : Kind.repeatCombinations.Valid n r s' := by
        refine valid_of_monotone hlen' (fun j hj => ?_) fun a b hab hb => ?_
        · have hbelow := hvalid.1.cell_lt hj
          rw [hvalue j hj]
          split_ifs <;> omega
        · rw [hvalue a (by omega), hvalue b hb]
          have hab' := hmono a b hab (by omega)
          split_ifs with ha hb'
          · omega
          · omega
          · have hai := hmono a i (by omega) (by omega)
            omega
          · exact hab'
      refine ⟨Grows.follows ⟨hi, ?_, ?_, ?_, ?_⟩ hlen hlen' hvalid' (fun u hu => hu.length), hbool, hlen', .inr ⟨rfl, hvalid'⟩⟩
      · intro j hj
        rw [hvalue j (by omega), if_neg (by omega)]
      · rw [hvalue i hi, if_pos le_rfl]
      · intro u hu j hij hj _
        have hstop := hfull j hij hj
        rw [hgrown _ (hvalid.1.cell_lt hj)] at hstop
        have := hu.1.cell_lt hj
        omega
      · intro u hu hsame j hij hj
        have hle := pairwise_cells.mp hu.2 i j hij (by rw [hu.length]; exact hj)
        have hstart := hsame i le_rfl
        rw [hvalue i hi, if_pos le_rfl] at hstart
        rw [hvalue j hj, if_pos hij.le]
        omega

end RepeatCombinations

/-! ### Permutations -/

section Permutations

variable {self : SeqCombinations} {n r i x y : ℕ} {t idx : List ℕ}

theorem spiInc_start (idx : List ℕ) (hfirst : cell idx 0 < n ∨ cell idx 0 = 2 ^ 64 - 1) (hpos : 0 < idx.length) :
    spiInc n idx = loop (spiRound n) (idx.length * (n + 2)) (idx.length - 1, idx) := by
  rw [spiInc, rd_of_lt hpos, some_bind, if_neg]
  rintro ⟨hle, hne, -⟩
  omega

/-- The last index to the left cannot grow any more. -/
theorem spiRound_stop (idx : List ℕ) (hpos : 0 < idx.length) (h : n ≤ grownTo (cell idx 0)) :
    spiRound n (0, idx) = some (.done (false, idx.set 0 (n - 1))) := by
  rw [spiRound, rd_of_lt hpos, some_bind]
  dsimp only
  rw [wr_of_lt hpos, some_bind, if_pos h, if_pos rfl, wr_of_lt (by rwa [List.length_set]), some_bind, List.set_set]

/-- An index that cannot grow any more starts again at zero, and the one to its left grows. -/
theorem spiRound_carry (idx : List ℕ) (hi : i < idx.length) (hpos : 0 < i) (h : n ≤ grownTo (cell idx i)) :
    spiRound n (i, idx) = some (.next (i - 1, idx.set i 0)) := by
  rw [spiRound, rd_of_lt hi, some_bind]
  dsimp only
  rw [wr_of_lt hi, some_bind, if_pos h, if_neg hpos.ne', wr_of_lt (by rwa [List.length_set]), some_bind, List.set_set]

/-- An index grows to a value that no other index has. -/
theorem spiRound_free (idx : List ℕ) (hi : i < idx.length) (h : grownTo (cell idx i) < n)
    (hfree : ∀ j < idx.length, j ≠ i → cell idx j ≠ grownTo (cell idx i)) :
    spiRound n (i, idx) = some (.done (true, idx.set i (grownTo (cell idx i)))) := by
  have hoccurs : occurs (idx.set i (grownTo (cell idx i))) i (grownTo (cell idx i)) = false := by
    rw [occurs, List.any_eq_false]
    intro j hj
    rw [List.length_set, List.mem_range] at hj
    rw [decide_eq_true_eq]
    rintro ⟨hne, hsame⟩
    rw [cell_set_of_ne (Ne.symm hne)] at hsame
    exact hfree j hj hne hsame
  rw [spiRound, rd_of_lt hi, some_bind]
  dsimp only
  rw [wr_of_lt hi, some_bind, if_neg (by omega), hoccurs, if_neg Bool.false_ne_true]

/-- The step of a single index. -/
theorem spiInc_single (hx : x < n ∨ x = 2 ^ 64 - 1) :
    spiInc n [x] = some (if n ≤ grownTo x then (false, [n - 1]) else (true, [grownTo x])) := by
  rw [spiInc_start [x] hx Nat.one_pos, show [x].length * (n + 2) = n + 1 + 1 by simp]
  by_cases hend : n ≤ grownTo x
  · rw [if_pos hend]
    exact loop_done (spiRound_stop [x] Nat.one_pos hend)
  · rw [if_neg hend]
    refine loop_done (spiRound_free [x] Nat.one_pos (not_le.mp hend) fun j hj hne => ?_)
    exact absurd (Nat.lt_one_iff.mp hj) hne

theorem spiBool_single (hn : n < 2 ^ 64) : spiBool n [x] = some (decide (grownTo x < n)) := by
  have hrd : rd [x] 0 = some x := rfl
  have hsize : (n + (2 ^ 64 - 0)) % 2 ^ 64 = n := by omega
  refine loop_done ?_
  rw [hrd, some_bind, hsize]
  by_cases hlt : grownTo x < n
  · rw [if_pos hlt, decide_eq_true hlt]
  · rw [if_neg hlt, if_neg (by simp), decide_eq_false hlt]

/-- Single items are permuted as they should be. -/
theorem complete_permutations_one (hr : self.getrparam = 1) (hle : 1 ≤ self.scSeqsize) : Complete .permutations self := by
  have hsize := self.size_lt
  obtain ⟨tuples, htuples⟩ := Kind.permutations.exists_lists self.scSeqsize self.getrparam
  refine ⟨tuples, htuples, ?_⟩
  rw [show Kind.permutations.iter self = some (normalMatrix self.getrparam) from if_neg (by omega)]
  dsimp only [Kind.inc, Kind.bool]
  rw [hr] at htuples ⊢
  generalize self.scSeqsize = n at *
  have hwrap : grownTo (2 ^ 64 - 1) = 0 := by decide
  have hgrown : ∀ v, v < n → grownTo v = v + 1 := fun v hv => Nat.mod_eq_of_lt (by omega)
  have hvalid : ∀ u, Kind.permutations.Valid n 1 u → ∃ v < n, u = [v] := by
    intro u hu
    obtain ⟨v, rfl⟩ := List.length_eq_one_iff.mp hu.length
    exact ⟨v, hu.1.below v List.mem_cons_self, rfl⟩
  have hsingle : ∀ v < n, Kind.permutations.Valid n 1 [v] :=
    fun v hv => ⟨⟨rfl, fun x hx => (List.mem_singleton.mp hx) ▸ hv⟩, List.pairwise_singleton _ _⟩
  have hlt : ∀ v w : ℕ, ([v] : List ℕ) < [w] ↔ v < w := by
    intro v w
    refine (lt_iff_cells (s := [v]) (t := [w]) rfl).trans ?_
    constructor
    · rintro ⟨k, hk, -, hless⟩
      obtain rfl : k = 0 := Nat.lt_one_iff.mp hk
      exact hless
    · exact fun hless => ⟨0, Nat.one_pos, nofun, hless⟩
  refine iterates_of_follows (fun p s => (p = ⊥ ∧ s = [2 ^ 64 - 1]) ∨ ∃ v < n, p = (([v] : List ℕ) : WithBot (List ℕ)) ∧ s = [v])
    htuples (.inl ⟨rfl, by decide⟩) ?_
  rintro p s (⟨rfl, rfl⟩ | ⟨v, hv, rfl, rfl⟩)
  · rw [nextWith, spiInc_single (.inr rfl), hwrap, if_neg (by omega), spiBool_single (by omega), hwrap]
    refine Ends.pure ⟨⟨hsingle 0 hle, WithBot.bot_lt_coe _, ?_⟩, ?_, .inr ⟨0, hle, rfl, rfl⟩⟩
    · intro u hu _
      obtain ⟨w, -, rfl⟩ := hvalid u hu
      exact not_lt.mp fun hw => absurd ((hlt w 0).mp hw) (Nat.not_lt_zero w)
    · rw [decide_eq_true (show 0 < n from hle)]
      rfl
  · rw [nextWith, spiInc_single (.inl hv), spiBool_single (by omega), hgrown v hv]
    by_cases hend : n ≤ v + 1
    · rw [if_pos hend, decide_eq_false (by omega)]
      obtain rfl : v = n - 1 := by omega
      refine Ends.pure ⟨fun u hu hvu => ?_, rfl, .inr ⟨n - 1, hv, rfl, rfl⟩⟩
      obtain ⟨w, hw, rfl⟩ := hvalid u hu
      have := (hlt _ w).mp (WithBot.coe_lt_coe.mp hvu)
      omega
    · rw [if_neg hend, decide_eq_true (by omega)]
      refine Ends.pure ⟨⟨hsingle (v + 1) (by omega), WithBot.coe_lt_coe.mpr ((hlt _ _).mpr (by omega)), ?_⟩, rfl,
        .inr ⟨v + 1, by omega, rfl, rfl⟩⟩
      intro u hu hvu
      obtain ⟨w, hw, rfl⟩ := hvalid u hu
      have := (hlt _ w).mp (WithBot.coe_lt_coe.mp hvu)
      exact not_lt.mp fun hw => absurd ((hlt w _).mp hw) (by omega)

/-- Two items are permuted as they should be. -/
theorem complete_permutations_two (hr : self.getrparam = 2) (hsize : self.scSeqsize = 2) : Complete .permutations self := by
  refine ⟨[[0, 1], [1, 0]], ⟨by decide, fun t => ?_⟩, ?_⟩
  · rw [hr, hsize]
    constructor
    · intro ht
      rcases List.mem_pair.mp ht with rfl | rfl
      · exact ⟨⟨rfl, by decide⟩, by simp [Kind.Related]⟩
      · exact ⟨⟨rfl, by decide⟩, by simp [Kind.Related]⟩
    · rintro ⟨⟨hlen, hbelow⟩, hnodup⟩
      obtain ⟨x, y, rfl⟩ := List.length_eq_two.mp hlen
      have hx := hbelow x (by simp)
      have hy := hbelow y (by simp)
      have hxy : x ≠ y := by simpa [Kind.Related] using hnodup
      simp
      omega
  · rw [show Kind.permutations.iter self = some (normalMatrix self.getrparam) from if_neg (by omega), hr, hsize]
    dsimp only [Kind.inc, Kind.bool]
    refine iterates_of_inv (fun i s => i = 0 ∧ s = [0, 0] ∨ i = 1 ∧ s = [0, 1] ∨ 2 ≤ i ∧ s = [1, 0]) (.inl ⟨rfl, by decide⟩) ?_
    rintro i s (⟨rfl, rfl⟩ | ⟨rfl, rfl⟩ | ⟨hi, rfl⟩)
    · exact ⟨(some [0, 1], [0, 1]), by decide, rfl, by decide, .inr (.inl ⟨rfl, rfl⟩)⟩
    · exact ⟨(some [1, 0], [1, 0]), by decide, rfl, by decide, .inr (.inr ⟨le_rfl, rfl⟩)⟩
    · refine ⟨(none, [1, 0]), by decide, ?_, by decide, .inr (.inr ⟨by omega, rfl⟩)⟩
      rw [List.getElem?_eq_none (by simpa using hi)]

/-- What a round leaves. -/
theorem spiRound_post {step : Step (ℕ × List ℕ) (Bool × List ℕ)} (h : spiRound n (i, idx) = some step) :
    (0 < i ∧ step = .next (i - 1, idx.set i 0)) ∨ (i = 0 ∧ step = .done (false, idx.set 0 (n - 1))) ∨
      (∃ v < n, step = .next (i, idx.set i v)) ∨ ∃ v < n, step = .done (true, idx.set i v) := by
  have hi : i < idx.length := by
    by_contra hout
    rw [spiRound, rd, if_neg hout] at h
    cases h
  by_cases hend : n ≤ grownTo (cell idx i)
  · rcases Nat.eq_zero_or_pos i with rfl | hpos
    · rw [spiRound_stop idx hi hend] at h
      cases h
      exact .inr (.inl ⟨rfl, rfl⟩)
    · rw [spiRound_carry idx hi hpos hend] at h
      cases h
      exact .inl ⟨hpos, rfl⟩
  · rw [spiRound, rd_of_lt hi, some_bind] at h
    dsimp only at h
    rw [wr_of_lt hi, some_bind, if_neg hend] at h
    split at h
    · cases h
      exact .inr (.inr (.inl ⟨_, not_le.mp hend, rfl⟩))
    · cases h
      exact .inr (.inr (.inr ⟨_, not_le.mp hend, rfl⟩))

/-- Two indices of which the first is below the size. -/
def PairBelow (n : ℕ) (idx : List ℕ) : Prop := ∃ x y, idx = [x, y] ∧ x < n

/-- The end of two indices is no place to stay: the first one is the last of the sequence, and the second one starts again. -/
theorem spiInc_pair {b : Bool} {l : List ℕ} (h : PairBelow n idx) (hrun : spiInc n idx = some (b, l)) :
    PairBelow n l ∧ (b = false → l = [n - 1, 0]) := by
  obtain ⟨x, y, rfl, hx⟩ := h
  rw [spiInc_start [x, y] (.inl hx) (Nat.succ_pos 1)] at hrun
  refine loop_post (fun s => (s.1 = 1 ∧ PairBelow n s.2) ∨ ∃ x, s = (0, [x, 0]))
    (Q := fun r : Bool × List ℕ => PairBelow n r.2 ∧ (r.1 = false → r.2 = [n - 1, 0])) (.inl ⟨rfl, x, y, rfl, hx⟩) ?_ hrun
  rintro ⟨i, idx⟩ step hinv hstep
  have hpost := spiRound_post hstep
  rcases hinv with ⟨hi, x, y, hidx, hx⟩ | ⟨x, hidx⟩
  · dsimp only at hi hidx
    subst hi hidx
    rcases hpost with ⟨-, rfl⟩ | ⟨hi, -⟩ | ⟨v, hv, rfl⟩ | ⟨v, hv, rfl⟩
    · exact .inr ⟨x, rfl⟩
    · cases hi
    · exact .inl ⟨rfl, x, v, rfl, hx⟩
    · exact ⟨⟨x, v, rfl, hx⟩, nofun⟩
  · obtain ⟨rfl, rfl⟩ := Prod.mk.inj hidx
    rcases hpost with ⟨hi, -⟩ | ⟨-, rfl⟩ | ⟨v, hv, rfl⟩ | ⟨v, hv, rfl⟩
    · cases hi
    · exact ⟨⟨n - 1, 0, rfl, by omega⟩, fun _ => rfl⟩
    · exact .inr ⟨v, rfl⟩
    · exact ⟨⟨v, 0, rfl, hv⟩, nofun⟩

/-- Taking two of three items or more, an iterator that has ended goes on. -/
theorem not_complete_permutations_two (hr : self.getrparam = 2) (hsize : 3 ≤ self.scSeqsize) :
    ¬ Complete .permutations self := by
  rintro ⟨tuples, -, hiter⟩
  have hlt := self.size_lt
  rw [show Kind.permutations.iter self = some (normalMatrix self.getrparam) from if_neg (by omega), hr] at hiter
  dsimp only [Kind.inc] at hiter
  generalize self.scSeqsize = n at *
  obtain ⟨s, r, hs, hnext, hitem, hafter⟩ := hiter.enumerates.call tuples.length
  have hpair : PairBelow n s := by
    refine stateAfter_post (PairBelow n) ⟨0, 0, by decide, by omega⟩ (fun t r ht hr => ?_) hs
    obtain ⟨⟨b, l⟩, hinc, hr⟩ := of_bind hr
    cases hr
    exact (spiInc_pair ht hinc).1
  obtain ⟨⟨b, l⟩, hinc, hr⟩ := of_bind hnext
  obtain ⟨-, hend⟩ := spiInc_pair hpair hinc
  rw [List.getElem?_eq_none le_rfl] at hitem
  cases hr
  have hb : b = false := by
    cases b
    · rfl
    · cases hitem
  have hfree : ∀ j < [n - 1, 0].length, j ≠ 1 → cell [n - 1, 0] j ≠ grownTo 0 := by
    intro j hj hne
    obtain rfl : j = 0 := by
      rw [List.length_cons, List.length_singleton] at hj
      omega
    exact (show 1 < n - 1 by omega).ne'
  have hround := spiRound_free [n - 1, 0] (show 1 < 2 by omega) (show grownTo 0 < n from (show 1 < n by omega)) hfree
  have hgoes : spiInc n [n - 1, 0] = some (true, [n - 1, 1]) := by
    rw [spiInc_start [n - 1, 0] (.inl (show n - 1 < n by omega)) (Nat.succ_pos 1),
      show [n - 1, 0].length * (n + 2) = 2 * n + 3 + 1 by simp; omega]
    exact loop_done hround
  have hanswer := hiter.enumerates (tuples.length + 1)
  rw [answer, hafter, some_bind, hend hb, nextWith, hgoes, some_bind, List.getElem?_eq_none (Nat.le_succ _)] at hanswer
  cases hanswer

/-- The last permutation that starts with `0` to `r - 2`. -/
def lastOfFirst (n r : ℕ) : List ℕ := (List.range r).set (r - 1) (n - 1)

theorem cell_lastOfFirst {j : ℕ} (hj : j < r) : cell (lastOfFirst n r) j = if j = r - 1 then n - 1 else j := by
  unfold lastOfFirst
  split_ifs with hlast
  · rw [hlast, cell_set_self (by simp; omega)]
  · rw [cell_set_of_ne (by omega)]
    simp [cell, hj]

theorem length_lastOfFirst (n r : ℕ) : (lastOfFirst n r).length = r := by simp [lastOfFirst]

theorem valid_lastOfFirst (hr : 0 < r) (hle : r ≤ n) : Kind.permutations.Valid n r (lastOfFirst n r) := by
  have hlen := length_lastOfFirst n r
  refine ⟨⟨hlen, fun x hx => ?_⟩, pairwise_cells.mpr fun i j hij hj => ?_⟩
  · obtain ⟨j, hj, rfl⟩ := List.mem_iff_getElem.mp hx
    have hcell := cell_lastOfFirst (n := n) (show j < r by omega)
    rw [show (lastOfFirst n r)[j] = cell (lastOfFirst n r) j by simp [cell, hj], hcell]
    split_ifs <;> omega
  · rw [cell_lastOfFirst (by omega), cell_lastOfFirst (by omega)]
    split_ifs <;> omega

/-- Behind it the second last index grows, and the last one is zero, as the first one is. -/
theorem spiInc_lastOfFirst (hr : 3 ≤ r) (hle : r ≤ n) (hn : n < 2 ^ 64 - 1) :
    spiInc n (lastOfFirst n r) = some (true, ((lastOfFirst n r).set (r - 1) 0).set (r - 2) (r - 1)) := by
  have hlen := length_lastOfFirst n r
  have hgrown : ∀ v, v < n → grownTo v = v + 1 := fun v hv => Nat.mod_eq_of_lt (by omega)
  have hcells : ∀ j < r, cell ((lastOfFirst n r).set (r - 1) 0) j = if j = r - 1 then 0 else j := by
    intro j hj
    split_ifs with hlast
    · rw [hlast, cell_set_self (by omega)]
    · rw [cell_set_of_ne (by omega), cell_lastOfFirst hj, if_neg hlast]
  have hlast : cell (lastOfFirst n r) (r - 1) = n - 1 := by rw [cell_lastOfFirst (by omega), if_pos rfl]
  have hfirst : cell (lastOfFirst n r) 0 = 0 := by rw [cell_lastOfFirst (by omega), if_neg (by omega)]
  have hcarry : spiRound n (r - 1, lastOfFirst n r) = some (.next (r - 1 - 1, (lastOfFirst n r).set (r - 1) 0)) := by
    refine spiRound_carry _ (by omega) (by omega) ?_
    rw [hlast, hgrown _ (by omega)]
    omega
  have hsecond : grownTo (cell ((lastOfFirst n r).set (r - 1) 0) (r - 2)) = r - 1 := by
    rw [hcells _ (by omega), if_neg (by omega), hgrown _ (by omega)]
    omega
  have hfree : spiRound n (r - 1 - 1, (lastOfFirst n r).set (r - 1) 0) =
      some (.done (true, ((lastOfFirst n r).set (r - 1) 0).set (r - 2) (r - 1))) := by
    have h := spiRound_free (n := n) (i := r - 2) ((lastOfFirst n r).set (r - 1) 0) (by rw [List.length_set]; omega)
      (by omega) fun j hj hne => ?_
    · rwa [hsecond] at h
    · rw [List.length_set, hlen] at hj
      rw [hsecond, hcells j hj]
      split_ifs <;> omega
  have hfuel : r * (n + 2) = r * n + 2 * r - 2 + 1 + 1 := by
    rw [Nat.mul_add]
    omega
  rw [spiInc_start _ (.inl (by omega)) (by omega), hlen, hfuel, loop_next hcarry, loop_done hfree]

/-- Taking three items or more, a tuple is yielded in which the first item comes twice. -/
theorem not_complete_permutations (hr : 3 ≤ self.getrparam) (hle : self.getrparam ≤ self.scSeqsize) :
    ¬ Complete .permutations self := by
  rintro ⟨tuples, htuples, hiter⟩
  have hlt := self.size_lt
  rw [show Kind.permutations.iter self = some (normalMatrix self.getrparam) from if_neg (by omega)] at hiter
  dsimp only [Kind.inc] at hiter
  generalize self.scSeqsize = n at *
  generalize self.getrparam = r at *
  have hlen := length_lastOfFirst n r
  obtain ⟨i, hi, hlast⟩ := List.mem_iff_getElem.mp ((htuples.mem _).mpr (valid_lastOfFirst (n := n) (r := r) (by omega) hle))
  obtain ⟨s, res, -, hnext, hitem, hafter⟩ := hiter.enumerates.call i
  rw [List.getElem?_eq_getElem hi, hlast] at hitem
  have hstate : res.2 = lastOfFirst n r := by
    obtain ⟨⟨b, l⟩, -, hres⟩ := of_bind hnext
    cases hres
    cases b
    · cases hitem
    · exact Option.some.inj hitem
  have hanswer := hiter.enumerates (i + 1)
  rw [answer, hafter, some_bind, hstate, nextWith, spiInc_lastOfFirst hr hle hlt, some_bind] at hanswer
  have htwice := (htuples.mem _).mp (List.mem_of_getElem? (Option.some.inj hanswer).symm)
  refine pairwise_cells.mp htwice.2 0 (r - 1) (by omega) (by simp; omega) ?_
  rw [cell_set_of_ne (by omega), cell_set_of_ne (by omega), cell_set_of_ne (by omega), cell_set_self (by omega),
    cell_lastOfFirst (by omega), if_neg (by omega)]

theorem complete_permutations_iff (self : SeqCombinations) : Complete .permutations self ↔
    self.scSeqsize < self.getrparam ∨ self.getrparam = 1 ∨ self.getrparam = 2 ∧ self.scSeqsize = 2 := by
  have hpos := getrparam_pos self
  constructor
  · intro h
    by_contra hnot
    by_cases htwo : self.getrparam = 2
    · exact not_complete_permutations_two htwo (by omega) h
    · exact not_complete_permutations (by omega) (by omega) h
  · intro h
    by_cases hlt : self.scSeqsize < self.getrparam
    · exact complete_of_lt nofun hlt
    · rcases h with h | h | ⟨h, hsize⟩
      · exact absurd h hlt
      · exact complete_permutations_one h (by omega)
      · exact complete_permutations_two h hsize

end Permutations

/-! ### All kinds -/

/-- Combinations are enumerated unless one of some items is taken, combinations with repetition always, and permutations
when there are too few items, or one is taken, or both of two. -/
theorem complete_iff (self : SeqCombinations) :
    (Complete .combinations self ↔ self.getrparam ≠ 1 ∨ self.scSeqsize = 0) ∧ Complete .repeatCombinations self ∧
    (Complete .permutations self ↔
      self.scSeqsize < self.getrparam ∨ self.getrparam = 1 ∨ self.getrparam = 2 ∧ self.scSeqsize = 2) :=
  ⟨complete_combinations_iff self, complete_repeatCombinations self, complete_permutations_iff self⟩

/-- Three items taken one by one are not enumerated: the new iterator ends at once. -/
theorem complete_fails : ¬ Complete .combinations ⟨3, 1, by decide, by decide, by decide⟩ ∧
    nextWith (sciInc 3) (normalMatrix 1) = some (none, [2 ^ 64 - 1]) :=
  ⟨not_complete_combinations rfl (by decide), by decide⟩

end Deemon.Seq
