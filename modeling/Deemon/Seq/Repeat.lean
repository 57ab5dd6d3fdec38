import Deemon.Lib.Iteration

/-!
# Repeated sequences

`Repeat` goes through a sequence several times. Its size is a checked product, but indexed access compares with the product
as the machine has it. The arithmetic of sizes is a parameter of the code: `wrapped` is that of the machine, and `fits 64`
is one in which no result may wrap.
-/

namespace Deemon.Seq

open Deemon.Run Deemon.Iteration

variable {α σ : Type}

/-! ### The code -/

/-- A value of type `size_t`. -/
def wrapped (n : ℕ) : Option ℕ := some (n % 2 ^ 64)

/-- What an access to a sequence raises: `DeeRT_ErrIndexOutOfBounds` with the index and the size, or `DeeRT_ErrIndexOverflow`. -/
inductive IndexError where
  | outOfBounds (index length : ℕ)
  | overflow
  deriving DecidableEq

/-- `DeeObject_GetItemIndex` of the underlying sequence. -/
def getItemIndex (items : List α) (index : ℕ) : Except IndexError α :=
  match items[index]? with
  | some item => .ok item
  | none => .error (.outOfBounds index items.length)

/-- `Repeat`: a sequence, whose size is not the `(size_t)-1` of an error, and how often it comes. -/
structure Repeat (α : Type) where
  rpSeq : List α
  rpNum : ℕ
  size_lt : rpSeq.length < 2 ^ 64 - 1
  num_pos : 0 < rpNum
  num_lt : rpNum < 2 ^ 64

/-- `repeat_init`. -/
def Repeat.init (seq : List α) (num : ℕ) (hseq : seq.length < 2 ^ 64 - 1) (hnum : num < 2 ^ 64) : Repeat α :=
  if h : num = 0 then ⟨[], 1, by simp, by simp, by simp⟩ else ⟨seq, num, hseq, by omega, hnum⟩

/-- `RepeatIterator`: what the iterator of the sequence has left, and how many loops are left. -/
structure RepeatIterator (α : Type) where
  rpiIter : List α
  rpiNum : ℕ

/-- `repeat_iter`. -/
def Repeat.iter (self : Repeat α) : RepeatIterator α := ⟨self.rpSeq, self.rpNum - 1⟩

/-- `repeatiter_next`; `none` is `ITER_DONE`. -/
def repeatiterNext (seq : List α) : List α → ℕ → Option α × RepeatIterator α
  | item :: rest, num => (some item, ⟨rest, num⟩)
  | [], 0 => (none, ⟨[], 0⟩)
  | [], num + 1 => repeatiterNext seq seq num

/-- `repeat_getitem_index`. -/
def Repeat.getitemIndex (size : ℕ → Option ℕ) (self : Repeat α) (index : ℕ) : Option (Except IndexError α) := do
  let total ← size (self.rpSeq.length * self.rpNum)
  if total ≤ index then some (.error (.outOfBounds index total))
  else some (getItemIndex self.rpSeq (index % self.rpSeq.length))

/-- `repeat_getitem`. -/
def Repeat.getitem (size : ℕ → Option ℕ) (self : Repeat α) (index : ℤ) : Option (Except IndexError α) :=
  if index < 0 ∨ 2 ^ 64 ≤ index then some (.error .overflow)
  else do
    let total ← size (self.rpSeq.length * self.rpNum)
    if total ≤ index.toNat then some (.error (.outOfBounds index.toNat total))
    else some (getItemIndex self.rpSeq (index.toNat % self.rpSeq.length))

/-- What a function for a size leaves: its value, and whether it has raised an `IntegerOverflow`. -/
structure SizeResult where
  value : ℕ
  raised : Bool
  deriving DecidableEq

/-- `repeat_size`. -/
def Repeat.size (self : Repeat α) : SizeResult :=
  if 2 ^ 64 ≤ self.rpSeq.length * self.rpNum then ⟨2 ^ 64 - 1, true⟩ else ⟨self.rpSeq.length * self.rpNum, false⟩

/-- Callbacks one after the other: their results are added up, and a negative one ends it. The sums are taken to fit
`Dee_ssize_t`, here and in the loops below. -/
def andThen (r : ℤ × σ) (rest : σ → ℤ × σ) : ℤ × σ :=
  if r.1 < 0 then r
  else
    let (result, s) := rest r.2
    (if result < 0 then result else r.1 + result, s)

/-- `DeeObject_Foreach` of the underlying sequence. -/
def foreachSeq (proc : α → σ → ℤ × σ) : List α → σ → ℤ × σ
  | [], s => (0, s)
  | item :: rest, s => andThen (proc item s) (foreachSeq proc rest)

/-- `repeat_foreach`. -/
def Repeat.foreach (self : Repeat α) (proc : α → σ → ℤ × σ) (s : σ) : Option (ℤ × σ) :=
  loop (fun (i, result, s) =>
    let (temp, s) := foreachSeq proc self.rpSeq s
    if temp < 0 then some (.done (temp, s))
    else if i + 1 < self.rpNum then some (.next (i + 1, result + temp, s))
    else some (.done (result + temp, s))) self.rpNum (0, 0, s)

/-! ### What it is to agree -/

/-- The repeated items. -/
def repeated (seq : List α) (num : ℕ) : List α := (List.replicate num seq).flatten

/-- Access to an index gives the item of a list there, and an error where there is none. -/
def Gives (r : Option (Except IndexError α)) (item : Option α) : Prop := ∃ e, r = some e ∧ e.toOption = item

/-- A size is returned, or raised as an overflow where it does not fit; `(size_t)-1` alone is an error without a cause. -/
def SizeResult.Tells (r : SizeResult) (count : ℕ) : Prop :=
  (r.raised = false ∧ r.value = count ∧ count ≠ 2 ^ 64 - 1) ∨ (r.raised = true ∧ 2 ^ 64 ≤ count)

/-- The item of a list at an index object. -/
def elementAt (items : List α) (index : ℤ) : Option α := if index < 0 then none else items[index.toNat]?

/-- Iteration, access and size of a repeated sequence agree, and no product that is used has wrapped. -/
structure Repeat.Agrees (rep : Repeat α) (items : List α) : Prop where
  iter : Enumerates (fun it => some (repeatiterNext rep.rpSeq it.rpiIter it.rpiNum)) rep.iter items
  foreach : ∀ (σ : Type) (proc : α → σ → ℤ × σ) (s : σ), rep.foreach proc s = some (foreachSeq proc items s)
  count : items.length = rep.rpSeq.length * rep.rpNum
  getitemIndex : ∀ index < 2 ^ 64, Gives (rep.getitemIndex wrapped index) items[index]?
  getitem : ∀ index, Gives (rep.getitem wrapped index) (elementAt items index)
  size : rep.size.Tells items.length
  unwrapped : ∀ index < 2 ^ 64, rep.getitemIndex (fits 64) index = rep.getitemIndex wrapped index ∧
    rep.getitem (fits 64) index = rep.getitem wrapped index

/-! ### Iteration -/

section Iteration

variable {seq : List α} {items rest : List α} {proc : α → σ → ℤ × σ} {s : σ} {num i : ℕ}

@[simp] theorem length_repeated (seq : List α) (num : ℕ) : (repeated seq num).length = num * seq.length := by
  simp [repeated]

theorem repeated_succ : repeated seq (num + 1) = seq ++ repeated seq num := by
  rw [repeated, List.replicate_succ, List.flatten_cons, repeated]

/-- An item of the repeated items is found by its index in the sequence. -/
theorem getElem?_repeated (h : i < num * seq.length) : (repeated seq num)[i]? = seq[i % seq.length]? := by
  induction num generalizing i with
  | zero => omega
  | succ num ih =>
    rw [Nat.succ_mul] at h
    rw [repeated_succ]
    by_cases hi : i < seq.length
    · rw [List.getElem?_append_left hi, Nat.mod_eq_of_lt hi]
    · rw [List.getElem?_append_right (by omega), ih (by omega), Nat.mod_eq_sub_mod (Nat.le_of_not_lt hi)]

/-- The next item is the first one that is left. -/
theorem repeatiterNext_spec (seq rest : List α) (num : ℕ) :
    let r := repeatiterNext seq rest num
    r.1 = (rest ++ repeated seq num).head? ∧
      r.2.rpiIter ++ repeated seq r.2.rpiNum = (rest ++ repeated seq num).tail := by
  induction num generalizing rest with
  | zero => cases rest <;> simp [repeatiterNext, repeated]
  | succ num ih =>
    cases rest with
    | nil =>
      rw [repeatiterNext, List.nil_append, repeated_succ]
      exact ih seq
    | cons item rest => simp [repeatiterNext]

theorem Repeat.iter_enumerates (self : Repeat α) :
    Enumerates (fun it => some (repeatiterNext self.rpSeq it.rpiIter it.rpiNum)) self.iter (repeated self.rpSeq self.rpNum) := by
  refine enumerates_of_inv (fun i it => it.rpiIter ++ repeated self.rpSeq it.rpiNum =
    (repeated self.rpSeq self.rpNum).drop i) ?_ ?_
  · have hnum := self.num_pos
    rw [Repeat.iter, ← repeated_succ, Nat.sub_add_cancel hnum, List.drop_zero]
  · intro i it hleft
    obtain ⟨hitem, hrest⟩ := repeatiterNext_spec self.rpSeq it.rpiIter it.rpiNum
    refine Ends.pure ⟨?_, ?_⟩
    · rw [hitem, hleft, List.head?_drop]
    · rw [hrest, hleft, List.tail_drop]

theorem andThen_zero (s : σ) (f : σ → ℤ × σ) : andThen (0, s) f = f s := by
  unfold andThen
  rw [if_neg (by omega)]
  dsimp only
  rw [zero_add, ite_self]

theorem andThen_assoc (r : ℤ × σ) (f g : σ → ℤ × σ) : andThen (andThen r f) g = andThen r fun s => andThen (f s) g := by
  obtain ⟨temp, s⟩ := r
  by_cases hstop : temp < 0
  · simp [andThen, hstop]
  · obtain ⟨result, s', hf⟩ : ∃ result s', f s = (result, s') := ⟨_, _, rfl⟩
    by_cases hneg : result < 0
    · simp [andThen, hstop, hf, hneg]
    · have hsum : ¬ temp + result < 0 := by omega
      by_cases hlast : (g s').1 < 0
      · simp [andThen, hstop, hf, hneg, hsum, hlast]
      · have htotal : ¬ result + (g s').1 < 0 := by omega
        simp [andThen, hstop, hf, hneg, hsum, hlast, htotal, add_assoc]

theorem foreachSeq_append (proc : α → σ → ℤ × σ) (as bs : List α) (s : σ) :
    foreachSeq proc (as ++ bs) s = andThen (foreachSeq proc as s) (foreachSeq proc bs) := by
  induction as generalizing s with
  | nil => exact (andThen_zero s _).symm
  | cons item as ih =>
    rw [List.cons_append, foreachSeq, foreachSeq, andThen_assoc]
    congr 1
    funext s'
    exact ih s'

/-- The loop over a sequence goes through the repeated items. -/
theorem Repeat.foreach_eq (self : Repeat α) (proc : α → σ → ℤ × σ) (s : σ) :
    self.foreach proc s = some (foreachSeq proc (repeated self.rpSeq self.rpNum) s) := by
  have hnum := self.num_pos
  rw [Repeat.foreach]
  suffices h : ∀ fuel i result s, 0 ≤ result → i < self.rpNum → self.rpNum - i = fuel →
      loop (fun (i, result, s) =>
        let (temp, s) := foreachSeq proc self.rpSeq s
        if temp < 0 then some (.done (temp, s))
        else if i + 1 < self.rpNum then some (.next (i + 1, result + temp, s))
        else some (.done (result + temp, s))) fuel (i, result, s) =
          some (andThen (result, s) (foreachSeq proc (repeated self.rpSeq fuel))) by
    rw [h self.rpNum 0 0 s le_rfl hnum (Nat.sub_zero _), andThen_zero]
  intro fuel
  induction fuel with
  | zero => omega
  | succ fuel ih =>
    intro i result s hresult hi hfuel
    have hsplit : foreachSeq proc (repeated self.rpSeq (fuel + 1)) =
        fun s => andThen (foreachSeq proc self.rpSeq s) (foreachSeq proc (repeated self.rpSeq fuel)) := by
      funext s
      rw [repeated_succ, foreachSeq_append]
    obtain ⟨temp, s', hround⟩ : ∃ temp s', foreachSeq proc self.rpSeq s = (temp, s') := ⟨_, _, rfl⟩
    rw [hsplit, ← andThen_assoc, loop]
    dsimp only
    rw [hround]
    dsimp only
    by_cases hstop : temp < 0
    · rw [if_pos hstop, some_bind]
      simp [andThen, hround, hstop, not_lt.mpr hresult]
    · have hsum : andThen (result, s) (foreachSeq proc self.rpSeq) = (result + temp, s') := by
        simp [andThen, hround, hstop, not_lt.mpr hresult]
      rw [if_neg hstop, hsum]
      by_cases hmore : i + 1 < self.rpNum
      · rw [if_pos hmore, some_bind]
        exact ih (i + 1) (result + temp) s' (by omega) hmore (by omega)
      · obtain rfl : fuel = 0 := by omega
        rw [if_neg hmore, some_bind]
        simp [andThen, repeated, foreachSeq, show ¬ result + temp < 0 by omega]

end Iteration

/-! ### Access and size -/

section Access

variable {seq : List α} {items : List α} {num i : ℕ}

theorem fits_eq_wrapped {n : ℕ} (h : n < 2 ^ 64) : fits 64 n = wrapped n := by
  rw [fits_of_lt h, wrapped, Nat.mod_eq_of_lt h]

theorem gives_error (e : IndexError) : Gives (some (.error e : Except IndexError α)) none := ⟨_, rfl, rfl⟩

theorem gives_getItemIndex (items : List α) (i : ℕ) : Gives (some (getItemIndex items i)) items[i]? := by
  refine ⟨_, rfl, ?_⟩
  unfold getItemIndex
  cases items[i]? <;> rfl

/-- Indexed access is right where the product has not wrapped, or is right by chance. -/
theorem Repeat.getitemIndex_gives_iff (self : Repeat α) {index : ℕ} (hindex : index < 2 ^ 64) :
    Gives (self.getitemIndex wrapped index) (repeated self.rpSeq self.rpNum)[index]? ↔
      self.rpSeq.length * self.rpNum < 2 ^ 64 ∨ index < self.rpSeq.length * self.rpNum % 2 ^ 64 := by
  rw [Repeat.getitemIndex, wrapped, some_bind]
  by_cases hout : self.rpSeq.length * self.rpNum % 2 ^ 64 ≤ index
  · rw [if_pos hout]
    by_cases hfit : self.rpSeq.length * self.rpNum < 2 ^ 64
    · rw [Nat.mod_eq_of_lt hfit] at hout
      have hend : (repeated self.rpSeq self.rpNum)[index]? = none := by
        rw [List.getElem?_eq_none_iff, length_repeated, Nat.mul_comm]
        exact hout
      rw [hend]
      exact iff_of_true (gives_error _) (.inl hfit)
    · refine iff_of_false ?_ (by omega)
      rintro ⟨e, he, hitem⟩
      cases he
      have hin : index < (repeated self.rpSeq self.rpNum).length := by
        rw [length_repeated, Nat.mul_comm]
        omega
      rw [List.getElem?_eq_getElem hin] at hitem
      cases hitem
  · have hle := Nat.mod_le (self.rpSeq.length * self.rpNum) (2 ^ 64)
    rw [if_neg hout, getElem?_repeated (by rw [Nat.mul_comm]; omega)]
    exact iff_of_true (gives_getItemIndex _ _) (.inr (by omega))

theorem Repeat.getitem_gives (self : Repeat α) (hfit : self.rpSeq.length * self.rpNum < 2 ^ 64) (index : ℤ) :
    Gives (self.getitem wrapped index) (elementAt (repeated self.rpSeq self.rpNum) index) := by
  unfold Repeat.getitem elementAt
  by_cases hneg : index < 0
  · rw [if_pos (.inl hneg), if_pos hneg]
    exact gives_error _
  · rw [if_neg hneg]
    by_cases hbig : 2 ^ 64 ≤ index
    · have hend : (repeated self.rpSeq self.rpNum)[index.toNat]? = none := by
        rw [List.getElem?_eq_none_iff, length_repeated, Nat.mul_comm]
        omega
      rw [if_pos (.inr hbig), hend]
      exact gives_error _
    · rw [if_neg (by omega)]
      exact (self.getitemIndex_gives_iff (by omega)).mpr (.inl hfit)

theorem Repeat.size_tells_iff (self : Repeat α) :
    self.size.Tells (self.rpSeq.length * self.rpNum) ↔ self.rpSeq.length * self.rpNum ≠ 2 ^ 64 - 1 := by
  unfold Repeat.size
  split
  · exact iff_of_true (.inr ⟨rfl, by assumption⟩) (by omega)
  · constructor
    · rintro (⟨-, -, h⟩ | ⟨h, -⟩)
      · exact h
      · cases h
    · exact fun h => .inl ⟨rfl, rfl, h⟩

/-- No product wraps just when the size fits a machine word. -/
theorem Repeat.unwrapped_iff (self : Repeat α) {index : ℕ} :
    self.getitemIndex (fits 64) index = self.getitemIndex wrapped index ↔ self.rpSeq.length * self.rpNum < 2 ^ 64 := by
  unfold Repeat.getitemIndex
  constructor
  · intro h
    by_contra hbig
    rw [show fits 64 (self.rpSeq.length * self.rpNum) = none from if_neg hbig, wrapped, some_bind] at h
    split at h <;> cases h
  · intro hfit
    rw [fits_eq_wrapped hfit]

/-- A repeated sequence agrees with its iteration just when its size is less than `(size_t)-1`. -/
theorem Repeat.agrees_iff (self : Repeat α) :
    (∃ items, self.Agrees items) ↔ self.rpSeq.length * self.rpNum < 2 ^ 64 - 1 := by
  constructor
  · rintro ⟨items, h⟩
    have hfit := self.unwrapped_iff.mp (h.unwrapped 0 (by decide)).1
    have hsize := h.size
    rw [h.count, self.size_tells_iff] at hsize
    omega
  · intro hfit
    have hfit' : self.rpSeq.length * self.rpNum < 2 ^ 64 := by omega
    refine ⟨repeated self.rpSeq self.rpNum, self.iter_enumerates, fun σ proc s => self.foreach_eq proc s, ?_, ?_,
      self.getitem_gives hfit', ?_, ?_⟩
    · rw [length_repeated, Nat.mul_comm]
    · exact fun index hindex => (self.getitemIndex_gives_iff hindex).mpr (.inl hfit')
    · rw [length_repeated, Nat.mul_comm, self.size_tells_iff]
      omega
    · intro index hindex
      refine ⟨self.unwrapped_iff.mpr hfit', ?_⟩
      unfold Repeat.getitem
      rw [fits_eq_wrapped hfit']

end Access

end Deemon.Seq
