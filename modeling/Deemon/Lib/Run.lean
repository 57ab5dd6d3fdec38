import Mathlib.Tactic.Ring
import Mathlib.Tactic.Linarith
import Mathlib.Tactic.LinearCombination
import Mathlib.Data.List.Basic

/-!
# Checked runs of imperative code

A run of a C function is a value of `Option`: `none` stands for a run that breaks an assertion, leaves a
buffer, or lets a machine value wrap where the code does not mean it to. A theorem `Ends m P` therefore says
three things at once: the run finishes, no check fails, and the result satisfies `P`.

Buffers are lists of natural numbers whose length is the allocated size (`rd`, `wr`, `cell`). Loops are the
two combinators `forLoop` (a counter going up) and `loop` (rounds until one of them leaves, with fuel); each
has one invariant rule (`forLoop_ends`, `loop_ends`), and a variant shows that the fuel of the second suffices.
-/

namespace Deemon.Run

variable {α β σ ρ : Type}

/-- The run ends without breaking a check, in a result that satisfies `P`. -/
def Ends (m : Option α) (P : α → Prop) : Prop := ∃ a, m = some a ∧ P a

theorem Ends.pure {P : α → Prop} {a : α} (h : P a) : Ends (some a) P := ⟨a, rfl, h⟩

theorem Ends.bind {m : Option α} {f : α → Option β} {P : α → Prop} {Q : β → Prop}
    (hm : Ends m P) (hf : ∀ a, P a → Ends (f a) Q) : Ends (m >>= f) Q := by
  obtain ⟨a, rfl, ha⟩ := hm
  exact hf a ha

theorem Ends.mono {m : Option α} {P Q : α → Prop} (hm : Ends m P) (h : ∀ a, P a → Q a) : Ends m Q := by
  obtain ⟨a, hma, ha⟩ := hm
  exact ⟨a, hma, h a ha⟩

theorem Ends.map {m : Option α} {f : α → β} {P : α → Prop} {Q : β → Prop} (hm : Ends m P) (h : ∀ a, P a → Q (f a)) :
    Ends (m.map f) Q := by
  obtain ⟨a, rfl, ha⟩ := hm
  exact ⟨f a, rfl, h a ha⟩

theorem Ends.of_eq {m : Option α} {P : α → Prop} {a : α} (hm : Ends m P) (h : m = some a) : P a := by
  obtain ⟨b, hb, hP⟩ := hm
  rw [h, Option.some.injEq] at hb
  rwa [hb]

/-- What a run that ends has done first. -/
theorem of_bind {m : Option α} {f : α → Option β} {b : β} (h : (m >>= f) = some b) : ∃ a, m = some a ∧ f a = some b :=
  Option.bind_eq_some_iff.mp h

@[simp] theorem some_bind (a : α) (f : α → Option β) : (some a >>= f) = f a := rfl

/-! ### Checks -/

/-- `ASSERT(p)`. -/
def assert (p : Prop) [Decidable p] : Option Unit := if p then some () else none

/-- A value that must fit an unsigned machine word of `w` bits. -/
def fits (w n : ℕ) : Option ℕ := if n < 2 ^ w then some n else none

theorem assert_of {p : Prop} [Decidable p] (h : p) : assert p = some () := if_pos h

theorem fits_of_lt {w n : ℕ} (h : n < 2 ^ w) : fits w n = some n := if_pos h

/-! ### Buffers -/

/-- The content of cell `i`, with a default outside the buffer. -/
def cell (l : List ℕ) (i : ℕ) : ℕ := l.getD i 0

/-- A read of `l[i]`. -/
def rd (l : List ℕ) (i : ℕ) : Option ℕ := if i < l.length then some (cell l i) else none

/-- A write `l[i] = v`. -/
def wr (l : List ℕ) (i v : ℕ) : Option (List ℕ) := if i < l.length then some (l.set i v) else none

theorem rd_of_lt {l : List ℕ} {i : ℕ} (h : i < l.length) : rd l i = some (cell l i) := if_pos h

theorem wr_of_lt {l : List ℕ} {i v : ℕ} (h : i < l.length) : wr l i v = some (l.set i v) := if_pos h

theorem cell_set_self {l : List ℕ} {i v : ℕ} (h : i < l.length) : cell (l.set i v) i = v := by
  simp [cell, h]

theorem cell_set_of_ne {l : List ℕ} {i j v : ℕ} (h : i ≠ j) : cell (l.set i v) j = cell l j := by
  simp [cell, List.getElem?_set_ne h]

theorem cell_of_le {l : List ℕ} {i : ℕ} (h : l.length ≤ i) : cell l i = 0 := by
  simp [cell, h]

theorem cell_replicate {n v i : ℕ} (h : i < n) : cell (List.replicate n v) i = v := by
  simp [cell, h]

/-- `l'` differs from `l` in the cells `s, …, s + n - 1` at most. -/
structure SameOut (l l' : List ℕ) (s n : ℕ) : Prop where
  length : l'.length = l.length
  out : ∀ j, j < s ∨ s + n ≤ j → cell l' j = cell l j

theorem SameOut.refl {l : List ℕ} {s n : ℕ} : SameOut l l s n := ⟨rfl, fun _ _ => rfl⟩

theorem SameOut.set {l : List ℕ} {i v : ℕ} : SameOut l (l.set i v) i 1 :=
  ⟨List.length_set, fun _ hj => cell_set_of_ne (by omega)⟩

theorem SameOut.trans {l l' l'' : List ℕ} {s n : ℕ} (h : SameOut l l' s n) (h' : SameOut l' l'' s n) :
    SameOut l l'' s n :=
  ⟨h'.length.trans h.length, fun j hj => (h'.out j hj).trans (h.out j hj)⟩

theorem SameOut.mono {l l' : List ℕ} {s n t m : ℕ} (h : SameOut l l' s n) (hlo : t ≤ s) (hhi : s + n ≤ t + m) :
    SameOut l l' t m :=
  ⟨h.length, fun j hj => h.out j (by omega)⟩

/-! ### Loops -/

/-- `for (i = lo; i < lo + n; ++i) s = f(i, s)`. -/
def forLoop (f : ℕ → σ → Option σ) : ℕ → ℕ → σ → Option σ
  | _, 0, s => some s
  | lo, n + 1, s => f lo s >>= forLoop f (lo + 1) n

/-- `for (i = n; i-- > 0;) s = f(i, s)`. -/
def forDown (f : ℕ → σ → Option σ) : ℕ → σ → Option σ
  | 0, s => some s
  | n + 1, s => f n s >>= forDown f n

/-- What one round of an open-ended loop does: go on in a new state, or leave with a result. -/
inductive Step (σ ρ : Type) where
  | next (s : σ)
  | done (r : ρ)

/-- A loop that runs until a round leaves it, for at most `fuel` rounds. -/
def loop (f : σ → Option (Step σ ρ)) : ℕ → σ → Option ρ
  | 0, _ => none
  | fuel + 1, s => f s >>= fun
    | .next s' => loop f fuel s'
    | .done r => some r

theorem loop_next {f : σ → Option (Step σ ρ)} {fuel : ℕ} {s s' : σ} (h : f s = some (.next s')) :
    loop f (fuel + 1) s = loop f fuel s' := by
  rw [loop, h, some_bind]

theorem loop_done {f : σ → Option (Step σ ρ)} {fuel : ℕ} {s : σ} {r : ρ} (h : f s = some (.done r)) :
    loop f (fuel + 1) s = some r := by
  rw [loop, h, some_bind]

/-- The first round of a loop that ends. -/
theorem loop_eq_some {f : σ → Option (Step σ ρ)} {fuel : ℕ} {s : σ} {r : ρ} (h : loop f (fuel + 1) s = some r) :
    f s = some (.done r) ∨ ∃ s', f s = some (.next s') ∧ loop f fuel s' = some r := by
  obtain ⟨step, hstep, hrest⟩ := of_bind h
  cases step with
  | done r' =>
    cases hrest
    exact .inl hstep
  | next s' => exact .inr ⟨s', hstep, hrest⟩

/-- The invariant rule of a counting loop. -/
theorem forLoop_ends {f : ℕ → σ → Option σ} (P : ℕ → σ → Prop) {a n : ℕ} {s : σ} (h0 : P a s)
    (hstep : ∀ i s, a ≤ i → i < a + n → P i s → Ends (f i s) (P (i + 1))) :
    Ends (forLoop f a n s) (P (a + n)) := by
  induction n generalizing a s with
  | zero => exact Ends.pure h0
  | succ n ih =>
    refine Ends.bind (hstep a s le_rfl (by omega) h0) fun s' hs' => ?_
    have h := ih hs' fun i s hlo hhi => hstep i s (by omega) (by omega)
    rwa [show a + 1 + n = a + (n + 1) by omega] at h

theorem forLoop_ends_zero {f : ℕ → σ → Option σ} (P : ℕ → σ → Prop) {n : ℕ} {s : σ} (h0 : P 0 s)
    (hstep : ∀ i s, i < n → P i s → Ends (f i s) (P (i + 1))) : Ends (forLoop f 0 n s) (P n) := by
  have h := forLoop_ends (n := n) P h0 fun i s _ hi => hstep i s (by omega)
  rwa [Nat.zero_add] at h

/-- A counting loop faults when one of its rounds does, whatever the rounds before it have left. -/
theorem forLoop_eq_none {f : ℕ → σ → Option σ} (P : σ → Prop) {a n i : ℕ} {s : σ} (h0 : P s) (hlo : a ≤ i)
    (hhi : i < a + n) (hstep : ∀ j s s', P s → f j s = some s' → P s') (hnone : ∀ s, P s → f i s = none) :
    forLoop f a n s = none := by
  induction n generalizing a s with
  | zero => omega
  | succ n ih =>
    rw [forLoop]
    rcases Nat.eq_or_lt_of_le hlo with rfl | hlt
    · rw [hnone s h0]
      rfl
    · cases hrun : f a s with
      | none => rfl
      | some s' => exact ih (hstep a s s' h0 hrun) hlt (by omega)

/-- Two counting loops run alike when their rounds do. -/
theorem forLoop_map {f : ℕ → σ → Option σ} {τ : Type} {g : ℕ → τ → Option τ} (P : ℕ → σ → Prop) (π : σ → τ) {a n : ℕ} {s : σ}
    (h0 : P a s) (hround : ∀ i s, a ≤ i → i < a + n → P i s → (f i s).map π = g i (π s))
    (hstep : ∀ i s s', a ≤ i → i < a + n → P i s → f i s = some s' → P (i + 1) s') :
    (forLoop f a n s).map π = forLoop g a n (π s) := by
  induction n generalizing a s with
  | zero => rfl
  | succ n ih =>
    have hfirst := hround a s le_rfl (by omega) h0
    rw [forLoop, forLoop, ← hfirst]
    cases hrun : f a s with
    | none => rfl
    | some s' =>
      exact ih (hstep a s s' le_rfl (by omega) h0 hrun) (fun i s hlo hhi => hround i s (by omega) (by omega))
        fun i s s' hlo hhi => hstep i s s' (by omega) (by omega)

theorem forLoop_congr {f g : ℕ → σ → Option σ} {a n : ℕ} {s : σ} (h : ∀ i s, a ≤ i → i < a + n → f i s = g i s) :
    forLoop f a n s = forLoop g a n s := by
  induction n generalizing a s with
  | zero => rfl
  | succ n ih =>
    rw [forLoop, forLoop, h a s le_rfl (by omega)]
    congr 1
    funext s'
    exact ih fun i s hlo hhi => h i s (by omega) (by omega)

/-- What holds of the result of a counting loop that ends. -/
theorem forLoop_post {f : ℕ → σ → Option σ} (P : ℕ → σ → Prop) {a n : ℕ} {s r : σ} (h0 : P a s)
    (hstep : ∀ i s s', a ≤ i → i < a + n → P i s → f i s = some s' → P (i + 1) s') (hrun : forLoop f a n s = some r) :
    P (a + n) r := by
  induction n generalizing a s with
  | zero =>
    cases hrun
    exact h0
  | succ n ih =>
    obtain ⟨s', hs', hrest⟩ := of_bind hrun
    have h := ih (hstep a s s' le_rfl (by omega) h0 hs') (fun i s s' hlo hhi => hstep i s s' (by omega) (by omega)) hrest
    rwa [show a + 1 + n = a + (n + 1) by omega] at h

/-- The invariant rule of a loop that counts down. -/
theorem forDown_ends {f : ℕ → σ → Option σ} (P : ℕ → σ → Prop) {n : ℕ} {s : σ} (h0 : P n s)
    (hstep : ∀ i s, i < n → P (i + 1) s → Ends (f i s) (P i)) : Ends (forDown f n s) (P 0) := by
  induction n generalizing s with
  | zero => exact Ends.pure h0
  | succ n ih =>
    exact Ends.bind (hstep n s (Nat.lt_succ_self n) h0) fun s' hs' =>
      ih hs' fun i s hi => hstep i s (by omega)

/-- What a round of `loop` must establish: the invariant and a smaller variant, or the postcondition. -/
def Step.Sat (P : σ → Prop) (μ : σ → ℕ) (bound : ℕ) (Q : ρ → Prop) : Step σ ρ → Prop
  | .next s => P s ∧ μ s < bound
  | .done r => Q r

/-- The invariant rule of an open-ended loop: the variant `μ` bounds the rounds. -/
theorem loop_ends {f : σ → Option (Step σ ρ)} (P : σ → Prop) (μ : σ → ℕ) {Q : ρ → Prop} {fuel : ℕ} {s : σ}
    (h0 : P s) (hfuel : μ s < fuel) (hstep : ∀ s, P s → Ends (f s) (Step.Sat P μ (μ s) Q)) :
    Ends (loop f fuel s) Q := by
  induction fuel generalizing s with
  | zero => omega
  | succ fuel ih =>
    refine Ends.bind (hstep s h0) fun r hr => ?_
    cases r with
    | next s' => exact ih hr.1 (by have := hr.2; omega)
    | done r => exact Ends.pure hr

/-- What a round of `loop` leaves: the invariant, or the postcondition. -/
def Step.Post (P : σ → Prop) (Q : ρ → Prop) : Step σ ρ → Prop
  | .next s => P s
  | .done r => Q r

/-- What holds of the result of a loop that ends. -/
theorem loop_post {f : σ → Option (Step σ ρ)} (P : σ → Prop) {Q : ρ → Prop} {fuel : ℕ} {s : σ} {r : ρ} (h0 : P s)
    (hstep : ∀ s step, P s → f s = some step → step.Post P Q) (hrun : loop f fuel s = some r) : Q r := by
  induction fuel generalizing s with
  | zero => cases hrun
  | succ fuel ih =>
    rcases loop_eq_some hrun with hdone | ⟨s', hnext, hrest⟩
    · exact hstep s _ h0 hdone
    · exact ih (hstep s _ h0 hnext) hrest

/-- A round with another result. -/
def Step.map {ρ' : Type} (π : ρ → ρ') : Step σ ρ → Step σ ρ'
  | .next s => .next s
  | .done r => .done (π r)

/-- Two loops run alike when their rounds do. -/
theorem loop_map {ρ' : Type} {f : σ → Option (Step σ ρ)} {g : σ → Option (Step σ ρ')} (P : σ → Prop) (π : ρ → ρ') {fuel : ℕ}
    {s : σ} (h0 : P s) (hround : ∀ s, P s → g s = (f s).map (Step.map π))
    (hstep : ∀ s s', P s → f s = some (.next s') → P s') : loop g fuel s = (loop f fuel s).map π := by
  induction fuel generalizing s with
  | zero => rfl
  | succ fuel ih =>
    rw [loop, loop, hround s h0]
    cases hrun : f s with
    | none => rfl
    | some step =>
      cases step with
      | next s' => exact ih (hstep s s' h0 hrun)
      | done r => rfl

/-! ### Blocks -/

/-- `memcpyc(dst + d, src + s, n)`. -/
def copyCells (dst : List ℕ) (d : ℕ) (src : List ℕ) (s n : ℕ) : Option (List ℕ) :=
  forLoop (fun i dst => do wr dst (d + i) (← rd src (s + i))) 0 n dst

/-- `memset(dst + d, v, n)`, one cell a value. -/
def fillCells (dst : List ℕ) (d v n : ℕ) : Option (List ℕ) :=
  forLoop (fun i dst => wr dst (d + i) v) 0 n dst

theorem copyCells_ends {dst src : List ℕ} {d s n : ℕ} (hd : d + n ≤ dst.length) (hs : s + n ≤ src.length) :
    Ends (copyCells dst d src s n) fun r => SameOut dst r d n ∧ ∀ i < n, cell r (d + i) = cell src (s + i) := by
  refine forLoop_ends_zero (fun k r => SameOut dst r d k ∧ ∀ i < k, cell r (d + i) = cell src (s + i))
    ⟨SameOut.refl, by simp⟩ ?_
  rintro k r hk ⟨hout, hin⟩
  have hlen := hout.length
  rw [rd_of_lt (by omega), some_bind, wr_of_lt (by omega)]
  refine Ends.pure ⟨(hout.mono le_rfl (by omega)).trans (SameOut.set.mono (by omega) le_rfl), fun i hi => ?_⟩
  rcases Nat.lt_succ_iff_lt_or_eq.mp hi with hi | rfl
  · rw [cell_set_of_ne (by omega), hin i hi]
  · exact cell_set_self (by omega)

theorem fillCells_ends {dst : List ℕ} {d v n : ℕ} (hd : d + n ≤ dst.length) :
    Ends (fillCells dst d v n) fun r => SameOut dst r d n ∧ ∀ i < n, cell r (d + i) = v := by
  refine forLoop_ends_zero (fun k r => SameOut dst r d k ∧ ∀ i < k, cell r (d + i) = v)
    ⟨SameOut.refl, by simp⟩ ?_
  rintro k r hk ⟨hout, hin⟩
  have hlen := hout.length
  rw [wr_of_lt (by omega)]
  refine Ends.pure ⟨(hout.mono le_rfl (by omega)).trans (SameOut.set.mono (by omega) le_rfl), fun i hi => ?_⟩
  rcases Nat.lt_succ_iff_lt_or_eq.mp hi with hi | rfl
  · rw [cell_set_of_ne (by omega), hin i hi]
  · exact cell_set_self (by omega)

end Deemon.Run
