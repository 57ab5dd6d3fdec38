import Deemon.Lib.Run
import Mathlib.Data.Nat.Bitwise
import Mathlib.Data.Nat.ModEq
import Mathlib.Data.Fintype.EquivFin

/-!
# Perturbed probing

A probe of a table with `2 ^ k` slots starts at the low bits of a hash. From a slot `i` it goes on to `5 * i + 1` plus
a part of the hash that is shifted out five bits at a time. Once the hash is used up the probe runs through all slots
(`exists_cycle`), so every slot is met (`exists_probeFrom`).
-/

namespace Deemon.Probing

open Deemon.Run

variable {σ ρ : Type}

/-- `hs = (hs << 2) + hs + perturb + 1, perturb >>= 5`. -/
def probeNext (s : ℕ × ℕ) : ℕ × ℕ := ((s.1 <<< 2 + s.1 + s.2 + 1) % 2 ^ 64, s.2 >>> 5)

/-- The hash and the perturbation `n` steps behind the state `s`. -/
def probeFrom (s : ℕ × ℕ) (n : ℕ) : ℕ × ℕ := probeNext^[n] s

/-- The slot that the probe visits `n` steps behind the state `s`. -/
def probeSlot (mask : ℕ) (s : ℕ × ℕ) (n : ℕ) : ℕ := (probeFrom s n).1 &&& mask

/-- Visits the slots of the probe that starts in the state `s`, with a value that goes from slot to slot, until one of
them gives a result. -/
def probeFold (visit : ℕ → σ → Option (Step σ ρ)) (mask : ℕ) (s : ℕ × ℕ) (acc : σ) : Option ρ :=
  loop (fun st => do
    match ← visit (st.1.1 &&& mask) st.2 with
    | .next acc => some (.next (probeNext st.1, acc))
    | .done r => some (.done r)) (mask + 14) (s, acc)

/-- Visits the slots of the probe that starts in the state `s` until one of them gives a result. -/
def probeWith (visit : ℕ → Option (Option ρ)) (mask : ℕ) (s : ℕ × ℕ) : Option ρ :=
  probeFold (fun i _ => (visit i).map fun found => found.elim (.next ()) .done) mask s ()

/-- The probe that starts with the low bits of a hash only. -/
def probe (visit : ℕ → Option (Option ρ)) (mask hash : ℕ) : Option ρ :=
  probeWith visit mask (hash &&& mask, hash &&& mask)

/-- The `n`-th slot of that probe. -/
def probeIndex (mask hash n : ℕ) : ℕ := probeSlot mask (hash &&& mask, hash &&& mask) n

/-! ### The cycle -/

section Cycle

variable {k m n i t : ℕ}

/-- The `m`-th value of the cycle from zero. -/
def cycleSum : ℕ → ℕ
  | 0 => 0
  | m + 1 => 5 * cycleSum m + 1

theorem cycleSum_eq (m : ℕ) : 4 * cycleSum m + 1 = 5 ^ m := by
  induction m with
  | zero => rfl
  | succ m ih =>
    rw [cycleSum, pow_succ]
    omega

theorem iterate_cycle (m i : ℕ) : (fun x => 5 * x + 1)^[m] i = i + cycleSum m * (4 * i + 1) := by
  induction m with
  | zero => simp [cycleSum]
  | succ m ih =>
    rw [Function.iterate_succ_apply', ih, cycleSum]
    ring

theorem cycleSum_add (m n : ℕ) : cycleSum (m + n) = cycleSum n + 5 ^ n * cycleSum m := by
  have hmn := cycleSum_eq (m + n)
  have hm := cycleSum_eq m
  have hn := cycleSum_eq n
  rw [pow_add, ← hm] at hmn
  have : 4 * (5 ^ n * cycleSum m) + 5 ^ n = (4 * cycleSum m + 1) * 5 ^ n := by ring
  omega

theorem cycleSum_mod_two (m : ℕ) : cycleSum m % 2 = m % 2 := by
  induction m with
  | zero => rfl
  | succ m ih =>
    rw [cycleSum]
    omega

/-- Only every `2 ^ k`-th value is a multiple of `2 ^ k`. -/
theorem dvd_of_dvd_cycleSum (h : 2 ^ k ∣ cycleSum m) : 2 ^ k ∣ m := by
  induction k generalizing m with
  | zero => exact one_dvd m
  | succ k ih =>
    have heven : m % 2 = 0 := by
      rw [← cycleSum_mod_two]
      exact Nat.mod_eq_zero_of_dvd ((dvd_pow_self 2 (Nat.succ_ne_zero k)).trans h)
    obtain ⟨n, rfl⟩ : ∃ n, m = n + n := ⟨m / 2, by omega⟩
    -- the second half of the cycle is the first one times `5 ^ n`, and `5 ^ n + 1` is twice an odd number
    have hodd : 2 * cycleSum n + 1 = (5 ^ n + 1) / 2 := by
      have := cycleSum_eq n
      omega
    have hdouble : cycleSum (n + n) = 2 * (cycleSum n * (2 * cycleSum n + 1)) := by
      rw [cycleSum_add, ← cycleSum_eq]
      ring
    rw [hdouble, pow_succ, Nat.mul_comm (2 ^ k)] at h
    have hhalf := Nat.dvd_of_mul_dvd_mul_left (by norm_num) h
    have hcoprime : Nat.Coprime (2 ^ k) (2 * cycleSum n + 1) := by
      refine Nat.Coprime.pow_left k ?_
      simp
    rw [← Nat.two_mul, pow_succ, Nat.mul_comm (2 ^ k)]
    exact Nat.mul_dvd_mul_left 2 (ih (hcoprime.dvd_of_dvd_mul_right hhalf))

/-- The cycle meets a slot once in a round at most. -/
theorem cycle_inj (hmn : m ≤ n) (hn : n < 2 ^ k)
    (h : i + cycleSum m * (4 * i + 1) ≡ i + cycleSum n * (4 * i + 1) [MOD 2 ^ k]) : m = n := by
  obtain ⟨d, rfl⟩ := Nat.exists_eq_add_of_le hmn
  have hodd : Nat.gcd (2 ^ k) (4 * i + 1) = 1 := by
    refine Nat.Coprime.pow_left k ?_
    rw [show 4 * i + 1 = 2 * (2 * i) + 1 by ring]
    simp
  have hsum := Nat.ModEq.cancel_right_of_coprime hodd (Nat.ModEq.add_left_cancel' i h)
  rw [Nat.add_comm m d, cycleSum_add] at hsum
  have hdvd : 2 ^ k ∣ 5 ^ m * cycleSum d :=
    Nat.modEq_zero_iff_dvd.mp (Nat.ModEq.add_left_cancel' (cycleSum m) hsum).symm
  have hcoprime : Nat.Coprime (2 ^ k) (5 ^ m) := Nat.Coprime.pow k m (by decide)
  have hd := dvd_of_dvd_cycleSum (hcoprime.dvd_of_dvd_mul_left hdvd)
  have hzero : d = 0 := Nat.eq_zero_of_dvd_of_lt hd (by omega)
  rw [hzero, Nat.add_zero]

/-- From any slot the cycle meets every other one within a round. -/
theorem exists_cycle (i : ℕ) (ht : t < 2 ^ k) : ∃ m < 2 ^ k, ((fun x => 5 * x + 1)^[m] i) % 2 ^ k = t := by
  have hpos : 0 < 2 ^ k := Nat.two_pow_pos k
  let slot : Fin (2 ^ k) → Fin (2 ^ k) := fun m => ⟨((fun x => 5 * x + 1)^[m] i) % 2 ^ k, Nat.mod_lt _ hpos⟩
  have hinj : Function.Injective slot := by
    intro m n hmn
    have hmod : (fun x => 5 * x + 1)^[m] i ≡ (fun x => 5 * x + 1)^[n] i [MOD 2 ^ k] := congrArg Fin.val hmn
    rw [iterate_cycle, iterate_cycle] at hmod
    apply Fin.ext
    rcases le_total m.val n.val with hle | hle
    · exact cycle_inj hle n.isLt hmod
    · exact (cycle_inj hle m.isLt hmod.symm).symm
  obtain ⟨m, hm⟩ := Finite.surjective_of_injective hinj ⟨t, ht⟩
  exact ⟨m, m.isLt, congrArg Fin.val hm⟩

end Cycle

/-! ### The probe -/

section Probe

variable {k n mask t : ℕ} {s : ℕ × ℕ} {visit : ℕ → Option (Option ρ)} {r : ρ}

theorem probeFrom_succ : probeFrom s (n + 1) = probeNext (probeFrom s n) := Function.iterate_succ_apply' _ _ _

theorem probeFrom_perturb : (probeFrom s n).2 = s.2 >>> (5 * n) := by
  induction n with
  | zero => rfl
  | succ n ih => rw [probeFrom_succ, probeNext, ih, ← Nat.shiftRight_add, Nat.mul_succ]

/-- Without a perturbation the probe follows the cycle. -/
theorem probeFrom_add (hzero : (probeFrom s n).2 = 0) (hk : k ≤ 64) (m : ℕ) :
    (probeFrom s (n + m)).1 % 2 ^ k = ((fun x => 5 * x + 1)^[m] (probeFrom s n).1) % 2 ^ k := by
  induction m with
  | zero => rfl
  | succ m ih =>
    have hperturb : (probeFrom s (n + m)).2 = 0 := by
      rw [probeFrom_perturb] at hzero ⊢
      rw [Nat.mul_add, Nat.shiftRight_add, hzero, Nat.zero_shiftRight]
    have hdvd : 2 ^ k ∣ 2 ^ 64 := pow_dvd_pow 2 hk
    rw [← Nat.add_assoc, probeFrom_succ, probeNext, hperturb, Function.iterate_succ_apply', Nat.mod_mod_of_dvd _ hdvd,
      Nat.shiftLeft_eq]
    have hstep : (probeFrom s (n + m)).1 * 2 ^ 2 + (probeFrom s (n + m)).1 + 0 + 1 =
        5 * (probeFrom s (n + m)).1 + 1 := by ring
    rw [hstep]
    exact (Nat.ModEq.mul_left 5 ih).add_right 1

/-- The probe with a perturbation of 64 bits meets every slot. -/
theorem exists_probeFrom (hmask : mask + 1 = 2 ^ k) (hk : k ≤ 64) (hs : s.2 < 2 ^ 64) (ht : t ≤ mask) :
    ∃ n < mask + 14, probeSlot mask s n = t := by
  obtain rfl : mask = 2 ^ k - 1 := by omega
  have hzero : (probeFrom s 13).2 = 0 := by
    rw [probeFrom_perturb, Nat.shiftRight_eq_div_pow]
    exact Nat.div_eq_of_lt (by omega)
  obtain ⟨m, hm, hslot⟩ := exists_cycle (probeFrom s 13).1 (show t < 2 ^ k by omega)
  refine ⟨13 + m, by omega, ?_⟩
  rw [probeSlot, Nat.and_two_pow_sub_one_eq_mod, probeFrom_add hzero hk, hslot]

theorem probeSlot_le (mask : ℕ) (s : ℕ × ℕ) (n : ℕ) : probeSlot mask s n ≤ mask := Nat.and_le_right

/-- The invariant rule of a probe that carries a value: some slot ends it. -/
theorem probeFold_ends {visit : ℕ → σ → Option (Step σ ρ)} (P : ℕ → σ → Prop) {Q : ρ → Prop} {acc : σ}
    (hmask : mask + 1 = 2 ^ k) (hk : k ≤ 64) (hs : s.2 < 2 ^ 64) (h0 : P 0 acc)
    (hstep : ∀ n acc, P n acc → Ends (visit (probeSlot mask s n) acc) (Step.Post (P (n + 1)) Q))
    (ht : t ≤ mask) (hstop : ∀ acc acc', visit t acc ≠ some (.next acc')) : Ends (probeFold visit mask s acc) Q := by
  obtain ⟨last, hlast, hslot⟩ := exists_probeFrom hmask hk hs ht
  unfold probeSlot at hstep hslot
  have hrun : ∀ fuel n acc, n ≤ last → last - n < fuel → P n acc → Ends (loop (fun st => do
      match ← visit (st.1.1 &&& mask) st.2 with
      | .next acc => some (.next (probeNext st.1, acc))
      | .done r => some (.done r)) fuel (probeFrom s n, acc)) Q := by
    intro fuel
    induction fuel with
    | zero => exact fun n acc _ hfuel => absurd hfuel (Nat.not_lt_zero _)
    | succ fuel ih =>
      intro n acc hn hfuel hP
      obtain ⟨step, hvisit, hpost⟩ := hstep n acc hP
      rw [loop]
      dsimp only
      rw [hvisit, some_bind]
      cases step with
      | done r => exact Ends.pure hpost
      | next acc' =>
        -- the slot that ends the probe is still ahead
        have hne : n ≠ last := by
          rintro rfl
          exact hstop acc acc' (hslot ▸ hvisit)
        rw [some_bind, ← probeFrom_succ]
        exact ih (n + 1) acc' (by omega) (by omega) hpost
  exact hrun _ 0 acc (Nat.zero_le _) (by omega) h0

/-- A probe over slots one of which gives a result ends at the first such slot. -/
theorem exists_probeWith_eq (hmask : mask + 1 = 2 ^ k) (hk : k ≤ 64) (hs : s.2 < 2 ^ 64)
    (hsome : ∀ i ≤ mask, ∃ found, visit i = some found) (ht : t ≤ mask) (hfound : visit t = some (some r)) :
    ∃ n r', visit (probeSlot mask s n) = some (some r') ∧
      (∀ m < n, visit (probeSlot mask s m) = some none) ∧ probeWith visit mask s = some r' := by
  have hends : Ends (probeWith visit mask s) fun r' => ∃ n, visit (probeSlot mask s n) = some (some r') ∧
      ∀ m < n, visit (probeSlot mask s m) = some none := by
    refine probeFold_ends (fun n _ => ∀ m < n, visit (probeSlot mask s m) = some none) hmask hk hs
      (fun m hm => absurd hm (Nat.not_lt_zero m)) (fun n _ hbefore => ?_) ht (fun _ _ => ?_)
    · obtain ⟨found, hvisit⟩ := hsome _ (probeSlot_le mask s n)
      rw [hvisit]
      cases found with
      | none =>
        refine Ends.pure fun m hm => ?_
        rcases Nat.lt_succ_iff_lt_or_eq.mp hm with hlt | rfl
        · exact hbefore m hlt
        · exact hvisit
      | some r' => exact Ends.pure ⟨n, hvisit, hbefore⟩
    · rw [hfound]
      exact nofun
  obtain ⟨r', hrun, n, hvisit, hbefore⟩ := hends
  exact ⟨n, r', hvisit, hbefore, hrun⟩

theorem probeIndex_le (mask hash n : ℕ) : probeIndex mask hash n ≤ mask := Nat.and_le_right

theorem exists_probe_eq (hmask : mask + 1 = 2 ^ k) (hk : k ≤ 64) (hash : ℕ)
    (hsome : ∀ i ≤ mask, ∃ found, visit i = some found) (ht : t ≤ mask) (hfound : visit t = some (some r)) :
    ∃ n r', visit (probeIndex mask hash n) = some (some r') ∧
      (∀ m < n, visit (probeIndex mask hash m) = some none) ∧ probe visit mask hash = some r' := by
  have hpow : 2 ^ k ≤ 2 ^ 64 := Nat.pow_le_pow_right (by norm_num) hk
  have hle : hash &&& mask ≤ mask := Nat.and_le_right
  exact exists_probeWith_eq hmask hk (show hash &&& mask < 2 ^ 64 by omega) hsome ht hfound

end Probe

end Deemon.Probing
