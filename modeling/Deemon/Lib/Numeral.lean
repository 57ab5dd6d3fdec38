import Mathlib.Data.List.Basic
import Mathlib.Data.Nat.Log
import Mathlib.Tactic.Ring

/-!
# Positional numerals

Digits are lists, most significant first: `horner` is the number that digits stand for, and `lowDigits r x n`
are the `n` low digits of `x` in radix `r`. `grouped sep g` writes a separator between every two groups of `g`
digits, counted from the right; group size zero stands for no separators at all.
-/

namespace Deemon.Numeral

variable {r x n v : ℕ}

/-! ### Digits and their value -/

/-- The number that `ds` makes behind the digits of `v`. -/
def horner (r v : ℕ) (ds : List ℕ) : ℕ := ds.foldl (fun v d => v * r + d) v

@[simp] theorem horner_nil : horner r v [] = v := rfl

@[simp] theorem horner_cons (d : ℕ) (ds : List ℕ) : horner r v (d :: ds) = horner r (v * r + d) ds := rfl

theorem horner_concat (d : ℕ) (ds : List ℕ) : horner r v (ds ++ [d]) = horner r v ds * r + d := by
  simp [horner]

theorem horner_eq (ds : List ℕ) : horner r v ds = v * r ^ ds.length + horner r 0 ds := by
  induction ds generalizing v with
  | nil => simp
  | cons d ds ih =>
    rw [horner_cons, horner_cons, ih, ih (v := 0 * r + d), List.length_cons, pow_succ]
    ring

/-- The `n` low digits of `x`, most significant first. -/
def lowDigits (r x : ℕ) : ℕ → List ℕ
  | 0 => []
  | n + 1 => x / r ^ n % r :: lowDigits r x n

@[simp] theorem length_lowDigits : (lowDigits r x n).length = n := by
  induction n with
  | zero => rfl
  | succ n ih => rw [lowDigits, List.length_cons, ih]

theorem lowDigits_lt (hr : 0 < r) : ∀ d ∈ lowDigits r x n, d < r := by
  induction n with
  | zero => simp [lowDigits]
  | succ n ih =>
    intro d hd
    rcases List.mem_cons.mp hd with rfl | hd
    · exact Nat.mod_lt _ hr
    · exact ih d hd

theorem horner_lowDigits : horner r 0 (lowDigits r x n) = x % r ^ n := by
  induction n with
  | zero => simp [lowDigits, Nat.mod_one]
  | succ n ih =>
    rw [lowDigits, horner_cons, horner_eq, ih, length_lowDigits, pow_succ, Nat.mod_mul]
    ring

/-- The digits above the number are zeros. -/
theorem lowDigits_add (hr : 0 < r) (h : x < r ^ n) (m : ℕ) :
    lowDigits r x (m + n) = List.replicate m 0 ++ lowDigits r x n := by
  induction m with
  | zero => simp
  | succ m ih =>
    have hle : r ^ n ≤ r ^ (m + n) := Nat.pow_le_pow_right hr (by omega)
    rw [show m + 1 + n = m + n + 1 by omega, lowDigits, ih, Nat.div_eq_of_lt (by omega), Nat.zero_mod,
      List.replicate_succ, List.cons_append]

/-! ### Separators -/

section Grouped

variable {α : Type} {sep z : α} {g : ℕ} {cs : List α}

/-- The digits `cs` with `sep` between every two groups of `g`, counted from the right. -/
def grouped (sep : α) (g : ℕ) : List α → List α
  | [] => []
  | c :: cs => c :: if cs.length ≠ 0 ∧ cs.length % g = 0 then sep :: grouped sep g cs else grouped sep g cs

/-- What stands behind one more digit in front of `cs`. -/
def groupedTail (sep : α) (g : ℕ) (cs : List α) : List α :=
  if cs.length ≠ 0 ∧ cs.length % g = 0 then sep :: grouped sep g cs else grouped sep g cs

theorem grouped_cons (c : α) (cs : List α) : grouped sep g (c :: cs) = c :: groupedTail sep g cs := rfl

theorem groupedTail_of_sep (h0 : cs.length ≠ 0) (h : cs.length % g = 0) :
    groupedTail sep g cs = sep :: grouped sep g cs := if_pos ⟨h0, h⟩

theorem groupedTail_of_not (h : ¬(cs.length ≠ 0 ∧ cs.length % g = 0)) : groupedTail sep g cs = grouped sep g cs :=
  if_neg h

@[simp] theorem grouped_nil : grouped sep g [] = [] := rfl

/-- Without groups there are no separators. -/
@[simp] theorem grouped_zero : grouped sep 0 cs = cs := by
  induction cs with
  | nil => rfl
  | cons c cs ih => rw [grouped_cons, groupedTail_of_not (by simp), ih]

theorem length_grouped : (grouped sep g cs).length = cs.length + (cs.length - 1) / g := by
  induction cs with
  | nil => simp
  | cons c cs ih =>
    rw [grouped_cons, List.length_cons, List.length_cons, Nat.add_sub_cancel]
    rcases Nat.eq_zero_or_pos cs.length with h0 | hpos
    · rw [groupedTail_of_not (by omega), ih, h0]
      simp
    · obtain ⟨k, hk⟩ : ∃ k, cs.length = k + 1 := ⟨cs.length - 1, by omega⟩
      rw [hk, Nat.add_sub_cancel] at ih
      rw [hk, Nat.succ_div]
      by_cases h : (k + 1) % g = 0
      · rw [groupedTail_of_sep (by omega) (by rw [hk, h]), List.length_cons, ih, if_pos (Nat.dvd_of_mod_eq_zero h)]
        omega
      · rw [groupedTail_of_not (by rw [hk]; exact fun hand => h hand.2), ih,
          if_neg fun hdvd => h (Nat.mod_eq_zero_of_dvd hdvd)]
        omega

theorem length_groupedTail : (groupedTail sep g cs).length = cs.length + cs.length / g := by
  unfold groupedTail
  rcases Nat.eq_zero_or_pos cs.length with h0 | hpos
  · rw [if_neg (by omega), length_grouped, h0]
  obtain ⟨k, hk⟩ : ∃ k, cs.length = k + 1 := ⟨cs.length - 1, by omega⟩
  split_ifs with h
  · rw [List.length_cons, length_grouped, hk, Nat.add_sub_cancel, Nat.succ_div,
      if_pos (Nat.dvd_of_mod_eq_zero (by rw [← hk]; exact h.2)), Nat.add_assoc]
  · have hdvd : ¬g ∣ k + 1 := fun hdvd => h ⟨by omega, by rw [hk]; exact Nat.mod_eq_zero_of_dvd hdvd⟩
    rw [length_grouped, hk, Nat.add_sub_cancel, Nat.succ_div, if_neg hdvd]
    rfl

/-- Counted from the right, every `g + 1`-st character is a separator. -/
theorem getElem?_reverse_grouped (hg : 0 < g) (hcs : sep ∉ cs) {j : ℕ} (hj : j < (grouped sep g cs).length) :
    (grouped sep g cs).reverse[j]? = some sep ↔ (j + 1) % (g + 1) = 0 := by
  induction cs generalizing j with
  | nil => simp at hj
  | cons c cs ih =>
    rw [List.mem_cons, not_or] at hcs
    have htail : (groupedTail sep g cs).length = cs.length + cs.length / g := length_groupedTail
    rw [grouped_cons, List.length_cons, htail] at hj
    rw [grouped_cons, List.reverse_cons]
    by_cases htop : j = cs.length + cs.length / g
    · -- the top digit stands behind complete groups and less than `g` digits
      have hmod := Nat.mod_lt cs.length hg
      have hsplit : j + 1 = (g + 1) * (cs.length / g) + (cs.length % g + 1) := by
        have hdiv := Nat.div_add_mod cs.length g
        rw [Nat.add_mul, Nat.one_mul]
        omega
      rw [List.getElem?_append_right (by rw [List.length_reverse, htail]; omega), List.length_reverse, htail, htop, Nat.sub_self,
        ← htop, hsplit, Nat.mul_add_mod, Nat.mod_eq_of_lt (by omega)]
      simp [Ne.symm hcs.1]
    · rw [List.getElem?_append_left (by rw [List.length_reverse, htail]; omega)]
      have hlen : (grouped sep g cs).length = cs.length + (cs.length - 1) / g := length_grouped
      by_cases hsep : cs.length ≠ 0 ∧ cs.length % g = 0
      · rw [groupedTail_of_sep hsep.1 hsep.2, List.reverse_cons]
        rw [groupedTail_of_sep hsep.1 hsep.2, List.length_cons, hlen] at htail
        by_cases hlast : j = cs.length + (cs.length - 1) / g
        · have hfull : j + 1 = (g + 1) * (cs.length / g) := by
            have hdiv := Nat.div_add_mod cs.length g
            rw [Nat.add_mul, Nat.one_mul]
            omega
          rw [List.getElem?_append_right (by rw [List.length_reverse, hlen]; omega), List.length_reverse, hlen, hlast,
            Nat.sub_self, ← hlast, hfull, Nat.mul_mod_right]
          simp
        · have hlt : j < (grouped sep g cs).length := by omega
          rw [List.getElem?_append_left (by rwa [List.length_reverse])]
          exact ih hcs.2 hlt
      · have hlt : j < (groupedTail sep g cs).length := by omega
        rw [groupedTail_of_not hsep] at hlt ⊢
        exact ih hcs.2 hlt

theorem mem_grouped {c : α} (h : c ∈ grouped sep g cs) : c = sep ∨ c ∈ cs := by
  induction cs with
  | nil => simp at h
  | cons d cs ih =>
    rw [grouped_cons] at h
    unfold groupedTail at h
    split_ifs at h
    · rcases List.mem_cons.mp h with rfl | h
      · exact Or.inr (List.mem_cons_self)
      rcases List.mem_cons.mp h with rfl | h
      · exact Or.inl rfl
      · exact (ih h).imp id (List.mem_cons_of_mem d)
    · rcases List.mem_cons.mp h with rfl | h
      · exact Or.inr (List.mem_cons_self)
      · exact (ih h).imp id (List.mem_cons_of_mem d)

theorem getLast?_grouped : (grouped sep g cs).getLast? = cs.getLast? := by
  induction cs with
  | nil => rfl
  | cons d cs ih =>
    rw [grouped_cons]
    unfold groupedTail
    cases cs with
    | nil => simp
    | cons e cs =>
      have hne : grouped sep g (e :: cs) ≠ [] := by simp [grouped_cons]
      rw [List.getLast?_cons_cons, ← ih]
      split_ifs
      · rw [List.getLast?_cons_of_ne_nil (by simp), List.getLast?_cons_of_ne_nil hne]
      · rw [List.getLast?_cons_of_ne_nil hne]

/-- A function that drops separators sees the digits only. -/
theorem filterMap_grouped {β : Type} {f : α → Option β} (hsep : f sep = none) :
    (grouped sep g cs).filterMap f = cs.filterMap f := by
  induction cs with
  | nil => rfl
  | cons c cs ih =>
    rw [grouped_cons]
    unfold groupedTail
    split_ifs
    · rw [List.filterMap_cons, List.filterMap_cons_none hsep, ih, List.filterMap_cons]
    · rw [List.filterMap_cons, ih, List.filterMap_cons]

/-- The first separator stands behind the leading group. -/
theorem idxOf_grouped [DecidableEq α] (hg : 0 < g) (hne : cs ≠ []) (hcs : sep ∉ cs) :
    (grouped sep g cs).idxOf sep = (cs.length - 1) % g + 1 := by
  induction cs with
  | nil => exact absurd rfl hne
  | cons c cs ih =>
    rw [List.mem_cons, not_or] at hcs
    rw [grouped_cons, List.idxOf_cons_ne _ (Ne.symm hcs.1), List.length_cons, Nat.add_sub_cancel]
    rcases Nat.eq_zero_or_pos cs.length with h0 | hpos
    · rw [List.length_eq_zero_iff] at h0
      subst h0
      simp [groupedTail]
    · by_cases h : cs.length % g = 0
      · rw [groupedTail_of_sep (by omega) h, List.idxOf_cons_self, h]
      · have hmod : (cs.length - 1) % g + 1 = cs.length % g := by
          obtain ⟨k, hk⟩ : ∃ k, cs.length = k + 1 := ⟨cs.length - 1, by omega⟩
          rw [hk] at h ⊢
          rw [Nat.add_sub_cancel]
          rcases Nat.lt_or_ge (k % g + 1) g with hlt | hge
          · rw [Nat.add_mod, Nat.mod_eq_of_lt (show 1 < g by omega), Nat.mod_eq_of_lt hlt]
          · exfalso
            have hk' : k % g + 1 = g := by
              have := Nat.mod_lt k hg
              omega
            exact h (by rw [← Nat.div_add_mod k g, Nat.add_assoc, hk', ← Nat.mul_succ, Nat.mul_mod_right])
        rw [groupedTail_of_not (fun hand => h hand.2), ih (List.ne_nil_of_length_pos hpos) hcs.2, hmod]

/-! ### More digits in front -/

/-- Digits in front that stay in the leading group. -/
theorem grouped_replicate_within {j : ℕ} (h : (cs.length - 1) % g + 1 + j ≤ g) (hne : cs ≠ []) :
    grouped sep g (List.replicate j z ++ cs) = List.replicate j z ++ grouped sep g cs := by
  have hpos := List.length_pos_of_ne_nil hne
  induction j with
  | zero => rfl
  | succ j ih =>
    have hlen : (List.replicate j z ++ cs).length = j + cs.length := by simp
    have hmod : (j + cs.length) % g ≠ 0 := by
      have hsplit : j + cs.length = g * ((cs.length - 1) / g) + ((cs.length - 1) % g + 1 + j) := by
        have := Nat.div_add_mod (cs.length - 1) g
        omega
      rw [hsplit, Nat.mul_add_mod, Nat.mod_eq_of_lt (by omega)]
      omega
    rw [List.replicate_succ, List.cons_append, grouped_cons, groupedTail_of_not (by rw [hlen]; exact fun hand => hmod hand.2),
      ih (by omega), List.cons_append]

/-- Digits in front of complete groups. -/
theorem grouped_replicate_sep {j : ℕ} (hj : 0 < j) (hjg : j ≤ g) (h : cs.length % g = 0) (hne : cs ≠ []) :
    grouped sep g (List.replicate j z ++ cs) = List.replicate j z ++ sep :: grouped sep g cs := by
  have hpos := List.length_pos_of_ne_nil hne
  obtain ⟨k, rfl⟩ : ∃ k, j = k + 1 := ⟨j - 1, by omega⟩
  have hone : grouped sep g (z :: cs) = z :: sep :: grouped sep g cs := by
    rw [grouped_cons, groupedTail_of_sep (by omega) h]
  have hwithin : grouped sep g (List.replicate k z ++ z :: cs) = List.replicate k z ++ grouped sep g (z :: cs) :=
    grouped_replicate_within (by rw [List.length_cons, Nat.add_sub_cancel, h]; omega) (by simp)
  rw [List.replicate_succ', List.append_assoc, List.append_assoc]
  change grouped sep g (List.replicate k z ++ z :: cs) = List.replicate k z ++ z :: sep :: grouped sep g cs
  rw [hwithin, hone]

/-- `k` groups of zeros with their separators. -/
theorem grouped_replicate_groups (hg : 0 < g) (h : cs.length % g = 0) (hne : cs ≠ []) (k : ℕ) :
    grouped sep g (List.replicate (k * g) z ++ cs) =
      (List.replicate k (List.replicate g z ++ [sep])).flatten ++ grouped sep g cs := by
  induction k with
  | zero => simp
  | succ k ih =>
    have hmod : (List.replicate (k * g) z ++ cs).length % g = 0 := by
      simp [Nat.add_mod, h]
    rw [Nat.succ_mul, Nat.add_comm (k * g), List.replicate_add, List.append_assoc,
      grouped_replicate_sep hg le_rfl hmod (by simp [hne]), ih, List.replicate_succ, List.flatten_cons]
    simp

end Grouped

end Deemon.Numeral
