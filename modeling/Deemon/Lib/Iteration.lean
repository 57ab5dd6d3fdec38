import Deemon.Lib.Run
import Mathlib.Data.List.TakeDrop

/-!
# Iterators

An iterator answers each call with an item or with its end, and goes to another state. It enumerates a list when the call
number `i` answers with the item number `i`, and all calls behind the last item with the end.
-/

namespace Deemon.Iteration

open Deemon.Run

variable {α σ : Type} {next : σ → Option (Option α × σ)} {s : σ} {items : List α}

/-- The state after `n` calls. -/
def stateAfter (next : σ → Option (Option α × σ)) : ℕ → σ → Option σ
  | 0, s => some s
  | n + 1, s => stateAfter next n s >>= fun s' => (next s').map Prod.snd

/-- The answer of the call after `n` calls. -/
def answer (next : σ → Option (Option α × σ)) (n : ℕ) (s : σ) : Option (Option α) :=
  stateAfter next n s >>= fun s' => (next s').map Prod.fst

/-- The items of a list one after the other, and then the end for ever. -/
def Enumerates (next : σ → Option (Option α × σ)) (s : σ) (items : List α) : Prop :=
  ∀ i, answer next i s = some items[i]?

/-- A property of the number of calls and the state that every call keeps. -/
theorem stateAfter_ends (P : ℕ → σ → Prop) (h0 : P 0 s) (hstep : ∀ i s, P i s → Ends (next s) fun r => P (i + 1) r.2) (n : ℕ) :
    Ends (stateAfter next n s) (P n) := by
  induction n with
  | zero => exact Ends.pure h0
  | succ n ih =>
    refine Ends.bind ih fun s' hs' => ?_
    exact (hstep n s' hs').map fun r hr => hr

/-- What every call that answers keeps. -/
theorem stateAfter_post (P : σ → Prop) (h0 : P s) (hstep : ∀ s r, P s → next s = some r → P r.2) {n : ℕ} {s' : σ}
    (h : stateAfter next n s = some s') : P s' := by
  induction n generalizing s' with
  | zero =>
    cases h
    exact h0
  | succ n ih =>
    obtain ⟨t, ht, hmap⟩ := of_bind h
    obtain ⟨r, hr, rfl⟩ := Option.map_eq_some_iff.mp hmap
    exact hstep t r (ih ht) hr

/-- The rule for an enumeration: every call answers as it should, and keeps what is known of the state. -/
theorem enumerates_of_inv (P : ℕ → σ → Prop) (h0 : P 0 s)
    (hstep : ∀ i s, P i s → Ends (next s) fun r => r.1 = items[i]? ∧ P (i + 1) r.2) : Enumerates next s items := by
  intro i
  obtain ⟨s', hs', hP⟩ := stateAfter_ends P h0 (fun i s hP => (hstep i s hP).mono fun r hr => hr.2) i
  obtain ⟨r, hr, hitem, -⟩ := hstep i s' hP
  rw [answer, hs', some_bind, hr, Option.map_some, hitem]

/-- The call for each item, and the state behind it. -/
theorem Enumerates.call (h : Enumerates next s items) (i : ℕ) :
    ∃ s' r, stateAfter next i s = some s' ∧ next s' = some r ∧ r.1 = items[i]? ∧ stateAfter next (i + 1) s = some r.2 := by
  obtain ⟨s', hs', hans⟩ := of_bind (h i)
  obtain ⟨r, hr, hitem⟩ := Option.map_eq_some_iff.mp hans
  refine ⟨s', r, hs', hr, hitem, ?_⟩
  rw [stateAfter, hs', some_bind, hr, Option.map_some]

/-- An enumeration in which the truth value of the iterator says whether there is another item. -/
structure Iterates (next : σ → Option (Option α × σ)) (bool : σ → Option Bool) (s : σ) (items : List α) : Prop where
  enumerates : Enumerates next s items
  bool : ∀ i, Ends (stateAfter next i s) fun s' => bool s' = some (decide (i < items.length))

/-- The truth value is right when it is that of the next answer in every state on the way. -/
theorem iterates_of_inv {bool : σ → Option Bool} (P : ℕ → σ → Prop) (h0 : P 0 s)
    (hstep : ∀ i s, P i s → Ends (next s) fun r => r.1 = items[i]? ∧ bool s = some r.1.isSome ∧ P (i + 1) r.2) :
    Iterates next bool s items := by
  refine ⟨enumerates_of_inv P h0 fun i s hP => (hstep i s hP).mono fun r hr => ⟨hr.1, hr.2.2⟩, fun i => ?_⟩
  refine (stateAfter_ends P h0 (fun i s hP => (hstep i s hP).mono fun r hr => hr.2.2) i).mono fun s' hP => ?_
  obtain ⟨r, -, hitem, hbool, -⟩ := hstep i s' hP
  rw [hbool, hitem, Option.some.injEq, Bool.eq_iff_iff, Option.isSome_iff_ne_none, ne_eq, List.getElem?_eq_none_iff,
    decide_eq_true_eq, not_le]

/-- The iterator answers with the items of a list and then with its end, for the first time; the state that it stops in. -/
def Yields (next : σ → Option (Option α × σ)) : σ → List α → σ → Prop
  | s, [], t => next s = some (none, t)
  | s, item :: items, t => ∃ s', next s = some (some item, s') ∧ Yields next s' items t

/-- Two iterators whose calls answer alike yield the same items, and stop in the same state. -/
theorem yields_map {β : Type} {next' : σ → Option (Option β × σ)} (P : σ → Prop) (π : α → β)
    (hcall : ∀ s, P s → next' s = (next s).map (Prod.map (Option.map π) id))
    (hstep : ∀ s item s', P s → next s = some (some item, s') → P s') {t : σ} (items' : List β) (h0 : P s) :
    Yields next' s items' t ↔ ∃ items, Yields next s items t ∧ items' = items.map π := by
  induction items' generalizing s with
  | nil =>
    rw [Yields, hcall s h0]
    constructor
    · intro h
      obtain ⟨⟨answer, s'⟩, hnext, heq⟩ := Option.map_eq_some_iff.mp h
      obtain ⟨hanswer, rfl⟩ := Prod.mk.inj heq
      rw [Option.map_eq_none_iff.mp hanswer] at hnext
      exact ⟨[], hnext, rfl⟩
    · rintro ⟨items, hitems, hnil⟩
      obtain rfl := List.map_eq_nil_iff.mp hnil.symm
      rw [show next s = some (none, t) from hitems]
      rfl
  | cons item' items' ih =>
    rw [Yields, hcall s h0]
    constructor
    · rintro ⟨s', h, hrest⟩
      obtain ⟨⟨answer, s''⟩, hnext, heq⟩ := Option.map_eq_some_iff.mp h
      obtain ⟨hanswer, rfl⟩ := Prod.mk.inj heq
      obtain ⟨item, rfl, rfl⟩ := Option.map_eq_some_iff.mp hanswer
      obtain ⟨items, hitems, rfl⟩ := (ih (hstep s item s'' h0 hnext)).mp hrest
      exact ⟨item :: items, ⟨s'', hnext, hitems⟩, rfl⟩
    · rintro ⟨items, hitems, hcons⟩
      obtain ⟨item, items, rfl, rfl, rfl⟩ := List.map_eq_cons_iff.mp hcons.symm
      obtain ⟨s', hnext, hrest⟩ := hitems
      refine ⟨s', ?_, (ih (hstep s item s' h0 hnext)).mpr ⟨items, hrest, rfl⟩⟩
      rw [hnext]
      rfl

/-! ### Enumerating the values with a property in order -/

section Order

variable {β : Type} [PartialOrder β] {Valid : β → Prop} {values : List β} {p : WithBot β} {o : Option β}

/-- The values with a property in ascending order, each of them once. -/
structure Lists (Valid : β → Prop) (values : List β) : Prop where
  ascending : values.Pairwise (· < ·)
  mem : ∀ x, x ∈ values ↔ Valid x

/-- The next value above a position, if there is one. -/
def Follows (Valid : β → Prop) (p : WithBot β) : Option β → Prop
  | some c => Valid c ∧ p < c ∧ ∀ x : β, Valid x → p < x → c ≤ x
  | none => ∀ x : β, Valid x → ¬ p < x

/-- Where the rest of a list are the values above a position, the next value is its head. -/
theorem Follows.head {rest : List β} (h : Follows Valid p o) (hasc : rest.Pairwise (· < ·))
    (hrest : ∀ x : β, x ∈ rest ↔ Valid x ∧ p < x) :
    o = rest.head? ∧ ∀ x : β, x ∈ rest.tail ↔ Valid x ∧ o.elim p (↑) < (x : WithBot β) := by
  cases o with
  | none =>
    have hnil : rest = [] := List.eq_nil_iff_forall_not_mem.mpr fun x hx => h x ((hrest x).mp hx).1 ((hrest x).mp hx).2
    subst hnil
    exact ⟨rfl, hrest⟩
  | some c =>
    obtain ⟨hc, hpc, hleast⟩ := h
    cases rest with
    | nil => exact absurd ((hrest c).mpr ⟨hc, hpc⟩) (List.not_mem_nil)
    | cons d rest =>
      obtain ⟨hd, hrestasc⟩ := List.pairwise_cons.mp hasc
      obtain ⟨hvalid, hpd⟩ := (hrest d).mp List.mem_cons_self
      obtain rfl : c = d := by
        rcases List.mem_cons.mp ((hrest c).mpr ⟨hc, hpc⟩) with hcd | hmem
        · exact hcd
        · exact absurd (hd c hmem) (hleast d hvalid hpd).not_gt
      refine ⟨rfl, fun x => ?_⟩
      rw [List.tail_cons, Option.elim_some, WithBot.coe_lt_coe]
      constructor
      · exact fun hx => ⟨((hrest x).mp (List.mem_cons_of_mem c hx)).1, hd x hx⟩
      · rintro ⟨hx, hcx⟩
        have hmem := (hrest x).mpr ⟨hx, hpc.trans (WithBot.coe_lt_coe.mpr hcx)⟩
        rcases List.mem_cons.mp hmem with rfl | hmem
        · exact absurd hcx (lt_irrefl x)
        · exact hmem

/-- An iterator that goes from each position to the next value enumerates the values in order. -/
theorem iterates_of_follows {next : σ → Option (Option β × σ)} {bool : σ → Option Bool} (R : WithBot β → σ → Prop)
    (hvalues : Lists Valid values) (h0 : R ⊥ s)
    (hstep : ∀ p s, R p s →
      Ends (next s) fun r => Follows Valid p r.1 ∧ bool s = some r.1.isSome ∧ R (r.1.elim p (↑)) r.2) :
    Iterates next bool s values := by
  refine iterates_of_inv (fun i s => ∃ p, R p s ∧ ∀ x : β, x ∈ values.drop i ↔ Valid x ∧ p < x) ⟨⊥, h0, ?_⟩ ?_
  · intro x
    rw [List.drop_zero, hvalues.mem]
    exact (and_iff_left (WithBot.bot_lt_coe x)).symm
  · rintro i s ⟨p, hR, hrest⟩
    refine (hstep p s hR).mono fun r hr => ?_
    obtain ⟨hfollows, hbool, hR'⟩ := hr
    obtain ⟨hhead, htail⟩ := hfollows.head (hvalues.ascending.sublist (List.drop_sublist i values)) hrest
    rw [List.head?_drop] at hhead
    rw [List.tail_drop] at htail
    exact ⟨hhead, hbool, _, hR', htail⟩

end Order

end Deemon.Iteration
