import Mathlib.Algebra.Order.Group.Multiset
import Mathlib.Algebra.BigOperators.Group.List.Basic
import Mathlib.Tactic.Abel
import Deemon.Seq.Sort

/-!
# Runs of the sorting functions

A run `Attempts` something when it ends without a crash, fails only if a call out may fail, holds the references of
its result when it succeeds, and holds no new reference when it fails. Every part of the sorting functions has a lemma
of this form; the merge sort has one for any layout (`mergeSortWith_yields`).
-/

namespace Deemon.Seq

open Deemon.WeakOrder

variable {α β γ σ : Type}

/-! ### Rules -/

/-- The run ends without a crash, in a result and a world that satisfy `P`. -/
def Yields (m : SortM α β) (w : World α) (P : β → World α → Prop) : Prop := ∃ b w', m w = some (b, w') ∧ P b w'

theorem Yields.pure {b : β} {w : World α} {P : β → World α → Prop} (h : P b w) : Yields (pure b) w P :=
  ⟨b, w, rfl, h⟩

theorem Yields.bind {m : SortM α β} {f : β → SortM α γ} {w : World α} {P : β → World α → Prop}
    {Q : γ → World α → Prop} (hm : Yields m w P) (hf : ∀ b w', P b w' → Yields (f b) w' Q) :
    Yields (m >>= f) w Q := by
  obtain ⟨b, w', heq, hP⟩ := hm
  obtain ⟨c, w'', hf', hQ⟩ := hf b w' hP
  refine ⟨c, w'', ?_, hQ⟩
  show (m w >>= fun r => f r.1 r.2) = _
  rw [heq]
  exact hf'

theorem Yields.mono {m : SortM α β} {w : World α} {P Q : β → World α → Prop} (hm : Yields m w P)
    (h : ∀ b w', P b w' → Q b w') : Yields m w Q := by
  obtain ⟨b, w', heq, hP⟩ := hm
  exact ⟨b, w', heq, h b w' hP⟩

theorem Yields.of_eq {m : SortM α β} {w w' : World α} {P : β → World α → Prop} {b : β} (hm : Yields m w P)
    (h : m w = some (b, w')) : P b w' := by
  obtain ⟨c, w'', heq, hP⟩ := hm
  rw [h, Option.some.injEq, Prod.mk.injEq] at heq
  obtain ⟨rfl, rfl⟩ := heq
  exact hP

/-- A call out has failed. -/
structure World.Stopped (w : World α) : Prop where
  failed : w.failed = true
  budget : w.budget ≠ none

/-- What an attempt from `w` ends in, where the references `base` are to be kept: `some b` with the references
`refs b` if `Q b`, or `none` exactly when a call out failed. References that are then still held are `leaked`. -/
structure Outcome (safe : Prop) (w : World α) (base : Multiset α) (Q : β → Prop) (refs : β → Multiset α)
    (r : Option β) (w' : World α) : Prop where
  limited : w'.budget = none ↔ w.budget = none
  reported : w'.failed = (w.failed || r.isNone)
  failed : r = none → w.budget ≠ none
  success : ∀ b, r = some b → Q b ∧ w'.live = refs b + base
  released : r = none → ∃ leaked, w'.live = leaked + base ∧ (safe → leaked = 0)

/-- A run that ends in an `Outcome`. -/
def Attempts (safe : Prop) (m : SortM α (Option β)) (w : World α) (base : Multiset α) (Q : β → Prop)
    (refs : β → Multiset α) : Prop :=
  Yields m w (Outcome safe w base Q refs)

section Rules

variable {safe : Prop} {w : World α} {base : Multiset α} {Q : β → Prop} {refs : β → Multiset α}

theorem Attempts.pure_some {b : β} (hQ : Q b) (hlive : w.live = refs b + base) :
    Attempts safe (pure (some b)) w base Q refs := by
  refine Yields.pure ⟨Iff.rfl, (Bool.or_false _).symm, fun h => absurd h (by simp), fun c hc => ?_,
    fun h => absurd h (by simp)⟩
  rw [← Option.some.inj hc]
  exact ⟨hQ, hlive⟩

theorem Attempts.pure_none (hw : w.Stopped) (hlive : w.live = base) : Attempts safe (pure none) w base Q refs := by
  refine Yields.pure ⟨Iff.rfl, ?_, fun _ => hw.budget, fun _ hc => absurd hc (by simp), fun _ => ⟨0, ?_, fun _ => rfl⟩⟩
  · rw [hw.failed, Bool.true_or]
  · rw [hlive, zero_add]

/-- The exit that leaves references behind. -/
theorem Attempts.pure_leak (hsafe : ¬ safe) (hw : w.Stopped) (leaked : Multiset α) (hlive : w.live = leaked + base) :
    Attempts safe (pure none) w base Q refs := by
  refine Yields.pure ⟨Iff.rfl, ?_, fun _ => hw.budget, fun _ hc => absurd hc (by simp),
    fun _ => ⟨leaked, hlive, fun h => absurd h hsafe⟩⟩
  rw [hw.failed, Bool.true_or]

theorem Attempts.of_eq {m : SortM α (Option β)} {b : β}
    (hm : m w = some (some b, ⟨w.budget, w.failed, refs b + w.live⟩)) : Attempts safe m w w.live (· = b) refs := by
  refine ⟨_, _, hm, Iff.rfl, (Bool.or_false _).symm, fun h => absurd h (by simp), fun c hc => ?_,
    fun h => absurd h (by simp)⟩
  rw [← Option.some.inj hc]
  exact ⟨rfl, rfl⟩

theorem Attempts.mono {m : SortM α (Option β)} {safe' : Prop} {Q' : β → Prop} (hm : Attempts safe m w base Q refs)
    (hsafe : safe' → safe) (hQ : ∀ b, Q b → Q' b) : Attempts safe' m w base Q' refs := by
  refine Yields.mono hm fun r w' h => ⟨h.limited, h.reported, h.failed, fun b hb => ?_, fun hr => ?_⟩
  · exact ⟨hQ b (h.success b hb).1, (h.success b hb).2⟩
  · obtain ⟨leaked, hlive, hl⟩ := h.released hr
    exact ⟨leaked, hlive, fun hs => hl (hsafe hs)⟩

theorem Outcome.stopped {w' : World α} (h : Outcome safe w base Q refs none w') : w'.Stopped := by
  refine ⟨?_, fun hnone => h.failed rfl (h.limited.mp hnone)⟩
  rw [h.reported, Option.isNone_none, Bool.or_true]

theorem Outcome.failed_eq {w' : World α} {b : β} (h : Outcome safe w base Q refs (some b) w') : w'.failed = w.failed := by
  rw [h.reported, Option.isNone_some, Bool.or_false]

/-- The outcome of a run whose first part succeeded. -/
theorem Outcome.after {w' w'' : World α} {r : Option β} (h : Outcome safe w' base Q refs r w'')
    (hlim : w'.budget = none ↔ w.budget = none) (hfailed : w'.failed = w.failed) :
    Outcome safe w base Q refs r w'' :=
  ⟨h.limited.trans hlim, hfailed ▸ h.reported, fun hr hnone => h.failed hr (hlim.mpr hnone), h.success, h.released⟩

/-- An attempt that no call out lets fail. -/
theorem Attempts.eq_some {m : SortM α (Option β)} (hm : Attempts safe m w base Q refs) (hw : w.budget = none) :
    ∃ b w', m w = some (some b, w') ∧ Q b ∧ w'.budget = none ∧ w'.live = refs b + base := by
  obtain ⟨r, w', heq, h⟩ := hm
  cases r with
  | none => exact absurd hw (h.failed rfl)
  | some b => exact ⟨b, w', heq, (h.success b rfl).1, h.limited.mpr hw, (h.success b rfl).2⟩

/-- An attempt, then what is done when it fails or succeeds. -/
theorem Attempts.bind {m : SortM α (Option γ)} {f : Option γ → SortM α (Option β)} {R : γ → Prop}
    {refs' : γ → Multiset α} {mid : Multiset α} (hm : Attempts True m w mid R refs')
    (hfail : ∀ w' : World α, w'.Stopped → w'.live = mid → Attempts safe (f none) w' base (fun _ => False) refs)
    (hsucc : ∀ c (w' : World α), R c → w'.live = refs' c + mid → Attempts safe (f (some c)) w' base Q refs) :
    Attempts safe (m >>= f) w base Q refs := by
  refine Yields.bind hm fun r w' h => ?_
  cases r with
  | none =>
    obtain ⟨leaked, hlive, hl⟩ := h.released rfl
    rw [hl trivial, zero_add] at hlive
    refine Yields.mono (hfail w' h.stopped hlive) fun r w'' h' => ?_
    cases r with
    | none => exact ⟨h'.limited.trans h.limited, by rw [h'.reported, h.stopped.failed]; simp, fun _ => h.failed rfl,
        fun _ hc => absurd hc (by simp), h'.released⟩
    | some b => exact (h'.success b rfl).1.elim
  | some c =>
    obtain ⟨hR, hlive⟩ := h.success c rfl
    exact Yields.mono (hsucc c w' hR hlive) fun r w'' h' => h'.after h.limited h.failed_eq

end Rules

/-! ### References -/

/-- The run drops the references `rs`, and does nothing else. -/
def Releases (m : SortM α Unit) (rs : Multiset α) : Prop :=
  ∀ (w : World α) (base : Multiset α), w.live = rs + base → m w = some ((), ⟨w.budget, w.failed, base⟩)

theorem Releases.pure : Releases (α := α) (pure ()) 0 := fun w base h => by
  rw [zero_add] at h
  subst h
  rfl

theorem Releases.bind {m m' : SortM α Unit} {rs rs' : Multiset α} (hm : Releases m rs) (hm' : Releases m' rs') :
    Releases (do m; m') (rs + rs') := fun w base h => by
  rw [add_assoc] at h
  show (m w >>= fun r => m' r.2) = _
  rw [hm w _ h]
  exact hm' ⟨w.budget, w.failed, rs' + base⟩ base rfl

theorem releases_decref [DecidableEq α] (ob : α) : Releases (decref ob) {ob} := fun w base h => by
  have hmem : ob ∈ w.live := by
    rw [h]
    exact Multiset.mem_add.mpr (Or.inl (Multiset.mem_singleton_self ob))
  have herase : w.live.erase ob = base := by
    rw [h, Multiset.singleton_add, Multiset.erase_cons_head]
  unfold decref
  rw [if_pos hmem, herase]

theorem Releases.bind_attempts {m : SortM α Unit} {f : SortM α (Option β)} {rs mid base : Multiset α} {safe : Prop}
    {w : World α} {Q : β → Prop} {refs : β → Multiset α} (hm : Releases m rs) (hlive : w.live = rs + mid)
    (hf : Attempts safe f ⟨w.budget, w.failed, mid⟩ base Q refs) : Attempts safe (do m; f) w base Q refs := by
  obtain ⟨r, w', heq, h⟩ := hf
  refine ⟨r, w', ?_, h.limited, h.reported, h.failed, h.success, h.released⟩
  show (m w >>= fun r => f r.2) = _
  rw [hm w mid hlive]
  exact heq

/-- The exit of a failed attempt that drops what it held. -/
theorem Releases.then_none {m : SortM α Unit} {rs base : Multiset α} {safe : Prop} {w : World α} {Q : β → Prop}
    {refs : β → Multiset α} (hm : Releases m rs) (hw : w.Stopped) (hlive : w.live = rs + base) :
    Attempts safe (do m; Pure.pure none) w base Q refs :=
  hm.bind_attempts hlive (Attempts.pure_none ⟨hw.failed, hw.budget⟩ rfl)

section Slots

variable [DecidableEq α]

/-- The reference of a slot. -/
def slotRef : Slot α → Multiset α
  | none => 0
  | some ob => {ob}

theorem releases_decrefIfNotUnbound (ob : Slot α) : Releases (decrefIfNotUnbound ob) (slotRef ob) := by
  cases ob with
  | none => exact Releases.pure
  | some ob => exact releases_decref ob

theorem releases_decrefvIfNotUnbound (obs : List (Slot α)) :
    Releases (decrefvIfNotUnbound obs) (obs.map slotRef).sum := by
  induction obs with
  | nil => exact Releases.pure
  | cons ob obs ih => exact Releases.bind (releases_decrefIfNotUnbound ob) ih

/-- The reference of a slot that the run holds: none, if the item is of a vector. -/
def Args.refOf (args : Args α) (ob : Slot α) : Multiset α := if args.src.hasGetitem then slotRef ob else 0

theorem releases_decrefvIfRef (args : Args α) (obs : List (Slot α)) :
    Releases (args.decrefvIfRef obs) (obs.map args.refOf).sum := by
  unfold Args.decrefvIfRef
  by_cases h : args.src.hasGetitem = true
  · have heq : args.refOf = slotRef := funext fun ob => if_pos h
    rw [if_pos h, heq]
    exact releases_decrefvIfNotUnbound obs
  · have heq : args.refOf = fun _ => 0 := funext fun ob => if_neg h
    have hzero : (obs.map fun _ => (0 : Multiset α)).sum = 0 := List.sum_map_zero
    rw [if_neg h, heq, hzero]
    exact Releases.pure

end Slots

/-! ### Calls out -/

theorem callOut_yields (w : World α) : Yields callOut w fun r w' => (w'.budget = none ↔ w.budget = none) ∧
    w'.failed = (w.failed || !r) ∧ (r = false → w.budget ≠ none) ∧ w'.live = w.live := by
  obtain ⟨budget, failed, live⟩ := w
  match budget with
  | none => exact ⟨true, _, rfl, Iff.rfl, by simp, by simp, rfl⟩
  | some 0 => exact ⟨false, ⟨some 0, true, live⟩, rfl, Iff.rfl, by simp, by simp, rfl⟩
  | some (n + 1) => exact ⟨true, ⟨some n, failed, live⟩, rfl, by simp, by simp, by simp, rfl⟩

/-- A call out whose success leads to a run that does not fail. -/
theorem callOut_attempts {m : SortM α (Option β)} {w : World α} {b : β} {refs : β → Multiset α}
    (hm : ∀ w' : World α, m w' = some (some b, ⟨w'.budget, w'.failed, refs b + w'.live⟩)) :
    Attempts True (do if ← callOut then m else pure none) w w.live (· = b) refs := by
  refine Yields.bind (callOut_yields w) ?_
  rintro r w' ⟨hlim, hreported, hfail, hlive⟩
  cases r with
  | false =>
    refine Yields.pure ⟨hlim, hreported, fun _ => hfail rfl, fun _ h => absurd h (by simp),
      fun _ => ⟨0, ?_, fun _ => rfl⟩⟩
    rw [hlive, zero_add]
  | true =>
    refine ⟨some b, _, hm w', hlim, hreported, fun h => absurd h (by simp), fun c hc => ?_,
      fun h => absurd h (by simp)⟩
    rw [← Option.some.inj hc, hlive]
    exact ⟨rfl, rfl⟩

theorem deeObjectCall_attempts (key : α → α) (ob : α) (w : World α) :
    Attempts True (deeObjectCall key (some ob)) w w.live (· = key ob) fun keyed => {keyed} :=
  callOut_attempts fun _ => rfl

theorem deeObjectCmpLoAsBool_attempts (lt : α → α → Bool) (lhs rhs : α) (w : World α) :
    Attempts True (deeObjectCmpLoAsBool lt (some lhs) (some rhs)) w w.live (· = lt lhs rhs) fun _ => 0 :=
  callOut_attempts fun w' => by rw [zero_add]; rfl

theorem deeObjectCmpLoAsBoolWithKey_attempts [DecidableEq α] (lt : α → α → Bool) (key : α → α) (lhs rhs : α) (w : World α) :
    Attempts True (deeObjectCmpLoAsBoolWithKey lt key (some lhs) (some rhs)) w w.live (· = lt (key lhs) (key rhs))
      fun _ => 0 := by
  refine Attempts.bind (deeObjectCall_attempts key lhs w) (fun w₁ hw₁ hlive₁ => ?_) ?_
  · exact Attempts.pure_none hw₁ hlive₁
  rintro _ w₁ rfl hlive₁
  refine Attempts.bind (deeObjectCall_attempts key rhs w₁) (fun w₂ hw₂ hlive₂ => ?_) ?_
  · exact (releases_decref (key lhs)).then_none hw₂ (hlive₂.trans hlive₁)
  rintro _ w₂ rfl hlive₂
  refine Yields.bind (deeObjectCmpLoAsBool_attempts lt (key lhs) (key rhs) w₂) fun r w₃ h => ?_
  -- the references to both keys are dropped, whatever the comparison says
  have hlive₃ : w₃.live = {key rhs} + ({key lhs} + w.live) := by
    cases r with
    | none =>
      obtain ⟨leaked, hl, hz⟩ := h.released rfl
      rw [hl, hz trivial, zero_add, hlive₂, hlive₁]
    | some b => rw [(h.success b rfl).2, zero_add, hlive₂, hlive₁]
  refine ⟨r, ⟨w₃.budget, w₃.failed, w.live⟩, ?_, h.limited, h.reported, h.failed,
    fun b hb => ⟨(h.success b hb).1, (zero_add _).symm⟩, fun _ => ⟨0, (zero_add _).symm, fun _ => rfl⟩⟩
  show (decref (key rhs) w₃ >>= fun r' => (decref (key lhs) r'.2 >>= fun r' => some (r, r'.2))) = _
  rw [releases_decref (key rhs) w₃ _ hlive₃]
  show (decref (key lhs) ⟨w₃.budget, w₃.failed, {key lhs} + w.live⟩ >>= fun r' => some (r, r'.2)) = _
  rw [releases_decref (key lhs) ⟨w₃.budget, w₃.failed, {key lhs} + w.live⟩ _ rfl]
  rfl

/-! ### Slots -/

variable {args : Args α}

/-- The order of slots by the order of their items: the unbound ones come first. -/
def slotLess (less : α → α → Bool) : Slot α → Slot α → Bool
  | none, none => false
  | none, some _ => true
  | some _, none => false
  | some a, some b => less a b

/-- The order that the items are sorted by. -/
def Args.less (args : Args α) (a b : α) : Bool :=
  match args.key with
  | none => args.lt a b
  | some key => args.lt (key a) (key b)

/-- Only getters find unbound slots. -/
theorem exists_of_mem_slots {s : Slot α} (hs : s ∈ args.src.slots) (hget : ¬ args.src.hasGetitem = true) :
    ∃ ob, s = some ob := by
  obtain ⟨src, key, lt⟩ := args
  cases src with
  | vector items =>
    obtain ⟨ob, -, rfl⟩ := List.mem_map.mp hs
    exact ⟨ob, rfl⟩
  | getItemIndexFast slots => exact absurd rfl hget
  | tryGetItemIndex slots => exact absurd rfl hget

theorem cmpSlots_attempts {cmp : Slot α → Slot α → SortM α (Option Bool)} {less : α → α → Bool}
    (hcmp : ∀ a b (w : World α), Attempts True (cmp (some a) (some b)) w w.live (· = less a b) fun _ => 0)
    {s t : Slot α} (hs : ¬ args.src.hasGetitem = true → ∃ ob, s = some ob)
    (ht : ¬ args.src.hasGetitem = true → ∃ ob, t = some ob) (w : World α) :
    Attempts True (args.cmpSlots cmp s t) w w.live (· = slotLess less s t) fun _ => 0 := by
  unfold Args.cmpSlots
  by_cases hget : args.src.hasGetitem = true
  · rw [if_pos hget]
    match s, t with
    | none, none => exact Attempts.pure_some rfl (zero_add _).symm
    | none, some _ => exact Attempts.pure_some rfl (zero_add _).symm
    | some _, none => exact Attempts.pure_some rfl (zero_add _).symm
    | some a, some b => exact hcmp a b w
  · obtain ⟨a, rfl⟩ := hs hget
    obtain ⟨b, rfl⟩ := ht hget
    rw [if_neg hget]
    exact hcmp a b w

theorem getItemIndex_eq (hget : args.src.hasGetitem = true) (s : Slot α) (w : World α) :
    (do increfSlot s; pure (some s) : SortM α (Option (Slot α))) w =
      some (some s, ⟨w.budget, w.failed, args.refOf s + w.live⟩) := by
  unfold Args.refOf
  rw [if_pos hget]
  cases s with
  | none => exact congrArg (fun live => some (some none, (⟨w.budget, w.failed, live⟩ : World α))) (zero_add w.live).symm
  | some ob => rfl

theorem getitem_attempts {i : ℕ} {s : Slot α} (hs : args.src.slots[i]? = some s) (w : World α) :
    Attempts True (args.getitem i) w w.live (· = s) args.refOf := by
  obtain ⟨src, key, lt⟩ := args
  unfold Args.getitem
  cases src with
  | vector items =>
    have hs' : (items.map some)[i]? = some s := hs
    rw [List.getElem?_map] at hs'
    obtain ⟨ob, hob, rfl⟩ := Option.map_eq_some_iff.mp hs'
    dsimp only
    rw [hob]
    exact Attempts.pure_some rfl (zero_add _).symm
  | getItemIndexFast slots =>
    have hs' : slots[i]? = some s := hs
    dsimp only
    rw [hs']
    exact Attempts.of_eq (getItemIndex_eq rfl s w)
  | tryGetItemIndex slots =>
    have hs' : slots[i]? = some s := hs
    dsimp only
    rw [hs']
    exact callOut_attempts fun w' => getItemIndex_eq rfl s w'

theorem cmpLoAsBool_attempts [DecidableEq α] (lhs rhs : α) (w : World α) :
    Attempts True (args.cmpLoAsBool (some lhs) (some rhs)) w w.live (· = args.less lhs rhs) fun _ => 0 := by
  unfold Args.cmpLoAsBool Args.less
  cases args.key with
  | none => exact deeObjectCmpLoAsBool_attempts args.lt lhs rhs w
  | some key => exact deeObjectCmpLoAsBoolWithKey_attempts args.lt key lhs rhs w

/-! ### Buffers -/

theorem slice_succ (buf : ℕ → σ) (off n : ℕ) : slice buf off (n + 1) = buf off :: slice buf (off + 1) n := rfl

@[simp] theorem length_slice (buf : ℕ → σ) (off n : ℕ) : (slice buf off n).length = n := by
  induction n generalizing off with
  | zero => rfl
  | succ n ih => rw [slice_succ, List.length_cons, ih]

theorem slice_append (buf : ℕ → σ) (off m n : ℕ) :
    slice buf off (m + n) = slice buf off m ++ slice buf (off + m) n := by
  induction m generalizing off with
  | zero => rw [Nat.zero_add, Nat.add_zero]; rfl
  | succ m ih =>
    rw [Nat.succ_add, slice_succ, ih, slice_succ, List.cons_append, Nat.add_assoc, Nat.add_comm 1 m]

theorem slice_congr {buf buf' : ℕ → σ} {off n : ℕ} (h : ∀ j, off ≤ j → j < off + n → buf j = buf' j) :
    slice buf off n = slice buf' off n := by
  induction n generalizing off with
  | zero => rfl
  | succ n ih =>
    rw [slice_succ, slice_succ, h off (by omega) (by omega), ih fun j hlo hhi => h j (by omega) (by omega)]

theorem slice_map (f : σ → β) (buf : ℕ → σ) (off n : ℕ) :
    slice (fun i => f (buf i)) off n = (slice buf off n).map f := by
  induction n generalizing off with
  | zero => rfl
  | succ n ih => rw [slice_succ, slice_succ, ih, List.map_cons]

theorem exists_of_mem_slice {buf : ℕ → σ} {off n : ℕ} {c : σ} (h : c ∈ slice buf off n) :
    ∃ j, off ≤ j ∧ j < off + n ∧ c = buf j := by
  induction n generalizing off with
  | zero => exact absurd h List.not_mem_nil
  | succ n ih =>
    rcases List.mem_cons.mp h with rfl | h
    · exact ⟨off, le_rfl, by omega, rfl⟩
    · obtain ⟨j, hlo, hhi, hc⟩ := ih h
      exact ⟨j, by omega, by omega, hc⟩

theorem slice_eq_of_shift {buf buf' : ℕ → σ} {d s n : ℕ} (h : ∀ k < n, buf (d + k) = buf' (s + k)) :
    slice buf d n = slice buf' s n := by
  induction n generalizing d s with
  | zero => rfl
  | succ n ih =>
    have h0 : buf d = buf' s := h 0 (by omega)
    rw [slice_succ, slice_succ, h0, ih fun k hk => ?_]
    have hk' := h (k + 1) (by omega)
    rwa [show d + 1 + k = d + (k + 1) by omega, show s + 1 + k = s + (k + 1) by omega]

theorem slice_memcpyc (dst src : ℕ → σ) (d s n : ℕ) : slice (memcpyc dst d src s n) d n = slice src s n := by
  refine slice_eq_of_shift fun k hk => ?_
  unfold memcpyc
  rw [if_pos (by omega), Nat.add_sub_cancel_left]

theorem memcpyc_of_out {dst src : ℕ → σ} {d s n j : ℕ} (h : j < d ∨ d + n ≤ j) : memcpyc dst d src s n j = dst j :=
  if_neg (by omega)

/-! ### Merge sort -/

/-- What the parts of a merge sort must do: load the cells `slotAt i`, which hold the references `refs`, and compare
them by `less`. The references to a pair of cells are dropped after a failed comparison only if `safe`. -/
structure Layout.Meets (layout : Layout α σ) (slotAt : ℕ → σ) (n : ℕ) (less : σ → σ → Bool) (refs : σ → Multiset α)
    (safe : Prop) : Prop where
  load1 : ∀ i < n, ∀ w : World α, Attempts True (layout.load1 i) w w.live (· = slotAt i) refs
  load2 : ∀ i, i + 1 < n → ∀ w : World α, Attempts safe (layout.load2 i) w w.live
    (· = (slotAt i, slotAt (i + 1), less (slotAt i) (slotAt (i + 1)))) fun r => refs r.1 + refs r.2.1
  cmp : ∀ i < n, ∀ j < n, ∀ w : World α,
    Attempts True (layout.cmp (slotAt i) (slotAt j)) w w.live (· = less (slotAt i) (slotAt j)) fun _ => 0
  drop : ∀ cells, Releases (layout.drop cells) (cells.map refs).sum

section MergeSort

variable {layout : Layout α σ} {slotAt : ℕ → σ} {n : ℕ} {less : σ → σ → Bool} {refs : σ → Multiset α} {safe : Prop}

theorem mergeLoop_attempts (hl : layout.Meets slotAt n less refs safe) {scratch : ℕ → σ}
    {fuel iter1 s1 iter2 s2 out : ℕ} {dst : ℕ → σ} (hfuel : s1 + s2 < fuel)
    (hx : ∀ c ∈ slice scratch iter1 s1, ∃ i < n, c = slotAt i)
    (hy : ∀ c ∈ slice scratch iter2 s2, ∃ i < n, c = slotAt i) (w : World α) :
    Attempts True (mergeLoop layout scratch fuel iter1 s1 iter2 s2 out dst) w w.live
      (fun dst' => slice dst' out (s1 + s2) = mergeRuns less (slice scratch iter1 s1) (slice scratch iter2 s2) ∧
        ∀ j, j < out ∨ out + (s1 + s2) ≤ j → dst' j = dst j) fun _ => 0 := by
  induction fuel generalizing iter1 s1 iter2 s2 out dst w with
  | zero => omega
  | succ fuel ih =>
    rw [mergeLoop]
    match s1, s2 with
    | 0, s2 =>
      rw [if_neg (by omega), if_neg (by omega), Nat.zero_add]
      refine Attempts.pure_some ⟨?_, fun j hj => memcpyc_of_out hj⟩ (zero_add _).symm
      rw [slice_memcpyc, slice, mergeRuns_nil_left]
    | s1 + 1, 0 =>
      rw [if_neg (by omega), if_pos (by omega), Nat.add_zero]
      refine Attempts.pure_some ⟨?_, fun j hj => memcpyc_of_out hj⟩ (zero_add _).symm
      rw [slice_memcpyc, slice.eq_1 _ iter2, mergeRuns_nil_right]
    | s1 + 1, s2 + 1 =>
      rw [if_pos ⟨by omega, by omega⟩, slice_succ scratch iter1, slice_succ scratch iter2, mergeRuns_cons_cons]
      obtain ⟨i, hi, hxi⟩ := hx (scratch iter1) (List.mem_cons_self ..)
      obtain ⟨j, hj, hyj⟩ := hy (scratch iter2) (List.mem_cons_self ..)
      have hcmp := hl.cmp i hi j hj w
      rw [← hxi, ← hyj] at hcmp
      refine Attempts.bind hcmp (fun w' hw' hlive => Attempts.pure_none hw' hlive) ?_
      rintro lo w' hlo hlive
      rw [zero_add] at hlive
      rw [← hlive, ← hlo]
      -- the cell written in this round is before all that the next rounds write
      have hcell : ∀ (dst' : ℕ → σ) (c : σ) (m : ℕ) (l : List σ), slice dst' (out + 1) m = l →
          (∀ j, j < out + 1 ∨ out + 1 + m ≤ j → dst' j = Function.update dst out c j) →
          slice dst' out (m + 1) = c :: l ∧ ∀ j, j < out ∨ out + (m + 1) ≤ j → dst' j = dst j := by
        intro dst' c m l hslice hout
        constructor
        · rw [slice_succ, hslice, hout out (by omega), Function.update_self]
        · intro j hj
          rw [hout j (by omega), Function.update_of_ne (by omega)]
      cases lo with
      | false =>
        refine Attempts.mono (ih (by omega) hx (fun c hc => hy c (List.mem_cons_of_mem _ hc)) w') id ?_
        rintro dst' ⟨hslice, hout⟩
        exact hcell dst' _ (s1 + 1 + s2) _ hslice hout
      | true =>
        refine Attempts.mono (ih (by omega) (fun c hc => hx c (List.mem_cons_of_mem _ hc)) hy w') id ?_
        rintro dst' ⟨hslice, hout⟩
        have h := hcell dst' _ (s1 + (s2 + 1)) _ hslice hout
        rwa [show s1 + (s2 + 1) + 1 = s1 + 1 + (s2 + 1) by omega] at h

/-- The references of the cells `off, …, off + objc - 1`. -/
def refsOf (slotAt : ℕ → σ) (refs : σ → Multiset α) (off objc : ℕ) : Multiset α :=
  ((slice slotAt off objc).map refs).sum

theorem sum_map_sortRuns (less : σ → σ → Bool) (refs : σ → Multiset α) (l : List σ) :
    ((sortRuns less l).map refs).sum = (l.map refs).sum :=
  ((sortRuns_perm l).map refs).sum_eq

/-- What the merge sort of `objc` cells from `off` on does to buffers and references. -/
def MergeSorted (slotAt : ℕ → σ) (less : σ → σ → Bool) (refs : σ → Multiset α) (safe : Prop) (objc off : ℕ) (d : Bool)
    (bufs : Bool → ℕ → σ) (w : World α) (r : Bool × (Bool → ℕ → σ)) (w' : World α) : Prop :=
  (∀ e j, j < off ∨ off + objc ≤ j → r.2 e j = bufs e j) ∧
    Outcome safe w w.live (fun out => slice (out d) off objc = sortRuns less (slice slotAt off objc))
      (fun _ => refsOf slotAt refs off objc) (if r.1 then some r.2 else none) w'

theorem MergeSorted.fail {objc off : ℕ} {d : Bool} {bufs bufs' : Bool → ℕ → σ} {w w' : World α}
    (hframe : ∀ e j, j < off ∨ off + objc ≤ j → bufs' e j = bufs e j) (hlim : w'.budget = none ↔ w.budget = none)
    (hw : w'.Stopped) (hlive : ∃ leaked, w'.live = leaked + w.live ∧ (safe → leaked = 0)) :
    MergeSorted slotAt less refs safe objc off d bufs w (false, bufs') w' := by
  refine ⟨hframe, hlim, ?_, fun _ hnone => hw.budget (hlim.mpr hnone), fun _ hb => absurd hb (by simp), fun _ => hlive⟩
  rw [hw.failed]
  exact (Bool.or_true _).symm

theorem MergeSorted.done {objc off : ℕ} {d : Bool} {bufs bufs' : Bool → ℕ → σ} {dst : ℕ → σ} {w w' : World α}
    (hframe : ∀ e j, j < off ∨ off + objc ≤ j → bufs' e j = bufs e j)
    (hdst : ∀ j, j < off ∨ off + objc ≤ j → dst j = bufs' d j) (hlim : w'.budget = none ↔ w.budget = none)
    (hfailed : w'.failed = w.failed) (hslice : slice dst off objc = sortRuns less (slice slotAt off objc))
    (hlive : w'.live = refsOf slotAt refs off objc + w.live) :
    MergeSorted slotAt less refs safe objc off d bufs w (true, Function.update bufs' d dst) w' := by
  refine ⟨fun e j hj => ?_, hlim, ?_, fun h => absurd h (by simp), fun out hout => ?_, fun h => absurd h (by simp)⟩
  · by_cases he : e = d
    · subst he
      show Function.update bufs' e dst e j = _
      rw [Function.update_self, hdst j hj, hframe e j hj]
    · show Function.update bufs' d dst e j = _
      rw [Function.update_of_ne he, hframe e j hj]
  · rw [hfailed]
    exact (Bool.or_false _).symm
  · rw [← Option.some.inj hout]
    refine ⟨?_, hlive⟩
    show slice (Function.update bufs' d dst d) off objc = _
    rw [Function.update_self, hslice]

theorem mergeSortWith_one (hl : layout.Meets slotAt n less refs safe) {fuel off : ℕ} (hoff : off < n) (d : Bool)
    (bufs : Bool → ℕ → σ) (w : World α) :
    Yields (mergeSortWith layout (fuel + 1) 1 off d bufs) w (MergeSorted slotAt less refs safe 1 off d bufs w) := by
  rw [mergeSortWith, if_pos rfl]
  refine Yields.bind (hl.load1 off hoff w) fun r w' h => ?_
  cases r with
  | none =>
    obtain ⟨leaked, hlive, hz⟩ := h.released rfl
    exact Yields.pure (MergeSorted.fail (fun _ _ _ => rfl) h.limited h.stopped
      ⟨leaked, hlive, fun _ => hz trivial⟩)
  | some src0 =>
    obtain ⟨rfl, hlive⟩ := h.success src0 rfl
    refine Yields.pure (MergeSorted.done (fun _ _ _ => rfl) (fun j hj => ?_) h.limited h.failed_eq ?_ ?_)
    · exact Function.update_of_ne (by omega) ..
    · rw [sortRuns_of_length_le (by rw [length_slice])]
      exact congrArg (· :: []) (Function.update_self ..)
    · rw [hlive]
      exact congrArg (· + w.live) (add_zero _).symm

theorem mergeSortWith_two (hl : layout.Meets slotAt n less refs safe) {fuel off : ℕ} (hoff : off + 1 < n) (d : Bool)
    (bufs : Bool → ℕ → σ) (w : World α) :
    Yields (mergeSortWith layout (fuel + 1) 2 off d bufs) w (MergeSorted slotAt less refs safe 2 off d bufs w) := by
  rw [mergeSortWith, if_neg (by decide), if_pos rfl]
  refine Yields.bind (hl.load2 off hoff w) fun r w' h => ?_
  cases r with
  | none => exact Yields.pure (MergeSorted.fail (fun _ _ _ => rfl) h.limited h.stopped (h.released rfl))
  | some r =>
    obtain ⟨rfl, hlive⟩ := h.success r rfl
    have hlive' : w'.live = refsOf slotAt refs off 2 + w.live := by
      rw [hlive]
      exact congrArg (fun rs => refs (slotAt off) + rs + w.live) (add_zero _).symm
    have hsort : sortRuns less (slice slotAt off 2) =
        if less (slotAt off) (slotAt (off + 1)) then [slotAt off, slotAt (off + 1)]
        else [slotAt (off + 1), slotAt off] := by
      show sortRuns less ([slotAt off] ++ [slotAt (off + 1)]) = _
      rw [sortRuns_append (by simp) (by simp), sortRuns_of_length_le le_rfl, sortRuns_of_length_le le_rfl,
        mergeRuns_cons_cons, mergeRuns_nil_left, mergeRuns_nil_right]
    have hcells : ∀ a b : σ, slice (Function.update (Function.update (bufs d) off a) (off + 1) b) off 2 = [a, b] :=
      fun a b => by
        rw [slice_succ, slice_succ, Function.update_self, Function.update_of_ne (by omega), Function.update_self]
        rfl
    have hout : ∀ (a b : σ) j, j < off ∨ off + 2 ≤ j →
        Function.update (Function.update (bufs d) off a) (off + 1) b j = bufs d j := fun a b j hj => by
      rw [Function.update_of_ne (by omega), Function.update_of_ne (by omega)]
    dsimp only
    by_cases hlo : less (slotAt off) (slotAt (off + 1)) = true
    · rw [if_pos hlo] at hsort ⊢
      refine Yields.pure (MergeSorted.done (fun _ _ _ => rfl) (hout _ _) h.limited h.failed_eq ?_ hlive')
      rw [hcells, hsort]
    · rw [if_neg hlo] at hsort ⊢
      refine Yields.pure (MergeSorted.done (fun _ _ _ => rfl) (hout _ _) h.limited h.failed_eq ?_ hlive')
      rw [hcells, hsort]

theorem refsOf_add (slotAt : ℕ → σ) (refs : σ → Multiset α) (off s1 s2 : ℕ) :
    refsOf slotAt refs off (s1 + s2) = refsOf slotAt refs off s1 + refsOf slotAt refs (off + s1) s2 := by
  unfold refsOf
  rw [slice_append, List.map_append, List.sum_append]

theorem sortRuns_slice_add (less : σ → σ → Bool) (slotAt : ℕ → σ) {off s1 s2 : ℕ} (hs1 : s1 = (s1 + s2) / 2)
    (hpos : 0 < s1) : sortRuns less (slice slotAt off (s1 + s2)) =
      mergeRuns less (sortRuns less (slice slotAt off s1)) (sortRuns less (slice slotAt (off + s1) s2)) := by
  rw [slice_append]
  refine sortRuns_append ?_ ?_
  · rw [← slice_append, length_slice, length_slice]
    exact hs1
  · rw [← slice_append, length_slice]
    omega

/-- The cells of a sorted part are cells that were loaded. -/
theorem exists_of_mem_sorted {buf : ℕ → σ} {off m : ℕ} (hn : off + m ≤ n)
    (hslice : slice buf off m = sortRuns less (slice slotAt off m)) : ∀ c ∈ slice buf off m, ∃ i < n, c = slotAt i := by
  intro c hc
  rw [hslice] at hc
  obtain ⟨j, -, hj, hcj⟩ := exists_of_mem_slice ((sortRuns_perm _).subset hc)
  exact ⟨j, by omega, hcj⟩

theorem mergeSortWith_yields (hl : layout.Meets slotAt n less refs safe) {fuel objc off : ℕ} (hfuel : objc ≤ fuel)
    (hpos : 0 < objc) (hn : off + objc ≤ n) (d : Bool) (bufs : Bool → ℕ → σ) (w : World α) :
    Yields (mergeSortWith layout fuel objc off d bufs) w
      (MergeSorted slotAt less refs safe objc off d bufs w) := by
  induction fuel generalizing objc off d bufs w with
  | zero => omega
  | succ fuel ih =>
    by_cases hone : objc = 1
    · subst hone
      exact mergeSortWith_one hl (by omega) d bufs w
    by_cases htwo : objc = 2
    · subst htwo
      exact mergeSortWith_two hl (by omega) d bufs w
    rw [mergeSortWith, if_neg hone, if_neg htwo]
    obtain ⟨s1, hs1⟩ : ∃ s1, s1 = objc / 2 := ⟨_, rfl⟩
    obtain ⟨s2, hs2⟩ : ∃ s2, s2 = objc - s1 := ⟨_, rfl⟩
    have hsum : objc = s1 + s2 := by omega
    dsimp only
    rw [← hs1, ← hs2]
    refine Yields.bind (ih (by omega) (by omega) (by omega) (!d) bufs w) ?_
    rintro ⟨ok1, bufs1⟩ w1 ⟨hframe1, hout1⟩
    have hout : ∀ j, j < off ∨ off + objc ≤ j → (j < off ∨ off + s1 ≤ j) ∧ (j < off + s1 ∨ off + s1 + s2 ≤ j) := by
      intro j hj
      omega
    have hframe1' : ∀ e j, j < off ∨ off + objc ≤ j → bufs1 e j = bufs e j :=
      fun e j hj => hframe1 e j (hout j hj).1
    cases ok1 with
    | false => exact Yields.pure (MergeSorted.fail hframe1' hout1.limited hout1.stopped (hout1.released rfl))
    | true =>
      obtain ⟨hslice1, hlive1⟩ := hout1.success bufs1 rfl
      refine Yields.bind (ih (by omega) (by omega) (by omega) (!d) bufs1 w1) ?_
      rintro ⟨ok2, bufs2⟩ w2 ⟨hframe2, hout2⟩
      have hlim2 : w2.budget = none ↔ w.budget = none := hout2.limited.trans hout1.limited
      have hframe2' : ∀ e j, j < off ∨ off + objc ≤ j → bufs2 e j = bufs e j :=
        fun e j hj => (hframe2 e j (hout j hj).2).trans (hframe1' e j hj)
      -- the second half leaves the first alone
      have hslice1' : slice (bufs2 (!d)) off s1 = sortRuns less (slice slotAt off s1) := by
        rw [← hslice1]
        exact slice_congr fun j _ hj => hframe2 (!d) j (by omega)
      have hdrop1 := hl.drop (slice (bufs2 (!d)) off s1)
      rw [hslice1', sum_map_sortRuns, ← hslice1'] at hdrop1
      cases ok2 with
      | false =>
        obtain ⟨leaked, hlive2, hz⟩ := hout2.released rfl
        have hw2 : World.Stopped ⟨w2.budget, w2.failed, leaked + w.live⟩ :=
          ⟨hout2.stopped.failed, hout2.stopped.budget⟩
        rw [hlive1, add_left_comm] at hlive2
        refine ⟨(false, bufs2), ⟨w2.budget, w2.failed, leaked + w.live⟩, ?_,
          MergeSorted.fail hframe2' hlim2 hw2 ⟨leaked, rfl, hz⟩⟩
        show (layout.drop (slice (bufs2 (!d)) off s1) w2 >>= fun r => some ((false, bufs2), r.2)) = _
        rw [hdrop1 w2 _ hlive2]
        rfl
      | true =>
        obtain ⟨hslice2, hlive2⟩ := hout2.success bufs2 rfl
        have hlive : w2.live = refsOf slotAt refs off objc + w.live := by
          rw [hlive2, hlive1, hsum, refsOf_add, ← add_assoc, add_comm (refsOf slotAt refs (off + s1) s2)]
        refine Yields.bind (mergeLoop_attempts hl (by omega) (exists_of_mem_sorted (by omega) hslice1')
          (exists_of_mem_sorted (by omega) hslice2) w2) fun r w3 h3 => ?_
        have hlim3 : w3.budget = none ↔ w.budget = none := h3.limited.trans hlim2
        cases r with
        | none =>
          obtain ⟨leaked, hlive3, hz⟩ := h3.released rfl
          have hw3 : World.Stopped ⟨w3.budget, w3.failed, w.live⟩ := ⟨h3.stopped.failed, h3.stopped.budget⟩
          have hdrop := hl.drop (slice (bufs2 (!d)) off objc)
          rw [hsum, slice_append, List.map_append, List.sum_append, hslice1', hslice2, sum_map_sortRuns,
            sum_map_sortRuns, ← hslice1', ← hslice2, ← slice_append, ← hsum] at hdrop
          rw [hz trivial, zero_add, hlive, hsum, refsOf_add] at hlive3
          refine ⟨(false, bufs2), ⟨w3.budget, w3.failed, w.live⟩, ?_,
            MergeSorted.fail hframe2' hlim3 hw3 ⟨0, (zero_add _).symm, fun _ => rfl⟩⟩
          show (layout.drop (slice (bufs2 (!d)) off objc) w3 >>= fun r => some ((false, bufs2), r.2)) = _
          rw [hdrop w3 _ hlive3]
          rfl
        | some dst =>
          obtain ⟨⟨hmerged, hdst⟩, hlive3⟩ := h3.success dst rfl
          have hfailed3 : w3.failed = w.failed := h3.failed_eq.trans (hout2.failed_eq.trans hout1.failed_eq)
          refine Yields.pure (MergeSorted.done hframe2' (fun j hj => hdst j (by omega)) hlim3 hfailed3 ?_ ?_)
          · rw [hsum, sortRuns_slice_add less slotAt (by omega) (by omega), ← hslice1', ← hslice2]
            exact hmerged
          · rw [hlive3, zero_add, hlive]

end MergeSort

/-! ### The two layouts -/

/-- Slot `i` of the source. -/
def Args.slotAt (args : Args α) (i : ℕ) : Slot α := args.src.slots[i]?.getD none

/-- No two neighbours are both bound. -/
def Args.NoPair (args : Args α) : Prop := ∀ i, args.slotAt i = none ∨ args.slotAt (i + 1) = none

theorem getElem?_slotAt {args : Args α} {i : ℕ} (h : i < args.src.slots.length) :
    args.src.slots[i]? = some (args.slotAt i) := by
  unfold Args.slotAt
  rw [List.getElem?_eq_getElem h, Option.getD_some]

theorem slotAt_bound {args : Args α} {i : ℕ} (h : i < args.src.slots.length) (hget : ¬ args.src.hasGetitem = true) :
    ∃ ob, args.slotAt i = some ob :=
  exists_of_mem_slots (List.mem_of_getElem? (getElem?_slotAt h)) hget

theorem slice_slotAt (args : Args α) : slice args.slotAt 0 args.src.slots.length = args.src.slots := by
  have h : ∀ (l : List (Slot α)) (off : ℕ) (f : ℕ → Slot α), (∀ i < l.length, f (off + i) = l[i]?.getD none) →
      slice f off l.length = l := by
    intro l
    induction l with
    | nil => intro off f _; rfl
    | cons s l ih =>
      intro off f hf
      have h0 : f off = s := hf 0 (by rw [List.length_cons]; omega)
      rw [List.length_cons, slice_succ, h0, ih (off + 1) f fun i hi => ?_]
      have hi' := hf (i + 1) (by rw [List.length_cons]; omega)
      rwa [List.getElem?_cons_succ, show off + (i + 1) = off + 1 + i by omega] at hi'
  exact h _ 0 _ fun i _ => by rw [Nat.zero_add]; rfl

variable {args : Args α}

theorem cmpSlots_of_unbound {cmp : Slot α → Slot α → SortM α (Option Bool)} (less : α → α → Bool) {s t : Slot α}
    (hget : args.src.hasGetitem = true) (h : s = none ∨ t = none) :
    args.cmpSlots cmp s t = pure (some (slotLess less s t)) := by
  unfold Args.cmpSlots
  rw [if_pos hget]
  match s, t, h with
  | none, none, _ => rfl
  | none, some _, _ => rfl
  | some _, none, _ => rfl

/-- The comparison of two neighbours, whose references `held` stay when it fails. -/
theorem cmpSlots_leaf {cmp : Slot α → Slot α → SortM α (Option Bool)} {less : α → α → Bool}
    (hcmp : ∀ a b (w : World α), Attempts True (cmp (some a) (some b)) w w.live (· = less a b) fun _ => 0)
    {s t : Slot α} (hs : ¬ args.src.hasGetitem = true → ∃ ob, s = some ob)
    (ht : ¬ args.src.hasGetitem = true → ∃ ob, t = some ob) {x y : σ} {w : World α} {held base : Multiset α}
    {safe : Prop} {refs : σ → Multiset α} (hlive : w.live = held + base) (hheld : refs x + refs y = held)
    (hsafe : safe → held = 0 ∨ args.src.hasGetitem = true ∧ (s = none ∨ t = none)) :
    Attempts safe (do
      match ← args.cmpSlots cmp s t with
      | none => pure none
      | some lo => pure (some (x, y, lo))) w base (· = (x, y, slotLess less s t)) fun r => refs r.1 + refs r.2.1 := by
  by_cases hunbound : args.src.hasGetitem = true ∧ (s = none ∨ t = none)
  · rw [cmpSlots_of_unbound less hunbound.1 hunbound.2]
    exact Attempts.pure_some rfl (hlive.trans (congrArg (· + base) hheld.symm))
  · refine Attempts.bind (cmpSlots_attempts hcmp hs ht w) (fun w' hw' hlive' => ?_) fun lo w' hlo hlive' => ?_
    · by_cases hzero : held = 0
      · rw [hlive, hzero, zero_add] at hlive'
        exact Attempts.pure_none hw' hlive'
      · exact Attempts.pure_leak (fun h => (hsafe h).elim hzero hunbound) hw' held (hlive'.trans hlive)
    · rw [zero_add, hlive, ← hheld] at hlive'
      exact Attempts.pure_some (congrArg (fun lo => (x, y, lo)) hlo) hlive'

theorem keyOf_attempts (key : α → α) {s : Slot α} (hs : ¬ args.src.hasGetitem = true → ∃ ob, s = some ob)
    (w : World α) : Attempts True (args.keyOf key s) w w.live (· = s.map key) slotRef := by
  unfold Args.keyOf
  cases s with
  | none =>
    have hget : args.src.hasGetitem = true := by
      by_contra h
      obtain ⟨ob, hob⟩ := hs h
      exact absurd hob (by simp)
    rw [if_pos ⟨hget, rfl⟩]
    exact Attempts.pure_some rfl (zero_add _).symm
  | some ob =>
    rw [if_neg fun h => absurd h.2 (by simp)]
    refine Attempts.bind (deeObjectCall_attempts key ob w) (fun w' hw' hlive => Attempts.pure_none hw' hlive) ?_
    rintro _ w' rfl hlive
    exact Attempts.pure_some rfl hlive

theorem mergesortLayout_meets [DecidableEq α] (args : Args α) : (mergesortLayout args).Meets args.slotAt args.src.slots.length
    (slotLess args.less) args.refOf (¬ args.src.hasGetitem = true ∨ args.NoPair) where
  load1 i hi w := getitem_attempts (getElem?_slotAt hi) w
  load2 i hi w := by
    have hi0 : i < args.src.slots.length := by omega
    refine Attempts.bind (getitem_attempts (getElem?_slotAt hi0) w) (fun w₁ hw₁ hlive₁ => ?_) ?_
    · exact Attempts.pure_none hw₁ hlive₁
    rintro _ w₁ rfl hlive₁
    refine Attempts.bind (getitem_attempts (getElem?_slotAt hi) w₁) (fun w₂ hw₂ hlive₂ => ?_) ?_
    · have hdrop := releases_decrefvIfRef args [args.slotAt i]
      rw [List.map_singleton, List.sum_singleton] at hdrop
      exact hdrop.then_none hw₂ (hlive₂.trans hlive₁)
    rintro _ w₂ rfl hlive₂
    rw [hlive₁, add_left_comm, ← add_assoc] at hlive₂
    refine cmpSlots_leaf (fun a b w => cmpLoAsBool_attempts a b w) (slotAt_bound hi0) (slotAt_bound hi) hlive₂ rfl ?_
    rintro (hget | hpair)
    · exact Or.inl (by rw [Args.refOf, Args.refOf, if_neg hget, if_neg hget, zero_add])
    · by_cases hget : args.src.hasGetitem = true
      · exact Or.inr ⟨hget, hpair i⟩
      · exact Or.inl (by rw [Args.refOf, Args.refOf, if_neg hget, if_neg hget, zero_add])
  cmp i hi j hj w :=
    cmpSlots_attempts (fun a b w => cmpLoAsBool_attempts a b w) (slotAt_bound hi) (slotAt_bound hj) w
  drop cells := releases_decrefvIfRef args cells

/-- The references of a slot that is kept with its key. -/
def Args.pairRef (args : Args α) (cell : Slot α × Slot α) : Multiset α := args.refOf cell.1 + slotRef cell.2

theorem releases_decrefvIfRef_pair [DecidableEq α] (args : Args α) (s t : Slot α) :
    Releases (args.decrefvIfRef [t, s]) (args.refOf t + args.refOf s) := by
  have h := releases_decrefvIfRef args [t, s]
  rwa [List.map_cons, List.map_singleton, List.sum_cons, List.sum_singleton] at h

theorem sum_map_pairRef (args : Args α) (cells : List (Slot α × Slot α)) : (cells.map args.pairRef).sum =
    ((cells.map Prod.fst).map args.refOf).sum + ((cells.map Prod.snd).map slotRef).sum := by
  rw [List.map_map, List.map_map]
  exact List.sum_map_add

theorem keyCacheLayout_meets [DecidableEq α] (args : Args α) (key : α → α) :
    (keyCacheLayout args key).Meets (fun i => (args.slotAt i, (args.slotAt i).map key)) args.src.slots.length
      (fun p q => slotLess args.lt p.2 q.2) args.pairRef (args.src.hasGetitem = true ∧ args.NoPair) where
  load1 i hi w := by
    refine Attempts.bind (getitem_attempts (getElem?_slotAt hi) w) (fun w₁ hw₁ hlive₁ => ?_) ?_
    · exact Attempts.pure_none hw₁ hlive₁
    rintro _ w₁ rfl hlive₁
    refine Attempts.bind (keyOf_attempts key (slotAt_bound hi) w₁) (fun w₂ hw₂ hlive₂ => ?_) ?_
    · have hdrop := releases_decrefvIfRef args [args.slotAt i]
      rw [List.map_singleton, List.sum_singleton] at hdrop
      exact hdrop.then_none hw₂ (hlive₂.trans hlive₁)
    rintro _ w₂ rfl hlive₂
    refine Attempts.pure_some rfl ?_
    rw [hlive₂, hlive₁, Args.pairRef, ← add_assoc, add_comm (slotRef _)]
  load2 i hi w := by
    have hi0 : i < args.src.slots.length := by omega
    have hdrop0 := releases_decrefvIfRef args [args.slotAt i]
    rw [List.map_singleton, List.sum_singleton] at hdrop0
    have hdrop := releases_decrefvIfRef_pair args (args.slotAt i) (args.slotAt (i + 1))
    refine Attempts.bind (getitem_attempts (getElem?_slotAt hi0) w) (fun w₁ hw₁ hlive₁ => ?_) ?_
    · exact Attempts.pure_none hw₁ hlive₁
    rintro _ w₁ rfl hlive₁
    refine Attempts.bind (getitem_attempts (getElem?_slotAt hi) w₁) (fun w₂ hw₂ hlive₂ => ?_) ?_
    · exact hdrop0.then_none hw₂ (hlive₂.trans hlive₁)
    rintro _ w₂ rfl hlive₂
    rw [hlive₁, ← add_assoc] at hlive₂
    refine Attempts.bind (keyOf_attempts key (slotAt_bound hi0) w₂) (fun w₃ hw₃ hlive₃ => ?_) ?_
    · exact hdrop.then_none hw₃ (hlive₃.trans hlive₂)
    rintro _ w₃ rfl hlive₃
    refine Attempts.bind (keyOf_attempts key (slotAt_bound hi) w₃) (fun w₄ hw₄ hlive₄ => ?_) ?_
    · rw [hlive₃, hlive₂] at hlive₄
      exact (releases_decrefIfNotUnbound _).bind_attempts hlive₄ (hdrop.then_none ⟨hw₄.failed, hw₄.budget⟩ rfl)
    rintro _ w₄ rfl hlive₄
    rw [hlive₃, hlive₂, ← add_assoc, ← add_assoc] at hlive₄
    refine cmpSlots_leaf (fun a b w => deeObjectCmpLoAsBool_attempts args.lt a b w) ?_ ?_ hlive₄ ?_ ?_
    · intro hget
      obtain ⟨ob, hob⟩ := slotAt_bound hi0 hget
      exact ⟨key ob, by rw [hob]; rfl⟩
    · intro hget
      obtain ⟨ob, hob⟩ := slotAt_bound hi hget
      exact ⟨key ob, by rw [hob]; rfl⟩
    · unfold Args.pairRef
      abel
    · rintro ⟨hget, hpair⟩
      refine Or.inr ⟨hget, ?_⟩
      rcases hpair i with h | h
      · exact Or.inl (by rw [h]; rfl)
      · exact Or.inr (by rw [h]; rfl)
  cmp i hi j hj w := by
    refine cmpSlots_attempts (fun a b w => deeObjectCmpLoAsBool_attempts args.lt a b w) ?_ ?_ w
    · intro hget
      obtain ⟨ob, hob⟩ := slotAt_bound hi hget
      exact ⟨key ob, by rw [hob]; rfl⟩
    · intro hget
      obtain ⟨ob, hob⟩ := slotAt_bound hj hget
      exact ⟨key ob, by rw [hob]; rfl⟩
  drop cells := by
    rw [sum_map_pairRef]
    exact Releases.bind (releases_decrefvIfRef args _) (releases_decrefvIfNotUnbound _)

/-! ### The merge sorts -/

variable [DecidableEq α]

theorem sortUncached_merge_attempts (args : Args α) (mem : Memory α) (hmem : mem.alloc1 = true)
    (hpos : 0 < args.src.slots.length) (w : World α) :
    Attempts (¬ args.src.hasGetitem = true ∨ args.NoPair) (sortUncached args mem args.src.slots.length) w w.live
      (· = sortRuns (slotLess args.less) args.src.slots) fun out => (out.map args.refOf).sum := by
  unfold sortUncached
  rw [if_pos hmem]
  refine Yields.bind (mergeSortWith_yields (mergesortLayout_meets args) le_rfl hpos (by omega) false mem.content w) ?_
  rintro ⟨ok, bufs⟩ w' ⟨-, h⟩
  rw [slice_slotAt] at h
  cases ok with
  | false => exact Yields.pure ⟨h.limited, h.reported, fun _ => h.failed rfl, fun _ hb => absurd hb (by simp),
      fun _ => h.released rfl⟩
  | true =>
    obtain ⟨hslice, hlive⟩ := h.success bufs rfl
    refine Yields.pure ⟨h.limited, h.reported, fun hn => absurd hn (by simp), fun out hout => ?_,
      fun hn => absurd hn (by simp)⟩
    rw [← Option.some.inj hout]
    refine ⟨hslice, ?_⟩
    show w'.live = ((slice (bufs false) 0 args.src.slots.length).map args.refOf).sum + w.live
    rw [hlive, hslice, sum_map_sortRuns, refsOf, slice_slotAt]

theorem sortCached_attempts (args : Args α) (key : α → α) (hkey : args.key = some key) (mem : Memory α)
    (hpos : 0 < args.src.slots.length) (w : World α) :
    Attempts (args.src.hasGetitem = true ∧ args.NoPair) (sortCached args key mem args.src.slots.length) w w.live
      (· = sortRuns (slotLess args.less) args.src.slots) fun out => (out.map args.refOf).sum := by
  have hpair : slice (fun i => (args.slotAt i, (args.slotAt i).map key)) 0 args.src.slots.length =
      args.src.slots.map fun s => (s, s.map key) := by
    rw [slice_map (fun s => (s, s.map key)) args.slotAt, slice_slotAt]
  have hless : ∀ s t : Slot α, slotLess args.lt (s.map key) (t.map key) = slotLess args.less s t := by
    intro s t
    unfold Args.less
    rw [hkey]
    cases s <;> cases t <;> rfl
  refine Yields.bind (mergeSortWith_yields (keyCacheLayout_meets args key) le_rfl hpos (by omega) false _ w) ?_
  rintro ⟨ok, bufs⟩ w' ⟨-, h⟩
  rw [hpair] at h
  cases ok with
  | false => exact Yields.pure ⟨h.limited, h.reported, fun _ => h.failed rfl, fun _ hb => absurd hb (by simp),
      fun _ => h.released rfl⟩
  | true =>
    obtain ⟨hslice, hlive⟩ := h.success bufs rfl
    have hsum : refsOf (fun i => (args.slotAt i, (args.slotAt i).map key)) args.pairRef 0 args.src.slots.length =
        ((slice (bufs false) 0 args.src.slots.length).map args.pairRef).sum := by
      rw [hslice, sum_map_sortRuns, refsOf, hpair]
    have hfst : (slice (bufs false) 0 args.src.slots.length).map Prod.fst =
        sortRuns (slotLess args.less) args.src.slots := by
      have h : (sortRuns (slotLess args.less) args.src.slots).map (fun s => (s, s.map key)) =
          sortRuns (fun p q => slotLess args.lt p.2 q.2) (args.src.slots.map fun s => (s, s.map key)) :=
        map_sortRuns (f := fun s : Slot α => (s, s.map key)) (fun s t => hless s t) args.src.slots
      rw [hslice, ← h, List.map_map]
      exact List.map_id _
    rw [hsum, sum_map_pairRef, add_comm (List.sum _), add_assoc] at hlive
    have hdone : Attempts (args.src.hasGetitem = true ∧ args.NoPair) _ w' w.live
        (· = sortRuns (slotLess args.less) args.src.slots) fun out => (out.map args.refOf).sum :=
      (releases_decrefvIfNotUnbound _).bind_attempts hlive (Attempts.pure_some hfst rfl)
    exact Yields.mono hdone fun r w'' h' => h'.after h.limited h.failed_eq

end Deemon.Seq
