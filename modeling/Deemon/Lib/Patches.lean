import Deemon.Lib.Run
import Mathlib.Order.CompletePartialOrder

/-!
# Independent patches of a buffer

A patch reads and changes the cells of its footprint only, and may refuse the buffer. Patches with disjoint footprints
do not interfere: whatever order they run in, each does what it would have done to the buffer at the start
(`Patch.All`).
-/

namespace Deemon.Patches

open Deemon.Run

/-- Buffers of one length that agree on the cells in `F`. -/
structure AgreeOn (F : Set ℕ) (l l' : List ℕ) : Prop where
  length : l'.length = l.length
  cells : ∀ j ∈ F, cell l' j = cell l j

section AgreeOn

variable {F G : Set ℕ} {l l' l'' : List ℕ}

theorem AgreeOn.refl : AgreeOn F l l := ⟨rfl, fun _ _ => rfl⟩

theorem AgreeOn.symm (h : AgreeOn F l l') : AgreeOn F l' l := ⟨h.length.symm, fun j hj => (h.cells j hj).symm⟩

theorem AgreeOn.trans (h : AgreeOn F l l') (h' : AgreeOn F l' l'') : AgreeOn F l l'' :=
  ⟨h'.length.trans h.length, fun j hj => (h'.cells j hj).trans (h.cells j hj)⟩

theorem AgreeOn.mono (h : AgreeOn G l l') (hsub : F ⊆ G) : AgreeOn F l l' :=
  ⟨h.length, fun j hj => h.cells j (hsub hj)⟩

theorem AgreeOn.of_disjoint (h : AgreeOn Gᶜ l l') (hdisj : Disjoint F G) : AgreeOn F l l' :=
  h.mono hdisj.subset_compl_right

end AgreeOn

/-- The footprint of a patch, the buffers it can run on, those it refuses, and what it does to the others. -/
structure Patch where
  footprint : Set ℕ
  Needs : List ℕ → Prop
  Refuses : List ℕ → Prop
  Does : List ℕ → List ℕ → Prop
  needs_congr : ∀ {l m}, AgreeOn footprint l m → Needs l → Needs m
  refuses_congr : ∀ {l m}, AgreeOn footprint l m → Refuses l → Refuses m
  does_congr : ∀ {l l' m m'}, AgreeOn footprint l m → AgreeOn footprint l' m' → Does l l' → Does m m'

variable {p q : Patch} {ps qs : List Patch} {l l' : List ℕ} {r : Option (List ℕ)}

/-- The run of a patch ends with `none` if the patch refuses the buffer, else with the new buffer. -/
def Patch.Spec (p : Patch) (l : List ℕ) : Option (List ℕ) → Prop
  | none => p.Refuses l
  | some l' => ¬p.Refuses l ∧ AgreeOn p.footprintᶜ l l' ∧ p.Does l l'

/-- The run of several patches: one of them refuses the buffer, or each has done its work. -/
def Patch.All (ps : List Patch) (l : List ℕ) : Option (List ℕ) → Prop
  | none => ∃ p ∈ ps, p.Refuses l
  | some l' => (∀ p ∈ ps, ¬p.Refuses l ∧ p.Does l l') ∧ AgreeOn {j | ∀ p ∈ ps, j ∉ p.footprint} l l'

theorem Patch.All.nil : Patch.All [] l (some l) := ⟨fun _ hp => absurd hp List.not_mem_nil, AgreeOn.refl⟩

/-- The patches `ps` leave the buffer alone where `p` looks. -/
theorem Patch.All.agreeOn (h : Patch.All ps l (some l')) (hdisj : ∀ q ∈ ps, Disjoint p.footprint q.footprint) :
    AgreeOn p.footprint l l' :=
  h.2.mono fun _ hj q hq hjq => (hdisj q hq).le_bot ⟨hj, hjq⟩

theorem Patch.All.singleton (h : p.Spec l r) : Patch.All [p] l r := by
  cases r with
  | none => exact ⟨p, List.mem_singleton_self p, h⟩
  | some l' =>
    obtain ⟨hrefuses, hframe, hdoes⟩ := h
    refine ⟨fun q hq => ?_, hframe.mono fun j hj => hj p (List.mem_singleton_self p)⟩
    obtain rfl := List.mem_singleton.mp hq
    exact ⟨hrefuses, hdoes⟩

/-- Two groups of patches, one after the other. -/
theorem Patch.All.append (h : Patch.All ps l (some l')) (h' : Patch.All qs l' r)
    (hdisj : ∀ p ∈ ps, ∀ q ∈ qs, Disjoint p.footprint q.footprint) : Patch.All (ps ++ qs) l r := by
  have hlater : ∀ q ∈ qs, AgreeOn q.footprint l l' := fun q hq => h.agreeOn fun p hp => (hdisj p hp q hq).symm
  cases r with
  | none =>
    obtain ⟨q, hq, hrefuses⟩ := h'
    exact ⟨q, List.mem_append_right ps hq, q.refuses_congr (hlater q hq).symm hrefuses⟩
  | some m =>
    refine ⟨fun p hp => ?_, ?_⟩
    · rcases List.mem_append.mp hp with hp | hp
      · obtain ⟨hrefuses, hdoes⟩ := h.1 p hp
        exact ⟨hrefuses, p.does_congr AgreeOn.refl (h'.agreeOn fun q hq => hdisj p hp q hq) hdoes⟩
      · obtain ⟨hrefuses, hdoes⟩ := h'.1 p hp
        exact ⟨fun hl => hrefuses (p.refuses_congr (hlater p hp) hl),
          p.does_congr (hlater p hp).symm AgreeOn.refl hdoes⟩
    · refine AgreeOn.trans (h.2.mono ?_) (h'.2.mono ?_)
      · exact fun j hj p hp => hj p (List.mem_append_left qs hp)
      · exact fun j hj q hq => hj q (List.mem_append_right ps hq)

theorem Patch.Spec.all_cons (h : p.Spec l (some l')) (h' : Patch.All ps l' r)
    (hdisj : ∀ q ∈ ps, Disjoint p.footprint q.footprint) : Patch.All (p :: ps) l r :=
  (Patch.All.singleton h).append h' fun _ hp' q hq => List.mem_singleton.mp hp' ▸ hdisj q hq

end Deemon.Patches
