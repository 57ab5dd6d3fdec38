import Deemon.Lib.Run
import Mathlib.Data.List.Nodup

/-!
# Binary trees of linked nodes

Nodes in memory with pointers to a parent and two children. `Linked` says that the nodes below a pointer make up a
tree of a given shape. A path from a node up to the root (`Path`) splits the nodes of the tree, in order, into those
before, in and after the subtree of the node; the walks over the pointers are proved along it: down to the first node
(`leftmost`), up to the next one (`climb`), and from a node to its neighbour (`next`). Each statement about the walks
to the left is the one about the walks to the right in the mirrored memory. A node without children can be linked in at
the lower end of a path (`attach_lhs`, `attach_rhs`).
-/

namespace Deemon.LinkedTree

open Deemon.Run

variable {A : Type}

/-! ### Shapes -/

/-- A tree of addresses. -/
inductive Shape (A : Type) where
  | leaf
  | node (lhs : Shape A) (addr : A) (rhs : Shape A)

namespace Shape

/-- The addresses in order. -/
def addrs : Shape A → List A
  | leaf => []
  | node lhs a rhs => lhs.addrs ++ a :: rhs.addrs

/-- The pointer to a tree, `none` for `NULL`. -/
def root : Shape A → Option A
  | leaf => none
  | node _ a _ => some a

def mirror : Shape A → Shape A
  | leaf => leaf
  | node lhs a rhs => node rhs.mirror a lhs.mirror

@[simp] theorem root_mirror (t : Shape A) : t.mirror.root = t.root := by cases t <;> rfl

@[simp] theorem mirror_mirror (t : Shape A) : t.mirror.mirror = t := by
  induction t with
  | leaf => rfl
  | node lhs a rhs ihl ihr => rw [mirror, mirror, ihl, ihr]

@[simp] theorem addrs_mirror (t : Shape A) : t.mirror.addrs = t.addrs.reverse := by
  induction t with
  | leaf => rfl
  | node lhs a rhs ihl ihr => simp [mirror, addrs, ihl, ihr]

theorem addrs_ne_nil {t : Shape A} {a : A} (h : t.root = some a) : t.addrs ≠ [] := by
  cases t with
  | leaf => cases h
  | node lhs b rhs => simp [addrs]

theorem eq_leaf {t : Shape A} (h : t.root = none) : t = leaf := by
  cases t with
  | leaf => rfl
  | node lhs a rhs => cases h

theorem root_mem {t : Shape A} {a : A} (h : t.root = some a) : a ∈ t.addrs := by
  cases t with
  | leaf => cases h
  | node lhs b rhs =>
    cases h
    simp [addrs]

end Shape

/-! ### Memory -/

/-- The pointers of a node. -/
structure Links (A : Type) where
  par : Option A
  lhs : Option A
  rhs : Option A

/-- The pointers of the node at an address, if there is one. -/
abbrev Mem (A : Type) := A → Option (Links A)

/-- A node with its children exchanged. -/
def Links.mirror (n : Links A) : Links A := ⟨n.par, n.rhs, n.lhs⟩

/-- The memory with the children of all nodes exchanged. -/
def Mem.mirror (mem : Mem A) : Mem A := fun a => (mem a).map Links.mirror

@[simp] theorem Mem.mirror_mirror (mem : Mem A) : mem.mirror.mirror = mem := by
  funext a
  rw [Mem.mirror, Mem.mirror, Option.map_map]
  cases mem a <;> rfl

/-- The nodes below the parent `p` make up a tree of the shape. -/
def Linked (mem : Mem A) : Option A → Shape A → Prop
  | _, .leaf => True
  | p, .node lhs a rhs => mem a = some ⟨p, lhs.root, rhs.root⟩ ∧ Linked mem (some a) lhs ∧ Linked mem (some a) rhs

theorem Linked.mirror {mem : Mem A} {p : Option A} {t : Shape A} (h : Linked mem p t) :
    Linked mem.mirror p t.mirror := by
  induction t generalizing p with
  | leaf => trivial
  | node lhs a rhs ihl ihr =>
    obtain ⟨ha, hl, hr⟩ := h
    refine ⟨?_, ihr hr, ihl hl⟩
    rw [Mem.mirror, ha, Option.map_some, Shape.root_mirror, Shape.root_mirror]
    rfl

/-- The nodes below a pointer, in order. -/
def inorder (mem : Mem A) : ℕ → Option A → List A
  | 0, _ => []
  | _ + 1, none => []
  | fuel + 1, some a =>
    match mem a with
    | none => []
    | some n => inorder mem fuel n.lhs ++ a :: inorder mem fuel n.rhs

theorem inorder_eq {mem : Mem A} {p : Option A} {t : Shape A} {fuel : ℕ} (h : Linked mem p t)
    (hfuel : t.addrs.length < fuel) : inorder mem fuel t.root = t.addrs := by
  induction t generalizing p fuel with
  | leaf =>
    obtain ⟨fuel, rfl⟩ : ∃ k, fuel = k + 1 := ⟨fuel - 1, by omega⟩
    rfl
  | node lhs a rhs ihl ihr =>
    obtain ⟨ha, hl, hr⟩ := h
    simp only [Shape.addrs, List.length_append, List.length_cons] at hfuel
    obtain ⟨fuel, rfl⟩ : ∃ k, fuel = k + 1 := ⟨fuel - 1, by omega⟩
    rw [Shape.root, inorder, ha]
    dsimp only
    rw [ihl hl (by omega), ihr hr (by omega), Shape.addrs]

/-! ### Paths -/

/-- The path from a node to the root, the parent of the node first: each step is the parent, the other child of it,
and the side that the path comes from. -/
inductive Path (A : Type) where
  | top
  | fromLhs (a : A) (rhs : Shape A) (up : Path A)
  | fromRhs (lhs : Shape A) (a : A) (up : Path A)

namespace Path

/-- The address of the parent. -/
def parent : Path A → Option A
  | top => none
  | fromLhs a _ _ => some a
  | fromRhs _ a _ => some a

def length : Path A → ℕ
  | top => 0
  | fromLhs _ _ c => c.length + 1
  | fromRhs _ _ c => c.length + 1

/-- The tree with a subtree at the lower end of the path. -/
def plug : Path A → Shape A → Shape A
  | top, t => t
  | fromLhs a rhs c, t => c.plug (.node t a rhs)
  | fromRhs lhs a c, t => c.plug (.node lhs a t)

/-- The addresses before the subtree. -/
def before : Path A → List A
  | top => []
  | fromLhs _ _ c => c.before
  | fromRhs lhs a c => c.before ++ (lhs.addrs ++ [a])

/-- The addresses after the subtree. -/
def after : Path A → List A
  | top => []
  | fromLhs a rhs c => a :: rhs.addrs ++ c.after
  | fromRhs _ _ c => c.after

def mirror : Path A → Path A
  | top => top
  | fromLhs a rhs c => fromRhs rhs.mirror a c.mirror
  | fromRhs lhs a c => fromLhs a lhs.mirror c.mirror

@[simp] theorem mirror_mirror (c : Path A) : c.mirror.mirror = c := by
  induction c with
  | top => rfl
  | fromLhs a rhs c ih => rw [mirror, mirror, ih, Shape.mirror_mirror]
  | fromRhs lhs a c ih => rw [mirror, mirror, ih, Shape.mirror_mirror]

theorem mirror_plug (c : Path A) (t : Shape A) : (c.plug t).mirror = c.mirror.plug t.mirror := by
  induction c generalizing t with
  | top => rfl
  | fromLhs a rhs c ih => exact ih _
  | fromRhs lhs a c ih => exact ih _

theorem root_plug (c : Path A) {t u : Shape A} (h : t.root = u.root) : (c.plug t).root = (c.plug u).root := by
  induction c generalizing t u with
  | top => exact h
  | fromLhs a rhs c ih => exact ih rfl
  | fromRhs lhs a c ih => exact ih rfl

/-- Below a parent, the subtree does not matter for the root. -/
theorem root_plug_of_parent {c : Path A} {a : A} (h : c.parent = some a) (t u : Shape A) :
    (c.plug t).root = (c.plug u).root := by
  cases c with
  | top => cases h
  | fromLhs b rhs c => exact c.root_plug rfl
  | fromRhs lhs b c => exact c.root_plug rfl

theorem addrs_plug (c : Path A) (t : Shape A) : (c.plug t).addrs = c.before ++ t.addrs ++ c.after := by
  induction c generalizing t with
  | top => simp [plug, before, after]
  | fromLhs a rhs c ih => simp [plug, before, after, ih, Shape.addrs]
  | fromRhs lhs a c ih => simp [plug, before, after, ih, Shape.addrs]

theorem length_le (c : Path A) (t : Shape A) : c.length + t.addrs.length ≤ (c.plug t).addrs.length := by
  induction c generalizing t with
  | top => simp [plug, length]
  | fromLhs a rhs c ih =>
    have h := ih (.node t a rhs)
    simp only [Shape.addrs, List.length_append, List.length_cons] at h
    simp only [plug, length]
    omega
  | fromRhs lhs a c ih =>
    have h := ih (.node lhs a t)
    simp only [Shape.addrs, List.length_append, List.length_cons] at h
    simp only [plug, length]
    omega

end Path

/-- The nodes of a path and those of the other subtrees along it, above the pointer `child`. -/
def LinkedPath (mem : Mem A) : Option A → Path A → Prop
  | _, .top => True
  | child, .fromLhs a rhs c =>
    mem a = some ⟨c.parent, child, rhs.root⟩ ∧ Linked mem (some a) rhs ∧ LinkedPath mem (some a) c
  | child, .fromRhs lhs a c =>
    mem a = some ⟨c.parent, lhs.root, child⟩ ∧ Linked mem (some a) lhs ∧ LinkedPath mem (some a) c

theorem linked_plug {mem : Mem A} {c : Path A} {t : Shape A} :
    Linked mem none (c.plug t) ↔ Linked mem c.parent t ∧ LinkedPath mem t.root c := by
  induction c generalizing t with
  | top => exact (and_iff_left trivial).symm
  | fromLhs a rhs c ih =>
    rw [Path.plug, ih]
    constructor
    · rintro ⟨⟨ha, ht, hr⟩, hc⟩
      exact ⟨ht, ha, hr, hc⟩
    · rintro ⟨ht, ha, hr, hc⟩
      exact ⟨⟨ha, ht, hr⟩, hc⟩
  | fromRhs lhs a c ih =>
    rw [Path.plug, ih]
    constructor
    · rintro ⟨⟨ha, hl, ht⟩, hc⟩
      exact ⟨ht, ha, hl, hc⟩
    · rintro ⟨ht, ha, hl, hc⟩
      exact ⟨⟨ha, hl, ht⟩, hc⟩

/-- The node at a place of the order, at the lower end of its path. -/
theorem exists_path {t : Shape A} {pre post : List A} {a : A} (h : t.addrs = pre ++ a :: post) :
    ∃ (c : Path A) (lhs rhs : Shape A), c.plug (.node lhs a rhs) = t ∧ pre = c.before ++ lhs.addrs ∧
      post = rhs.addrs ++ c.after := by
  suffices hgen : ∀ (t : Shape A) (c : Path A) (pre post : List A), t.addrs = pre ++ a :: post →
      ∃ (d : Path A) (lhs rhs : Shape A), d.plug (.node lhs a rhs) = c.plug t ∧
        c.before ++ pre = d.before ++ lhs.addrs ∧ post ++ c.after = rhs.addrs ++ d.after by
    obtain ⟨c, lhs, rhs, hplug, hpre, hpost⟩ := hgen t .top pre post h
    simp only [Path.before, Path.after, List.nil_append, List.append_nil] at hpre hpost
    exact ⟨c, lhs, rhs, hplug, hpre, hpost⟩
  intro t
  induction t with
  | leaf =>
    intro c pre post h
    simp [Shape.addrs] at h
  | node l b r ihl ihr =>
    intro c pre post h
    rw [Shape.addrs, List.append_eq_append_iff] at h
    rcases h with ⟨mid, rfl, hmid⟩ | ⟨mid, hl, hmid⟩
    · cases mid with
      | nil =>
        cases hmid
        exact ⟨c, l, r, rfl, by simp, by simp⟩
      | cons x mid =>
        -- past the middle node, in the right subtree
        obtain ⟨rfl, hr⟩ := List.cons.inj hmid
        obtain ⟨d, lhs, rhs, hplug, hpre, hpost⟩ := ihr (.fromRhs l b c) mid post hr
        refine ⟨d, lhs, rhs, hplug, ?_, ?_⟩
        · rw [← hpre]
          simp [Path.before]
        · rw [← hpost]
          simp [Path.after]
    · cases mid with
      | nil =>
        cases hmid
        exact ⟨c, l, r, rfl, by simp [hl], by simp⟩
      | cons x mid =>
        obtain ⟨rfl, rfl⟩ := List.cons.inj hmid
        obtain ⟨d, lhs, rhs, hplug, hpre, hpost⟩ := ihl (.fromLhs b r c) pre mid hl
        refine ⟨d, lhs, rhs, hplug, ?_, ?_⟩
        · rw [← hpre]
          simp [Path.before]
        · rw [← hpost]
          simp [Path.after]

/-! ### Walks -/

section Walks

variable [DecidableEq A]

/-- `while (node->lhs) node = node->lhs;`. -/
def leftmost (mem : Mem A) (fuel : ℕ) (a : A) : Option A :=
  loop (fun a => do
    let n ← mem a
    match n.lhs with
    | some b => some (.next b)
    | none => some (.done a)) fuel a

/-- Up to the first parent that is reached from its left child. -/
def climb (mem : Mem A) (fuel : ℕ) (a : A) : Option (Option A) :=
  loop (fun a => do
    let n ← mem a
    match n.par with
    | none => some (.done none)
    | some p => do
      let m ← mem p
      if m.lhs = some a then some (.done (some p)) else some (.next p)) fuel a

/-- The next node in order. -/
def next (mem : Mem A) (fuel : ℕ) (a : A) : Option (Option A) := do
  let n ← mem a
  match n.rhs with
  | none => climb mem fuel a
  | some b => do some (some (← leftmost mem fuel b))

/-- The node before in order. -/
def prev (mem : Mem A) (fuel : ℕ) (a : A) : Option (Option A) := next mem.mirror fuel a

variable {mem : Mem A} {fuel : ℕ} {p : Option A} {t : Shape A} {a : A}

omit [DecidableEq A] in
theorem leftmost_eq (h : Linked mem p t) (hroot : t.root = some a) (hfuel : t.addrs.length ≤ fuel) :
    leftmost mem fuel a = t.addrs.head? := by
  induction t generalizing p a fuel with
  | leaf => cases hroot
  | node lhs b rhs ihl =>
    obtain rfl : b = a := Option.some.inj hroot
    obtain ⟨ha, hl, -⟩ := h
    simp only [Shape.addrs, List.length_append, List.length_cons] at hfuel
    obtain ⟨fuel, rfl⟩ : ∃ k, fuel = k + 1 := ⟨fuel - 1, by omega⟩
    cases hlhs : lhs.root with
    | none =>
      rw [Shape.eq_leaf hlhs] at ha ⊢
      exact loop_done (by rw [ha]; rfl)
    | some a =>
      have hnext : leftmost mem (fuel + 1) b = leftmost mem fuel a := loop_next (by rw [ha, hlhs]; rfl)
      rw [hnext, ihl hl hlhs (by omega), Shape.addrs, List.head?_append_of_ne_nil _ (Shape.addrs_ne_nil hlhs)]

/-- Climbing finds the first node after the subtree. -/
theorem climb_eq {c : Path A} (ha : ∃ l r, mem a = some ⟨c.parent, l, r⟩) (h : LinkedPath mem (some a) c)
    (hnodup : (a :: c.before).Nodup) (hfuel : c.length < fuel) : climb mem fuel a = some c.after.head? := by
  obtain ⟨fuel, rfl⟩ : ∃ k, fuel = k + 1 := ⟨fuel - 1, by omega⟩
  obtain ⟨l, r, ha⟩ := ha
  induction c generalizing a fuel l r with
  | top => exact loop_done (by rw [ha]; rfl)
  | fromLhs b rhs c ih =>
    obtain ⟨hb, -, -⟩ := h
    refine loop_done ?_
    rw [ha, some_bind]
    dsimp only [Path.parent]
    rw [hb, some_bind]
    exact if_pos rfl
  | fromRhs lhs b c ih =>
    obtain ⟨hb, -, hc⟩ := h
    rw [Path.before, List.nodup_cons] at hnodup
    rw [Path.length] at hfuel
    have hne : lhs.root ≠ some a := fun hroot => hnodup.1 (by simp [Shape.root_mem hroot])
    have hstep : climb mem (fuel + 1) a = climb mem fuel b := by
      refine loop_next ?_
      rw [ha, some_bind]
      dsimp only [Path.parent]
      rw [hb, some_bind]
      exact if_neg hne
    have hrest := hnodup.2
    rw [List.nodup_append] at hrest
    have hnodup' : (b :: c.before).Nodup := List.nodup_cons.mpr ⟨fun hmem => hrest.2.2 b hmem b (by simp) rfl, hrest.1⟩
    obtain ⟨fuel, rfl⟩ : ∃ k, fuel = k + 1 := ⟨fuel - 1, by omega⟩
    rw [hstep, ih hc hnodup' _ (by omega) _ _ hb]
    rfl

/-- The next node is the one that follows in order. -/
theorem next_eq {pre post : List A} (h : Linked mem none t) (hnodup : t.addrs.Nodup)
    (haddrs : t.addrs = pre ++ a :: post) (hfuel : t.addrs.length ≤ fuel) : next mem fuel a = some post.head? := by
  obtain ⟨c, lhs, rhs, rfl, rfl, rfl⟩ := exists_path haddrs
  have hlen := c.length_le (.node lhs a rhs)
  obtain ⟨⟨ha, hl, hr⟩, hc⟩ := linked_plug.mp h
  rw [Path.addrs_plug, Shape.addrs] at hnodup
  simp only [Shape.addrs, List.length_append, List.length_cons] at hlen
  unfold next
  rw [ha, some_bind]
  dsimp only
  cases hroot : rhs.root with
  | none =>
    have hbefore : (a :: c.before).Nodup := by
      rw [List.nodup_append, List.nodup_append] at hnodup
      refine List.nodup_cons.mpr ⟨fun hmem => ?_, hnodup.1.1⟩
      exact hnodup.1.2.2 a hmem a (by simp) rfl
    rw [Shape.eq_leaf hroot]
    exact climb_eq ⟨_, _, ha⟩ hc hbefore (by omega)
  | some b =>
    dsimp only
    rw [leftmost_eq hr hroot (by omega), List.head?_append_of_ne_nil _ (Shape.addrs_ne_nil hroot)]
    cases hfirst : rhs.addrs with
    | nil => exact absurd hfirst (Shape.addrs_ne_nil hroot)
    | cons x l => rfl

/-- The node before is the one that precedes in order. -/
theorem prev_eq {pre post : List A} (h : Linked mem none t) (hnodup : t.addrs.Nodup)
    (haddrs : t.addrs = pre ++ a :: post) (hfuel : t.addrs.length ≤ fuel) : prev mem fuel a = some pre.getLast? := by
  have haddrs' : t.mirror.addrs = post.reverse ++ a :: pre.reverse := by simp [haddrs]
  have hnext := next_eq h.mirror (by simpa using hnodup) haddrs' (by simpa using hfuel)
  rw [List.head?_reverse] at hnext
  exact hnext

/-! ### Positions -/

theorem next_getElem {i : ℕ} (h : Linked mem none t) (hnodup : t.addrs.Nodup) (ha : t.addrs[i]? = some a)
    (hfuel : t.addrs.length ≤ fuel) : next mem fuel a = some t.addrs[i + 1]? := by
  obtain ⟨hi, rfl⟩ := List.getElem?_eq_some_iff.mp ha
  have hsplit : t.addrs = t.addrs.take i ++ t.addrs[i] :: t.addrs.drop (i + 1) := by simp
  rw [next_eq h hnodup hsplit hfuel, List.head?_drop]

theorem prev_getElem {i : ℕ} (h : Linked mem none t) (hnodup : t.addrs.Nodup) (ha : t.addrs[i]? = some a)
    (hfuel : t.addrs.length ≤ fuel) : prev mem fuel a = some (if i = 0 then none else t.addrs[i - 1]?) := by
  obtain ⟨hi, rfl⟩ := List.getElem?_eq_some_iff.mp ha
  have hsplit : t.addrs = t.addrs.take i ++ t.addrs[i] :: t.addrs.drop (i + 1) := by simp
  rw [prev_eq h hnodup hsplit hfuel, List.getLast?_take]
  split_ifs with hzero
  · rfl
  · rw [List.getElem?_eq_getElem (by omega)]
    rfl

omit [DecidableEq A] in
theorem leftmost_root (h : Linked mem p t) (hroot : t.root = some a) (hfuel : t.addrs.length ≤ fuel) :
    leftmost mem fuel a = t.addrs[0]? := by
  rw [leftmost_eq h hroot hfuel, List.head?_eq_getElem?]

end Walks

/-! ### New nodes -/

section Attach

variable {mem mem' : Mem A} {p child : Option A} {t lhs rhs : Shape A} {c : Path A} {a b new : A}

theorem Linked.congr (h : Linked mem p t) (heq : ∀ a ∈ t.addrs, mem' a = mem a) : Linked mem' p t := by
  induction t generalizing p with
  | leaf => trivial
  | node lhs b rhs ihl ihr =>
    obtain ⟨hb, hl, hr⟩ := h
    refine ⟨(heq b (by simp [Shape.addrs])).trans hb, ihl hl fun a ha => ?_, ihr hr fun a ha => ?_⟩
    · exact heq a (by simp [Shape.addrs, ha])
    · exact heq a (by simp [Shape.addrs, ha])

theorem LinkedPath.congr (h : LinkedPath mem child c) (heq : ∀ a ∈ c.before ++ c.after, mem' a = mem a) :
    LinkedPath mem' child c := by
  induction c generalizing child with
  | top => trivial
  | fromLhs b rhs c ih =>
    obtain ⟨hb, hr, hc⟩ := h
    refine ⟨(heq b (by simp [Path.after])).trans hb, hr.congr fun a ha => ?_, ih hc fun a ha => ?_⟩
    · exact heq a (by simp [Path.after, ha])
    · refine heq a ?_
      simp only [Path.before, Path.after, List.mem_append, List.mem_cons] at ha ⊢
      tauto
  | fromRhs lhs b c ih =>
    obtain ⟨hb, hl, hc⟩ := h
    refine ⟨(heq b (by simp [Path.before])).trans hb, hl.congr fun a ha => ?_, ih hc fun a ha => ?_⟩
    · exact heq a (by simp [Path.before, ha])
    · refine heq a ?_
      simp only [Path.before, Path.after, List.mem_append, List.mem_cons] at ha ⊢
      tauto

/-- A node without children is linked in as the left child that `a` did not have. -/
theorem attach_lhs (h : Linked mem none ((Path.fromLhs a rhs c).plug .leaf))
    (hnodup : ((Path.fromLhs a rhs c).plug .leaf).addrs.Nodup)
    (hnew : new ∉ ((Path.fromLhs a rhs c).plug .leaf).addrs) (hmem : mem' new = some ⟨some a, none, none⟩)
    (hpar : ∀ n, mem a = some n → mem' a = some ⟨n.par, some new, n.rhs⟩)
    (hother : ∀ x, x ≠ a → x ≠ new → mem' x = mem x) :
    Linked mem' none ((Path.fromLhs a rhs c).plug (.node .leaf new .leaf)) := by
  obtain ⟨-, ha, hr, hc⟩ := linked_plug.mp h
  rw [Path.addrs_plug] at hnodup hnew
  simp only [Shape.addrs, Path.before, Path.after, List.append_nil, List.cons_append] at hnodup hnew
  obtain ⟨hbefore, hafter, hapart⟩ := List.nodup_append.mp hnodup
  have haafter := (List.nodup_cons.mp hafter).1
  have hsame : ∀ x ∈ c.before ++ (rhs.addrs ++ c.after), mem' x = mem x := by
    intro x hx
    refine hother x ?_ ?_
    · rintro rfl
      rcases List.mem_append.mp hx with hx | hx
      · exact hapart x hx x List.mem_cons_self rfl
      · exact haafter hx
    · rintro rfl
      refine hnew ?_
      simp only [List.mem_append, List.mem_cons] at hx ⊢
      tauto
  refine linked_plug.mpr ⟨⟨hmem, trivial, trivial⟩, hpar _ ha, hr.congr fun x hx => ?_, hc.congr fun x hx => ?_⟩
  · exact hsame x (by simp [hx])
  · refine hsame x ?_
    simp only [List.mem_append] at hx ⊢
    tauto

/-- A node without children is linked in as the right child that `a` did not have. -/
theorem attach_rhs (h : Linked mem none ((Path.fromRhs lhs a c).plug .leaf))
    (hnodup : ((Path.fromRhs lhs a c).plug .leaf).addrs.Nodup)
    (hnew : new ∉ ((Path.fromRhs lhs a c).plug .leaf).addrs) (hmem : mem' new = some ⟨some a, none, none⟩)
    (hpar : ∀ n, mem a = some n → mem' a = some ⟨n.par, n.lhs, some new⟩)
    (hother : ∀ x, x ≠ a → x ≠ new → mem' x = mem x) :
    Linked mem' none ((Path.fromRhs lhs a c).plug (.node .leaf new .leaf)) := by
  have hplug := Path.mirror_plug (.fromRhs lhs a c) .leaf
  have hlinked : Linked mem'.mirror none ((Path.fromLhs a lhs.mirror c.mirror).plug (.node .leaf new .leaf)) := by
    refine @attach_lhs _ mem.mirror _ _ _ _ _ (hplug ▸ h.mirror) ?_ ?_ ?_ ?_ ?_
    · exact hplug ▸ by simpa using hnodup
    · exact hplug ▸ by simpa using hnew
    · rw [Mem.mirror, hmem]
      rfl
    · intro n hn
      obtain ⟨m, hm, rfl⟩ := Option.map_eq_some_iff.mp hn
      rw [Mem.mirror, hpar m hm]
      rfl
    · intro x hxa hxnew
      rw [Mem.mirror, Mem.mirror, hother x hxa hxnew]
  have hback := hlinked.mirror
  rw [Mem.mirror_mirror, Path.mirror_plug] at hback
  simpa [Path.mirror, Shape.mirror] using hback

/-- The first node of a subtree has no left child. -/
theorem exists_first (h : t.root = some b) (c : Path A) : ∃ (a : A) (rhs : Shape A) (d : Path A),
    (Path.fromLhs a rhs d).plug .leaf = c.plug t ∧ t.addrs.head? = some a ∧ d.before = c.before := by
  induction t generalizing b c with
  | leaf => cases h
  | node lhs x rhs ihl ihr =>
    cases hroot : lhs.root with
    | none =>
      rw [Shape.eq_leaf hroot]
      exact ⟨x, rhs, c, rfl, rfl, rfl⟩
    | some l =>
      obtain ⟨a, r, d, hplug, hhead, hbefore⟩ := ihl hroot (.fromLhs x rhs c)
      refine ⟨a, r, d, hplug, ?_, hbefore⟩
      rw [Shape.addrs, List.head?_append_of_ne_nil _ (Shape.addrs_ne_nil hroot), hhead]

/-- The last node of a subtree has no right child. -/
theorem exists_last (h : t.root = some b) (c : Path A) : ∃ (lhs : Shape A) (a : A) (d : Path A),
    (Path.fromRhs lhs a d).plug .leaf = c.plug t ∧ t.addrs.getLast? = some a ∧ d.after = c.after := by
  induction t generalizing b c with
  | leaf => cases h
  | node lhs x rhs ihl ihr =>
    cases hroot : rhs.root with
    | none =>
      rw [Shape.eq_leaf hroot]
      exact ⟨lhs, x, c, rfl, by simp [Shape.addrs], rfl⟩
    | some r =>
      obtain ⟨l, a, d, hplug, hlast, hafter⟩ := ihr hroot (.fromRhs lhs x c)
      refine ⟨l, a, d, hplug, ?_, hafter⟩
      rw [Shape.addrs, List.getLast?_append_cons, List.getLast?_cons_of_ne_nil (Shape.addrs_ne_nil hroot), hlast]

end Attach

end Deemon.LinkedTree
