import Deemon.Lib.Probing

/-!
# The simple hash set

A table of `2 ^ k` slots that is only inserted into. It starts with eight slots, or with two if there is no memory for
eight, and is doubled when it is half full, if there is memory, and before its last empty slot would be filled. Whether
an allocation succeeds is read from a list of answers; when the list is used up there is no more memory.
-/

namespace Deemon.Runtime

open Deemon.Run Deemon.Probing

variable {α : Type}

/-! ### The code -/

/-- The hash and the equality of items, as `DeeObject_Hash` and `DeeObject_TryCompareEq` compute them. -/
structure Hashing (α : Type) where
  hash : α → ℕ
  compareEq : α → α → Bool
  equivalence : Equivalence fun x y => compareEq x y = true
  consistent : ∀ {x y}, compareEq x y = true → hash x = hash y

/-- `struct Dee_simple_hashset_item`. -/
structure HashsetItem (α : Type) where
  key : Option α
  hash : ℕ

/-- `struct Dee_simple_hashset`. -/
structure SimpleHashset (α : Type) where
  elem : Option (List (HashsetItem α))
  mask : ℕ
  size : ℕ

/-- `Dee_SIMPLE_HASHSET_INIT`. -/
def SimpleHashset.init : SimpleHashset α := ⟨none, 0, 0⟩

/-- `Dee_TryCallocc` of `count` items of sixteen bytes. -/
def tryCallocc (answer : Bool) (count : ℕ) : Bool := answer && count * 16 < 2 ^ 64

/-- The first slot without a key. -/
def freeSlot (elem : List (HashsetItem α)) (mask hash : ℕ) : Option ℕ :=
  probe (fun i => do
    let slot ← elem[i]?
    some (if slot.key.isNone then some i else none)) mask hash

/-- The first slot without a key, or nothing when an equal item comes before it. -/
def findSlot (H : Hashing α) (elem : List (HashsetItem α)) (mask : ℕ) (item : α) : Option (Option ℕ) :=
  probe (fun i => do
    let slot ← elem[i]?
    some (slot.key.elim (some (some i)) fun key =>
      if slot.hash ≠ H.hash item then none else if H.compareEq item key then some none else none)) mask (H.hash item)

/-- `Dee_simple_hashset_tryrehash`. -/
def SimpleHashset.tryrehash (self : SimpleHashset α) (answer : Bool) : Option (SimpleHashset α × Bool) :=
  let newMask := self.mask <<< 1 ||| 1
  if tryCallocc answer (newMask + 1) then do
    let elem ← self.elem
    let newElem ← forLoop (fun i newElem => do
      let src ← elem[i]?
      let dst ← freeSlot newElem newMask src.hash
      some (newElem.set dst src)) 0 (self.mask + 1) (List.replicate (newMask + 1) ⟨none, 0⟩)
    some (⟨some newElem, newMask, self.size⟩, true)
  else some (self, false)

/-- `Dee_simple_hashset_rehash`: the answers are those of `Dee_TryCallocc` and `Dee_CollectMemoryc` in turn. -/
def SimpleHashset.rehash (self : SimpleHashset α) : List Bool → Option (SimpleHashset α × Bool × List Bool)
  | [] => some (self, false, [])
  | [answer] => do
    let (self, ok) ← self.tryrehash answer
    some (self, ok, [])
  | answer :: collected :: memory => do
    let (self, ok) ← self.tryrehash answer
    if ok then some (self, true, collected :: memory)
    else if collected then self.rehash memory
    else some (self, false, memory)

/-- Populates a slot, and tries to keep the table half empty. -/
def SimpleHashset.populate (self : SimpleHashset α) (slot : ℕ) (key : α) (hash : ℕ) (memory : List Bool) :
    Option (SimpleHashset α × ℤ × List Bool) := do
  let elem ← self.elem
  let self : SimpleHashset α := ⟨some (elem.set slot ⟨some key, hash⟩), self.mask, self.size + 1⟩
  if self.mask < self.size * 2 then do
    let (self, _) ← self.tryrehash (memory.headD false)
    some (self, 1, memory.tail)
  else some (self, 1, memory)

/-- The first insert: a new table with one key. -/
def SimpleHashset.first (mask : ℕ) (key : α) (hash : ℕ) : SimpleHashset α :=
  ⟨some ((List.replicate (mask + 1) ⟨none, 0⟩).set (hash &&& mask) ⟨some key, hash⟩), mask, 1⟩

/-- `Dee_simple_hashset_insert`: the set after the call, what is returned, and the memory that is left. -/
def SimpleHashset.insert (H : Hashing α) (self : SimpleHashset α) (item : α) (memory : List Bool) :
    Option (SimpleHashset α × ℤ × List Bool) :=
  match self.elem with
  | none =>
    if tryCallocc (memory.headD false) 8 then some (.first 7 item (H.hash item), 1, memory.tail)
    else if tryCallocc (memory.tail.headD false) 2 then some (.first 1 item (H.hash item), 1, memory.tail.tail)
    else some (⟨none, 1, self.size⟩, -1, memory.tail.tail)
  | some elem => do
    match ← findSlot H elem self.mask item with
    | none => some (self, 0, memory)
    | some slot =>
      -- a re-hash is mandatory when the last slot without a key would be filled
      if self.mask ≤ self.size then do
        let (grown, ok, memory) ← self.rehash memory
        if ok then do
          let slot ← freeSlot (← grown.elem) grown.mask (H.hash item)
          grown.populate slot item (H.hash item) memory
        else some (grown, -1, memory)
      else self.populate slot item (H.hash item) memory

/-! ### Tables -/

/-- The key of a slot. -/
def keyAt (elem : List (HashsetItem α)) (i : ℕ) : Option α := elem[i]?.bind HashsetItem.key

/-- All keys of a table. -/
def keys (elem : List (HashsetItem α)) : List α := elem.filterMap HashsetItem.key

/-- A slot that the probe of a hash comes to, over slots with keys only. -/
def Reaches (elem : List (HashsetItem α)) (mask hash i : ℕ) : Prop :=
  ∃ n, probeIndex mask hash n = i ∧ ∀ m < n, (keyAt elem (probeIndex mask hash m)).isSome

/-- A table in which every key is found again. -/
structure HashTable (H : Hashing α) (mask : ℕ) (elem : List (HashsetItem α)) : Prop where
  mask_eq : ∃ k ≤ 60, mask + 1 = 2 ^ k
  length : elem.length = mask + 1
  hash : ∀ slot ∈ elem, ∀ x, slot.key = some x → slot.hash = H.hash x
  reaches : ∀ i x, keyAt elem i = some x → Reaches elem mask (H.hash x) i
  distinct : (keys elem).Pairwise fun x y => H.compareEq x y = false

section Table

variable {H : Hashing α} {elem : List (HashsetItem α)} {mask hash i j n : ℕ} {x y : α} {slot : HashsetItem α}

theorem keys_append (l r : List (HashsetItem α)) : keys (l ++ r) = keys l ++ keys r := List.filterMap_append

theorem keyAt_eq (hi : i < elem.length) : keyAt elem i = elem[i].key := by
  rw [keyAt, List.getElem?_eq_getElem hi, Option.bind_some]

theorem keyAt_set_self (hi : i < elem.length) : keyAt (elem.set i slot) i = slot.key := by
  rw [keyAt, List.getElem?_set_self hi, Option.bind_some]

theorem keyAt_set_of_ne (h : i ≠ j) : keyAt (elem.set i slot) j = keyAt elem j := by
  rw [keyAt, List.getElem?_set_ne h, keyAt]

/-- Filling a slot without a key adds a key. -/
theorem keys_set (hi : i < elem.length) (hfree : keyAt elem i = none) :
    (keys (elem.set i slot)).Perm (slot.key.toList ++ keys elem) := by
  have hkey : elem[i].key = none := by rw [← keyAt_eq hi, hfree]
  have hold : keys elem = keys (elem.take i) ++ keys (elem.drop (i + 1)) := by
    conv_lhs => rw [← List.take_append_drop i elem, List.drop_eq_getElem_cons hi]
    rw [keys_append]
    congr 1
    rw [keys, List.filterMap_cons, hkey]
    rfl
  have hone : keys [slot] = slot.key.toList := by
    rw [keys, List.filterMap_cons]
    cases slot.key <;> rfl
  rw [List.set_eq_take_append_cons_drop, if_pos hi, keys_append, ← List.singleton_append, keys_append, hone, hold]
  exact List.perm_append_comm_assoc _ _ _

theorem mem_keys : x ∈ keys elem ↔ ∃ i, keyAt elem i = some x := by
  rw [keys, List.mem_filterMap]
  constructor
  · rintro ⟨slot, hslot, hkey⟩
    obtain ⟨i, hi, rfl⟩ := List.getElem_of_mem hslot
    exact ⟨i, (keyAt_eq hi).trans hkey⟩
  · rintro ⟨i, hkey⟩
    obtain ⟨slot, hslot, hkey⟩ := of_bind hkey
    exact ⟨slot, List.mem_of_getElem? hslot, hkey⟩

/-- Fewer keys than slots leave a slot without a key. -/
theorem exists_free (elem : List (HashsetItem α)) (hless : (keys elem).length < elem.length) :
    ∃ i < elem.length, keyAt elem i = none := by
  obtain ⟨slot, hslot, hkey⟩ := List.length_filterMap_lt_length_iff_exists.mp hless
  obtain ⟨i, hi, rfl⟩ := List.getElem_of_mem hslot
  exact ⟨i, hi, (keyAt_eq hi).trans hkey⟩

theorem keyAt_isSome_set (hfree : keyAt elem i = none) (hj : (keyAt elem j).isSome) :
    (keyAt (elem.set i slot) j).isSome := by
  have hne : i ≠ j := by
    rintro rfl
    rw [hfree] at hj
    cases hj
  rwa [keyAt_set_of_ne hne]

theorem Reaches.set (hfree : keyAt elem i = none) (h : Reaches elem mask hash j) :
    Reaches (elem.set i slot) mask hash j := by
  obtain ⟨n, hn, hbefore⟩ := h
  exact ⟨n, hn, fun m hm => keyAt_isSome_set hfree (hbefore m hm)⟩

theorem compareEq_false_symm {H : Hashing α} {x y : α} (h : H.compareEq x y = false) : H.compareEq y x = false := by
  rw [← Bool.not_eq_true] at h ⊢
  exact fun h' => h (H.equivalence.symm h')

/-- A key without an equal in the table goes to the first slot without a key on its probe. -/
theorem HashTable.fill (h : HashTable H mask elem) (slot : HashsetItem α) (hi : i < elem.length) (hfree : keyAt elem i = none)
    (hkey : ∀ x, slot.key = some x →
      slot.hash = H.hash x ∧ Reaches elem mask (H.hash x) i ∧ ∀ y ∈ keys elem, H.compareEq x y = false) :
    HashTable H mask (elem.set i slot) := by
  refine ⟨h.mask_eq, by rw [List.length_set, h.length], ?_, ?_, ?_⟩
  · intro slot' hslot' x hx
    rcases List.mem_or_eq_of_mem_set hslot' with hold | rfl
    · exact h.hash slot' hold x hx
    · exact (hkey x hx).1
  · intro j x hx
    by_cases hij : i = j
    · subst hij
      rw [keyAt_set_self hi] at hx
      exact (hkey x hx).2.1.set hfree
    · rw [keyAt_set_of_ne hij] at hx
      exact (h.reaches j x hx).set hfree
  · rw [(keys_set hi hfree).pairwise_iff fun h => compareEq_false_symm h]
    cases hslot : slot.key with
    | none => exact h.distinct
    | some x => exact List.pairwise_cons.mpr ⟨(hkey x hslot).2.2, h.distinct⟩

theorem HashTable.getElem?_eq (h : HashTable H mask elem) (hi : i ≤ mask) : ∃ slot, elem[i]? = some slot := by
  have hlen := h.length
  exact ⟨elem[i], List.getElem?_eq_getElem (by omega)⟩

/-- The slot that `freeSlot` finds, as long as one is left. -/
theorem HashTable.freeSlot_eq (h : HashTable H mask elem) (hless : (keys elem).length ≤ mask) (hash : ℕ) :
    ∃ i, freeSlot elem mask hash = some i ∧ i < elem.length ∧ keyAt elem i = none ∧ Reaches elem mask hash i := by
  have hlen := h.length
  obtain ⟨k, hk, hmask⟩ := h.mask_eq
  obtain ⟨t, ht, hfree⟩ := exists_free elem (by omega)
  have hvisit : ∀ i ≤ mask, (do
      let slot ← elem[i]?
      some (if slot.key.isNone then some i else none)) = some (if keyAt elem i = none then some i else none) := by
    intro i hi
    obtain ⟨slot, hslot⟩ := h.getElem?_eq hi
    rw [hslot, some_bind, keyAt, hslot, Option.bind_some]
    simp only [Option.isNone_iff_eq_none]
  obtain ⟨n, i, hn, hbefore, hprobe⟩ := exists_probe_eq hmask (by omega) hash (fun i hi => ⟨_, hvisit i hi⟩)
    (show t ≤ mask by omega) ((hvisit t (by omega)).trans (by rw [if_pos hfree]))
  rw [hvisit _ (probeIndex_le _ _ _), Option.some.injEq, Option.ite_none_right_eq_some, Option.some.injEq] at hn
  obtain ⟨hkey, rfl⟩ := hn
  refine ⟨_, hprobe, ?_, hkey, n, rfl, fun m hm => ?_⟩
  · have := probeIndex_le mask hash n
    omega
  · have hskip := hbefore m hm
    rw [hvisit _ (probeIndex_le _ _ _), Option.some.injEq] at hskip
    by_contra hnone
    rw [if_pos (by simpa using hnone)] at hskip
    cases hskip

/-- What `findSlot` visits. -/
theorem HashTable.visit_eq (h : HashTable H mask elem) (hi : i ≤ mask) (item : α) :
    (do
      let slot ← elem[i]?
      some (slot.key.elim (some (some i)) fun key =>
        if slot.hash ≠ H.hash item then none else if H.compareEq item key then some none else none)) =
    some ((keyAt elem i).elim (some (some i)) fun key => if H.compareEq item key then some none else none) := by
  obtain ⟨slot, hslot⟩ := h.getElem?_eq hi
  rw [hslot, some_bind, keyAt, hslot, Option.bind_some]
  cases hkey : slot.key with
  | none => rfl
  | some key =>
    rw [Option.elim_some, Option.elim_some, h.hash slot (List.mem_of_getElem? hslot) key hkey]
    by_cases heq : H.compareEq item key = true
    · rw [if_neg (not_not.mpr (H.consistent heq).symm)]
    · rw [if_neg heq, ite_self]

/-- An item is found if an equal one is in the table, and else the slot it belongs to. -/
theorem HashTable.findSlot_eq (h : HashTable H mask elem) (hless : (keys elem).length ≤ mask) (item : α) :
    (findSlot H elem mask item = some none ∧ ∃ y ∈ keys elem, H.compareEq item y = true) ∨
      ∃ i, findSlot H elem mask item = some (some i) ∧ i < elem.length ∧ keyAt elem i = none ∧
        Reaches elem mask (H.hash item) i ∧ ∀ y ∈ keys elem, H.compareEq item y = false := by
  have hlen := h.length
  obtain ⟨k, hk, hmask⟩ := h.mask_eq
  obtain ⟨t, ht, hfree⟩ := exists_free elem (by omega)
  obtain ⟨n, found, hn, hbefore, hprobe⟩ := exists_probe_eq hmask (by omega) (H.hash item)
    (fun i hi => ⟨_, h.visit_eq hi item⟩) (show t ≤ mask by omega) ((h.visit_eq (by omega) item).trans (by rw [hfree]; rfl))
  rw [h.visit_eq (probeIndex_le _ _ _), Option.some.injEq] at hn
  have hskipped : ∀ m < n, ∃ key, keyAt elem (probeIndex mask (H.hash item) m) = some key ∧ H.compareEq item key = false := by
    intro m hm
    have hskip := hbefore m hm
    rw [h.visit_eq (probeIndex_le _ _ _), Option.some.injEq] at hskip
    cases hkey : keyAt elem (probeIndex mask (H.hash item) m) with
    | none =>
      rw [hkey] at hskip
      cases hskip
    | some key =>
      rw [hkey, Option.elim_some] at hskip
      refine ⟨key, rfl, ?_⟩
      by_contra heq
      rw [if_pos (by simpa using heq)] at hskip
      cases hskip
  cases hkey : keyAt elem (probeIndex mask (H.hash item) n) with
  | some key =>
    rw [hkey, Option.elim_some, Option.ite_none_right_eq_some] at hn
    obtain ⟨heq, hnone⟩ := hn
    obtain rfl := Option.some.inj hnone
    exact .inl ⟨hprobe, key, mem_keys.mpr ⟨_, hkey⟩, heq⟩
  | none =>
    rw [hkey, Option.elim_none, Option.some.injEq] at hn
    subst hn
    refine .inr ⟨_, hprobe, ?_, hkey, ⟨n, rfl, fun m hm => ?_⟩, fun y hy => ?_⟩
    · have := probeIndex_le mask (H.hash item) n
      omega
    · obtain ⟨key, hsome, -⟩ := hskipped m hm
      rw [hsome]
      rfl
    · -- an equal key would have been met on the way, since its probe is the same
      by_contra heq
      rw [Bool.not_eq_false] at heq
      obtain ⟨i, hi⟩ := mem_keys.mp hy
      obtain ⟨m, hm, hall⟩ := h.reaches i y hi
      rw [← H.consistent heq] at hm hall
      rcases Nat.lt_trichotomy m n with hlt | rfl | hgt
      · obtain ⟨key, hsome, hne⟩ := hskipped m hlt
        rw [hm, hi, Option.some.injEq] at hsome
        rw [← hsome, heq] at hne
        cases hne
      · rw [hm, hi] at hkey
        cases hkey
      · have := hall n hgt
        rw [hkey] at this
        cases this

theorem keyAt_replicate (n : ℕ) : keyAt (List.replicate n (⟨none, 0⟩ : HashsetItem α)) i = none := by
  rw [keyAt, List.getElem?_replicate]
  split_ifs <;> rfl

/-- A new table. -/
theorem HashTable.replicate (H : Hashing α) (hmask : ∃ k ≤ 60, mask + 1 = 2 ^ k) :
    HashTable H mask (List.replicate (mask + 1) ⟨none, 0⟩) ∧
      keys (List.replicate (mask + 1) (⟨none, 0⟩ : HashsetItem α)) = [] := by
  have hkeys : keys (List.replicate (mask + 1) (⟨none, 0⟩ : HashsetItem α)) = [] := by
    rw [List.eq_nil_iff_forall_not_mem]
    intro x hx
    obtain ⟨i, hi⟩ := mem_keys.mp hx
    rw [keyAt_replicate] at hi
    cases hi
  refine ⟨⟨hmask, List.length_replicate, ?_, ?_, ?_⟩, hkeys⟩
  · intro slot hslot x hx
    rw [List.eq_of_mem_replicate hslot] at hx
    cases hx
  · intro i x hx
    rw [keyAt_replicate] at hx
    cases hx
  · rw [hkeys]
    exact List.Pairwise.nil

theorem keys_take_succ (hi : i < elem.length) : keys (elem.take (i + 1)) = keys (elem.take i) ++ elem[i].key.toList := by
  rw [List.take_succ_eq_append_getElem hi, keys_append]
  congr 1

/-- All slots are copied to the new table, with the keys in new places. -/
theorem HashTable.rehashed (h : HashTable H mask elem) (hless : (keys elem).length ≤ mask) {newMask : ℕ}
    (hmask : ∃ k ≤ 60, newMask + 1 = 2 ^ k) (hle : mask ≤ newMask) :
    Ends (forLoop (fun i newElem => do
      let src ← elem[i]?
      let dst ← freeSlot newElem newMask src.hash
      some (newElem.set dst src)) 0 (mask + 1) (List.replicate (newMask + 1) ⟨none, 0⟩)) fun newElem =>
      HashTable H newMask newElem ∧ (keys newElem).Perm (keys elem) := by
  have hlen := h.length
  have hnew := HashTable.replicate H hmask
  have hall := forLoop_ends_zero (n := mask + 1)
    (f := fun i newElem => do
      let src ← elem[i]?
      let dst ← freeSlot newElem newMask src.hash
      some (newElem.set dst src))
    (fun i newElem => HashTable H newMask newElem ∧ (keys newElem).Perm (keys (elem.take i)))
    ⟨hnew.1, by rw [hnew.2, List.take_zero]; exact List.Perm.refl _⟩ ?_
  · refine hall.mono fun newElem hend => ?_
    rwa [← hlen, List.take_length] at hend
  · rintro i newElem hi ⟨hok, hperm⟩
    have hlt : i < elem.length := by omega
    have hfewer : (keys newElem).length ≤ newMask := by
      have hsub : (keys (elem.take i)).length ≤ (keys elem).length :=
        ((List.take_sublist i elem).filterMap HashsetItem.key).length_le
      have := hperm.length_eq
      omega
    obtain ⟨j, hj, hjlt, hfree, hreach⟩ := hok.freeSlot_eq hfewer elem[i].hash
    rw [List.getElem?_eq_getElem hlt, some_bind, hj, some_bind]
    refine Ends.pure ⟨hok.fill elem[i] hjlt hfree ?_, ?_⟩
    · intro x hx
      have hhash := h.hash elem[i] (List.getElem_mem hlt) x hx
      refine ⟨hhash, hhash ▸ hreach, fun y hy => ?_⟩
      have hprior : (keys (elem.take (i + 1))).Pairwise _ :=
        h.distinct.sublist ((List.take_sublist (i + 1) elem).filterMap HashsetItem.key)
      rw [keys_take_succ hlt, hx] at hprior
      have hpair := (List.pairwise_append.mp hprior).2.2 y (hperm.mem_iff.mp hy) x (by simp)
      exact compareEq_false_symm hpair
    · refine (keys_set hjlt hfree).trans ?_
      rw [keys_take_succ hlt]
      exact (List.Perm.append_left _ hperm).trans List.perm_append_comm

end Table

/-! ### Sets -/

/-- A set and the items it stores. -/
inductive SimpleHashset.Stores (H : Hashing α) : SimpleHashset α → List α → Prop
  | unallocated (mask : ℕ) : Stores H ⟨none, mask, 0⟩ []
  | table {elem : List (HashsetItem α)} {mask size : ℕ} {xs : List α} (ok : HashTable H mask elem)
      (perm : (keys elem).Perm xs) (hsize : size = xs.length) (hless : xs.length ≤ mask) : Stores H ⟨some elem, mask, size⟩ xs

/-- Whether the memory for `count` slots is refused, also after other memory was collected. -/
def refuses (count : ℕ) : List Bool → Bool
  | [] => true
  | [answer] => !tryCallocc answer count
  | answer :: collected :: memory => !tryCallocc answer count && (!collected || refuses count memory)

/-- Whether an insert of a new item is out of memory: that of the first item, or that of one which would fill the last
slot without a key. -/
def SimpleHashset.outOfMemory (self : SimpleHashset α) (memory : List Bool) : Bool :=
  match self.elem with
  | none => !tryCallocc (memory.headD false) 8 && !tryCallocc (memory.tail.headD false) 2
  | some _ => self.mask ≤ self.size && refuses ((self.mask <<< 1 ||| 1) + 1) memory

section Set

variable {H : Hashing α} {elem : List (HashsetItem α)} {mask size i : ℕ} {x y : α} {xs : List α} {self : SimpleHashset α}
  {memory : List Bool}

theorem doubled_mask (mask : ℕ) : mask <<< 1 ||| 1 = 2 * mask + 1 := by
  rw [← Nat.shiftLeft_add_eq_or_of_lt (by norm_num), Nat.shiftLeft_eq]
  omega

theorem HashTable.newMask (h : HashTable H mask elem) (hcalloc : tryCallocc true ((mask <<< 1 ||| 1) + 1) = true) :
    ∃ k ≤ 60, (mask <<< 1 ||| 1) + 1 = 2 ^ k := by
  obtain ⟨k, hk, hmask⟩ := h.mask_eq
  have hdouble : (mask <<< 1 ||| 1) + 1 = 2 ^ (k + 1) := by
    rw [doubled_mask, pow_succ]
    omega
  refine ⟨k + 1, ?_, hdouble⟩
  rw [tryCallocc, Bool.true_and, decide_eq_true_eq, hdouble, show (16 : ℕ) = 2 ^ 4 by norm_num, ← pow_add] at hcalloc
  have := (Nat.pow_lt_pow_iff_right (by norm_num)).mp hcalloc
  omega

/-- `tryrehash` doubles the table if there is memory, and changes nothing else. -/
theorem SimpleHashset.Stores.tryrehash (h : Stores H self xs) (helem : self.elem.isSome) (answer : Bool) :
    ∃ self', self.tryrehash answer = some (self', tryCallocc answer ((self.mask <<< 1 ||| 1) + 1)) ∧ Stores H self' xs ∧
      self'.elem.isSome ∧
      if tryCallocc answer ((self.mask <<< 1 ||| 1) + 1) then self'.mask = self.mask <<< 1 ||| 1 else self' = self := by
  cases h with
  | unallocated mask => cases helem
  | @table elem mask size xs ok perm hsize hless =>
    unfold SimpleHashset.tryrehash
    dsimp only
    by_cases hcalloc : tryCallocc answer ((mask <<< 1 ||| 1) + 1) = true
    · rw [hcalloc, if_pos rfl]
      have hanswer : answer = true := by
        rw [tryCallocc, Bool.and_eq_true] at hcalloc
        exact hcalloc.1
      have hnew := ok.newMask (hanswer ▸ hcalloc)
      have hle : mask ≤ mask <<< 1 ||| 1 := by
        rw [doubled_mask]
        omega
      obtain ⟨newElem, hloop, hok, hperm⟩ := ok.rehashed (by rw [perm.length_eq]; exact hless) hnew hle
      rw [some_bind, hloop, some_bind]
      exact ⟨_, rfl, .table hok (hperm.trans perm) hsize (hless.trans hle), rfl, rfl⟩
    · rw [if_neg hcalloc, Bool.eq_false_iff.mpr hcalloc]
      exact ⟨_, rfl, .table ok perm hsize hless, rfl, rfl⟩

/-- `rehash` doubles the table unless the memory is refused. -/
theorem SimpleHashset.Stores.rehash (h : Stores H self xs) (helem : self.elem.isSome) (memory : List Bool) :
    ∃ self' rest, self.rehash memory = some (self', !refuses ((self.mask <<< 1 ||| 1) + 1) memory, rest) ∧
      Stores H self' xs ∧ self'.elem.isSome ∧
      if refuses ((self.mask <<< 1 ||| 1) + 1) memory then self' = self else self'.mask = self.mask <<< 1 ||| 1 := by
  induction memory using refuses.induct with
  | case1 => exact ⟨self, [], rfl, h, helem, rfl⟩
  | case2 answer =>
    obtain ⟨self', hrun, hstores, hsome, hmask⟩ := h.tryrehash helem answer
    refine ⟨self', [], ?_, hstores, hsome, ?_⟩
    · rw [SimpleHashset.rehash, hrun, some_bind, refuses, Bool.not_not]
    · rw [refuses]
      cases hcalloc : tryCallocc answer ((self.mask <<< 1 ||| 1) + 1) <;> simpa [hcalloc] using hmask
  | case3 answer collected memory ih =>
    obtain ⟨self', hrun, hstores, hsome, hmask⟩ := h.tryrehash helem answer
    rw [SimpleHashset.rehash, hrun, some_bind, refuses]
    dsimp only
    cases hcalloc : tryCallocc answer ((self.mask <<< 1 ||| 1) + 1) with
    | true => exact ⟨self', _, rfl, hstores, hsome, by simpa [hcalloc] using hmask⟩
    | false =>
      rw [hcalloc] at hmask
      obtain rfl : self' = self := by simpa using hmask
      cases collected with
      | true => simpa using ih
      | false => exact ⟨self', memory, rfl, hstores, hsome, rfl⟩

/-- An item is stored in its slot, whether or not the table can be enlarged afterwards. -/
theorem HashTable.populate (h : HashTable H mask elem) (hperm : (keys elem).Perm xs) (hless : xs.length < mask)
    (hi : i < elem.length) (hfree : keyAt elem i = none) (hreach : Reaches elem mask (H.hash x) i)
    (hnew : ∀ y ∈ xs, H.compareEq x y = false) (memory : List Bool) :
    ∃ self' rest, SimpleHashset.populate ⟨some elem, mask, xs.length⟩ i x (H.hash x) memory = some (self', 1, rest) ∧
      SimpleHashset.Stores H self' (x :: xs) := by
  have hfill := h.fill ⟨some x, H.hash x⟩ hi hfree (by
    rintro _ ⟨⟩
    exact ⟨rfl, hreach, fun y hy => hnew y (hperm.mem_iff.mp hy)⟩)
  have hstores : SimpleHashset.Stores H ⟨some (elem.set i ⟨some x, H.hash x⟩), mask, xs.length + 1⟩ (x :: xs) :=
    .table hfill ((keys_set hi hfree).trans (hperm.cons x)) rfl hless
  unfold SimpleHashset.populate
  rw [some_bind]
  dsimp only
  split_ifs with hhalf
  · obtain ⟨self', hrun, hstores', -, -⟩ := hstores.tryrehash rfl (memory.headD false)
    rw [hrun, some_bind]
    exact ⟨self', _, rfl, hstores'⟩
  · exact ⟨_, _, rfl, hstores⟩

theorem stores_first (H : Hashing α) (x : α) (hmask : ∃ k ≤ 60, mask + 1 = 2 ^ k) (hpos : 1 ≤ mask) :
    SimpleHashset.Stores H (.first mask x (H.hash x)) [x] := by
  obtain ⟨hok, hkeys⟩ := HashTable.replicate H hmask
  have hi : H.hash x &&& mask < (List.replicate (mask + 1) (⟨none, 0⟩ : HashsetItem α)).length := by
    rw [List.length_replicate]
    exact Nat.lt_succ_of_le Nat.and_le_right
  have hfree := keyAt_replicate (α := α) (i := H.hash x &&& mask) (mask + 1)
  have hreach : Reaches (List.replicate (mask + 1) (⟨none, 0⟩ : HashsetItem α)) mask (H.hash x) (H.hash x &&& mask) := by
    refine ⟨0, ?_, fun m hm => absurd hm (Nat.not_lt_zero m)⟩
    change H.hash x &&& mask &&& mask = _
    rw [Nat.and_assoc, Nat.and_self]
  have hfill := hok.fill ⟨some x, H.hash x⟩ hi hfree (by
    rintro _ ⟨⟩
    refine ⟨rfl, hreach, fun y hy => ?_⟩
    rw [hkeys] at hy
    cases hy)
  refine .table hfill ((keys_set hi hfree).trans ?_) rfl hpos
  rw [hkeys]
  exact List.Perm.refl _

/-- What an insert does to the stored items. -/
theorem SimpleHashset.Stores.insert (h : SimpleHashset.Stores H self xs) (x : α) (memory : List Bool) :
    ∃ self' result rest, self.insert H x memory = some (self', result, rest) ∧
      ((result = 0 ∧ self' = self ∧ ∃ y ∈ xs, H.compareEq x y = true) ∨
        ((∀ y ∈ xs, H.compareEq x y = false) ∧
          ((result = 1 ∧ SimpleHashset.Stores H self' (x :: xs) ∧ self.outOfMemory memory = false) ∨
            (result = -1 ∧ SimpleHashset.Stores H self' xs ∧ self'.elem = self.elem ∧ self.outOfMemory memory = true)))) := by
  cases h with
  | unallocated mask =>
    unfold SimpleHashset.insert outOfMemory
    dsimp only
    cases height : tryCallocc (memory.headD false) 8 with
    | true => exact ⟨_, 1, _, rfl, .inr ⟨nofun, .inl ⟨rfl, stores_first H x ⟨3, by norm_num, rfl⟩ (by norm_num), rfl⟩⟩⟩
    | false =>
      cases htwo : tryCallocc (memory.tail.headD false) 2 with
      | true => exact ⟨_, 1, _, rfl, .inr ⟨nofun, .inl ⟨rfl, stores_first H x ⟨1, by norm_num, rfl⟩ le_rfl, rfl⟩⟩⟩
      | false => exact ⟨_, -1, _, rfl, .inr ⟨nofun, .inr ⟨rfl, .unallocated 1, rfl, rfl⟩⟩⟩
  | @table elem mask size xs ok perm hsize hless =>
    subst hsize
    unfold SimpleHashset.insert outOfMemory
    dsimp only
    rcases ok.findSlot_eq (by rw [perm.length_eq]; exact hless) x with
      ⟨hfind, y, hy, heq⟩ | ⟨i, hfind, hi, hfree, hreach, hnew⟩
    · rw [hfind, some_bind]
      exact ⟨_, 0, memory, rfl, .inl ⟨rfl, rfl, y, perm.mem_iff.mp hy, heq⟩⟩
    · have hnone : ∀ y ∈ xs, H.compareEq x y = false := fun y hy => hnew y (perm.mem_iff.mpr hy)
      rw [hfind, some_bind]
      dsimp only
      by_cases hfull : mask ≤ xs.length
      · rw [if_pos hfull, decide_eq_true hfull, Bool.true_and]
        obtain ⟨grown, rest, hrun, hstores, hsome, hmask⟩ := (SimpleHashset.Stores.table ok perm rfl hless).rehash rfl memory
        rw [hrun, some_bind]
        dsimp only
        cases hrefused : refuses ((mask <<< 1 ||| 1) + 1) memory with
        | true =>
          rw [hrefused, if_pos rfl] at hmask
          subst hmask
          exact ⟨_, -1, _, rfl, .inr ⟨hnone, .inr ⟨rfl, hstores, rfl, rfl⟩⟩⟩
        | false =>
          rw [hrefused, if_neg Bool.false_ne_true, doubled_mask] at hmask
          cases hstores with
          | unallocated mask => cases hsome
          | @table newElem newMask size xs hok hperm hsize hle =>
            dsimp only at hmask
            subst hsize
            obtain ⟨slot, hslot, hlt, hfree', hreach'⟩ := hok.freeSlot_eq (by rw [hperm.length_eq]; exact hle) (H.hash x)
            obtain ⟨self', rest', hpopulate, hstores'⟩ :=
              hok.populate hperm (by omega) hlt hfree' hreach' hnone rest
            rw [Bool.not_false, if_pos rfl, some_bind, hslot, some_bind, hpopulate]
            exact ⟨self', 1, rest', rfl, .inr ⟨hnone, .inl ⟨rfl, hstores', rfl⟩⟩⟩
      · rw [if_neg hfull, decide_eq_false hfull, Bool.false_and]
        obtain ⟨self', rest', hpopulate, hstores'⟩ := ok.populate perm (by omega) hi hfree hreach hnone memory
        rw [hpopulate]
        exact ⟨self', 1, rest', rfl, .inr ⟨hnone, .inl ⟨rfl, hstores', rfl⟩⟩⟩

end Set

/-! ### Runs -/

/-- The sets that inserts lead to, with the items that were inserted, or were there already. -/
inductive SimpleHashset.Runs (H : Hashing α) : SimpleHashset α → List α → Prop
  | init : Runs H .init []
  | insert {self self' : SimpleHashset α} {xs : List α} {x : α} {memory rest : List Bool} {result : ℤ}
      (h : Runs H self xs) (hrun : self.insert H x memory = some (self', result, rest)) :
      Runs H self' (if result < 0 then xs else x :: xs)

section Runs

variable {H : Hashing α} {elem : List (HashsetItem α)} {mask i j : ℕ} {x y z : α} {xs stored : List α}
  {self : SimpleHashset α}

/-- The items that are stored for the inserted ones. -/
structure Represents (H : Hashing α) (stored xs : List α) : Prop where
  mem : ∀ y ∈ stored, y ∈ xs
  equal : ∀ x ∈ xs, ∃ y ∈ stored, H.compareEq x y = true

theorem Represents.exists_iff (h : Represents H stored xs) :
    (∃ y ∈ stored, H.compareEq x y = true) ↔ ∃ y ∈ xs, H.compareEq x y = true := by
  constructor
  · rintro ⟨y, hy, heq⟩
    exact ⟨y, h.mem y hy, heq⟩
  · rintro ⟨y, hy, heq⟩
    obtain ⟨z, hz, heq'⟩ := h.equal y hy
    exact ⟨z, hz, H.equivalence.trans heq heq'⟩

theorem SimpleHashset.Runs.stores (h : Runs H self xs) : ∃ stored, Stores H self stored ∧ Represents H stored xs := by
  induction h with
  | init => exact ⟨[], .unallocated 0, nofun, nofun⟩
  | @insert self self' xs x memory rest result h hrun ih =>
    obtain ⟨stored, hstores, hrep⟩ := ih
    obtain ⟨self'', result', rest', hrun', hcases⟩ := hstores.insert x memory
    obtain ⟨rfl, rfl, rfl⟩ : self'' = self' ∧ result' = result ∧ rest' = rest := by simpa [hrun] using hrun'.symm
    rcases hcases with ⟨rfl, rfl, y, hy, heq⟩ | ⟨-, ⟨rfl, hstores', -⟩ | ⟨rfl, hstores', -, -⟩⟩
    · refine ⟨stored, hstores, fun z hz => List.mem_cons_of_mem _ (hrep.mem z hz), fun z hz => ?_⟩
      rcases List.mem_cons.mp hz with rfl | hz
      · exact ⟨y, hy, heq⟩
      · exact hrep.equal z hz
    · refine ⟨x :: stored, hstores', fun z hz => ?_, fun z hz => ?_⟩
      · exact List.mem_cons.mpr ((List.mem_cons.mp hz).imp_right (hrep.mem z))
      · rcases List.mem_cons.mp hz with rfl | hz
        · exact ⟨z, List.mem_cons_self, H.equivalence.refl z⟩
        · obtain ⟨y, hy, heq⟩ := hrep.equal z hz
          exact ⟨y, List.mem_cons_of_mem _ hy, heq⟩
    · exact ⟨stored, hstores', hrep⟩

/-- Equal keys are in the same slot. -/
theorem HashTable.slot_unique (h : HashTable H mask elem) (hi : keyAt elem i = some y) (hj : keyAt elem j = some z)
    (heq : H.compareEq y z = true) : i = j := by
  have hless : ∀ i j y z, keyAt elem i = some y → keyAt elem j = some z → H.compareEq y z = true → ¬ i < j := by
    intro i j y z hi hj heq hlt
    have hlen : j < elem.length := by
      by_contra hout
      rw [keyAt, List.getElem?_eq_none (by omega)] at hj
      cases hj
    have hpair := List.pairwise_iff_getElem.mp (List.pairwise_filterMap.mp h.distinct) i j (by omega) hlen hlt
    rw [keyAt_eq (by omega)] at hi hj
    rw [hpair y hi z hj] at heq
    cases heq
  rcases Nat.lt_trichotomy i j with hlt | heq' | hgt
  · exact absurd hlt (hless i j y z hi hj heq)
  · exact heq'
  · exact absurd hgt (hless j i z y hj hi (H.equivalence.symm heq))

/-- After any inserts the set tells whether an equal item was inserted, and stores an item that is not there unless the
memory for it is refused. It holds one item of each class, in a slot that its probe finds, and a slot without a key. -/
theorem simpleHashset_isSet (h : self.Runs H xs) :
    (∀ x memory, ∃ self' result rest, self.insert H x memory = some (self', result, rest) ∧
      (result = 0 ↔ ∃ y ∈ xs, H.compareEq x y = true) ∧
      (result = 1 ↔ (¬ ∃ y ∈ xs, H.compareEq x y = true) ∧ self.outOfMemory memory = false) ∧
      (result = -1 ↔ (¬ ∃ y ∈ xs, H.compareEq x y = true) ∧ self.outOfMemory memory = true) ∧
      (result = -1 → self'.elem = self.elem)) ∧
    (self.elem = none → xs = []) ∧
    ∀ elem, self.elem = some elem →
      (∀ x ∈ xs, ∃! i, ∃ y, keyAt elem i = some y ∧ H.compareEq x y = true) ∧
      (∀ i y, keyAt elem i = some y → y ∈ xs ∧ Reaches elem self.mask (H.hash y) i) ∧
      ∃ i ≤ self.mask, keyAt elem i = none := by
  obtain ⟨stored, hstores, hrep⟩ := h.stores
  refine ⟨fun x memory => ?_, fun hnone => ?_, fun elem helem => ?_⟩
  · obtain ⟨self', result, rest, hrun, hcases⟩ := hstores.insert x memory
    refine ⟨self', result, rest, hrun, ?_⟩
    rw [← hrep.exists_iff]
    rcases hcases with ⟨rfl, -, hfound⟩ | ⟨hnew, hrest⟩
    · exact ⟨iff_of_true rfl hfound, iff_of_false (by norm_num) fun h => h.1 hfound,
        iff_of_false (by norm_num) fun h => h.1 hfound, fun h => by norm_num at h⟩
    · have hnone : ¬ ∃ y ∈ stored, H.compareEq x y = true := by
        rintro ⟨y, hy, heq⟩
        rw [hnew y hy] at heq
        cases heq
      rcases hrest with ⟨rfl, -, hmemory⟩ | ⟨rfl, -, hsame, hmemory⟩
      · simp [hnone, hmemory]
      · simp [hnone, hmemory, hsame]
  · cases hstores with
    | unallocated mask =>
      rw [List.eq_nil_iff_forall_not_mem]
      intro x hx
      obtain ⟨y, hy, -⟩ := hrep.equal x hx
      cases hy
    | table ok perm hsize hless => cases hnone
  · cases hstores with
    | unallocated mask => cases helem
    | @table elem' mask size _ ok perm hsize hless =>
      obtain rfl := Option.some.inj helem
      refine ⟨fun x hx => ?_, fun i y hi => ?_, ?_⟩
      · obtain ⟨y, hy, heq⟩ := hrep.equal x hx
        obtain ⟨i, hi⟩ := mem_keys.mp (perm.mem_iff.mpr hy)
        refine ⟨i, ⟨y, hi, heq⟩, ?_⟩
        rintro j ⟨z, hj, heq'⟩
        exact ok.slot_unique hj hi (H.equivalence.trans (H.equivalence.symm heq') heq)
      · exact ⟨hrep.mem y (perm.mem_iff.mp (mem_keys.mpr ⟨i, hi⟩)), ok.reaches i y hi⟩
      · have hlen := ok.length
        obtain ⟨i, hi, hfree⟩ := exists_free elem' (by rw [perm.length_eq]; omega)
        exact ⟨i, by dsimp only; omega, hfree⟩

/-- Numbers that are equal if they end in the same digit. -/
def lastDigit : Hashing ℕ where
  hash x := x % 10
  compareEq x y := x % 10 == y % 10
  equivalence := ⟨fun _ => beq_self_eq_true _, fun h => by simpa using (beq_iff_eq.mp h).symm,
    fun h h' => by simpa using (beq_iff_eq.mp h).trans (beq_iff_eq.mp h')⟩
  consistent h := beq_iff_eq.mp h

/-- `3` and `13` are one item, in a table that starts with two slots. -/
theorem simpleHashset_lastDigit :
    ∃! i, ∃ y, keyAt [⟨none, 0⟩, ⟨some 3, 3⟩] i = some y ∧ lastDigit.compareEq 13 y = true := by
  have hfirst : SimpleHashset.Runs lastDigit ⟨some [⟨none, 0⟩, ⟨some 3, 3⟩], 1, 1⟩ [3] :=
    .insert .init (show SimpleHashset.insert lastDigit .init 3 [false, true] = some (_, 1, []) from rfl)
  have hsecond : SimpleHashset.Runs lastDigit ⟨some [⟨none, 0⟩, ⟨some 3, 3⟩], 1, 1⟩ [13, 3] :=
    .insert hfirst (show SimpleHashset.insert lastDigit _ 13 [] = some (_, 0, []) from rfl)
  exact ((simpleHashset_isSet hsecond).2.2 _ rfl).1 13 List.mem_cons_self

end Runs

end Deemon.Runtime
