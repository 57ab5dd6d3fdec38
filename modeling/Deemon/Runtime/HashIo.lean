import Deemon.Lib.Probing

/-!
# Hash index probing

`_DeeHash_HashIdxInit` and `_DeeHash_HashIdxNext` walk through the slots of an `htab` with `HMASK + 1` entries of 8, 16,
32 or 64 bits. An entry is the virtual index of an item, or `Dee_HASH_HTAB_EOF`. `Dee_hash_insert` takes the first slot
at the end of a chain, and a lookup goes on until a slot answers it or the chain ends.
-/

namespace Deemon.Runtime

open Deemon.Run Deemon.Probing

variable {ρ : Type}

/-! ### The code -/

/-- `Dee_HASH_HTAB_EOF`. -/
abbrev hashHtabEof : ℕ := 0

/-- `_DeeHash_HashIdxInit`: the values of `hs` and `perturb`. -/
def hashIdxInit (hash hmask : ℕ) : ℕ × ℕ := (hash &&& hmask, hash)

/-- `_DeeHash_HashIdxNext`. -/
def hashIdxNext : ℕ × ℕ → ℕ × ℕ := probeNext

/-- `Dee_hash_hidx_ofhash`. -/
def hashHidxOfhash (hs hmask : ℕ) : ℕ := hs &&& hmask

/-- The slot that is visited after `n` steps. -/
def hashIdx (hmask hash n : ℕ) : ℕ := hashHidxOfhash (hashIdxNext^[n] (hashIdxInit hash hmask)).1 hmask

/-- `Dee_hash_insert` for entries of `nbits` bits: the slot and the table. -/
def hashInsert (nbits : ℕ) (htab : List ℕ) (hmask itHash itVidx : ℕ) : Option (ℕ × List ℕ) :=
  probeWith (fun htabIdx => do
    if (← rd htab htabIdx) = hashHtabEof then some (some (htabIdx, ← wr htab htabIdx (itVidx % 2 ^ nbits)))
    else some none) hmask (hashIdxInit itHash hmask)

/-- The lookup loop. The item behind a slot either ends the lookup with an answer (the key is found, or the comparison
fails) or lets it go on; without an answer the key is not there. -/
def hashLookup (answer : ℕ → ℕ → Option ρ) (htab : List ℕ) (hmask hash : ℕ) : Option (Option ρ) :=
  probeWith (fun hidx => do
    let vidx ← rd htab hidx
    some (if vidx = hashHtabEof then some none else (answer hidx vidx).map some)) hmask (hashIdxInit hash hmask)

/-- Another insertion into a table leaves the slot `i` alone. -/
def InsertsElsewhere (nbits hmask i : ℕ) (htab htab' : List ℕ) : Prop :=
  ∃ hash vidx j, hashInsert nbits htab hmask hash vidx = some (j, htab') ∧ j ≠ i

/-! ### The walk -/

section Walk

variable {nbits k hmask hash vidx i t : ℕ} {htab htab' : List ℕ} {answer : ℕ → ℕ → Option ρ}

theorem hashIdx_le (n : ℕ) : hashIdx hmask hash n ≤ hmask := Nat.and_le_right

/-- Every slot is visited. -/
theorem exists_hashIdx (hmask2 : hmask + 1 = 2 ^ k) (hk : k ≤ 64) (hhash : hash < 2 ^ 64) (ht : t ≤ hmask) :
    ∃ n < hmask + 14, hashIdx hmask hash n = t :=
  exists_probeFrom (s := (hash &&& hmask, hash)) hmask2 hk hhash ht

/-- A walk over a table stops at the first slot with a result. -/
theorem exists_walk_eq {visit : ℕ → Option (Option ρ)} {f : ℕ → Option ρ} {r : ρ} (hmask2 : hmask + 1 = 2 ^ k) (hk : k ≤ 64)
    (hhash : hash < 2 ^ 64) (hvisit : ∀ i ≤ hmask, visit i = some (f i)) (ht : t ≤ hmask) (hr : f t = some r) :
    ∃ n r', f (hashIdx hmask hash n) = some r' ∧ (∀ m < n, f (hashIdx hmask hash m) = none) ∧
      probeWith visit hmask (hashIdxInit hash hmask) = some r' := by
  obtain ⟨n, r', hhere, hbefore, hrun⟩ := exists_probeWith_eq (s := (hash &&& hmask, hash)) hmask2 hk hhash
    (fun i hi => ⟨_, hvisit i hi⟩) ht (by rw [hvisit t ht, hr])
  refine ⟨n, r', ?_, fun m hm => ?_, hrun⟩
  · have h := (hvisit (hashIdx hmask hash n) (hashIdx_le n)).symm.trans hhere
    exact Option.some.inj h
  · have h := (hvisit (hashIdx hmask hash m) (hashIdx_le m)).symm.trans (hbefore m hm)
    exact Option.some.inj h

/-- The walk of a hash comes to the slot `i` before a chain ends. -/
def ReachesSlot (htab : List ℕ) (hmask hash i : ℕ) : Prop :=
  ∃ n, hashIdx hmask hash n = i ∧ ∀ m < n, cell htab (hashIdx hmask hash m) ≠ hashHtabEof

/-! ### Lookups -/

theorem hashLookup_visit (answer : ℕ → ℕ → Option ρ) (hlen : htab.length = hmask + 1) (hi : i ≤ hmask) :
    (do
      let vidx ← rd htab i
      some (if vidx = hashHtabEof then some none else (answer i vidx).map some)) =
    some (if cell htab i = hashHtabEof then some none else (answer i (cell htab i)).map some) := by
  rw [rd_of_lt (by omega), some_bind]

/-- A lookup in a table where a chain ends comes to an end. -/
theorem hashLookup_ends (hlen : htab.length = hmask + 1) (hmask2 : hmask + 1 = 2 ^ k) (hk : k ≤ 64) (hhash : hash < 2 ^ 64)
    (ht : t ≤ hmask) (heof : cell htab t = hashHtabEof) : ∃ r, hashLookup answer htab hmask hash = some r := by
  obtain ⟨_, r, _, _, hrun⟩ := exists_walk_eq hmask2 hk hhash (fun i hi => hashLookup_visit answer hlen hi) ht
    (if_pos heof)
  exact ⟨r, hrun⟩

/-- A lookup that only the slot `i` answers finds it when the walk comes there. -/
theorem ReachesSlot.lookup {r : ρ} (h : ReachesSlot htab hmask hash i) (hlen : htab.length = hmask + 1)
    (hmask2 : hmask + 1 = 2 ^ k) (hk : k ≤ 64) (hhash : hash < 2 ^ 64) (hi : i ≤ hmask) (hused : cell htab i ≠ hashHtabEof)
    (hhere : answer i (cell htab i) = some r) (helse : ∀ j ≠ i, ∀ v, answer j v = none) :
    hashLookup answer htab hmask hash = some (some r) := by
  obtain ⟨last, hlast, hbefore⟩ := h
  have hresult : (if cell htab i = hashHtabEof then some none else (answer i (cell htab i)).map some) =
      some (some r) := by
    rw [if_neg hused, hhere]
    rfl
  obtain ⟨n, r', hr', hfirst, hrun⟩ := exists_walk_eq hmask2 hk hhash
    (fun i hi => hashLookup_visit answer hlen hi) hi hresult
  have hle : n ≤ last := by
    by_contra hlt
    have hnone := hfirst last (by omega)
    rw [hlast, hresult] at hnone
    cases hnone
  -- the slots in front of the last one lead somewhere, and only `i` answers
  have hslot : hashIdx hmask hash n = i := by
    by_contra hne
    have hlt : n < last := by
      refine lt_of_le_of_ne hle ?_
      rintro rfl
      exact hne hlast
    rw [if_neg (hbefore n hlt), helse _ hne] at hr'
    cases hr'
  rw [hslot, hresult, Option.some.injEq] at hr'
  rw [hr']
  exact hrun

/-! ### Insertions -/

/-- An insertion takes the first slot at which the chain ends. -/
theorem hashInsert_ends (nbits vidx : ℕ) (hlen : htab.length = hmask + 1) (hmask2 : hmask + 1 = 2 ^ k) (hk : k ≤ 64)
    (hhash : hash < 2 ^ 64) (ht : t ≤ hmask) (heof : cell htab t = hashHtabEof) :
    Ends (hashInsert nbits htab hmask hash vidx) fun r => r.1 ≤ hmask ∧ cell htab r.1 = hashHtabEof ∧
      ReachesSlot htab hmask hash r.1 ∧ r.2 = htab.set r.1 (vidx % 2 ^ nbits) := by
  have hvisit : ∀ i ≤ hmask, (do
      if (← rd htab i) = hashHtabEof then some (some (i, ← wr htab i (vidx % 2 ^ nbits))) else some none) =
      some (if cell htab i = hashHtabEof then some (i, htab.set i (vidx % 2 ^ nbits)) else none) := by
    intro i hi
    rw [rd_of_lt (by omega), some_bind]
    by_cases h0 : cell htab i = hashHtabEof
    · rw [if_pos h0, if_pos h0, wr_of_lt (by omega), some_bind]
    · rw [if_neg h0, if_neg h0]
  obtain ⟨n, r, hr, hfirst, hrun⟩ := exists_walk_eq hmask2 hk hhash hvisit ht (if_pos heof)
  have hend : cell htab (hashIdx hmask hash n) = hashHtabEof := by
    by_contra h0
    rw [if_neg h0] at hr
    cases hr
  rw [if_pos hend, Option.some.injEq] at hr
  subst hr
  refine ⟨_, hrun, hashIdx_le n, hend, ⟨n, rfl, fun m hm h0 => ?_⟩, rfl⟩
  have hnone := hfirst m hm
  rw [if_pos h0] at hnone
  cases hnone

/-- What an insertion has done. -/
theorem hashInsert_some (h : hashInsert nbits htab hmask hash vidx = some (i, htab')) :
    cell htab i = hashHtabEof ∧ htab' = htab.set i (vidx % 2 ^ nbits) := by
  unfold hashInsert probeWith probeFold at h
  refine loop_post (fun _ => True) (Q := fun r => cell htab r.1 = hashHtabEof ∧ r.2 = htab.set r.1 (vidx % 2 ^ nbits))
    trivial ?_ h
  rintro ⟨s, _⟩ step - hstep
  obtain ⟨visited, hvisited, hstep⟩ := of_bind hstep
  obtain ⟨found, hfound, rfl⟩ := Option.map_eq_some_iff.mp hvisited
  obtain ⟨v, hv, hfound⟩ := of_bind hfound
  have hcell : cell htab (s.1 &&& hmask) = v := by
    unfold rd at hv
    split at hv
    · exact Option.some.inj hv
    · cases hv
  by_cases h0 : v = hashHtabEof
  · rw [if_pos h0] at hfound
    obtain ⟨out, hout, hfound⟩ := of_bind hfound
    cases hfound
    cases hstep
    refine ⟨hcell.trans h0, ?_⟩
    unfold wr at hout
    split at hout
    · exact (Option.some.inj hout).symm
    · cases hout
  · rw [if_neg h0] at hfound
    cases hfound
    cases hstep
    trivial

/-- An insertion elsewhere does not cut a chain. -/
theorem InsertsElsewhere.keeps (h : InsertsElsewhere nbits hmask i htab htab') :
    htab'.length = htab.length ∧ cell htab' i = cell htab i ∧
      ∀ j, cell htab j ≠ hashHtabEof → cell htab' j ≠ hashHtabEof := by
  obtain ⟨hash, vidx, j, hrun, hne⟩ := h
  obtain ⟨hend, rfl⟩ := hashInsert_some hrun
  refine ⟨List.length_set, cell_set_of_ne hne, fun j' hused => ?_⟩
  have hne' : j ≠ j' := by
    rintro rfl
    exact hused hend
  rwa [cell_set_of_ne hne']

/-- What insertions elsewhere keep. -/
theorem insertsElsewhere_keep (h : Relation.ReflTransGen (InsertsElsewhere nbits hmask i) htab htab') :
    htab'.length = htab.length ∧ cell htab' i = cell htab i ∧
      ∀ j, cell htab j ≠ hashHtabEof → cell htab' j ≠ hashHtabEof := by
  induction h with
  | refl => exact ⟨rfl, rfl, fun _ h => h⟩
  | tail _ hstep ih =>
    obtain ⟨hlen, hcell, hused⟩ := hstep.keeps
    exact ⟨hlen.trans ih.1, hcell.trans ih.2.1, fun j hj => hused j (ih.2.2 j hj)⟩

end Walk

/-! ### Probing is complete -/

/-- The walk of a hash meets every slot of the table. When one entry is `Dee_HASH_HTAB_EOF` every lookup ends, and an
insertion finds a slot that lookups for its hash come to, whatever is inserted into other slots later on. -/
theorem hash_probing_complete {k hmask hash : ℕ} (hmask2 : hmask + 1 = 2 ^ k) (hk : k ≤ 64) (hhash : hash < 2 ^ 64) :
    (∀ t ≤ hmask, ∃ n, hashIdx hmask hash n = t) ∧
    ∀ htab : List ℕ, htab.length = hmask + 1 → (∃ t ≤ hmask, cell htab t = hashHtabEof) →
      (∀ (ρ : Type) (answer : ℕ → ℕ → Option ρ), ∃ r, hashLookup answer htab hmask hash = some r) ∧
      ∀ nbits vidx, ∃ i htab', hashInsert nbits htab hmask hash vidx = some (i, htab') ∧ i ≤ hmask ∧
        cell htab i = hashHtabEof ∧ htab' = htab.set i (vidx % 2 ^ nbits) ∧
        ∀ htab'', Relation.ReflTransGen (InsertsElsewhere nbits hmask i) htab' htab'' →
          ReachesSlot htab'' hmask hash i ∧ cell htab'' i = vidx % 2 ^ nbits ∧
          ∀ (ρ : Type) (answer : ℕ → ℕ → Option ρ) (r : ρ), vidx % 2 ^ nbits ≠ hashHtabEof →
            answer i (vidx % 2 ^ nbits) = some r → (∀ j ≠ i, ∀ v, answer j v = none) →
            hashLookup answer htab'' hmask hash = some (some r) := by
  refine ⟨fun t ht => ?_, fun htab hlen heof => ?_⟩
  · obtain ⟨n, _, hn⟩ := exists_hashIdx hmask2 hk hhash ht
    exact ⟨n, hn⟩
  · obtain ⟨t, ht, heof⟩ := heof
    refine ⟨fun ρ answer => hashLookup_ends hlen hmask2 hk hhash ht heof, fun nbits vidx => ?_⟩
    obtain ⟨⟨i, htab'⟩, hrun, hi, hend, hreach, hset⟩ := hashInsert_ends nbits vidx hlen hmask2 hk hhash ht heof
    dsimp only at hi hend hreach hset
    refine ⟨i, htab', hrun, hi, hend, hset, fun htab'' hlater => ?_⟩
    obtain ⟨hlen', hcell, hused⟩ := insertsElsewhere_keep hlater
    have hself : cell htab'' i = vidx % 2 ^ nbits := by
      rw [hcell, hset]
      exact cell_set_self (by omega)
    have hreach' : ReachesSlot htab'' hmask hash i := by
      obtain ⟨n, hn, hbefore⟩ := hreach
      refine ⟨n, hn, fun m hm => hused _ ?_⟩
      have hne : i ≠ hashIdx hmask hash m := by
        rintro rfl
        exact hbefore m hm hend
      rw [hset, cell_set_of_ne hne]
      exact hbefore m hm
    refine ⟨hreach', hself, fun ρ answer r hvidx hhere helse => ?_⟩
    have hlen'' : htab''.length = hmask + 1 := by rw [hlen', hset, List.length_set, hlen]
    exact hreach'.lookup hlen'' hmask2 hk hhash hi (by rwa [hself]) (by rwa [hself]) helse

/-- The theorem at a table of two slots and a hash of 64 bits: an item is inserted, another one fills the table, and
the first one is still found. -/
theorem hash_probing_complete_two : (∀ t ≤ 1, ∃ n, hashIdx 1 0xfedcba9876543210 n = t) ∧
    (∃ r, hashLookup (fun _ v => some v) [0, 0] 1 0xfedcba9876543210 = some r) ∧
    hashInsert 8 [0, 0] 1 0xfedcba9876543210 0x107 = some (0, [7, 0]) ∧ InsertsElsewhere 8 1 0 [7, 0] [7, 9] ∧
    hashLookup (fun j v => if j = 0 then some v else none) [7, 9] 1 0xfedcba9876543210 = some (some 7) := by
  have h := @hash_probing_complete 1 1 0xfedcba9876543210 rfl (by norm_num) (by norm_num)
  obtain ⟨hlookup, hinsert⟩ := h.2 [0, 0] rfl ⟨1, le_rfl, rfl⟩
  have hrun : hashInsert 8 [0, 0] 1 0xfedcba9876543210 0x107 = some (0, [7, 0]) := by decide
  have hother : InsertsElsewhere 8 1 0 [7, 0] [7, 9] := ⟨2, 9, 1, by decide, by decide⟩
  refine ⟨h.1, hlookup ℕ fun _ v => some v, hrun, hother, ?_⟩
  obtain ⟨i, htab', heq, -, -, -, hlater⟩ := hinsert 8 0x107
  obtain ⟨rfl, rfl⟩ := Prod.mk.inj (Option.some.inj (hrun.symm.trans heq))
  refine (hlater [7, 9] (.single hother)).2.2 ℕ _ 7 (by decide) rfl fun j hj _ => if_neg hj

end Deemon.Runtime
