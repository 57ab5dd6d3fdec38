import Deemon.Collections.DictInsert

/-!
# Setting items at an index

`dict_setitem_at` and `hashset_insert_at` are the versions of `LOCAL_dict_setitem` in which a callback chooses where the
new item goes. The sequence operators of ordered dicts and hash sets are callbacks for it. The version of hash sets
returns 1 when it has inserted the key, and 1 when it has overridden it.
-/

namespace Deemon.Collections

open Deemon.Run Deemon.Probing Deemon.KeyedList

variable {κ ν γ : Type}

/-! ### The code -/

/-- `hxio_incafter`. -/
def hxioIncafter (htab : List ℕ) (vtabThreshold : ℕ) : List ℕ :=
  htab.map fun v => if vtabThreshold ≤ v then v + 1 else v

/-- `hxio_decrange`. -/
def hxioDecrange (htab : List ℕ) (vtabMin vtabMax : ℕ) : List ℕ :=
  htab.map fun v => if vtabMin ≤ v ∧ v ≤ vtabMax then v - 1 else v

/-- `hxio_incrange`. -/
def hxioIncrange (htab : List ℕ) (vtabMin vtabMax : ℕ) : List ℕ :=
  htab.map fun v => if vtabMin ≤ v ∧ v ≤ vtabMax then v + 1 else v

/-- What a `getindex` callback leaves: its cookie, the dict, and a virtual index, with 0 (`Dee_HASH_HTAB_EOF`) when it
has thrown. -/
structure GetindexRun (κ ν γ : Type) where
  cookie : γ
  self : Dict κ ν
  vidx : ℕ

/-- How `LOCAL_dict_setitem` comes to its end. -/
inductive SetExit where
  | err
  | overridden
  | appended
deriving DecidableEq

/-- What `LOCAL_dict_setitem` leaves when it has a `getindex`. -/
structure SetRun (κ ν γ : Type) where
  self : Dict κ ν
  cookie : γ
  exit : SetExit

/-- `dict_makespace_at`, and the new item in the space. -/
def Dict.makespaceAt (dbg : Bool) (d : Dict κ ν) (idx : ℕ) (item : DictItem κ ν) : Option (Dict κ ν) := do
  check dbg (idx ≤ d.vtab.length)
  -- the items are moved up in the table
  assert (idx ≤ d.vtab.length ∧ d.vtab.length < d.valloc)
  some { d with
    vtab := d.vtab.take idx ++ item :: d.vtab.drop idx
    htab := if idx < d.vtab.length then hxioIncafter d.htab (idx + 1) else d.htab }

/-- The old item is deleted, and the new one put at the index. -/
def Dict.overrideAtWithRoom (dbg : Bool) (d : Dict κ ν) (hash : ℕ) (pair : κ × ν) (htabIdx vtabIdx resultVidx : ℕ)
    (resultHtabIdx : Option ℕ) : Option (Dict κ ν) := do
  let item ← d.vtab[vtabIdx - 1]?
  let d ← Dict.makespaceAt dbg { d with vtab := d.vtab.set (vtabIdx - 1) item.delete } (resultVidx - 1)
    ⟨hash, some pair⟩
  let htab ← wr d.htab htabIdx resultVidx
  let d ← Dict.swapDeleted dbg { d with htab := htab } htabIdx resultVidx resultHtabIdx
  d.optimizeIfShould dbg

/-- In a full table the items between the old item and the index are moved over the old one. -/
def Dict.overrideAtFull (dbg : Bool) (answers : GrowAnswers) (d : Dict κ ν) (hash : ℕ) (pair : κ × ν)
    (htabIdx vtabIdx resultVidx : ℕ) (resultHtabIdx : Option ℕ) : Option (Dict κ ν) := do
  check dbg (d.vtab.length = d.valloc)
  assert (vtabIdx ≤ d.vtab.length ∧ resultVidx ≤ d.vtab.length + 1)
  let item := DictItem.mk hash (some pair)
  if resultVidx < vtabIdx then do
    -- `(vtab_idx - 1) - result_vidx` items move up
    let moved := (d.vtab.drop (resultVidx - 1)).take (vtabIdx - 1 - resultVidx)
    let htab ← wr (hxioIncrange d.htab resultVidx vtabIdx) htabIdx resultVidx
    let d ← Dict.swapDeleted dbg { d with
      vtab := d.vtab.take (resultVidx - 1) ++ item :: (moved ++ d.vtab.drop (vtabIdx - 1))
      htab := htab } htabIdx resultVidx resultHtabIdx
    d.optimizeOrGrow dbg answers
  else do
    check dbg (vtabIdx < resultVidx)
    -- `(result_vidx - 1) - vtab_idx` items move down
    let moved := (d.vtab.drop vtabIdx).take (resultVidx - 1 - vtabIdx)
    let htab ← wr (hxioDecrange d.htab vtabIdx resultVidx) htabIdx (resultVidx - 1)
    let d ← Dict.swapDeleted dbg { d with
      vtab := d.vtab.take (vtabIdx - 1) ++ moved ++ item :: d.vtab.drop (resultVidx - 1)
      htab := htab } htabIdx (resultVidx - 1) resultHtabIdx
    d.optimizeOrGrow dbg answers

/-- `OVERRIDE EXISTING "item"`, where the new item goes to a chosen index. -/
def Dict.overrideItemAt (dbg : Bool) (answers : GrowAnswers) (d : Dict κ ν) (hash : ℕ) (pair : κ × ν)
    (htabIdx vtabIdx resultVidx : ℕ) (resultHtabIdx : Option ℕ) : Option (Dict κ ν) :=
  if vtabIdx = resultVidx then d.overrideInPlace dbg hash pair htabIdx vtabIdx resultHtabIdx
  else if d.vtab.length < d.valloc then d.overrideAtWithRoom dbg hash pair htabIdx vtabIdx resultVidx resultHtabIdx
  else d.overrideAtFull dbg answers hash pair htabIdx vtabIdx resultVidx resultHtabIdx

/-- `APPEND NEW ITEM`, where the new item goes to a chosen index. -/
def Dict.appendItemAt (dbg : Bool) (d : Dict κ ν) (hash : ℕ) (pair : κ × ν) (resultHtabIdx resultVidx : ℕ) :
    Option (Dict κ ν) := do
  let d ← d.makespaceAt dbg (resultVidx - 1) ⟨hash, some pair⟩
  let htab ← wr d.htab resultHtabIdx resultVidx
  some { d with
    vused := d.vused + 1
    htab := htab }

/-- `LOCAL_dict_setitem` with a `getindex`. -/
def Dict.setitemAt (ops : KeyOps κ) (dbg : Bool) (answers : GrowAnswers)
    (getindex : γ → Dict κ ν → ℕ → Option (GetindexRun κ ν γ)) (cookie : γ) (d : Dict κ ν) (pair : κ × ν) :
    Option (SetRun κ ν γ) := do
  let (d, found) ← d.locate ops dbg false answers pair.1
  match found with
  | .err => some ⟨d, cookie, .err⟩
  | .present htabIdx vtabIdx resultHtabIdx => do
    let ⟨cookie, d, resultVidx⟩ ← getindex cookie d vtabIdx
    if resultVidx = 0 then some ⟨d, cookie, .err⟩
    else do
      let d ← d.overrideItemAt dbg answers (ops.hash pair.1) pair htabIdx vtabIdx resultVidx resultHtabIdx
      some ⟨d, cookie, .overridden⟩
  | .absent resultHtabIdx => do
    check dbg (¬d.MustGrowVtab)
    let ⟨cookie, d, resultVidx⟩ ← getindex cookie d 0
    if resultVidx = 0 then some ⟨d, cookie, .err⟩
    else do
      let d ← d.appendItemAt dbg (ops.hash pair.1) pair resultHtabIdx resultVidx
      some ⟨d, cookie, .appended⟩

/-- What `dict_setitem_at` returns. -/
def SetExit.dictReturns : SetExit → ℤ
  | .err => -1
  | .overridden => 0
  | .appended => 0

/-- What `hashset_insert_at` returns. -/
def SetExit.hashsetReturns : SetExit → ℤ
  | .err => -1
  | .overridden => 1
  | .appended => 1

/-! ### The sequence operators -/

/-- `dict_unoptimize_vtab_index`. -/
def Dict.unoptimizeVtabIndex (dbg : Bool) (d : Dict κ ν) (index : ℕ) : Option ℕ := do
  check dbg (d.vused ≤ d.vtab.length)
  check dbg (index ≤ d.vused)
  if d.vused = d.vtab.length then some index
  else if index = 0 then some 0
  else if d.vused ≤ index then some d.vtab.length
  else
    loop (fun s : ℕ × ℕ =>
      if s.1 = 0 then some (.done s.2)
      else do
        check dbg (s.2 ≤ d.vtab.length)
        let item ← d.vtab[s.2]?
        some (.next (if item.deleted then s.1 else s.1 - 1, s.2 + 1))) (d.vtab.length + 1) (index, 0)

/-- The item that is found from an index on. -/
def Dict.nextItem (dbg : Bool) (d : Dict κ ν) (result : ℕ) : Option ℕ :=
  loop (fun result => do
    check dbg (result < d.vtab.length)
    let item ← d.vtab[result]?
    some (if item.deleted then .next (result + 1) else .done result)) (d.vtab.length + 1) result

/-- `dict_mh_seq_setitem_index_impl_cb`; the cookie receives the pair that is replaced. -/
def dictMhSeqSetitemIndexImplCb (dbg : Bool) (index : ℕ) (deleted : Option (κ × ν)) (self : Dict κ ν)
    (overwriteIndex : ℕ) : Option (GetindexRun κ ν (Option (κ × ν))) :=
  if self.vused ≤ index then some ⟨deleted, self, 0⟩
  else do
    let result ← self.unoptimizeVtabIndex dbg index
    let result ← self.nextItem dbg result
    let item ← self.vtab[result]?
    if result + 1 ≠ overwriteIndex then
      some ⟨item.pair, { self with
        vtab := self.vtab.set result item.delete
        vused := self.vused - 1 }, result + 1⟩
    else some ⟨item.pair, self, result + 1⟩

/-- `dict_mh_seq_insert_impl_cb`. -/
def dictMhSeqInsertImplCb (dbg : Bool) (index : ℕ) (_ : Unit) (self : Dict κ ν) (_ : ℕ) :
    Option (GetindexRun κ ν Unit) :=
  if self.vused ≤ index then some ⟨(), self, 0⟩
  else do
    let result ← self.unoptimizeVtabIndex dbg index
    some ⟨(), self, result + 1⟩

/-- What an operator that returns a status leaves. -/
structure StatusRun (κ ν : Type) where
  self : Dict κ ν
  status : ℤ
  /-- An exception has been thrown. -/
  thrown : Bool

/-- `hashset_mh_seq_setitem_index`. -/
def hashsetMhSeqSetitemIndex (ops : KeyOps κ) (dbg : Bool) (answers : GrowAnswers) (self : Dict κ Unit) (index : ℕ)
    (key : κ) : Option (StatusRun κ Unit) := do
  let run ← self.setitemAt ops dbg answers (dictMhSeqSetitemIndexImplCb dbg index) none (key, ())
  some ⟨run.self, run.exit.hashsetReturns, run.exit == .err⟩

/-- `hashset_mh_seq_insert`. -/
def hashsetMhSeqInsert (ops : KeyOps κ) (dbg : Bool) (answers : GrowAnswers) (self : Dict κ Unit) (index : ℕ)
    (key : κ) : Option (StatusRun κ Unit) := do
  let run ← self.setitemAt ops dbg answers (dictMhSeqInsertImplCb dbg index) () (key, ())
  some ⟨run.self, run.exit.hashsetReturns, run.exit == .err⟩

/-- What `xchitem_index` leaves. -/
structure XchRun (κ ν : Type) where
  self : Dict κ ν
  /-- The key that is returned, or none for `NULL`. -/
  returned : Option κ
  thrown : Bool

/-- `hashset_mh_seq_xchitem_index`. -/
def hashsetMhSeqXchitemIndex (ops : KeyOps κ) (dbg : Bool) (answers : GrowAnswers) (self : Dict κ Unit) (index : ℕ)
    (key : κ) : Option (XchRun κ Unit) := do
  let run ← self.setitemAt ops dbg answers (dictMhSeqSetitemIndexImplCb dbg index) none (key, ())
  if run.exit.hashsetReturns ≠ 0 then some ⟨run.self, none, run.exit == .err⟩
  else do
    let deleted ← run.cookie
    some ⟨run.self, some deleted.1, run.exit == .err⟩

/-! ### What the operators tell -/

/-- Every key with the hash of the key is another one. -/
def Dict.IsNew (ops : KeyOps κ) (d : Dict κ ν) (key : κ) : Prop :=
  ∀ pair, DictItem.mk (ops.hash key) (some pair) ∈ d.vtab → ops.tryCompareEq key pair.1 = some false

/-- Nothing can be set: a comparison throws before the key is found, or the key is new, its table is full, and there is
no memory for a larger one. -/
def Dict.Refuses (ops : KeyOps κ) (answers : GrowAnswers) (d : Dict κ ν) (key : κ) : Prop :=
  d.Found ops key .err ∨
    (d.IsNew ops key ∧ d.MustGrowVtab ∧ answers.tryRealloc = false ∧ answers.tryReallocSmall = false ∧
      answers.malloc = false)

/-- A status is 0 after an update, and stands for an exception otherwise, with nothing changed. -/
def StatusTold (self : Dict κ Unit) (r : StatusRun κ Unit) : Prop :=
  (r.status = 0 ∧ r.thrown = false) ∨ (r.status ≠ 0 ∧ r.thrown = true ∧ r.self.pairs = self.pairs)

/-- The keys with another one at an index, and nowhere else. -/
def storeAt (same : κ → κ → Prop) [DecidableRel same] (pairs : List (κ × Unit)) (index : ℕ) (key : κ) :
    List (κ × Unit) := without same key (pairs.take index) ++ (key, ()) :: without same key (pairs.drop (index + 1))

/-- The key that was at the index is returned when the new one is there; otherwise there is an exception, and nothing
has changed. -/
def XchTold (same : κ → κ → Prop) [DecidableRel same] (self : Dict κ Unit) (index : ℕ) (key : κ) (r : XchRun κ Unit) :
    Prop :=
  (∃ old, self.pairs[index]? = some (old, ()) ∧ r.returned = some old ∧ r.thrown = false ∧
    r.self.pairs = storeAt same self.pairs index key) ∨
    (r.returned = none ∧ r.thrown = true ∧ r.self.pairs = self.pairs)

/-! ### What growing keeps -/

/-- The items of a dict are among those of another one, and as many of them in use. -/
structure Keeps (d e : Dict κ ν) : Prop where
  vused : e.vused = d.vused
  items : ∀ item ∈ e.vtab, item ∈ d.vtab

section Keeping

variable {ops : KeyOps κ} {dbg : Bool} {answers : GrowAnswers} {d e : Dict κ ν} {r : Option (Dict κ ν)} {key : κ}

theorem Keeps.trans {f : Dict κ ν} (h : Keeps d e) (h' : Keeps e f) : Keeps d f :=
  ⟨h'.vused.trans h.vused, fun item hitem => h.items item (h'.items item hitem)⟩

theorem doOptimize_keeps (hrun : d.doOptimizeVtabWithoutRebuild dbg = some e) : Keeps d e := by
  unfold Dict.doOptimizeVtabWithoutRebuild at hrun
  obtain ⟨vtab, hloop, hrun⟩ := of_bind hrun
  obtain ⟨-, -, hrun⟩ := of_bind hrun
  obtain ⟨-, -, hrun⟩ := of_bind hrun
  obtain rfl := Option.some.inj hrun
  have hitems : ∀ item ∈ vtab, item ∈ d.vtab := by
    refine loop_post (Q := fun vtab : List (DictItem κ ν) => ∀ item ∈ vtab, item ∈ d.vtab)
      (fun s => ∀ item ∈ s.2, item ∈ d.vtab) (fun item hitem => hitem) ?_ hloop
    rintro ⟨i, now⟩ step hnow hstep
    unfold optimizeRound at hstep
    dsimp only at hnow hstep
    cases hitem : now[i]? with
    | none =>
      rw [hitem] at hstep
      cases hstep
      exact hnow
    | some item =>
      rw [hitem] at hstep
      dsimp only at hstep
      have hmoved : ∀ j, ∀ item ∈ now.take i ++ now.drop j, item ∈ d.vtab := by
        intro j item hmem
        rcases List.mem_append.mp hmem with htake | hdrop
        · exact hnow item (List.mem_of_mem_take htake)
        · exact hnow item (List.mem_of_mem_drop hdrop)
      split_ifs at hstep
      · cases hstep
        exact hnow
      · cases hstep
        exact hmoved _
      · cases hstep
        exact hmoved _
  exact ⟨rfl, hitems⟩

theorem rebuild_keeps (hrun : d.htabRebuildAfterOptimize dbg = some e) : Keeps d e := by
  unfold Dict.htabRebuildAfterOptimize at hrun
  obtain ⟨-, -, hrun⟩ := of_bind hrun
  obtain ⟨-, -, hrun⟩ := of_bind hrun
  obtain ⟨htab, -, hrun⟩ := of_bind hrun
  obtain rfl := Option.some.inj hrun
  exact ⟨rfl, fun item hitem => hitem⟩

theorem optimizeIfCan_keeps (hrun : (if d.CanOptimizeVtab then d.doOptimizeVtabWithoutRebuild dbg else some d) = some e) :
    Keeps d e := by
  split_ifs at hrun
  · exact doOptimize_keeps hrun
  · obtain rfl := Option.some.inj hrun
    exact ⟨rfl, fun item hitem => hitem⟩

theorem useGrown_keeps {newHmask newValloc : ℕ} (hrun : d.useGrown dbg newHmask newValloc = some e) : Keeps d e := by
  unfold Dict.useGrown at hrun
  by_cases hsame : d.hmask = newHmask
  · rw [if_pos hsame] at hrun
    obtain ⟨-, -, hrun⟩ := of_bind hrun
    obtain rfl := Option.some.inj hrun
    exact ⟨rfl, fun item hitem => hitem⟩
  · rw [if_neg hsame] at hrun
    obtain ⟨f, hopt, hrun⟩ := of_bind hrun
    have hkeeps := optimizeIfCan_keeps hopt
    exact Keeps.trans ⟨hkeeps.vused, hkeeps.items⟩ (rebuild_keeps hrun)

theorem trygrow_spec (hrun : d.trygrow dbg answers = some r) :
    (r = none → answers.tryRealloc = false ∧ answers.tryReallocSmall = false) ∧ ∀ e, r = some e → Keeps d e := by
  have hboth : ∀ r, d.trygrowVtabAndHtab dbg answers = some r →
      (r = none → answers.tryRealloc = false ∧ answers.tryReallocSmall = false) ∧ ∀ e, r = some e → Keeps d e := by
    intro r hrun
    unfold Dict.trygrowVtabAndHtab Dict.trygrowVtabAndHtabWith at hrun
    obtain ⟨-, -, hrun⟩ := of_bind hrun
    split_ifs at hrun with h1 h2
    · obtain ⟨e, huse, hrun⟩ := of_bind hrun
      obtain rfl := Option.some.inj hrun
      refine ⟨fun hnone => (Option.some_ne_none _ hnone).elim, ?_⟩
      rintro _ ⟨⟩
      exact useGrown_keeps huse
    · obtain ⟨e, huse, hrun⟩ := of_bind hrun
      obtain rfl := Option.some.inj hrun
      refine ⟨fun hnone => (Option.some_ne_none _ hnone).elim, ?_⟩
      rintro _ ⟨⟩
      exact useGrown_keeps huse
    · obtain rfl := Option.some.inj hrun
      rw [Bool.not_eq_true] at h1 h2
      exact ⟨fun _ => ⟨h1, h2⟩, fun e hcontra => (Option.some_ne_none e hcontra.symm).elim⟩
  unfold Dict.trygrow at hrun
  split_ifs at hrun with hshould hcan
  · exact hboth r hrun
  · unfold Dict.trygrowVtab at hrun
    obtain ⟨-, -, hrun⟩ := of_bind hrun
    split_ifs at hrun with hmem
    · obtain ⟨-, -, hrun⟩ := of_bind hrun
      obtain rfl := Option.some.inj hrun
      refine ⟨fun hnone => (Option.some_ne_none _ hnone).elim, ?_⟩
      rintro _ ⟨⟩
      exact ⟨rfl, fun item hitem => hitem⟩
    · obtain rfl := Option.some.inj hrun
      rw [Bool.or_eq_true, not_or, Bool.not_eq_true, Bool.not_eq_true] at hmem
      exact ⟨fun _ => hmem, fun e hcontra => (Option.some_ne_none e hcontra.symm).elim⟩
  · exact hboth r hrun

theorem growAndRelock_spec (hrun : d.growVtabAndHtabAndRelock dbg answers = some r) :
    (r = none → answers.malloc = false) ∧ ∀ e, r = some e → Keeps d e := by
  unfold Dict.growVtabAndHtabAndRelock at hrun
  obtain ⟨-, -, hrun⟩ := of_bind hrun
  obtain ⟨-, -, hrun⟩ := of_bind hrun
  by_cases hmem : answers.malloc = false
  · rw [if_pos hmem] at hrun
    obtain rfl := Option.some.inj hrun
    exact ⟨fun _ => hmem, fun e hcontra => (Option.some_ne_none e hcontra.symm).elim⟩
  · rw [if_neg hmem] at hrun
    obtain ⟨grown, hgrown, hrun⟩ := of_bind hrun
    obtain ⟨-, -, hrun⟩ := of_bind hrun
    obtain ⟨-, -, hrun⟩ := of_bind hrun
    obtain rfl := Option.some.inj hrun
    refine ⟨fun hnone => (Option.some_ne_none _ hnone).elim, ?_⟩
    rintro _ ⟨⟩
    by_cases hsame : d.hmask = if d.MustGrowHtab then dictTinyHmaskFromCount (d.vtab.length + 1) else d.hmask
    · rw [if_pos hsame] at hgrown
      obtain rfl := Option.some.inj hgrown
      exact ⟨rfl, fun item hitem => hitem⟩
    · rw [if_neg hsame] at hgrown
      obtain ⟨f, hopt, hgrown⟩ := of_bind hgrown
      have hkeeps := rebuild_keeps hgrown
      exact (optimizeIfCan_keeps hopt).trans ⟨hkeeps.vused, hkeeps.items⟩

end Keeping

/-! ### Refusals -/

section Refusals

variable {ops : KeyOps κ} {dbg : Bool} {answers : GrowAnswers} {d e : Dict κ ν} {key : κ} {found : Search} {slot : ℕ}

/-- Whatever the slots hold, the search for a new key finds nothing. -/
theorem Dict.IsNew.search (h : d.IsNew ops key) (hrun : d.search ops key = some found) : ∃ slot, found = .absent slot := by
  unfold Dict.search probeFold at hrun
  refine loop_post (Q := fun found => ∃ slot, found = Search.absent slot) (fun _ => True) trivial ?_ hrun
  rintro ⟨s, result⟩ step - hstep
  obtain ⟨visited, hvisit, hstep⟩ := of_bind hstep
  unfold Dict.searchSlot at hvisit
  obtain ⟨vtabIdx, -, hvisit⟩ := of_bind hvisit
  by_cases hzero : vtabIdx = 0
  · rw [if_pos hzero] at hvisit
    cases hvisit
    cases hstep
    exact ⟨_, rfl⟩
  · rw [if_neg hzero] at hvisit
    obtain ⟨⟨hash, stored⟩, hitem, hvisit⟩ := of_bind hvisit
    cases stored with
    | none =>
      cases hvisit
      cases hstep
      trivial
    | some pair =>
      dsimp only at hvisit
      by_cases hhash : hash = ops.hash key
      · subst hhash
        rw [if_neg (not_not.mpr rfl), h pair (List.mem_of_getElem? hitem)] at hvisit
        cases hvisit
        cases hstep
        trivial
      · rw [if_pos hhash] at hvisit
        cases hvisit
        cases hstep
        trivial

/-- A key that is not found is new. -/
theorem Dict.Verify.isNew (h : d.Verify) (hfound : d.Found ops key (.absent slot)) : d.IsNew ops key := by
  obtain ⟨n, hpassed, hzero, -⟩ := hfound
  intro pair hmem
  obtain ⟨i, hi, hget⟩ := List.getElem_of_mem hmem
  have hitem : d.vtab[i]? = some ⟨ops.hash key, some pair⟩ := hget ▸ List.getElem?_eq_getElem hi
  obtain ⟨m, hm, hfirst⟩ := h.htab.reach i _ hitem rfl
  dsimp only at hm hfirst
  have hmn : m < n := by
    rcases Nat.lt_trichotomy m n with hlt | rfl | hgt
    · exact hlt
    · omega
    · exact absurd hzero (hfirst n hgt)
  exact (hpassed m hmn).2 pair ⟨(hpassed m hmn).1, by rw [hm, Nat.add_sub_cancel, hitem]⟩

/-- A comparison that throws is the end of the search. -/
theorem Dict.Found.err_unique (h : d.Found ops key .err) (hfound : d.Found ops key found) : found = .err := by
  obtain ⟨n, hpassed, pair, hleads, hnone⟩ := h
  have hless : ∀ m, d.Passed ops key m → m ≤ n := by
    intro m hm
    by_contra hlt
    have hfalse := (hm n (not_le.mp hlt)).2 pair hleads
    rw [hnone] at hfalse
    cases hfalse
  cases found with
  | err => rfl
  | absent slot =>
    obtain ⟨m, hm, hzero, -⟩ := hfound
    rcases Nat.lt_or_eq_of_le (hless m hm) with hlt | rfl
    · exact absurd hzero (hpassed.first m hlt)
    · exact absurd hzero hleads.1
  | present htabIdx vtabIdx result =>
    obtain ⟨m, hm, rfl, -, ⟨other, hother, htrue⟩, -⟩ := hfound
    rcases Nat.lt_or_eq_of_le (hless m hm) with hlt | rfl
    · have hfalse := (hpassed m hlt).2 other hother
      rw [htrue] at hfalse
      cases hfalse
    · have hsame := Option.some.inj (hleads.2.symm.trans hother.2)
      cases hsame
      rw [hnone] at htrue
      cases htrue

/-- What is refused is refused before anything changes. -/
theorem Dict.Verify.locate_of_refuses (h : d.Verify) (hhash : ops.hash key < 2 ^ 64) (hrefuses : d.Refuses ops answers key) :
    d.locate ops dbg false answers key = some (d, .err) := by
  obtain ⟨found, hsearch, hfound⟩ := h.search hhash
  unfold Dict.locate
  rw [hsearch, some_bind]
  rcases hrefuses with herr | ⟨hnew, hfull, hfirst, hsmall, hmalloc⟩
  · rw [herr.err_unique hfound]
  · obtain ⟨slot, rfl⟩ := hnew.search hsearch
    have hboth : d.trygrowVtabAndHtab dbg answers = some none := by
      unfold Dict.trygrowVtabAndHtab Dict.trygrowVtabAndHtabWith
      rw [check_of (Nat.lt_succ_of_le hfull), some_bind, hfirst, hsmall]
      rfl
    have htry : d.trygrow dbg answers = some none := by
      unfold Dict.trygrow
      split_ifs with hshould hcan
      · exact hboth
      · unfold Dict.trygrowVtab
        rw [check_of hcan, some_bind, hfirst, hsmall]
        rfl
      · exact hboth
    have hmask : d.MustGrowHtab → d.hmask <
        if d.MustGrowHtab then dictTinyHmaskFromCount (d.vtab.length + 1) else d.hmask := by
      intro hmust
      obtain ⟨k, -, hpow⟩ := h.hmask
      have hsize := h.vsize
      have hvalloc := h.valloc
      have hle : d.hmask ≤ d.valloc := hmust
      have hfull' : d.valloc ≤ d.vtab.length := hfull
      have hlen : d.vtab.length + 1 = 2 ^ k := by omega
      rw [if_pos hmust]
      unfold dictTinyHmaskFromCount
      rw [if_neg (Nat.succ_ne_zero _), hlen, Nat.size_pow, Nat.one_shiftLeft, pow_succ]
      omega
    have hrelock : d.growVtabAndHtabAndRelock dbg answers = some none := by
      unfold Dict.growVtabAndHtabAndRelock
      rw [check_of hfull, some_bind]
      dsimp only
      rw [check_of hmask, some_bind, if_pos hmalloc]
    dsimp only
    rw [if_pos hfull, htry, some_bind]
    dsimp only
    rw [hrelock, some_bind]

/-- A call that gets to nothing has been refused; one that gets on has as many items to deal with. -/
theorem Dict.Verify.locate_spec (h : d.Verify) (hhash : ops.hash key < 2 ^ 64)
    (hrun : d.locate ops dbg false answers key = some (e, found)) :
    (found = .err → d.Refuses ops answers key) ∧ e.vused = d.vused := by
  obtain ⟨first, hsearch, hfound⟩ := h.search hhash
  unfold Dict.locate at hrun
  rw [hsearch, some_bind] at hrun
  cases first with
  | err =>
    cases hrun
    exact ⟨fun _ => .inl hfound, rfl⟩
  | present htabIdx vtabIdx result =>
    cases hrun
    exact ⟨fun hcontra => Search.noConfusion hcontra, rfl⟩
  | absent slot =>
    have hnew := h.isNew hfound
    dsimp only at hrun
    by_cases hfull : d.MustGrowVtab
    · rw [if_pos hfull] at hrun
      obtain ⟨grown, htry, hrun⟩ := of_bind hrun
      obtain ⟨hnone, hsome⟩ := trygrow_spec htry
      cases grown with
      | some grown =>
        unfold Dict.afterGrowth at hrun
        obtain ⟨-, -, hrun⟩ := of_bind hrun
        obtain ⟨slot', -, hrun⟩ := of_bind hrun
        cases hrun
        exact ⟨fun hcontra => Search.noConfusion hcontra, (hsome e rfl).vused⟩
      | none =>
        obtain ⟨grown, hrelock, hrun⟩ := of_bind hrun
        obtain ⟨hmalloc, hkeeps⟩ := growAndRelock_spec hrelock
        cases grown with
        | none =>
          cases hrun
          obtain ⟨h1, h2⟩ := hnone rfl
          exact ⟨fun _ => .inr ⟨hnew, hfull, h1, h2, hmalloc rfl⟩, rfl⟩
        | some grown =>
          dsimp only at hrun
          rw [if_neg Bool.false_ne_true] at hrun
          obtain ⟨second, hsearch', hrun⟩ := of_bind hrun
          cases hrun
          have hkept := hkeeps e rfl
          have hnew' : e.IsNew ops key := fun pair hmem => hnew pair (hkept.items _ hmem)
          obtain ⟨slot', rfl⟩ := hnew'.search hsearch'
          exact ⟨fun hcontra => Search.noConfusion hcontra, hkept.vused⟩
    · rw [if_neg hfull] at hrun
      cases hrun
      exact ⟨fun hcontra => Search.noConfusion hcontra, rfl⟩

end Refusals

/-! ### What the operators return -/

section Operators

variable {ops : KeyOps κ} {dbg : Bool} {answers : GrowAnswers} {d : Dict κ ν}
  {getindex : γ → Dict κ ν → ℕ → Option (GetindexRun κ ν γ)} {cookie : γ} {pair : κ × ν} {r : SetRun κ ν γ}
  {self : Dict κ Unit} {key : κ} {index : ℕ}

/-- With as many items as there are in the dict, the callback finds the place that it has been asked for. -/
def FindsPlace (getindex : γ → Dict κ ν → ℕ → Option (GetindexRun κ ν γ)) (vused : ℕ) : Prop :=
  ∀ cookie d overwriteIndex run, d.vused = vused → getindex cookie d overwriteIndex = some run → run.vidx ≠ 0

theorem setitemIndexImplCb_findsPlace {vused : ℕ} (hindex : index < vused) :
    FindsPlace (κ := κ) (ν := ν) (dictMhSeqSetitemIndexImplCb dbg index) vused := by
  intro cookie d overwriteIndex run hvused hrun
  unfold dictMhSeqSetitemIndexImplCb at hrun
  rw [if_neg (by omega)] at hrun
  obtain ⟨first, -, hrun⟩ := of_bind hrun
  obtain ⟨result, -, hrun⟩ := of_bind hrun
  obtain ⟨item, -, hrun⟩ := of_bind hrun
  split_ifs at hrun <;>
  · obtain rfl := Option.some.inj hrun
    exact Nat.succ_ne_zero result

theorem insertImplCb_findsPlace {vused : ℕ} (hindex : index < vused) :
    FindsPlace (κ := κ) (ν := ν) (dictMhSeqInsertImplCb dbg index) vused := by
  intro cookie d overwriteIndex run hvused hrun
  unfold dictMhSeqInsertImplCb at hrun
  rw [if_neg (by omega)] at hrun
  obtain ⟨result, -, hrun⟩ := of_bind hrun
  obtain rfl := Option.some.inj hrun
  exact Nat.succ_ne_zero result

theorem Dict.Verify.setitemAt_of_refuses (h : d.Verify) (pair : κ × ν) (hhash : ops.hash pair.1 < 2 ^ 64)
    (hrefuses : d.Refuses ops answers pair.1) :
    d.setitemAt ops dbg answers getindex cookie pair = some ⟨d, cookie, .err⟩ := by
  unfold Dict.setitemAt
  rw [h.locate_of_refuses hhash hrefuses, some_bind]

/-- With a callback that finds its place, an error is a refusal. -/
theorem Dict.Verify.setitemAt_err (h : d.Verify) (hhash : ops.hash pair.1 < 2 ^ 64) (hget : FindsPlace getindex d.vused)
    (hrun : d.setitemAt ops dbg answers getindex cookie pair = some r) (herr : r.exit = .err) :
    d.Refuses ops answers pair.1 := by
  unfold Dict.setitemAt at hrun
  obtain ⟨⟨e, found⟩, hlocate, hrun⟩ := of_bind hrun
  obtain ⟨hrefuses, hvused⟩ := h.locate_spec hhash hlocate
  cases found with
  | err => exact hrefuses rfl
  | present htabIdx vtabIdx result =>
    obtain ⟨⟨cookie', f, vidx⟩, hcb, hrun⟩ := of_bind hrun
    dsimp only at hrun
    rw [if_neg (hget _ _ _ _ hvused hcb)] at hrun
    obtain ⟨g, -, hrun⟩ := of_bind hrun
    obtain rfl := Option.some.inj hrun
    exact SetExit.noConfusion herr
  | absent slot =>
    obtain ⟨-, -, hrun⟩ := of_bind hrun
    obtain ⟨⟨cookie', f, vidx⟩, hcb, hrun⟩ := of_bind hrun
    dsimp only at hrun
    rw [if_neg (hget _ _ _ _ hvused hcb)] at hrun
    obtain ⟨g, -, hrun⟩ := of_bind hrun
    obtain rfl := Option.some.inj hrun
    exact SetExit.noConfusion herr

/-- The version of hash sets returns 0 at none of its ends. -/
theorem SetExit.hashsetReturns_ne_zero (exit : SetExit) : exit.hashsetReturns ≠ 0 := by
  cases exit <;> decide

/-- A status of hash sets tells the truth when it stands for an exception. -/
theorem statusTold_iff {exit : SetExit} {d' : Dict κ Unit} :
    StatusTold self ⟨d', exit.hashsetReturns, exit == .err⟩ ↔ exit = .err ∧ d'.pairs = self.pairs := by
  unfold StatusTold
  constructor
  · rintro (⟨hzero, -⟩ | ⟨-, hthrown, hpairs⟩)
    · exact absurd hzero exit.hashsetReturns_ne_zero
    · exact ⟨beq_iff_eq.mp hthrown, hpairs⟩
  · rintro ⟨rfl, hpairs⟩
    exact .inr ⟨SetExit.err.hashsetReturns_ne_zero, rfl, hpairs⟩

/-- The operators of hash sets tell what has happened when nothing can be set, and then only: their results for sets
that have been updated are those of an error. -/
theorem sequenceOperators_tell_iff (same : κ → κ → Prop) [DecidableRel same] (h : self.Verify)
    (hhash : ops.hash key < 2 ^ 64) (hindex : index < self.vused) :
    (Ends (hashsetMhSeqXchitemIndex ops dbg answers self index key) (XchTold same self index key) ↔
      self.Refuses ops answers key) ∧
    (Ends (hashsetMhSeqSetitemIndex ops dbg answers self index key) (StatusTold self) ↔
      self.Refuses ops answers key) ∧
    (Ends (hashsetMhSeqInsert ops dbg answers self index key) (StatusTold self) ↔ self.Refuses ops answers key) := by
  refine ⟨⟨?_, fun hrefuses => ?_⟩, ⟨?_, fun hrefuses => ?_⟩, ⟨?_, fun hrefuses => ?_⟩⟩
  · rintro ⟨r, hrun, htold⟩
    unfold hashsetMhSeqXchitemIndex at hrun
    obtain ⟨run, hset, hrun⟩ := of_bind hrun
    rw [if_pos run.exit.hashsetReturns_ne_zero] at hrun
    obtain rfl := Option.some.inj hrun
    refine h.setitemAt_err hhash (setitemIndexImplCb_findsPlace hindex) hset ?_
    rcases htold with ⟨old, -, hreturned, -⟩ | ⟨-, hthrown, -⟩
    · cases hreturned
    · exact beq_iff_eq.mp hthrown
  · unfold hashsetMhSeqXchitemIndex
    rw [h.setitemAt_of_refuses (key, ()) hhash hrefuses, some_bind]
    exact Ends.pure (.inr ⟨rfl, rfl, rfl⟩)
  · rintro ⟨r, hrun, htold⟩
    unfold hashsetMhSeqSetitemIndex at hrun
    obtain ⟨run, hset, hrun⟩ := of_bind hrun
    obtain rfl := Option.some.inj hrun
    exact h.setitemAt_err hhash (setitemIndexImplCb_findsPlace hindex) hset (statusTold_iff.mp htold).1
  · unfold hashsetMhSeqSetitemIndex
    rw [h.setitemAt_of_refuses (key, ()) hhash hrefuses, some_bind]
    exact Ends.pure (statusTold_iff.mpr ⟨rfl, rfl⟩)
  · rintro ⟨r, hrun, htold⟩
    unfold hashsetMhSeqInsert at hrun
    obtain ⟨run, hset, hrun⟩ := of_bind hrun
    obtain rfl := Option.some.inj hrun
    exact h.setitemAt_err hhash (insertImplCb_findsPlace hindex) hset (statusTold_iff.mp htold).1
  · unfold hashsetMhSeqInsert
    rw [h.setitemAt_of_refuses (key, ()) hhash hrefuses, some_bind]
    exact Ends.pure (statusTold_iff.mpr ⟨rfl, rfl⟩)

/-- A set of the number 5. -/
def five : Dict ℕ Unit := ⟨[⟨5, some (5, ())⟩], 2, 1, 3, [0, 1, 0, 0], false⟩

theorem five_verify : five.Verify where
  vused := rfl
  vsize := by decide
  valloc := by decide
  hmask := ⟨2, by decide, rfl⟩
  htab := by
    refine ⟨rfl, fun i => ?_, ⟨0, Nat.zero_le _, rfl⟩, fun i item hitem _ => ?_⟩
    · rcases i with _ | _ | _ | _ | i
      · exact Nat.zero_le _
      · exact le_rfl
      · exact Nat.zero_le _
      · exact Nat.zero_le _
      · exact Nat.zero_le _
    · cases i with
      | zero =>
        obtain rfl := Option.some.inj hitem
        exact ⟨0, rfl, fun m hm => absurd hm (Nat.not_lt_zero m)⟩
      | succ i => cases hitem

/-- With 6 in the place of 5 there is no exception, and no result that says so. -/
theorem sequenceOperators_five :
    five.Verify ∧ 0 < five.vused ∧
    ¬Ends (hashsetMhSeqXchitemIndex numberOps true ⟨true, true, true⟩ five 0 6) (XchTold Eq five 0 6) ∧
    ¬Ends (hashsetMhSeqSetitemIndex numberOps true ⟨true, true, true⟩ five 0 6) (StatusTold five) ∧
    ¬Ends (hashsetMhSeqInsert numberOps true ⟨true, true, true⟩ five 0 6) (StatusTold five) := by
  refine ⟨five_verify, by decide, ?_, ?_, ?_⟩
  · rintro ⟨r, hrun, htold⟩
    cases hrun
    rcases htold with ⟨old, -, hreturned, -⟩ | ⟨-, hthrown, -⟩
    · cases hreturned
    · cases hthrown
  · rintro ⟨r, hrun, htold⟩
    cases hrun
    rcases htold with ⟨hstatus, -⟩ | ⟨-, hthrown, -⟩
    · cases hstatus
    · cases hthrown
  · rintro ⟨r, hrun, htold⟩
    cases hrun
    rcases htold with ⟨hstatus, -⟩ | ⟨-, hthrown, -⟩
    · cases hstatus
    · cases hthrown

/-- The set is larger than the index, so that nothing but a refusal is told. -/
theorem sequenceOperators_tell_iff_five :
    (Ends (hashsetMhSeqXchitemIndex numberOps true ⟨true, true, true⟩ five 0 5) (XchTold Eq five 0 5) ↔
      five.Refuses numberOps ⟨true, true, true⟩ 5) ∧
    (Ends (hashsetMhSeqSetitemIndex numberOps true ⟨true, true, true⟩ five 0 5) (StatusTold five) ↔
      five.Refuses numberOps ⟨true, true, true⟩ 5) ∧
    (Ends (hashsetMhSeqInsert numberOps true ⟨true, true, true⟩ five 0 5) (StatusTold five) ↔
      five.Refuses numberOps ⟨true, true, true⟩ 5) :=
  sequenceOperators_tell_iff Eq five_verify (by decide) (by decide)

end Operators

end Deemon.Collections
