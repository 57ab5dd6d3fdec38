import Deemon.Lib.Run
import Deemon.Runtime.Slab

/-!
# Every interleaving of slab callers keeps the books

Each place in the program holds something: a read-lock, a chunk of a page that is reserved but has no bit, a chunk whose
bit is still to be cleared, a page that is not linked yet or no longer. The shared state and what the callers hold are in
balance (`SlabInv`), and every step keeps the balance (`SlabMove`).
-/

namespace Deemon.Runtime

open Deemon.Parties Deemon.Run

variable {cfg : SlabConfig}

/-! ### What the places hold -/

/-- The read-lock. -/
def Place.reads : Place cfg → ℕ
  | .againLocked | .readUsed _ | .reserve _ _ | .endReadFull _ | .endReadReserved _ | .endReadEmpty => 1
  | _ => 0

/-- A count of page `p` without a bit. -/
def Place.pending (p : ℕ) : Place cfg → ℕ
  | .endReadReserved q | .scan q _ | .allocInWord q _ _ | .againReadUsed q | .freeLast q | .freeFirst q | .decUsed q _ =>
    if q = p then 1 else 0
  | _ => 0

/-- A chunk that is freed and still has its bit. -/
def Place.clears (p : ℕ) : Place cfg → ℕ
  | .clearBit q => if q = p then 1 else 0
  | _ => 0

/-- A page that is not linked yet. -/
def Place.creates (p : ℕ) : Place cfg → ℕ
  | .newPage q => if q = p then 1 else 0
  | _ => 0

/-- A page that goes back to the raw page allocator. -/
def Place.returns (p : ℕ) : Place cfg → ℕ
  | .rawFree q => if q = p then 1 else 0
  | _ => 0

/-- The page that a caller reads or writes in its next step. -/
def Place.page? : Place cfg → Option ℕ
  | .readUsed p | .reserve p _ | .scan p _ | .allocInWord p _ _ | .againReadUsed p | .freeLast p | .freeFirst p
  | .decUsed p _ | .rawFree p => some p
  | .clearBit p => some (pageOf cfg p)
  | _ => none

/-- What a caller knows. -/
def Place.Knows (slabPages : List ℕ) : Place cfg → Prop
  | .readUsed p => p ∈ slabPages
  | .reserve p old => p ∈ slabPages ∧ old < cfg.maxChunkCount - 1
  | .scan _ i => i < cfg.elemofUsed
  | .allocInWord _ i word => i < cfg.elemofUsed ∧ word ≠ cfg.maskfor i
  | .decUsed _ old => old ≠ 1 ∧ old ≠ cfg.maxChunkCount
  | _ => True

/-! ### What the pages hold -/

section Pages

variable {pages : ℕ → Option (SlabPage cfg)} {p q x : ℕ} {f : SlabPage cfg → ℕ} {page : SlabPage cfg}

/-- A number of a page, 0 if there is no page. -/
def pageAt (pages : ℕ → Option (SlabPage cfg)) (p : ℕ) (f : SlabPage cfg → ℕ) : ℕ := (pages p).elim 0 f

/-- The bit of a chunk. -/
def chunkBit (pages : ℕ → Option (SlabPage cfg)) (x : ℕ) : ℕ :=
  if x = chunkAddr cfg (pageOf cfg x) (indexOf cfg x) then
    pageAt pages (pageOf cfg x) fun page => (page.bit (indexOf cfg x)).toNat
  else 0

theorem pageAt_of (h : pages p = some page) (f : SlabPage cfg → ℕ) : pageAt pages p f = f page := by
  unfold pageAt
  rw [h]
  rfl

theorem pageAt_none (h : pages p = none) (f : SlabPage cfg → ℕ) : pageAt pages p f = 0 := by
  unfold pageAt
  rw [h]
  rfl

theorem exists_of_pageAt_pos (h : 0 < pageAt pages p f) : ∃ page, pages p = some page := by
  cases hpage : pages p with
  | none =>
    rw [pageAt_none hpage] at h
    exact absurd h (Nat.lt_irrefl 0)
  | some page => exact ⟨page, rfl⟩

theorem pageAt_update (o : Option (SlabPage cfg)) :
    pageAt (Function.update pages p o) q f = if q = p then o.elim 0 f else pageAt pages q f := by
  unfold pageAt
  by_cases hq : q = p
  · rw [if_pos hq, hq, Function.update_self]
  · rw [if_neg hq, Function.update_of_ne hq]

/-- A chunk whose bit does not change. -/
theorem chunkBit_update (o : Option (SlabPage cfg))
    (h : ∀ k, x = chunkAddr cfg p k → (o.elim 0 fun page => (page.bit k).toNat) = pageAt pages p fun page => (page.bit k).toNat) :
    chunkBit (Function.update pages p o) x = chunkBit pages x := by
  unfold chunkBit
  rw [pageAt_update]
  by_cases hp : pageOf cfg x = p
  · rw [if_pos hp, hp]
    split_ifs with hx
    · exact h _ hx
    · rfl
  · rw [if_neg hp]

/-- A chunk is told by its page and its index. -/
theorem chunkBit_of {k : ℕ} (hp : cfg.pageSize ∣ p) (hk : k < cfg.maxChunkCount) (h : pages p = some page) :
    chunkBit pages (chunkAddr cfg p k) = (page.bit k).toNat := by
  unfold chunkBit
  rw [pageOf_chunkAddr hp hk, indexOf_chunkAddr hp hk, if_pos rfl, pageAt_of h]

end Pages

/-! ### The balance -/

variable {ι : Type} [Fintype ι]

/-- The pages with free chunks that have one in use. -/
def partlyUsed (cfg : SlabConfig) (used : ℕ) : ℕ := if 1 ≤ used ∧ used < cfg.maxChunkCount then 1 else 0

/-- What holds between all calls and inside them. -/
structure SlabInv (w : World ι (Slab cfg) (Place cfg)) : Prop where
  readers : w.shared.readers = 0 + total Place.reads w.place
  taken : ∀ p, (w.shared.taken p).toNat = pageAt w.shared.pages p (fun _ => 1) + total (Place.creates p) w.place
  used : ∀ p, pageAt w.shared.pages p SlabPage.spmUsed =
    pageAt w.shared.pages p (fun page => page.setBits.card) + total (Place.pending p) w.place
  unused : ∀ p, pageAt w.shared.pages p (fun page => if page.spmUsed = 0 then 1 else 0) =
    0 + total (Place.returns p) w.place
  chunk : ∀ x, chunkBit w.shared.pages x = w.shared.live.count x + total (Place.clears x) w.place
  linked : ∀ p, w.shared.slabPages.count p = partlyUsed cfg (pageAt w.shared.pages p SlabPage.spmUsed)
  page : ∀ p page, w.shared.pages p = some page → page.Ok ∧ page.spmUsed ≤ cfg.maxChunkCount
  aligned : ∀ p, w.shared.taken p → cfg.pageSize ∣ p
  knows : ∀ i, (w.place i).Knows w.shared.slabPages

/-- A step of a caller that keeps the balance. -/
structure SlabMove (s s' : Slab cfg) (c c' : Place cfg) : Prop where
  readers : s'.readers + 0 + c.reads = s.readers + 0 + c'.reads
  taken : ∀ p, (s'.taken p).toNat + pageAt s.pages p (fun _ => 1) + c.creates p =
    (s.taken p).toNat + pageAt s'.pages p (fun _ => 1) + c'.creates p
  used : ∀ p, pageAt s'.pages p SlabPage.spmUsed + pageAt s.pages p (fun page => page.setBits.card) + c.pending p =
    pageAt s.pages p SlabPage.spmUsed + pageAt s'.pages p (fun page => page.setBits.card) + c'.pending p
  unused : ∀ p, pageAt s'.pages p (fun page => if page.spmUsed = 0 then 1 else 0) + 0 + c.returns p =
    pageAt s.pages p (fun page => if page.spmUsed = 0 then 1 else 0) + 0 + c'.returns p
  chunk : ∀ x, chunkBit s'.pages x + s.live.count x + c.clears x = chunkBit s.pages x + s'.live.count x + c'.clears x
  linked : ∀ p, s'.slabPages.count p = partlyUsed cfg (pageAt s'.pages p SlabPage.spmUsed)
  page : ∀ p page, s'.pages p = some page → page.Ok ∧ page.spmUsed ≤ cfg.maxChunkCount
  aligned : ∀ p, s'.taken p → cfg.pageSize ∣ p
  knows : c'.Knows s'.slabPages
  locked : s'.slabPages = s.slabPages ∨ s.readers = 0

theorem Place.reads_of_knows {c : Place cfg} {l l' : List ℕ} (h : c.Knows l) : c.Knows l' ∨ c.reads = 1 := by
  cases c with
  | readUsed | reserve => exact .inr rfl
  | scan | allocInWord | decUsed => exact .inl h
  | _ => exact .inl trivial

theorem SlabInv.move [DecidableEq ι] {w : World ι (Slab cfg) (Place cfg)} {i : ι} {s' : Slab cfg} {c' : Place cfg} (h : SlabInv w)
    (hmove : SlabMove w.shared s' (w.place i) c') : SlabInv ⟨s', Function.update w.place i c'⟩ where
  readers := total_balance h.readers hmove.readers
  taken := fun p => total_balance (h.taken p) (hmove.taken p)
  used := fun p => total_balance (h.used p) (hmove.used p)
  unused := fun p => total_balance (h.unused p) (hmove.unused p)
  chunk := fun x => total_balance (h.chunk x) (hmove.chunk x)
  linked := hmove.linked
  page := hmove.page
  aligned := hmove.aligned
  knows := by
    intro j
    dsimp only
    by_cases hj : j = i
    · subst hj
      rw [Function.update_self]
      exact hmove.knows
    rw [Function.update_of_ne hj]
    have hknows := h.knows j
    rcases hmove.locked with hsame | hfree
    · rwa [hsame]
    · refine (Place.reads_of_knows hknows).resolve_right fun hreads => ?_
      have hle := le_total Place.reads w.place j
      have hreaders := h.readers
      omega

/-! ### The steps -/

/-- What a caller can rely on. -/
structure SlabView (s : Slab cfg) (c : Place cfg) : Prop where
  readers : c.reads ≤ s.readers
  taken : ∀ p, pageAt s.pages p (fun _ => 1) + c.creates p ≤ (s.taken p).toNat
  used : ∀ p, pageAt s.pages p (fun page => page.setBits.card) + c.pending p ≤ pageAt s.pages p SlabPage.spmUsed
  unused : ∀ p, c.returns p ≤ pageAt s.pages p fun page => if page.spmUsed = 0 then 1 else 0
  chunk : ∀ x, s.live.count x + c.clears x ≤ chunkBit s.pages x
  linked : ∀ p, s.slabPages.count p = partlyUsed cfg (pageAt s.pages p SlabPage.spmUsed)
  page : ∀ p page, s.pages p = some page → page.Ok ∧ page.spmUsed ≤ cfg.maxChunkCount
  aligned : ∀ p, s.taken p → cfg.pageSize ∣ p
  knows : c.Knows s.slabPages

theorem SlabInv.view {w : World ι (Slab cfg) (Place cfg)} (h : SlabInv w) (i : ι) : SlabView w.shared (w.place i) where
  readers := by
    rw [h.readers, Nat.zero_add]
    exact le_total _ _ _
  taken := fun p => by
    rw [h.taken]
    exact Nat.add_le_add_left (le_total _ _ _) _
  used := fun p => by
    rw [h.used]
    exact Nat.add_le_add_left (le_total _ _ _) _
  unused := fun p => by
    rw [h.unused, Nat.zero_add]
    exact le_total (Place.returns p) _ _
  chunk := fun x => by
    rw [h.chunk]
    exact Nat.add_le_add_left (le_total _ _ _) _
  linked := h.linked
  page := h.page
  aligned := h.aligned
  knows := h.knows i

section Moves

variable {s s' : Slab cfg} {c c' : Place cfg} {p : ℕ} {page : SlabPage cfg}

/-- The places hold the same, save for locks. -/
structure Place.Same (c c' : Place cfg) : Prop where
  pending : ∀ p, c.pending p = c'.pending p
  clears : ∀ p, c.clears p = c'.clears p
  creates : ∀ p, c.creates p = c'.creates p
  returns : ∀ p, c.returns p = c'.returns p

theorem Place.Same.of_eq (h : ∀ p, (c.pending p, c.clears p, c.creates p, c.returns p) =
    (c'.pending p, c'.clears p, c'.creates p, c'.returns p)) : c.Same c' where
  pending p := congrArg (·.1) (h p)
  clears p := congrArg (·.2.1) (h p)
  creates p := congrArg (·.2.2.1) (h p)
  returns p := congrArg (·.2.2.2) (h p)

/-- Only locks are taken or given back. -/
theorem SlabView.lock (h : SlabView s c) (n : ℕ) (hreads : n + c.reads = s.readers + c'.reads)
    (hknows : c'.Knows s.slabPages) (hsame : c.Same c') : SlabMove s { s with readers := n } c c' where
  readers := hreads
  taken := fun p => by rw [hsame.creates]
  used := fun p => by rw [hsame.pending]
  unused := fun p => by rw [hsame.returns]
  chunk := fun x => by rw [hsame.clears]
  linked := h.linked
  page := h.page
  aligned := h.aligned
  knows := hknows
  locked := .inl rfl

section Page

variable (h : SlabView s c) (hpage : s.pages p = some page)
include h hpage

/-- A page is replaced, and the list and the chunks that are handed out with it. -/
theorem SlabView.replace {page' : SlabPage cfg} (hok : page'.Ok)
    (hle : page'.spmUsed ≤ cfg.maxChunkCount) {slabPages live : List ℕ}
    (hlist : ∀ q, slabPages.count q = if q = p then partlyUsed cfg page'.spmUsed else s.slabPages.count q)
    (hlocked : slabPages = s.slabPages ∨ s.readers = 0) (hknows : c'.Knows slabPages) (hreads : c.reads = c'.reads)
    (hself : page'.spmUsed + page.setBits.card + c.pending p = page.spmUsed + page'.setBits.card + c'.pending p)
    (hother : ∀ q, q ≠ p → c.pending q = c'.pending q)
    (hreturns : ∀ q, (if q = p ∧ page'.spmUsed = 0 then 1 else 0) + c.returns q =
      (if q = p ∧ page.spmUsed = 0 then 1 else 0) + c'.returns q)
    (hchunk : ∀ x, chunkBit (Function.update s.pages p (some page')) x + s.live.count x + c.clears x =
      chunkBit s.pages x + live.count x + c'.clears x)
    (hcreates : ∀ q, c.creates q = c'.creates q) :
    SlabMove s { s.setPage p (some page') with slabPages := slabPages, live := live } c c' where
  readers := congrArg (s.readers + 0 + ·) hreads
  taken := fun q => by
    unfold Slab.setPage
    dsimp only
    rw [pageAt_update, hcreates]
    split_ifs with hq
    · rw [hq, pageAt_of hpage]
      rfl
    · rfl
  used := fun q => by
    unfold Slab.setPage
    dsimp only
    rw [pageAt_update, pageAt_update]
    split_ifs with hq
    · rw [hq, pageAt_of hpage, pageAt_of hpage]
      exact hself
    · rw [hother q hq, Nat.add_right_comm]
  unused := fun q => by
    have hreturns := hreturns q
    unfold Slab.setPage
    dsimp only
    rw [pageAt_update]
    by_cases hq : q = p
    · simp only [hq, true_and] at hreturns
      rw [if_pos hq, hq, pageAt_of hpage]
      exact hreturns
    · simp only [hq, false_and, if_false] at hreturns
      rw [if_neg hq]
      omega
  chunk := hchunk
  linked := fun q => by
    unfold Slab.setPage
    dsimp only
    rw [hlist, pageAt_update]
    split_ifs with hq
    · rfl
    · exact h.linked q
  page := fun q page'' hq => by
    unfold Slab.setPage at hq
    dsimp only at hq
    by_cases heq : q = p
    · subst heq
      rw [Function.update_self, Option.some.injEq] at hq
      subst hq
      exact ⟨hok, hle⟩
    · rw [Function.update_of_ne heq] at hq
      exact h.page q page'' hq
  aligned := h.aligned
  knows := hknows
  locked := hlocked

/-- The counter of a page changes, and the list with it. -/
theorem SlabView.setUsed (hpos : 1 ≤ page.spmUsed) {n : ℕ} (hn : n ≤ cfg.maxChunkCount)
    {slabPages : List ℕ} (hlist : ∀ q, slabPages.count q = if q = p then partlyUsed cfg n else s.slabPages.count q)
    (hlocked : slabPages = s.slabPages ∨ s.readers = 0) (hknows : c'.Knows slabPages) (hreads : c.reads = c'.reads)
    (hreturns : ∀ q, c'.returns q = c.returns q + if q = p ∧ n = 0 then 1 else 0)
    (hclears : ∀ q, c.clears q = c'.clears q) (hcreates : ∀ q, c.creates q = c'.creates q)
    (hself : n + c.pending p = page.spmUsed + c'.pending p) (hother : ∀ q, q ≠ p → c.pending q = c'.pending q) :
    SlabMove s { s.setPage p (some (page.setUsed n)) with slabPages := slabPages } c c' := by
  have hok : (page.setUsed n).Ok := (h.page p page hpage).1
  refine h.replace hpage hok hn hlist hlocked hknows hreads ?_ hother (fun q => ?_) (fun x => ?_) hcreates
  · rw [SlabPage.setBits_setUsed, SlabPage.spmUsed_setUsed]
    omega
  · rw [hreturns, SlabPage.spmUsed_setUsed, if_neg (c := _ ∧ page.spmUsed = 0) (by omega), Nat.zero_add, Nat.add_comm]
  · rw [chunkBit_update, hclears]
    · rfl
    · intro k _
      rw [pageAt_of hpage]
      rfl

theorem SlabView.mem_iff : p ∈ s.slabPages ↔ 1 ≤ page.spmUsed ∧ page.spmUsed < cfg.maxChunkCount := by
  rw [← List.count_pos_iff, h.linked, pageAt_of hpage]
  unfold partlyUsed
  split_ifs with hused
  · exact ⟨fun _ => hused, fun _ => Nat.one_pos⟩
  · exact ⟨fun h0 => absurd h0 (Nat.lt_irrefl 0), fun h0 => absurd h0 hused⟩

/-- A page of which a caller holds a count. -/
theorem SlabView.pending_le : page.setBits.card + c.pending p ≤ page.spmUsed := by
  have hused := h.used p
  rwa [pageAt_of hpage, pageAt_of hpage] at hused

/-- The list when a page stays partly used, and when it no longer is. -/
theorem SlabView.count_same {n : ℕ}
    (hold : 1 ≤ page.spmUsed ∧ page.spmUsed < cfg.maxChunkCount) (hnew : 1 ≤ n ∧ n < cfg.maxChunkCount) (q : ℕ) :
    s.slabPages.count q = if q = p then partlyUsed cfg n else s.slabPages.count q := by
  split_ifs with hq
  · rw [hq, h.linked, pageAt_of hpage]
    unfold partlyUsed
    rw [if_pos hold, if_pos hnew]
  · rfl

theorem SlabView.count_erase {n : ℕ}
    (hold : 1 ≤ page.spmUsed ∧ page.spmUsed < cfg.maxChunkCount) (hnew : ¬(1 ≤ n ∧ n < cfg.maxChunkCount)) (q : ℕ) :
    (s.slabPages.erase p).count q = if q = p then partlyUsed cfg n else s.slabPages.count q := by
  split_ifs with hq
  · rw [hq, List.count_erase_self, h.linked, pageAt_of hpage]
    unfold partlyUsed
    rw [if_pos hold, if_neg hnew]
  · rw [List.count_erase_of_ne hq]

end Page

theorem SlabView.move_reserve {old : ℕ} (h : SlabView s (.reserve p old)) (hpage : s.pages p = some page)
    (hused : page.spmUsed = old) :
    SlabMove s (s.setPage p (some (page.setUsed (old + 1)))) (.reserve p old) (.endReadReserved p) := by
  obtain ⟨hmem, hold⟩ := h.knows
  obtain ⟨hpos, hlt⟩ := (h.mem_iff hpage).mp hmem
  refine h.setUsed hpage (by omega) (by omega) (h.count_same hpage ⟨hpos, hlt⟩ (by omega)) (.inl rfl) trivial rfl
    (fun q => ?_) (fun _ => rfl) (fun _ => rfl) ?_ fun q hq => (if_neg (Ne.symm hq)).symm
  · rw [if_neg (by omega)]
    rfl
  · simp only [Place.pending, if_true]
    omega

theorem SlabView.move_last (h : SlabView s (.tryWrite p)) (hpage : s.pages p = some page) (hreaders : s.readers = 0)
    (hused : page.spmUsed = cfg.maxChunkCount - 1) :
    SlabMove s { s.setPage p (some (page.setUsed cfg.maxChunkCount)) with slabPages := s.slabPages.erase p } (.tryWrite p)
      (.scan p 0) := by
  have htwo := cfg.two_le
  refine h.setUsed hpage (by omega) le_rfl (h.count_erase hpage (by omega) (by omega)) (.inr hreaders)
    cfg.bitsofUsed_eq.1 rfl (fun q => ?_) (fun _ => rfl) (fun _ => rfl) ?_ fun q hq => (if_neg (Ne.symm hq)).symm
  · rw [if_neg (by omega)]
    rfl
  · simp only [Place.pending, if_true]
    omega

theorem SlabView.move_decUsed {old : ℕ} (h : SlabView s (.decUsed p old)) (hpage : s.pages p = some page)
    (hused : page.spmUsed = old) : SlabMove s (s.setPage p (some (page.setUsed (old - 1)))) (.decUsed p old) .idle := by
  obtain ⟨hone, hmax⟩ := h.knows
  have hle := (h.page p page hpage).2
  have hpending := h.pending_le hpage
  have hself : (Place.decUsed p old : Place cfg).pending p = 1 := if_pos rfl
  refine h.setUsed hpage (by omega) (by omega) (h.count_same hpage (by omega) (by omega)) (.inl rfl) trivial rfl
    (fun q => ?_) (fun _ => rfl) (fun _ => rfl) ?_ fun q hq => if_neg (Ne.symm hq)
  · rw [if_neg (by omega)]
    rfl
  · simp only [Place.pending, if_true]
    omega

theorem SlabView.move_freeLast (h : SlabView s (.freeLast p)) (hpage : s.pages p = some page) (hreaders : s.readers = 0)
    (hused : page.spmUsed = 1) :
    SlabMove s { s.setPage p (some (page.setUsed 0)) with slabPages := s.slabPages.erase p } (.freeLast p) (.rawFree p) := by
  have htwo := cfg.two_le
  refine h.setUsed hpage hused.ge (Nat.zero_le _) (h.count_erase hpage (by omega) (by omega)) (.inr hreaders) trivial rfl
    (fun q => ?_) (fun _ => rfl) (fun _ => rfl) ?_ fun q hq => if_neg (Ne.symm hq)
  · simp only [Place.returns, and_true, Nat.zero_add, eq_comm]
  · simp only [Place.pending, if_true]
    omega

theorem SlabView.move_freeFirst (h : SlabView s (.freeFirst p)) (hpage : s.pages p = some page) (hreaders : s.readers = 0)
    (hused : page.spmUsed = cfg.maxChunkCount) :
    SlabMove s { s.setPage p (some (page.setUsed (cfg.maxChunkCount - 1))) with slabPages := p :: s.slabPages }
      (.freeFirst p) .idle := by
  have htwo := cfg.two_le
  refine h.setUsed hpage (by omega) (Nat.sub_le _ _) (fun q => ?_) (.inr hreaders) trivial rfl (fun q => ?_)
    (fun _ => rfl) (fun _ => rfl) ?_ fun q hq => if_neg (Ne.symm hq)
  · split_ifs with hq
    · rw [hq, List.count_cons_self, h.linked, pageAt_of hpage]
      unfold partlyUsed
      rw [if_neg (by omega), if_pos (by omega)]
    · rw [List.count_cons_of_ne (Ne.symm hq)]
  · rw [if_neg (by omega)]
    rfl
  · simp only [Place.pending, if_true]
    omega

/-- The bits of a page change, and the chunks that were handed out. -/
theorem SlabView.setBits (h : SlabView s c) (hpage : s.pages p = some page) {page' : SlabPage cfg}
    (hused : page'.spmUsed = page.spmUsed) (hok : page'.Ok) {live : List ℕ}
    (hchunk : ∀ x, chunkBit (Function.update s.pages p (some page')) x + s.live.count x + c.clears x =
      chunkBit s.pages x + live.count x + c'.clears x)
    (hreads : c.reads = c'.reads) (hcreates : ∀ q, c.creates q = c'.creates q) (hreturns : ∀ q, c.returns q = c'.returns q)
    (hknows : c'.Knows s.slabPages)
    (hself : page.setBits.card + c.pending p = page'.setBits.card + c'.pending p)
    (hother : ∀ q, q ≠ p → c.pending q = c'.pending q) :
    SlabMove s { s.setPage p (some page') with live := live } c c' := by
  refine h.replace hpage hok (hused.trans_le (h.page p page hpage).2) (fun q => ?_) (.inl rfl) hknows hreads ?_ hother
    (fun q => ?_) hchunk hcreates
  · split_ifs with hq
    · have hlinked := h.linked p
      rwa [pageAt_of hpage, ← hused, ← hq] at hlinked
    · rfl
  · rw [hused]
    omega
  · rw [hused, hreturns]

theorem SlabView.dvd (h : SlabView s c) (hpage : s.pages p = some page) : cfg.pageSize ∣ p := by
  refine h.aligned p ?_
  have htaken := h.taken p
  rw [pageAt_of hpage] at htaken
  cases hp : s.taken p with
  | true => rfl
  | false =>
    rw [hp, Bool.toNat_false] at htaken
    omega

/-- The bit of a chunk that was free is set, and the chunk is handed out. -/
theorem SlabView.move_allocInWord {i : ℕ} {word : BitVec cfg.bitsofWord} (h : SlabView s (.allocInWord p i word))
    (hpage : s.pages p = some page) (hword : page.spUsed i = word) :
    SlabMove s { s.setPage p (some (page.setWord i (word ||| cfg.bitMask (~~~word).ctz.toNat))) with
      live := chunkAddr cfg p (i * cfg.bitsofWord + (~~~word).ctz.toNat) :: s.live } (.allocInWord p i word) .idle := by
  obtain ⟨hi, hmask⟩ := h.knows
  have hok := (h.page p page hpage).1
  subst hword
  obtain ⟨hb, hk, hfree⟩ := SlabPage.freeBit hok hi hmask
  generalize (~~~page.spUsed i).ctz.toNat = b at hb hk hfree
  have hok' := SlabPage.ok_or hok hb hk
  have hcard := SlabPage.setBits_or hok hb hk hfree
  refine h.setBits hpage SlabPage.spmUsed_setWord hok' (fun x => ?_) rfl (fun _ => rfl) (fun _ => rfl) trivial ?_
    fun q hq => if_neg (Ne.symm hq)
  · simp only [Place.clears, Nat.add_zero]
    by_cases hx : x = chunkAddr cfg p (i * cfg.bitsofWord + b)
    · rw [hx, List.count_cons_self, chunkBit_of (h.dvd hpage) hk (Function.update_self _ _ _),
        chunkBit_of (h.dvd hpage) hk hpage, SlabPage.bit_setWord_or hb, hfree, decide_eq_true rfl, Bool.false_or,
        Bool.toNat_true, Bool.toNat_false]
      omega
    · rw [List.count_cons_of_ne (Ne.symm hx), chunkBit_update]
      intro k hxk
      have hne : k ≠ i * cfg.bitsofWord + b := fun hk' => hx (hk' ▸ hxk)
      rw [pageAt_of hpage, Option.elim_some, SlabPage.bit_setWord_or hb, decide_eq_false hne, Bool.or_false]
  · simp only [Place.pending, if_true]
    omega

/-- The chunk that is freed has a bit. -/
theorem SlabView.bit_of_clears {x : ℕ} (h : SlabView s c) (hx : 1 ≤ s.live.count x + c.clears x) :
    x = chunkAddr cfg (pageOf cfg x) (indexOf cfg x) ∧
      ∃ page, s.pages (pageOf cfg x) = some page ∧ page.bit (indexOf cfg x) ∧ s.live.count x + c.clears x = 1 := by
  have hchunk := h.chunk x
  unfold chunkBit at hchunk
  split_ifs at hchunk with haddr
  · obtain ⟨page, hpage⟩ := exists_of_pageAt_pos (hx.trans hchunk)
    rw [pageAt_of hpage] at hchunk
    refine ⟨haddr, page, hpage, ?_, ?_⟩
    · cases hbit : page.bit (indexOf cfg x) with
      | true => rfl
      | false =>
        rw [hbit, Bool.toNat_false] at hchunk
        omega
    · have hone := Bool.toNat_le (page.bit (indexOf cfg x))
      omega
  · omega

theorem SlabView.move_clearBit {x : ℕ} (h : SlabView s (.clearBit x)) (hpage : s.pages (pageOf cfg x) = some page) :
    SlabMove s (s.setPage (pageOf cfg x) (some (page.setWord (indexOf cfg x / cfg.bitsofWord)
      (page.spUsed (indexOf cfg x / cfg.bitsofWord) &&& ~~~cfg.bitMask (indexOf cfg x % cfg.bitsofWord)))))
      (.clearBit x) (.againReadUsed (pageOf cfg x)) := by
  have hself : (Place.clearBit x : Place cfg).clears x = 1 := if_pos rfl
  obtain ⟨haddr, page', hpage', hbit, hcount⟩ := @SlabView.bit_of_clears _ _ _ x h (by omega)
  obtain rfl := Option.some.inj (hpage'.symm.trans hpage)
  have hok := (h.page _ page' hpage).1
  have hindex := hok _ hbit
  have hsplit : indexOf cfg x / cfg.bitsofWord * cfg.bitsofWord + indexOf cfg x % cfg.bitsofWord = indexOf cfg x :=
    Nat.div_add_mod' _ _
  have hb : indexOf cfg x % cfg.bitsofWord < cfg.bitsofWord := Nat.mod_lt _ cfg.bitsofWord_pos
  have hok' := @SlabPage.ok_and cfg page' (indexOf cfg x / cfg.bitsofWord) _ hok hb
  have hcard := @SlabPage.setBits_and cfg page' (indexOf cfg x / cfg.bitsofWord) _ hok hb (by rwa [hsplit])
  refine h.setBits hpage SlabPage.spmUsed_setWord hok' (fun y => ?_) rfl (fun _ => rfl) (fun _ => rfl) trivial ?_
    fun q hq => (if_neg (Ne.symm hq)).symm
  · by_cases hy : y = x
    · subst hy
      have hbefore := chunkBit_of (h.dvd hpage) hindex hpage
      have hafter := chunkBit_of (h.dvd hpage) hindex (Function.update_self (pageOf cfg y)
        (some (page'.setWord (indexOf cfg y / cfg.bitsofWord) (page'.spUsed (indexOf cfg y / cfg.bitsofWord) &&&
          ~~~cfg.bitMask (indexOf cfg y % cfg.bitsofWord)))) s.pages)
      rw [← haddr, hbit] at hbefore
      rw [← haddr, SlabPage.bit_setWord_and hb, hsplit, decide_eq_true rfl, Bool.not_true, Bool.and_false] at hafter
      rw [hbefore, hafter, hself, Bool.toNat_true, Bool.toNat_false]
      simp only [Place.clears]
      omega
    · have hother : (Place.clearBit x : Place cfg).clears y = 0 := if_neg (Ne.symm hy)
      rw [hother, chunkBit_update]
      · rfl
      intro k hyk
      have hne : k ≠ indexOf cfg x := fun hk => hy (by rw [hyk, hk, ← haddr])
      rw [pageAt_of hpage, Option.elim_some, SlabPage.bit_setWord_and hb, hsplit, decide_eq_false hne, Bool.not_false,
        Bool.and_true]
  · simp only [Place.pending, if_true]
    omega

theorem SlabView.move_free {x : ℕ} (h : SlabView s .idle) (hx : x ∈ s.live) :
    SlabMove s { s with live := s.live.erase x } .idle (.clearBit x) where
  readers := rfl
  taken := fun p => rfl
  used := fun p => rfl
  unused := fun p => rfl
  chunk := fun y => by
    have hpos := List.count_pos_iff.mpr hx
    simp only [Place.clears]
    split_ifs with hy
    · rw [← hy, List.count_erase_self]
      omega
    · rw [List.count_erase_of_ne (Ne.symm hy)]
  linked := h.linked
  page := h.page
  aligned := h.aligned
  knows := trivial
  locked := .inl rfl

theorem SlabView.pages_none (h : SlabView s c) (htaken : (s.taken p).toNat ≤ c.creates p) : s.pages p = none := by
  have hle := h.taken p
  cases hpage : s.pages p with
  | none => rfl
  | some page =>
    rw [pageAt_of hpage] at hle
    omega

theorem SlabView.move_rawMalloc (h : SlabView s .rawMalloc) (htaken : s.taken p = false) (hp : cfg.pageSize ∣ p) :
    SlabMove s { s with taken := Function.update s.taken p true } .rawMalloc (.newPage p) where
  readers := rfl
  taken := fun q => by
    simp only [Place.creates]
    by_cases hq : q = p
    · rw [hq, Function.update_self, htaken, if_pos rfl, Bool.toNat_true, Bool.toNat_false]
      omega
    · rw [Function.update_of_ne hq, if_neg (Ne.symm hq)]
  used := fun q => rfl
  unused := fun q => rfl
  chunk := fun x => rfl
  linked := h.linked
  page := h.page
  aligned := fun q hq => by
    dsimp only at hq
    by_cases heq : q = p
    · rwa [heq]
    · rw [Function.update_of_ne heq] at hq
      exact h.aligned q hq
  knows := trivial
  locked := .inl rfl

theorem SlabView.newPage (h : SlabView s (.newPage p)) : s.pages p = none ∧ s.taken p = true := by
  have hself : (Place.newPage p : Place cfg).creates p = 1 := if_pos rfl
  refine ⟨h.pages_none (by rw [hself]; exact Bool.toNat_le _), ?_⟩
  have hle := h.taken p
  rw [hself] at hle
  cases hp : s.taken p with
  | true => rfl
  | false =>
    rw [hp, Bool.toNat_false] at hle
    omega

theorem SlabView.move_newPage (h : SlabView s (.newPage p)) (hreaders : s.readers = 0) :
    SlabMove s { s.setPage p (some (SlabPage.fresh cfg)) with
      slabPages := p :: s.slabPages
      live := chunkAddr cfg p 0 :: s.live } (.newPage p) .idle := by
  have htwo := cfg.two_le
  have hself : (Place.newPage p : Place cfg).creates p = 1 := if_pos rfl
  obtain ⟨hpage, htaken⟩ := h.newPage
  have hempty : s.slabPages.count p = 0 := by
    rw [h.linked, pageAt_none hpage]
    exact if_neg (by omega)
  constructor
  · rfl
  · intro q
    unfold Slab.setPage
    dsimp only
    rw [pageAt_update]
    by_cases hq : q = p
    · rw [hq, pageAt_none hpage, if_pos rfl, hself, Option.elim_some]
      rfl
    · have hother : (Place.newPage p : Place cfg).creates q = 0 := if_neg (Ne.symm hq)
      rw [if_neg hq, hother]
      rfl
  · intro q
    unfold Slab.setPage
    dsimp only
    rw [pageAt_update, pageAt_update]
    split_ifs with hq
    · rw [hq, pageAt_none hpage, pageAt_none hpage, Option.elim_some, Option.elim_some, SlabPage.setBits_fresh]
      rfl
    · rfl
  · intro q
    unfold Slab.setPage
    dsimp only
    rw [pageAt_update]
    split_ifs with hq
    · rw [hq, pageAt_none hpage]
      rfl
    · rfl
  · intro x
    unfold Slab.setPage
    dsimp only
    have hdvd := h.aligned p htaken
    have hzero : 0 < cfg.maxChunkCount := by omega
    by_cases hx : x = chunkAddr cfg p 0
    · have hbefore : chunkBit s.pages x = 0 := by
        unfold chunkBit
        rw [hx, pageOf_chunkAddr hdvd hzero, indexOf_chunkAddr hdvd hzero, if_pos rfl, pageAt_none hpage]
      rw [hbefore, hx, List.count_cons_self, chunkBit_of hdvd hzero (Function.update_self _ _ _), SlabPage.bit_fresh]
      simp only [Place.clears, decide_true, Bool.toNat_true]
      omega
    · rw [List.count_cons_of_ne (Ne.symm hx), chunkBit_update]
      · rfl
      intro k hxk
      have hne : k ≠ 0 := fun hk => hx (hk ▸ hxk)
      rw [pageAt_none hpage, Option.elim_some, SlabPage.bit_fresh, decide_eq_false hne]
      rfl
  · intro q
    unfold Slab.setPage
    dsimp only
    rw [pageAt_update]
    split_ifs with hq
    · rw [hq, List.count_cons_self, hempty]
      exact (if_pos ⟨le_rfl, htwo⟩).symm
    · rw [List.count_cons_of_ne (Ne.symm hq), h.linked]
  · intro q page hq
    unfold Slab.setPage at hq
    dsimp only at hq
    by_cases heq : q = p
    · subst heq
      rw [Function.update_self, Option.some.injEq] at hq
      subst hq
      refine ⟨SlabPage.ok_fresh, ?_⟩
      change 1 ≤ _
      omega
    · rw [Function.update_of_ne heq] at hq
      exact h.page q page hq
  · exact h.aligned
  · exact trivial
  · exact .inr hreaders

/-- A page goes back only when none of its chunks is in use. -/
theorem SlabView.empty_of_rawFree (h : SlabView s (.rawFree p)) :
    ∃ page, s.pages p = some page ∧ page.spmUsed = 0 ∧ page.setBits = ∅ := by
  have hself : (Place.rawFree p : Place cfg).returns p = 1 := if_pos rfl
  have hunused := h.unused p
  rw [hself] at hunused
  obtain ⟨page, hpage⟩ := exists_of_pageAt_pos hunused
  rw [pageAt_of hpage] at hunused
  have hused : page.spmUsed = 0 := by
    by_contra hne
    rw [if_neg hne] at hunused
    omega
  have hpending := h.pending_le hpage
  exact ⟨page, hpage, hused, Finset.card_eq_zero.mp (by omega)⟩

theorem SlabView.move_rawFree (h : SlabView s (.rawFree p)) :
    SlabMove s { s.setPage p none with taken := Function.update s.taken p false } (.rawFree p) .idle := by
  obtain ⟨page, hpage, hused, hbits⟩ := h.empty_of_rawFree
  have hok := (h.page p page hpage).1
  have htaken : s.taken p = true := by
    have hle := h.taken p
    rw [pageAt_of hpage] at hle
    cases hp : s.taken p with
    | true => rfl
    | false =>
      rw [hp, Bool.toNat_false] at hle
      omega
  constructor
  · rfl
  · intro q
    unfold Slab.setPage
    dsimp only
    rw [pageAt_update]
    by_cases hq : q = p
    · rw [hq, Function.update_self, pageAt_of hpage, if_pos rfl, htaken]
      rfl
    · rw [if_neg hq, Function.update_of_ne hq]
      rfl
  · intro q
    unfold Slab.setPage
    dsimp only
    rw [pageAt_update, pageAt_update]
    split_ifs with hq
    · rw [hq, pageAt_of hpage, pageAt_of hpage, hused, hbits]
      rfl
    · rfl
  · intro q
    unfold Slab.setPage
    dsimp only
    rw [pageAt_update]
    by_cases hq : q = p
    · rw [hq, pageAt_of hpage, hused, if_pos rfl, if_pos rfl]
      simp only [Place.returns, if_true, Option.elim_none]
    · have hother : (Place.rawFree p : Place cfg).returns q = 0 := if_neg (Ne.symm hq)
      rw [if_neg hq, hother]
      rfl
  · intro x
    unfold Slab.setPage
    dsimp only
    rw [chunkBit_update]
    · rfl
    intro k _
    have hclear : page.bit k = false := by
      cases hbit : page.bit k with
      | false => rfl
      | true =>
        rw [← SlabPage.mem_setBits hok, hbits] at hbit
        exact absurd hbit (Finset.notMem_empty k)
    rw [pageAt_of hpage, hclear]
    rfl
  · intro q
    unfold Slab.setPage
    dsimp only
    rw [h.linked, pageAt_update]
    split_ifs with hq
    · rw [hq, pageAt_of hpage, hused]
      rfl
    · rfl
  · intro q page' hq
    unfold Slab.setPage at hq
    dsimp only at hq
    by_cases heq : q = p
    · subst heq
      rw [Function.update_self] at hq
      cases hq
    · rw [Function.update_of_ne heq] at hq
      exact h.page q page' hq
  · intro q hq
    dsimp only at hq
    by_cases heq : q = p
    · subst heq
      rw [Function.update_self] at hq
      cases hq
    · rw [Function.update_of_ne heq] at hq
      exact h.aligned q hq
  · exact trivial
  · exact .inl rfl

theorem SlabView.nextWord_lt (cfg : SlabConfig) (i : ℕ) : cfg.nextWord i < cfg.elemofUsed := by
  have hpos := cfg.bitsofUsed_eq.1
  unfold SlabConfig.nextWord
  split_ifs with hi
  · exact hi
  · exact hpos

theorem mallocStep_moves {op : SlabOp} (h : SlabView s c) (hstep : mallocStep s c op = some (s', c')) :
    SlabMove s s' c c' := by
  unfold mallocStep at hstep
  split at hstep
  · cases hstep
    exact h.lock (s.readers + 1) rfl trivial (.of_eq fun _ => rfl)
  · split at hstep
    · cases hstep
      rename_i page hhead
      exact h.lock s.readers rfl (List.mem_of_head? hhead) (.of_eq fun _ => rfl)
    · cases hstep
      exact h.lock s.readers rfl trivial (.of_eq fun _ => rfl)
  · rename_i p
    obtain ⟨page, hpage, hstep⟩ := of_bind hstep
    split_ifs at hstep with hfull
    · cases hstep
      exact h.lock s.readers rfl trivial (.of_eq fun _ => rfl)
    · cases hstep
      exact h.lock s.readers rfl ⟨h.knows, Nat.lt_of_not_le hfull⟩ (.of_eq fun _ => rfl)
  · obtain ⟨page, hpage, hstep⟩ := of_bind hstep
    split_ifs at hstep with hused
    · cases hstep
      exact h.move_reserve hpage hused
    · cases hstep
      exact h.lock s.readers rfl h.knows.1 (.of_eq fun _ => rfl)
  · cases hstep
    exact h.lock (s.readers - 1) (Nat.sub_add_cancel h.readers) trivial (.of_eq fun _ => rfl)
  · cases hstep
    exact h.lock (s.readers - 1) (Nat.sub_add_cancel h.readers) cfg.bitsofUsed_eq.1 (.of_eq fun _ => rfl)
  · cases hstep
    exact h.lock (s.readers - 1) (Nat.sub_add_cancel h.readers) trivial (.of_eq fun _ => rfl)
  · split_ifs at hstep with hreaders hhead
    · obtain ⟨page, hpage, hstep⟩ := of_bind hstep
      split_ifs at hstep with hused
      · cases hstep
        exact h.move_last hpage (not_not.mp hreaders) hused
      · cases hstep
        exact h.lock (s.readers + 1) rfl trivial (.of_eq fun _ => rfl)
    · cases hstep
      exact h.lock (s.readers + 1) rfl trivial (.of_eq fun _ => rfl)
  · cases hstep
    exact h.lock s.readers rfl trivial (.of_eq fun _ => rfl)
  · split_ifs at hstep
    · cases hstep
      exact h.lock s.readers rfl trivial (.of_eq fun _ => rfl)
    · cases hstep
      exact h.lock s.readers rfl trivial (.of_eq fun _ => rfl)
  · cases hstep
    exact h.lock s.readers rfl trivial (.of_eq fun _ => rfl)
  · split_ifs at hstep with hfresh
    cases hstep
    exact h.move_rawMalloc hfresh.1 hfresh.2
  · split_ifs at hstep with hreaders
    cases hstep
    exact h.move_newPage (not_not.mp hreaders)
  · obtain ⟨page, hpage, hstep⟩ := of_bind hstep
    dsimp only at hstep
    split_ifs at hstep with hword
    · cases hstep
      exact h.lock s.readers rfl ⟨h.knows, hword⟩ (.of_eq fun _ => rfl)
    · cases hstep
      exact h.lock s.readers rfl (SlabView.nextWord_lt cfg _) (.of_eq fun _ => rfl)
  · obtain ⟨page, hpage, hstep⟩ := of_bind hstep
    split_ifs at hstep with hword
    · cases hstep
      exact h.move_allocInWord hpage hword
    · cases hstep
      exact h.lock s.readers rfl (SlabView.nextWord_lt cfg _) (.of_eq fun _ => rfl)
  · cases hstep
    exact h.lock s.readers rfl (SlabView.nextWord_lt cfg _) (.of_eq fun _ => rfl)
  · cases hstep

theorem freeStep_moves {op : SlabOp} (h : SlabView s c) (hstep : freeStep s c op = some (s', c')) :
    SlabMove s s' c c' := by
  unfold freeStep at hstep
  split at hstep
  · obtain ⟨page, hpage, hstep⟩ := of_bind hstep
    cases hstep
    exact h.move_clearBit hpage
  · obtain ⟨page, hpage, hstep⟩ := of_bind hstep
    split_ifs at hstep with hone hmax
    · cases hstep
      exact h.lock s.readers rfl trivial (.of_eq fun _ => rfl)
    · cases hstep
      exact h.lock s.readers rfl trivial (.of_eq fun _ => rfl)
    · cases hstep
      exact h.lock s.readers rfl ⟨hone, hmax⟩ (.of_eq fun _ => rfl)
  · split_ifs at hstep with hreaders
    obtain ⟨page, hpage, hstep⟩ := of_bind hstep
    split_ifs at hstep with hused
    · cases hstep
      exact h.move_freeLast hpage (not_not.mp hreaders) hused
    · cases hstep
      exact h.lock s.readers rfl trivial (.of_eq fun _ => rfl)
  · split_ifs at hstep with hreaders
    obtain ⟨page, hpage, hstep⟩ := of_bind hstep
    split_ifs at hstep with hused
    · cases hstep
      exact h.move_freeFirst hpage (not_not.mp hreaders) hused
    · cases hstep
      exact h.lock s.readers rfl trivial (.of_eq fun _ => rfl)
  · obtain ⟨page, hpage, hstep⟩ := of_bind hstep
    split_ifs at hstep with hused
    · cases hstep
      exact h.move_decUsed hpage hused
    · cases hstep
      exact h.lock s.readers rfl trivial (.of_eq fun _ => rfl)
  · cases hstep
    exact h.lock s.readers rfl trivial (.of_eq fun _ => rfl)
  · cases hstep
    exact h.move_rawFree
  · cases hstep

theorem slabStep_moves {op : SlabOp} (h : SlabView s c) (hstep : slabStep s c op = some (s', c')) :
    SlabMove s s' c c' := by
  unfold slabStep at hstep
  split at hstep
  · cases hstep
    exact h.lock s.readers rfl trivial (.of_eq fun _ => rfl)
  · split_ifs at hstep with hlive
    cases hstep
    exact h.move_free hlive
  · cases hmalloc : mallocStep s c op with
    | some r =>
      rw [hmalloc] at hstep
      cases hstep
      exact mallocStep_moves h hmalloc
    | none =>
      rw [hmalloc] at hstep
      exact freeStep_moves h hstep

end Moves

/-! ### Bits and counters -/

section Effects

variable {s s' : Slab cfg} {c c' : Place cfg} {op : SlabOp} {p q x k : ℕ} {page page' : SlabPage cfg} {b : Bool}

/-- A bit of a page. -/
def bitAt (pages : ℕ → Option (SlabPage cfg)) (p k : ℕ) : Bool := (pages p).elim false fun page => page.bit k

/-- The bit of a chunk becomes `b`, which it was not, and no other bit changes. -/
def BitChanges (s s' : Slab cfg) (x : ℕ) (b : Bool) : Prop :=
  bitAt s.pages (pageOf cfg x) (indexOf cfg x) = !b ∧
    ∀ p k, bitAt s'.pages p k = if p = pageOf cfg x ∧ k = indexOf cfg x then b else bitAt s.pages p k

/-- The page whose counter is still to be decremented for a chunk that has no bit any more. -/
def Place.drops? : Place cfg → Option ℕ
  | .againReadUsed p | .freeLast p | .freeFirst p | .decUsed p _ => some p
  | _ => none

/-- A chunk gets its bit when it is handed out. A free clears this bit and no other one, and then decrements the counter
of the page once. -/
structure SlabEffects (s s' : Slab cfg) (c c' : Place cfg) (op : SlabOp) : Prop where
  mallocs : ∀ x ∈ s'.live, x ∉ s.live → c' = .idle ∧ BitChanges s s' x true
  frees : ∀ x, c = .idle → op = .free x → c' = .clearBit x ∧ s' = { s with live := s.live.erase x }
  clears : ∀ x, c = .clearBit x → c' = .againReadUsed (pageOf cfg x) ∧ BitChanges s s' x false ∧
    ∀ p, pageAt s'.pages p SlabPage.spmUsed = pageAt s.pages p SlabPage.spmUsed
  drops : ∀ p, c.drops? = some p → (∀ q k, bitAt s'.pages q k = bitAt s.pages q k) ∧
    (s'.pages = s.pages ∧ c'.drops? = some p ∨ (c' = .idle ∨ c' = .rawFree p) ∧
      ∀ q, pageAt s.pages q SlabPage.spmUsed = pageAt s'.pages q SlabPage.spmUsed + if q = p then 1 else 0)

theorem bitAt_of {pages : ℕ → Option (SlabPage cfg)} (h : pages p = some page) : bitAt pages p k = page.bit k := by
  unfold bitAt
  rw [h]
  rfl

theorem bitAt_update {pages : ℕ → Option (SlabPage cfg)} (o : Option (SlabPage cfg)) :
    bitAt (Function.update pages p o) q k = if q = p then o.elim false fun page => page.bit k else bitAt pages q k := by
  unfold bitAt
  by_cases hq : q = p
  · rw [if_pos hq, hq, Function.update_self]
  · rw [if_neg hq, Function.update_of_ne hq]

/-- A write to the page of a chunk. -/
theorem bitChanges_update (hp : pageOf cfg x = p) (hk : indexOf cfg x = k) (hbit : bitAt s.pages p k = !b)
    (hpages : s'.pages = Function.update s.pages p (some page'))
    (hbits : ∀ j, page'.bit j = if j = k then b else bitAt s.pages p j) : BitChanges s s' x b := by
  subst hp hk
  refine ⟨hbit, fun q j => ?_⟩
  rw [hpages, bitAt_update]
  by_cases hq : q = pageOf cfg x
  · simp only [hq, if_true, Option.elim_some, hbits, true_and]
  · simp only [hq, if_false, false_and]

theorem live_of_mallocStep (hstep : mallocStep s c op = some (s', c')) : s'.live = s.live ∨ c' = .idle ∧
    ((∃ p i page, c = .allocInWord p i (page.spUsed i) ∧ s.pages p = some page ∧
      s'.pages = Function.update s.pages p (some (page.setWord i (page.spUsed i ||| cfg.bitMask (~~~page.spUsed i).ctz.toNat))) ∧
      s'.live = chunkAddr cfg p (i * cfg.bitsofWord + (~~~page.spUsed i).ctz.toNat) :: s.live) ∨
    ∃ p, c = .newPage p ∧ s'.pages = Function.update s.pages p (some (SlabPage.fresh cfg)) ∧
      s'.live = chunkAddr cfg p 0 :: s.live) := by
  unfold mallocStep at hstep
  split at hstep
  case h_13 p =>
    split_ifs at hstep
    cases hstep
    exact .inr ⟨rfl, .inr ⟨p, rfl, rfl, rfl⟩⟩
  case h_15 p i word =>
    obtain ⟨page, hpage, hstep⟩ := of_bind hstep
    split_ifs at hstep with hword
    · cases hstep
      exact .inr ⟨rfl, .inl ⟨p, i, page, by rw [hword], hpage, by rw [hword]; rfl, by rw [hword]⟩⟩
    · cases hstep
      exact .inl rfl
  all_goals
    refine .inl ?_
    grind [Slab.setPage, Option.bind_eq_some_iff]

theorem live_of_freeStep (hstep : freeStep s c op = some (s', c')) : s'.live = s.live := by
  unfold freeStep at hstep
  split at hstep
  all_goals grind [Slab.setPage, Option.bind_eq_some_iff]

/-- A chunk that is handed out gets its bit. -/
theorem SlabView.mallocs (h : SlabView s c) (hstep : slabStep s c op = some (s', c')) (hx : x ∈ s'.live) (hnew : x ∉ s.live) :
    c' = .idle ∧ BitChanges s s' x true := by
  unfold slabStep at hstep
  split at hstep
  · cases hstep
    exact absurd hx hnew
  · split_ifs at hstep
    cases hstep
    exact absurd (List.mem_of_mem_erase hx) hnew
  · cases hmalloc : mallocStep s c op with
    | none =>
      rw [hmalloc] at hstep
      rw [live_of_freeStep hstep] at hx
      exact absurd hx hnew
    | some r =>
      rw [hmalloc] at hstep
      cases hstep
      rcases live_of_mallocStep hmalloc with hsame | ⟨hidle, ⟨p, i, page, rfl, hpage, hpages, hlive⟩ | ⟨p, rfl, hpages, hlive⟩⟩
      · exact absurd (hsame ▸ hx) hnew
      · -- the bit of a free chunk in a page that others use
        obtain ⟨hi, hmask⟩ := h.knows
        obtain ⟨hb, hk, hfree⟩ := SlabPage.freeBit (h.page p page hpage).1 hi hmask
        rw [hlive] at hx
        obtain rfl := (List.mem_cons.mp hx).resolve_right hnew
        refine ⟨hidle, bitChanges_update (pageOf_chunkAddr (h.dvd hpage) hk) (indexOf_chunkAddr (h.dvd hpage) hk) ?_ hpages
          fun j => ?_⟩
        · rw [bitAt_of hpage, hfree]
          rfl
        · rw [bitAt_of hpage, SlabPage.bit_setWord_or hb]
          by_cases hj : j = i * cfg.bitsofWord + (~~~page.spUsed i).ctz.toNat <;> simp [hj]
      · -- the first bit of a new page
        obtain ⟨hpage, htaken⟩ := h.newPage
        have hzero : 0 < cfg.maxChunkCount := Nat.lt_of_lt_of_le Nat.zero_lt_two cfg.two_le
        have hnone : ∀ j, bitAt s.pages p j = false := fun j => by
          unfold bitAt
          rw [hpage]
          rfl
        rw [hlive] at hx
        obtain rfl := (List.mem_cons.mp hx).resolve_right hnew
        have hdvd := h.aligned p htaken
        refine ⟨hidle, bitChanges_update (pageOf_chunkAddr hdvd hzero) (indexOf_chunkAddr hdvd hzero) (hnone 0) hpages
          fun j => ?_⟩
        rw [hnone, SlabPage.bit_fresh]
        by_cases hj : j = 0 <;> simp [hj]

/-- The first step of a free clears the bit of its chunk. -/
theorem SlabView.clears (h : SlabView s (.clearBit x)) (hstep : slabStep s (.clearBit x) op = some (s', c')) :
    c' = .againReadUsed (pageOf cfg x) ∧ BitChanges s s' x false ∧
      ∀ p, pageAt s'.pages p SlabPage.spmUsed = pageAt s.pages p SlabPage.spmUsed := by
  have hself : (Place.clearBit x : Place cfg).clears x = 1 := if_pos rfl
  obtain ⟨-, page, hpage, hbit, -⟩ := @SlabView.bit_of_clears _ _ _ x h (by omega)
  have hsplit : indexOf cfg x / cfg.bitsofWord * cfg.bitsofWord + indexOf cfg x % cfg.bitsofWord = indexOf cfg x :=
    Nat.div_add_mod' _ _
  have hb : indexOf cfg x % cfg.bitsofWord < cfg.bitsofWord := Nat.mod_lt _ cfg.bitsofWord_pos
  cases op with
  | run =>
    have hfree : freeStep s (.clearBit x) .run = some (s', c') := hstep
    unfold freeStep at hfree
    dsimp only at hfree
    rw [hpage] at hfree
    cases hfree
    refine ⟨rfl, bitChanges_update rfl rfl ?_ rfl fun k => ?_, fun p => ?_⟩
    · rw [bitAt_of hpage, hbit]
      rfl
    · rw [bitAt_of hpage, SlabPage.bit_setWord_and hb, hsplit]
      by_cases hk : k = indexOf cfg x <;> simp [hk]
    · unfold Slab.setPage
      dsimp only
      rw [pageAt_update]
      split_ifs with hp
      · rw [hp, pageAt_of hpage]
        rfl
      · rfl
  | malloc | free | fail | raw => cases hstep

/-- The counter of a page is one lower, and the bits are as they were. -/
theorem drops_setUsed {n : ℕ} (hpage : s.pages p = some page) (hn : page.spmUsed = n + 1) :
    (∀ q k, bitAt (Function.update s.pages p (some (page.setUsed n))) q k = bitAt s.pages q k) ∧
      ∀ q, pageAt s.pages q SlabPage.spmUsed =
        pageAt (Function.update s.pages p (some (page.setUsed n))) q SlabPage.spmUsed + if q = p then 1 else 0 := by
  constructor
  · intro q k
    rw [bitAt_update]
    split_ifs with hq
    · rw [hq, bitAt_of hpage]
      rfl
    · rfl
  · intro q
    rw [pageAt_update]
    split_ifs with hq
    · rw [hq, pageAt_of hpage]
      exact hn
    · rfl

theorem slabStep_of_drops (hc : c.drops? = some p) : slabStep s c op = freeStep s c op := by
  cases c with
  | againReadUsed | freeLast | freeFirst | decUsed => cases op <;> rfl
  | _ => cases hc

/-- The rest of a free decrements the counter of the page once, in its last step. -/
theorem SlabView.drops (h : SlabView s c) (hc : c.drops? = some p) (hstep : slabStep s c op = some (s', c')) :
    (∀ q k, bitAt s'.pages q k = bitAt s.pages q k) ∧
      (s'.pages = s.pages ∧ c'.drops? = some p ∨ (c' = .idle ∨ c' = .rawFree p) ∧
        ∀ q, pageAt s.pages q SlabPage.spmUsed = pageAt s'.pages q SlabPage.spmUsed + if q = p then 1 else 0) := by
  have htwo := cfg.two_le
  rw [slabStep_of_drops hc] at hstep
  unfold freeStep at hstep
  split at hstep
  · cases hc
  · obtain ⟨page, hpage, hstep⟩ := of_bind hstep
    split_ifs at hstep <;> cases hstep <;> exact ⟨fun _ _ => rfl, .inl ⟨rfl, hc⟩⟩
  · split_ifs at hstep
    obtain ⟨page, hpage, hstep⟩ := of_bind hstep
    obtain rfl := Option.some.inj hc
    split_ifs at hstep with hused
    · cases hstep
      obtain ⟨hbits, hcount⟩ := drops_setUsed hpage hused
      exact ⟨hbits, .inr ⟨.inr rfl, hcount⟩⟩
    · cases hstep
      exact ⟨fun _ _ => rfl, .inl ⟨rfl, rfl⟩⟩
  · split_ifs at hstep
    obtain ⟨page, hpage, hstep⟩ := of_bind hstep
    obtain rfl := Option.some.inj hc
    split_ifs at hstep with hused
    · cases hstep
      obtain ⟨hbits, hcount⟩ := drops_setUsed (n := cfg.maxChunkCount - 1) hpage (by omega)
      exact ⟨hbits, .inr ⟨.inl rfl, hcount⟩⟩
    · cases hstep
      exact ⟨fun _ _ => rfl, .inl ⟨rfl, rfl⟩⟩
  · rename_i q old
    obtain ⟨page, hpage, hstep⟩ := of_bind hstep
    obtain rfl := Option.some.inj hc
    split_ifs at hstep with hused
    · cases hstep
      -- the caller itself holds one of the counts
      have hpending := h.pending_le hpage
      have hself : (Place.decUsed q old : Place cfg).pending q = 1 := if_pos rfl
      obtain ⟨hbits, hcount⟩ := drops_setUsed (n := old - 1) hpage (by omega)
      exact ⟨hbits, .inr ⟨.inl rfl, hcount⟩⟩
    · cases hstep
      exact ⟨fun _ _ => rfl, .inl ⟨rfl, rfl⟩⟩
  · cases hstep
    exact ⟨fun _ _ => rfl, .inl ⟨rfl, hc⟩⟩
  · cases hc
  · cases hstep

theorem SlabView.effects (h : SlabView s c) (hstep : slabStep s c op = some (s', c')) : SlabEffects s s' c c' op where
  mallocs _ hx hnew := h.mallocs hstep hx hnew
  frees x hc hop := by
    subst hc hop
    unfold slabStep at hstep
    dsimp only at hstep
    split_ifs at hstep
    cases hstep
    exact ⟨rfl, rfl⟩
  clears x hc := by
    subst hc
    exact h.clears hstep
  drops _ hc := h.drops hc hstep

end Effects

/-! ### Runs -/

section Runs

variable {w : World ι (Slab cfg) (Place cfg)} {s : Slab cfg} {p i j : ℕ} {page : SlabPage cfg}

theorem slabInv_noPages : SlabInv (noPages ι cfg) where
  readers := by
    rw [@total_eq_zero ι (Place cfg) _ Place.reads (noPages ι cfg).place fun _ => rfl]
    rfl
  taken := fun p => by
    rw [@total_eq_zero ι (Place cfg) _ (Place.creates p) (noPages ι cfg).place fun _ => rfl]
    rfl
  used := fun p => by
    rw [@total_eq_zero ι (Place cfg) _ (Place.pending p) (noPages ι cfg).place fun _ => rfl]
    rfl
  unused := fun p => by
    rw [@total_eq_zero ι (Place cfg) _ (Place.returns p) (noPages ι cfg).place fun _ => rfl]
    rfl
  chunk := fun x => by
    rw [@total_eq_zero ι (Place cfg) _ (Place.clears x) (noPages ι cfg).place fun _ => rfl]
    unfold chunkBit
    split_ifs <;> rfl
  linked := fun p => rfl
  page := fun p page h => by cases h
  aligned := fun p h => by cases h
  knows := fun i => trivial

theorem slabInv_of_reachable [DecidableEq ι] (h : Reachable slabStep (noPages ι cfg) w) : SlabInv w := by
  refine h.invariant SlabInv slabInv_noPages fun w w' hw hstep => ?_
  obtain ⟨i, op, hop⟩ := hstep
  exact hw.move (slabStep_moves (hw.view i) hop)

/-- A caller that runs alone. -/
def runAlone : ℕ → Slab cfg × Place cfg → Option (Slab cfg × Place cfg)
  | 0, r => some r
  | n + 1, r => slabStep r.1 r.2 .run >>= runAlone n

/-- The search ends at a word that is not full. -/
theorem runAlone_scan (hpage : s.pages p = some page) (hi : i < cfg.elemofUsed) (hj : j < cfg.elemofUsed)
    (hword : page.spUsed j ≠ cfg.maskfor j) : ∃ n s', runAlone n (s, .scan p i) = some (s', .idle) := by
  -- the words in front of `j`, where the loop may have to start again
  induction hd : (if i ≤ j then j - i else cfg.elemofUsed - i + j) using Nat.strong_induction_on generalizing i with
  | _ d ih =>
    by_cases hstop : page.spUsed i ≠ cfg.maskfor i
    · have hread : slabStep s (.scan p i) .run = some (s, .allocInWord p i (page.spUsed i)) := by
        unfold slabStep mallocStep
        dsimp only
        rw [hpage]
        exact congrArg (· <|> _) (if_pos hstop)
      have halloc : ∃ s', slabStep s (.allocInWord p i (page.spUsed i)) .run = some (s', .idle) := by
        unfold slabStep mallocStep
        dsimp only
        rw [hpage]
        exact ⟨_, congrArg (· <|> _) (if_pos rfl)⟩
      obtain ⟨s', halloc⟩ := halloc
      refine ⟨2, s', ?_⟩
      unfold runAlone
      rw [hread]
      unfold runAlone
      exact (congrArg (· >>= runAlone 0) halloc :)
    · have hread : slabStep s (.scan p i) .run = some (s, .scan p (cfg.nextWord i)) := by
        unfold slabStep mallocStep
        dsimp only
        rw [hpage]
        exact congrArg (· <|> _) (if_neg hstop)
      have hne : i ≠ j := fun heq => hstop (heq ▸ hword)
      have hless : (if cfg.nextWord i ≤ j then j - cfg.nextWord i else cfg.elemofUsed - cfg.nextWord i + j) < d := by
        rw [← hd]
        unfold SlabConfig.nextWord
        split_ifs <;> omega
      obtain ⟨n, s', hrun⟩ := ih _ hless (SlabView.nextWord_lt cfg i) rfl
      refine ⟨n + 1, s', ?_⟩
      unfold runAlone
      rw [hread]
      exact hrun

/-- The counter of a page is decremented, by a caller that runs alone. -/
theorem runAlone_againReadUsed (hpage : s.pages p = some page) (hreaders : s.readers = 0) :
    ∃ n s', runAlone n (s, .againReadUsed p) = some (s', .idle) := by
  by_cases hone : page.spmUsed = 1
  · refine ⟨3, ?_⟩
    simp [runAlone, slabStep, mallocStep, freeStep, hpage, hone, hreaders]
  by_cases hmax : page.spmUsed = cfg.maxChunkCount
  · have hne : cfg.maxChunkCount ≠ 1 := hmax ▸ hone
    refine ⟨2, ?_⟩
    simp [runAlone, slabStep, mallocStep, freeStep, hpage, hmax, hne, hreaders]
  · refine ⟨2, ?_⟩
    simp [runAlone, slabStep, mallocStep, freeStep, hpage, hone, hmax]

/-- A free ends, in a caller that runs alone. -/
theorem runAlone_drops {c : Place cfg} (hc : c.drops? = some p) (hpage : s.pages p = some page) (hreaders : s.readers = 0) :
    ∃ n s', runAlone n (s, c) = some (s', .idle) := by
  have hagain := runAlone_againReadUsed hpage hreaders
  cases c with
  | againReadUsed q =>
    obtain rfl := Option.some.inj hc
    exact hagain
  | freeLast q =>
    obtain rfl := Option.some.inj hc
    by_cases hone : page.spmUsed = 1
    · refine ⟨2, ?_⟩
      simp [runAlone, slabStep, mallocStep, freeStep, hpage, hone, hreaders]
    · obtain ⟨n, s', hrun⟩ := hagain
      refine ⟨n + 1, s', ?_⟩
      simpa [runAlone, slabStep, mallocStep, freeStep, hpage, hone, hreaders] using hrun
  | freeFirst q =>
    obtain rfl := Option.some.inj hc
    by_cases hmax : page.spmUsed = cfg.maxChunkCount
    · refine ⟨1, ?_⟩
      simp [runAlone, slabStep, mallocStep, freeStep, hpage, hmax, hreaders]
    · obtain ⟨n, s', hrun⟩ := hagain
      refine ⟨n + 1, s', ?_⟩
      simpa [runAlone, slabStep, mallocStep, freeStep, hpage, hmax, hreaders] using hrun
  | decUsed q old =>
    obtain rfl := Option.some.inj hc
    by_cases hused : page.spmUsed = old
    · refine ⟨1, ?_⟩
      simp [runAlone, slabStep, mallocStep, freeStep, hpage, hused]
    · obtain ⟨n, s', hrun⟩ := hagain
      refine ⟨n + 1, s', ?_⟩
      simpa [runAlone, slabStep, mallocStep, freeStep, hpage, hused] using hrun
  | _ => cases hc

theorem runAlone_clearBit {x : ℕ} (hpage : s.pages (pageOf cfg x) = some page) (hreaders : s.readers = 0) :
    ∃ n s', runAlone n (s, .clearBit x) = some (s', .idle) := by
  have hnew : ∀ page' : SlabPage cfg, (s.setPage (pageOf cfg x) (some page')).pages (pageOf cfg x) = some page' :=
    fun page' => Function.update_self _ _ _
  obtain ⟨n, s', hrun⟩ := runAlone_againReadUsed (hnew (page.setWord (indexOf cfg x / cfg.bitsofWord)
    (page.spUsed (indexOf cfg x / cfg.bitsofWord) &&& ~~~cfg.bitMask (indexOf cfg x % cfg.bitsofWord)))) hreaders
  refine ⟨n + 1, s', ?_⟩
  simpa [runAlone, slabStep, mallocStep, freeStep, hpage] using hrun

/-- The page in which a caller has reserved a chunk. -/
def Place.reserved? : Place cfg → Option ℕ
  | .endReadReserved p | .scan p _ | .allocInWord p _ _ => some p
  | _ => none

/-- The books of the allocator. -/
structure SlabSafe (w : World ι (Slab cfg) (Place cfg)) : Prop where
  /-- No chunk was handed out twice. -/
  live_nodup : w.shared.live.Nodup
  /-- A chunk that was handed out, and one that is being freed, has its bit. -/
  live_bit : ∀ x, (x ∈ w.shared.live ∨ ∃ i, w.place i = .clearBit x) →
    x = chunkAddr cfg (pageOf cfg x) (indexOf cfg x) ∧ indexOf cfg x < cfg.maxChunkCount ∧
      ∃ page, w.shared.pages (pageOf cfg x) = some page ∧ page.bit (indexOf cfg x)
  bits_le : ∀ p page, w.shared.pages p = some page → page.setBits.card ≤ page.spmUsed
  bits_eq : (∀ i, w.place i = .idle) → ∀ p page, w.shared.pages p = some page → page.setBits.card = page.spmUsed
  linked : ∀ p page, w.shared.pages p = some page → 1 ≤ page.spmUsed → page.spmUsed ≤ cfg.maxChunkCount - 1 →
    w.shared.slabPages.count p = 1
  full : ∀ p page, w.shared.pages p = some page → page.spmUsed = cfg.maxChunkCount → p ∉ w.shared.slabPages
  /-- A page that is returned is empty. -/
  returned : ∀ i p, w.place i = .rawFree p → (∀ x ∈ w.shared.live, pageOf cfg x ≠ p) ∧
    ∃ page, w.shared.pages p = some page ∧ page.setBits = ∅ ∧ page.spmUsed = 0
  /-- No one uses a page that was returned. -/
  present : ∀ i p, (w.place i).page? = some p → ∃ page, w.shared.pages p = some page
  /-- A caller with a reserved chunk finds a free bit: there is one, and it has got one whenever it stops at a word. -/
  finds : ∀ i p, (w.place i).reserved? = some p → ∃ page, w.shared.pages p = some page ∧
    (∃ k < cfg.maxChunkCount, page.bit k = false) ∧
    (∀ j < cfg.elemofUsed, page.spUsed j ≠ cfg.maskfor j →
      j * cfg.bitsofWord + (~~~page.spUsed j).ctz.toNat < cfg.maxChunkCount ∧
        page.bit (j * cfg.bitsofWord + (~~~page.spUsed j).ctz.toNat) = false) ∧
    ∀ j < cfg.elemofUsed, ∃ n s', runAlone n (w.shared, .scan p j) = some (s', .idle)
  /-- A free ends, in a caller that runs alone while no one holds the lock. -/
  ends : ∀ i, (∃ x, w.place i = .clearBit x) ∨ (∃ p, (w.place i).drops? = some p) → w.shared.readers = 0 →
    ∃ n s', runAlone n (w.shared, w.place i) = some (s', .idle)

theorem SlabInv.live_nodup (h : SlabInv w) : w.shared.live.Nodup := by
  refine List.nodup_iff_count_le_one.mpr fun x => ?_
  have hchunk := h.chunk x
  have hle : chunkBit w.shared.pages x ≤ 1 := by
    unfold chunkBit pageAt
    split_ifs
    · cases w.shared.pages (pageOf cfg x) with
      | none => exact Nat.zero_le 1
      | some page => exact Bool.toNat_le _
    · exact Nat.zero_le 1
  omega

theorem SlabInv.live_bit (h : SlabInv w) {x : ℕ} (hx : x ∈ w.shared.live ∨ ∃ i, w.place i = .clearBit x) :
    x = chunkAddr cfg (pageOf cfg x) (indexOf cfg x) ∧ indexOf cfg x < cfg.maxChunkCount ∧
      ∃ page, w.shared.pages (pageOf cfg x) = some page ∧ page.bit (indexOf cfg x) := by
  have hpos : 1 ≤ chunkBit w.shared.pages x := by
    rw [h.chunk x]
    rcases hx with hlive | ⟨i, hi⟩
    · have hcount := List.count_pos_iff.mpr hlive
      omega
    · have hle := le_total (Place.clears x) w.place i
      have hone : (w.place i).clears x = 1 := by
        rw [hi]
        exact if_pos rfl
      omega
  unfold chunkBit at hpos
  split_ifs at hpos with haddr
  · obtain ⟨page, hpage⟩ := exists_of_pageAt_pos hpos
    rw [pageAt_of hpage] at hpos
    have hbit : page.bit (indexOf cfg x) = true := by
      cases hbit : page.bit (indexOf cfg x) with
      | true => rfl
      | false =>
        rw [hbit] at hpos
        exact absurd hpos (Nat.lt_irrefl 0)
    exact ⟨haddr, (h.page _ page hpage).1 _ hbit, page, hpage, hbit⟩
  · exact absurd hpos (Nat.lt_irrefl 0)

theorem SlabInv.used_eq (h : SlabInv w) (hpage : w.shared.pages p = some page) :
    page.spmUsed = page.setBits.card + total (Place.pending p) w.place := by
  have hused := h.used p
  rwa [pageAt_of hpage, pageAt_of hpage] at hused

/-- A page of which a caller holds a count exists. -/
theorem SlabInv.exists_of_pending (h : SlabInv w) {i : ι} (hpending : (w.place i).pending p = 1) :
    ∃ page, w.shared.pages p = some page := by
  have hle := le_total (Place.pending p) w.place i
  have hused := h.used p
  refine exists_of_pageAt_pos (f := SlabPage.spmUsed) ?_
  omega

theorem SlabInv.exists_of_mem (h : SlabInv w) (hmem : p ∈ w.shared.slabPages) : ∃ page, w.shared.pages p = some page := by
  have hcount := List.count_pos_iff.mpr hmem
  rw [h.linked p] at hcount
  unfold partlyUsed at hcount
  split_ifs at hcount with hused
  · exact exists_of_pageAt_pos hused.1
  · exact absurd hcount (Nat.lt_irrefl 0)

theorem SlabInv.present (h : SlabInv w) {i : ι} (hplace : (w.place i).page? = some p) :
    ∃ page, w.shared.pages p = some page := by
  have hknows := h.knows i
  have hview := h.view i
  cases hc : w.place i with
  | readUsed q =>
    rw [hc] at hplace hknows
    obtain rfl := Option.some.inj hplace
    exact h.exists_of_mem hknows
  | reserve q old =>
    rw [hc] at hplace hknows
    obtain rfl := Option.some.inj hplace
    exact h.exists_of_mem hknows.1
  | clearBit x =>
    rw [hc] at hplace
    obtain rfl := Option.some.inj hplace
    obtain ⟨-, -, page, hpage, -⟩ := h.live_bit (.inr ⟨i, hc⟩)
    exact ⟨page, hpage⟩
  | rawFree q =>
    rw [hc] at hplace hview
    obtain rfl := Option.some.inj hplace
    obtain ⟨page, hpage, -⟩ := hview.empty_of_rawFree
    exact ⟨page, hpage⟩
  | scan q | allocInWord q | againReadUsed q | freeLast q | freeFirst q | decUsed q =>
    rw [hc] at hplace
    obtain rfl := Option.some.inj hplace
    refine h.exists_of_pending (i := i) ?_
    rw [hc]
    exact if_pos rfl
  | _ =>
    rw [hc] at hplace
    cases hplace

theorem SlabInv.ends (h : SlabInv w) {i : ι} (hplace : (∃ x, w.place i = .clearBit x) ∨ ∃ p, (w.place i).drops? = some p)
    (hreaders : w.shared.readers = 0) : ∃ n s', runAlone n (w.shared, w.place i) = some (s', .idle) := by
  rcases hplace with ⟨x, hx⟩ | ⟨p, hp⟩
  · obtain ⟨-, -, page, hpage, -⟩ := h.live_bit (.inr ⟨i, hx⟩)
    rw [hx]
    exact runAlone_clearBit hpage hreaders
  · have hpending : (w.place i).pending p = 1 := by
      cases hc : w.place i with
      | againReadUsed | freeLast | freeFirst | decUsed =>
        rw [hc] at hp
        obtain rfl := Option.some.inj hp
        exact if_pos rfl
      | _ =>
        rw [hc] at hp
        cases hp
    obtain ⟨page, hpage⟩ := h.exists_of_pending hpending
    exact runAlone_drops hp hpage hreaders

theorem SlabInv.finds (h : SlabInv w) {i : ι} (hplace : (w.place i).reserved? = some p) :
    ∃ page, w.shared.pages p = some page ∧ page.Ok ∧ page.setBits.card < cfg.maxChunkCount := by
  have hpending : (w.place i).pending p = 1 := by
    cases hc : w.place i with
    | endReadReserved q | scan q | allocInWord q =>
      rw [hc] at hplace
      obtain rfl := Option.some.inj hplace
      exact if_pos rfl
    | _ =>
      rw [hc] at hplace
      cases hplace
  obtain ⟨page, hpage⟩ := h.exists_of_pending hpending
  obtain ⟨hok, hle⟩ := h.page p page hpage
  have hview := (h.view i).pending_le hpage
  exact ⟨page, hpage, hok, by omega⟩

/-- The books are in order in every state of every interleaving, and every step does to bits and counters what it is
meant to. -/
theorem slabSafe_of_reachable [DecidableEq ι] (cfg : SlabConfig) (w : World ι (Slab cfg) (Place cfg))
    (hw : Reachable slabStep (noPages ι cfg) w) : SlabSafe w ∧
      (∀ i op s' c', slabStep w.shared (w.place i) op = some (s', c') → SlabEffects w.shared s' (w.place i) c' op) ∧
      ∀ p k, cfg.pageSize ∣ p → k < cfg.maxChunkCount →
        pageOf cfg (chunkAddr cfg p k) = p ∧ indexOf cfg (chunkAddr cfg p k) = k := by
  have h := slabInv_of_reachable hw
  refine ⟨⟨h.live_nodup, fun x hx => h.live_bit hx, fun p page hpage => ?_, fun hidle p page hpage => ?_,
    fun p page hpage hpos hlt => ?_, fun p page hpage hfull hmem => ?_, fun i p hi => ?_,
    fun i p hi => h.present hi, fun i p hi => ?_, fun i hi => h.ends hi⟩, fun i op s' c' hstep => (h.view i).effects hstep,
    fun p k hp hk => ⟨pageOf_chunkAddr hp hk, indexOf_chunkAddr hp hk⟩⟩
  · rw [h.used_eq hpage]
    exact Nat.le_add_right _ _
  · rw [h.used_eq hpage, total_eq_zero fun i => ?_]
    · rfl
    rw [hidle i]
    rfl
  · have htwo := cfg.two_le
    rw [h.linked p, pageAt_of hpage]
    exact if_pos ⟨hpos, by omega⟩
  · have hcount := List.count_pos_iff.mpr hmem
    rw [h.linked p, pageAt_of hpage, hfull] at hcount
    unfold partlyUsed at hcount
    rw [if_neg (by omega)] at hcount
    exact absurd hcount (Nat.lt_irrefl 0)
  · have hview := h.view i
    rw [hi] at hview
    obtain ⟨page, hpage, hused, hbits⟩ := hview.empty_of_rawFree
    refine ⟨fun x hx hxp => ?_, page, hpage, hbits, hused⟩
    obtain ⟨-, -, page', hpage', hbit⟩ := h.live_bit (.inl hx)
    rw [hxp, hpage, Option.some.injEq] at hpage'
    rw [← hpage', ← SlabPage.mem_setBits (h.page p page hpage).1, hbits] at hbit
    exact absurd hbit (Finset.notMem_empty _)
  · obtain ⟨page, hpage, hok, hcard⟩ := h.finds hi
    obtain ⟨j, hj, hword⟩ := SlabPage.exists_ne_maskfor hcard
    have hfree := SlabPage.freeBit hok hj hword
    refine ⟨page, hpage, ⟨_, hfree.2⟩, fun j hj hword => (SlabPage.freeBit hok hj hword).2, fun i hi => ?_⟩
    exact runAlone_scan hpage hi hj hword

/-- Chunks of 24 bytes in pages of 4 KiB. -/
def slab24 : SlabConfig where
  pageShift := 12
  sizeofPointer := 8
  chunkSize := 24
  chunkSize_pos := by decide
  two_le := by decide +kernel
  shift_lt := by decide +kernel
  fits := by decide +kernel

/-- The first chunk of the first page is freed again, while another caller waits for the read-lock. -/
theorem slabSafe_freed : ∃ w w' : World (Fin 2) (Slab slab24) (Place slab24), w.place 0 = .clearBit 4120 ∧
    w.shared.slabPages = [4096] ∧ SlabSafe w ∧
    (∃ s' c', slabStep w.shared (w.place 0) .run = some (s', c') ∧ SlabEffects w.shared s' (w.place 0) c' .run) ∧
    w'.shared.slabPages = [] ∧ w'.shared.pages 4096 = none ∧ SlabSafe w' := by
  have hstart : Reachable slabStep (noPages (Fin 2) slab24) _ := .start
  have hmalloc := hstart.step (.party 1 .malloc rfl)
  have hother := hmalloc.step (.party 0 .malloc rfl)
  have hread := hother.step (.party 0 .run rfl)
  have hempty := hread.step (.party 0 .run rfl)
  have hend := hempty.step (.party 0 .run rfl)
  have hraw := hend.step (.party 0 (.raw (some 4096)) rfl)
  have hnew := hraw.step (.party 0 .run rfl)
  have hfree := hnew.step (.party 0 (.free 4120) rfl)
  have hclear := hfree.step (.party 0 .run rfl)
  have hused := hclear.step (.party 0 .run rfl)
  have hlast := hused.step (.party 0 .run rfl)
  have hreturned := hlast.step (.party 0 .run rfl)
  have hsafe := slabSafe_of_reachable slab24 _ hfree
  exact ⟨_, _, rfl, rfl, hsafe.1, ⟨_, _, rfl, hsafe.2.1 0 .run _ _ rfl⟩, rfl, rfl,
    (slabSafe_of_reachable slab24 _ hreturned).1⟩

end Runs

end Deemon.Runtime
