import Deemon.Lib.Parties
import Deemon.Runtime.SlabPage

/-!
# The slab allocator

Several callers allocate and free chunks of one size at the same time. Pages with free chunks are linked in
`LOCAL_slab_pages`, which is protected by `LOCAL_slab_lock`. A caller of `LOCAL_DeeSlab_Malloc` reserves a chunk in the
counter `spm_used` of a page before it looks for a zero bit in `sp_used`; `LOCAL_DeeSlab_Free` clears the bit before it
decrements the counter. An atomic operation is one step, and so is what is done under the write-lock; memory that no one
else can see is written in the step that publishes it.
-/

namespace Deemon.Runtime

open Deemon.Parties

/-- What all callers share. -/
structure Slab (cfg : SlabConfig) where
  /-- `LOCAL_slab_pages`. -/
  slabPages : List ℕ
  /-- The read-locks that are held on `LOCAL_slab_lock`. -/
  readers : ℕ
  /-- The pages of the slab. -/
  pages : ℕ → Option (SlabPage cfg)
  /-- The pages that the raw page allocator has handed out. -/
  taken : ℕ → Bool
  /-- The chunks that were handed out and not freed. -/
  live : List ℕ

/-- Where a caller is. -/
inductive Place (cfg : SlabConfig) where
  | idle
  /-- `again`, in front of `LOCAL_slab_lock_read`. -/
  | again
  | againLocked
  /-- Reads `spm_used` under the read-lock. -/
  | readUsed (page : ℕ)
  /-- `atomic_cmpxch(&page->sp_meta.spm_used, old__spm_used, old__spm_used + 1)`. -/
  | reserve (page old : ℕ)
  /-- `LOCAL_slab_lock_endread`, in the three places where it is. -/
  | endReadFull (page : ℕ)
  | endReadReserved (page : ℕ)
  | endReadEmpty
  /-- `LOCAL_slab_lock_trywrite`, and `SCHED_YIELD` when it fails. -/
  | tryWrite (page : ℕ)
  | schedYield (page : ℕ)
  | rawMalloc
  /-- Has a new page and waits for `LOCAL_slab_lock_write`. -/
  | newPage (page : ℕ)
  /-- `LOCAL_slab_malloc_in_page`: reads a word, or changes it from what it was. -/
  | scan (page i : ℕ)
  | allocInWord (page i : ℕ) (word : BitVec cfg.bitsofWord)
  /-- `LOCAL_DeeSlab_Free`: `atomic_and`. -/
  | clearBit (p : ℕ)
  /-- `again_read__spm_used`. -/
  | againReadUsed (page : ℕ)
  /-- Wait for `LOCAL_slab_lock_write`. -/
  | freeLast (page : ℕ)
  | freeFirst (page : ℕ)
  | decUsed (page old : ℕ)
  | rawFree (page : ℕ)

/-- What a caller does next: a call starts, the program goes on, a `trywrite` or a weak `cmpxch` fails, or the raw
page allocator answers. -/
inductive SlabOp where
  | malloc
  | free (p : ℕ)
  | run
  | fail
  | raw (page : Option ℕ)

section Step

variable {cfg : SlabConfig}

/-- A write to the memory of a page. -/
def Slab.setPage (s : Slab cfg) (p : ℕ) (page : Option (SlabPage cfg)) : Slab cfg :=
  { s with pages := Function.update s.pages p page }

/-- The next word of `sp_used`; the loop starts again behind the last. -/
def SlabConfig.nextWord (cfg : SlabConfig) (i : ℕ) : ℕ := if i + 1 < cfg.elemofUsed then i + 1 else 0

/-- `LOCAL_DeeSlab_Malloc`. -/
def mallocStep (s : Slab cfg) : Place cfg → SlabOp → Option (Slab cfg × Place cfg)
  | .again, .run => some ({ s with readers := s.readers + 1 }, .againLocked)
  | .againLocked, .run =>
    match s.slabPages.head? with
    | some page => some (s, .readUsed page)
    | none => some (s, .endReadEmpty)
  | .readUsed p, .run => do
    let page ← s.pages p
    if cfg.maxChunkCount - 1 ≤ page.spmUsed then some (s, .endReadFull p) else some (s, .reserve p page.spmUsed)
  | .reserve p old, .run => do
    let page ← s.pages p
    if page.spmUsed = old then some (s.setPage p (page.setUsed (old + 1)), .endReadReserved p) else some (s, .readUsed p)
  | .endReadFull p, .run => some ({ s with readers := s.readers - 1 }, .tryWrite p)
  | .endReadReserved p, .run => some ({ s with readers := s.readers - 1 }, .scan p 0)
  | .endReadEmpty, .run => some ({ s with readers := s.readers - 1 }, .rawMalloc)
  | .tryWrite p, .run =>
    if s.readers ≠ 0 then none
    else if s.slabPages.head? = some p then do
      let page ← s.pages p
      if page.spmUsed = cfg.maxChunkCount - 1 then
        some ({ s.setPage p (page.setUsed cfg.maxChunkCount) with slabPages := s.slabPages.erase p }, .scan p 0)
      else some ({ s with readers := s.readers + 1 }, .againLocked)
    else some ({ s with readers := s.readers + 1 }, .againLocked)
  | .tryWrite p, .fail => some (s, .schedYield p)
  | .schedYield p, .run => if s.slabPages.head? = some p then some (s, .tryWrite p) else some (s, .again)
  | .rawMalloc, .raw none => some (s, .idle)
  | .rawMalloc, .raw (some p) =>
    if s.taken p = false ∧ cfg.pageSize ∣ p then some ({ s with taken := Function.update s.taken p true }, .newPage p)
    else none
  | .newPage p, .run =>
    if s.readers ≠ 0 then none
    else some ({ s.setPage p (SlabPage.fresh cfg) with
      slabPages := p :: s.slabPages
      live := chunkAddr cfg p 0 :: s.live }, .idle)
  | .scan p i, .run => do
    let page ← s.pages p
    let word := page.spUsed i
    if word ≠ cfg.maskfor i then some (s, .allocInWord p i word) else some (s, .scan p (cfg.nextWord i))
  | .allocInWord p i word, .run => do
    let page ← s.pages p
    if page.spUsed i = word then
      let freeBit := (~~~word).ctz.toNat
      some ({ s.setPage p (page.setWord i (word ||| cfg.bitMask freeBit)) with
        live := chunkAddr cfg p (i * cfg.bitsofWord + freeBit) :: s.live }, .idle)
    else some (s, .scan p (cfg.nextWord i))
  | .allocInWord p i _, .fail => some (s, .scan p (cfg.nextWord i))
  | _, _ => none

/-- `LOCAL_DeeSlab_Free`. -/
def freeStep (s : Slab cfg) : Place cfg → SlabOp → Option (Slab cfg × Place cfg)
  | .clearBit p, .run => do
    let index := indexOf cfg p
    let i := index / cfg.bitsofWord
    let page ← s.pages (pageOf cfg p)
    some (s.setPage (pageOf cfg p) (page.setWord i (page.spUsed i &&& ~~~cfg.bitMask (index % cfg.bitsofWord))),
      .againReadUsed (pageOf cfg p))
  | .againReadUsed p, .run => do
    let page ← s.pages p
    if page.spmUsed = 1 then some (s, .freeLast p)
    else if page.spmUsed = cfg.maxChunkCount then some (s, .freeFirst p)
    else some (s, .decUsed p page.spmUsed)
  | .freeLast p, .run =>
    if s.readers ≠ 0 then none
    else do
      let page ← s.pages p
      if page.spmUsed = 1 then some ({ s.setPage p (page.setUsed 0) with slabPages := s.slabPages.erase p }, .rawFree p)
      else some (s, .againReadUsed p)
  | .freeFirst p, .run =>
    if s.readers ≠ 0 then none
    else do
      let page ← s.pages p
      if page.spmUsed = cfg.maxChunkCount then
        some ({ s.setPage p (page.setUsed (cfg.maxChunkCount - 1)) with slabPages := p :: s.slabPages }, .idle)
      else some (s, .againReadUsed p)
  | .decUsed p old, .run => do
    let page ← s.pages p
    if page.spmUsed = old then some (s.setPage p (page.setUsed (old - 1)), .idle) else some (s, .againReadUsed p)
  | .decUsed p _, .fail => some (s, .againReadUsed p)
  | .rawFree p, .run => some ({ s.setPage p none with taken := Function.update s.taken p false }, .idle)
  | _, _ => none

/-- A step of a caller. Only chunks that were handed out are freed. -/
def slabStep (s : Slab cfg) : Place cfg → SlabOp → Option (Slab cfg × Place cfg)
  | .idle, .malloc => some (s, .again)
  | .idle, .free p => if p ∈ s.live then some ({ s with live := s.live.erase p }, .clearBit p) else none
  | place, op => mallocStep s place op <|> freeStep s place op

/-- No pages, and no one in a call. -/
def noPages (ι : Type) (cfg : SlabConfig) : World ι (Slab cfg) (Place cfg) where
  shared := ⟨[], 0, fun _ => none, fun _ => false, []⟩
  place := fun _ => .idle

end Step

end Deemon.Runtime
