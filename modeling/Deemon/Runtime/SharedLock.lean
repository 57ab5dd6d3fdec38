import Deemon.Lib.Parties

/-!
# Locks that put their waiters to sleep

`Dee_shared_lock_t` of `util/lock.h` is a lock word with a count of those who wait. A party that does not get the lock
counts itself and sleeps on a futex; a release wakes one sleeper, but only if it finds that somebody waits. In no
interleaving do two parties hold the lock, or does a party sleep that nobody is going to wake.

Memory is sequentially consistent here. The `RELEASE` store of `s_lock` and the `ACQUIRE` load of `s_waiting` that follows
it in a release are not ordered by themselves, and hardware may reorder them.
-/

namespace Deemon.Runtime

open Deemon.Parties

/-- `Dee_shared_lock_t`, and the futex of its lock word. -/
structure SharedLock where
  sLock : ℕ
  sWaiting : ℕ
  /-- The sleeps that have not been ended. -/
  sleepers : List ℕ
  /-- How many sleeps there have been. -/
  sleeps : ℕ

/-- Where a party is. -/
inductive LockPlace where
  | idle
  /-- The `xch` of `Dee_shared_lock_tryacquire`. -/
  | tryacquire
  /-- The `xch` of `Dee_shared_lock_acquire`. -/
  | acquire
  | waitingStart (lockword : ℕ)
  | futexWait (lockword : ℕ)
  | asleep (sleep : ℕ)
  | waitingEnd
  | held
  /-- `Dee_shared_lock_release`, once the word is 0. -/
  | waitingTest
  | wakeOne

/-- What a party does: it calls a function, goes on in one, wakes up without being woken, or chooses whom to wake. -/
inductive LockOp where
  | tryacquire
  | acquire
  | release
  | run
  | spurious
  | wake (sleep : ℕ)

/-- A step of a party. The futex compares the word and starts the sleep at once. -/
def sharedLockStep (s : SharedLock) : LockPlace → LockOp → Option (SharedLock × LockPlace)
  | .idle, .tryacquire => some (s, .tryacquire)
  | .idle, .acquire => some (s, .acquire)
  | .tryacquire, .run => some ({ s with sLock := 1 }, if s.sLock = 0 then .held else .idle)
  | .acquire, .run => some ({ s with sLock := 1 }, if s.sLock = 0 then .held else .waitingStart s.sLock)
  | .waitingStart lockword, .run => some ({ s with sWaiting := (s.sWaiting + 1) % 2 ^ 32 }, .futexWait lockword)
  | .futexWait lockword, .run =>
    if s.sLock = lockword then
      some ({ s with sleepers := s.sleeps :: s.sleepers, sleeps := s.sleeps + 1 }, .asleep s.sleeps)
    else some (s, .waitingEnd)
  | .asleep sleep, .run => if sleep ∈ s.sleepers then none else some (s, .waitingEnd)
  | .asleep sleep, .spurious => some ({ s with sleepers := s.sleepers.erase sleep }, .waitingEnd)
  | .waitingEnd, .run => some ({ s with sWaiting := (s.sWaiting + (2 ^ 32 - 1)) % 2 ^ 32 }, .acquire)
  | .held, .release => some ({ s with sLock := 0 }, .waitingTest)
  | .waitingTest, .run => some (s, if s.sWaiting = 0 then .idle else .wakeOne)
  | .wakeOne, .wake sleep =>
    if sleep ∈ s.sleepers then some ({ s with sleepers := s.sleepers.erase sleep }, .idle)
    else if s.sleepers = [] then some (s, .idle)
    else none
  | _, _ => none

/-- Nobody uses the lock. -/
def lockFree (ι : Type) : World ι SharedLock LockPlace := ⟨⟨0, 0, [], 0⟩, fun _ => .idle⟩

/-! ### What the places hold -/

/-- The lock. -/
def LockPlace.holds : LockPlace → ℕ
  | .held => 1
  | _ => 0

/-- A count of `s_waiting`. -/
def LockPlace.waits : LockPlace → ℕ
  | .futexWait _ | .asleep _ | .waitingEnd => 1
  | _ => 0

/-- The party is on its way through the functions of the lock. -/
def LockPlace.Awake (sleepers : List ℕ) : LockPlace → Prop
  | .idle | .held => False
  | .asleep sleep => sleep ∉ sleepers
  | _ => True

/-- The word that a party has read was not 0. -/
def LockPlace.ReadHeld : LockPlace → Prop
  | .waitingStart lockword | .futexWait lockword => lockword ≠ 0
  | _ => True

/-- The words count what the places hold, every sleep is that of a party, and while the lock is free with somebody
asleep, somebody is awake. -/
structure LockInv {ι : Type} [Fintype ι] (w : World ι SharedLock LockPlace) : Prop where
  word : w.shared.sLock = total LockPlace.holds w.place
  word_le : w.shared.sLock ≤ 1
  waiting : w.shared.sWaiting = total LockPlace.waits w.place
  readHeld : ∀ i, (w.place i).ReadHeld
  nodup : w.shared.sleepers.Nodup
  bound : ∀ n ∈ w.shared.sleepers, n < w.shared.sleeps
  asleep : ∀ n ∈ w.shared.sleepers, ∃ i, w.place i = .asleep n
  awake : w.shared.sLock = 0 → w.shared.sleepers ≠ [] → ∃ i, (w.place i).Awake w.shared.sleepers

/-- What a step does to the books. -/
structure LockMove (s s' : SharedLock) (c c' : LockPlace) : Prop where
  word : s'.sLock + c.holds = s.sLock + c'.holds
  word_le : s'.sLock ≤ 1
  waiting : s'.sWaiting + c.waits = s.sWaiting + c'.waits
  readHeld : c'.ReadHeld
  nodup : s'.sleepers.Nodup
  bound : ∀ n ∈ s'.sleepers, n < s'.sleeps
  asleep : ∀ n ∈ s'.sleepers, c' = .asleep n ∨ n ∈ s.sleepers ∧ c ≠ .asleep n
  /-- The party goes on, or has woken another one. -/
  awake : s'.sLock = 0 → s'.sleepers ≠ [] →
    c'.Awake s'.sleepers ∨ ∃ n ∈ s.sleepers, n ∉ s'.sleepers ∧ c ≠ .asleep n

section Moves

variable {ι : Type} [Fintype ι] {w : World ι SharedLock LockPlace} {i j : ι} {s' : SharedLock} {c' : LockPlace}

theorem waits_le_one (c : LockPlace) : c.waits ≤ 1 := by cases c <;> simp [LockPlace.waits]

theorem total_waits_le (place : ι → LockPlace) : total LockPlace.waits place ≤ Fintype.card ι := by
  simpa [total] using Finset.sum_le_card_nsmul Finset.univ _ 1 fun i _ => waits_le_one (place i)

variable [DecidableEq ι]

theorem LockInv.move (h : LockInv w) (hmove : LockMove w.shared s' (w.place i) c') :
    LockInv ⟨s', Function.update w.place i c'⟩ where
  word := by
    have hbalance : s'.sLock + 0 + (w.place i).holds = w.shared.sLock + 0 + c'.holds := hmove.word
    simpa using total_balance (h.word.trans (Nat.zero_add _).symm) hbalance
  word_le := hmove.word_le
  waiting := by
    have hbalance : s'.sWaiting + 0 + (w.place i).waits = w.shared.sWaiting + 0 + c'.waits := hmove.waiting
    simpa using total_balance (h.waiting.trans (Nat.zero_add _).symm) hbalance
  readHeld j := by
    by_cases hj : j = i
    · simpa [hj] using hmove.readHeld
    · simpa [hj] using h.readHeld j
  nodup := hmove.nodup
  bound := hmove.bound
  asleep n hn := by
    rcases hmove.asleep n hn with hself | ⟨hold, hne⟩
    · exact ⟨i, by simpa using hself⟩
    · obtain ⟨j, hj⟩ := h.asleep n hold
      have hji : j ≠ i := by
        rintro rfl
        exact hne hj
      exact ⟨j, by simpa [hji] using hj⟩
  awake hfree hsleep := by
    rcases hmove.awake hfree hsleep with hself | ⟨n, hold, hwoken, hne⟩
    · exact ⟨i, by simpa using hself⟩
    · obtain ⟨j, hj⟩ := h.asleep n hold
      have hji : j ≠ i := by
        rintro rfl
        exact hne hj
      exact ⟨j, by simpa [hji, hj, LockPlace.Awake] using hwoken⟩

omit [DecidableEq ι] in
/-- A step that neither starts nor ends a sleep. -/
theorem LockInv.moveSame (h : LockInv w) {c : LockPlace} {lock waiting : ℕ} (hle : lock ≤ 1)
    (hword : lock + c.holds = w.shared.sLock + c'.holds) (hwaiting : waiting + c.waits = w.shared.sWaiting + c'.waits)
    (hread : c'.ReadHeld) (hc : ∀ n ∈ w.shared.sleepers, c ≠ .asleep n)
    (hawake : lock = 0 → w.shared.sleepers ≠ [] → c'.Awake w.shared.sleepers) :
    LockMove w.shared { w.shared with sLock := lock, sWaiting := waiting } c c' :=
  ⟨hword, hle, hwaiting, hread, h.nodup, h.bound, fun n hn => .inr ⟨hn, hc n hn⟩, fun h0 hne => .inl (hawake h0 hne)⟩

omit [DecidableEq ι] in
/-- A sleep of another party is ended, or that of the party itself. -/
theorem LockInv.moveErase (h : LockInv w) {c : LockPlace} {n : ℕ} (hread : c'.ReadHeld) (hholds : c.holds = c'.holds)
    (hwaits : c.waits = c'.waits) (hc : ∀ m, c = .asleep m → m = n)
    (hawake : c'.Awake (w.shared.sleepers.erase n) ∨ n ∈ w.shared.sleepers ∧ c ≠ .asleep n) :
    LockMove w.shared { w.shared with sleepers := w.shared.sleepers.erase n } c c' := by
  refine ⟨by simp [hholds], h.word_le, by simp [hwaits], hread, h.nodup.erase n, fun m hm => ?_, fun m hm => ?_, fun _ _ => ?_⟩
  · exact h.bound m (List.mem_of_mem_erase hm)
  · refine .inr ⟨List.mem_of_mem_erase hm, fun hcm => ?_⟩
    exact h.nodup.not_mem_erase (hc m hcm ▸ hm)
  · exact hawake.imp_right fun hn => ⟨n, hn.1, h.nodup.not_mem_erase, hn.2⟩

/-- Every step keeps the books, if there are fewer than `2 ^ 32` parties. -/
theorem LockInv.step (hcard : Fintype.card ι < 2 ^ 32) (h : LockInv w) {op : LockOp}
    (hstep : sharedLockStep w.shared (w.place i) op = some (s', c')) : LockMove w.shared s' (w.place i) c' := by
  have hle := h.word_le
  have hholds : (w.place i).holds ≤ w.shared.sLock := h.word ▸ le_total _ _ i
  have hwaits : (w.place i).waits ≤ w.shared.sWaiting := h.waiting ▸ le_total _ _ i
  have hmax : w.shared.sWaiting ≤ Fintype.card ι := h.waiting ▸ total_waits_le _
  have hread := h.readHeld i
  have hroom : (w.place i).waits = 0 → w.shared.sWaiting + 1 ≤ Fintype.card ι := by
    intro h0
    have hupdate := total_update LockPlace.waits w.place i .waitingEnd
    have := total_waits_le (Function.update w.place i .waitingEnd)
    rw [h0, ← h.waiting, LockPlace.waits] at hupdate
    omega
  have hsleeping : w.shared.sleepers ≠ [] → w.shared.sWaiting ≠ 0 := by
    intro hne
    obtain ⟨n, hn⟩ := List.exists_mem_of_ne_nil _ hne
    obtain ⟨j, hj⟩ := h.asleep n hn
    have := h.waiting ▸ le_total LockPlace.waits w.place j
    rw [hj, LockPlace.waits] at this
    omega
  unfold sharedLockStep at hstep
  split at hstep
  all_goals try
    rename_i hc
    rw [hc] at hholds hwaits hread hroom ⊢
    simp only [LockPlace.holds, LockPlace.waits, LockPlace.ReadHeld] at hholds hwaits hread hroom
  · cases hstep
    exact h.moveSame hle rfl rfl trivial nofun fun _ _ => trivial
  · cases hstep
    exact h.moveSame hle rfl rfl trivial nofun fun _ _ => trivial
  · cases hstep
    split_ifs with h0
    · exact h.moveSame le_rfl (by simp [LockPlace.holds, h0]) rfl trivial nofun nofun
    · exact h.moveSame le_rfl (by simp [LockPlace.holds]; omega) rfl trivial nofun nofun
  · cases hstep
    split_ifs with h0
    · exact h.moveSame le_rfl (by simp [LockPlace.holds, h0]) rfl trivial nofun nofun
    · exact h.moveSame le_rfl (by simp [LockPlace.holds]; omega) rfl h0 nofun nofun
  · cases hstep
    rw [Nat.mod_eq_of_lt ((hroom trivial).trans_lt hcard)]
    exact h.moveSame hle rfl rfl hread nofun fun _ _ => trivial
  · split_ifs at hstep with heq
    · cases hstep
      refine ⟨rfl, hle, rfl, trivial, List.nodup_cons.mpr ⟨fun hn => (h.bound _ hn).false, h.nodup⟩, fun n hn => ?_,
        fun n hn => ?_, fun h0 => absurd (heq ▸ h0) hread⟩
      · rcases List.mem_cons.mp hn with rfl | hold
        · exact Nat.lt_succ_self _
        · exact (h.bound n hold).trans (Nat.lt_succ_self _)
      · exact (List.mem_cons.mp hn).imp (congrArg _ ·.symm) (⟨·, nofun⟩)
    · cases hstep
      exact h.moveSame hle rfl rfl trivial nofun fun _ _ => trivial
  · split_ifs at hstep with hmem
    cases hstep
    refine h.moveSame hle rfl rfl trivial ?_ fun _ _ => trivial
    rintro n hn ⟨⟩
    exact hmem hn
  · cases hstep
    exact h.moveErase trivial rfl rfl (by rintro m ⟨⟩; rfl) (.inl trivial)
  · cases hstep
    refine h.moveSame hle rfl ?_ trivial nofun fun _ _ => trivial
    simp only [LockPlace.waits]
    omega
  · cases hstep
    exact h.moveSame (Nat.zero_le 1) (by simp [LockPlace.holds]; omega) rfl trivial nofun fun _ _ => trivial
  · cases hstep
    split_ifs with h0
    · exact h.moveSame hle rfl rfl trivial nofun fun _ hne => absurd h0 (hsleeping hne)
    · exact h.moveSame hle rfl rfl trivial nofun fun _ _ => trivial
  · split_ifs at hstep with hmem hnil
    · cases hstep
      exact h.moveErase trivial rfl rfl nofun (.inr ⟨hmem, nofun⟩)
    · cases hstep
      exact h.moveSame hle rfl rfl trivial nofun fun _ hne => absurd hnil hne
  · cases hstep

end Moves

/-! ### Runs -/

/-- One party at most holds the lock, the word tells whether one does, and a party only sleeps while another one holds the
lock or is on its way through its functions. -/
structure LockSafe {ι : Type} (w : World ι SharedLock LockPlace) : Prop where
  exclusive : ∀ i j, w.place i = .held → w.place j = .held → i = j
  available : w.shared.sLock = 0 ↔ ∀ i, w.place i ≠ .held
  noLostWakeup : ∀ i n, w.place i = .asleep n →
    ∃ j, w.place j = .held ∨ (w.place j).Awake w.shared.sleepers

section Runs

variable {ι : Type} [Fintype ι] [DecidableEq ι] {w : World ι SharedLock LockPlace}

theorem lockInv_of_reachable (hcard : Fintype.card ι < 2 ^ 32) (h : Reachable sharedLockStep (lockFree ι) w) :
    LockInv w := by
  refine h.invariant LockInv ?_ fun w w' hw hstep => ?_
  · exact ⟨(total_eq_zero fun _ => rfl).symm, Nat.zero_le 1, (total_eq_zero fun _ => rfl).symm, fun _ => trivial,
      List.nodup_nil, nofun, nofun, fun _ hne => absurd rfl hne⟩
  · obtain ⟨i, op, hop⟩ := hstep
    exact hw.move (hw.step hcard hop)

/-- However the steps of fewer than `2 ^ 32` parties are interleaved, the lock excludes, and no wakeup is lost. -/
theorem sharedLock_safe (hcard : Fintype.card ι < 2 ^ 32) (h : Reachable sharedLockStep (lockFree ι) w) : LockSafe w := by
  have hinv := lockInv_of_reachable hcard h
  have hword := hinv.word
  have hle := hinv.word_le
  have hheld : ∀ i, w.place i = .held → 1 ≤ w.shared.sLock := by
    intro i hi
    have := le_total LockPlace.holds w.place i
    rw [hi, LockPlace.holds] at this
    omega
  have havailable : w.shared.sLock = 0 ↔ ∀ i, w.place i ≠ .held := by
    constructor
    · intro h0 i hi
      have := hheld i hi
      omega
    · intro hnone
      refine hword.trans (total_eq_zero fun i => ?_)
      have hi := hnone i
      revert hi
      cases w.place i <;> simp [LockPlace.holds]
  refine ⟨fun i j hi hj => ?_, havailable, fun i n hi => ?_⟩
  · by_contra hij
    have hupdate := total_update LockPlace.holds w.place i .idle
    have := le_total LockPlace.holds (Function.update w.place i .idle) j
    rw [Function.update_of_ne (Ne.symm hij), hj] at this
    rw [hi] at hupdate
    simp only [LockPlace.holds] at this hupdate
    omega
  · by_cases hfree : w.shared.sLock = 0
    · by_cases hn : n ∈ w.shared.sleepers
      · obtain ⟨j, hj⟩ := hinv.awake hfree (List.ne_nil_of_mem hn)
        exact ⟨j, .inr hj⟩
      · exact ⟨i, .inr (hi ▸ hn)⟩
    · simp only [havailable, not_forall, not_not] at hfree
      obtain ⟨j, hj⟩ := hfree
      exact ⟨j, .inl hj⟩

/-- A party sleeps while another one releases the lock. -/
theorem sharedLock_safe_sleeper : ∃ w : World (Fin 2) SharedLock LockPlace,
    w.place 1 = .asleep 0 ∧ w.shared.sLock = 0 ∧ LockSafe w := by
  have hstart : Reachable sharedLockStep (lockFree (Fin 2)) _ := .start
  have hfirst := (hstart.step (.party 0 .acquire rfl)).step (.party 0 .run rfl)
  have hsecond := (hfirst.step (.party 1 .acquire rfl)).step (.party 1 .run rfl)
  have hasleep := (hsecond.step (.party 1 .run rfl)).step (.party 1 .run rfl)
  have hreleased := hasleep.step (.party 0 .release rfl)
  exact ⟨_, rfl, rfl, sharedLock_safe (by decide) hreleased⟩

end Runs

end Deemon.Runtime
