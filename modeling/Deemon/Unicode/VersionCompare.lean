import Deemon.Unicode.FoldReader
import Mathlib.Data.List.TakeWhile

/-!
# Version comparison

`LOCAL_strverscmp` compares the characters at the first difference of two texts. What they decide depends on the digits
in front of them, which it looks for backwards; `LOCAL_strcaseverscmp` keeps track of them on its way. Both compute the
comparison `versOrder`, which goes through the texts once.
-/

namespace Deemon.Unicode

open Deemon.Run

/-! ### The code -/

/-- The digits of the character table: `Dee_UNICODE_ISDIGIT` and `ut_digit_idx`. -/
structure DigitTable where
  isDigit : ℕ → Bool
  digitIdx : ℕ → ℕ

/-- What comes before the first difference: `CTX_R`, `CTX_I`, `CTX_F` and `CTX_0`. -/
inductive VersCtx where
  | regular
  | integer
  | frac
  | zero
  deriving DecidableEq, Repr

/-- The row of a context in the action table. -/
def VersCtx.row : VersCtx → ℕ
  | .regular => 0
  | .integer => 1
  | .frac => 2
  | .zero => 3

/-- The actions `0`, `-1`, `+1`, `LEX` and `NUM`. -/
inductive VersAction where
  | equal
  | lower
  | greater
  | lex
  | num
  deriving DecidableEq, Repr

open VersAction in
/-- `strverscmp_action_table`. -/
def strverscmpActionTable : List VersAction :=
  [equal, lower, lower, lower, greater, lex, lex, lex, greater, lex, num, lex, greater, lex, lex, lex,
    equal, lower, lower, lower, greater, lex, lower, lower, greater, greater, num, num, greater, greater, num, num,
    equal, lower, lower, lower, greater, lex, lex, lex, greater, lex, lex, lex, greater, lex, lex, lex,
    equal, lower, greater, greater, greater, lex, greater, greater, lower, lower, lex, lex, lower, lower, lex, lex]

/-- `strverscmp_action_table[(ctx << 4) | state]`. -/
def versAction (ctx : VersCtx) (state : ℕ) : Option VersAction := strverscmpActionTable[ctx.row <<< 4 ||| state]?

/-- The column of a character: `A = 1`, `D = 2` and `0 = 3`. -/
def DigitTable.column (T : DigitTable) (ch : ℕ) : ℕ :=
  1 + (if T.isDigit ch then 1 + (if T.digitIdx ch = 0 then 1 else 0) else 0)

/-- The first difference: the column of the table, the two characters (where there is one), and their position. -/
structure Difference where
  state : ℕ
  clhs : Option ℕ
  crhs : Option ℕ
  pos : ℕ

/-- The loop of `LOCAL_strverscmp`, and the columns. -/
def firstDifference (T : DigitTable) (lhs rhs : List ℕ) : Option (Option Difference) :=
  loop (fun i =>
    if lhs.length ≤ i then
      if rhs.length ≤ i then some (.done none)
      else do
        let crhs ← rd rhs i
        some (.done (some ⟨T.column crhs, none, some crhs, i⟩))
    else if rhs.length ≤ i then do
      let clhs ← rd lhs i
      some (.done (some ⟨T.column clhs <<< 2, some clhs, none, i⟩))
    else do
      let clhs ← rd lhs i
      let crhs ← rd rhs i
      if clhs ≠ crhs then
        some (.done (some ⟨T.column clhs <<< 2 + T.column crhs, some clhs, some crhs, i⟩))
      else some (.next (i + 1))) (lhs.length + 1) 0

/-- The context of a digit in front of a context. -/
def VersCtx.back (T : DigitTable) (ch : ℕ) : VersCtx → VersCtx
  | .regular | .zero => if T.digitIdx ch = 0 then .zero else .integer
  | .integer | .frac => if T.digitIdx ch = 0 then .frac else .integer

/-- Figures out the context from the characters before the position. -/
def contextBefore (T : DigitTable) (lhs : List ℕ) (pos : ℕ) : Option VersCtx :=
  loop (fun (iter, ctx) =>
    if 0 < iter then do
      let ch ← rd lhs (iter - 1)
      if !T.isDigit ch then some (.done ctx) else some (.next (iter - 1, ctx.back T ch))
    else some (.done ctx)) (pos + 1) (pos, .regular)

/-- The loop of `NUM`: the longer sequence of digits decides, else nothing. -/
def longerNumber (T : DigitTable) (lhs rhs : List ℕ) (pos : ℕ) : Option (Option Ordering) :=
  loop (fun i =>
    if lhs.length ≤ i then do
      if i < rhs.length then
        some (.done (if T.isDigit (← rd rhs i) then some .lt else none))
      else some (.done none)
    else do
      let futureClhs ← rd lhs i
      if rhs.length ≤ i then some (.done (if !T.isDigit futureClhs then none else some .gt))
      else do
        let futureCrhs ← rd rhs i
        if !T.isDigit futureClhs then some (.done (if T.isDigit futureCrhs then some .lt else none))
        else if !T.isDigit futureCrhs then some (.done (some .gt))
        else some (.next (i + 1))) (lhs.length + 1) pos

/-- `LEX`. Where there is only one character the table has another action. -/
def Difference.lex (d : Difference) : Option Ordering := do some (compare (← d.clhs) (← d.crhs))

/-- Performs an action; `longer` is the loop of `NUM`. -/
def Difference.perform (d : Difference) (longer : Option (Option Ordering)) : VersAction → Option Ordering
  | .equal => some .eq
  | .greater => some .gt
  | .lower => some .lt
  | .num => do
    match ← longer with
    | some o => some o
    | none => d.lex
  | .lex => d.lex

/-- `LOCAL_strverscmp`. -/
def strverscmp (T : DigitTable) (lhs rhs : List ℕ) : Option Ordering := do
  match ← firstDifference T lhs rhs with
  | none => some .eq
  | some d => do
    let ctx ← contextBefore T lhs d.pos
    d.perform (longerNumber T lhs rhs (d.pos + 1)) (← versAction ctx d.state)

/-! ### The code with case folding -/

/-- The context behind another character. -/
def VersCtx.next (T : DigitTable) (ctx : VersCtx) (ch : ℕ) : VersCtx :=
  if !T.isDigit ch then .regular
  else
    match ctx with
    | .regular => if T.digitIdx ch = 0 then .zero else .integer
    | .zero => if T.digitIdx ch = 0 then .zero else .frac
    | .integer => .integer
    | .frac => .frac

/-- The loop of `LOCAL_strcaseverscmp`: the first difference, the context, and the readers behind it. -/
def firstCaseDifference (T : DigitTable) (F : Folding) (fuel : ℕ) (lhs rhs : FoldReader) :
    Option (Option (Difference × VersCtx × FoldReader × FoldReader)) :=
  loop (fun (lhs, rhs, ctx) =>
    if lhs.empty then
      if rhs.empty then some (.done none)
      else do
        let (crhs, rhs) ← rhs.getc F
        some (.done (some (⟨T.column crhs, none, some crhs, 0⟩, ctx, lhs, rhs)))
    else if rhs.empty then do
      let (clhs, lhs) ← lhs.getc F
      some (.done (some (⟨T.column clhs <<< 2, some clhs, none, 0⟩, ctx, lhs, rhs)))
    else do
      let (clhs, lhs) ← lhs.getc F
      let (crhs, rhs) ← rhs.getc F
      if clhs ≠ crhs then
        some (.done (some (⟨T.column clhs <<< 2 + T.column crhs, some clhs, some crhs, 0⟩, ctx, lhs, rhs)))
      else some (.next (lhs, rhs, ctx.next T clhs))) fuel (lhs, rhs, .regular)

/-- The loop of `NUM` with readers. -/
def longerCaseNumber (T : DigitTable) (F : Folding) (fuel : ℕ) (lhs rhs : FoldReader) : Option (Option Ordering) :=
  loop (fun (lhs, rhs) =>
    if lhs.empty then
      if !rhs.empty then do
        let (futureCrhs, _) ← rhs.getc F
        some (.done (if T.isDigit futureCrhs then some .lt else none))
      else some (.done none)
    else do
      let (futureClhs, lhs) ← lhs.getc F
      if rhs.empty then some (.done (if !T.isDigit futureClhs then none else some .gt))
      else do
        let (futureCrhs, rhs) ← rhs.getc F
        if !T.isDigit futureClhs then some (.done (if T.isDigit futureCrhs then some .lt else none))
        else if !T.isDigit futureCrhs then some (.done (some .gt))
        else some (.next (lhs, rhs))) fuel (lhs, rhs)

/-- `LOCAL_strcaseverscmp`. A character gives up to three folded ones, which bounds the rounds of the loops. -/
def strcaseverscmp (T : DigitTable) (F : Folding) (lhs rhs : List ℕ) : Option Ordering := do
  let fuel := 3 * lhs.length + 1
  match ← firstCaseDifference T F fuel (.init lhs) (.init rhs) with
  | none => some .eq
  | some (d, ctx, lhs, rhs) => do
    d.perform (longerCaseNumber T F fuel lhs rhs) (← versAction ctx d.state)

/-! ### One pass -/

/-- The number of digits that a text starts with. -/
def DigitTable.run (T : DigitTable) (text : List ℕ) : ℕ := (text.takeWhile T.isDigit).length

/-- The column of the first character, or `E = 0`. -/
def DigitTable.headColumn (T : DigitTable) (head : Option ℕ) : ℕ := head.elim 0 T.column

/-- What two texts with different first characters are in a context. -/
def verdict (T : DigitTable) (ctx : VersCtx) (lhs rhs : List ℕ) : Ordering :=
  let lex := compare (lhs.headD 0) (rhs.headD 0)
  match versAction ctx (T.headColumn lhs.head? <<< 2 + T.headColumn rhs.head?) with
  | some .greater => .gt
  | some .lower => .lt
  | some .num => (compare (T.run lhs.tail) (T.run rhs.tail)).then lex
  | some .lex => lex
  | _ => .eq

/-- The comparison of two texts that stand behind a context. -/
def versOrder (T : DigitTable) : VersCtx → List ℕ → List ℕ → Ordering
  | ctx, a :: as, b :: bs => if a = b then versOrder T (ctx.next T a) as bs else verdict T ctx (a :: as) (b :: bs)
  | ctx, as, bs => verdict T ctx as bs

section Table

variable {T : DigitTable} {ctx : VersCtx} {ch : ℕ} {as bs : List ℕ}

theorem column_lt (ch : ℕ) : 0 < T.column ch ∧ T.column ch < 4 := by
  unfold DigitTable.column
  split
  · split <;> omega
  · omega

theorem headColumn_lt (head : Option ℕ) : T.headColumn head < 4 := by
  cases head with
  | none => exact Nat.succ_pos 3
  | some ch => exact (column_lt ch).2

theorem headColumn_pos {head : Option ℕ} (h : 0 < T.headColumn head) : ∃ ch, head = some ch := by
  cases head with
  | none => exact absurd h (lt_irrefl 0)
  | some ch => exact ⟨ch, rfl⟩

/-- Every state has an action, and only two characters are compared. -/
theorem versAction_spec (ctx : VersCtx) : ∀ x < 4, ∀ y < 4, (versAction ctx (x <<< 2 + y)).isSome ∧
    (versAction ctx (x <<< 2 + y) = some .lex → 0 < x ∧ 0 < y) ∧
    (versAction ctx (x <<< 2 + y) = some .num → 0 < x ∧ 0 < y) := by
  cases ctx <;> decide

/-- The answer of the loop of `NUM`: none when the sequences of digits are equally long. -/
def Longer (o : Ordering) (r : Option Ordering) : Prop := r.getD .eq = o ∧ r ≠ some .eq

theorem perform_eq {d : Difference} {longer : Option (Option Ordering)} (hlhs : d.clhs = as.head?) (hrhs : d.crhs = bs.head?)
    (hstate : d.state = T.headColumn as.head? <<< 2 + T.headColumn bs.head?)
    (hlonger : as ≠ [] → bs ≠ [] → Ends longer (Longer (compare (T.run as.tail) (T.run bs.tail)))) :
    (do d.perform longer (← versAction ctx d.state)) = some (verdict T ctx as bs) := by
  obtain ⟨hsome, hlex, hnum⟩ := versAction_spec ctx _ (headColumn_lt (T := T) as.head?) _ (headColumn_lt (T := T) bs.head?)
  obtain ⟨action, haction⟩ := Option.isSome_iff_exists.mp hsome
  have hchars : 0 < T.headColumn as.head? ∧ 0 < T.headColumn bs.head? →
      d.lex = some (compare (as.headD 0) (bs.headD 0)) ∧ as ≠ [] ∧ bs ≠ [] := by
    intro hpos
    obtain ⟨a, ha⟩ := headColumn_pos hpos.1
    obtain ⟨b, hb⟩ := headColumn_pos hpos.2
    refine ⟨?_, ?_, ?_⟩
    · rw [Difference.lex, hlhs, hrhs, ha, hb, List.headD_eq_head?_getD, List.headD_eq_head?_getD, ha, hb]
      rfl
    · rintro rfl
      cases ha
    · rintro rfl
      cases hb
  rw [hstate, haction, some_bind, verdict, haction]
  rw [haction] at hlex hnum
  cases action with
  | equal => rfl
  | lower => rfl
  | greater => rfl
  | lex => exact (hchars (hlex rfl)).1
  | num =>
    obtain ⟨hd, has, hbs⟩ := hchars (hnum rfl)
    obtain ⟨r, hr, hr1, hr2⟩ := hlonger has hbs
    rw [Difference.perform, hr, some_bind]
    dsimp only
    rw [← hr1]
    cases r with
    | none => exact hd
    | some o =>
      cases o with
      | lt => rfl
      | eq => exact absurd rfl hr2
      | gt => rfl

end Table

/-! ### Runs of digits -/

section Numbers

variable {T : DigitTable} {F : Folding} {a : ℕ} {as lhs rhs : List ℕ} {l r : FoldReader}

@[simp] theorem run_nil : T.run [] = 0 := rfl

theorem run_cons_digit (h : T.isDigit a = true) : T.run (a :: as) = T.run as + 1 := by
  rw [DigitTable.run, List.takeWhile_cons_of_pos h, List.length_cons, DigitTable.run]

theorem run_cons_other (h : T.isDigit a = false) : T.run (a :: as) = 0 := by
  rw [DigitTable.run, List.takeWhile_cons_of_neg (by rw [h]; decide), List.length_nil]

theorem compare_succ (m n : ℕ) : compare (m + 1) (n + 1) = compare m n := by
  rcases lt_trichotomy m n with h | rfl | h
  · rw [compare_lt_iff_lt.mpr h, compare_lt_iff_lt.mpr (Nat.succ_lt_succ h)]
  · rw [compare_eq_iff_eq.mpr rfl, compare_eq_iff_eq.mpr rfl]
  · rw [compare_gt_iff_gt.mpr h, compare_gt_iff_gt.mpr (Nat.succ_lt_succ h)]

theorem drop_eq_cons {i : ℕ} (hi : i < lhs.length) : lhs.drop i = cell lhs i :: lhs.drop (i + 1) := by
  rw [List.drop_eq_getElem_cons hi]
  simp [cell, hi]

theorem longer_none : Longer .eq none := ⟨rfl, nofun⟩

/-- Where the left sequence has ended the right one may go on. -/
theorem longer_right (b : ℕ) (bs : List ℕ) :
    Longer (compare 0 (T.run (b :: bs))) (if T.isDigit b = true then some .lt else none) := by
  cases hdig : T.isDigit b with
  | true =>
    rw [run_cons_digit hdig, if_pos rfl]
    exact ⟨(compare_lt_iff_lt.mpr (Nat.succ_pos _)).symm, nofun⟩
  | false =>
    rw [run_cons_other hdig, if_neg Bool.false_ne_true]
    exact longer_none

/-- Where the right sequence has ended the left one may go on. -/
theorem longer_left (a : ℕ) (as : List ℕ) :
    Longer (compare (T.run (a :: as)) 0) (if (!T.isDigit a) = true then none else some .gt) := by
  cases hdig : T.isDigit a with
  | true =>
    rw [run_cons_digit hdig]
    exact ⟨(compare_gt_iff_gt.mpr (Nat.succ_pos _)).symm, nofun⟩
  | false =>
    rw [run_cons_other hdig]
    exact longer_none

theorem longerNumber_ends (lhs rhs : List ℕ) {pos : ℕ} (hpos : pos ≤ lhs.length) :
    Ends (longerNumber T lhs rhs pos) (Longer (compare (T.run (lhs.drop pos)) (T.run (rhs.drop pos)))) := by
  refine loop_ends (fun i => compare (T.run (lhs.drop i)) (T.run (rhs.drop i)) =
    compare (T.run (lhs.drop pos)) (T.run (rhs.drop pos))) (fun i => lhs.length - i) rfl (by omega) ?_
  intro i hsame
  rw [← hsame]
  by_cases hl : lhs.length ≤ i
  · rw [if_pos hl, List.drop_eq_nil_of_le hl, run_nil]
    by_cases hr : i < rhs.length
    · rw [if_pos hr, rd_of_lt hr, some_bind, drop_eq_cons hr]
      exact Ends.pure (longer_right _ _)
    · rw [if_neg hr, List.drop_eq_nil_of_le (by omega), run_nil]
      exact Ends.pure longer_none
  · rw [if_neg hl, rd_of_lt (by omega), some_bind, drop_eq_cons (by omega)]
    by_cases hr : rhs.length ≤ i
    · rw [if_pos hr, List.drop_eq_nil_of_le hr, run_nil]
      exact Ends.pure (longer_left _ _)
    · rw [if_neg hr, rd_of_lt (by omega), some_bind, drop_eq_cons (show i < rhs.length by omega)]
      cases hdl : T.isDigit (cell lhs i) with
      | false =>
        rw [run_cons_other hdl]
        exact Ends.pure (longer_right _ _)
      | true =>
        cases hdr : T.isDigit (cell rhs i) with
        | false =>
          have h := longer_left (T := T) (cell lhs i) (lhs.drop (i + 1))
          rw [hdl] at h
          rw [run_cons_other hdr]
          exact Ends.pure h
        | true =>
          rw [run_cons_digit hdl, run_cons_digit hdr, compare_succ]
          exact Ends.pure ⟨rfl, by dsimp only; omega⟩

theorem longerCaseNumber_ends {fuel : ℕ} (hfuel : (l.unread F).length < fuel) :
    Ends (longerCaseNumber T F fuel l r) (Longer (compare (T.run (l.unread F)) (T.run (r.unread F)))) := by
  refine loop_ends (fun s => compare (T.run (s.1.unread F)) (T.run (s.2.unread F)) =
    compare (T.run (l.unread F)) (T.run (r.unread F))) (fun s => (s.1.unread F).length) rfl hfuel ?_
  rintro ⟨l, r⟩ hsame
  dsimp only at hsame ⊢
  rw [← hsame]
  cases hl : l.unread F with
  | nil =>
    rw [if_pos (FoldReader.empty_eq_true hl), run_nil]
    cases hr : r.unread F with
    | nil =>
      rw [FoldReader.empty_eq_true hr, run_nil]
      exact Ends.pure longer_none
    | cons b bs =>
      obtain ⟨⟨b', r'⟩, hread, hb, -⟩ := FoldReader.getc_cons hr
      dsimp only at hb
      subst hb
      rw [FoldReader.empty_eq_false hr, Bool.not_false, if_pos rfl, hread, some_bind]
      exact Ends.pure (longer_right _ _)
  | cons a as =>
    obtain ⟨⟨a', l'⟩, hreadl, ha, hl'⟩ := FoldReader.getc_cons hl
    dsimp only at ha hl'
    subst ha hl'
    rw [FoldReader.empty_eq_false hl, if_neg Bool.false_ne_true, hreadl, some_bind]
    dsimp only
    cases hr : r.unread F with
    | nil =>
      rw [if_pos (FoldReader.empty_eq_true hr), run_nil]
      exact Ends.pure (longer_left _ _)
    | cons b bs =>
      obtain ⟨⟨b', r'⟩, hreadr, hb, hr'⟩ := FoldReader.getc_cons hr
      dsimp only at hb hr'
      subst hb hr'
      rw [FoldReader.empty_eq_false hr, if_neg Bool.false_ne_true, hreadr, some_bind]
      dsimp only
      cases hdl : T.isDigit a' with
      | false =>
        rw [run_cons_other hdl]
        exact Ends.pure (longer_right _ _)
      | true =>
        cases hdr : T.isDigit b' with
        | false =>
          have h := longer_left (T := T) a' (l'.unread F)
          rw [hdl] at h
          rw [run_cons_other hdr]
          exact Ends.pure h
        | true =>
          rw [run_cons_digit hdl, run_cons_digit hdr, compare_succ]
          exact Ends.pure ⟨rfl, Nat.lt_succ_self _⟩

end Numbers

/-! ### Both functions go through the texts -/

section Refines

variable {T : DigitTable} {F : Folding} {ctx : VersCtx} {ch a b : ℕ} {as bs lhs rhs : List ℕ}

/-- The context behind a text. -/
def ctxAfter (T : DigitTable) (ctx : VersCtx) (text : List ℕ) : VersCtx := text.foldl (VersCtx.next T) ctx

theorem versOrder_cons_self : versOrder T ctx (a :: as) (a :: bs) = versOrder T (ctx.next T a) as bs := by
  rw [versOrder, if_pos rfl]

theorem versOrder_of_ne (h : as.head? ≠ bs.head?) : versOrder T ctx as bs = verdict T ctx as bs := by
  cases as with
  | nil => rw [versOrder]; exact nofun
  | cons a as =>
    cases bs with
    | nil => rw [versOrder]; exact nofun
    | cons b bs =>
      rw [versOrder, if_neg]
      rintro rfl
      exact h rfl

theorem versOrder_nil : versOrder T ctx [] [] = .eq := by
  have hequal : versAction ctx (0 <<< 2 + 0) = some .equal := by cases ctx <;> decide
  rw [versOrder]
  · rw [verdict, List.head?_nil, DigitTable.headColumn, Option.elim_none, hequal]
  · exact nofun

theorem next_other (h : T.isDigit ch = false) : VersCtx.next T ctx ch = .regular := by
  unfold VersCtx.next
  rw [h]
  rfl

theorem versOrder_append (ctx : VersCtx) (u as bs : List ℕ) : versOrder T ctx (u ++ as) (u ++ bs) = versOrder T (ctxAfter T ctx u) as bs := by
  induction u generalizing ctx with
  | nil => rfl
  | cons c u ih =>
    rw [List.cons_append, List.cons_append, versOrder_cons_self, ih]
    rfl

theorem ctxAfter_cons (text : List ℕ) : ctxAfter T ctx (ch :: text) = ctxAfter T (ctx.next T ch) text := rfl

theorem ctxAfter_append (u v : List ℕ) : ctxAfter T ctx (u ++ v) = ctxAfter T (ctxAfter T ctx u) v := List.foldl_append

/-- A digit behind zeros. -/
def VersCtx.behindZero : VersCtx → VersCtx
  | .regular | .zero => .zero
  | .integer | .frac => .frac

theorem ctxAfter_integer {ds : List ℕ} (hds : ∀ d ∈ ds, T.isDigit d = true) : ctxAfter T .integer ds = .integer := by
  induction ds with
  | nil => rfl
  | cons d ds ih =>
    rw [ctxAfter_cons, VersCtx.next, hds d List.mem_cons_self]
    exact ih fun e he => hds e (List.mem_cons_of_mem d he)

theorem ctxAfter_frac {ds : List ℕ} (hds : ∀ d ∈ ds, T.isDigit d = true) : ctxAfter T .frac ds = .frac := by
  induction ds with
  | nil => rfl
  | cons d ds ih =>
    rw [ctxAfter_cons, VersCtx.next, hds d List.mem_cons_self]
    exact ih fun e he => hds e (List.mem_cons_of_mem d he)

theorem next_regular_digit (h : T.isDigit ch = true) :
    VersCtx.next T .regular ch = if T.digitIdx ch = 0 then .zero else .integer := by
  rw [VersCtx.next, h]
  rfl

theorem next_zero_digit (h : T.isDigit ch = true) :
    VersCtx.next T .zero ch = if T.digitIdx ch = 0 then .zero else .frac := by
  rw [VersCtx.next, h]
  rfl

theorem ctxAfter_zero {ds : List ℕ} (hds : ∀ d ∈ ds, T.isDigit d = true) :
    ctxAfter T .zero ds = (ctxAfter T .regular ds).behindZero := by
  induction ds with
  | nil => rfl
  | cons d ds ih =>
    have hrest : ∀ e ∈ ds, T.isDigit e = true := fun e he => hds e (List.mem_cons_of_mem d he)
    rw [ctxAfter_cons, ctxAfter_cons, next_zero_digit (hds d List.mem_cons_self),
      next_regular_digit (hds d List.mem_cons_self)]
    by_cases hzero : T.digitIdx d = 0
    · rw [if_pos hzero, if_pos hzero, ih hrest]
      cases ctxAfter T .regular ds <;> rfl
    · rw [if_neg hzero, if_neg hzero, ctxAfter_frac hrest, ctxAfter_integer hrest]
      rfl

/-- The context that is found backwards is the one that is kept forwards. -/
theorem ctxAfter_back {ds : List ℕ} (hds : ∀ d ∈ ds, T.isDigit d = true) (hch : T.isDigit ch = true) :
    ctxAfter T .regular (ch :: ds) = (ctxAfter T .regular ds).back T ch := by
  rw [ctxAfter_cons, next_regular_digit hch]
  by_cases hzero : T.digitIdx ch = 0
  · rw [if_pos hzero, ctxAfter_zero hds]
    cases ctxAfter T .regular ds <;> simp [VersCtx.back, VersCtx.behindZero, hzero]
  · rw [if_neg hzero, ctxAfter_integer hds]
    cases ctxAfter T .regular ds <;> simp [VersCtx.back, hzero]

theorem take_pred {i : ℕ} (hi : 0 < i) (hle : i ≤ lhs.length) : lhs.take i = lhs.take (i - 1) ++ [cell lhs (i - 1)] := by
  obtain ⟨k, rfl⟩ : ∃ k, i = k + 1 := ⟨i - 1, by omega⟩
  rw [Nat.add_sub_cancel, List.take_succ_eq_append_getElem (by omega)]
  simp [cell, show k < lhs.length by omega]

theorem contextBefore_ends {pos : ℕ} (hpos : pos ≤ lhs.length) :
    Ends (contextBefore T lhs pos) fun ctx => ctx = ctxAfter T .regular (lhs.take pos) := by
  refine loop_ends (fun s => s.1 ≤ pos ∧ ∃ ds, lhs.take pos = lhs.take s.1 ++ ds ∧ (∀ d ∈ ds, T.isDigit d = true) ∧
    s.2 = ctxAfter T .regular ds) (fun s => s.1) ⟨le_rfl, [], by simp, nofun, rfl⟩ (Nat.lt_succ_self _) ?_
  rintro ⟨iter, ctx⟩ ⟨hiter, ds, hsplit, hds, hctx⟩
  dsimp only at hiter hsplit hctx ⊢
  subst hctx
  by_cases hmore : 0 < iter
  · have htake : lhs.take iter = lhs.take (iter - 1) ++ [cell lhs (iter - 1)] := take_pred hmore (by omega)
    rw [if_pos hmore, rd_of_lt (by omega), some_bind]
    cases hdig : T.isDigit (cell lhs (iter - 1)) with
    | false =>
      refine Ends.pure ?_
      change ctxAfter T .regular ds = _
      have hregular : ctxAfter T .regular (lhs.take iter) = .regular := by
        rw [htake, ctxAfter_append, ctxAfter_cons, next_other hdig]
        rfl
      rw [hsplit, ctxAfter_append, hregular]
    | true =>
      refine Ends.pure ⟨⟨by dsimp only; omega, cell lhs (iter - 1) :: ds, ?_, ?_, ?_⟩, by dsimp only; omega⟩
      · rw [hsplit, htake, List.append_assoc]
        rfl
      · intro d hd
        rcases List.mem_cons.mp hd with rfl | hd
        · exact hdig
        · exact hds d hd
      · exact (ctxAfter_back hds hdig).symm
  · rw [if_neg hmore]
    refine Ends.pure ?_
    change ctxAfter T .regular ds = _
    rw [hsplit, show iter = 0 by omega]
    rfl

/-- A difference as it is between two texts. -/
structure Difference.Between (T : DigitTable) (d : Difference) (as bs : List ℕ) : Prop where
  clhs : d.clhs = as.head?
  crhs : d.crhs = bs.head?
  state : d.state = T.headColumn as.head? <<< 2 + T.headColumn bs.head?
  ne : as.head? ≠ bs.head?

theorem firstDifference_ends (lhs rhs : List ℕ) : Ends (firstDifference T lhs rhs) fun r =>
    (r = none ∧ lhs = rhs) ∨ ∃ d, r = some d ∧ d.pos ≤ lhs.length ∧ lhs.take d.pos = rhs.take d.pos ∧
      d.Between T (lhs.drop d.pos) (rhs.drop d.pos) := by
  refine loop_ends (fun i => i ≤ lhs.length ∧ i ≤ rhs.length ∧ lhs.take i = rhs.take i) (fun i => lhs.length - i)
    ⟨Nat.zero_le _, Nat.zero_le _, rfl⟩ (by omega) ?_
  rintro i ⟨hil, hir, htake⟩
  by_cases hl : lhs.length ≤ i
  · rw [if_pos hl]
    by_cases hr : rhs.length ≤ i
    · rw [if_pos hr]
      rw [List.take_of_length_le hl, List.take_of_length_le hr] at htake
      exact Ends.pure (.inl ⟨rfl, htake⟩)
    · rw [if_neg hr, rd_of_lt (by omega), some_bind]
      refine Ends.pure (.inr ⟨_, rfl, hil, htake, ?_⟩)
      dsimp only
      rw [List.drop_eq_nil_of_le hl, drop_eq_cons (by omega)]
      exact ⟨rfl, rfl, (Nat.zero_add _).symm, nofun⟩
  · rw [if_neg hl]
    by_cases hr : rhs.length ≤ i
    · rw [if_pos hr, rd_of_lt (by omega), some_bind]
      refine Ends.pure (.inr ⟨_, rfl, hil, htake, ?_⟩)
      dsimp only
      rw [List.drop_eq_nil_of_le hr, drop_eq_cons (by omega)]
      exact ⟨rfl, rfl, rfl, nofun⟩
    · rw [if_neg hr, rd_of_lt (by omega), some_bind, rd_of_lt (by omega), some_bind]
      by_cases hne : cell lhs i ≠ cell rhs i
      · rw [if_pos hne]
        refine Ends.pure (.inr ⟨_, rfl, hil, htake, ?_⟩)
        dsimp only
        rw [drop_eq_cons (show i < lhs.length by omega), drop_eq_cons (show i < rhs.length by omega)]
        exact ⟨rfl, rfl, rfl, fun h => hne (Option.some.inj h)⟩
      · rw [if_neg hne]
        refine Ends.pure ⟨⟨by omega, by omega, ?_⟩, by dsimp only; omega⟩
        rw [take_pred (Nat.succ_pos i) (by omega), take_pred (Nat.succ_pos i) (by omega), Nat.succ_sub_one, htake,
          not_not.mp hne]

/-- `LOCAL_strverscmp` computes the comparison. -/
theorem strverscmp_eq (lhs rhs : List ℕ) : strverscmp T lhs rhs = some (versOrder T .regular lhs rhs) := by
  obtain ⟨r, hrun, hr⟩ := firstDifference_ends (T := T) lhs rhs
  rw [strverscmp, hrun, some_bind]
  rcases hr with ⟨rfl, rfl⟩ | ⟨d, rfl, hpos, htake, hd⟩
  · have h := versOrder_append (T := T) .regular lhs [] []
    rw [List.append_nil, versOrder_nil] at h
    rw [h]
  · obtain ⟨ctx, hctx, rfl⟩ := contextBefore_ends (T := T) hpos
    have hsplit : versOrder T .regular lhs rhs =
        verdict T (ctxAfter T .regular (lhs.take d.pos)) (lhs.drop d.pos) (rhs.drop d.pos) := by
      have h := versOrder_append (T := T) .regular (lhs.take d.pos) (lhs.drop d.pos) (rhs.drop d.pos)
      rw [versOrder_of_ne hd.ne, List.take_append_drop, htake, List.take_append_drop] at h
      rw [h, htake]
    dsimp only
    rw [hctx, some_bind, hsplit]
    refine perform_eq hd.clhs hd.crhs hd.state fun has hbs => ?_
    rw [List.tail_drop, List.tail_drop]
    refine longerNumber_ends lhs rhs ?_
    by_contra hlt
    exact has (List.drop_eq_nil_of_le (by omega))

theorem firstCaseDifference_ends {fuel : ℕ} {l r : FoldReader} (hfuel : (l.unread F).length < fuel) :
    Ends (firstCaseDifference T F fuel l r) fun res =>
      (res = none ∧ versOrder T .regular (l.unread F) (r.unread F) = .eq) ∨
      ∃ d ctx l' r' as bs, res = some (d, ctx, l', r') ∧ d.Between T as bs ∧ (l'.unread F).length ≤ (l.unread F).length ∧
        versOrder T .regular (l.unread F) (r.unread F) = verdict T ctx as bs ∧
        (as ≠ [] → bs ≠ [] → l'.unread F = as.tail ∧ r'.unread F = bs.tail) := by
  refine loop_ends (fun s => (s.1.unread F).length ≤ (l.unread F).length ∧
    versOrder T .regular (l.unread F) (r.unread F) = versOrder T s.2.2 (s.1.unread F) (s.2.1.unread F))
    (fun s => (s.1.unread F).length) ⟨le_rfl, rfl⟩ hfuel ?_
  rintro ⟨l1, r1, ctx⟩ ⟨hle, hsame⟩
  dsimp only at hle hsame ⊢
  rw [hsame]
  cases hl : l1.unread F with
  | nil =>
    rw [if_pos (FoldReader.empty_eq_true hl)]
    cases hr : r1.unread F with
    | nil =>
      rw [if_pos (FoldReader.empty_eq_true hr), versOrder_nil]
      exact Ends.pure (.inl ⟨rfl, rfl⟩)
    | cons b bs =>
      obtain ⟨⟨b', r2⟩, hread, hb, hr2⟩ := FoldReader.getc_cons hr
      dsimp only at hb hr2
      subst hb hr2
      rw [FoldReader.empty_eq_false hr, if_neg Bool.false_ne_true, hread, some_bind]
      refine Ends.pure (.inr ⟨_, ctx, l1, r2, [], b' :: r2.unread F, rfl, ⟨rfl, rfl, (Nat.zero_add _).symm, nofun⟩, hle, ?_,
        fun h => absurd rfl h⟩)
      exact versOrder_of_ne nofun
  | cons a as =>
    obtain ⟨⟨a', l2⟩, hreadl, ha, hl2⟩ := FoldReader.getc_cons hl
    dsimp only at ha hl2
    subst ha hl2
    have hless : (l2.unread F).length < (l1.unread F).length := by rw [hl]; exact Nat.lt_succ_self _
    rw [FoldReader.empty_eq_false hl, if_neg Bool.false_ne_true]
    cases hr : r1.unread F with
    | nil =>
      rw [if_pos (FoldReader.empty_eq_true hr), hreadl, some_bind]
      refine Ends.pure (.inr ⟨_, ctx, l2, r1, a' :: l2.unread F, [], rfl, ⟨rfl, rfl, rfl, nofun⟩, by omega, ?_,
        fun _ h => absurd rfl h⟩)
      exact versOrder_of_ne nofun
    | cons b bs =>
      obtain ⟨⟨b', r2⟩, hreadr, hb, hr2⟩ := FoldReader.getc_cons hr
      dsimp only at hb hr2
      subst hb hr2
      rw [FoldReader.empty_eq_false hr, if_neg Bool.false_ne_true, hreadl, some_bind]
      dsimp only
      rw [hreadr, some_bind]
      dsimp only
      by_cases hne : a' ≠ b'
      · have hheads : (a' :: l2.unread F).head? ≠ (b' :: r2.unread F).head? := fun h => hne (Option.some.inj h)
        rw [if_pos hne]
        exact Ends.pure (.inr ⟨_, ctx, l2, r2, a' :: l2.unread F, b' :: r2.unread F, rfl, ⟨rfl, rfl, rfl, hheads⟩, by omega,
          versOrder_of_ne hheads, fun _ _ => ⟨rfl, rfl⟩⟩)
      · rw [if_neg hne, not_not.mp hne, versOrder_cons_self]
        refine Ends.pure ⟨⟨by dsimp only; omega, rfl⟩, ?_⟩
        exact Nat.lt_succ_self _

/-- `LOCAL_strcaseverscmp` computes the comparison of the case-folded texts. -/
theorem strcaseverscmp_eq (lhs rhs : List ℕ) :
    strcaseverscmp T F lhs rhs = some (versOrder T .regular (F.foldText lhs) (F.foldText rhs)) := by
  have hfuel : ((FoldReader.init lhs).unread F).length < 3 * lhs.length + 1 :=
    Nat.lt_succ_of_le (Folding.length_foldText_le lhs)
  obtain ⟨res, hrun, hres⟩ := firstCaseDifference_ends (T := T) (r := .init rhs) hfuel
  rw [strcaseverscmp, hrun, some_bind]
  rcases hres with ⟨rfl, heq⟩ | ⟨d, ctx, l, r, as, bs, rfl, hd, hle, hverdict, htails⟩
  · exact congrArg some heq.symm
  · dsimp only
    have hlonger : as ≠ [] → bs ≠ [] → Ends (longerCaseNumber T F (3 * lhs.length + 1) l r)
        (Longer (compare (T.run as.tail) (T.run bs.tail))) := by
      intro has hbs
      obtain ⟨hl, hr⟩ := htails has hbs
      rw [← hl, ← hr]
      exact longerCaseNumber_ends (by omega)
    exact (perform_eq hd.clhs hd.crhs hd.state hlonger).trans (congrArg some hverdict.symm)

end Refines

end Deemon.Unicode
