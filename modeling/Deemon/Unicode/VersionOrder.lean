import Deemon.Unicode.VersionCompare
import Mathlib.Data.Prod.Lex

/-!
# Version comparison is no order

The comparison is antisymmetric, and in every context but the regular one it compares ranks. In the regular context two
numbers are compared by their lengths, but a number and another character by their codes, and where digits lie on both
sides of that character the comparison goes round in a circle.
-/

namespace Deemon.Unicode

open Deemon.Run

variable {T : DigitTable} {F : Folding} {ctx : VersCtx} {ch : ℕ} {as bs cs u : List ℕ}

/-! ### The verdict in each context -/

/-- A digit other than zero, with which a number starts. -/
def DigitTable.Leads (T : DigitTable) (ch : ℕ) : Prop := T.isDigit ch = true ∧ T.digitIdx ch ≠ 0

/-- A text that starts with a number. -/
def DigitTable.Number (T : DigitTable) (text : List ℕ) : Prop := ∃ ch ∈ text.head?, T.Leads ch

/-- The code of the first character, where the end comes before all characters. -/
def headCode (text : List ℕ) : ℕ := text.head?.elim 0 Nat.succ

/-- What the characters are compared by behind a digit. -/
def rank (T : DigitTable) (ctx : VersCtx) (text : List ℕ) : ℕ ×ₗ ℕ ×ₗ ℕ :=
  match ctx, text with
  | .integer, ch :: text => if T.isDigit ch then toLex (2, toLex (T.run text, ch)) else toLex (1, toLex (0, ch))
  | .zero, ch :: _ => toLex (if T.isDigit ch then 0 else 2, toLex (0, ch))
  | .zero, [] => toLex (1, toLex (0, 0))
  | _, text => toLex (0, toLex (0, headCode text))

theorem column_other (h : T.isDigit ch = false) : T.column ch = 1 := by
  rw [DigitTable.column, h]
  rfl

theorem column_zero (h : T.isDigit ch = true) (h0 : T.digitIdx ch = 0) : T.column ch = 3 := by
  rw [DigitTable.column, h, h0]
  rfl

theorem column_leads (h : T.Leads ch) : T.column ch = 2 := by
  rw [DigitTable.column, h.1, if_pos rfl, if_neg h.2]

/-- The three kinds of characters. -/
theorem column_cases (T : DigitTable) (ch : ℕ) : (T.isDigit ch = false ∧ T.column ch = 1) ∨
    (T.isDigit ch = true ∧ T.column ch = 2) ∨ (T.isDigit ch = true ∧ T.column ch = 3) := by
  cases hdig : T.isDigit ch with
  | false => exact .inl ⟨rfl, column_other hdig⟩
  | true =>
    by_cases h0 : T.digitIdx ch = 0
    · exact .inr (.inr ⟨rfl, column_zero hdig h0⟩)
    · exact .inr (.inl ⟨rfl, column_leads ⟨hdig, h0⟩⟩)

theorem then_eq_lt_iff (m n : ℕ) (o : Ordering) : (compare m n).then o = .lt ↔ m < n ∨ m = n ∧ o = .lt := by
  rw [Ordering.then_eq_lt, compare_lt_iff_lt, compare_eq_iff_eq]

/-- Behind a digit the comparison is that of the ranks. -/
theorem verdict_lt_rank (hctx : ctx ≠ .regular) : verdict T ctx as bs = .lt ↔ rank T ctx as < rank T ctx bs := by
  cases as with
  | nil =>
    cases bs with
    | nil => cases ctx <;> simp [verdict, versAction, strverscmpActionTable, DigitTable.headColumn, VersCtx.row]
    | cons b bs =>
      rcases column_cases T b with ⟨hb, hcb⟩ | ⟨hb, hcb⟩ | ⟨hb, hcb⟩ <;> cases ctx <;>
        simp_all [verdict, versAction, strverscmpActionTable, DigitTable.headColumn, VersCtx.row, rank, headCode,
          Prod.Lex.toLex_lt_toLex]
  | cons a as =>
    cases bs with
    | nil =>
      rcases column_cases T a with ⟨ha, hca⟩ | ⟨ha, hca⟩ | ⟨ha, hca⟩ <;> cases ctx <;>
        simp_all [verdict, versAction, strverscmpActionTable, DigitTable.headColumn, VersCtx.row, rank, headCode,
          Prod.Lex.toLex_lt_toLex]
    | cons b bs =>
      rcases column_cases T a with ⟨ha, hca⟩ | ⟨ha, hca⟩ | ⟨ha, hca⟩ <;>
        rcases column_cases T b with ⟨hb, hcb⟩ | ⟨hb, hcb⟩ | ⟨hb, hcb⟩ <;> cases ctx <;>
          simp_all [verdict, versAction, strverscmpActionTable, DigitTable.headColumn, VersCtx.row, rank, headCode,
            Prod.Lex.toLex_lt_toLex, then_eq_lt_iff, compare_lt_iff_lt]

theorem eq_cons_of_head (h : (ch :: as).head? = bs.head?) : ∃ bs', bs = ch :: bs' :=
  ⟨bs.tail, List.eq_cons_of_mem_head? (h ▸ rfl)⟩

theorem eq_nil_of_head (h : ([] : List ℕ).head? = bs.head?) : bs = [] := List.head?_eq_none_iff.mp h.symm

theorem DigitTable.number_cons : T.Number (ch :: as) ↔ T.Leads ch := by
  constructor
  · rintro ⟨c, hc, hlead⟩
    rwa [← Option.some.inj hc] at hlead
  · exact fun h => ⟨ch, rfl, h⟩

theorem DigitTable.Number.eq_cons (h : T.Number as) : ∃ ch rest, as = ch :: rest ∧ T.Leads ch := by
  obtain ⟨ch, hhead, hlead⟩ := h
  exact ⟨ch, as.tail, List.eq_cons_of_mem_head? hhead, hlead⟩

/-- At the start and behind other characters two numbers are compared by their lengths first. -/
theorem verdict_lt_numbers (ha : T.Number as) (hb : T.Number bs) : verdict T .regular as bs = .lt ↔
    T.run as.tail < T.run bs.tail ∨ T.run as.tail = T.run bs.tail ∧ headCode as < headCode bs := by
  obtain ⟨a, as, rfl, hla⟩ := ha.eq_cons
  obtain ⟨b, bs, rfl, hlb⟩ := hb.eq_cons
  have hnum : versAction .regular (2 <<< 2 + 2) = some .num := by decide
  rw [verdict, List.head?_cons, List.head?_cons, DigitTable.headColumn, DigitTable.headColumn, Option.elim_some,
    Option.elim_some, column_leads hla, column_leads hlb, hnum]
  dsimp only [List.tail_cons, List.headD_cons]
  rw [then_eq_lt_iff, compare_lt_iff_lt, headCode, headCode, List.head?_cons, List.head?_cons, Option.elim_some,
    Option.elim_some, Nat.succ_lt_succ_iff]

/-- Other texts are compared by their first characters there. -/
theorem verdict_lt_codes (h : ¬ (T.Number as ∧ T.Number bs)) :
    verdict T .regular as bs = .lt ↔ headCode as < headCode bs := by
  have hnot : ∀ {ch}, ¬ T.Leads ch → T.column ch = 1 ∨ T.column ch = 3 := by
    intro ch hch
    rcases column_cases T ch with ⟨-, hc⟩ | ⟨hdig, hc⟩ | ⟨-, hc⟩
    · exact .inl hc
    · have h0 : T.digitIdx ch = 0 := not_not.mp fun h0 => hch ⟨hdig, h0⟩
      exact absurd (hc.symm.trans (column_zero hdig h0)) (by decide)
    · exact .inr hc
  cases as with
  | nil =>
    cases bs with
    | nil => simp [verdict, versAction, strverscmpActionTable, DigitTable.headColumn, VersCtx.row]
    | cons b bs =>
      rcases column_cases T b with ⟨-, hcb⟩ | ⟨-, hcb⟩ | ⟨-, hcb⟩ <;>
        simp [verdict, versAction, strverscmpActionTable, DigitTable.headColumn, VersCtx.row, headCode, hcb]
  | cons a as =>
    cases bs with
    | nil =>
      rcases column_cases T a with ⟨-, hca⟩ | ⟨-, hca⟩ | ⟨-, hca⟩ <;>
        simp [verdict, versAction, strverscmpActionTable, DigitTable.headColumn, VersCtx.row, headCode, hca]
    | cons b bs =>
      rw [DigitTable.number_cons, DigitTable.number_cons, not_and_or] at h
      rcases h with h | h
      · rcases hnot h with hca | hca <;> rcases column_cases T b with ⟨-, hcb⟩ | ⟨-, hcb⟩ | ⟨-, hcb⟩ <;>
          simp [verdict, versAction, strverscmpActionTable, DigitTable.headColumn, VersCtx.row, headCode, hca, hcb,
            compare_lt_iff_lt]
      · rcases hnot h with hcb | hcb <;> rcases column_cases T a with ⟨-, hca⟩ | ⟨-, hca⟩ | ⟨-, hca⟩ <;>
          simp [verdict, versAction, strverscmpActionTable, DigitTable.headColumn, VersCtx.row, headCode, hca, hcb,
            compare_lt_iff_lt]

/-! ### Antisymmetry -/

/-- What an action is for the texts in the other order. -/
def VersAction.swap : VersAction → VersAction
  | .lower => .greater
  | .greater => .lower
  | action => action

/-- The table is antisymmetric, and only two ends are equal in it. -/
theorem versAction_swap (ctx : VersCtx) : ∀ x < 4, ∀ y < 4,
    versAction ctx (y <<< 2 + x) = (versAction ctx (x <<< 2 + y)).map VersAction.swap ∧
    (versAction ctx (x <<< 2 + y) = some .equal → x = 0 ∧ y = 0) := by
  cases ctx <;> decide

theorem verdict_swap (T : DigitTable) (ctx : VersCtx) (as bs : List ℕ) :
    (verdict T ctx as bs).swap = verdict T ctx bs as := by
  have hcell := (versAction_swap ctx _ (headColumn_lt (T := T) as.head?) _ (headColumn_lt (T := T) bs.head?)).1
  unfold verdict
  dsimp only
  rw [hcell]
  generalize versAction ctx (T.headColumn as.head? <<< 2 + T.headColumn bs.head?) = action
  match action with
  | none => rfl
  | some .equal => rfl
  | some .lower => rfl
  | some .greater => rfl
  | some .lex => exact Nat.compare_swap _ _
  | some .num =>
    rw [Option.map_some, VersAction.swap, ← Nat.compare_swap (T.run as.tail), ← Nat.compare_swap (as.headD 0), ← Ordering.swap_then]
    · exact nofun
    · exact nofun

theorem compare_ne_eq {m n : ℕ} (h : m ≠ n) : compare m n ≠ .eq := fun he => h (compare_eq_iff_eq.mp he)

/-- Texts with different first characters are not equal. -/
theorem verdict_ne_eq (h : as.head? ≠ bs.head?) : verdict T ctx as bs ≠ .eq := by
  have hlhs := headColumn_lt (T := T) as.head?
  have hrhs := headColumn_lt (T := T) bs.head?
  obtain ⟨hsome, hlex, hnum⟩ := versAction_spec ctx _ hlhs _ hrhs
  have hequal := (versAction_swap ctx _ hlhs _ hrhs).2
  have hends : ∀ head, T.headColumn head = 0 → head = none := by
    intro head hz
    cases head with
    | none => rfl
    | some ch => exact absurd hz (column_lt ch).1.ne'
  have hchars : 0 < T.headColumn as.head? ∧ 0 < T.headColumn bs.head? → compare (as.headD 0) (bs.headD 0) ≠ .eq := by
    intro hpos
    obtain ⟨a, ha⟩ := headColumn_pos hpos.1
    obtain ⟨b, hb⟩ := headColumn_pos hpos.2
    rw [ha, hb] at h
    rw [List.headD_eq_head?_getD, List.headD_eq_head?_getD, ha, hb]
    exact compare_ne_eq fun hab => h (congrArg some hab)
  obtain ⟨action, haction⟩ := Option.isSome_iff_exists.mp hsome
  unfold verdict
  dsimp only
  rw [haction] at hlex hnum hequal ⊢
  cases action with
  | equal =>
    obtain ⟨ha, hb⟩ := hequal rfl
    exact absurd ((hends _ ha).trans (hends _ hb).symm) h
  | lower => exact nofun
  | greater => exact nofun
  | lex => exact hchars (hlex rfl)
  | num =>
    intro he
    exact hchars (hnum rfl) (Ordering.then_eq_eq.mp he).2

/-- Only equal texts are equal. -/
theorem versOrder_eq_iff (ctx : VersCtx) (as bs : List ℕ) : versOrder T ctx as bs = .eq ↔ as = bs := by
  induction as generalizing ctx bs with
  | nil =>
    by_cases hheads : ([] : List ℕ).head? = bs.head?
    · rw [eq_nil_of_head hheads]
      exact iff_of_true versOrder_nil rfl
    · rw [versOrder_of_ne hheads]
      exact iff_of_false (verdict_ne_eq hheads) fun h => hheads (congrArg List.head? h)
  | cons a as ih =>
    by_cases hheads : (a :: as).head? = bs.head?
    · obtain ⟨bs, rfl⟩ := eq_cons_of_head hheads
      rw [versOrder_cons_self, ih, List.cons_inj_right]
    · rw [versOrder_of_ne hheads]
      exact iff_of_false (verdict_ne_eq hheads) fun h => hheads (congrArg List.head? h)

theorem versOrder_swap (ctx : VersCtx) (as bs : List ℕ) : (versOrder T ctx as bs).swap = versOrder T ctx bs as := by
  induction as generalizing ctx bs with
  | nil =>
    by_cases hheads : ([] : List ℕ).head? = bs.head?
    · rw [eq_nil_of_head hheads, versOrder_nil, Ordering.swap_eq]
    · rw [versOrder_of_ne hheads, versOrder_of_ne (Ne.symm hheads), verdict_swap]
  | cons a as ih =>
    by_cases hheads : (a :: as).head? = bs.head?
    · obtain ⟨bs, rfl⟩ := eq_cons_of_head hheads
      rw [versOrder_cons_self, versOrder_cons_self, ih]
    · rw [versOrder_of_ne hheads, versOrder_of_ne (Ne.symm hheads), verdict_swap]

/-! ### Circles -/

/-- Behind a digit the longer number is not less. -/
theorem run_le_of_versOrder (h : versOrder T .integer as bs ≠ .gt) : T.run as ≤ T.run bs := by
  induction as generalizing bs with
  | nil => exact Nat.zero_le _
  | cons a as ih =>
    cases ha : T.isDigit a with
    | false =>
      rw [run_cons_other ha]
      exact Nat.zero_le _
    | true =>
      by_cases hheads : (a :: as).head? = bs.head?
      · obtain ⟨bs, rfl⟩ := eq_cons_of_head hheads
        rw [versOrder_cons_self, VersCtx.next, ha] at h
        rw [run_cons_digit ha, run_cons_digit ha]
        exact Nat.succ_le_succ (ih h)
      · rw [versOrder_of_ne hheads] at h
        have hlt : verdict T .integer (a :: as) bs = .lt := by
          cases ho : verdict T .integer (a :: as) bs with
          | lt => rfl
          | eq => exact absurd ho (verdict_ne_eq hheads)
          | gt => exact absurd ho h
        rw [verdict_lt_rank (by decide), rank, ha, if_pos rfl] at hlt
        cases bs with
        | nil => simp [rank, Prod.Lex.toLex_lt_toLex] at hlt
        | cons b bs =>
          cases hb : T.isDigit b with
          | false => simp [rank, hb, Prod.Lex.toLex_lt_toLex] at hlt
          | true =>
            simp only [rank, hb, if_true, Prod.Lex.toLex_lt_toLex, lt_irrefl, true_and, false_or] at hlt
            rw [run_cons_digit ha, run_cons_digit hb]
            omega

/-- The rank of two texts that go on with the same character follows what is behind it. -/
theorem rank_le_of_versOrder (h : versOrder T (ctx.next T ch) as bs ≠ .gt) :
    rank T ctx (ch :: as) ≤ rank T ctx (ch :: bs) := by
  cases ctx with
  | integer =>
    cases hdig : T.isDigit ch with
    | false => rw [rank, rank, hdig, if_neg Bool.false_ne_true, if_neg Bool.false_ne_true]
    | true =>
      rw [VersCtx.next, hdig] at h
      have hrun := run_le_of_versOrder h
      rw [rank, rank, hdig, if_pos rfl, if_pos rfl, Prod.Lex.toLex_le_toLex, Prod.Lex.toLex_le_toLex]
      dsimp only
      omega
  | regular => exact le_rfl
  | frac => exact le_rfl
  | zero => exact le_rfl

/-- A text that goes on with the same character as a lesser one is also less than a third. -/
theorem verdict_same_head (hab : versOrder T (ctx.next T ch) as bs ≠ .gt) (hbc : verdict T ctx (ch :: bs) cs = .lt) :
    verdict T ctx (ch :: as) cs = .lt := by
  by_cases hctx : ctx = .regular
  · subst hctx
    by_cases hch : T.Leads ch ∧ T.Number cs
    · obtain ⟨hch, hcs⟩ := hch
      rw [next_regular_digit hch.1, if_neg hch.2] at hab
      have hrun := run_le_of_versOrder hab
      rw [verdict_lt_numbers (DigitTable.number_cons.mpr hch) hcs] at hbc ⊢
      simp only [List.tail_cons, headCode, List.head?_cons] at hbc ⊢
      omega
    · rw [verdict_lt_codes (by rwa [DigitTable.number_cons])] at hbc ⊢
      exact hbc
  · rw [verdict_lt_rank hctx] at hbc ⊢
    exact lt_of_le_of_lt (rank_le_of_versOrder hab) hbc

/-- Two numbers, the shorter of which has the greater first digit, and a text with a first character between them. -/
structure Twist (T : DigitTable) (a b c : List ℕ) : Prop where
  lhs : T.Number a
  rhs : T.Number b
  mid : ¬ T.Number c
  shorter : T.run a.tail < T.run b.tail
  below : headCode b < headCode c
  above : headCode c < headCode a

/-- Three texts in a circle. -/
def Circle (less : List ℕ → List ℕ → Ordering) (a b c : List ℕ) : Prop :=
  less a b = .lt ∧ less b c = .lt ∧ less c a = .lt

theorem Circle.rotate {less : List ℕ → List ℕ → Ordering} {a b c : List ℕ} (h : Circle less a b c) : Circle less b c a :=
  ⟨h.2.1, h.2.2, h.1⟩

section Triples

variable {a b c : List ℕ}

theorem Twist.circle (h : Twist T a b c) : Circle (verdict T .regular) a b c := by
  have hbelow := h.below
  have habove := h.above
  refine ⟨?_, ?_, ?_⟩
  · exact (verdict_lt_numbers h.lhs h.rhs).mpr (.inl h.shorter)
  · exact (verdict_lt_codes fun hn => h.mid hn.2).mpr hbelow
  · exact (verdict_lt_codes fun hn => h.mid hn.1).mpr habove

theorem twist_of_circle (ha : T.Number a) (hb : T.Number b) (hc : ¬ T.Number c) (h : Circle (verdict T .regular) a b c) :
    Twist T a b c := by
  obtain ⟨hab, hbc, hca⟩ := h
  rw [verdict_lt_numbers ha hb] at hab
  rw [verdict_lt_codes fun hn => hc hn.2] at hbc
  rw [verdict_lt_codes fun hn => hc hn.1] at hca
  exact ⟨ha, hb, hc, by omega, hbc, hca⟩

/-- With at most one number among the three, or only numbers, there is no circle. -/
theorem not_circle (ha : T.Number a ↔ T.Number b) (hc : T.Number a → T.Number c) :
    ¬ Circle (verdict T .regular) a b c := by
  rintro ⟨hab, hbc, hca⟩
  by_cases hn : T.Number a
  · rw [verdict_lt_numbers hn (ha.mp hn)] at hab
    rw [verdict_lt_numbers (ha.mp hn) (hc hn)] at hbc
    rw [verdict_lt_numbers (hc hn) hn] at hca
    omega
  · have hnb : ¬ T.Number b := fun h => hn (ha.mpr h)
    rw [verdict_lt_codes fun h => hn h.1] at hab
    rw [verdict_lt_codes fun h => hnb h.1] at hbc
    rw [verdict_lt_codes fun h => hn h.2] at hca
    omega

theorem circle_regular (h : Circle (verdict T .regular) a b c) : Twist T a b c ∨ Twist T b c a ∨ Twist T c a b := by
  by_cases ha : T.Number a <;> by_cases hb : T.Number b <;> by_cases hc : T.Number c
  · exact absurd h (not_circle (by tauto) fun _ => hc)
  · exact .inl (twist_of_circle ha hb hc h)
  · exact .inr (.inr (twist_of_circle hc ha hb h.rotate.rotate))
  · exact absurd h.rotate (not_circle (by tauto) (by tauto))
  · exact .inr (.inl (twist_of_circle hb hc ha h.rotate))
  · exact absurd h.rotate.rotate (not_circle (by tauto) (by tauto))
  · exact absurd h (not_circle (by tauto) (by tauto))
  · exact absurd h (not_circle (by tauto) (by tauto))

/-- Two of three texts that go on with the same character are on the same side of the third. -/
theorem not_circle_pair (hab : a.head? = b.head?) (hbc : b.head? ≠ c.head?) : ¬ Circle (versOrder T ctx) a b c := by
  rintro ⟨hless, hbelow, habove⟩
  cases a with
  | nil =>
    rw [eq_nil_of_head hab, versOrder_nil] at hless
    cases hless
  | cons ch a =>
    obtain ⟨b, rfl⟩ := eq_cons_of_head hab
    rw [versOrder_cons_self] at hless
    rw [versOrder_of_ne hbc] at hbelow
    have hac := verdict_same_head (by rw [hless]; decide) hbelow
    have hverdict : versOrder T ctx (ch :: a) c = verdict T ctx (ch :: a) c := versOrder_of_ne hbc
    rw [← versOrder_swap, hverdict, hac] at habove
    cases habove

/-- Behind a common start that ends in no digit, two numbers and a text with a first character between theirs. -/
def Twisted (T : DigitTable) (ctx : VersCtx) (a b c : List ℕ) : Prop :=
  ∃ u a' b' c', a = u ++ a' ∧ b = u ++ b' ∧ c = u ++ c' ∧ ctxAfter T ctx u = .regular ∧ Twist T a' b' c'

theorem Twist.twisted (h : Twist T a b c) : Twisted T .regular a b c := ⟨[], a, b, c, rfl, rfl, rfl, rfl, h⟩

theorem Twisted.cons (h : Twisted T (ctx.next T ch) a b c) : Twisted T ctx (ch :: a) (ch :: b) (ch :: c) := by
  obtain ⟨u, a', b', c', rfl, rfl, rfl, hu, htwist⟩ := h
  exact ⟨ch :: u, a', b', c', rfl, rfl, rfl, hu, htwist⟩

theorem Twisted.circle (h : Twisted T ctx a b c) : Circle (versOrder T ctx) a b c := by
  obtain ⟨u, a', b', c', rfl, rfl, rfl, hu, htwist⟩ := h
  have hless : ∀ {as bs}, headCode as ≠ headCode bs → verdict T .regular as bs = .lt →
      versOrder T ctx (u ++ as) (u ++ bs) = .lt := by
    intro as bs hcode hlt
    have hheads : as.head? ≠ bs.head? := fun h => hcode (congrArg (·.elim 0 Nat.succ) h)
    rw [versOrder_append, hu, versOrder_of_ne hheads, hlt]
  have hbelow := htwist.below
  have habove := htwist.above
  obtain ⟨hab, hbc, hca⟩ := htwist.circle
  exact ⟨hless (by omega) hab, hless (by omega) hbc, hless (by omega) hca⟩

/-- The texts of a circle go on with the same character, or with three different ones. -/
theorem circle_heads (h : Circle (versOrder T ctx) a b c) :
    (∃ ch a' b' c', a = ch :: a' ∧ b = ch :: b' ∧ c = ch :: c' ∧ Circle (versOrder T (ctx.next T ch)) a' b' c') ∨
      a.head? ≠ b.head? ∧ b.head? ≠ c.head? ∧ c.head? ≠ a.head? := by
  by_cases hab : a.head? = b.head?
  · by_cases hbc : b.head? = c.head?
    · cases a with
      | nil =>
        have hless := h.1
        rw [eq_nil_of_head hab, versOrder_nil] at hless
        cases hless
      | cons ch a =>
        obtain ⟨b, rfl⟩ := eq_cons_of_head hab
        obtain ⟨c, rfl⟩ := eq_cons_of_head hbc
        obtain ⟨h1, h2, h3⟩ := h
        rw [versOrder_cons_self] at h1 h2 h3
        exact .inl ⟨ch, a, b, c, rfl, rfl, rfl, h1, h2, h3⟩
    · exact absurd h (not_circle_pair hab hbc)
  · by_cases hbc : b.head? = c.head?
    · exact absurd h.rotate (not_circle_pair hbc fun hca => hab (hbc.trans hca).symm)
    · by_cases hca : c.head? = a.head?
      · exact absurd h.rotate.rotate (not_circle_pair hca hab)
      · exact .inr ⟨hab, hbc, hca⟩

/-- Three different characters make a circle in the regular context only. -/
theorem twisted_of_heads (hab : a.head? ≠ b.head?) (hbc : b.head? ≠ c.head?) (hca : c.head? ≠ a.head?)
    (h : Circle (versOrder T ctx) a b c) : Twisted T ctx a b c ∨ Twisted T ctx b c a ∨ Twisted T ctx c a b := by
  obtain ⟨h1, h2, h3⟩ := h
  rw [versOrder_of_ne hab] at h1
  rw [versOrder_of_ne hbc] at h2
  rw [versOrder_of_ne hca] at h3
  by_cases hctx : ctx = .regular
  · subst hctx
    rcases circle_regular ⟨h1, h2, h3⟩ with htwist | htwist | htwist
    · exact .inl htwist.twisted
    · exact .inr (.inl htwist.twisted)
    · exact .inr (.inr htwist.twisted)
  · rw [verdict_lt_rank hctx] at h1 h2 h3
    exact absurd ((h1.trans h2).trans h3) (lt_irrefl _)

theorem twisted_of_circle (h : Circle (versOrder T ctx) a b c) :
    Twisted T ctx a b c ∨ Twisted T ctx b c a ∨ Twisted T ctx c a b := by
  induction a generalizing ctx b c with
  | nil =>
    rcases circle_heads h with ⟨ch, a', b', c', ha, -⟩ | ⟨hab, hbc, hca⟩
    · cases ha
    · exact twisted_of_heads hab hbc hca h
  | cons ch a ih =>
    rcases circle_heads h with ⟨ch', a', b, c, ha, rfl, rfl, hrest⟩ | ⟨hab, hbc, hca⟩
    · obtain ⟨rfl, rfl⟩ := List.cons.inj ha
      rcases ih hrest with htwist | htwist | htwist
      · exact .inl htwist.cons
      · exact .inr (.inl htwist.cons)
      · exact .inr (.inr htwist.cons)
    · exact twisted_of_heads hab hbc hca h

theorem circle_iff : Circle (versOrder T ctx) a b c ↔ Twisted T ctx a b c ∨ Twisted T ctx b c a ∨ Twisted T ctx c a b := by
  constructor
  · exact twisted_of_circle
  · rintro (h | h | h)
    · exact h.circle
    · exact h.circle.rotate.rotate
    · exact h.circle.rotate

theorem next_digit_ne (hdig : T.isDigit ch = true) : VersCtx.next T ctx ch ≠ .regular := by
  cases ctx with
  | regular =>
    rw [next_regular_digit hdig]
    split <;> decide
  | zero =>
    rw [next_zero_digit hdig]
    split <;> decide
  | integer | frac =>
    unfold VersCtx.next
    simp [hdig]

/-- A text that ends in no digit leaves the regular context. -/
theorem ctxAfter_regular_iff (u : List ℕ) :
    ctxAfter T .regular u = .regular ↔ ∀ ch ∈ u.getLast?, T.isDigit ch = false := by
  rcases List.eq_nil_or_concat u with rfl | ⟨u, ch, rfl⟩
  · exact iff_of_true rfl nofun
  · rw [List.concat_eq_append, ctxAfter_append, List.getLast?_concat]
    cases hdig : T.isDigit ch with
    | false =>
      refine iff_of_true (next_other hdig) fun d hd => ?_
      rwa [← Option.some.inj hd]
    | true =>
      refine iff_of_false ?_ fun h => absurd (h ch rfl) (by rw [hdig]; decide)
      exact next_digit_ne hdig

end Triples

/-! ### Which texts are in order -/

/-- The condition under which the comparison goes round: behind a common start whose last character is no digit, two of the
texts go on with numbers, the shorter of which has the greater first digit, and the third goes on with a character that
starts no number and lies between the two digits. -/
def RoundAbout (T : DigitTable) (a b c : List ℕ) : Prop :=
  ∃ u a' b' c', a = u ++ a' ∧ b = u ++ b' ∧ c = u ++ c' ∧ (∀ ch ∈ u.getLast?, T.isDigit ch = false) ∧ Twist T a' b' c'

theorem twisted_iff (a b c : List ℕ) : Twisted T .regular a b c ↔ RoundAbout T a b c := by
  simp only [Twisted, RoundAbout, ctxAfter_regular_iff]

/-- Lower or equal. -/
def AtMost (T : DigitTable) (lhs rhs : List ℕ) : Prop := strverscmp T lhs rhs = some .lt ∨ strverscmp T lhs rhs = some .eq

/-- The comparison of three texts is as in a total order, and that of the case-folded texts. -/
structure VersionOrder (T : DigitTable) (F : Folding) (a b c : List ℕ) : Prop where
  equal : strverscmp T a b = some .eq ↔ a = b
  opposite : ∃ o, strverscmp T a b = some o ∧ strverscmp T b a = some o.swap
  transitive : AtMost T a b → AtMost T b c → AtMost T a c
  folded : strcaseverscmp T F a b = strverscmp T (F.foldText a) (F.foldText b)

theorem atMost_iff (a b : List ℕ) : AtMost T a b ↔ versOrder T .regular b a ≠ .lt := by
  rw [AtMost, strverscmp_eq, ← versOrder_swap .regular a b]
  cases versOrder T .regular a b <;> decide

theorem versOrder_lt_of_ne {a b : List ℕ} (hne : a ≠ b) (h : versOrder T ctx b a ≠ .lt) : versOrder T ctx a b = .lt := by
  rw [← versOrder_swap ctx a b] at h
  cases ho : versOrder T ctx a b with
  | lt => rfl
  | eq => exact absurd ((versOrder_eq_iff ctx a b).mp ho) hne
  | gt => exact absurd (by rw [ho, Ordering.swap_gt]) h

/-- Transitivity fails in circles only. -/
theorem atMost_trans_iff (a b c : List ℕ) :
    (AtMost T a b → AtMost T b c → AtMost T a c) ↔ ¬ Circle (versOrder T .regular) a b c := by
  rw [atMost_iff, atMost_iff, atMost_iff]
  constructor
  · rintro htrans ⟨hab, hbc, hca⟩
    refine htrans ?_ ?_ hca
    · rw [← versOrder_swap, hab]
      decide
    · rw [← versOrder_swap, hbc]
      decide
  · intro hcircle hba hcb hca
    have hab : a ≠ b := fun h => hcb (h ▸ hca)
    have hbc : b ≠ c := fun h => hba (h ▸ hca)
    exact hcircle ⟨versOrder_lt_of_ne hab hba, versOrder_lt_of_ne hbc hcb, hca⟩

/-- Version comparison is a total order just for the texts that do not go round. -/
theorem versionOrder_iff (T : DigitTable) (F : Folding) (a b c : List ℕ) :
    VersionOrder T F a b c ↔ ¬ (RoundAbout T a b c ∨ RoundAbout T b c a ∨ RoundAbout T c a b) := by
  rw [← twisted_iff, ← twisted_iff, ← twisted_iff, ← circle_iff, ← atMost_trans_iff]
  constructor
  · exact fun h => h.transitive
  · intro htrans
    refine ⟨?_, ⟨_, strverscmp_eq a b, ?_⟩, htrans, ?_⟩
    · rw [strverscmp_eq, Option.some.injEq, versOrder_eq_iff]
    · rw [strverscmp_eq, versOrder_swap]
    · rw [strcaseverscmp_eq, strverscmp_eq]

/-- The digits `0` to `9` and `U+0660` to `U+0669`. -/
def twoDigitRows : DigitTable where
  isDigit ch := (0x30 ≤ ch && ch ≤ 0x39) || (0x660 ≤ ch && ch ≤ 0x669)
  digitIdx ch := if ch < 0x660 then ch - 0x30 else ch - 0x660

/-- The digit `U+0661` is below `99`, that is below `a`, and that is below the digit. -/
theorem versionOrder_fails : ¬ VersionOrder twoDigitRows ⟨fun ch => [ch], by simp, by simp⟩ [0x661] [0x39, 0x39] [0x61] := by
  intro h
  rcases h.transitive (.inl (by decide)) (.inl (by decide)) with hlt | heq
  · exact absurd hlt (by decide)
  · exact absurd heq (by decide)

end Deemon.Unicode
