import Deemon.Time.Weeks

/-!
# Fields that are read back

`DeeTime_SetRepr` writes a field of the nanoseconds, and `_DeeTime_GetRepr` reads it. The day of the week is written as if
the week began on Saturday, the week of the year is moved by the difference to the day of the year, and the time since the
start of the year may not fit into the new year. All of it is said for times whose periods fit `int128` (`InRange`).
-/

namespace Deemon.Time

open Deemon.Run Deemon.Periods

variable {p : Int128}

/-! ### What is asked for -/

/-- The nanoseconds in which a field is set: months have average length. -/
def DeeTimeObject.averaged (self : DeeTimeObject) : ℤ :=
  match self.type with
  | .months => self.value * nanosecondsPerMonthAvg
  | .nanoseconds => self.value

/-- The unit of a field; for the fields of the date, the day. -/
def TimeRepr.unit : TimeRepr → ℤ
  | .nanosecond => 1
  | .microsecond => nanosecondsPerMicrosecond
  | .millisecond => nanosecondsPerMillisecond
  | .second => nanosecondsPerSecond
  | .minute => nanosecondsPerMinute
  | .hour => nanosecondsPerHour
  | _ => nanosecondsPerDay

/-- The period after which a field of the clock or the day of the week begins anew. -/
def TimeRepr.period : TimeRepr → ℤ
  | .second => nanosecondsPerMinute
  | .minute => nanosecondsPerHour
  | .hour => nanosecondsPerDay
  | .wday => nanosecondsPerWeek
  | _ => nanosecondsPerSecond

/-- The fields of the clock that are finer than a field. The fields below the second are not among each other, as each of
them has the coarser ones in it. -/
def TimeRepr.finer : TimeRepr → List TimeRepr
  | .nanosecond | .microsecond | .millisecond => []
  | .second => [.nanosecond, .microsecond, .millisecond]
  | .minute => [.nanosecond, .microsecond, .millisecond, .second]
  | .hour => [.nanosecond, .microsecond, .millisecond, .second, .minute]
  | _ => [.nanosecond, .microsecond, .millisecond, .second, .minute, .hour]

/-- The nanosecond a unit of years begins with. -/
abbrev years (unit y : ℤ) : ℤ := yearStart (y * unit) * nanosecondsPerDay

/-- A value that a field can have near `x`: in the same second, minute, hour, day, week, month or year. -/
def Valid (x v : ℤ) : TimeRepr → Prop
  | .nanosecond => 0 ≤ v ∧ v < 1000000000
  | .microsecond => 0 ≤ v ∧ v < 1000000
  | .millisecond => 0 ≤ v ∧ v < 1000
  | .second | .minute => 0 ≤ v ∧ v < 60
  | .hour => 0 ≤ v ∧ v < 24
  | .wday => 0 ≤ v ∧ v < 7
  | .mweek => ∃ m u, InPeriod monthNano m x ∧ InPeriod monthNano m u ∧ weekSince .exact u (monthNano m) = v
  | .mday => ∃ m, InPeriod monthNano m x ∧ 1 ≤ v ∧ v ≤ monthStart (m + 1) - monthStart m
  | .month => 1 ≤ v ∧ v ≤ 12
  | .yday => ∃ y, InPeriod (years 1) y x ∧ 1 ≤ v ∧ v ≤ yearLength y
  | .yweek => ∃ y u, InPeriod (years 1) y x ∧ InPeriod (years 1) y u ∧ weekSince .exact u (years 1 y) = v
  | .year | .decade | .century | .millennium => True
  | _ => False

/-- The time since the start of the month is too long for the new month. -/
def Clamps (x v : ℤ) : Prop :=
  ∃ m n, InPeriod monthNano m x ∧ n = m + (v - (m % monthsPerYear + 1)) ∧ monthNano (n + 1) - monthNano n ≤ x - monthNano m

/-- The field is read back, and what is finer than its unit is as before, unless the day was clamped. -/
def ReadsBack (p : Int128) (t : DeeTimeObject) (v : ℤ) (field : TimeRepr) : Prop :=
  ∃ t', deeTimeSetRepr p t v field = some t' ∧ deeTimeGetRepr p t' field = some v ∧
    (field = .month ∧ Clamps t.averaged v ∨ t'.value % field.unit = t.instant % field.unit ∧
      ∀ finer ∈ field.finer, deeTimeGetRepr p t' finer = deeTimeGetRepr p t finer)

/-! ### When it is so -/

/-- A number of months becomes a number of nanoseconds with the same time of the unit. -/
def KeepsFiner (t : DeeTimeObject) (field : TimeRepr) : Prop := t.averaged % field.unit = t.instant % field.unit

/-- The time since the start of the year, decade, century or millennium fits into the new one. -/
def FitsYears (unit x v : ℤ) : Prop :=
  ∃ y, InPeriod (years unit) y x ∧ x - years unit y < years unit (v + 1) - years unit v

/-- The day with which the weeks of a period are counted that begins on day `k`: the start of week 0, unless `k` is a
Saturday. -/
def week0 (k : ℤ) : ℤ := k + 1 - k % 7 - if k % 7 = 1 then 7 else 0

/-- The day in week `v` of the period that begins on day `k`, with the weekday of `x`. -/
def dayOfWeek (x v k : ℤ) : ℤ := week0 k + 7 * v + (x / nanosecondsPerDay - week0 k) % 7

/-- The month has a week `v` with the weekday of `x`. -/
def StaysInMonth (x v : ℤ) : Prop :=
  ∃ m, InPeriod monthNano m x ∧ InPeriod monthStart m (dayOfWeek x v (monthStart m))

/-- The day as many weeks before `x` as its 1-based day of the year says. -/
def weeksBefore (x y : ℤ) : ℤ := x / nanosecondsPerDay - 7 * (x / nanosecondsPerDay - yearStart y + 1)

/-- As many weeks before `x` as its day of the year says, it is week 0 of a year that `v` weeks later has not ended. -/
def StartsInWeek0 (x v : ℤ) : Prop :=
  ∃ y y', InPeriod (years 1) y x ∧ 0 ≤ weeksBefore x y - week0 (yearStart y') ∧
    weeksBefore x y - week0 (yearStart y') < 7 ∧ InPeriod yearStart y' (weeksBefore x y + 7 * v)

/-- When a field is read back. -/
def HoldsWhen (t : DeeTimeObject) (v : ℤ) : TimeRepr → Prop
  | .microsecond => t.instant % nanosecondsPerMicrosecond = 0
  | .millisecond => t.instant % nanosecondsPerMillisecond = 0
  | .wday => False
  | .mweek => KeepsFiner t .mweek ∧ StaysInMonth t.averaged v
  | .month => Clamps t.averaged v ∨ KeepsFiner t .month
  | .yweek => KeepsFiner t .yweek ∧ StartsInWeek0 t.averaged v
  | .year => KeepsFiner t .year ∧ FitsYears 1 t.averaged v
  | .decade => KeepsFiner t .decade ∧ FitsYears 10 t.averaged v
  | .century => KeepsFiner t .century ∧ FitsYears 100 t.averaged v
  | .millennium => KeepsFiner t .millennium ∧ FitsYears 1000 t.averaged v
  | field => KeepsFiner t field

/-! ### The range of the primitives -/

/-- The period in which `x` lies fits. -/
def PeriodFits (p : Int128) (start : ℤ → ℤ) (x : ℤ) : Prop :=
  ∀ n, InPeriod start n x → p.Fits (start n) ∧ p.Fits (start (n + 1) - 1)

/-- The periods in which a field is changed fit: the one of `x` or the one of the new time. -/
def InRange (p : Int128) (x v : ℤ) : TimeRepr → Prop
  | .wday => PeriodFits p (· * nanosecondsPerWeek) x ∧ PeriodFits p (· * nanosecondsPerWeek) (x - nanosecondsPerWeek)
  | .mweek => PeriodFits p monthNano x ∧
    ∀ m, InPeriod monthNano m x → PeriodFits p monthNano (dayOfWeek x v (monthStart m) * nanosecondsPerDay)
  | .month => ∀ m, InPeriod monthNano m x → PeriodFits p monthNano (monthNano (m + (v - (m % monthsPerYear + 1))))
  | .mday => PeriodFits p monthNano x
  | .yday => PeriodFits p (years 1) x
  | .yweek => ∀ y, InPeriod (years 1) y x → PeriodFits p (years 1) ((weeksBefore x y + 7 * v) * nanosecondsPerDay)
  | .year => p.Fits (years 1 v) ∧ p.Fits (years 1 (v + 2) - 1)
  | .decade => p.Fits (years 10 v) ∧ p.Fits (years 10 (v + 2) - 1)
  | .century => p.Fits (years 100 v) ∧ p.Fits (years 100 (v + 2) - 1)
  | .millennium => p.Fits (years 1000 v) ∧ p.Fits (years 1000 (v + 2) - 1)
  | field => PeriodFits p (· * field.period) x

theorem PeriodFits.of_inPeriod {start : ℤ → ℤ} {n x x' : ℤ} (h : PeriodFits p start x) (hx : InPeriod start n x)
    (hx' : InPeriod start n x') : p.Fits x' :=
  (h n hx).1.between (h n hx).2 hx'.1 (Int.le_sub_one_of_lt hx'.2)

/-! ### Weeks, years -/

section Weeks

variable {x u v k a b n y : ℤ}

/-- The week number, in days. -/
theorem weekSince_day (x k : ℤ) : weekSince .exact x (k * nanosecondsPerDay) = (x / nanosecondsPerDay - week0 k) / 7 := by
  rw [weekSince_exact, week0]
  unfold nanosecondsPerDay nanosecondsPerWeek
  split_ifs <;> omega

/-- Weeks of different months are told apart: the end of one month from the start of the next. -/
theorem week_eq_iff {m : ℤ} (hx : InPeriod monthNano n x) (hu : InPeriod monthNano m u)
    (hweek : weekSince .exact x (monthNano m) = weekSince .exact u (monthNano m)) :
    weekSince .exact x (monthNano n) = weekSince .exact u (monthNano m) ↔ n = m := by
  constructor
  · intro heq
    have hlengths := And.intro (monthStart_add_le n) (monthStart_add_le m)
    simp only [weekSince_day, week0] at hweek heq
    unfold InPeriod monthNano nanosecondsPerDay at *
    rcases lt_trichotomy n m with hlt | rfl | hgt
    · -- `x` is at the end of an earlier month
      have hbefore := monthStart_strictMono.monotone (show n + 1 ≤ m by omega)
      split_ifs at hweek heq <;> omega
    · rfl
    · have hbehind := monthStart_strictMono.monotone (show m + 1 ≤ n by omega)
      split_ifs at hweek heq <;> omega
  · rintro rfl
    exact hweek

/-- The unit of years of a time. -/
theorem nanosecond2years_iff {unit : ℤ} (hunit : 0 < unit) :
    timeInplaceNanosecond2years unit x = some v ↔ InPeriod (years unit) v x := by
  obtain ⟨y, hy, hin⟩ := timeInplaceNanosecond2year_ends x
  have hmono : StrictMono fun n => yearStart n * nanosecondsPerDay := yearStart_strictMono.mul_const (by decide)
  have hlo : yearStart (v * unit) * nanosecondsPerDay ≤ x ↔ v * unit ≤ y := by
    constructor
    · intro h
      exact Int.lt_add_one_iff.mp (hmono.lt_iff_lt.mp (lt_of_le_of_lt h hin.2))
    · intro h
      exact (hmono.monotone h).trans hin.1
  have hhi : x < yearStart ((v + 1) * unit) * nanosecondsPerDay ↔ y < (v + 1) * unit := by
    constructor
    · intro h
      exact hmono.lt_iff_lt.mp (lt_of_le_of_lt hin.1 h)
    · intro h
      exact lt_of_lt_of_le hin.2 (hmono.monotone (show y + 1 ≤ (v + 1) * unit by omega))
  rw [timeInplaceNanosecond2years, hy, some_bind, Option.some_inj, InPeriod, years, years, hlo, hhi]
  exact (Int.ediv_eq_iff_of_pos hunit).trans (by rw [add_mul, one_mul])

/-- Years last 365 or 366 days. -/
theorem yearStart_add (y : ℤ) (n : ℕ) : yearStart y + 365 * n ≤ yearStart (y + n) ∧
    yearStart (y + n) ≤ yearStart y + 366 * n := by
  induction n with
  | zero => simp
  | succ n ih =>
    have hsucc := yearStart_succ (y + n)
    have hlo : 365 ≤ yearLength (y + n) := by
      unfold yearLength
      split_ifs <;> omega
    have hhi := yearLength_le (y + n)
    push_cast
    rw [← add_assoc]
    omega

/-- Two units of years are longer than any one. -/
theorem years_length {unit : ℕ} (v y : ℤ) (hunit : 0 < unit) :
    years unit (y + 1) - years unit y < years unit (v + 2) - years unit v := by
  have hnew := (yearStart_add (v * unit) (2 * unit)).1
  have hold := (yearStart_add (y * unit) unit).2
  rw [show v * (unit : ℤ) + (2 * unit : ℕ) = (v + 2) * unit by push_cast; ring] at hnew
  rw [show y * (unit : ℤ) + unit = (y + 1) * unit by ring] at hold
  push_cast at hnew
  unfold years nanosecondsPerDay
  omega

theorem years_one : years 1 = fun n => yearStart n * nanosecondsPerDay := by
  funext n
  rw [years, mul_one]

end Weeks

/-! ### Single fields -/

section Set

variable {t : DeeTimeObject} {v x x' : ℤ} {field : TimeRepr}

theorem period_dvd_unit : ∀ finer ∈ field.finer, finer.period ∣ field.unit := by
  cases field <;> decide

theorem finer_mem_month {finer : TimeRepr} (h : finer ∈ field.finer) : finer ∈ TimeRepr.month.finer := by
  cases field
  all_goals simp only [TimeRepr.finer, List.mem_cons, List.not_mem_nil, or_false] at h ⊢ <;> tauto

/-- A field of the clock is read from the rest of its period, and a number of months has none. -/
theorem read_finer (p : Int128) (x value : ℤ) : ∀ finer ∈ field.finer,
    getReprNanoseconds p x finer = some (x % finer.period / finer.unit) ∧ getReprMonths value finer = some 0 := by
  intro finer hfiner
  replace hfiner := finer_mem_month hfiner
  simp only [TimeRepr.finer, List.mem_cons, List.not_mem_nil, or_false] at hfiner
  rcases hfiner with rfl | rfl | rfl | rfl | rfl | rfl
  · refine ⟨?_, rfl⟩
    show _ = some (x % nanosecondsPerSecond / 1)
    rw [Int.ediv_one]
    rfl
  all_goals exact ⟨rfl, rfl⟩

/-- Two times with the same rest of the unit have the same finer fields. -/
theorem finer_eq (h : x' % field.unit = t.instant % field.unit) : ∀ finer ∈ field.finer,
    deeTimeGetRepr p ⟨x', .nanoseconds, .timestamp⟩ finer = deeTimeGetRepr p t finer := by
  intro finer hfiner
  have hread := (read_finer p t.instant 0 finer hfiner).1
  have hrest : x' % finer.period = t.instant % finer.period := by
    rw [← Int.emod_emod_of_dvd x' (period_dvd_unit finer hfiner), h, Int.emod_emod_of_dvd _ (period_dvd_unit finer hfiner)]
  have hsame : deeTimeGetRepr p t finer = getReprNanoseconds p t.instant finer := by
    obtain ⟨value, type, kind⟩ := t
    cases type with
    | nanoseconds => rfl
    | months =>
      have hday : finer.period ∣ nanosecondsPerDay := period_dvd_unit finer (finer_mem_month hfiner)
      have hzero : (⟨value, .months, kind⟩ : DeeTimeObject).instant % finer.period = 0 :=
        Int.emod_eq_zero_of_dvd (hday.mul_left _)
      rw [hread, hzero, Int.zero_ediv]
      unfold deeTimeGetRepr
      dsimp only
      rw [(read_finer p 0 value finer hfiner).2]
  show getReprNanoseconds p x' finer = _
  rw [hsame, hread, (read_finer p x' 0 finer hfiner).1, hrest]

/-- What is written, and what is read then. -/
theorem readsBack_iff (hx : p.Fits t.averaged) (htotal : setReprTotal p v field = none)
    (hset : setReprNanoseconds p ⟨t.averaged, .nanoseconds, .timestamp⟩ v field = some (p.wrap x')) (hfits : p.Fits x') :
    ReadsBack p t v field ↔ getReprNanoseconds p x' field = some v ∧
      (field = .month ∧ Clamps t.averaged v ∨ x' % field.unit = t.instant % field.unit) := by
  have hmake : deeTimeMakeTimestamp p t = ⟨t.averaged, .nanoseconds, .timestamp⟩ := by
    obtain ⟨value, type, kind⟩ := t
    cases type with
    | nanoseconds => rfl
    | months =>
      unfold deeTimeMakeTimestamp
      dsimp only
      rw [show p.wrap (value * nanosecondsPerMonthAvg) = value * nanosecondsPerMonthAvg from Int128.wrap_of_fits hx]
      rfl
  have hrun : deeTimeSetRepr p t v field = some ⟨x', .nanoseconds, .timestamp⟩ := by
    unfold deeTimeSetRepr
    rw [htotal]
    dsimp only
    rw [hmake, hset, some_bind, Int128.wrap_of_fits hfits]
  constructor
  · rintro ⟨t', ht', hget, hkeeps⟩
    rw [hrun] at ht'
    cases ht'
    exact ⟨hget, hkeeps.imp_right And.left⟩
  · rintro ⟨hget, hkeeps⟩
    exact ⟨_, hrun, hget, hkeeps.imp_right fun h => ⟨h, finer_eq h⟩⟩

/-- A field other than the month, when what is finer is not touched. -/
theorem readsBack_iff_of_same (hmonth : field ≠ .month) (hx : p.Fits t.averaged) (htotal : setReprTotal p v field = none)
    (hset : setReprNanoseconds p ⟨t.averaged, .nanoseconds, .timestamp⟩ v field = some (p.wrap x')) (hfits : p.Fits x')
    (hsame : x' % field.unit = t.averaged % field.unit) :
    ReadsBack p t v field ↔ KeepsFiner t field ∧ getReprNanoseconds p x' field = some v := by
  rw [readsBack_iff hx htotal hset hfits, or_iff_right fun h => hmonth h.1, hsame, and_comm]
  rfl

theorem moveBy_eq {old unit : ℤ} (h : getReprNanoseconds p x field = some old) :
    moveBy p ⟨x, .nanoseconds, .timestamp⟩ v field unit = some (p.wrap (x + (v - old) * unit)) := by
  show (getReprNanoseconds p x field >>= _) = _
  rw [h, some_bind, Int128.wrap_add_wrap, ← Int128.wrap_add_wrap, Int128.wrap_wrap_mul, Int128.wrap_add_wrap]

/-- Whole days later it is the same time of the day. -/
theorem add_days_emod (x k : ℤ) : (x + k * nanosecondsPerDay) % nanosecondsPerDay = x % nanosecondsPerDay :=
  Int.add_mul_emod_self_right x k nanosecondsPerDay

theorem add_weeks_emod (x k : ℤ) : (x + k * nanosecondsPerWeek) % nanosecondsPerDay = x % nanosecondsPerDay := by
  unfold nanosecondsPerDay nanosecondsPerWeek
  omega

/-- Below the second, what is finer is lost. -/
theorem subsecond_readsBack_iff {c : ℤ} (hmonth : field ≠ .month) (hx : p.Fits t.averaged)
    (hrange : PeriodFits p (· * nanosecondsPerSecond) t.averaged) (htotal : setReprTotal p v field = none)
    (hunit : 0 < field.unit ∧ nanosecondsPerSecond = c * field.unit) (hv : 0 ≤ v ∧ v < c)
    (hset : setReprNanoseconds p ⟨t.averaged, .nanoseconds, .timestamp⟩ v field =
      some (setSubsecond p t.averaged v field.unit))
    (hget : ∀ x, getReprNanoseconds p x field = some (x % nanosecondsPerSecond / field.unit)) :
    ReadsBack p t v field ↔ t.instant % field.unit = 0 := by
  obtain ⟨hpos, hsecond⟩ := hunit
  obtain ⟨s, hs⟩ : ∃ s, s = t.averaged / nanosecondsPerSecond := ⟨_, rfl⟩
  have hclear : t.averaged - t.averaged % nanosecondsPerSecond = s * nanosecondsPerSecond := by
    unfold nanosecondsPerSecond at *
    omega
  have hnonneg : 0 ≤ v * field.unit := mul_nonneg hv.1 hpos.le
  have hlt : v * field.unit < nanosecondsPerSecond := by
    rw [hsecond]
    exact mul_lt_mul_of_pos_right hv.2 hpos
  have hfits : p.Fits (s * nanosecondsPerSecond + v * field.unit) := by
    refine hrange.of_inPeriod (n := s) ⟨?_, ?_⟩ ⟨?_, ?_⟩
    all_goals
      dsimp only
      unfold nanosecondsPerSecond at *
      omega
  have hwritten : setSubsecond p t.averaged v field.unit = p.wrap (s * nanosecondsPerSecond + v * field.unit) := by
    rw [setSubsecond, hclear, Int128.wrap_wrap_add, Int128.wrap_add_wrap]
  rw [hwritten] at hset
  have hrest : (s * nanosecondsPerSecond + v * field.unit) % nanosecondsPerSecond = v * field.unit := by
    rw [add_comm, Int.add_mul_emod_self_right, Int.emod_eq_of_lt hnonneg hlt]
  have hlost : (s * nanosecondsPerSecond + v * field.unit) % field.unit = 0 := by
    rw [hsecond, ← mul_assoc, ← add_mul, Int.mul_emod_left]
  rw [readsBack_iff hx htotal hset hfits, hget, hrest, Int.mul_ediv_cancel _ hpos.ne', and_iff_right rfl,
    or_iff_right fun h => hmonth h.1, hlost, eq_comm]

theorem setClock_eq (x v period unit : ℤ) :
    setClock p x v period unit = p.wrap (x - x % period + (x % unit + v * unit)) := by
  rw [setClock, clearmodKeepmod, Int128.wrap_wrap_add, Int128.wrap_add_wrap, add_assoc, Int128.wrap_wrap_add]

/-- A field of the clock is written in its period, and what is finer is kept. -/
theorem clock_readsBack_iff {c : ℤ} (hmonth : field ≠ .month) (hx : p.Fits t.averaged)
    (hrange : PeriodFits p (· * field.period) t.averaged) (htotal : setReprTotal p v field = none)
    (hunit : 0 < field.unit ∧ field.period = c * field.unit) (hv : 0 ≤ v ∧ v < c)
    (hset : setReprNanoseconds p ⟨t.averaged, .nanoseconds, .timestamp⟩ v field =
      some (setClock p t.averaged v field.period field.unit))
    (hget : ∀ x, getReprNanoseconds p x field = some (x % field.period / field.unit)) :
    ReadsBack p t v field ↔ KeepsFiner t field := by
  obtain ⟨hpos, hperiod⟩ := hunit
  obtain ⟨s, hs⟩ : ∃ s, s = t.averaged / field.period := ⟨_, rfl⟩
  obtain ⟨r, hr⟩ : ∃ r, r = t.averaged % field.unit := ⟨_, rfl⟩
  have hr0 : 0 ≤ r := hr ▸ Int.emod_nonneg _ hpos.ne'
  have hr1 : r < field.unit := hr ▸ Int.emod_lt_of_pos _ hpos
  have hc : 0 < c := hv.1.trans_lt hv.2
  have hclear : t.averaged - t.averaged % field.period = s * field.period := by
    rw [hs]
    linarith [Int.ediv_mul_add_emod t.averaged field.period]
  have hnonneg : 0 ≤ r + v * field.unit := add_nonneg hr0 (mul_nonneg hv.1 hpos.le)
  have hlt : r + v * field.unit < field.period := by
    have hnext : (v + 1) * field.unit ≤ c * field.unit := mul_le_mul_of_nonneg_right hv.2 hpos.le
    rw [hperiod]
    linarith
  have hfits : p.Fits (s * field.period + (r + v * field.unit)) := by
    have hrest := Int.emod_nonneg t.averaged (hperiod ▸ mul_pos hc hpos).ne'
    have hrest' := Int.emod_lt_of_pos t.averaged (hperiod ▸ mul_pos hc hpos)
    refine hrange.of_inPeriod (n := s) ⟨?_, ?_⟩ ⟨?_, ?_⟩
    all_goals
      dsimp only
      linarith
  have hwritten : setClock p t.averaged v field.period field.unit = p.wrap (s * field.period + (r + v * field.unit)) := by
    rw [setClock_eq, hclear, ← hr]
  rw [hwritten] at hset
  have hrest : (s * field.period + (r + v * field.unit)) % field.period = r + v * field.unit := by
    rw [add_comm, Int.add_mul_emod_self_right, Int.emod_eq_of_lt hnonneg hlt]
  have hsame : (s * field.period + (r + v * field.unit)) % field.unit = t.averaged % field.unit := by
    rw [hperiod, ← mul_assoc, ← add_assoc, Int.add_mul_emod_self_right, add_comm, Int.add_mul_emod_self_right, hr,
      Int.emod_emod]
  rw [readsBack_iff_of_same hmonth hx htotal hset hfits hsame, hget, hrest, Int.add_mul_ediv_right _ _ hpos.ne',
    Int.ediv_eq_zero_of_lt hr0 hr1, zero_add]
  exact and_iff_left rfl

/-- The day of the week is never read back: it is read from a Sunday and written from a Saturday. -/
theorem wday_not_readsBack (hx : p.Fits t.averaged) (hrange : InRange p t.averaged v .wday) (hv : 0 ≤ v ∧ v < 7) :
    ¬ ReadsBack p t v .wday := by
  obtain ⟨x', hx'⟩ : ∃ x', x' = t.averaged - t.averaged % nanosecondsPerWeek +
    (t.averaged % nanosecondsPerDay + v * nanosecondsPerDay) := ⟨_, rfl⟩
  obtain ⟨hweek, hbefore⟩ := hrange
  have hin : InPeriod (· * nanosecondsPerWeek) (t.averaged / nanosecondsPerWeek) t.averaged := by
    unfold InPeriod nanosecondsPerWeek
    dsimp only
    omega
  have hin' : InPeriod (· * nanosecondsPerWeek) (t.averaged / nanosecondsPerWeek) x' := by
    unfold InPeriod nanosecondsPerWeek nanosecondsPerDay at *
    dsimp only
    omega
  have hfits := hweek.of_inPeriod hin hin'
  have hday : p.Fits (x' - nanosecondsPerDay) := by
    refine ((hbefore (t.averaged / nanosecondsPerWeek - 1) ?_).1).between hfits ?_ ?_
    all_goals
      unfold InPeriod nanosecondsPerWeek nanosecondsPerDay at *
      dsimp only at *
      omega
  have hset : setReprNanoseconds p ⟨t.averaged, .nanoseconds, .timestamp⟩ v .wday = some (p.wrap x') := by
    rw [setReprNanoseconds, setClock_eq, ← hx']
  intro hreads
  have hget := ((readsBack_iff hx rfl hset hfits).mp hreads).1
  rw [getReprNanoseconds, Int128.wrap_of_fits hday, Option.some_inj] at hget
  unfold nanosecondsPerWeek nanosecondsPerDay at *
  omega

theorem years_readsBack_iff (unit : ℕ) (hunit : 0 < unit ∧ unit ≤ 1000) (hmonth : field ≠ .month)
    (hx : p.Fits t.averaged) (hrange : p.Fits (years unit v) ∧ p.Fits (years unit (v + 2) - 1))
    (htotal : setReprTotal p v field = none) (hday : field.unit = nanosecondsPerDay)
    (hset : ∀ x, setReprNanoseconds p ⟨x, .nanoseconds, .timestamp⟩ v field = setYears p unit x v)
    (hget : ∀ x, getReprNanoseconds p x field = timeInplaceNanosecond2years unit x) :
    ReadsBack p t v field ↔ KeepsFiner t field ∧ FitsYears unit t.averaged v := by
  obtain ⟨y, hy⟩ := exists_year t.averaged
  have hpos : (0 : ℤ) < unit := by exact_mod_cast hunit.1
  have hin : InPeriod (years unit) (y / unit) t.averaged := by
    rw [← nanosecond2years_iff hpos, timeInplaceNanosecond2years, timeInplaceNanosecond2year_of_inPeriod hy, some_bind]
  have hmono : StrictMono (years unit) := by
    intro a b hab
    exact mul_lt_mul_of_pos_right (yearStart_strictMono (mul_lt_mul_of_pos_right hab hpos)) (by decide)
  obtain ⟨x', hx'⟩ : ∃ x', x' = years unit v + (t.averaged - years unit (y / unit)) := ⟨_, rfl⟩
  have hfits : p.Fits x' := by
    have hlength := years_length v (y / unit) hunit.1
    obtain ⟨hlo, hhi⟩ := hin
    exact hrange.1.between hrange.2 (by omega) (by omega)
  have hset' := setYears_eq (p := p) ⟨hpos, by exact_mod_cast hunit.2⟩ hy hx (fits_of_yearStart hrange.1)
  rw [readsBack_iff_of_same hmonth hx htotal ((hset _).trans (hset'.trans (by rw [hx']))) hfits (by
    rw [hx', hday]
    unfold years nanosecondsPerDay
    omega), hget, nanosecond2years_iff hpos]
  refine and_congr_right fun _ => ?_
  unfold FitsYears
  constructor
  · rintro ⟨-, hlt⟩
    exact ⟨_, hin, by omega⟩
  · rintro ⟨y', hin', hlt⟩
    rw [hin'.unique hmono hin] at hlt
    obtain ⟨hlo, -⟩ := hin
    exact ⟨by omega, by omega⟩

/-- A week of the month is read back when the month is not left. -/
theorem mweek_readsBack_iff (hx : p.Fits t.averaged) (hvalid : Valid t.averaged v .mweek)
    (hrange : InRange p t.averaged v .mweek) :
    ReadsBack p t v .mweek ↔ KeepsFiner t .mweek ∧ StaysInMonth t.averaged v := by
  obtain ⟨m, u, hin, hu, hv⟩ := hvalid
  obtain ⟨hold, hnew⟩ := hrange
  obtain ⟨day, hday⟩ : ∃ day, day = dayOfWeek t.averaged v (monthStart m) := ⟨_, rfl⟩
  have hread := getReprNanoseconds_mweek hin (hold m hin).1
  rw [weekSince_day] at hread
  obtain ⟨x', hx'⟩ : ∃ x', x' = t.averaged +
    (v - (t.averaged / nanosecondsPerDay - week0 (monthStart m)) / 7) * nanosecondsPerWeek := ⟨_, rfl⟩
  have hmoved : x' / nanosecondsPerDay = day := by
    rw [hx', hday, dayOfWeek]
    unfold nanosecondsPerDay nanosecondsPerWeek
    omega
  obtain ⟨n, hn⟩ := exists_month x'
  have hdays : InPeriod monthStart n day := by
    rwa [InPeriod.scale (by decide), hmoved] at hn
  have hnew' := hnew m hin
  rw [← hday] at hnew'
  have hfits := hnew'.of_inPeriod (inPeriod_day hdays) hn
  have hweek : weekSince .exact x' (monthNano m) = weekSince .exact u (monthNano m) := by
    rw [hv, weekSince_day, hmoved, hday, dayOfWeek]
    omega
  have hstays : StaysInMonth t.averaged v ↔ n = m := by
    constructor
    · rintro ⟨m', hm', hstays⟩
      rw [hm'.unique monthNano_strictMono hin, ← hday] at hstays
      exact hdays.unique monthStart_strictMono hstays
    · rintro rfl
      exact ⟨n, hin, hday ▸ hdays⟩
  have hset : setReprNanoseconds p ⟨t.averaged, .nanoseconds, .timestamp⟩ v .mweek = some (p.wrap x') := by
    rw [setReprNanoseconds, moveBy_eq hread, ← hx']
  rw [readsBack_iff_of_same (by intro h; cases h) hx rfl hset hfits (by
    rw [hx']
    exact add_weeks_emod _ _), getReprNanoseconds_mweek hn (hnew' n (inPeriod_day hdays)).1, Option.some_inj, hstays,
    ← week_eq_iff hn hu hweek, hv]

/-- A week of the year is moved by the wrong difference. -/
theorem yweek_readsBack_iff (hx : p.Fits t.averaged) (hrange : InRange p t.averaged v .yweek) :
    ReadsBack p t v .yweek ↔ KeepsFiner t .yweek ∧ StartsInWeek0 t.averaged v := by
  obtain ⟨y, hy⟩ := exists_year t.averaged
  have hmono : StrictMono fun n => yearStart n * nanosecondsPerDay := yearStart_strictMono.mul_const (by decide)
  obtain ⟨x', hx'⟩ : ∃ x', x' = t.averaged +
    (v - ((t.averaged - yearStart y * nanosecondsPerDay) / nanosecondsPerDay + 1)) * nanosecondsPerWeek := ⟨_, rfl⟩
  have hmoved : x' / nanosecondsPerDay = weeksBefore t.averaged y + 7 * v := by
    rw [hx', weeksBefore]
    unfold nanosecondsPerDay nanosecondsPerWeek
    omega
  obtain ⟨n, hn⟩ := exists_year x'
  have hdays : InPeriod yearStart n (weeksBefore t.averaged y + 7 * v) := by
    rwa [InPeriod.scale (by decide), hmoved] at hn
  have hnew := hrange y (by rwa [years_one])
  rw [years_one] at hnew
  have hfits := hnew.of_inPeriod (inPeriod_day hdays) hn
  have hset : setReprNanoseconds p ⟨t.averaged, .nanoseconds, .timestamp⟩ v .yweek = some (p.wrap x') := by
    rw [setReprNanoseconds, moveBy_eq (getReprNanoseconds_yday hy), ← hx']
  rw [readsBack_iff_of_same (by intro h; cases h) hx rfl hset hfits (by
    rw [hx']
    exact add_weeks_emod _ _), getReprNanoseconds_yweek hn (hnew n (inPeriod_day hdays)).1, Option.some_inj,
    weekSince_day, hmoved]
  refine and_congr_right fun _ => ?_
  unfold StartsInWeek0
  rw [years_one]
  constructor
  · intro hweek
    exact ⟨y, n, hy, by omega, by omega, hdays⟩
  · rintro ⟨y', n', hy', hlo, hhi, hdays'⟩
    rw [hy'.unique hmono hy] at hlo hhi hdays'
    rw [hdays'.unique yearStart_strictMono hdays] at hlo hhi
    omega

/-- A day of the month or the year is always read back. -/
theorem day_readsBack_iff {start : ℤ → ℤ} {n : ℤ} (hmonth : field ≠ .month) (hx : p.Fits t.averaged)
    (hrange : PeriodFits p (fun n => start n * nanosecondsPerDay) t.averaged) (htotal : setReprTotal p v field = none)
    (hunit : field.unit = nanosecondsPerDay)
    (hset : setReprNanoseconds p ⟨t.averaged, .nanoseconds, .timestamp⟩ v field =
      moveBy p ⟨t.averaged, .nanoseconds, .timestamp⟩ v field nanosecondsPerDay)
    (hread : ∀ x, InPeriod (fun n => start n * nanosecondsPerDay) n x →
      getReprNanoseconds p x field = some ((x - start n * nanosecondsPerDay) / nanosecondsPerDay + 1))
    (hin : InPeriod (fun n => start n * nanosecondsPerDay) n t.averaged) (hv : 1 ≤ v ∧ v ≤ start (n + 1) - start n) :
    ReadsBack p t v field ↔ KeepsFiner t field := by
  obtain ⟨x', hx'⟩ : ∃ x', x' = t.averaged +
    (v - ((t.averaged - start n * nanosecondsPerDay) / nanosecondsPerDay + 1)) * nanosecondsPerDay := ⟨_, rfl⟩
  have hin' : InPeriod (fun n => start n * nanosecondsPerDay) n x' := by
    unfold InPeriod nanosecondsPerDay at *
    dsimp only at *
    omega
  have hvalue : (x' - start n * nanosecondsPerDay) / nanosecondsPerDay + 1 = v := by
    unfold nanosecondsPerDay at *
    omega
  rw [readsBack_iff_of_same hmonth hx htotal (hset.trans ((moveBy_eq (hread _ hin)).trans (by rw [← hx'])))
    (hrange.of_inPeriod hin hin') (by
      rw [hx', hunit]
      exact add_days_emod _ _), hread x' hin', hvalue]
  exact and_iff_left rfl

/-- A month is always read back; the time of the day may be clamped. -/
theorem month_readsBack_iff (hx : p.Fits t.averaged) (hv : 1 ≤ v ∧ v ≤ 12) (hrange : InRange p t.averaged v .month) :
    ReadsBack p t v .month ↔ Clamps t.averaged v ∨ KeepsFiner t .month := by
  obtain ⟨m, hin⟩ := exists_month t.averaged
  obtain ⟨n, hn⟩ : ∃ n, n = m + (v - (m % monthsPerYear + 1)) := ⟨_, rfl⟩
  have hself : InPeriod monthNano n (monthNano n) := inPeriod_self monthNano_strictMono
  have hnew := hrange m hin
  rw [← hn] at hnew
  have hclamps : Clamps t.averaged v ↔ monthNano (n + 1) - monthNano n ≤ t.averaged - monthNano m := by
    constructor
    · rintro ⟨m', n', hm', rfl, hle⟩
      rw [hm'.unique monthNano_strictMono hin, ← hn] at hle
      exact hle
    · intro hle
      exact ⟨m, n, hin, hn, hle⟩
  have hmod : n % monthsPerYear + 1 = v := by
    show n % 12 + 1 = v
    rw [hn]
    show (m + (v - (m % 12 + 1))) % 12 + 1 = v
    omega
  have hset : setReprNanoseconds p ⟨t.averaged, .nanoseconds, .timestamp⟩ v .month = _ :=
    setMonth_eq hin hn (fits_of_monthStart (hnew n hself).1)
  obtain ⟨x', hx'⟩ : ∃ x', x' = monthStart n * nanosecondsPerDay +
    min (t.averaged - monthStart m * nanosecondsPerDay) ((monthStart (n + 1) - monthStart n) * nanosecondsPerDay - 1) :=
      ⟨_, rfl⟩
  rw [← hx'] at hset
  have hlength := monthStart_add_le n
  have hmonth : InPeriod monthNano n x' := by
    have hle := hin.1
    unfold InPeriod monthNano nanosecondsPerDay at *
    omega
  have hget : getReprNanoseconds p x' .month = some v := by
    rw [getReprNanoseconds, timeInplaceNanosecond2month_of_inPeriod hmonth, some_bind, hmod]
  rw [readsBack_iff hx rfl hset (hnew.of_inPeriod hself hmonth), and_iff_right hget]
  by_cases hclamp : Clamps t.averaged v
  · exact iff_of_true (.inl ⟨rfl, hclamp⟩) (.inl hclamp)
  · have hsame : x' % nanosecondsPerDay = t.averaged % nanosecondsPerDay := by
      rw [hclamps] at hclamp
      unfold monthNano nanosecondsPerDay at *
      omega
    rw [or_iff_right fun h => hclamp h.2, or_iff_right hclamp, KeepsFiner]
    show x' % nanosecondsPerDay = _ ↔ _
    rw [hsame]
    rfl

end Set

end Deemon.Time
