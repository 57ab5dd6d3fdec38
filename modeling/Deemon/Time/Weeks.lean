import Deemon.Time.Object

/-!
# Week numbers

A week begins on Sunday, and week 1 of a month or a year with its first Sunday. `_DeeTime_GetRepr` counts from the week
in which the month or the year starts, but takes it to start on the Saturday before; only for a first day that is itself
a Saturday is this another week. A month or year whose first nanosecond does not fit `int128` is left out.
-/

namespace Deemon.Time

open Deemon.Run Deemon.Periods

variable {p : Int128}

/-! ### Weeks of a period -/

/-- Midnight at the start of a Sunday. 01-01-0000 was a Saturday. -/
def IsSundayStart (t : ℤ) : Prop := ∃ day, t = day * nanosecondsPerDay ∧ day % 7 = 1

/-- A time on a Sunday. -/
def IsSunday (t : ℤ) : Prop := t / nanosecondsPerDay % 7 = 1

/-- A time on a Saturday. -/
def IsSaturday (t : ℤ) : Prop := t / nanosecondsPerDay % 7 = 0

/-- The start of the first Sunday from `start` on. -/
structure IsFirstSunday (start first : ℤ) : Prop where
  le : start ≤ first
  sunday : IsSundayStart first
  first_le : ∀ t, start ≤ t → IsSundayStart t → first ≤ t

/-- The number of the week of `t` in the period that begins at `start`: 0 in front of the first Sunday, and then 1 plus the
number of whole weeks since. -/
def IsWeekNumber (start t week : ℤ) : Prop :=
  ∃ first, IsFirstSunday start first ∧ week = if t < first then 0 else 1 + (t - first) / nanosecondsPerWeek

/-- What follows for a week number: it is not negative, it is 1 on the first Sunday, and from one nanosecond to the next
it goes up by one exactly when a Sunday begins. -/
structure StepsOnSundays (start t week : ℤ) : Prop where
  nonneg : 0 ≤ week
  first : ∀ first, IsFirstSunday start first → first ≤ t → t < first + nanosecondsPerDay → week = 1
  up : IsSundayStart t → start ≤ t → ∀ before, IsWeekNumber start (t - 1) before → week = before + 1
  stays : ¬ IsSundayStart t → ∀ before, IsWeekNumber start (t - 1) before → week = before

section Weeks

variable {start first first' t k n week : ℤ}

theorem IsFirstSunday.unique (h : IsFirstSunday start first) (h' : IsFirstSunday start first') : first = first' :=
  le_antisymm (h.first_le _ h'.le h'.sunday) (h'.first_le _ h.le h.sunday)

/-- The first Sunday from the start of a day on. -/
theorem isFirstSunday_day (k : ℤ) : IsFirstSunday (k * nanosecondsPerDay) ((k + (1 - k) % 7) * nanosecondsPerDay) := by
  refine ⟨?_, ⟨_, rfl, by omega⟩, ?_⟩
  · unfold nanosecondsPerDay
    omega
  · rintro t ht ⟨day, rfl, hday⟩
    unfold nanosecondsPerDay at *
    omega

theorem isWeekNumber_day_iff : IsWeekNumber (k * nanosecondsPerDay) t week ↔
    week = if t < (k + (1 - k) % 7) * nanosecondsPerDay then 0
      else 1 + (t - (k + (1 - k) % 7) * nanosecondsPerDay) / nanosecondsPerWeek := by
  constructor
  · rintro ⟨first, hfirst, hweek⟩
    rwa [hfirst.unique (isFirstSunday_day k)] at hweek
  · intro hweek
    exact ⟨_, isFirstSunday_day k, hweek⟩

theorem weekSince_exact (t start : ℤ) : weekSince .exact t start =
    if start / nanosecondsPerWeek * nanosecondsPerWeek + nanosecondsPerDay = start then
      (t - (start / nanosecondsPerWeek * nanosecondsPerWeek + nanosecondsPerDay)) / nanosecondsPerWeek + 1
    else (t - (start / nanosecondsPerWeek * nanosecondsPerWeek + nanosecondsPerDay)) / nanosecondsPerWeek := rfl

/-- The week is counted as by exact primitives when the start of the period fits. -/
theorem weekSince_eq (hlo : k * nanosecondsPerDay ≤ t) (hhi : t < (k + 366) * nanosecondsPerDay)
    (hfits : p.Fits (k * nanosecondsPerDay)) :
    weekSince p t (p.wrap (k * nanosecondsPerDay)) = weekSince .exact t (k * nanosecondsPerDay) := by
  obtain ⟨week0, hweek0⟩ : ∃ week0, week0 =
      k * nanosecondsPerDay / nanosecondsPerWeek * nanosecondsPerWeek + nanosecondsPerDay := ⟨_, rfl⟩
  have hsince : p.wrap (t - week0) = t - week0 := by
    refine Int128.wrap_of_fits (Int128.fits_of_small ?_ ?_)
    all_goals
      unfold nanosecondsPerDay nanosecondsPerWeek at *
      omega
  have hsame : p.wrap week0 = k * nanosecondsPerDay ↔ week0 = k * nanosecondsPerDay := by
    constructor
    · intro h
      refine Int128.eq_of_wrap_eq (h.trans (Int128.wrap_of_fits hfits).symm) (Int128.fits_of_small ?_ ?_)
      all_goals
        unfold nanosecondsPerDay nanosecondsPerWeek at *
        omega
    · rintro h
      rw [h, Int128.wrap_of_fits hfits]
  rw [weekSince_exact, Int128.wrap_of_fits hfits]
  unfold weekSince
  dsimp only
  rw [Int128.wrap_wrap_add, ← hweek0, Int128.wrap_sub_wrap, hsince, if_congr hsame rfl rfl]

/-- The week is counted right unless the period begins on a Saturday. -/
theorem weekSince_iff (h : k * nanosecondsPerDay ≤ t) :
    IsWeekNumber (k * nanosecondsPerDay) t (weekSince .exact t (k * nanosecondsPerDay)) ↔ k % 7 ≠ 0 := by
  have hweek0 : k * nanosecondsPerDay / nanosecondsPerWeek * nanosecondsPerWeek = (k - k % 7) * nanosecondsPerDay := by
    unfold nanosecondsPerDay nanosecondsPerWeek
    omega
  have hstart : (k - k % 7) * nanosecondsPerDay + nanosecondsPerDay = k * nanosecondsPerDay ↔ k % 7 = 1 := by
    unfold nanosecondsPerDay
    omega
  rw [isWeekNumber_day_iff, weekSince_exact, hweek0, if_congr hstart rfl rfl]
  unfold nanosecondsPerDay nanosecondsPerWeek at *
  split_ifs <;> omega

theorem IsWeekNumber.stepsOnSundays (h : IsWeekNumber start t week) : StepsOnSundays start t week := by
  obtain ⟨first, hfirst, rfl⟩ := h
  refine ⟨?_, ?_, ?_, ?_⟩
  · unfold nanosecondsPerWeek
    split_ifs <;> omega
  · intro first' hfirst' hle hlt
    rw [hfirst'.unique hfirst] at hle hlt
    unfold nanosecondsPerWeek nanosecondsPerDay at *
    split_ifs <;> omega
  · rintro hsunday hstart before ⟨first', hfirst', rfl⟩
    rw [hfirst'.unique hfirst]
    have hle := hfirst.first_le t hstart hsunday
    obtain ⟨day, rfl, hday⟩ := hsunday
    obtain ⟨day0, rfl, hday0⟩ := hfirst.sunday
    unfold nanosecondsPerWeek nanosecondsPerDay at *
    split_ifs <;> omega
  · rintro hsunday before ⟨first', hfirst', rfl⟩
    rw [hfirst'.unique hfirst]
    obtain ⟨day0, rfl, hday0⟩ := hfirst.sunday
    have hno : ∀ day, t = day * nanosecondsPerDay → day % 7 ≠ 1 := fun day ht hday => hsunday ⟨day, ht, hday⟩
    have hfloor := hno (t / nanosecondsPerDay)
    unfold nanosecondsPerWeek nanosecondsPerDay at *
    split_ifs <;> omega

end Weeks

/-! ### Weeks of a time -/

/-- The nanosecond that a time stands for. -/
def DeeTimeObject.instant (self : DeeTimeObject) : ℤ :=
  match self.type with
  | .months => monthStart self.value * nanosecondsPerDay
  | .nanoseconds => self.value

section Read

variable {ns m y : ℤ}

theorem day_mul_ediv (k : ℤ) : k * nanosecondsPerDay / nanosecondsPerDay = k := Int.mul_ediv_cancel k (by decide)

theorem exists_month (t : ℤ) : ∃ m, InPeriod monthNano m t :=
  (timeInplaceNanosecond2month_ends (p := .exact) t).imp fun _ h => h.2

theorem exists_year (t : ℤ) : ∃ y, InPeriod yearNano y t :=
  (timeInplaceNanosecond2year_ends t).imp fun _ h => h.2

/-- Sundays are the days with number 0. -/
theorem wday_eq_zero_iff (ns : ℤ) :
    (ns - nanosecondsPerDay) % nanosecondsPerWeek / nanosecondsPerDay = 0 ↔ IsSunday ns := by
  unfold IsSunday nanosecondsPerDay nanosecondsPerWeek
  omega

/-- The week of the month, when the start of the month fits. -/
theorem getReprNanoseconds_mweek (hin : InPeriod monthNano m ns)
    (hfits : p.Fits (monthStart m * nanosecondsPerDay)) :
    getReprNanoseconds p ns .mweek = some (weekSince .exact ns (monthStart m * nanosecondsPerDay)) := by
  have hlength := monthStart_add_le m
  have hhi := hin.2
  rw [getReprNanoseconds, startOfMonth_eq hin, some_bind, weekSince_eq hin.1 _ hfits]
  unfold monthNano nanosecondsPerDay at *
  omega

theorem getReprNanoseconds_yweek (hin : InPeriod yearNano y ns)
    (hfits : p.Fits (yearStart y * nanosecondsPerDay)) :
    getReprNanoseconds p ns .yweek = some (weekSince .exact ns (yearStart y * nanosecondsPerDay)) := by
  have hlength := yearLength_le y
  have hhi := hin.2
  rw [getReprNanoseconds, startOfYear_eq hin, some_bind, weekSince_eq hin.1 _ hfits]
  unfold yearNano at hhi
  rw [yearStart_succ] at hhi
  unfold nanosecondsPerDay at *
  omega

/-- The first nanosecond of a month is in week 0 unless the month begins on a Sunday. -/
theorem isWeekNumber_zero_iff (m : ℤ) :
    IsWeekNumber (monthStart m * nanosecondsPerDay) (monthStart m * nanosecondsPerDay) 0 ↔
      ¬ IsSunday (monthStart m * nanosecondsPerDay) := by
  rw [isWeekNumber_day_iff, IsSunday, day_mul_ediv]
  unfold nanosecondsPerDay nanosecondsPerWeek
  split_ifs <;> omega

/-- Every field of the nanoseconds has a value. -/
theorem getReprNanoseconds_week (p : Int128) (ns : ℤ) :
    (∃ week, getReprNanoseconds p ns .mweek = some week) ∧ ∃ week, getReprNanoseconds p ns .yweek = some week := by
  obtain ⟨m, hm⟩ := exists_month ns
  obtain ⟨y, hy⟩ := exists_year ns
  exact ⟨⟨_, by rw [getReprNanoseconds, startOfMonth_eq hm, some_bind]⟩,
    ⟨_, by rw [getReprNanoseconds, startOfYear_eq hy, some_bind]⟩⟩

end Read

/-- The week of the month and the week of the year of a timestamp are right unless the month or the year begins on a
Saturday. A timestamp that is a number of months always has day 0 and week 0 of the month. -/
theorem week_numbers (p : Int128) (t : DeeTimeObject) :
    ∃ m y mweek yweek wday, InPeriod monthNano m t.instant ∧
      InPeriod yearNano y t.instant ∧ deeTimeGetRepr p t .mweek = some mweek ∧
      deeTimeGetRepr p t .yweek = some yweek ∧ deeTimeGetRepr p t .wday = some wday ∧
      (p.Fits (monthStart m * nanosecondsPerDay) → (IsWeekNumber (monthStart m * nanosecondsPerDay) t.instant mweek ↔
        if t.type = .nanoseconds then ¬ IsSaturday (monthStart m * nanosecondsPerDay)
        else ¬ IsSunday (monthStart m * nanosecondsPerDay))) ∧
      (p.Fits t.instant → p.Fits (yearStart y * nanosecondsPerDay) →
        (IsWeekNumber (yearStart y * nanosecondsPerDay) t.instant yweek ↔
          ¬ IsSaturday (yearStart y * nanosecondsPerDay))) ∧
      (IsWeekNumber (monthStart m * nanosecondsPerDay) t.instant mweek →
        StepsOnSundays (monthStart m * nanosecondsPerDay) t.instant mweek) ∧
      (IsWeekNumber (yearStart y * nanosecondsPerDay) t.instant yweek →
        StepsOnSundays (yearStart y * nanosecondsPerDay) t.instant yweek) ∧
      (p.Fits (t.instant - nanosecondsPerDay) →
        ((wday = 0 ↔ IsSunday t.instant) ↔ (t.type = .nanoseconds ∨ IsSunday t.instant))) := by
  obtain ⟨m, hm⟩ := exists_month t.instant
  obtain ⟨y, hy⟩ := exists_year t.instant
  obtain ⟨value, type, kind⟩ := t
  cases type with
  | nanoseconds =>
    replace hm : InPeriod _ m value := hm
    replace hy : InPeriod _ y value := hy
    obtain ⟨⟨mweek, hmweek⟩, ⟨yweek, hyweek⟩⟩ := getReprNanoseconds_week p value
    refine ⟨m, y, mweek, yweek, _, hm, hy, hmweek, hyweek, rfl, fun hfits => ?_, fun _ hfits => ?_,
      IsWeekNumber.stepsOnSundays, IsWeekNumber.stepsOnSundays, fun hfits => ?_⟩
    · rw [getReprNanoseconds_mweek hm hfits, Option.some_inj] at hmweek
      rw [if_pos rfl, ← hmweek, IsSaturday, day_mul_ediv]
      exact weekSince_iff hm.1
    · rw [getReprNanoseconds_yweek hy hfits, Option.some_inj] at hyweek
      rw [← hyweek, IsSaturday, day_mul_ediv]
      exact weekSince_iff hy.1
    · rw [show p.wrap (value - nanosecondsPerDay) = value - nanosecondsPerDay from Int128.wrap_of_fits hfits]
      exact iff_of_true (wday_eq_zero_iff value) (.inl rfl)
  | months =>
    obtain rfl : m = value := hm.unique monthNano_strictMono
      (inPeriod_self monthNano_strictMono)
    obtain ⟨-, ⟨yweek, hyweek⟩⟩ := getReprNanoseconds_week p (p.wrap (monthStart m * nanosecondsPerDay))
    have hread : deeTimeGetRepr p ⟨m, .months, kind⟩ .yweek = some yweek := by
      show (timeInplaceMonth2nanosecond p m >>= fun ns => getReprNanoseconds p ns .yweek) = _
      rw [timeInplaceMonth2nanosecond_eq, some_bind, hyweek]
    refine ⟨m, y, 0, yweek, 0, hm, hy, rfl, hread, rfl, fun _ => ?_, fun hns hfits => ?_, IsWeekNumber.stepsOnSundays,
      IsWeekNumber.stepsOnSundays, fun _ => ?_⟩
    · rw [if_neg (by intro h; cases h)]
      exact isWeekNumber_zero_iff m
    · replace hns : p.Fits (monthStart m * nanosecondsPerDay) := hns
      replace hy : InPeriod _ y (monthStart m * nanosecondsPerDay) := hy
      rw [Int128.wrap_of_fits hns, getReprNanoseconds_yweek hy hfits, Option.some_inj] at hyweek
      rw [← hyweek, IsSaturday, day_mul_ediv]
      exact weekSince_iff hy.1
    · constructor
      · intro h
        exact .inr (h.mp rfl)
      · rintro (h | h)
        · cases h
        · exact iff_of_true rfl h

/-- The week of the first day of year 0, a Saturday, is read as -1. -/
theorem week_numbers_wrong : deeTimeGetRepr .wrapping ⟨0, .nanoseconds, .timestamp⟩ .mweek = some (-1) ∧
    deeTimeGetRepr .wrapping ⟨0, .nanoseconds, .timestamp⟩ .yweek = some (-1) ∧ IsSaturday 0 ∧ ¬ IsWeekNumber 0 0 (-1) := by
  refine ⟨?_, ?_, rfl, ?_⟩
  · decide +kernel
  · decide +kernel
  · intro h
    have hpos := h.stepsOnSundays.nonneg
    omega

end Deemon.Time
