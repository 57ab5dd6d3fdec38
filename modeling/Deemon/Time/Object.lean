import Deemon.Time.Calendar

/-!
# Time objects

A `DeeTimeObject` is a number of nanoseconds or of months. `_DeeTime_GetRepr` reads one of its fields and
`DeeTime_SetRepr` overwrites one; `makedate` sets the year, the month and the day of the month of a fresh object.
-/

namespace Deemon.Time

open Deemon.Run Deemon.Periods

variable {p : Int128}

/-! ### Objects and their fields -/

/-- `TIME_TYPE_*`. -/
inductive TimeType where
  | nanoseconds
  | months
deriving DecidableEq

/-- `TIME_KIND_*`. -/
inductive TimeKind where
  | timestamp
  | delta
deriving DecidableEq

/-- `DeeTimeObject`; `value` is `t_nanos` or `t_months`, by the type. -/
structure DeeTimeObject where
  value : ℤ
  type : TimeType
  kind : TimeKind
deriving DecidableEq

/-- `TIME_REPR_*`: the fields of a time, and the totals (`TIME_REPR_PLURAL`). -/
inductive TimeRepr where
  | nanosecond | microsecond | millisecond | second | minute | hour | wday | mweek | month | year | decade
  | century | millennium | mday | yday | yweek
  | nanoseconds | microseconds | milliseconds | seconds | minutes | hours | days | weeks | months | years
  | decades | centuries | millennia

abbrev nanosecondsPerMicrosecond : ℤ := 1000

abbrev nanosecondsPerMillisecond : ℤ := 1000000

abbrev nanosecondsPerSecond : ℤ := 1000000000

abbrev nanosecondsPerMinute : ℤ := 60000000000

abbrev nanosecondsPerHour : ℤ := 3600000000000

abbrev nanosecondsPerWeek : ℤ := 604800000000000

abbrev nanosecondsPerMonthAvg : ℤ := 2629746000000000

abbrev nanosecondsPerYearAvg : ℤ := 31556952000000000

abbrev nanosecondsPerDecadeAvg : ℤ := 315569520000000000

abbrev nanosecondsPerCenturyAvg : ℤ := 3155695200000000000

abbrev nanosecondsPerMillenniumAvg : ℤ := 31556952000000000000

/-- `time_inplace_day2decade`, `_day2century` and `_day2millennium`, by the years of the unit. -/
def timeInplaceNanosecond2years (unit value : ℤ) : Option ℤ := do
  some ((← timeInplaceNanosecond2year value) / unit)

/-- `time_inplace_decade2nanosecond` and its two siblings, by the years of the unit. -/
def timeInplaceYears2nanosecond (p : Int128) (unit value : ℤ) : Option ℤ :=
  timeInplaceYear2nanosecond p (p.wrap (value * unit))

/-! ### Reading a field -/

/-- `TIME_REPR_MWEEK` and `TIME_REPR_YWEEK`: the week, from the start of the month or the year. -/
def weekSince (p : Int128) (nanoseconds start : ℤ) : ℤ :=
  -- the added day is there because 01-01-0000 was a saturday
  let startOfWeek0 := p.wrap (p.wrap (start / nanosecondsPerWeek * nanosecondsPerWeek) + nanosecondsPerDay)
  let week := p.wrap (nanoseconds - startOfWeek0) / nanosecondsPerWeek
  if startOfWeek0 = start then week + 1 else week

/-- The start of the month of a nanosecond. -/
def startOfMonth (p : Int128) (nanoseconds : ℤ) : Option ℤ := do
  timeInplaceMonth2nanosecond p (← timeInplaceNanosecond2month p nanoseconds)

/-- The start of the year of a nanosecond. -/
def startOfYear (p : Int128) (nanoseconds : ℤ) : Option ℤ := do
  timeInplaceYear2nanosecond p (← timeInplaceNanosecond2year nanoseconds)

/-- The second `switch` of `_DeeTime_GetRepr`. -/
def getReprNanoseconds (p : Int128) (nanoseconds : ℤ) : TimeRepr → Option ℤ
  | .nanosecond => some (nanoseconds % nanosecondsPerSecond)
  | .microsecond => some (nanoseconds % nanosecondsPerSecond / nanosecondsPerMicrosecond)
  | .millisecond => some (nanoseconds % nanosecondsPerSecond / nanosecondsPerMillisecond)
  | .second => some (nanoseconds % nanosecondsPerMinute / nanosecondsPerSecond)
  | .minute => some (nanoseconds % nanosecondsPerHour / nanosecondsPerMinute)
  | .hour => some (nanoseconds % nanosecondsPerDay / nanosecondsPerHour)
  | .wday => some (p.wrap (nanoseconds - nanosecondsPerDay) % nanosecondsPerWeek / nanosecondsPerDay)
  | .mweek => do some (weekSince p nanoseconds (← startOfMonth p nanoseconds))
  | .month => do some ((← timeInplaceNanosecond2month p nanoseconds) % monthsPerYear + 1)
  | .months => some (nanoseconds / nanosecondsPerMonthAvg)
  | .year => timeInplaceNanosecond2year nanoseconds
  | .years => some (nanoseconds / nanosecondsPerYearAvg)
  | .decade => timeInplaceNanosecond2years 10 nanoseconds
  | .decades => some (nanoseconds / nanosecondsPerDecadeAvg)
  | .century => timeInplaceNanosecond2years 100 nanoseconds
  | .centuries => some (nanoseconds / nanosecondsPerCenturyAvg)
  | .millennium => timeInplaceNanosecond2years 1000 nanoseconds
  | .millennia => some (nanoseconds / nanosecondsPerMillenniumAvg)
  | .mday => do some (p.wrap (nanoseconds - (← startOfMonth p nanoseconds)) / nanosecondsPerDay + 1)
  | .yday => do some (p.wrap (nanoseconds - (← startOfYear p nanoseconds)) / nanosecondsPerDay + 1)
  | .yweek => do some (weekSince p nanoseconds (← startOfYear p nanoseconds))
  | .nanoseconds => some nanoseconds
  | .microseconds => some (nanoseconds / nanosecondsPerMicrosecond)
  | .milliseconds => some (nanoseconds / nanosecondsPerMillisecond)
  | .seconds => some (nanoseconds / nanosecondsPerSecond)
  | .minutes => some (nanoseconds / nanosecondsPerMinute)
  | .hours => some (nanoseconds / nanosecondsPerHour)
  | .days => some (timeInplaceNanoseconds2days nanoseconds)
  | .weeks => some (nanoseconds / nanosecondsPerWeek)

/-- The first `switch` of `_DeeTime_GetRepr`: the fields that a number of months has by itself. -/
def getReprMonths (tMonths : ℤ) : TimeRepr → Option ℤ
  | .nanosecond | .microsecond | .millisecond | .second | .minute | .hour | .wday | .mweek | .mday => some 0
  | .month => some (tMonths % monthsPerYear + 1)
  | .months => some tMonths
  | .years => some (tMonths / monthsPerYear)
  | .decades => some (tMonths / 120)
  | .centuries => some (tMonths / 1200)
  | .millennia => some (tMonths / 12000)
  | _ => none

/-- `_DeeTime_GetRepr`. -/
def deeTimeGetRepr (p : Int128) (self : DeeTimeObject) (repr : TimeRepr) : Option ℤ :=
  match self.type with
  | .months =>
    match getReprMonths self.value repr with
    | some result => some result
    | none => do getReprNanoseconds p (← timeInplaceMonth2nanosecond p self.value) repr
  | .nanoseconds => getReprNanoseconds p self.value repr

/-! ### Writing a field -/

/-- `DeeTime_MakeTimestamp`. -/
def deeTimeMakeTimestamp (p : Int128) (self : DeeTimeObject) : DeeTimeObject :=
  { value := match self.type with
      | .months => p.wrap (self.value * nanosecondsPerMonthAvg)
      | .nanoseconds => self.value
    type := .nanoseconds
    kind := .timestamp }

/-- `time_inplace_clearmod64_keepmod64`. -/
def clearmodKeepmod (p : Int128) (value clearmodMask keepmodMask : ℤ) : ℤ :=
  p.wrap (p.wrap (value - value % clearmodMask) + value % keepmodMask)

/-- `TIME_REPR_MONTH` of `DeeTime_SetRepr`: the day of the month is clamped to the length of the new month. -/
def setMonth (p : Int128) (tNanos value : ℤ) : Option ℤ := do
  let oldMonths ← timeInplaceNanosecond2month p tNanos
  let nanoSinceStartOfMonth := p.wrap (tNanos - (← timeInplaceMonth2nanosecond p oldMonths))
  let oldMonth := oldMonths % monthsPerYear + 1
  let newMonths := p.wrap (oldMonths + p.wrap (value - oldMonth))
  let newYear := newMonths / monthsPerYear
  let newMonth := (newMonths % monthsPerYear).toNat
  let newMonthLengthInDays ← monthGetlen (monthInfoForYear newYear) newMonth
  let newMonthLength := timeInplaceDays2nanoseconds p newMonthLengthInDays
  let nanoSinceStartOfMonth :=
    if newMonthLength ≤ nanoSinceStartOfMonth then newMonthLength - 1 else nanoSinceStartOfMonth
  some (p.wrap ((← timeInplaceMonth2nanosecond p newMonths) + nanoSinceStartOfMonth))

/-- `TIME_REPR_YEAR`, `_DECADE`, `_CENTURY` and `_MILLENNIUM` of `DeeTime_SetRepr`, by the years of the unit. -/
def setYears (p : Int128) (unit tNanos value : ℤ) : Option ℤ := do
  let start ← timeInplaceYears2nanosecond p unit (← timeInplaceNanosecond2years unit tNanos)
  some (p.wrap ((← timeInplaceYears2nanosecond p unit value) + p.wrap (tNanos - start)))

/-- A field that is moved by the difference to its old value. -/
def moveBy (p : Int128) (self : DeeTimeObject) (value : ℤ) (read : TimeRepr) (unit : ℤ) : Option ℤ := do
  some (p.wrap (self.value + p.wrap (p.wrap (value - (← deeTimeGetRepr p self read)) * unit)))

/-- A field below the second: the whole second is cleared. -/
def setSubsecond (p : Int128) (tNanos value unit : ℤ) : ℤ :=
  p.wrap (p.wrap (tNanos - tNanos % nanosecondsPerSecond) + p.wrap (value * unit))

/-- A field of the clock or of the week: its period is cleared, and what is finer is kept. -/
def setClock (p : Int128) (tNanos value period unit : ℤ) : ℤ :=
  p.wrap (clearmodKeepmod p tNanos period unit + p.wrap (value * unit))

/-- The second `switch` of `DeeTime_SetRepr`, on a timestamp. -/
def setReprNanoseconds (p : Int128) (self : DeeTimeObject) (value : ℤ) : TimeRepr → Option ℤ
  | .nanosecond => some (setSubsecond p self.value value 1)
  | .microsecond => some (setSubsecond p self.value value nanosecondsPerMicrosecond)
  | .millisecond => some (setSubsecond p self.value value nanosecondsPerMillisecond)
  | .second => some (setClock p self.value value nanosecondsPerMinute nanosecondsPerSecond)
  | .minute => some (setClock p self.value value nanosecondsPerHour nanosecondsPerMinute)
  | .hour => some (setClock p self.value value nanosecondsPerDay nanosecondsPerHour)
  | .wday => some (setClock p self.value value nanosecondsPerWeek nanosecondsPerDay)
  | .mweek => moveBy p self value .mweek nanosecondsPerWeek
  | .month => setMonth p self.value value
  | .year => setYears p 1 self.value value
  | .decade => setYears p 10 self.value value
  | .century => setYears p 100 self.value value
  | .millennium => setYears p 1000 self.value value
  | .mday => moveBy p self value .mday nanosecondsPerDay
  | .yday => moveBy p self value .yday nanosecondsPerDay
  -- the old value is read as a day of the year here
  | .yweek => moveBy p self value .yday nanosecondsPerWeek
  | _ => none

/-- The first `switch` of `DeeTime_SetRepr`: a total replaces the whole object. -/
def setReprTotal (p : Int128) (value : ℤ) : TimeRepr → Option DeeTimeObject
  | .months => some ⟨value, .months, .delta⟩
  | .years => some ⟨p.wrap (value * monthsPerYear), .months, .delta⟩
  | .decades => some ⟨p.wrap (value * 120), .months, .delta⟩
  | .centuries => some ⟨p.wrap (value * 1200), .months, .delta⟩
  | .millennia => some ⟨p.wrap (value * 12000), .months, .delta⟩
  | .nanoseconds => some ⟨value, .nanoseconds, .delta⟩
  | .microseconds => some ⟨p.wrap (value * nanosecondsPerMicrosecond), .nanoseconds, .delta⟩
  | .milliseconds => some ⟨p.wrap (value * nanosecondsPerMillisecond), .nanoseconds, .delta⟩
  | .seconds => some ⟨p.wrap (value * nanosecondsPerSecond), .nanoseconds, .delta⟩
  | .minutes => some ⟨p.wrap (value * nanosecondsPerMinute), .nanoseconds, .delta⟩
  | .hours => some ⟨p.wrap (value * nanosecondsPerHour), .nanoseconds, .delta⟩
  | .days => some ⟨timeInplaceDays2nanoseconds p value, .nanoseconds, .delta⟩
  | .weeks => some ⟨p.wrap (value * nanosecondsPerWeek), .nanoseconds, .delta⟩
  | _ => none

/-- `DeeTime_SetRepr`. -/
def deeTimeSetRepr (p : Int128) (self : DeeTimeObject) (value : ℤ) (repr : TimeRepr) : Option DeeTimeObject :=
  match setReprTotal p value repr with
  | some result => some result
  | none => do
    let self := deeTimeMakeTimestamp p self
    some { self with value := ← setReprNanoseconds p self value repr }

/-- `libtime_makedate_f_impl`. -/
def libtimeMakedate (p : Int128) (year month day : ℤ) : Option DeeTimeObject := do
  let result : DeeTimeObject := ⟨0, .nanoseconds, .timestamp⟩
  let result ← deeTimeSetRepr p result year .year
  let result ← deeTimeSetRepr p result month .month
  deeTimeSetRepr p result day .mday

/-! ### Months and years of a time -/

section Starts

variable {x v m n y : ℤ}

/-- Months last as long as their table says. -/
theorem monthStart_succ (n : ℤ) : monthStart (n + 1) =
    monthStart n + monthLength (timeYearsIsleapyear (n / 12)) (n % 12).toNat := by
  obtain ⟨i, hi⟩ := Int.eq_ofNat_of_zero_le (Int.emod_nonneg n (b := 12) (by decide))
  have hlt : i < 12 := by
    have := Int.emod_lt_of_pos n (b := 12) (by decide)
    omega
  have hn : n = n / 12 * 12 + i := by omega
  rw [hi, Int.toNat_natCast]
  conv_lhs => rw [hn, show n / 12 * 12 + (i : ℤ) + 1 = n / 12 * 12 + (i + 1 : ℕ) by push_cast; ring,
    monthStart_of_year _ (by omega : i + 1 ≤ 12), daysBefore_succ _ i hlt, Nat.cast_add, ← add_assoc,
    ← monthStart_of_year _ hlt.le, ← hn]

theorem monthLength_le (leap : Bool) (i : ℕ) : monthLength leap i ≤ 31 := by
  unfold monthLength
  split_ifs <;> omega

/-- A month has 28 to 31 days. -/
theorem monthStart_add_le (n : ℤ) : monthStart n + 28 ≤ monthStart (n + 1) ∧ monthStart (n + 1) ≤ monthStart n + 31 := by
  rw [monthStart_succ]
  have hpos := monthLength_pos (timeYearsIsleapyear (n / 12)) (n % 12).toNat
  have hle := monthLength_le (timeYearsIsleapyear (n / 12)) (n % 12).toNat
  omega

/-- The time since the start of a month is right also where the start is reduced. -/
theorem sinceMonth (h : InPeriod monthNano m x) :
    p.wrap (x - p.wrap (monthStart m * nanosecondsPerDay)) = x - monthStart m * nanosecondsPerDay := by
  obtain ⟨hlo, hhi⟩ := h
  have hlength := monthStart_add_le m
  unfold monthNano at hlo hhi
  rw [Int128.wrap_sub_wrap]
  refine Int128.wrap_of_fits (Int128.fits_of_small ?_ ?_)
  all_goals
    unfold nanosecondsPerDay at *
    omega

theorem sinceYear (h : InPeriod yearNano y x) :
    p.wrap (x - p.wrap (yearStart y * nanosecondsPerDay)) = x - yearStart y * nanosecondsPerDay := by
  obtain ⟨hlo, hhi⟩ := h
  have hlength := yearLength_le y
  unfold yearNano at hlo hhi
  rw [yearStart_succ] at hhi
  rw [Int128.wrap_sub_wrap]
  refine Int128.wrap_of_fits (Int128.fits_of_small ?_ ?_)
  all_goals
    unfold nanosecondsPerDay at *
    omega

theorem startOfMonth_eq (h : InPeriod monthNano m x) :
    startOfMonth p x = some (p.wrap (monthStart m * nanosecondsPerDay)) := by
  rw [startOfMonth, timeInplaceNanosecond2month_of_inPeriod h, some_bind, timeInplaceMonth2nanosecond_eq]

theorem startOfYear_eq (h : InPeriod yearNano y x) :
    startOfYear p x = some (p.wrap (yearStart y * nanosecondsPerDay)) := by
  rw [startOfYear, timeInplaceNanosecond2year_of_inPeriod h, some_bind, timeInplaceYear2nanosecond_eq]

/-- The day of the month is read right in every month. -/
theorem getReprNanoseconds_mday (h : InPeriod monthNano m x) :
    getReprNanoseconds p x .mday = some ((x - monthStart m * nanosecondsPerDay) / nanosecondsPerDay + 1) := by
  rw [getReprNanoseconds, startOfMonth_eq h, some_bind, sinceMonth h]

theorem getReprNanoseconds_yday (h : InPeriod yearNano y x) :
    getReprNanoseconds p x .yday = some ((x - yearStart y * nanosecondsPerDay) / nanosecondsPerDay + 1) := by
  rw [getReprNanoseconds, startOfYear_eq h, some_bind, sinceYear h]

/-- A year that begins in an `int128` of nanoseconds is one itself. -/
theorem fits_of_yearStart (h : p.Fits (yearStart y * nanosecondsPerDay)) : p.Fits y := by
  cases p with
  | exact => trivial
  | wrapping =>
    obtain ⟨hlo, hhi⟩ := h
    unfold yearStart nanosecondsPerDay at *
    exact ⟨by omega, by omega⟩

theorem fits_of_monthStart (h : p.Fits (monthStart m * nanosecondsPerDay)) : p.Fits m := by
  cases p with
  | exact => trivial
  | wrapping =>
    obtain ⟨hlo, hhi⟩ := h
    obtain ⟨hfirst, hlast⟩ := inPeriod_year_of_month (inPeriod_self monthStart_strictMono (n := m))
    unfold yearStart nanosecondsPerDay at *
    exact ⟨by omega, by omega⟩

/-- The month is set: the time since its start is clamped to the new length. -/
theorem setMonth_eq (hin : InPeriod monthNano m x)
    (hn : n = m + (v - (m % monthsPerYear + 1))) (hfits : p.Fits n) : setMonth p x v =
      some (p.wrap (monthStart n * nanosecondsPerDay +
        min (x - monthStart m * nanosecondsPerDay) ((monthStart (n + 1) - monthStart n) * nanosecondsPerDay - 1))) := by
  have hlt : (n % monthsPerYear).toNat < 12 := by
    have := Int.emod_lt_of_pos n (b := 12) (by decide)
    show (n % 12).toNat < 12
    omega
  have hlength : timeInplaceDays2nanoseconds p
      (monthLength (timeYearsIsleapyear (n / monthsPerYear)) (n % monthsPerYear).toNat) =
        (monthStart (n + 1) - monthStart n) * nanosecondsPerDay := by
    have hle := monthLength_le (timeYearsIsleapyear (n / monthsPerYear)) (n % monthsPerYear).toNat
    have hsucc : monthStart (n + 1) = monthStart n +
        monthLength (timeYearsIsleapyear (n / monthsPerYear)) (n % monthsPerYear).toNat := monthStart_succ n
    rw [hsucc, add_sub_cancel_left, timeInplaceDays2nanoseconds]
    refine Int128.wrap_of_fits (Int128.fits_of_small ?_ ?_)
    all_goals
      unfold nanosecondsPerDay
      omega
  have hmin : ∀ a b : ℤ, (if b ≤ a then b - 1 else a) = min a (b - 1) := by omega
  unfold setMonth
  rw [timeInplaceNanosecond2month_of_inPeriod hin, some_bind, timeInplaceMonth2nanosecond_eq, some_bind]
  dsimp only
  rw [sinceMonth hin, Int128.wrap_add_wrap, ← hn, Int128.wrap_of_fits hfits, monthInfoForYear, monthGetlen_eq _ _ hlt,
    some_bind, hlength, timeInplaceMonth2nanosecond_eq, some_bind, Int128.wrap_wrap_add, hmin]

/-- The unit of years is set: the time since its start is kept. -/
theorem setYears_eq {unit : ℤ} (hunit : 0 < unit ∧ unit ≤ 1000)
    (hin : InPeriod yearNano y x) (hx : p.Fits x) (hfits : p.Fits (v * unit)) :
    setYears p unit x v = some (p.wrap
      (yearStart (v * unit) * nanosecondsPerDay + (x - yearStart (y / unit * unit) * nanosecondsPerDay))) := by
  have hold : p.Fits (y / unit * unit) := by
    cases p with
    | exact => trivial
    | wrapping =>
      have hle := Int.ediv_mul_le y hunit.1.ne'
      have hlt := Int.lt_ediv_add_one_mul_self y hunit.1
      rw [add_mul, one_mul] at hlt
      obtain ⟨hlo, hhi⟩ := hx
      obtain ⟨hlo', hhi'⟩ := hin
      unfold yearNano yearStart nanosecondsPerDay at *
      exact ⟨by omega, by omega⟩
  unfold setYears timeInplaceYears2nanosecond timeInplaceNanosecond2years
  rw [timeInplaceNanosecond2year_of_inPeriod hin, some_bind, some_bind, Int128.wrap_of_fits hold,
    Int128.wrap_of_fits hfits, timeInplaceYear2nanosecond_eq, timeInplaceYear2nanosecond_eq, some_bind, some_bind,
    Int128.wrap_sub_wrap, Int128.wrap_wrap_add, Int128.wrap_add_wrap]

end Starts

/-! ### Dates -/

/-- A field of a timestamp is overwritten in its nanoseconds. -/
theorem deeTimeSetRepr_timestamp {t t' value : ℤ} {repr : TimeRepr} (htotal : setReprTotal p value repr = none)
    (h : setReprNanoseconds p ⟨t, .nanoseconds, .timestamp⟩ value repr = some t') :
    deeTimeSetRepr p ⟨t, .nanoseconds, .timestamp⟩ value repr = some ⟨t', .nanoseconds, .timestamp⟩ := by
  unfold deeTimeSetRepr deeTimeMakeTimestamp
  rw [htotal]
  dsimp only
  rw [h, some_bind]

/-- The first nanosecond of a day is in the month of the day. -/
theorem inPeriod_day {start : ℤ → ℤ} {n d : ℤ} (h : InPeriod start n d) :
    InPeriod (fun n => start n * nanosecondsPerDay) n (d * nanosecondsPerDay) := by
  rw [InPeriod.scale (by decide), Int.mul_ediv_cancel _ (by decide)]
  exact h

/-- The day of the month of the first nanosecond of a day. -/
theorem mday_day {m d : ℤ} (h : InPeriod monthStart m (monthStart m + d)) :
    getReprNanoseconds p ((monthStart m + d) * nanosecondsPerDay) .mday = some (d + 1) := by
  have hsub : (monthStart m + d) * nanosecondsPerDay - monthStart m * nanosecondsPerDay = d * nanosecondsPerDay := by
    ring
  rw [getReprNanoseconds_mday (inPeriod_day h), hsub, Int.mul_ediv_cancel _ (by decide)]

/-- `makedate` gives the day of the month of the year. -/
theorem libtimeMakedate_eq (y m d : ℤ) : libtimeMakedate .exact y m d =
    some ⟨(monthStart (y * 12 + (m - 1)) + (d - 1)) * nanosecondsPerDay, .nanoseconds, .timestamp⟩ := by
  have hyear : setReprNanoseconds .exact ⟨0, .nanoseconds, .timestamp⟩ y .year =
      some (monthStart (y * 12) * nanosecondsPerDay) := by
    have h0 : InPeriod yearNano 0 0 := by decide
    rw [setReprNanoseconds, setYears_eq (p := .exact) (by decide) h0 trivial trivial, monthStart_january, mul_one]
    exact congrArg some (add_zero _)
  have hmonth : setReprNanoseconds .exact ⟨monthStart (y * 12) * nanosecondsPerDay, .nanoseconds, .timestamp⟩ m .month =
      some (monthStart (y * 12 + (m - 1)) * nanosecondsPerDay) := by
    have hmod : y * 12 % (monthsPerYear : ℤ) = 0 := Int.mul_emod_left y 12
    have hlength := monthStart_add_le (y * 12 + (m - 1))
    rw [setReprNanoseconds, setMonth_eq (p := .exact) (n := y * 12 + (m - 1))
      (inPeriod_self monthNano_strictMono) (by rw [hmod, zero_add]) trivial, sub_self, min_eq_left]
    · exact congrArg some (add_zero _)
    · unfold nanosecondsPerDay
      omega
  have hmday : setReprNanoseconds .exact ⟨monthStart (y * 12 + (m - 1)) * nanosecondsPerDay, .nanoseconds, .timestamp⟩ d
      .mday = some ((monthStart (y * 12 + (m - 1)) + (d - 1)) * nanosecondsPerDay) := by
    have hday := mday_day (p := .exact) (m := y * 12 + (m - 1)) (d := 0) (by
      rw [add_zero]
      exact inPeriod_self monthStart_strictMono)
    rw [add_zero, zero_add] at hday
    rw [setReprNanoseconds, moveBy, deeTimeGetRepr]
    dsimp only
    rw [hday, some_bind, add_mul]
    rfl
  unfold libtimeMakedate
  dsimp only
  rw [deeTimeSetRepr_timestamp rfl hyear, some_bind, deeTimeSetRepr_timestamp rfl hmonth, some_bind,
    deeTimeSetRepr_timestamp rfl hmday]

/-- `y`, `m` and `d` are a date of the calendar; `m` and `d` are 1-based. -/
structure IsDate (y m d : ℤ) : Prop where
  month : 1 ≤ m ∧ m ≤ 12
  day : 1 ≤ d ∧ d ≤ monthLength (timeYearsIsleapyear y) (m - 1).toNat

/-- The month of a date, counted from January of year 0, holds the day of the date. -/
theorem IsDate.inPeriod {y m d : ℤ} (h : IsDate y m d) :
    InPeriod monthStart (y * 12 + (m - 1)) (monthStart (y * 12 + (m - 1)) + (d - 1)) := by
  obtain ⟨hlo, hhi⟩ := h.month
  obtain ⟨i, hi⟩ := Int.eq_ofNat_of_zero_le (show 0 ≤ m - 1 by omega)
  obtain ⟨hd0, hd⟩ := h.day
  rw [hi, Int.toNat_natCast] at hd
  have hlt : i < 12 := by omega
  have hsucc : monthStart (y * 12 + (i : ℤ) + 1) =
      monthStart (y * 12 + i) + monthLength (timeYearsIsleapyear y) i := by
    rw [show y * 12 + (i : ℤ) + 1 = y * 12 + (i + 1 : ℕ) by push_cast; ring, monthStart_of_year y hlt.le,
      monthStart_of_year y hlt, daysBefore_succ _ i hlt, Nat.cast_add, add_assoc]
  rw [hi]
  exact ⟨by omega, by omega⟩

/-- A date is read back as it was made. -/
theorem getRepr_libtimeMakedate {y m d : ℤ} (h : IsDate y m d) : ∃ date, libtimeMakedate .exact y m d = some date ∧
    deeTimeGetRepr .exact date .year = some y ∧ deeTimeGetRepr .exact date .month = some m ∧ deeTimeGetRepr .exact date .mday = some d := by
  obtain ⟨hlo, hhi⟩ := h.month
  have hin := h.inPeriod
  have hdiv : (y * 12 + (m - 1)) / 12 = y := by omega
  have hmod : (y * 12 + (m - 1)) % (monthsPerYear : ℤ) = m - 1 := by
    show (y * 12 + (m - 1)) % 12 = m - 1
    omega
  have hyear := inPeriod_year_of_month hin
  rw [hdiv] at hyear
  refine ⟨_, libtimeMakedate_eq y m d, ?_, ?_, ?_⟩
  · exact timeInplaceNanosecond2year_of_inPeriod (inPeriod_day hyear)
  · show getReprNanoseconds .exact _ .month = _
    rw [getReprNanoseconds, timeInplaceNanosecond2month_of_inPeriod (inPeriod_day hin), some_bind, hmod, sub_add_cancel]
  · show getReprNanoseconds .exact _ .mday = _
    rw [mday_day hin, sub_add_cancel]

/-- The period between two successive values of a conversion to a finer unit. -/
def Between (toFiner : ℤ → Option ℤ) (n t : ℤ) : Prop :=
  ∃ lo hi, toFiner n = some lo ∧ toFiner (n + 1) = some hi ∧ lo ≤ t ∧ t < hi

theorem between_iff {toFiner : ℤ → Option ℤ} {start : ℤ → ℤ} (h : ∀ n, toFiner n = some (start n)) (n t : ℤ) :
    Between toFiner n t ↔ InPeriod start n t := by
  unfold Between InPeriod
  simp [h]

/-- The conversion to the coarser unit gives the only period of the point. -/
theorem between_unique {toFiner : ℤ → Option ℤ} {start : ℤ → ℤ} (h : ∀ n, toFiner n = some (start n))
    (hmono : StrictMono start) {toCoarser : Option ℤ} {t : ℤ} (ht : Ends toCoarser fun n => InPeriod start n t) :
    ∃ n, toCoarser = some n ∧ ∀ k, Between toFiner k t ↔ k = n := by
  obtain ⟨n, hn, hin⟩ := ht
  refine ⟨n, hn, fun k => ?_⟩
  rw [between_iff h]
  exact hin.iff_eq hmono

/-- The calendar is the proleptic Gregorian one. -/
theorem calendar_gregorian :
    (∀ d, ∃ y, timeInplaceDay2year d = some y ∧ ∀ n, Between (timeInplaceYear2day .exact) n d ↔ n = y) ∧
    (∀ y, ∃ first next, timeInplaceYear2day .exact y = some first ∧ timeInplaceYear2day .exact (y + 1) = some next ∧
      next - first = (if timeYearsIsleapyear y then 366 else 365) ∧ first = goodDate2day y 1 1) ∧
    (∀ t, ∃ m, timeInplaceNanosecond2month .exact t = some m ∧ ∀ n, Between (timeInplaceMonth2nanosecond .exact) n t ↔ n = m) ∧
    ∀ y m d, IsDate y m d → ∃ date, libtimeMakedate .exact y m d = some date ∧ deeTimeGetRepr .exact date .year = some y ∧
      deeTimeGetRepr .exact date .month = some m ∧ deeTimeGetRepr .exact date .mday = some d := by
  have hyears : ∀ y, timeInplaceYear2day .exact y = some (yearStart y) := fun y => timeInplaceYear2day_eq y
  have hmonths : ∀ m, timeInplaceMonth2nanosecond .exact m = some (monthStart m * nanosecondsPerDay) :=
    fun m => timeInplaceMonth2nanosecond_eq m
  refine ⟨fun d => ?_, fun y => ?_, fun t => ?_, fun y m d hdate => getRepr_libtimeMakedate hdate⟩
  · exact between_unique hyears yearStart_strictMono (timeInplaceDay2year_ends d)
  · refine ⟨_, _, hyears y, hyears (y + 1), ?_, ?_⟩
    · rw [yearStart_succ, add_sub_cancel_left, yearLength]
    · have hgood := goodDate2day_eq y (show 0 < 12 by decide) 1
      rw [Nat.cast_zero, zero_add, add_zero, sub_self, add_zero, monthStart_january] at hgood
      exact hgood.symm
  · exact between_unique hmonths monthNano_strictMono
      (timeInplaceNanosecond2month_ends t)

/-- The leap day of year 2000 and the last day of year -1. -/
theorem calendar_gregorian_dates :
    (∃ date, libtimeMakedate .exact 2000 2 29 = some date ∧ deeTimeGetRepr .exact date .year = some 2000 ∧
      deeTimeGetRepr .exact date .month = some 2 ∧ deeTimeGetRepr .exact date .mday = some 29) ∧
    ∃ date, libtimeMakedate .exact (-1) 12 31 = some date ∧ deeTimeGetRepr .exact date .year = some (-1) ∧
      deeTimeGetRepr .exact date .month = some 12 ∧ deeTimeGetRepr .exact date .mday = some 31 :=
  ⟨calendar_gregorian.2.2.2 2000 2 29 ⟨by decide, by decide⟩, calendar_gregorian.2.2.2 (-1) 12 31 ⟨by decide, by decide⟩⟩

end Deemon.Time
