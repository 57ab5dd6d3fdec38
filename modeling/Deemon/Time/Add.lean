import Deemon.Time.Fields

/-!
# Sums of times

`time_add` and `time_sub`. A number of months is added to nanoseconds by the calendar, but nanoseconds are added to a
number of months of average length. The sums are those of the calendar as long as they fit `int128`.
-/

namespace Deemon.Time

open Deemon.Run Deemon.Periods

variable {p : Int128}

/-! ### The code -/

/-- The `ValueError`s of the two operators. -/
inductive TimeError where
  | cannotAddTimestampToTimestamp (self other : DeeTimeObject)
  | cannotSubtractTimestampFromDelta (self other : DeeTimeObject)
deriving DecidableEq

/-- `DeeTime_IsDelta`. -/
def DeeTimeObject.isDelta (self : DeeTimeObject) : Bool := self.kind ≠ .timestamp

/-- Months are added to the month of some nanoseconds. -/
def addMonths (p : Int128) (tNanos months : ℤ) : Option ℤ := do
  -- the kind of the result is not written yet
  let result : DeeTimeObject := ⟨tNanos, .nanoseconds, .timestamp⟩
  let month ← deeTimeGetRepr p result .month
  let result ← deeTimeSetRepr p result (p.wrap (month + months)) .month
  some result.value

/-- The sum of two times; the first one is not a delta, or both are. -/
def sumOf (p : Int128) (self other : DeeTimeObject) : Option DeeTimeObject := do
  let kind := if self.isDelta then other.kind else self.kind
  if self.type = other.type then some ⟨p.wrap (self.value + other.value), self.type, kind⟩
  else if self.type = .nanoseconds then some ⟨← addMonths p self.value other.value, .nanoseconds, kind⟩
  else some ⟨p.wrap (p.wrap (self.value * nanosecondsPerMonthAvg) + other.value), .nanoseconds, kind⟩

/-- `time_add`. -/
def timeAdd (p : Int128) (self other : DeeTimeObject) : Option (Except TimeError DeeTimeObject) :=
  if self.isDelta then
    -- the delta is kept on the right side
    if !other.isDelta then do some (.ok (← sumOf p other self)) else do some (.ok (← sumOf p self other))
  else if !other.isDelta then some (.error (.cannotAddTimestampToTimestamp self other))
  else do some (.ok (← sumOf p self other))

/-- `time_sub`. -/
def timeSub (p : Int128) (self other : DeeTimeObject) : Option (Except TimeError DeeTimeObject) :=
  if self.isDelta ∧ !other.isDelta then some (.error (.cannotSubtractTimestampFromDelta self other))
  else do
    let kind := if !self.isDelta ∧ !other.isDelta then .delta else self.kind
    if self.type = other.type then some (.ok ⟨p.wrap (self.value - other.value), self.type, kind⟩)
    else if self.type = .nanoseconds then
      some (.ok ⟨← addMonths p self.value (-other.value), .nanoseconds, kind⟩)
    else some (.ok ⟨p.wrap (p.wrap (self.value * nanosecondsPerMonthAvg) - other.value), .nanoseconds, kind⟩)

/-- `libtime_months_f_impl`. -/
def libtimeMonths (value : ℤ) : DeeTimeObject := ⟨value, .months, .delta⟩

/-! ### Months -/

/-- The time `later` is `n` months after `ns`: at the same distance from the start of the month if the month is long enough,
and else its last nanosecond. -/
def MonthsLater (ns n later : ℤ) : Prop :=
  ∃ m, InPeriod monthNano m ns ∧ InPeriod monthNano (m + n) later ∧
    later = if ns - monthNano m < monthNano (m + n + 1) - monthNano (m + n) then monthNano (m + n) + (ns - monthNano m)
      else monthNano (m + n + 1) - 1

section Months

variable {t a b : DeeTimeObject} {ns n m later : ℤ}

/-- The time `n` months after one in month `m`. -/
theorem monthsLater_of_month (hin : InPeriod monthNano m ns) (n : ℤ) : MonthsLater ns n (monthStart (m + n) *
    nanosecondsPerDay + min (ns - monthNano m) ((monthStart (m + n + 1) - monthStart (m + n)) * nanosecondsPerDay - 1)) := by
  have hlength := monthStart_add_le (m + n)
  have hle := hin.1
  refine ⟨m, hin, ?_, ?_⟩
  · unfold InPeriod monthNano nanosecondsPerDay at *
    omega
  · unfold monthNano nanosecondsPerDay at *
    split_ifs <;> omega

theorem exists_monthsLater (ns n : ℤ) : ∃ later, MonthsLater ns n later :=
  (exists_month ns).elim fun _ hin => ⟨_, monthsLater_of_month hin n⟩

/-- Months of times that fit are few. -/
theorem fits_of_months {k x c : ℤ} (hm : InPeriod monthNano m ns) (hk : InPeriod monthNano k x) (hns : p.Fits ns)
    (hx : p.Fits x) (hc : 0 ≤ c ∧ c ≤ 12) : p.Fits k ∧ p.Fits (c + (k - m)) := by
  cases p with
  | exact => exact ⟨trivial, trivial⟩
  | wrapping =>
    obtain ⟨hm0, hm1⟩ := inPeriod_year_of_month ((InPeriod.scale (by decide)).mp hm)
    obtain ⟨hk0, hk1⟩ := inPeriod_year_of_month ((InPeriod.scale (by decide)).mp hk)
    obtain ⟨hns0, hns1⟩ := hns
    obtain ⟨hx0, hx1⟩ := hx
    unfold yearStart nanosecondsPerDay at *
    exact ⟨⟨by omega, by omega⟩, by omega, by omega⟩

theorem addMonths_eq (hns : p.Fits ns) (hlater : MonthsLater ns n later) (hfits : p.Fits later) :
    addMonths p ns n = some later := by
  obtain ⟨m, hm, hk, hvalue⟩ := hlater
  have hmod := Int.emod_nonneg m (b := 12) (by decide)
  have hmod' := Int.emod_lt_of_pos m (b := 12) (by decide)
  have hmonth : 0 ≤ m % monthsPerYear + 1 ∧ m % monthsPerYear + 1 ≤ 12 := ⟨by show 0 ≤ m % 12 + 1; omega, hmod'⟩
  obtain ⟨hindex, hsum⟩ := fits_of_months hm hk hns hfits hmonth
  rw [add_sub_cancel_left] at hsum
  have hget : deeTimeGetRepr p ⟨ns, .nanoseconds, .timestamp⟩ .month = some (m % monthsPerYear + 1) := by
    show getReprNanoseconds p ns .month = _
    rw [getReprNanoseconds, timeInplaceNanosecond2month_of_inPeriod hm, some_bind]
  have hset := setMonth_eq (p := p) (v := m % monthsPerYear + 1 + n) hm (by rw [add_sub_cancel_left]) hindex
  obtain ⟨m', hm', -, hvalue'⟩ := monthsLater_of_month hm n
  rw [hm'.unique monthNano_strictMono hm, ← hvalue] at hvalue'
  rw [show monthNano m = monthStart m * nanosecondsPerDay from rfl] at hvalue'
  rw [hvalue', Int128.wrap_of_fits hfits] at hset
  have hrun : deeTimeSetRepr p ⟨ns, .nanoseconds, .timestamp⟩ (m % monthsPerYear + 1 + n) .month =
      some ⟨later, .nanoseconds, .timestamp⟩ := deeTimeSetRepr_timestamp rfl hset
  unfold addMonths
  dsimp only
  rw [hget, some_bind, Int128.wrap_of_fits hsum, hrun, some_bind]

theorem eq_delta (h : a.kind ≠ .timestamp) : a.kind = .delta := by
  cases hkind : a.kind with
  | timestamp => exact absurd hkind h
  | delta => rfl

theorem isDelta_of_ne (h : a.kind ≠ .timestamp) : a.isDelta = true := decide_eq_true h

theorem not_isDelta (h : a.kind = .timestamp) : a.isDelta = false := decide_eq_false fun hne => hne h

/-- The sum of a timestamp and some months. -/
theorem timeAdd_months (h : t.kind = .timestamp) (hlater : MonthsLater t.instant n later) (hfits : p.Fits t.instant)
    (hfits' : p.Fits later) : ∃ sum, timeAdd p t (libtimeMonths n) = some (.ok sum) ∧
      timeSub p t (libtimeMonths (-n)) = some (.ok sum) ∧ sum.kind = .timestamp ∧ sum.instant = later := by
  have hdelta := not_isDelta h
  obtain ⟨value, type, kind⟩ := t
  cases h
  cases type with
  | nanoseconds =>
    have hsum : addMonths p value n = some later := addMonths_eq hfits hlater hfits'
    refine ⟨⟨later, .nanoseconds, .timestamp⟩, ?_, ?_, rfl, rfl⟩
    · show (addMonths p value n >>= fun v => some _) >>= _ = _
      rw [hsum]
      rfl
    · show (addMonths p value (- -n) >>= _) = _
      rw [neg_neg, hsum]
      rfl
  | months =>
    obtain ⟨m, hm, hk, hvalue⟩ := hlater
    have hself : InPeriod monthNano value (monthNano value) := inPeriod_self monthNano_strictMono
    obtain rfl : m = value := hm.unique monthNano_strictMono hself
    have hindex := (fits_of_months (c := 0) hm hk hfits hfits' (by decide)).1
    have hlength := monthStart_add_le (m + n)
    refine ⟨⟨m + n, .months, .timestamp⟩, ?_, ?_, rfl, ?_⟩
    · show some (Except.ok (DeeTimeObject.mk (p.wrap (m + n)) .months .timestamp)) = _
      rw [Int128.wrap_of_fits hindex]
    · show some (Except.ok (DeeTimeObject.mk (p.wrap (m - -n)) .months .timestamp)) = _
      rw [sub_neg_eq_add, Int128.wrap_of_fits hindex]
    · rw [hvalue, if_pos]
      · show monthNano (m + n) = monthNano (m + n) + (monthNano m - monthNano m)
        rw [sub_self, add_zero]
      · show monthNano m - monthNano m < _
        unfold monthNano nanosecondsPerDay
        omega

/-- A timestamp and a delta are added in the same way in both orders. -/
theorem timeAdd_comm_timestamp (ha : a.kind = .timestamp) (hb : b.kind ≠ .timestamp) : timeAdd p a b = timeAdd p b a := by
  unfold timeAdd
  rw [not_isDelta ha, isDelta_of_ne hb]
  rfl

theorem sumOf_comm (ha : a.kind ≠ .timestamp) (hb : b.kind ≠ .timestamp) (htype : a.type = b.type) :
    sumOf p a b = sumOf p b a := by
  unfold sumOf
  rw [isDelta_of_ne ha, isDelta_of_ne hb, eq_delta ha, eq_delta hb, if_pos htype, if_pos htype.symm, htype, add_comm]

end Months

/-- Months are added to a timestamp by the calendar. Sums commute, except for those of a number of nanoseconds and a number
of months that are both deltas: nanoseconds on the left are moved by the calendar from 01-01-0000 on, and months on the
left have average length. -/
theorem months_added (p : Int128) (t a b : DeeTimeObject) (n : ℤ) :
    (t.kind = .timestamp → ∃ later, MonthsLater t.instant n later ∧ (p.Fits t.instant → p.Fits later →
      ∃ sum, timeAdd p t (libtimeMonths n) = some (.ok sum) ∧ timeSub p t (libtimeMonths (-n)) = some (.ok sum) ∧
        sum.kind = .timestamp ∧ sum.instant = later)) ∧
    (¬ (a.kind = .timestamp ∧ b.kind = .timestamp) →
      ¬ (a.kind = .delta ∧ b.kind = .delta ∧ a.type ≠ b.type) → timeAdd p a b = timeAdd p b a) ∧
    ∀ ns, (∃ later, MonthsLater ns n later ∧ (p.Fits ns → p.Fits later →
        timeAdd p ⟨ns, .nanoseconds, .delta⟩ (libtimeMonths n) = some (.ok ⟨later, .nanoseconds, .delta⟩))) ∧
      (p.Fits (n * nanosecondsPerMonthAvg + ns) → timeAdd p (libtimeMonths n) ⟨ns, .nanoseconds, .delta⟩ =
        some (.ok ⟨n * nanosecondsPerMonthAvg + ns, .nanoseconds, .delta⟩)) := by
  refine ⟨fun h => ?_, fun hdefined hmixed => ?_, fun ns => ⟨?_, fun hfits => ?_⟩⟩
  · obtain ⟨later, hlater⟩ := exists_monthsLater t.instant n
    exact ⟨later, hlater, timeAdd_months h hlater⟩
  · by_cases ha : a.kind = .timestamp
    · exact timeAdd_comm_timestamp ha fun hb => hdefined ⟨ha, hb⟩
    · by_cases hb : b.kind = .timestamp
      · exact (timeAdd_comm_timestamp hb ha).symm
      · have htype : a.type = b.type := by
          by_contra hne
          exact hmixed ⟨eq_delta ha, eq_delta hb, hne⟩
        unfold timeAdd
        rw [isDelta_of_ne ha, isDelta_of_ne hb, sumOf_comm ha hb htype]
        rfl
  · obtain ⟨later, hlater⟩ := exists_monthsLater ns n
    refine ⟨later, hlater, fun hns hfits => ?_⟩
    show (addMonths p ns n >>= fun v => some _) >>= _ = _
    rw [addMonths_eq hns hlater hfits]
    rfl
  · show some (Except.ok (DeeTimeObject.mk (p.wrap (p.wrap (n * nanosecondsPerMonthAvg) + ns)) .nanoseconds .delta)) = _
    rw [Int128.wrap_wrap_add, Int128.wrap_of_fits hfits]

/-- The 31st of January of year 0 and a month commute. -/
theorem months_added_january : timeAdd .wrapping ⟨30 * nanosecondsPerDay, .nanoseconds, .timestamp⟩ (libtimeMonths 1) =
    timeAdd .wrapping (libtimeMonths 1) ⟨30 * nanosecondsPerDay, .nanoseconds, .timestamp⟩ :=
  (months_added .wrapping ⟨0, .nanoseconds, .delta⟩ ⟨30 * nanosecondsPerDay, .nanoseconds, .timestamp⟩ (libtimeMonths 1)
    1).2.1 (by decide) (by decide)

/-- A day and a month, in both orders; and the month 2 ^ 80 months after the start of year 0, which
does not fit. -/
theorem months_added_wrong :
    timeAdd .wrapping ⟨nanosecondsPerDay, .nanoseconds, .delta⟩ (libtimeMonths 1) ≠
      timeAdd .wrapping (libtimeMonths 1) ⟨nanosecondsPerDay, .nanoseconds, .delta⟩ ∧
    ∃ month ≠ 2 ^ 80, ((timeAdd .wrapping ⟨0, .nanoseconds, .timestamp⟩ (libtimeMonths (2 ^ 80))).bind fun result =>
      result.toOption.bind fun sum => timeInplaceNanosecond2month .wrapping sum.value) = some month :=
  ⟨by decide +kernel, 44348973680289443351751, by decide, by decide +kernel⟩

end Deemon.Time
