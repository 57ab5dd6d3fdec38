import Deemon.Lib.Fields
import Deemon.Lib.Periods

/-!
# The calendar

Days and nanoseconds are counted from 01-01-0000 in an `int128`, whose primitives reduce their results to 128 bits; they
may also be taken to be exact (`Int128`).
`timeInplaceDay2year` finds the year of a day by a magic multiplication inside a 400-year cycle, with one
correction; `timeInplaceNanosecond2month` looks the month up in the table of its kind of year. Both are compared
with the first days of years and months (`yearStart`, `monthStart`) of the proleptic Gregorian calendar.
-/

namespace Deemon.Time

open Deemon.Run Deemon.Periods Deemon.Fields

/-! ### The 128-bit primitives -/

/-- The primitives of the hybrid header: taken to be exact, or as they are. -/
inductive Int128 where
  | exact
  | wrapping

namespace Int128

/-- What a primitive makes of its exact result. -/
def wrap : Int128 → ℤ → ℤ
  | exact, x => x
  | wrapping, x => sint 128 x

/-- The results that a primitive gives as they are. -/
def Fits : Int128 → ℤ → Prop
  | exact, _ => True
  | wrapping, x => FitsSigned 127 x

variable {p : Int128} {a b c : ℤ}

@[simp] theorem wrap_exact (x : ℤ) : exact.wrap x = x := rfl

theorem wrap_of_fits (h : p.Fits a) : p.wrap a = a := by
  cases p with
  | exact => rfl
  | wrapping => exact sint_of_fits h

theorem Fits.between (ha : p.Fits a) (hc : p.Fits c) (hab : a ≤ b) (hbc : b ≤ c) : p.Fits b := by
  cases p with
  | exact => trivial
  | wrapping => exact ⟨ha.1.trans hab, hbc.trans_lt hc.2⟩

theorem fits_of_small (hlo : -2 ^ 127 ≤ a) (hhi : a < 2 ^ 127) : p.Fits a := by
  cases p with
  | exact => trivial
  | wrapping => exact ⟨hlo, hhi⟩

/-! Sums and products may be reduced at the end. -/

theorem wrap_add_wrap (a b : ℤ) : p.wrap (a + p.wrap b) = p.wrap (a + b) := by
  cases p with
  | exact => rfl
  | wrapping => exact Int.add_bmod_bmod

theorem wrap_wrap_add (a b : ℤ) : p.wrap (p.wrap a + b) = p.wrap (a + b) := by
  rw [add_comm, wrap_add_wrap, add_comm]

theorem wrap_sub_wrap (a b : ℤ) : p.wrap (a - p.wrap b) = p.wrap (a - b) := by
  cases p with
  | exact => rfl
  | wrapping => exact Int.sub_bmod_bmod

theorem wrap_wrap_mul (a b : ℤ) : p.wrap (p.wrap a * b) = p.wrap (a * b) := by
  cases p with
  | exact => rfl
  | wrapping => exact Int.bmod_mul_bmod

/-- Results that are reduced to the same one are the same if they are near each other. -/
theorem eq_of_wrap_eq (h : p.wrap a = p.wrap b) (hfits : p.Fits (a - b)) : a = b := by
  have hzero : p.wrap (a - b) = 0 := by
    rw [← wrap_sub_wrap, ← h, wrap_sub_wrap, sub_self]
    exact wrap_of_fits (fits_of_small (by norm_num) (by norm_num))
  rw [wrap_of_fits hfits] at hzero
  exact sub_eq_zero.mp hzero

end Int128

variable {p : Int128}

/-! ### Constants and tables -/

abbrev daysPer400Years : ℕ := 146097

abbrev monthsPerYear : ℕ := 12

abbrev nanosecondsPerDay : ℤ := 86400000000000

/-- `y400_table`: the first day of each year of a 400-year cycle. -/
def y400Table : List ℕ :=
  [0, 366, 731, 1096, 1461, 1827, 2192, 2557, 2922, 3288, 3653, 4018, 4383, 4749, 5114, 5479, 5844, 6210, 6575,
    6940, 7305, 7671, 8036, 8401, 8766, 9132, 9497, 9862, 10227, 10593, 10958, 11323, 11688, 12054, 12419,
    12784, 13149, 13515, 13880, 14245, 14610, 14976, 15341, 15706, 16071, 16437, 16802, 17167, 17532, 17898,
    18263, 18628, 18993, 19359, 19724, 20089, 20454, 20820, 21185, 21550, 21915, 22281, 22646, 23011, 23376,
    23742, 24107, 24472, 24837, 25203, 25568, 25933, 26298, 26664, 27029, 27394, 27759, 28125, 28490, 28855,
    29220, 29586, 29951, 30316, 30681, 31047, 31412, 31777, 32142, 32508, 32873, 33238, 33603, 33969, 34334,
    34699, 35064, 35430, 35795, 36160, 36525, 36890, 37255, 37620, 37985, 38351, 38716, 39081, 39446, 39812,
    40177, 40542, 40907, 41273, 41638, 42003, 42368, 42734, 43099, 43464, 43829, 44195, 44560, 44925, 45290,
    45656, 46021, 46386, 46751, 47117, 47482, 47847, 48212, 48578, 48943, 49308, 49673, 50039, 50404, 50769,
    51134, 51500, 51865, 52230, 52595, 52961, 53326, 53691, 54056, 54422, 54787, 55152, 55517, 55883, 56248,
    56613, 56978, 57344, 57709, 58074, 58439, 58805, 59170, 59535, 59900, 60266, 60631, 60996, 61361, 61727,
    62092, 62457, 62822, 63188, 63553, 63918, 64283, 64649, 65014, 65379, 65744, 66110, 66475, 66840, 67205,
    67571, 67936, 68301, 68666, 69032, 69397, 69762, 70127, 70493, 70858, 71223, 71588, 71954, 72319, 72684,
    73049, 73414, 73779, 74144, 74509, 74875, 75240, 75605, 75970, 76336, 76701, 77066, 77431, 77797, 78162,
    78527, 78892, 79258, 79623, 79988, 80353, 80719, 81084, 81449, 81814, 82180, 82545, 82910, 83275, 83641,
    84006, 84371, 84736, 85102, 85467, 85832, 86197, 86563, 86928, 87293, 87658, 88024, 88389, 88754, 89119,
    89485, 89850, 90215, 90580, 90946, 91311, 91676, 92041, 92407, 92772, 93137, 93502, 93868, 94233, 94598,
    94963, 95329, 95694, 96059, 96424, 96790, 97155, 97520, 97885, 98251, 98616, 98981, 99346, 99712, 100077,
    100442, 100807, 101173, 101538, 101903, 102268, 102634, 102999, 103364, 103729, 104095, 104460, 104825,
    105190, 105556, 105921, 106286, 106651, 107017, 107382, 107747, 108112, 108478, 108843, 109208, 109573,
    109938, 110303, 110668, 111033, 111399, 111764, 112129, 112494, 112860, 113225, 113590, 113955, 114321,
    114686, 115051, 115416, 115782, 116147, 116512, 116877, 117243, 117608, 117973, 118338, 118704, 119069,
    119434, 119799, 120165, 120530, 120895, 121260, 121626, 121991, 122356, 122721, 123087, 123452, 123817,
    124182, 124548, 124913, 125278, 125643, 126009, 126374, 126739, 127104, 127470, 127835, 128200, 128565,
    128931, 129296, 129661, 130026, 130392, 130757, 131122, 131487, 131853, 132218, 132583, 132948, 133314,
    133679, 134044, 134409, 134775, 135140, 135505, 135870, 136236, 136601, 136966, 137331, 137697, 138062,
    138427, 138792, 139158, 139523, 139888, 140253, 140619, 140984, 141349, 141714, 142080, 142445, 142810,
    143175, 143541, 143906, 144271, 144636, 145002, 145367, 145732, 146097]

/-- `struct month`, without the offset of its name. -/
structure Month where
  /-- Nanoseconds into the year for when this month starts. -/
  mStart : ℕ
  mLen : ℕ

/-- `days2nano`. -/
def days2nano (n : ℕ) : ℕ := n * 86400000000000

/-- `month_info`, by whether the year is a leap year. -/
def monthInfo (leap : Bool) : List Month :=
  if leap then
    [⟨days2nano 0, 31⟩, ⟨days2nano 31, 29⟩, ⟨days2nano 60, 31⟩, ⟨days2nano 91, 30⟩, ⟨days2nano 121, 31⟩,
      ⟨days2nano 152, 30⟩, ⟨days2nano 182, 31⟩, ⟨days2nano 213, 31⟩, ⟨days2nano 244, 30⟩, ⟨days2nano 274, 31⟩,
      ⟨days2nano 305, 30⟩, ⟨days2nano 335, 31⟩, ⟨days2nano 366, 31⟩]
  else
    [⟨days2nano 0, 31⟩, ⟨days2nano 31, 28⟩, ⟨days2nano 59, 31⟩, ⟨days2nano 90, 30⟩, ⟨days2nano 120, 31⟩,
      ⟨days2nano 151, 30⟩, ⟨days2nano 181, 31⟩, ⟨days2nano 212, 31⟩, ⟨days2nano 243, 30⟩, ⟨days2nano 273, 31⟩,
      ⟨days2nano 304, 30⟩, ⟨days2nano 334, 31⟩, ⟨days2nano 365, 0⟩]

/-! ### Years -/

/-- `time_years_isleapyear`. -/
def timeYearsIsleapyear (year : ℤ) : Bool :=
  if year % 400 = 0 then true
  else if year % 100 = 0 then false
  else year % 4 = 0

/-- `time_inplace_day2year`; `temp` is a `uint32_t`. The year is nearer to 0 than the day, so nothing is reduced. -/
def timeInplaceDay2year (value : ℤ) : Option ℤ := do
  let base := value / daysPer400Years * 400
  let temp2 := (value % daysPer400Years).toNat
  -- years 200 to 399: this shifts the calculation by 1 day
  let (temp, gregYr) := if 73048 < temp2 then (temp2 - 73048, 200) else (temp2, 0)
  let gregYr := gregYr + (temp <<< 10) % 2 ^ 32 / 374014
  -- fix if `greg_yr` is off by 1
  let gregYr := if (← rd y400Table (gregYr + 1)) ≤ temp2 then gregYr + 1 else gregYr
  some (base + gregYr)

/-- `time_inplace_year2day`. -/
def timeInplaceYear2day (p : Int128) (value : ℤ) : Option ℤ := do
  let ymod := (value % 400).toNat
  let entry ← rd y400Table ymod
  some (p.wrap (p.wrap (value / 400 * daysPer400Years) + entry))

/-- `time_inplace_days2nanoseconds`. -/
def timeInplaceDays2nanoseconds (p : Int128) (value : ℤ) : ℤ := p.wrap (value * nanosecondsPerDay)

/-- `time_inplace_nanoseconds2days`. -/
def timeInplaceNanoseconds2days (value : ℤ) : ℤ := value / nanosecondsPerDay

/-- `time_inplace_year2nanosecond`. -/
def timeInplaceYear2nanosecond (p : Int128) (value : ℤ) : Option ℤ := do
  some (timeInplaceDays2nanoseconds p (← timeInplaceYear2day p value))

/-- `time_inplace_nanosecond2year`. -/
def timeInplaceNanosecond2year (value : ℤ) : Option ℤ := timeInplaceDay2year (timeInplaceNanoseconds2days value)

/-! ### Months -/

/-- `month_getstart`. -/
def monthGetstart (months : List Month) (i : ℕ) : Option ℕ := months[i]?.map Month.mStart

/-- `month_getend`: where the next month starts. -/
def monthGetend (months : List Month) (i : ℕ) : Option ℕ := months[i + 1]?.map Month.mStart

/-- `month_getlen`. -/
def monthGetlen (months : List Month) (i : ℕ) : Option ℕ := months[i]?.map Month.mLen

/-- `month_info_for_year`. -/
def monthInfoForYear (year : ℤ) : List Month := monthInfo (timeYearsIsleapyear year)

/-- `time_inplace_nanosecond2month`. -/
def timeInplaceNanosecond2month (p : Int128) (value : ℤ) : Option ℤ := do
  let year ← timeInplaceNanosecond2year value
  let startOfYearNanoseconds ← timeInplaceYear2nanosecond p year
  let nanosecondsSinceStartOfYear := p.wrap (value - startOfYearNanoseconds)
  let monthsOfYear := monthInfoForYear year
  let monthId ← loop (fun monthId => do
    assert (monthId < monthsPerYear)
    let monthEnd ← monthGetend monthsOfYear monthId
    some (if nanosecondsSinceStartOfYear < monthEnd then Step.done monthId else .next (monthId + 1))) (monthsPerYear + 1) 0
  some (year * monthsPerYear + monthId)

/-- `time_inplace_month2nanosecond`. -/
def timeInplaceMonth2nanosecond (p : Int128) (value : ℤ) : Option ℤ := do
  let year := value / monthsPerYear
  let monthInYear := (value % monthsPerYear).toNat
  assert (monthInYear < monthsPerYear)
  let monthStart ← monthGetstart (monthInfoForYear year) monthInYear
  some (p.wrap ((← timeInplaceYear2nanosecond p year) + monthStart))

/-! ### The first day of a year -/

/-- The day a year begins with: 365 days for each year before it, and one for each leap year. -/
def yearStart (y : ℤ) : ℤ := 365 * y + (y + 3) / 4 - (y + 99) / 100 + (y + 399) / 400

/-- The number of days of a year. -/
def yearLength (y : ℤ) : ℤ := if timeYearsIsleapyear y then 366 else 365

theorem yearStart_succ (y : ℤ) : yearStart (y + 1) = yearStart y + yearLength y := by
  unfold yearStart yearLength timeYearsIsleapyear
  split_ifs <;> simp_all <;> omega

theorem yearLength_le (y : ℤ) : yearLength y ≤ 366 := by
  unfold yearLength
  split_ifs <;> omega

theorem yearStart_strictMono : StrictMono yearStart := by
  apply strictMono_int_of_lt_succ
  intro y
  rw [yearStart_succ, yearLength]
  split_ifs <;> omega

theorem yearStart_cycle (q r : ℤ) : yearStart (400 * q + r) = daysPer400Years * q + yearStart r := by
  unfold yearStart daysPer400Years
  omega

/-- The nanosecond a year begins with. -/
abbrev yearNano (y : ℤ) : ℤ := yearStart y * nanosecondsPerDay

/-! ### The table of the cycle -/

/-- The table holds the first days of the years 0 to 400. -/
theorem y400Table_eq : y400Table = (List.range 401).map fun y : ℕ => (yearStart y).toNat := by
  decide +kernel

theorem y400Table_entry {y : ℕ} (h : y ≤ 400) : rd y400Table y = some (yearStart y).toNat := by
  have hlt : y < ((List.range 401).map fun y : ℕ => (yearStart y).toNat).length := by
    rw [List.length_map, List.length_range]
    omega
  rw [y400Table_eq, rd_of_lt hlt, cell, ← List.getElem_eq_getD (h := hlt), List.getElem_map, List.getElem_range]

/-- The two halves of the cycle: the first year and the days it is shifted by. -/
def halves : List (ℕ × ℕ) := [(0, 0), (200, 73048)]

/-- The magic multiplication finds the year or the one before it. -/
theorem magic : ∀ half ∈ halves, ∀ g < 200,
    yearStart (half.1 + g : ℕ) ≤ (half.2 + max ((374014 * g + 1023) / 1024) (min half.2 1) : ℕ) ∧
      ((half.2 + (374014 * (g + 1) - 1) / 1024 : ℕ) : ℤ) < yearStart (half.1 + g + 2 : ℕ) := by
  decide +kernel

/-- The year of a day of the cycle, from the half it lies in. -/
theorem gregYr_bounds {half : ℕ × ℕ} (hhalf : half ∈ halves) {temp : ℕ} (hmin : min half.2 1 ≤ temp)
    (htemp : temp ≤ 73048) {g : ℕ} (hg : g = half.1 + (temp <<< 10) % 2 ^ 32 / 374014) :
    g < 400 ∧ yearStart g ≤ (half.2 + temp : ℕ) ∧ ((half.2 + temp : ℕ) : ℤ) < yearStart (g + 2 : ℕ) := by
  have hshift : (temp <<< 10) % 2 ^ 32 = 1024 * temp := by
    rw [Nat.shiftLeft_eq]
    omega
  rw [hshift] at hg
  have hlt : 1024 * temp / 374014 < 200 := by omega
  obtain ⟨hlo, hhi⟩ := magic half hhalf _ hlt
  have hfirst : half.1 ≤ 200 := by
    rcases List.mem_pair.mp hhalf with rfl | rfl <;> decide
  rw [← hg] at hlo hhi
  exact ⟨by omega, by omega, by omega⟩

/-- The correction by the table makes the year of the cycle exact. -/
theorem gregYr_ends {half : ℕ × ℕ} (hhalf : half ∈ halves) {temp : ℕ} (hmin : min half.2 1 ≤ temp)
    (htemp : temp ≤ 73048) (base : ℤ) :
    Ends (do
      let gregYr := half.1 + (temp <<< 10) % 2 ^ 32 / 374014
      let gregYr := if (← rd y400Table (gregYr + 1)) ≤ half.2 + temp then gregYr + 1 else gregYr
      some (base + gregYr)) fun y => ∃ g : ℕ, y = base + g ∧ InPeriod yearStart g (half.2 + temp : ℕ) := by
  obtain ⟨g, hg⟩ : ∃ g, g = half.1 + (temp <<< 10) % 2 ^ 32 / 374014 := ⟨_, rfl⟩
  obtain ⟨hlt, hlo, hhi⟩ := gregYr_bounds hhalf hmin htemp hg
  have hentry := y400Table_entry (y := g + 1) (by omega)
  have hnonneg : 0 ≤ yearStart (g + 1 : ℕ) := (yearStart_strictMono.monotone (by omega : (0 : ℤ) ≤ (g + 1 : ℕ)))
  rw [← hg]
  dsimp only
  rw [hentry, some_bind]
  by_cases hfix : (yearStart (g + 1 : ℕ)).toNat ≤ half.2 + temp
  · rw [if_pos hfix]
    exact Ends.pure ⟨g + 1, rfl, by omega, by push_cast at hhi ⊢; rwa [add_assoc]⟩
  · rw [if_neg hfix]
    exact Ends.pure ⟨g, rfl, hlo, by push_cast at *; omega⟩

/-- `time_inplace_day2year` is the year of the day. -/
theorem timeInplaceDay2year_ends (d : ℤ) : Ends (timeInplaceDay2year d) fun y => InPeriod yearStart y d := by
  obtain ⟨temp2, htemp2⟩ := Int.eq_ofNat_of_zero_le (Int.emod_nonneg d (b := daysPer400Years) (by decide))
  have hcycle : temp2 < 146097 := by
    have := Int.emod_lt_of_pos d (b := daysPer400Years) (by decide)
    rw [htemp2] at this
    exact_mod_cast this
  have hd : d = daysPer400Years * (d / daysPer400Years) + temp2 := by
    rw [← htemp2, Int.mul_ediv_add_emod]
  -- the year inside the cycle is the year of the day
  have hyear : ∀ y, (∃ g : ℕ, y = d / daysPer400Years * 400 + g ∧ InPeriod yearStart g temp2) → InPeriod yearStart y d := by
    rintro _ ⟨g, rfl, hlo, hhi⟩
    unfold InPeriod
    rw [add_assoc, mul_comm _ (400 : ℤ), yearStart_cycle, yearStart_cycle]
    constructor <;> omega
  unfold timeInplaceDay2year
  rw [htemp2, Int.toNat_natCast]
  dsimp only
  by_cases hhalf : 73048 < temp2
  · rw [if_pos hhalf]
    have h := @gregYr_ends _ (List.mem_pair.mpr (Or.inr rfl)) (temp2 - 73048) (by dsimp only; omega) (by omega)
      (d / daysPer400Years * 400)
    rw [show (200, 73048).2 + (temp2 - 73048) = temp2 by dsimp only; omega] at h
    exact h.mono hyear
  · rw [if_neg hhalf]
    have h := @gregYr_ends _ (List.mem_pair.mpr (Or.inl rfl)) temp2 (by dsimp only; omega) (by omega)
      (d / daysPer400Years * 400)
    rw [show (0, 0).2 + temp2 = temp2 by dsimp only; omega] at h
    exact h.mono hyear

theorem toNat_emod_cycle (y : ℤ) : ((y % 400).toNat : ℤ) = y % 400 ∧ (y % 400).toNat < 400 := by
  omega

/-- `time_inplace_year2day` is the first day of the year. -/
theorem timeInplaceYear2day_eq (y : ℤ) : timeInplaceYear2day p y = some (p.wrap (yearStart y)) := by
  obtain ⟨hcast, hlt⟩ := toNat_emod_cycle y
  have hnonneg : 0 ≤ yearStart (y % 400) := yearStart_strictMono.monotone (Int.emod_nonneg y (by decide))
  have hy : yearStart y = daysPer400Years * (y / 400) + yearStart (y % 400) := by
    rw [← yearStart_cycle, Int.mul_ediv_add_emod]
  unfold timeInplaceYear2day
  dsimp only
  rw [y400Table_entry hlt.le, some_bind, hcast, Int.toNat_of_nonneg hnonneg, hy, mul_comm (y / 400), Int128.wrap_wrap_add]

theorem timeInplaceYear2nanosecond_eq (y : ℤ) :
    timeInplaceYear2nanosecond p y = some (p.wrap (yearStart y * nanosecondsPerDay)) := by
  unfold timeInplaceYear2nanosecond timeInplaceDays2nanoseconds
  rw [timeInplaceYear2day_eq, some_bind, Int128.wrap_wrap_mul]

theorem timeInplaceNanosecond2year_ends (t : ℤ) : Ends (timeInplaceNanosecond2year t) fun y =>
    InPeriod yearNano y t := by
  refine (timeInplaceDay2year_ends _).mono fun y hy => ?_
  exact (InPeriod.scale (by decide)).mpr hy

/-! ### The first day of a month -/

/-- The days of a year before its `i`-th month, for `i ≤ 12`. -/
def daysBefore (leap : Bool) (i : ℕ) : ℕ :=
  [0, 31, 59, 90, 120, 151, 181, 212, 243, 273, 304, 334, 365].getD i 0 + if leap ∧ 2 ≤ i then 1 else 0

/-- The day a month begins with, months being counted from January of year 0. -/
def monthStart (m : ℤ) : ℤ := yearStart (m / 12) + daysBefore (timeYearsIsleapyear (m / 12)) (m % 12).toNat

/-- The nanosecond a month begins with. -/
abbrev monthNano (m : ℤ) : ℤ := monthStart m * nanosecondsPerDay

/-- The number of days of a month of a year; January is month 0. -/
def monthLength (leap : Bool) (i : ℕ) : ℕ :=
  if i = 1 then (if leap then 29 else 28) else if i ∈ [3, 5, 8, 10] then 30 else 31

theorem monthGetstart_eq (leap : Bool) : ∀ i ≤ 12,
    monthGetstart (monthInfo leap) i = some (days2nano (daysBefore leap i)) := by
  cases leap <;> decide

theorem monthGetlen_eq (leap : Bool) : ∀ i < 12, monthGetlen (monthInfo leap) i = some (monthLength leap i) := by
  cases leap <;> decide

theorem daysBefore_succ (leap : Bool) : ∀ i < 12, daysBefore leap (i + 1) = daysBefore leap i + monthLength leap i := by
  cases leap <;> decide

theorem daysBefore_twelve (y : ℤ) : (daysBefore (timeYearsIsleapyear y) 12 : ℤ) = yearLength y := by
  unfold yearLength
  cases timeYearsIsleapyear y <;> rfl

/-- A month of a year, and the month after it, which may be January. -/
theorem monthStart_of_year (y : ℤ) {i : ℕ} (hi : i ≤ 12) :
    monthStart (y * 12 + i) = yearStart y + daysBefore (timeYearsIsleapyear y) i := by
  unfold monthStart
  by_cases hlast : i = 12
  · subst hlast
    rw [daysBefore_twelve, ← yearStart_succ, show (y * 12 + (12 : ℕ)) / 12 = y + 1 by omega,
      show ((y * 12 + (12 : ℕ)) % 12).toNat = 0 by omega]
    unfold daysBefore
    simp
  · rw [show (y * 12 + i) / 12 = y by omega, show ((y * 12 + i) % 12).toNat = i by omega]

theorem monthLength_pos (leap : Bool) (i : ℕ) : 28 ≤ monthLength leap i := by
  unfold monthLength
  split_ifs <;> omega

theorem monthStart_strictMono : StrictMono monthStart := by
  apply strictMono_int_of_lt_succ
  intro m
  obtain ⟨i, hi⟩ := Int.eq_ofNat_of_zero_le (Int.emod_nonneg m (b := 12) (by decide))
  have hlt : i < 12 := by omega
  have hm : m = m / 12 * 12 + i := by omega
  have hsucc := daysBefore_succ (timeYearsIsleapyear (m / 12)) i hlt
  have hpos := monthLength_pos (timeYearsIsleapyear (m / 12)) i
  rw [hm, show m / 12 * 12 + (i : ℤ) + 1 = m / 12 * 12 + (i + 1 : ℕ) by push_cast; ring,
    monthStart_of_year _ hlt.le, monthStart_of_year _ hlt, hsucc]
  omega

/-- The nanosecond a month begins with. -/
theorem monthStart_nanoseconds (y : ℤ) {i : ℕ} (hi : i ≤ 12) : monthStart (y * 12 + i) * nanosecondsPerDay =
    yearStart y * nanosecondsPerDay + days2nano (daysBefore (timeYearsIsleapyear y) i) := by
  rw [monthStart_of_year y hi, add_mul, days2nano, Nat.cast_mul]
  rfl

/-- `time_inplace_month2nanosecond` is the first nanosecond of the month. -/
theorem timeInplaceMonth2nanosecond_eq (m : ℤ) :
    timeInplaceMonth2nanosecond p m = some (p.wrap (monthStart m * nanosecondsPerDay)) := by
  obtain ⟨i, hi⟩ := Int.eq_ofNat_of_zero_le (Int.emod_nonneg m (b := monthsPerYear) (by decide))
  have hlt : i < 12 := by
    have := Int.emod_lt_of_pos m (b := monthsPerYear) (by decide)
    rw [hi] at this
    exact_mod_cast this
  have hm : m = m / monthsPerYear * 12 + i := by
    rw [← hi]
    exact (Int.ediv_mul_add_emod m 12).symm
  have hstart := monthStart_nanoseconds (m / monthsPerYear) hlt.le
  rw [← hm] at hstart
  unfold timeInplaceMonth2nanosecond
  dsimp only
  rw [hi, Int.toNat_natCast, assert_of hlt, some_bind, monthInfoForYear, monthGetstart_eq _ i hlt.le, some_bind,
    timeInplaceYear2nanosecond_eq, some_bind, hstart, Int128.wrap_wrap_add]

/-- The month loop leaves at the month of the nanosecond, which is below 12. -/
theorem monthLoop_ends (leap : Bool) {ns : ℤ} (h0 : 0 ≤ ns) (hlast : ns < days2nano (daysBefore leap 12)) :
    Ends (loop (fun monthId => do
      assert (monthId < monthsPerYear)
      let monthEnd ← monthGetend (monthInfo leap) monthId
      some (if ns < monthEnd then Step.done monthId else .next (monthId + 1))) (monthsPerYear + 1) 0) fun i =>
        i < 12 ∧ days2nano (daysBefore leap i) ≤ ns ∧ ns < days2nano (daysBefore leap (i + 1)) := by
  refine loop_ends (fun i => i < 12 ∧ days2nano (daysBefore leap i) ≤ ns) (fun i => 12 - i) ⟨by decide, ?_⟩ (by decide) ?_
  · rw [show days2nano (daysBefore leap 0) = 0 by cases leap <;> rfl]
    exact h0
  rintro i ⟨hi, hle⟩
  have hend : monthGetend (monthInfo leap) i = some (days2nano (daysBefore leap (i + 1))) :=
    monthGetstart_eq leap (i + 1) hi
  rw [assert_of hi, some_bind, hend, some_bind]
  by_cases hlt : ns < days2nano (daysBefore leap (i + 1))
  · rw [if_pos hlt]
    exact Ends.pure ⟨hi, hle, hlt⟩
  · rw [if_neg hlt]
    have hne : i + 1 ≠ 12 := by
      intro h
      rw [h] at hlt
      exact hlt hlast
    exact Ends.pure ⟨⟨by omega, by omega⟩, by dsimp only; omega⟩

/-- `time_inplace_nanosecond2month` is the month of the nanosecond; its loop stays below 12. -/
theorem timeInplaceNanosecond2month_ends (t : ℤ) : Ends (timeInplaceNanosecond2month p t) fun m =>
    InPeriod monthNano m t := by
  unfold timeInplaceNanosecond2month
  refine Ends.bind (timeInplaceNanosecond2year_ends t) ?_
  rintro y ⟨hlo, hhi⟩
  dsimp only
  unfold yearNano at hlo hhi
  have hlast := monthStart_nanoseconds y (le_refl 12)
  have hnext := monthStart_nanoseconds (y + 1) (Nat.zero_le 12)
  rw [show (y + 1) * 12 + (0 : ℕ) = y * 12 + (12 : ℕ) by push_cast; ring, hlast] at hnext
  -- the time since the start of the year is right also where the start is reduced
  have hshort := yearLength_le y
  have hfits : p.Fits (t - yearStart y * nanosecondsPerDay) := by
    rw [yearStart_succ] at hhi
    unfold nanosecondsPerDay at *
    exact Int128.fits_of_small (by omega) (by omega)
  rw [timeInplaceYear2nanosecond_eq, some_bind, Int128.wrap_sub_wrap, Int128.wrap_of_fits hfits, monthInfoForYear]
  refine Ends.bind (monthLoop_ends (timeYearsIsleapyear y) (by omega) ?_) ?_
  · rw [show days2nano (daysBefore (timeYearsIsleapyear (y + 1)) 0) = 0 by
      cases timeYearsIsleapyear (y + 1) <;> rfl] at hnext
    omega
  rintro i ⟨hi, hle, hlt⟩
  have hstart := monthStart_nanoseconds y hi.le
  have hend := monthStart_nanoseconds y (show i + 1 ≤ 12 from hi)
  refine Ends.pure ⟨?_, ?_⟩
  · show monthStart (y * 12 + i) * nanosecondsPerDay ≤ t
    omega
  · show t < monthStart (y * 12 + i + 1) * nanosecondsPerDay
    rw [show y * 12 + (i : ℤ) + 1 = y * 12 + (i + 1 : ℕ) by push_cast; ring]
    omega

theorem yearNano_strictMono : StrictMono yearNano := yearStart_strictMono.mul_const (by decide)

theorem monthNano_strictMono : StrictMono monthNano := monthStart_strictMono.mul_const (by decide)

/-- The year of a nanosecond. -/
theorem timeInplaceNanosecond2year_of_inPeriod {y t : ℤ} (h : InPeriod yearNano y t) :
    timeInplaceNanosecond2year t = some y := by
  obtain ⟨y', hy', hin⟩ := timeInplaceNanosecond2year_ends t
  rw [hy', hin.unique yearNano_strictMono h]

/-- The month of a nanosecond. -/
theorem timeInplaceNanosecond2month_of_inPeriod {m t : ℤ}
    (h : InPeriod monthNano m t) : timeInplaceNanosecond2month p t = some m := by
  obtain ⟨m', hm', hin⟩ := timeInplaceNanosecond2month_ends (p := p) t
  rw [hm', hin.unique monthNano_strictMono h]

/-- January of a year. -/
theorem monthStart_january (y : ℤ) : monthStart (y * 12) = yearStart y := by
  have h := monthStart_of_year y (Nat.zero_le 12)
  have hzero : daysBefore (timeYearsIsleapyear y) 0 = 0 := by
    cases timeYearsIsleapyear y <;> rfl
  rwa [hzero, Nat.cast_zero, add_zero, add_zero] at h

/-- A day of a month is a day of the year of the month. -/
theorem inPeriod_year_of_month {m d : ℤ} (h : InPeriod monthStart m d) : InPeriod yearStart (m / 12) d := by
  have hlo := monthStart_strictMono.monotone (show m / 12 * 12 ≤ m by omega)
  have hhi := monthStart_strictMono.monotone (show m + 1 ≤ (m / 12 + 1) * 12 by omega)
  rw [monthStart_january] at hlo hhi
  exact ⟨hlo.trans h.1, h.2.trans_le hhi⟩

/-! ### The reference calendar -/

/-- `good_date2day` of the source's own notes; months and days of the month are 1-based. -/
def goodDate2day (y m d : ℤ) : ℤ :=
  let (m, y) := if 2 < m then (m - 3, y) else (m + 9, y - 1)
  let c := y / 100
  let ya := y - 100 * c
  (146097 * c) / 4 + (1461 * ya) / 4 + (153 * m + 2) / 5 + d + 59

/-- The days before March of a year, in the reference calendar and in this one. -/
theorem referenceDays (y : ℤ) : (146097 * (y / 100)) / 4 + (1461 * (y - 100 * (y / 100))) / 4 + 366 = yearStart (y + 1) := by
  obtain ⟨c, hc⟩ : ∃ c, c = y / 100 := ⟨_, rfl⟩
  obtain ⟨ya, hya⟩ : ∃ ya, ya = y - 100 * c := ⟨_, rfl⟩
  have hcenturies : (146097 * c) / 4 = 36524 * c + c / 4 := by omega
  have hyears : (1461 * ya) / 4 = 365 * ya + ya / 4 := by omega
  have hfour : (y + 1 + 3) / 4 = 25 * c + ya / 4 + 1 := by omega
  have hhundred : (y + 1 + 99) / 100 = c + 1 := by omega
  have hcycle : (y + 1 + 399) / 400 = c / 4 + 1 := by omega
  unfold yearStart
  rw [← hc, ← hya, hcenturies, hyears, hfour, hhundred, hcycle]
  omega

/-- The days of the reference calendar before a month, counted from March. -/
theorem daysBefore_fromMarch (leap : Bool) : ∀ i < 12, (daysBefore leap i : ℤ) =
    if 2 < (i : ℤ) + 1 then (153 * ((i : ℤ) + 1 - 3) + 2) / 5 + 59 + (if leap then 1 else 0)
    else (153 * ((i : ℤ) + 1 + 9) + 2) / 5 - 306 := by
  cases leap <;> decide

/-- The reference calendar has the same days. -/
theorem goodDate2day_eq (y : ℤ) {i : ℕ} (hi : i < 12) (d : ℤ) :
    goodDate2day y (i + 1) d = monthStart (y * 12 + i) + (d - 1) := by
  rw [monthStart_of_year y hi.le, daysBefore_fromMarch _ i hi]
  unfold goodDate2day
  by_cases hmarch : 2 < (i : ℤ) + 1
  · have hleap : (if timeYearsIsleapyear y then 1 else 0 : ℤ) = yearLength y - 365 := by
      unfold yearLength
      split_ifs <;> rfl
    have hnext := yearStart_succ y
    have href := referenceDays y
    rw [if_pos hmarch, if_pos hmarch, hleap]
    dsimp only
    omega
  · have href := referenceDays (y - 1)
    rw [sub_add_cancel] at href
    rw [if_neg hmarch, if_neg hmarch]
    dsimp only
    omega

end Deemon.Time
