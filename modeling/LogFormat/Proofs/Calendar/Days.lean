import LogFormat.Calendar.Date

/-!
# Dates and day numbers

`Date.ofDayNumber` is the inverse of `Date.dayNumber`: the date with a number has that
number, and its day lies in its year (`ofDayNumber_spec`), and there is no other such date
(`ofDayNumber_dayNumber`).  The month and the day of the month of such a date give the date back
(`ofMonthDay?_month_day`), and they are the only ones that do (`month_day_of_ofMonthDay?`).
-/

namespace LogFormat.Date

/-- A leap year is divisible by 4, but not by 100 unless by 400. -/
theorem isLeap_iff {year : Int} :
  isLeap year ↔ year % 4 = 0 ∧ (year % 100 ≠ 0 ∨ year % 400 = 0)
  := by
  simp [isLeap]

/-- A day number is divided into cycles of 400 years, centuries, four years and years, and a
rest, which is the last day of a leap year if there are 365 days before it in its year. -/
theorem ofDayNumber_parts (n : Int) :
  ∃ q c f y d : Int, n + epoch = 146097 * q + 36524 * c + 1461 * f + 365 * y + d
    ∧ (0 ≤ c ∧ c ≤ 3) ∧ (0 ≤ f ∧ f ≤ 24) ∧ (0 ≤ y ∧ y ≤ 3) ∧ (0 ≤ d ∧ d ≤ 365)
    ∧ (d = 365 → y = 3 ∧ (f = 24 → c = 3))
    ∧ ofDayNumber n = ⟨400 * q + 100 * c + 4 * f + y + 1, (d + 1).toNat⟩
  := by
  refine ⟨(n + epoch) / 146097, min ((n + epoch) % 146097 / 36524) 3, _, _, _, ?_, ?_, ?_, ?_,
    ?_, ?_, rfl⟩ <;> omega

/-- The first day of a year, when its number is divided so. -/
theorem daysBefore_parts {q c f y : Int} (hc : 0 ≤ c ∧ c ≤ 3) (hf : 0 ≤ f ∧ f ≤ 24)
    (hy : 0 ≤ y ∧ y ≤ 3) :
  daysBefore (400 * q + 100 * c + 4 * f + y + 1) = 146097 * q + 36524 * c + 1461 * f + 365 * y
  := by
  simp only [daysBefore, Int.add_sub_cancel]
  omega

/-- Later years begin later. -/
theorem daysBefore_le {first last : Int} (h : first ≤ last) :
  daysBefore first ≤ daysBefore last
  := by
  simp only [daysBefore]
  omega

theorem yearLength_le (year : Int) :
  yearLength year ≤ 366
  := by
  rw [yearLength]
  split <;> omega

/-- The date with a number has that number, and its day is in its year. -/
theorem ofDayNumber_spec (n : Int) :
  (ofDayNumber n).dayNumber = n ∧ 1 ≤ (ofDayNumber n).ordinal
    ∧ (ofDayNumber n).ordinal ≤ yearLength (ofDayNumber n).year
  := by
  obtain ⟨q, c, f, y, d, hn, hc, hf, hy, hd, hlast, heq⟩ := ofDayNumber_parts n
  rw [heq]
  dsimp only
  refine ⟨?_, ?_, ?_⟩
  · rw [dayNumber, daysBefore_parts hc hf hy]
    dsimp only
    omega
  · omega
  · rw [yearLength]
    split
    · omega
    · next hleap =>
      rw [isLeap_iff] at hleap
      have hd' : d ≠ 365 := by
        intro hd'
        obtain ⟨rfl, hf'⟩ := hlast hd'
        omega
      omega

/-- The next year begins after the days of a year. -/
theorem daysBefore_succ (year : Int) :
  daysBefore (year + 1) = daysBefore year + yearLength year
  := by
  have hleap : isLeap year ↔ _ := isLeap_iff
  simp only [daysBefore, yearLength, Int.add_sub_cancel]
  split
  · next h =>
    have := hleap.1 h
    omega
  · next h =>
    have := mt hleap.2 h
    omega

/-- A day of its year is the date with its number: the days of earlier years have smaller
numbers, and those of later years have greater ones. -/
theorem ofDayNumber_dayNumber {d : Date} (hone : 1 ≤ d.ordinal)
    (h : d.ordinal ≤ yearLength d.year) :
  ofDayNumber d.dayNumber = d
  := by
  obtain ⟨hnumber, hone', h'⟩ := ofDayNumber_spec d.dayNumber
  generalize ofDayNumber d.dayNumber = d' at hnumber hone' h'
  obtain ⟨year, ordinal⟩ := d
  obtain ⟨year', ordinal'⟩ := d'
  simp only [dayNumber] at hnumber hone hone' h h'
  have hyear : year' = year := by
    obtain hlt | heq | hlt := Int.lt_trichotomy year' year
    · have := daysBefore_le (Int.add_one_le_of_lt hlt)
      rw [daysBefore_succ] at this
      omega
    · exact heq
    · have := daysBefore_le (Int.add_one_le_of_lt hlt)
      rw [daysBefore_succ] at this
      omega
  subst hyear
  have hordinal : ordinal' = ordinal := by omega
  rw [hordinal]

/-! ### Months -/

/-- The sum of the lengths of months. -/
def total (lengths : List Nat) : Nat :=
  lengths.foldr (· + ·) 0

/-- A day among months is in the month that is found, at the place that is left after the
months before it. -/
theorem monthDay_spec {lengths : List Nat} {day : Nat} (month : Nat) (hday : 1 ≤ day)
    (h : day ≤ total lengths) :
  ∃ i < lengths.length, (monthDay month lengths day).1 = month + i
    ∧ 1 ≤ (monthDay month lengths day).2
    ∧ (monthDay month lengths day).2 ≤ lengths.getD i 0
    ∧ total (lengths.take i) + (monthDay month lengths day).2 = day
  := by
  induction lengths generalizing month day with
  | nil =>
    rw [total, List.foldr_nil] at h
    omega
  | cons length lengths ih =>
    have htotal : total (length :: lengths) = length + total lengths := rfl
    rw [monthDay]
    split
    · next hle =>
      exact ⟨0, by simp, rfl, hday, hle, Nat.zero_add day⟩
    · next hlt =>
      obtain ⟨i, hi, hmonth, hone, hle, hsum⟩ :=
        ih (month + 1) (by omega : 1 ≤ day - length) (by omega)
      have htake : total ((length :: lengths).take (i + 1)) = length + total (lengths.take i) :=
        rfl
      refine ⟨i + 1, by simpa using hi, by omega, hone, by simpa using hle, ?_⟩
      omega

theorem total_monthLengths (year : Int) :
  total (monthLengths (isLeap year)) = yearLength year
  := by
  rw [yearLength]
  cases isLeap year <;> rfl

/-- The month of a day of its year is one of the twelve, and the day of the month is in
it. -/
theorem month_day_bounds {d : Date} (hone : 1 ≤ d.ordinal) (h : d.ordinal ≤ yearLength d.year) :
  (1 ≤ d.month ∧ d.month ≤ 12) ∧ 1 ≤ d.day
    ∧ d.day ≤ (monthLengths (isLeap d.year)).getD (d.month - 1) 0
    ∧ daysBeforeMonth (isLeap d.year) d.month + d.day = d.ordinal
  := by
  rw [← total_monthLengths] at h
  obtain ⟨i, hi, hmonth, hday, hle, hsum⟩ := monthDay_spec 1 hone h
  have hmonth : d.month = 1 + i := hmonth
  have hlength : (monthLengths (isLeap d.year)).length = 12 := rfl
  have hi' : d.month - 1 = i := by omega
  rw [daysBeforeMonth, hi']
  exact ⟨by omega, hday, hle, hsum⟩

/-- The day of a month is at most the 31st. -/
theorem day_le {d : Date} (hone : 1 ≤ d.ordinal) (h : d.ordinal ≤ yearLength d.year) :
  d.day ≤ 31
  := by
  obtain ⟨hmonth, -, hle, -⟩ := month_day_bounds hone h
  have hall : ∀ leap, ∀ i < 12, (monthLengths leap).getD i 0 ≤ 31 := by decide
  have := hall (isLeap d.year) (d.month - 1) (by omega)
  omega

/-- The year, the month and the day of the month determine the date. -/
theorem ofMonthDay?_month_day {d : Date} (hone : 1 ≤ d.ordinal)
    (h : d.ordinal ≤ yearLength d.year)
    (hyear : firstYear ≤ d.year ∧ d.year ≤ lastYear) :
  ofMonthDay? d.year d.month d.day = some d
  := by
  obtain ⟨hmonth, hday, hle, hsum⟩ := month_day_bounds hone h
  have hsum' : (daysBeforeMonth (isLeap d.year) d.month : Int) + d.day = d.ordinal := by
    omega
  simp only [ofMonthDay?, Int.toNat_natCast, hsum']
  rw [if_pos (by omega), ofOrdinal?, if_pos (by omega), Int.toNat_natCast]

/-- A day of a month stands there among the days of the months before it. -/
theorem monthDay_total_add {lengths : List Nat} {i day : Nat} (month : Nat)
    (hi : i < lengths.length) (hone : 1 ≤ day) (hle : day ≤ lengths.getD i 0) :
  monthDay month lengths (total (lengths.take i) + day) = (month + i, day)
  := by
  induction lengths generalizing month i with
  | nil => cases hi
  | cons length lengths ih =>
    cases i with
    | zero =>
      have htotal : total ((length :: lengths).take 0) + day = day := Nat.zero_add day
      rw [htotal, monthDay, if_pos (by simpa using hle), Nat.add_zero]
    | succ i =>
      have htotal : total ((length :: lengths).take (i + 1)) = length + total (lengths.take i) :=
        rfl
      have hrest : length + total (lengths.take i) + day - length
          = total (lengths.take i) + day := by omega
      rw [htotal, monthDay, if_neg (by omega), hrest,
        ih (month + 1) (by simpa using hi) (by simpa using hle)]
      congr 1
      omega

/-- A day of a year of the calendar in use. -/
def Valid (d : Date) : Prop :=
  (firstYear ≤ d.year ∧ d.year ≤ lastYear) ∧ 1 ≤ d.ordinal ∧ d.ordinal ≤ yearLength d.year

/-- The day of a year with a number has that number. -/
theorem ordinal_of_ofOrdinal? {year ordinal : Int} {d : Date}
    (h : ofOrdinal? year ordinal = some d) :
  d.Valid ∧ d.year = year ∧ d.ordinal = ordinal
  := by
  rw [ofOrdinal?] at h
  split at h
  · next hbounds =>
    cases h
    rw [Valid]
    dsimp only
    omega
  · cases h

/-- The day that a month and a day of the month determine has that month and that day of the
month. -/
theorem month_day_of_ofMonthDay? {year month day : Int} {d : Date}
    (h : ofMonthDay? year month day = some d) :
  d.Valid ∧ d.year = year ∧ d.month = month ∧ d.day = day
  := by
  simp only [ofMonthDay?] at h
  split at h
  · next hbounds =>
    obtain ⟨hvalid, rfl, hordinal⟩ := ordinal_of_ofOrdinal? h
    have hlength : (monthLengths (isLeap d.year)).length = 12 := rfl
    have hsum : d.ordinal
        = total ((monthLengths (isLeap d.year)).take (month.toNat - 1)) + day.toNat := by
      rw [daysBeforeMonth] at hordinal
      rw [total]
      omega
    have hmonthDay : monthDay 1 (monthLengths (isLeap d.year)) d.ordinal
        = (1 + (month.toNat - 1), day.toNat) := by
      rw [hsum]
      apply monthDay_total_add 1 <;> omega
    refine ⟨hvalid, rfl, ?_, ?_⟩
    · rw [Date.month, hmonthDay]
      omega
    · rw [Date.day, hmonthDay]
      omega
  · cases h

/-- The day that a week and a weekday determine is one of the calendar in use. -/
theorem valid_of_ofWeek? {weekYear week weekday : Int} {d : Date}
    (h : ofWeek? weekYear week weekday = some d) :
  d.Valid
  := by
  simp only [ofWeek?] at h
  split at h
  · split at h
    · next hyears =>
      cases h
      obtain ⟨-, hone, hle⟩ := ofDayNumber_spec _
      exact ⟨hyears, hone, hle⟩
    · cases h
  · cases h

/-- The days of the calendar in use are numbered within bounds. -/
theorem dayNumber_bounds {d : Date} (h : d.Valid) :
  -96465292 ≤ d.dayNumber ∧ d.dayNumber ≤ 95026236
  := by
  obtain ⟨⟨hfirst, hlast⟩, hone, hle⟩ := h
  have hleast := daysBefore_le hfirst
  have hmost := daysBefore_le (Int.add_le_add_right hlast 1)
  have hbounds : daysBefore firstYear = -95746130 ∧ daysBefore (lastYear + 1) = 95745399 := by decide
  rw [daysBefore_succ] at hmost
  rw [dayNumber, epoch]
  omega

end LogFormat.Date
