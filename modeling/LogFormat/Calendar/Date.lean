/-!
# Dates

The proleptic Gregorian calendar.  A `Date` is a year and a day of that year, counted
from 1.  `dayNumber` counts the days from 1970-01-01 on, and `ofDayNumber` finds the
date back by dividing into cycles of 400, 100, 4 and 1 years.  Weekdays are numbered
from Monday, which is 0.
-/

namespace LogFormat

/-- A day, given by its year and its number in the year. -/
structure Date where
  year : Int
  ordinal : Nat
deriving Repr, DecidableEq

namespace Date

/-- The first year of the calendar in use. -/
def firstYear : Int := -262143

/-- The last year of the calendar in use. -/
def lastYear : Int := 262142

/-- Whether a year has 366 days. -/
def isLeap (year : Int) : Bool :=
  year % 4 == 0 && (year % 100 != 0 || year % 400 == 0)

/-- The number of days of a year. -/
def yearLength (year : Int) : Nat :=
  if isLeap year then 366 else 365

/-- The lengths of the twelve months. -/
def monthLengths (leap : Bool) : List Nat :=
  [31, if leap then 29 else 28, 31, 30, 31, 30, 31, 31, 30, 31, 30, 31]

/-- The month and the day of the month, given the lengths of the months from `month`
on and the number of the day among them. -/
def monthDay (month : Nat) : List Nat → Nat → Nat × Nat
  | [], day => (month, day)
  | length :: lengths, day =>
    if day ≤ length then (month, day) else monthDay (month + 1) lengths (day - length)

/-- The month, from 1 to 12. -/
def month (d : Date) : Nat :=
  (monthDay 1 (monthLengths (isLeap d.year)) d.ordinal).1

/-- The day of the month, from 1 on. -/
def day (d : Date) : Nat :=
  (monthDay 1 (monthLengths (isLeap d.year)) d.ordinal).2

/-- The number of days of the year before a month. -/
def daysBeforeMonth (leap : Bool) (month : Nat) : Nat :=
  ((monthLengths leap).take (month - 1)).foldr (· + ·) 0

/-- The quarter of the year, from 1 to 4. -/
def quarter (d : Date) : Nat :=
  (d.month - 1) / 3 + 1

/-- The day of a year with the given number. -/
def ofOrdinal? (year ordinal : Int) : Option Date :=
  if firstYear ≤ year ∧ year ≤ lastYear ∧ 1 ≤ ordinal ∧ ordinal ≤ yearLength year then
    some ⟨year, ordinal.toNat⟩
  else
    none

/-- The day with the given year, month and day of the month. -/
def ofMonthDay? (year month day : Int) : Option Date :=
  let lengths := monthLengths (isLeap year)
  if 1 ≤ month ∧ month ≤ 12 ∧ 1 ≤ day ∧ day ≤ lengths.getD (month.toNat - 1) 0 then
    ofOrdinal? year (daysBeforeMonth (isLeap year) month.toNat + day)
  else
    none

/-- The number of days from 0001-01-01 to the first day of a year. -/
def daysBefore (year : Int) : Int :=
  let y := year - 1
  365 * y + y / 4 - y / 100 + y / 400

/-- The number of days from 0001-01-01 to 1970-01-01. -/
def epoch : Int := 719162

/-- The number of days from 1970-01-01, negative before. -/
def dayNumber (d : Date) : Int :=
  daysBefore d.year + d.ordinal - 1 - epoch

/-- The date with the given number. -/
def ofDayNumber (n : Int) : Date :=
  let n := n + epoch
  let inCycle := n % 146097
  let centuries := min (inCycle / 36524) 3
  let inCentury := inCycle - 36524 * centuries
  let fours := inCentury / 1461
  let inFour := inCentury - 1461 * fours
  let years := min (inFour / 365) 3
  ⟨400 * (n / 146097) + 100 * centuries + 4 * fours + years + 1,
    (inFour - 365 * years + 1).toNat⟩

/-- The day of the week of the day with the given number. -/
def weekdayOf (dayNumber : Int) : Int :=
  (dayNumber + 3) % 7

/-- The day of the week. -/
def weekday (d : Date) : Int :=
  weekdayOf d.dayNumber

/-- The number of days from the last weekday `first` to the weekday `day`. -/
def daysSince (day first : Int) : Int :=
  (day - first) % 7

/-- The week of the year, where weeks begin on `first` and the days before the first
such day are in week 0. -/
def weekFrom (first : Int) (d : Date) : Int :=
  (d.ordinal - daysSince d.weekday first + 6) / 7

/-- The Thursday of the week from Monday to Sunday: its year is the year the week
belongs to. -/
def thursday (d : Date) : Date :=
  ofDayNumber (d.dayNumber - d.weekday + 3)

/-- The year that the week of the day belongs to. -/
def weekYear (d : Date) : Int :=
  d.thursday.year

/-- The week of that year, from 1 on. -/
def week (d : Date) : Int :=
  (d.thursday.ordinal - 1) / 7 + 1

/-- The day with the given weekday in a week that belongs to the year `weekYear`. -/
def ofWeek? (weekYear week weekday : Int) : Option Date :=
  let fourth := daysBefore weekYear + 3 - epoch
  let monday := fourth - weekdayOf fourth + 7 * (week - 1)
  if 1 ≤ week ∧ (ofDayNumber (monday + 3)).year = weekYear then
    let date := ofDayNumber (monday + weekday)
    if firstYear ≤ date.year ∧ date.year ≤ lastYear then some date else none
  else
    none

end Date

end LogFormat
