import LogFormat.Calendar.Date
import LogFormat.Text.Decimal

/-!
# Instants

An `Instant` is a point of time: seconds from 1970-01-01T00:00:00Z and a part of a
second in nanoseconds.  A part of a billion nanoseconds or more belongs to a leap
second, which follows the last second of a minute and is shown as second 60.
`Instant.text` is the RFC 3339 form in UTC.
-/

namespace LogFormat

/-- The bounds of an instant: its date is in the calendar in use, and only the last
second of a minute is followed by a leap second. -/
def Instant.Valid (seconds : Int) (nanos : Nat) : Prop :=
  (-8334601228800 ≤ seconds ∧ seconds ≤ 8210266876799)
    ∧ nanos < 2000000000 ∧ (1000000000 ≤ nanos → seconds % 60 = 59)

/-- The bounds can be checked. -/
instance (seconds : Int) (nanos : Nat) : Decidable (Instant.Valid seconds nanos) := by
  unfold Instant.Valid
  infer_instance

/-- A point of time. -/
structure Instant where
  seconds : Int
  nanos : Nat
  valid : Instant.Valid seconds nanos
deriving Repr, DecidableEq

namespace Instant

/-- The instant with the given parts, if they are in bounds. -/
def of? (seconds : Int) (nanos : Nat) : Option Instant :=
  if h : Valid seconds nanos then some ⟨seconds, nanos, h⟩ else none

/-- The instant `seconds` later, if there is one. -/
def later? (i : Instant) (seconds : Int) : Option Instant :=
  of? (i.seconds + seconds) i.nanos

/-- The date in UTC. -/
def date (i : Instant) : Date :=
  Date.ofDayNumber (i.seconds / 86400)

/-- The number of the second in its day, leap seconds not counted. -/
def secondOfDay (i : Instant) : Nat :=
  (i.seconds % 86400).toNat

/-- The hour in UTC. -/
def hour (i : Instant) : Nat :=
  i.secondOfDay / 3600

/-- The minute of the hour. -/
def minute (i : Instant) : Nat :=
  i.secondOfDay / 60 % 60

/-- The second of the minute; a leap second counts with the second before it. -/
def second (i : Instant) : Nat :=
  i.secondOfDay % 60

/-- The number shown for the second of the minute. -/
def shownSecond (i : Instant) : Nat :=
  i.second + i.nanos / 1000000000

/-- The part of the shown second, in nanoseconds. -/
def shownNanos (i : Instant) : Nat :=
  i.nanos % 1000000000

/-- A year as four digits; outside of 0 to 9999 it has a sign. -/
def yearText (year : Int) : List Char :=
  if 0 ≤ year ∧ year ≤ 9999 then padded 4 year.toNat
  else (if year < 0 then '-' else '+') :: padded 4 year.natAbs

/-- The part of a second with the fewest of 0, 3, 6 and 9 digits that are exact. -/
def fractionText (nanos : Nat) : List Char :=
  if nanos = 0 then []
  else if nanos % 1000000 = 0 then '.' :: padded 3 (nanos / 1000000)
  else if nanos % 1000 = 0 then '.' :: padded 6 (nanos / 1000)
  else '.' :: padded 9 nanos

/-- The instant in the form of RFC 3339, in UTC. -/
def text (i : Instant) : String :=
  String.ofList <|
    yearText i.date.year ++ '-' :: padded 2 i.date.month ++ '-' :: padded 2 i.date.day
      ++ 'T' :: padded 2 i.hour ++ ':' :: padded 2 i.minute ++ ':' :: padded 2 i.shownSecond
      ++ fractionText i.shownNanos ++ ['Z']

end Instant

end LogFormat
