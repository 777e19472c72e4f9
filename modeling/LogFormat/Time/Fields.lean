import LogFormat.Calendar.Offset

/-!
# What a time text says

Reading a time text fills slots: year, month, hour, and so on.  A slot can be filled
twice only with the same value.  From the slots that are filled, `Fields.date` and
`Fields.time` find the date and the time of day, and check every other slot that
says something about them; `Fields.shown` puts the two together, and
`Fields.instant` uses the offset that the text states.
-/

namespace LogFormat

/-- Why a text is not a time in a given format. -/
inductive TimeError where
  | outOfRange
  | impossible
  | notEnough
  | invalid
  | tooShort
  | trailing
  | notEpoch
  | epochOutOfRange
  | noSuchLocalTime
deriving Repr, DecidableEq

/-- The text of the error. -/
def TimeError.message : TimeError → String
  | .outOfRange => "input is out of range"
  | .impossible => "no possible date and time matching input"
  | .notEnough => "input is not enough for unique date and time"
  | .invalid => "input contains invalid characters"
  | .tooShort => "premature end of input"
  | .trailing => "trailing input"
  | .notEpoch => "not an epoch value"
  | .epochOutOfRange => "epoch value out of range"
  | .noSuchLocalTime => "ambiguous local time"

/-- The slots that a time text can fill.  The hour is held as the half of the day and
the hour of that half; weekdays count from Monday, which is 0. -/
inductive Slot where
  | year
  | century
  | yearOfCentury
  | weekYear
  | weekYearOfCentury
  | quarter
  | month
  | day
  | ordinal
  | week
  | weekFromSunday
  | weekFromMonday
  | weekday
  | half
  | hourOfHalf
  | minute
  | second
  | nanosecond
  | epochSeconds
  | offset
deriving Repr, DecidableEq

/-- The values of the filled slots. -/
def Fields := Slot → Option Int

namespace Fields

/-- No slot filled. -/
def unfilled : Fields :=
  fun _ => none

/-- Fills a slot; a slot that holds another value already refuses. -/
def put (f : Fields) (slot : Slot) (value : Int) : Except TimeError Fields :=
  match f slot with
  | none => .ok fun s => if s = slot then some value else f s
  | some held => if held = value then .ok f else .error .impossible

/-- Fills a slot with a value that has to lie between two bounds. -/
def putWithin (f : Fields) (slot : Slot) (least most value : Int) : Except TimeError Fields :=
  if least ≤ value ∧ value ≤ most then f.put slot value else .error .outOfRange

/-- Fills the slots of an hour from 0 to 23. -/
def putHour (f : Fields) (hour : Int) : Except TimeError Fields :=
  if 0 ≤ hour ∧ hour ≤ 23 then do
    (← f.put .half (hour / 12)).put .hourOfHalf (hour % 12)
  else
    .error .outOfRange

/-- Whether a slot is empty or holds the given value. -/
def agrees (f : Fields) (slot : Slot) (value : Int) : Bool :=
  (f slot).all (· == value)

/-- Whether a slot for a part of the number of a year agrees with that part; years before
0 have no such parts. -/
def agreesPart (f : Fields) (slot : Slot) (year part : Int) : Bool :=
  if 0 ≤ year then f.agrees slot part else (f slot).isNone

/-- The year that a full year, a century and a year of a century stand for together.  A
year of a century alone lies between 1970 and 2069. -/
def resolveYear (full hundreds rest : Option Int) : Except TimeError (Option Int) :=
  match full, hundreds, rest with
  | y, none, none => .ok y
  | some y, c, r =>
    if 0 ≤ y ∧ c.getD (y / 100) = y / 100 ∧ r.getD (y % 100) = y % 100 then .ok (some y)
    else .error .impossible
  | none, some c, some r => .ok (some (100 * c + r))
  | none, none, some r => .ok (some (if r < 70 then 2000 + r else 1900 + r))
  | none, some _, none => .error .notEnough

/-- Whether the slots for year, month and day agree with a date. -/
def agreesMonthDay (f : Fields) (d : Date) : Bool :=
  f.agrees .year d.year && f.agreesPart .century d.year (d.year / 100)
    && f.agreesPart .yearOfCentury d.year (d.year % 100)
    && f.agrees .month d.month && f.agrees .day d.day

/-- Whether the slots for weeks from Monday to Sunday, with their year, and for the
weekday agree with a date. -/
def agreesWeek (f : Fields) (d : Date) : Bool :=
  f.agrees .weekYear d.weekYear
    && f.agreesPart .weekYearOfCentury d.weekYear (d.weekYear % 100)
    && f.agrees .week d.week && f.agrees .weekday d.weekday

/-- Whether the slots for the day of the year and the weeks of the year agree with a
date. -/
def agreesOrdinal (f : Fields) (d : Date) : Bool :=
  f.agrees .ordinal d.ordinal && f.agrees .weekFromSunday (d.weekFrom 6)
    && f.agrees .weekFromMonday (d.weekFrom 0)

/-- The given weekday in a week of the year, where weeks begin on `first`. -/
def weekDate (year week weekday first : Int) : Except TimeError Date :=
  if 53 < week then .error .outOfRange
  else
    match Date.ofOrdinal? year 1 with
    | none => .error .outOfRange
    | some newYear =>
      let ordinal := 1 + Date.daysSince first newYear.weekday + (week - 1) * 7
        + Date.daysSince weekday first
      match Date.ofOrdinal? year ordinal with
      | none => .error .impossible
      | some date => .ok date

/-- The date, or an error if there is no such day. -/
def found (date? : Option Date) : Except TimeError Date :=
  match date? with
  | some date => .ok date
  | none => .error .outOfRange

/-- The date that the first sufficient group of slots gives, and whether the other slots
agree with it. -/
def candidate (f : Fields) (year weekYear : Option Int) : Except TimeError (Date × Bool) :=
  match year, f .month, f .day, f .ordinal, f .weekFromSunday, f .weekFromMonday,
    f .weekday, weekYear, f .week with
  | some y, some m, some d, _, _, _, _, _, _ => do
    let date ← found (Date.ofMonthDay? y m d)
    .ok (date, f.agreesWeek date && f.agreesOrdinal date)
  | some y, _, _, some n, _, _, _, _, _ => do
    let date ← found (Date.ofOrdinal? y n)
    .ok (date, f.agreesMonthDay date && f.agreesWeek date && f.agreesOrdinal date)
  | some y, _, _, _, some w, _, some wd, _, _ => do
    let date ← weekDate y w wd 6
    .ok (date, f.agreesMonthDay date && f.agreesWeek date && f.agreesOrdinal date)
  | some y, _, _, _, _, some w, some wd, _, _ => do
    let date ← weekDate y w wd 0
    .ok (date, f.agreesMonthDay date && f.agreesWeek date && f.agreesOrdinal date)
  | _, _, _, _, _, _, some wd, some wy, some w => do
    let date ← found (Date.ofWeek? wy w wd)
    .ok (date, f.agreesMonthDay date && f.agreesOrdinal date)
  | _, _, _, _, _, _, _, _, _ => .error .notEnough

/-- The date that the slots determine. -/
def date (f : Fields) : Except TimeError Date := do
  let year ← resolveYear (f .year) (f .century) (f .yearOfCentury)
  let weekYear ← resolveYear (f .weekYear) none (f .weekYearOfCentury)
  let (date, agrees) ← f.candidate year weekYear
  if agrees && f.agrees .quarter date.quarter then .ok date else .error .impossible

/-- The time of day that the slots determine: the second of the day, and nanoseconds.
Second 60 is the leap second after second 59. -/
def time (f : Fields) : Except TimeError (Int × Nat) :=
  match f .half, f .hourOfHalf, f .minute with
  | some half, some hour, some minute =>
    let whole := (12 * half + hour) * 3600 + minute * 60
    match f .second, f .nanosecond with
    | none, none => .ok (whole, 0)
    | none, some _ => .error .notEnough
    | some second, nanos =>
      let nanos := (nanos.getD 0).toNat
      if second = 60 then .ok (whole + 59, 1000000000 + nanos)
      else .ok (whole + second, nanos)
  | _, _, _ => .error .notEnough

/-- The instant at which a clock in UTC shows a date and a time of day. -/
def combine (date : Date) (time : Int × Nat) : Except TimeError Instant :=
  match Instant.of? (86400 * date.dayNumber + time.1) time.2 with
  | some shown => .ok shown
  | none => .error .outOfRange

/-- Whether the result is the given error. -/
def failedWith {α : Type} (e : TimeError) : Except TimeError α → Bool
  | .error e' => e' == e
  | .ok _ => false

/-- The date and time that the slots leave open, from the seconds since 1970 that a
clock ahead by `offset` shows.  A stated second 60 is the leap second just before. -/
def fromEpoch (f : Fields) (epochSeconds offset : Int) : Except TimeError Instant := do
  let shown ←
    match Instant.of? (epochSeconds + offset) 0 with
    | some shown => Except.ok shown
    | none => .error .outOfRange
  let (f, seconds) ←
    if f .second = some 60 then
      match shown.second with
      | 59 => Except.ok (f, shown.seconds)
      | 0 => .ok (f, shown.seconds - 1)
      | _ => .error .impossible
    else do
      .ok (← f.put .second shown.second, shown.seconds)
  let date := Date.ofDayNumber (seconds / 86400)
  let f ← f.put .year date.year
  let f ← f.put .ordinal date.ordinal
  let f ← f.putHour (seconds % 86400 / 3600)
  let f ← f.put .minute (seconds % 3600 / 60)
  combine (← f.date) (← f.time)

/-- The instant at which a clock in UTC shows the date and time that the slots
determine, where stated epoch seconds are those of a clock ahead by `offset`. -/
def shown (f : Fields) (offset : Int) : Except TimeError Instant :=
  match f.date, f.time with
  | .ok date, .ok time => do
    let shown ← combine date time
    match f .epochSeconds with
    | none => .ok shown
    | some stated =>
      let seconds := shown.seconds - offset
      if stated = seconds ∨ (1000000000 ≤ shown.nanos ∧ stated = seconds + 1) then
        .ok shown
      else
        .error .impossible
  | date, time =>
    match f .epochSeconds with
    | none => do
      let date ← date
      combine date (← time)
    | some stated =>
      if failedWith .outOfRange date || failedWith .outOfRange time then
        .error .outOfRange
      else if failedWith .impossible date || failedWith .impossible time then
        .error .impossible
      else
        f.fromEpoch stated offset

/-- The instant that the slots determine with the offset that they state; epoch seconds
alone are taken to be in UTC. -/
def instant (f : Fields) : Except TimeError Instant := do
  let offset ←
    match f .offset, f .epochSeconds with
    | some offset, _ => Except.ok offset
    | none, some _ => .ok 0
    | none, none => .error .notEnough
  let shown ← f.shown offset
  match Offset.ofSeconds? offset with
  | none => .error .outOfRange
  | some offset =>
    match offset.instantOf? shown with
    | none => .error .impossible
    | some instant => .ok instant

end Fields

end LogFormat
