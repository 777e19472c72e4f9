import LogFormat.Directive.SubPattern
import LogFormat.Pattern.Written
import LogFormat.Time.Reading

/-!
# Layouts of times

How a time is written in a log: in the common form with brackets, in a form given by
items, or as a count of seconds or parts of seconds since 1970.  `Layout.ofParameter`
finds the layout that a time directive asks for; `Layout.subPattern` is the written
pattern of the texts of that layout; `readTime` reads such a text.
-/

namespace LogFormat

/-- What is counted since 1970-01-01T00:00:00Z. -/
inductive EpochUnit where
  | seconds
  | millis
  | micros
deriving Repr, DecidableEq

/-- The number of microseconds in the unit. -/
def EpochUnit.inMicros : EpochUnit → Int
  | .seconds => 1000000
  | .millis => 1000
  | .micros => 1

/-- How a time is written. -/
inductive Layout where
  | commonLog
  | strftime (text : String) (items : List Item)
  | epoch (unit : EpochUnit)
deriving Repr, DecidableEq

/-- What makes a parameter no layout. -/
inductive LayoutFault where
  | fractionOnly
  | empty
  | unsupported
  | noDate
  | offsetWithoutTime
deriving Repr, DecidableEq

/-- The text of the fault. -/
def LayoutFault.message : LayoutFault → String
  | .fractionOnly => "fractional second components are not timestamps"
  | .empty => "empty format"
  | .unsupported => "unsupported strftime specifier"
  | .noDate => "format does not identify a calendar date"
  | .offsetWithoutTime => "UTC offset given without a time of day"

namespace Item

/-- A part of a date and time that an item can show. -/
inductive Part where
  | year
  | month
  | day
  | ordinal
  | hour
  | minute
  | epoch
  | complete
  | offset
deriving Repr, DecidableEq

/-- The parts that an item shows. -/
def parts : Item → List Part
  | number .year _ => [.year]
  | number .yearOfCentury _ => [.year]
  | number .month _ => [.month]
  | number .day _ => [.day]
  | number .ordinal _ => [.ordinal]
  | number .hour _ => [.hour]
  | number .hourOfHalf _ => [.hour]
  | number .minute _ => [.minute]
  | number .epochSeconds _ => [.epoch]
  | monthName _ => [.month]
  | offset _ => [.offset]
  | dateTime => [.complete, .offset]
  | _ => []

/-- Whether some item shows a part. -/
def someShows (items : List Item) (part : Part) : Bool :=
  items.any fun item => item.parts.contains part

/-- Whether the items show a day of the calendar. -/
def showDate (items : List Item) : Bool :=
  let shows := someShows items
  shows .complete || shows .epoch
    || (shows .year && (shows .ordinal || (shows .month && shows .day)))

/-- Whether the items show an hour and a minute. -/
def showTime (items : List Item) : Bool :=
  let shows := someShows items
  shows .complete || shows .epoch || (shows .hour && shows .minute)

/-- Whether the items show an offset from UTC. -/
def showOffset (items : List Item) : Bool :=
  someShows items .offset

/-- The written pattern of the texts that an item reads and writes. -/
def written : Item → List Char
  | literal text => quote text
  | space text => quote text
  | number _ _ => "\\s*[+-]?[0-9]+".toList
  | monthName _ => "[A-Za-z]+".toList
  | weekdayName _ => "[A-Za-z]+".toList
  | halfDay _ => "[AaPp][Mm]".toList
  | fraction _ => "(?:\\.[0-9]+)?".toList
  | fractionDigits _ => ".+?".toList
  | zoneName => "\\S+".toList
  | offset _ =>
    "(?:Z|[+-][0-9]\x7b2\x7d(?::?[0-9]\x7b2\x7d(?::?[0-9]\x7b2\x7d)?)?)".toList
  | looseOffset => ".+?".toList
  | dateTime => ".+?".toList

end Item

namespace Layout

/-- The items of the common log time, such as `10/Oct/2000:13:55:36 -0700`. -/
def commonItems : List Item :=
  [.zeroed .day, .char '/', .monthName .short, .char '/', .zeroed .year, .char ':']
    ++ Item.clockTime ++ [.space [' '], .offset .plain]

/-- The layout of a parameter that is not one of the counted forms. -/
def ofFormat (format : List Char) : Except LayoutFault Layout :=
  match Item.ofText? format with
  | none => .error .unsupported
  | some items =>
    if !Item.showDate items then .error .noDate
    else if Item.showOffset items && !Item.showTime items then .error .offsetWithoutTime
    else .ok (strftime (String.ofList format) items)

/-- The parameter without the word that says which end of the request is meant. -/
def withoutMoment (parameter : List Char) : List Char :=
  let begins := "begin:".toList
  let ends := "end:".toList
  if begins.isPrefixOf parameter then parameter.drop begins.length
  else if ends.isPrefixOf parameter then parameter.drop ends.length
  else parameter

/-- The layout that the parameter of a time directive asks for; without a parameter it is
the common log time. -/
def ofParameter : Option String → Except LayoutFault Layout
  | none => .ok commonLog
  | some parameter =>
    let format := withoutMoment parameter.toList
    if format = "sec".toList then .ok (epoch .seconds)
    else if format = "msec".toList then .ok (epoch .millis)
    else if format = "usec".toList then .ok (epoch .micros)
    else if format = "msec_frac".toList ∨ format = "usec_frac".toList then
      .error .fractionOnly
    else if format = [] then .error .empty
    else ofFormat format

/-- Whether the texts of the layout state their offset from UTC. -/
def hasOffset : Layout → Bool
  | commonLog => true
  | strftime _ items => Item.showOffset items
  | epoch _ => true

/-- The part of a text that holds the time: the common log time may have a bracket at
both ends, which do not count. -/
def strip (l : Layout) (raw : String) : String :=
  match l with
  | commonLog =>
    match raw.toList with
    | '[' :: rest =>
      if rest.getLast? = some ']' then String.ofList rest.dropLast else raw
    | _ => raw
  | _ => raw

/-- The written pattern of the texts of the layout, with one group. -/
def subPattern : Layout → String
  | commonLog => SubPattern.bracketedTime
  | epoch _ => SubPattern.epoch
  | strftime _ items => String.ofList ('(' :: items.flatMap Item.written ++ [')'])

end Layout

/-- Reads a time whose text states its offset from UTC. -/
def readWithOffset (items : List Item) (raw : List Char) : Except TimeError Instant := do
  (← readFields items raw).instant

/-- The date and time that a text without an offset shows, as a clock in UTC would show
them; a text that gives no date and time but gives a date is midnight of that date. -/
def readShown (items : List Item) (raw : List Char) : Except TimeError Instant := do
  let fields ← readFields items raw
  match fields.shown 0 with
  | .ok shown => .ok shown
  | .error _ => Fields.combine (← fields.date) (0, 0)

/-- Reads a time whose text is in the given zone. -/
def readLocal (zone : Offset) (items : List Item) (raw : List Char) :
    Except TimeError Instant := do
  match zone.instantOf? (← readShown items raw) with
  | some instant => .ok instant
  | none => .error .noSuchLocalTime

/-- Reads a count of units since 1970.  The count has to fit 64 bits as a number of
microseconds too. -/
def readEpoch (unit : EpochUnit) (raw : List Char) : Except TimeError Instant :=
  match readInteger? raw with
  | none => .error .notEpoch
  | some count =>
    let micros := count * unit.inMicros
    if micros < minInteger ∨ maxInteger < micros then
      .error .epochOutOfRange
    else
      match Instant.of? (micros / 1000000) ((micros % 1000000).toNat * 1000) with
      | some instant => .ok instant
      | none => .error .epochOutOfRange

/-- Reads a time in a layout, where texts without an offset are in the given zone. -/
def readTime (zone : Offset) (layout : Layout) (raw : String) : Except TimeError Instant :=
  match layout with
  | .commonLog => readWithOffset Layout.commonItems raw.toList
  | .strftime _ items =>
    if Item.showOffset items then readWithOffset items raw.toList
    else readLocal zone items raw.toList
  | .epoch unit => readEpoch unit raw.toList

/-- A way to read times, which gives a reason when it refuses. -/
abbrev TimeReader := Layout → String → Except String Instant

/-- The usual way to read times, with a zone for texts without an offset. -/
def TimeReader.standard (zone : Offset) : TimeReader :=
  fun layout raw => (readTime zone layout raw).mapError TimeError.message

end LogFormat
