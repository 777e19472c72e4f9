import LogFormat.Text.Blank

/-!
# Time formats as items

A time format is a text in which `%` introduces a specifier; everything else stands
for itself.  `Item.ofText?` divides such a text into items: literal text, white space,
numbers, names, and the composite forms, which stand for the items they are short for.
-/

namespace LogFormat

/-- The number that a numeric item shows. -/
inductive Quantity where
  | year
  | century
  | yearOfCentury
  | weekYear
  | weekYearOfCentury
  | quarter
  | month
  | day
  | weekFromSunday
  | weekFromMonday
  | week
  | weekdayFromSunday
  | weekdayFromMonday
  | ordinal
  | hour
  | hourOfHalf
  | minute
  | second
  | nanosecond
  | epochSeconds
deriving Repr, DecidableEq

/-- What a number is filled up with when it is written. -/
inductive Pad where
  | nothing
  | zero
  | blank
deriving Repr, DecidableEq

/-- A name in full, or its first three letters. -/
inductive NameForm where
  | short
  | long
deriving Repr, DecidableEq

/-- The number of digits of a part of a second. -/
inductive Precision where
  | millis
  | micros
  | nanos
deriving Repr, DecidableEq

/-- The number of digits. -/
def Precision.digits : Precision → Nat
  | .millis => 3
  | .micros => 6
  | .nanos => 9

/-- How an offset from UTC is written: `+hhmm`, `+hh:mm`, `+hh:mm:ss`, or `+hh`. -/
inductive OffsetForm where
  | plain
  | colon
  | seconds
  | hours
deriving Repr, DecidableEq

/-- One element of a time format.  A `fraction` has a point before its digits and may be
left out, `fractionDigits` has digits only; `looseOffset` reads any form of offset. -/
inductive Item where
  | literal (text : List Char)
  | space (text : List Char)
  | number (quantity : Quantity) (pad : Pad)
  | monthName (form : NameForm)
  | weekdayName (form : NameForm)
  | halfDay (upper : Bool)
  | fraction (precision : Option Precision)
  | fractionDigits (precision : Precision)
  | zoneName
  | offset (form : OffsetForm)
  | looseOffset
  | dateTime
deriving Repr, DecidableEq

namespace Item

/-- A number that is filled up with zeros. -/
def zeroed (q : Quantity) : Item :=
  number q .zero

/-- A single character of literal text. -/
def char (c : Char) : Item :=
  literal [c]

/-- Year, month and day with hyphens between them. -/
def fullDate : List Item :=
  [zeroed .year, char '-', zeroed .month, char '-', zeroed .day]

/-- Month, day and year of the century with slashes between them. -/
def slashDate : List Item :=
  [zeroed .month, char '/', zeroed .day, char '/', zeroed .yearOfCentury]

/-- Hour, minute and second with colons between them. -/
def clockTime : List Item :=
  [zeroed .hour, char ':', zeroed .minute, char ':', zeroed .second]

/-- The items of a specifier of one character. -/
def ofSpecifier? : Char → Option (List Item)
  | 'A' => some [weekdayName .long]
  | 'B' => some [monthName .long]
  | 'C' => some [zeroed .century]
  | 'D' => some slashDate
  | 'F' => some fullDate
  | 'G' => some [zeroed .weekYear]
  | 'H' => some [zeroed .hour]
  | 'I' => some [zeroed .hourOfHalf]
  | 'M' => some [zeroed .minute]
  | 'P' => some [halfDay false]
  | 'R' => some [zeroed .hour, char ':', zeroed .minute]
  | 'S' => some [zeroed .second]
  | 'T' => some clockTime
  | 'U' => some [zeroed .weekFromSunday]
  | 'V' => some [zeroed .week]
  | 'W' => some [zeroed .weekFromMonday]
  | 'X' => some clockTime
  | 'Y' => some [zeroed .year]
  | 'Z' => some [zoneName]
  | 'a' => some [weekdayName .short]
  | 'b' => some [monthName .short]
  | 'c' => some <|
      [weekdayName .short, space [' '], monthName .short, space [' '], number .day .blank,
        space [' ']] ++ clockTime ++ [space [' '], zeroed .year]
  | 'd' => some [zeroed .day]
  | 'e' => some [number .day .blank]
  | 'f' => some [zeroed .nanosecond]
  | 'g' => some [zeroed .weekYearOfCentury]
  | 'h' => some [monthName .short]
  | 'j' => some [zeroed .ordinal]
  | 'k' => some [number .hour .blank]
  | 'l' => some [number .hourOfHalf .blank]
  | 'm' => some [zeroed .month]
  | 'n' => some [space ['\n']]
  | 'p' => some [halfDay true]
  | 'q' => some [number .quarter .nothing]
  | 'r' => some
      [zeroed .hourOfHalf, char ':', zeroed .minute, char ':', zeroed .second, space [' '],
        halfDay true]
  | 's' => some [number .epochSeconds .nothing]
  | 't' => some [space ['\t']]
  | 'u' => some [number .weekdayFromMonday .nothing]
  | 'v' => some
      [number .day .blank, char '-', monthName .short, char '-', zeroed .year]
  | 'w' => some [number .weekdayFromSunday .nothing]
  | 'x' => some slashDate
  | 'y' => some [zeroed .yearOfCentury]
  | 'z' => some [offset .plain]
  | '+' => some [dateTime]
  | '%' => some [char '%']
  | _ => none

/-- The items of a specifier that names its own padding, which is a single number. -/
def withPad? (pad : Pad) (c : Char) : Option (List Item) :=
  match ofSpecifier? c with
  | some [number q _] => some [number q pad]
  | _ => none

/-- Reads a specifier after its `%`. -/
def specifier? : List Char → Option (List Item × List Char)
  | '#' :: 'z' :: rest => some ([looseOffset], rest)
  | '-' :: c :: rest => (withPad? .nothing c).map (·, rest)
  | '0' :: c :: rest => (withPad? .zero c).map (·, rest)
  | '_' :: c :: rest => (withPad? .blank c).map (·, rest)
  | ':' :: 'z' :: rest => some ([offset .colon], rest)
  | ':' :: ':' :: 'z' :: rest => some ([offset .seconds], rest)
  | ':' :: ':' :: ':' :: 'z' :: rest => some ([offset .hours], rest)
  | '.' :: 'f' :: rest => some ([fraction none], rest)
  | '.' :: '3' :: 'f' :: rest => some ([fraction (some .millis)], rest)
  | '.' :: '6' :: 'f' :: rest => some ([fraction (some .micros)], rest)
  | '.' :: '9' :: 'f' :: rest => some ([fraction (some .nanos)], rest)
  | '3' :: 'f' :: rest => some ([fractionDigits .millis], rest)
  | '6' :: 'f' :: rest => some ([fractionDigits .micros], rest)
  | '9' :: 'f' :: rest => some ([fractionDigits .nanos], rest)
  | c :: rest => (ofSpecifier? c).map (·, rest)
  | [] => none

theorem specifier?_length_lt {cs rest : List Char} {items : List Item}
    (h : specifier? cs = some (items, rest)) :
  rest.length < cs.length
  := by
  unfold specifier? at h
  split at h <;> simp at h <;> grind

/-- Whether a character belongs to literal text. -/
def isLiteral (c : Char) : Bool :=
  c != '%' && !isBlank c

/-- The items of a time format, or nothing if some `%` begins no specifier. -/
def ofText? (cs : List Char) : Option (List Item) :=
  match cs with
  | [] => some []
  | '%' :: ds =>
    match _read : specifier? ds with
    | none => none
    | some (items, rest) => (ofText? rest).map (items ++ ·)
  | c :: ds =>
    if isBlank c then
      (ofText? (ds.dropWhile isBlank)).map (space (c :: ds.takeWhile isBlank) :: ·)
    else
      (ofText? (ds.dropWhile isLiteral)).map (literal (c :: ds.takeWhile isLiteral) :: ·)
termination_by cs.length
decreasing_by
  · have := specifier?_length_lt _read
    simp only [List.length_cons]
    omega
  · have := (List.dropWhile_suffix (l := ds) isBlank).length_le
    simp only [List.length_cons]
    omega
  · have := (List.dropWhile_suffix (l := ds) isLiteral).length_le
    simp only [List.length_cons]
    omega

/-- Whether the item shows an offset from UTC of a fixed form. -/
def isOffset : Item → Bool
  | offset _ => true
  | dateTime => true
  | _ => false

end Item

end LogFormat
