import LogFormat.Text.Bytes
import LogFormat.Time.Fields
import LogFormat.Time.Item

/-!
# Reading times

`Item.read` reads one item of a time format from the front of a text: it fills the
slots that the item speaks of and gives the rest of the text.  Numbers may have blanks
before them and are read whatever their padding; white space in a format reads any
amount of white space; names are read in any case.  `readFields` reads a whole text by
a list of items.
-/

namespace LogFormat

/-- Reads at least `least` and at most `most` digits, as many as there are; without
`most` there is no bound. -/
def readDigits (least : Nat) (most : Option Nat) (cs : List Char) :
    Except TimeError (Int × List Char) :=
  if shorterThan least cs then .error .tooShort
  else
    let ds := (match most with
      | none => cs
      | some most => cs.take most).takeWhile Char.isDigit
    if ds.length < least then .error .invalid
    else if maxInteger < digitsValue ds then .error .outOfRange
    else .ok (digitsValue ds, cs.drop ds.length)

/-- Reads a number of at most `width` digits or, after a sign, of any number of digits. -/
def readSigned (width : Nat) (cs : List Char) : Except TimeError (Int × List Char) :=
  match cs with
  | '-' :: rest => (readDigits 1 none rest).map fun (n, rest) => (-n, rest)
  | '+' :: rest => readDigits 1 none rest
  | _ => readDigits 1 (some width) cs

namespace Quantity

/-- The greatest number of digits; there is none for the seconds since 1970. -/
def width : Quantity → Option Nat
  | year | weekYear => some 4
  | quarter | weekdayFromSunday | weekdayFromMonday => some 1
  | ordinal => some 3
  | nanosecond => some 9
  | epochSeconds => none
  | _ => some 2

/-- Whether the number may have a sign. -/
def isSigned : Quantity → Bool
  | year | weekYear => true
  | _ => false

/-- Reads the number. -/
def readNumber (q : Quantity) (cs : List Char) : Except TimeError (Int × List Char) :=
  if q.isSigned then readSigned (q.width.getD 0) cs else readDigits 1 q.width cs

/-- Fills the slot that the number speaks of. -/
def store (q : Quantity) (f : Fields) (n : Int) : Except TimeError Fields :=
  match q with
  | year => f.putWithin .year (-2147483648) 2147483647 n
  | century => f.put .century n
  | yearOfCentury => f.put .yearOfCentury n
  | weekYear => f.putWithin .weekYear (-2147483648) 2147483647 n
  | weekYearOfCentury => f.put .weekYearOfCentury n
  | quarter => f.putWithin .quarter 1 4 n
  | month => f.putWithin .month 1 12 n
  | day => f.putWithin .day 1 31 n
  | weekFromSunday => f.putWithin .weekFromSunday 0 53 n
  | weekFromMonday => f.putWithin .weekFromMonday 0 53 n
  | week => f.putWithin .week 1 53 n
  | weekdayFromSunday =>
    if n ≤ 6 then f.put .weekday ((n + 6) % 7) else .error .outOfRange
  | weekdayFromMonday => do f.putWithin .weekday 0 6 (n - 1)
  | ordinal => f.putWithin .ordinal 1 366 n
  | hour => f.putHour n
  | hourOfHalf =>
    if 1 ≤ n ∧ n ≤ 12 then f.put .hourOfHalf (n % 12) else .error .outOfRange
  | minute => f.putWithin .minute 0 59 n
  | second => f.putWithin .second 0 60 n
  | nanosecond => f.put .nanosecond n
  | epochSeconds => f.put .epochSeconds n

end Quantity

/-- The names of the months. -/
def monthNames : List (List Char) :=
  ["January", "February", "March", "April", "May", "June", "July", "August", "September",
    "October", "November", "December"].map String.toList

/-- The names of the weekdays from Monday on. -/
def weekdayNames : List (List Char) :=
  ["Monday", "Tuesday", "Wednesday", "Thursday", "Friday", "Saturday", "Sunday"].map
    String.toList

/-- Reads the first three letters of one of the names in any case, and gives its number
in the list; the long form also takes the rest of the name if it stands there. -/
def readName (names : List (List Char)) (form : NameForm) (cs : List Char) :
    Except TimeError (Int × List Char) :=
  if shorterThan 3 cs then .error .tooShort
  else
    match names.findIdx? fun name => Offset.sameLetters (name.take 3) (cs.take 3) with
    | none => .error .invalid
    | some i =>
      let ending := (names.getD i []).drop 3
      let rest := cs.drop 3
      match form with
      | .short => .ok (i, rest)
      | .long =>
        if Offset.sameLetters ending (rest.take ending.length) then
          .ok (i, rest.drop ending.length)
        else
          .ok (i, rest)

/-- Reads `AM` or `PM` in any case; the second half of the day is 1. -/
def readHalf (cs : List Char) : Except TimeError (Int × List Char) :=
  if shorterThan 2 cs then .error .tooShort
  else if Offset.sameLetters (cs.take 2) ['a', 'm'] then .ok (0, cs.drop 2)
  else if Offset.sameLetters (cs.take 2) ['p', 'm'] then .ok (1, cs.drop 2)
  else .error .invalid

/-- Reads exactly so many digits as a part of a second. -/
def readFractionDigits (p : Precision) (cs : List Char) : Except TimeError (Int × List Char) :=
  (readDigits p.digits (some p.digits) cs).map fun (n, rest) =>
    (n * Nat.pow 10 (9 - p.digits), rest)

/-- Reads digits as a part of a second, of which those after the ninth do not count. -/
def readFraction (cs : List Char) : Except TimeError (Int × List Char) :=
  (readDigits 1 (some 9) cs).map fun (n, rest) =>
    (n * Nat.pow 10 (9 - (cs.length - rest.length)), rest.dropWhile Char.isDigit)

/-- Reads the minutes of an offset, two digits below 60. -/
def readOffsetMinutes (cs : List Char) : Except TimeError (Int × List Char) :=
  if shorterThan 2 cs then .error .tooShort
  else
    match cs with
    | a :: b :: rest =>
      if a.isDigit && b.isDigit then
        let minutes := digitsValue [a, b]
        if 60 ≤ minutes then .error .outOfRange else .ok (minutes, rest)
      else
        .error .invalid
    | _ => .error .invalid

/-- Reads the hours of an offset and any colons and blanks after them. -/
def readOffsetHours (cs : List Char) : Except TimeError (Int × List Char) :=
  if shorterThan 2 cs then .error .tooShort
  else
    match cs with
    | a :: b :: rest =>
      if a.isDigit && b.isDigit then
        .ok (digitsValue [a, b], rest.dropWhile fun c => c == ':' || isBlank c)
      else
        .error .invalid
    | _ => .error .invalid

/-- Reads the sign of an offset, which may be the minus sign of mathematics. -/
def readOffsetSign : List Char → Except TimeError (Int × List Char)
  | '+' :: rest => .ok (1, rest)
  | '-' :: rest => .ok (-1, rest)
  | '\u2212' :: rest => .ok (-1, rest)
  | _ :: _ => .error .invalid
  | [] => .error .tooShort

/-- Reads an offset from UTC as seconds: a sign, hours and minutes.  With `zulu` it may
also be the letter Z, and with `hoursAlone` the minutes may be missing at the end. -/
def readOffset (zulu hoursAlone : Bool) (cs : List Char) : Except TimeError (Int × List Char) :=
  match zulu, cs with
  | true, 'Z' :: rest => .ok (0, rest)
  | true, 'z' :: rest => .ok (0, rest)
  | _, _ => do
    let (sign, rest) ← readOffsetSign cs
    let (hours, rest) ← readOffsetHours rest
    if hoursAlone && rest.isEmpty then
      .ok (sign * (hours * 3600), [])
    else
      let (minutes, rest) ← readOffsetMinutes rest
      .ok (sign * (hours * 3600 + minutes * 60), rest)

/-- Reads exactly the given text. -/
def readLiteral (text cs : List Char) : Except TimeError (Unit × List Char) :=
  if utf8Length cs < utf8Length text then .error .tooShort
  else if text.isPrefixOf cs then .ok ((), cs.drop text.length)
  else .error .invalid

namespace Item

/-- Reads an item that is not a composite of others. -/
def readSimple (item : Item) (f : Fields) (cs : List Char) :
    Except TimeError (Fields × List Char) :=
  match item with
  | literal text => do
    let ((), rest) ← readLiteral text cs
    .ok (f, rest)
  | space _ => .ok (f, trimStart cs)
  | number q _ => do
    let (n, rest) ← q.readNumber (trimStart cs)
    .ok (← q.store f n, rest)
  | monthName form => do
    let (i, rest) ← readName monthNames form cs
    .ok (← f.put .month (i + 1), rest)
  | weekdayName form => do
    let (i, rest) ← readName weekdayNames form cs
    .ok (← f.put .weekday i, rest)
  | halfDay _ => do
    let (half, rest) ← readHalf cs
    .ok (← f.put .half half, rest)
  | fraction precision =>
    match cs with
    | '.' :: rest => do
      let (n, rest) ←
        match precision with
        | none => readFraction rest
        | some p => readFractionDigits p rest
      .ok (← f.put .nanosecond n, rest)
    | _ => .ok (f, cs)
  | fractionDigits p => do
    let (n, rest) ← readFractionDigits p cs
    .ok (← f.put .nanosecond n, rest)
  | zoneName => .ok (f, cs.dropWhile fun c => !isBlank c)
  | offset _ => do
    let (n, rest) ← readOffset false false (trimStart cs)
    .ok (← f.put .offset n, rest)
  | looseOffset => do
    let (n, rest) ← readOffset true true (trimStart cs)
    .ok (← f.put .offset n, rest)
  | dateTime => .ok (f, cs)

/-- Reads items one after the other, none of them a composite. -/
def readAllSimple (items : List Item) (f : Fields) (cs : List Char) :
    Except TimeError (Fields × List Char) :=
  items.foldlM (fun (f, cs) item => item.readSimple f cs) (f, cs)

/-- The sign between the date and the time of a full date and time. -/
def readSeparator : List Char → Except TimeError (Unit × List Char)
  | c :: rest => if c == 'T' || c == 't' || c == ' ' then .ok ((), rest) else .error .invalid
  | [] => .error .tooShort

/-- The zone at the end of a full date and time: `UTC`, the letter Z, or an offset. -/
def readZone (cs : List Char) : Except TimeError (Int × List Char) :=
  if Offset.sameLetters (cs.take 3) ['u', 't', 'c'] then .ok (0, cs.drop 3)
  else readOffset true false cs

/-- Reads a full date and time with blanks allowed between its parts. -/
def readDateTime (f : Fields) (cs : List Char) : Except TimeError (Fields × List Char) := do
  let spaced (items : List Item) := items.flatMap fun
    | literal text => [space [], literal text]
    | item => [item]
  let (f, rest) ← readAllSimple (spaced fullDate) f cs
  let ((), rest) ← readSeparator rest
  let (f, rest) ← readAllSimple (spaced clockTime ++ [fraction none]) f rest
  let (n, rest) ← readZone (trimStart rest)
  .ok (← f.put .offset n, rest)

/-- Reads an item from the front of a text. -/
def read (item : Item) (f : Fields) (cs : List Char) : Except TimeError (Fields × List Char) :=
  match item with
  | dateTime => readDateTime f cs
  | item => item.readSimple f cs

end Item

/-- Reads a whole text by a list of items. -/
def readFields (items : List Item) (cs : List Char) : Except TimeError Fields := do
  let (f, rest) ← items.foldlM (fun (f, cs) item => item.read f cs) (Fields.unfilled, cs)
  if rest.isEmpty then .ok f else .error .trailing

end LogFormat
