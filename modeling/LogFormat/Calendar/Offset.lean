import LogFormat.Calendar.Instant
import LogFormat.Text.Blank

/-!
# Offsets from UTC

An `Offset` is the difference of a local clock from UTC, less than a day either way.
`Offset.ofText` reads the name of a zone: `UTC`, `Z`, or a sign with hours and minutes.
-/

namespace LogFormat

/-- The number of seconds by which a local clock is ahead of UTC. -/
structure Offset where
  seconds : Int
  bounds : -86400 < seconds ∧ seconds < 86400
deriving Repr, DecidableEq

/-- Why a text is not the name of a zone; `zone` is the text without outer blanks. -/
inductive OffsetError where
  | malformed (zone : String)
  | badMinutes (zone : String)
  | outOfRange (zone : String)
deriving Repr, DecidableEq

/-- The text of the error. -/
def OffsetError.message : OffsetError → String
  | .malformed zone => s!"timezone '{zone}' must be UTC or a +HH:MM offset"
  | .badMinutes zone => s!"bad minutes in '{zone}'"
  | .outOfRange zone => s!"offset '{zone}' out of range"

namespace Offset

/-- The offset of UTC itself. -/
def utc : Offset :=
  ⟨0, by decide⟩

/-- The offset of a number of seconds, if it is less than a day. -/
def ofSeconds? (seconds : Int) : Option Offset :=
  if h : -86400 < seconds ∧ seconds < 86400 then some ⟨seconds, h⟩ else none

/-- The instant at which a local clock shows the time that a clock in UTC shows at
`shown`. -/
def instantOf? (o : Offset) (shown : Instant) : Option Instant :=
  shown.later? (-o.seconds)

/-- Whether two texts are the same but for the case of ASCII letters. -/
def sameLetters (cs ds : List Char) : Bool :=
  cs.map Char.toLower == ds.map Char.toLower

/-- The offset of hours and minutes given as four digits after a sign. -/
def ofDigits (zone : String) (sign : Int) (digits : List Char) : Except OffsetError Offset :=
  if digits.length = 4 ∧ digits.all Char.isDigit then
    let hours := digitsValue (digits.take 2)
    let minutes := digitsValue (digits.drop 2)
    if 60 ≤ minutes then
      .error (.badMinutes zone)
    else
      match ofSeconds? (sign * ((hours * 3600 + minutes * 60 : Nat) : Int)) with
      | some offset => .ok offset
      | none => .error (.outOfRange zone)
  else
    .error (.malformed zone)

/-- The offset of a zone, named by `UTC` in any case, by `Z`, or by a sign and four
digits, between and around which any colons are passed over. -/
def ofText (text : String) : Except OffsetError Offset :=
  let cs := trim text.toList
  let zone := String.ofList cs
  if sameLetters cs ['u', 't', 'c'] || cs == ['Z'] then
    .ok utc
  else
    match cs with
    | '+' :: rest => ofDigits zone 1 (rest.filter (· != ':'))
    | '-' :: rest => ofDigits zone (-1) (rest.filter (· != ':'))
    | _ => .error (.malformed zone)

end Offset

end LogFormat
