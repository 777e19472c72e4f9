import LogFormat.Calendar.Instant
import LogFormat.Text.Json

/-!
# Values

The values that fields of a log line are converted to, and their JSON text.
-/

namespace LogFormat

/-- The type of the values of a column. -/
inductive ColumnType where
  | string
  | integer
  | timestamp
deriving Repr, DecidableEq

/-- A value, or `null` for none. -/
inductive Value where
  | null
  | string (text : String)
  | integer (number : Int)
  | timestamp (instant : Instant)
deriving Repr, DecidableEq

namespace Value

/-- Whether there is no value. -/
def isNull : Value → Bool
  | null => true
  | _ => false

/-- The number, if the value is one. -/
def asInteger? : Value → Option Int
  | integer n => some n
  | _ => none

/-- The JSON text of a value; an instant is a string in the form of RFC 3339. -/
def json : Value → List Char
  | null => ['n', 'u', 'l', 'l']
  | string text => Json.string text.toList
  | integer n => integerText n
  | timestamp t => Json.string t.text.toList

end Value

end LogFormat
