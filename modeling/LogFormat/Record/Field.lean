import LogFormat.Record.Value
import LogFormat.Time.Layout

/-!
# Fields

A field is what a directive stands for in a line: a name, the written pattern of its
texts, and the way such a text is converted to a value.
-/

namespace LogFormat

/-- How a text is converted. -/
inductive FieldKind where
  | string
  | integer
  | timestamp (layout : Layout) (reader : TimeReader)

/-- What a directive stands for. -/
structure Field where
  name : String
  subPattern : String
  kind : FieldKind

/-- Why a text cannot be converted. -/
inductive FieldError where
  | malformedInteger (raw : String)
  | malformedTimestamp (raw reason : String)
deriving Repr, DecidableEq

/-- The text of the error. -/
def FieldError.message : FieldError → String
  | .malformedInteger raw => s!"Malformed integer: '{raw}'"
  | .malformedTimestamp raw reason => s!"Malformed timestamp '{raw}': {reason}"

namespace Field

/-- A field of times in a layout, with the pattern of that layout. -/
def timestamp (name : String) (layout : Layout) (reader : TimeReader) : Field :=
  ⟨name, layout.subPattern, .timestamp layout reader⟩

/-- The type of the field's values. -/
def columnType (f : Field) : ColumnType :=
  match f.kind with
  | .string => .string
  | .integer => .integer
  | .timestamp _ _ => .timestamp

/-- The value of a text.  For a number, a hyphen or nothing stands for no value. -/
def convert (f : Field) (raw : String) : Except FieldError Value :=
  match f.kind with
  | .string => .ok (.string raw)
  | .integer =>
    if raw = "" ∨ raw = "-" then .ok .null
    else
      match readInteger? raw.toList with
      | some n => .ok (.integer n)
      | none => .error (.malformedInteger raw)
  | .timestamp layout reader =>
    match reader layout (layout.strip raw) with
    | .ok t => .ok (.timestamp t)
    | .error reason => .error (.malformedTimestamp raw reason)

end Field

end LogFormat
