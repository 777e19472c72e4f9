import LogFormat.Directive.Word
import LogFormat.Record.Field

/-!
# The table of directives

What each key stands for: the name of a field, and how its texts look and are
converted.
-/

namespace LogFormat

/-- What a key makes of a directive: a text or a number with a written pattern, or a time,
whose layout the parameter of the directive gives. -/
inductive FieldMaker where
  | text (subPattern : String)
  | integer (subPattern : String)
  | timestamp
deriving Repr, DecidableEq

/-- A line of the table. -/
structure TableEntry where
  key : Char
  field : String
  maker : FieldMaker
deriving Repr, DecidableEq

/-- The directives that are known. -/
def directiveTable : List TableEntry :=
  [⟨'a', "remote-ip", .text SubPattern.address⟩,
    ⟨'A', "local-ip", .text SubPattern.address⟩,
    ⟨'b', "response-bytes", .integer SubPattern.integer⟩,
    ⟨'B', "response-bytes", .integer SubPattern.integer⟩,
    ⟨'C', "request-cookie", .text SubPattern.any⟩,
    ⟨'D', "request-process-time-us", .integer SubPattern.integer⟩,
    ⟨'e', "env", .text SubPattern.any⟩,
    ⟨'f', "file-name", .text SubPattern.any⟩,
    ⟨'h', "remote-host", .text SubPattern.any⟩,
    ⟨'H', "request-protocol", .text SubPattern.nonSpace⟩,
    ⟨'i', "request-header", .text SubPattern.any⟩,
    ⟨'l', "remote-log-name", .text SubPattern.nonSpace⟩,
    ⟨'m', "request-method", .text SubPattern.method⟩,
    ⟨'n', "module-note", .text SubPattern.any⟩,
    ⟨'o', "response-header", .text SubPattern.any⟩,
    ⟨'p', "request-port", .integer SubPattern.integer⟩,
    ⟨'P', "request-process", .integer SubPattern.integer⟩,
    ⟨'q', "request-query", .text SubPattern.query⟩,
    ⟨'r', "request-line", .text SubPattern.any⟩,
    ⟨'s', "response-status", .integer SubPattern.status⟩,
    ⟨'t', "request-time", .timestamp⟩,
    ⟨'T', "request-process-time-s", .integer SubPattern.integer⟩,
    ⟨'u', "request-user", .text SubPattern.any⟩,
    ⟨'U', "request-path", .text SubPattern.path⟩,
    ⟨'v', "request-server-name", .text SubPattern.nonSpace⟩,
    ⟨'V', "canonical-server-name", .text SubPattern.nonSpace⟩,
    ⟨'X', "connection-status", .text SubPattern.connection⟩,
    ⟨'I', "request-total-bytes", .integer SubPattern.integer⟩,
    ⟨'O', "response-total-bytes", .integer SubPattern.integer⟩,
    ⟨'%', "%", .text SubPattern.percent⟩]

/-- The line of the table for a key. -/
def TableEntry.ofKey? (key : Char) : Option TableEntry :=
  directiveTable.find? (·.key == key)

/-- The field of a directive with the given parameter. -/
def TableEntry.field? (e : TableEntry) (reader : TimeReader) (parameter : Option String) :
    Except LayoutFault Field :=
  match e.maker with
  | .text subPattern => .ok ⟨e.field, subPattern, .string⟩
  | .integer subPattern => .ok ⟨e.field, subPattern, .integer⟩
  | .timestamp => do .ok (Field.timestamp e.field (← Layout.ofParameter parameter) reader)

end LogFormat
