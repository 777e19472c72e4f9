import LogFormat.Format.Compiled
import LogFormat.Record.Sink

/-!
# Extraction

An extractor applies a compiled format to lines.  A line is converted as a whole before
any of its values is written, so a line that fails writes nothing.
-/

namespace LogFormat

/-- Why a line gives no row. -/
inductive RowError where
  | lineTooLarge (size limit : Nat)
  | nonUtf8
  | noMatch
  | field (index : Nat) (name : String) (cause : FieldError)
deriving Repr, DecidableEq

/-- The text of the error. -/
def RowError.message : RowError → String
  | .lineTooLarge size limit => s!"Line too large: {size} bytes (max: {limit} bytes)"
  | .nonUtf8 => "Non-UTF8 content"
  | .noMatch => "Line does not match format"
  | .field index name cause => s!"Field {index} ({name}): {cause.message}"

/-- A compiled format bound to the columns of a sink. -/
structure Extractor where
  format : Format
  columns : List Nat
  maxLineSize : Nat

/-- The size in bytes beyond which lines are refused, if nothing else is asked for. -/
def defaultMaxLineSize : Nat := 1048576

/-- Declares columns in order, and gives their numbers. -/
def declareColumns {σ : Type} [Sink σ] (sink : σ) :
    List (String × ColumnType) → List Nat × σ
  | [] => ([], sink)
  | (name, type) :: columns =>
    let (number, sink) := Sink.declareColumn sink name type
    let (numbers, sink) := declareColumns sink columns
    (number :: numbers, sink)

/-- Writes values to columns in order. -/
def writeValues {σ : Type} [Sink σ] (sink : σ) (writes : List (Nat × Value)) : σ :=
  writes.foldl (fun sink (column, value) => value.writeTo sink column) sink

namespace Extractor

/-- Binds a format to new columns of a sink, one for each field. -/
def bind {σ : Type} [Sink σ] (format : Format) (sink : σ) : Extractor × σ :=
  let (columns, sink) :=
    declareColumns sink (format.columnNames.zip (format.fields.map (·.columnType)))
  (⟨format, columns, defaultMaxLineSize⟩, sink)

/-- The values of fields from the captures of their groups, or the error of the first
text that does not convert; `index` is the number of the first field. -/
def convertAll (index : Nat) : List Field → List (Option Capture) →
    Except RowError (List Value)
  | [], _ => .ok []
  | field :: fields, captures => do
    let raw := captures.head?.join.elim "" fun c => String.ofList c.text
    let value ← (field.convert raw).mapError (.field index field.name)
    .ok (value :: (← convertAll (index + 1) fields captures.tail))

/-- The values of a line of text, one for each field. -/
def textValues (x : Extractor) (line : String) : Except RowError (List Value) :=
  match x.format.line.captures? line with
  | none => .error .noMatch
  | some captures => convertAll 0 x.format.fields captures

/-- The text without a carriage return at its end. -/
def withoutReturn (line : String) : String :=
  let cs := line.toList
  if cs.getLast? = some '\r' then String.ofList cs.dropLast else line

/-- Writes the values of a line of text to a sink.  The sink is also given back if the line
fails. -/
def feedText {σ : Type} [Sink σ] (x : Extractor) (line : String) (sink : σ) :
    Except RowError Unit × σ :=
  match x.textValues line with
  | .error error => (.error error, sink)
  | .ok values => (.ok (), writeValues sink (x.columns.zip values))

/-- Writes the values of a raw line to a sink: its size is looked at first, then whether it
is a text.  One carriage return at its end does not count. -/
def feed {σ : Type} [Sink σ] (x : Extractor) (raw : Bytes) (sink : σ) :
    Except RowError Unit × σ :=
  if x.maxLineSize < raw.length then
    (.error (.lineTooLarge raw.length x.maxLineSize), sink)
  else
    match decode? raw with
    | none => (.error .nonUtf8, sink)
    | some line => x.feedText (withoutReturn line) sink

/-- The sink after a line that has been fed to it, or the error of the line. -/
def fed {σ : Type} : Except RowError Unit × σ → Except RowError σ
  | (.error error, _) => .error error
  | (.ok (), sink) => .ok sink

/-- The sink after the values of a line of text. -/
def extractText {σ : Type} [Sink σ] (x : Extractor) (line : String) (sink : σ) :
    Except RowError σ :=
  fed (x.feedText line sink)

/-- The sink after the values of a raw line. -/
def extract {σ : Type} [Sink σ] (x : Extractor) (raw : Bytes) (sink : σ) :
    Except RowError σ :=
  fed (x.feed raw sink)

end Extractor

end LogFormat
