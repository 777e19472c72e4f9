import LogFormat.Record.Value

/-!
# Sinks

A sink takes the fields of log lines, one column at a time.  Its columns are declared
before any line is written, and each gets the number by which it is written.
-/

namespace LogFormat

/-- What can be done with a sink of states `σ`. -/
class Sink (σ : Type) where
  /-- The number of a new column, and the sink with it. -/
  declareColumn : σ → String → ColumnType → Nat × σ
  /-- The sink after no value has been written to a column. -/
  writeNull : σ → Nat → σ
  /-- The sink after a text has been written to a column. -/
  writeString : σ → Nat → String → σ
  /-- The sink after a number has been written to a column. -/
  writeInteger : σ → Nat → Int → σ
  /-- The sink after an instant has been written to a column. -/
  writeTimestamp : σ → Nat → Instant → σ

/-- The sink after a value has been written to a column. -/
def Value.writeTo {σ : Type} [Sink σ] (sink : σ) (column : Nat) : Value → σ
  | .null => Sink.writeNull sink column
  | .string text => Sink.writeString sink column text
  | .integer n => Sink.writeInteger sink column n
  | .timestamp t => Sink.writeTimestamp sink column t

/-- A record: the values of a row under the names of their columns. -/
structure Record where
  fields : List (String × Value)
deriving Repr, DecidableEq

namespace Record

/-- The record without columns. -/
def empty : Record :=
  ⟨[]⟩

/-- The value of the first column of a name. -/
def get? (r : Record) (name : String) : Option Value :=
  (r.fields.find? (·.1 == name)).map (·.2)

/-- The values in the order of the columns. -/
def values (r : Record) : List Value :=
  r.fields.map (·.2)

/-- The record as a JSON object, in the order of the columns. -/
def json (r : Record) : List Char :=
  Json.object (r.fields.map fun (name, value) => (name.toList, value.json))

end Record

/-- A sink that holds one row, which can be taken out as a record. -/
structure RecordSink where
  columns : List (String × ColumnType)
  row : List Value
deriving Repr, DecidableEq

namespace RecordSink

/-- The sink without columns. -/
def empty : RecordSink :=
  ⟨[], []⟩

/-- The sink with a value in a column; a column that does not exist is passed over. -/
def set (s : RecordSink) (column : Nat) (value : Value) : RecordSink :=
  ⟨s.columns, s.row.set column value⟩

/-- The record of the row, and the sink with an empty row. -/
def takeRecord (s : RecordSink) : Record × RecordSink :=
  (⟨(s.columns.map (·.1)).zip s.row⟩,
    ⟨s.columns, List.replicate s.columns.length .null⟩)

/-- The columns are numbered in the order of their declarations, and a new one is
empty. -/
instance : Sink RecordSink where
  declareColumn s name type :=
    (s.columns.length, ⟨s.columns ++ [(name, type)], s.row ++ [.null]⟩)
  writeNull s column := s.set column .null
  writeString s column text := s.set column (.string text)
  writeInteger s column n := s.set column (.integer n)
  writeTimestamp s column t := s.set column (.timestamp t)

end RecordSink

end LogFormat
