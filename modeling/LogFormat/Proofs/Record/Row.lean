import LogFormat.Proofs.Results
import LogFormat.Record.Extractor

/-!
# Rows of a sink that holds records

A format that is bound to an empty sink owns all of its columns, numbered from 0 on
(`bind_empty`).  A line that is extracted into the empty row fills it with its values, and
taking the record leaves the row empty again (`feed_sink`, `takeRecord_filled`).  So
between two lines the sink is always the one that was bound at first.
-/

namespace LogFormat

/-! ### Columns -/

theorem Format.length_numbered (before names : List String) :
  (numbered before names).length = names.length
  := by
  induction names generalizing before with
  | nil => rfl
  | cons name names ih => rw [numbered, List.length_cons, List.length_cons, ih]

/-- There is a column for each field. -/
theorem Format.length_columnNames (f : Format) :
  f.columnNames.length = f.fields.length
  := by
  rw [columnNames, length_numbered, List.length_map]

/-- The columns of a format, with the types of their values. -/
def Format.columns (f : Format) : List (String × ColumnType) :=
  f.columnNames.zip (f.fields.map (·.columnType))

theorem Format.length_columns (f : Format) :
  f.columns.length = f.fields.length
  := by
  rw [columns, List.length_zip, length_columnNames, List.length_map, Nat.min_self]

theorem Format.map_fst_columns (f : Format) :
  f.columns.map (·.1) = f.columnNames
  := by
  have hlength : f.columnNames.length = (f.fields.map (·.columnType)).length := by
    rw [length_columnNames, List.length_map]
  apply List.map_fst_zip
  apply Nat.le_of_eq hlength

/-- The sink with the columns of a format and an empty row. -/
def Format.sink (f : Format) : RecordSink :=
  ⟨f.columns, List.replicate f.columns.length .null⟩

/-- New columns get the next numbers and are empty. -/
theorem declareColumns_eq (s : RecordSink) (columns : List (String × ColumnType)) :
  declareColumns s columns
    = (List.range' s.columns.length columns.length,
        ⟨s.columns ++ columns, s.row ++ List.replicate columns.length .null⟩)
  := by
  induction columns generalizing s with
  | nil => simp [declareColumns]
  | cons column columns ih =>
    simp only [declareColumns, ih]
    simp [Sink.declareColumn, List.range'_succ, List.replicate_succ]

/-- A format that is bound to an empty sink owns the columns from 0 on. -/
theorem Extractor.bind_empty (f : Format) :
  Extractor.bind f RecordSink.empty
    = (⟨f, List.range' 0 f.columns.length, defaultMaxLineSize⟩, f.sink)
  := by
  rw [bind, ← Format.columns, declareColumns_eq]
  simp [RecordSink.empty, Format.sink]

/-! ### Values -/

/-- A value is written to its column, whatever its type. -/
theorem Value.writeTo_eq (v : Value) (s : RecordSink) (column : Nat) :
  v.writeTo s column = s.set column v
  := by
  cases v <;> rfl

theorem writeValues_cons {σ : Type} [Sink σ] (sink : σ) (column : Nat) (v : Value)
    (writes : List (Nat × Value)) :
  writeValues sink ((column, v) :: writes) = writeValues (v.writeTo sink column) writes
  := rfl

/-- Values that are written to consecutive columns replace what stood there. -/
theorem writeValues_eq
    (columns : List (String × ColumnType)) (before : List Value) {old values : List Value}
    (after : List Value) (h : old.length = values.length) :
  writeValues (⟨columns, before ++ old ++ after⟩ : RecordSink)
      ((List.range' before.length values.length).zip values)
    = ⟨columns, before ++ values ++ after⟩
  := by
  induction values generalizing before old with
  | nil =>
    rw [List.length_eq_zero_iff.1 h]
    rfl
  | cons v values ih =>
    obtain ⟨v', old, rfl⟩ := List.exists_cons_of_length_eq_add_one h
    have hset : (before ++ v' :: old ++ after).set before.length v
        = before ++ [v] ++ old ++ after := by
      simp
    have ih := ih (before ++ [v]) (Nat.succ.inj h)
    rw [List.length_append, List.length_singleton] at ih
    rw [List.length_cons, List.range'_succ, List.zip_cons_cons, writeValues_cons]
    simp only [Value.writeTo_eq, RecordSink.set, hset, ih]
    simp

/-- The values of a raw line: its size is looked at first, then whether it is a text. -/
def Extractor.lineValues (x : Extractor) (raw : Bytes) : Except RowError (List Value) :=
  if x.maxLineSize < raw.length then .error (.lineTooLarge raw.length x.maxLineSize)
  else
    match decode? raw with
    | none => .error .nonUtf8
    | some line => x.textValues (withoutReturn line)

/-- A raw line writes all of its values, or leaves the sink as it is. -/
theorem Extractor.feed_eq {σ : Type} [Sink σ] (x : Extractor) (raw : Bytes) (sink : σ) :
  x.feed raw sink
    = match x.lineValues raw with
      | .error e => (.error e, sink)
      | .ok values => (.ok (), writeValues sink (x.columns.zip values))
  := by
  rw [feed, lineValues]
  by_cases hlarge : x.maxLineSize < raw.length
  · rw [if_pos hlarge, if_pos hlarge]
  · rw [if_neg hlarge, if_neg hlarge]
    cases decode? raw <;> rfl

/-- The converted values are as many as the fields. -/
theorem Extractor.length_of_convertAll {index : Nat} {fields : List Field}
    {captures : List (Option Capture)} {values : List Value}
    (h : convertAll index fields captures = .ok values) :
  values.length = fields.length
  := by
  induction fields generalizing index captures values with
  | nil =>
    cases h
    rfl
  | cons field fields ih =>
    obtain ⟨value, -, h⟩ := bind_eq_ok.1 h
    obtain ⟨others, hothers, h⟩ := bind_eq_ok.1 h
    cases h
    rw [List.length_cons, List.length_cons, ih hothers]

/-- The values of a line are as many as the fields. -/
theorem Extractor.length_of_lineValues {x : Extractor} {line : Bytes} {values : List Value}
    (h : x.lineValues line = .ok values) :
  values.length = x.format.fields.length
  := by
  rw [lineValues] at h
  split at h
  · cases h
  · split at h
    · cases h
    · rw [textValues] at h
      split at h
      · cases h
      · apply length_of_convertAll h

/-! ### Single lines -/

/-- The extractor of a format that owns the columns of a sink from 0 on. -/
def Format.extractor (f : Format) (maxLineSize : Nat) : Extractor :=
  ⟨f, List.range' 0 f.columns.length, maxLineSize⟩

/-- A line fills the row with its values, or leaves it empty. -/
theorem Format.feed_sink (f : Format) (maxLineSize : Nat) (line : Bytes) :
  (f.extractor maxLineSize).feed line f.sink
    = match (f.extractor maxLineSize).lineValues line with
      | .error e => (.error e, f.sink)
      | .ok values => (.ok (), ⟨f.columns, values⟩)
  := by
  rw [Extractor.feed_eq]
  cases hvalues : (f.extractor maxLineSize).lineValues line with
  | error e => rfl
  | ok values =>
    have hlen : (List.replicate f.columns.length Value.null).length = values.length := by
      rw [List.length_replicate, length_columns, Extractor.length_of_lineValues hvalues]
      rfl
    have hwrite := writeValues_eq f.columns [] [] hlen
    rw [List.length_nil, List.nil_append, List.append_nil, List.nil_append, List.append_nil,
      ← hlen, List.length_replicate] at hwrite
    exact congrArg (Prod.mk (Except.ok ())) hwrite

/-- The record of a full row has the values under the names of the columns, and the row is
empty then. -/
theorem Format.takeRecord_filled (f : Format) (values : List Value) :
  RecordSink.takeRecord ⟨f.columns, values⟩ = (⟨f.columnNames.zip values⟩, f.sink)
  := by
  rw [RecordSink.takeRecord, map_fst_columns]
  rfl

/-- The record of a single line, for which the format is bound to a sink of its own. -/
def Format.freshRecord (f : Format) (maxLineSize : Nat) (line : Bytes) :
    Except RowError Record :=
  let (x, sink) := Extractor.bind f RecordSink.empty
  ({ x with maxLineSize := maxLineSize }.extract line sink).map fun sink : RecordSink =>
    sink.takeRecord.1

/-- The record of a single line has its values under the names of the columns. -/
theorem Format.freshRecord_eq (f : Format) (maxLineSize : Nat) (line : Bytes) :
  f.freshRecord maxLineSize line
    = ((f.extractor maxLineSize).lineValues line).map fun values => ⟨f.columnNames.zip values⟩
  := by
  rw [freshRecord, Extractor.bind_empty]
  change ((f.extractor maxLineSize).extract line f.sink).map _ = _
  rw [Extractor.extract, feed_sink]
  cases (f.extractor maxLineSize).lineValues line with
  | error e => rfl
  | ok values =>
    simp only [Extractor.fed, Except.map, takeRecord_filled]

end LogFormat
