import LogFormat.Proofs.Record.Calls

/-!
# The row of a sink and its history

Whatever is done with a sink that holds records, and with the extractors that are bound to it,
the row holds for each column the value that was last written to it since the row was last
taken (`session_last_write`).  The history of a sink is itself a sink, which does nothing but
note the calls; `History.sink` is the sink that has such a history, and every call on the one
does to it what the same call does to the other.
-/

namespace LogFormat

/-! ### Histories -/

/-- Something that was done with a sink: a column was declared, a value was written to a column,
or the row was taken. -/
inductive SinkEvent where
  | declared (name : String) (type : ColumnType)
  | written (column : Nat) (value : Value)
  | taken
deriving Repr, DecidableEq

/-- What has been done with a sink, the latest first. -/
abbrev History := List SinkEvent

namespace History

/-- The columns that have been declared. -/
def columns : History → List (String × ColumnType)
  | [] => []
  | .declared name type :: earlier => columns earlier ++ [(name, type)]
  | .written _ _ :: earlier => columns earlier
  | .taken :: earlier => columns earlier

/-- The value that was last written to a column since the row was last taken.  What is written
to a column before it is declared does not count. -/
def lastWrite? (column : Nat) : History → Option Value
  | [] => none
  | .taken :: _ => none
  | .declared _ _ :: earlier => lastWrite? column earlier
  | .written i value :: earlier =>
    if i = column ∧ i < (columns earlier).length then some value else lastWrite? column earlier

/-- The values of the columns, of which those are empty to which nothing was written. -/
def row (h : History) : List Value :=
  (List.range h.columns.length).map fun column => (h.lastWrite? column).getD .null

/-- The sink with a history. -/
def sink (h : History) : RecordSink :=
  ⟨h.columns, h.row⟩

/-- Every call is noted, and columns are numbered in the order of their declarations. -/
instance : Sink History where
  declareColumn h name type := (h.columns.length, .declared name type :: h)
  writeNull h column := .written column .null :: h
  writeString h column text := .written column (.string text) :: h
  writeInteger h column n := .written column (.integer n) :: h
  writeTimestamp h column t := .written column (.timestamp t) :: h

theorem writeTo_eq (h : History) (column : Nat) (v : Value) :
  v.writeTo h column = .written column v :: h
  := by
  cases v <;> rfl

theorem length_row (h : History) :
  h.row.length = h.columns.length
  := by
  rw [row, List.length_map, List.length_range]

/-- Nothing has been written to a column that has not been declared. -/
theorem lastWrite?_of_le {h : History} {column : Nat} (hle : h.columns.length ≤ column) :
  h.lastWrite? column = none
  := by
  induction h with
  | nil => rfl
  | cons event earlier ih =>
    cases event with
    | declared name type =>
      rw [columns, List.length_append] at hle
      apply ih (by omega)
    | written i value =>
      rw [columns] at hle
      rw [lastWrite?, if_neg (by omega)]
      apply ih hle
    | taken => rfl

/-- A new column is empty, and the others are as they were. -/
theorem sink_declareColumn (h : History) (name : String) (type : ColumnType) :
  Sink.declareColumn h.sink name type
    = ((Sink.declareColumn h name type).1, History.sink (Sink.declareColumn h name type).2)
  := by
  have hrow : History.row (.declared name type :: h) = h.row ++ [.null] := by
    have hnew : lastWrite? h.columns.length h = none := lastWrite?_of_le (Nat.le_refl _)
    simp [row, columns, lastWrite?, List.range_succ, hnew]
  exact congrArg (fun row => (h.columns.length, (⟨h.columns ++ [(name, type)], row⟩ : RecordSink)))
    hrow.symm

/-- A value that is written is the last one of its column, if there is such a column. -/
theorem sink_writeTo (h : History) (column : Nat) (v : Value) :
  v.writeTo h.sink column = History.sink (v.writeTo h column)
  := by
  have hrow : History.row (.written column v :: h) = h.row.set column v := by
    apply List.ext_getElem
    · rw [List.length_set, length_row, length_row]
      rfl
    · intro i hi hi'
      rw [List.length_set, length_row] at hi'
      simp only [row, columns, lastWrite?, List.getElem_map, List.getElem_range,
        List.getElem_set]
      by_cases hcolumn : column = i
      · subst hcolumn
        simp [hi']
      · simp [hcolumn]
  rw [Value.writeTo_eq, writeTo_eq, sink, sink, hrow]
  rfl

/-- The record that is taken has the values of the columns, and then all of them are empty. -/
theorem sink_takeRecord (h : History) :
  h.sink.takeRecord = (⟨(h.columns.map (·.1)).zip h.row⟩, History.sink (.taken :: h))
  := by
  have hrow : History.row (.taken :: h) = List.replicate h.columns.length .null := by
    simp [row, columns, lastWrite?]
  rw [RecordSink.takeRecord, sink, sink, hrow]
  rfl

/-- Values that are written one after the other. -/
theorem sink_writeValues (h : History) (writes : List (Nat × Value)) :
  writeValues h.sink writes = History.sink (writeValues h writes)
  := by
  induction writes generalizing h with
  | nil => rfl
  | cons write writes ih =>
    obtain ⟨column, v⟩ := write
    rw [writeValues_cons, writeValues_cons, sink_writeTo, ih]

/-- What is written does not change the columns. -/
theorem columns_writeValues (h : History) (writes : List (Nat × Value)) :
  (writeValues h writes).columns = h.columns
  := by
  induction writes generalizing h with
  | nil => rfl
  | cons write writes ih =>
    obtain ⟨column, v⟩ := write
    rw [writeValues_cons, ih, writeTo_eq, columns]

/-- A column that is declared comes after the others. -/
theorem length_columns_declareColumn (h : History) (name : String) (type : ColumnType) :
  h.columns.length ≤ (columns (Sink.declareColumn h name type).2).length
  := by
  change _ ≤ (h.columns ++ [(name, type)]).length
  rw [List.length_append]
  apply Nat.le_add_right

/-- Columns that are declared one after the other. -/
theorem sink_declareColumns (h : History) (declarations : List (String × ColumnType)) :
  declareColumns h.sink declarations
    = ((declareColumns h declarations).1, History.sink (declareColumns h declarations).2)
  := by
  induction declarations generalizing h with
  | nil => rfl
  | cons declaration declarations ih =>
    obtain ⟨name, type⟩ := declaration
    simp only [declareColumns, sink_declareColumn, ih]

end History

/-- A text writes its values to any sink, or leaves it as it is. -/
theorem Extractor.feedText_eq {σ : Type} [Sink σ] (x : Extractor) (line : String) (sink : σ) :
  x.feedText line sink
    = match x.textValues line with
      | .error e => (.error e, sink)
      | .ok values => (.ok (), writeValues sink (x.columns.zip values))
  := rfl

/-! ### Sessions -/

/-- What can be done with a sink and the extractors that are bound to it, of which each is named
by its number. -/
inductive SinkAction where
  | declare (name : String) (type : ColumnType)
  | write (column : Nat) (value : Value)
  | take
  | bind (format : Format) (maxLineSize : Nat)
  | feed (extractor : Nat) (raw : Bytes)
  | feedText (extractor : Nat) (line : String)

/-- A sink, its history, and the extractors that have been bound to it, in order. -/
structure Session where
  sink : RecordSink
  history : History
  extractors : List Extractor

namespace Session

/-- The session of a new sink. -/
def start : Session :=
  ⟨.empty, [], []⟩

/-- The session after one more action, which the history notes. -/
def act (s : Session) : SinkAction → Session
  | .declare name type =>
    ⟨(Sink.declareColumn s.sink name type).2, (Sink.declareColumn s.history name type).2,
      s.extractors⟩
  | .write column value => ⟨value.writeTo s.sink column, value.writeTo s.history column,
      s.extractors⟩
  | .take => ⟨s.sink.takeRecord.2, .taken :: s.history, s.extractors⟩
  | .bind format maxLineSize =>
    let (x, sink) := Extractor.bind format s.sink
    ⟨sink, (Extractor.bind format s.history).2,
      s.extractors ++ [{ x with maxLineSize := maxLineSize }]⟩
  | .feed number raw =>
    match s.extractors[number]? with
    | none => s
    | some x => ⟨(x.feed raw s.sink).2, (x.feed raw s.history).2, s.extractors⟩
  | .feedText number line =>
    match s.extractors[number]? with
    | none => s
    | some x => ⟨(x.feedText line s.sink).2, (x.feedText line s.history).2, s.extractors⟩

/-- The session after some actions on a new sink. -/
def run (actions : List SinkAction) : Session :=
  actions.foldl act start

/-- The sink is that of its history, and each extractor owns consecutive columns of it, after
those of the extractors that were bound before. -/
structure Consistent (s : Session) : Prop where
  sink_eq : s.sink = s.history.sink
  owns : ∀ x ∈ s.extractors, ∃ first,
    x.columns = List.range' first x.format.fields.length
      ∧ first + x.format.fields.length ≤ s.sink.columns.length
  ordered : s.extractors.Pairwise fun x y => ∀ i ∈ x.columns, ∀ j ∈ y.columns, i < j

theorem consistent_start :
  Consistent start
  := ⟨rfl, by simp [start], .nil⟩

/-- The sink of a consistent session may change, and get more columns, if its history notes
it. -/
theorem Consistent.of_le {s : Session} (h : s.Consistent) {history : History}
    (hle : s.sink.columns.length ≤ history.columns.length) :
  Consistent ⟨history.sink, history, s.extractors⟩
  := by
  refine ⟨rfl, ?_, h.ordered⟩
  intro x hx
  obtain ⟨first, hcolumns, hbound⟩ := h.owns x hx
  exact ⟨first, hcolumns, hbound.trans hle⟩

/-- The sink of a consistent session may get other values, if its history notes it. -/
theorem Consistent.of_columns_eq {s : Session} (h : s.Consistent) {history : History}
    (hcolumns : history.columns = s.history.columns) :
  Consistent ⟨history.sink, history, s.extractors⟩
  := by
  apply h.of_le
  rw [h.sink_eq, hcolumns]
  exact Nat.le_refl _

/-- Values that are written leave a session consistent. -/
theorem Consistent.writeValues {s : Session} (h : s.Consistent) (writes : List (Nat × Value)) :
  Consistent ⟨LogFormat.writeValues s.sink writes, LogFormat.writeValues s.history writes,
    s.extractors⟩
  := by
  rw [h.sink_eq, History.sink_writeValues]
  exact h.of_columns_eq (History.columns_writeValues s.history writes)

/-- A format that is bound adds its columns to those of the sink, and its extractor to the
others. -/
theorem act_bind (s : Session) (f : Format) (maxLineSize : Nat) :
  (s.act (.bind f maxLineSize)).sink.columns = s.sink.columns ++ f.columns
    ∧ (s.act (.bind f maxLineSize)).extractors
      = s.extractors ++ [⟨f, List.range' s.sink.columns.length f.fields.length, maxLineSize⟩]
  := by
  simp only [act, Extractor.bind_eq, declareColumns_eq, Format.length_columns, and_self]

/-- A format that is bound gets the columns after those of the sink. -/
theorem Consistent.bind {s : Session} (h : s.Consistent) (f : Format) (maxLineSize : Nat) :
  (s.act (.bind f maxLineSize)).Consistent
  := by
  have hsink := History.sink_declareColumns s.history f.columns
  obtain ⟨hcolumns, hnew⟩ := s.act_bind f maxLineSize
  constructor
  · simp only [act, Extractor.bind_eq, h.sink_eq, hsink]
  · rw [hnew, hcolumns, List.length_append, Format.length_columns]
    intro x hx
    obtain hx | hx := List.mem_append.1 hx
    · obtain ⟨first, hx, hbound⟩ := h.owns x hx
      exact ⟨first, hx, hbound.trans (Nat.le_add_right _ _)⟩
    · obtain rfl := List.mem_singleton.1 hx
      exact ⟨s.sink.columns.length, rfl, Nat.le_refl _⟩
  · rw [hnew, List.pairwise_append]
    refine ⟨h.ordered, List.pairwise_singleton _ _, ?_⟩
    intro x hx y hy i hi j hj
    obtain ⟨first, hcolumns, hbound⟩ := h.owns x hx
    obtain rfl := List.mem_singleton.1 hy
    rw [hcolumns, List.mem_range'_1] at hi
    rw [List.mem_range'_1] at hj
    omega

/-- Every action leaves a session consistent. -/
theorem Consistent.act {s : Session} (h : s.Consistent) (action : SinkAction) :
  (s.act action).Consistent
  := by
  cases action with
  | declare name type =>
    rw [Session.act, h.sink_eq, History.sink_declareColumn]
    apply h.of_le
    rw [h.sink_eq]
    apply History.length_columns_declareColumn
  | write column value =>
    apply h.writeValues [(column, value)]
  | take =>
    rw [Session.act, h.sink_eq, History.sink_takeRecord]
    exact h.of_columns_eq rfl
  | bind f maxLineSize => exact h.bind f maxLineSize
  | feed number raw =>
    rw [Session.act]
    cases s.extractors[number]? with
    | none => exact h
    | some x =>
      simp only [Extractor.feed_eq]
      cases x.lineValues raw with
      | error e => exact h
      | ok values => exact h.writeValues _
  | feedText number line =>
    rw [Session.act]
    cases s.extractors[number]? with
    | none => exact h
    | some x =>
      simp only [Extractor.feedText_eq]
      cases x.textValues line with
      | error e => exact h
      | ok values => exact h.writeValues _

/-- Every session is consistent. -/
theorem consistent_run (actions : List SinkAction) :
  (run actions).Consistent
  := by
  rw [run]
  generalize hstart : start = s
  have hs : s.Consistent := hstart ▸ consistent_start
  clear hstart
  induction actions generalizing s with
  | nil => exact hs
  | cons action actions ih => exact ih (s.act action) (hs.act action)

end Session

/-! ### Columns of others -/

/-- What is not written to stays as it is. -/
theorem getElem?_row_writeValues {s : RecordSink} {writes : List (Nat × Value)} {i : Nat}
    (hi : i ∉ writes.map (·.1)) :
  (writeValues s writes).row[i]? = s.row[i]?
  := by
  induction writes generalizing s with
  | nil => rfl
  | cons write writes ih =>
    obtain ⟨column, v⟩ := write
    rw [List.map_cons, List.mem_cons, not_or] at hi
    obtain ⟨hcolumn, hi⟩ := hi
    rw [writeValues_cons, ih hi, Value.writeTo_eq, RecordSink.set,
      List.getElem?_set_ne (Ne.symm hcolumn)]

/-- The columns that values are zipped with are all that is written to. -/
theorem not_mem_zip {columns : List Nat} {i : Nat} (hi : i ∉ columns) (values : List Value) :
  i ∉ (columns.zip values).map (·.1)
  := by
  intro hmem
  obtain ⟨⟨column, v⟩, hwrite, rfl⟩ := List.mem_map.1 hmem
  obtain ⟨hcolumn, -⟩ := List.of_mem_zip hwrite
  exact hi hcolumn

namespace Extractor

/-- A raw line changes no column that is not one of the extractor. -/
theorem getElem?_row_feed (x : Extractor) (raw : Bytes) (s : RecordSink) {i : Nat}
    (hi : i ∉ x.columns) :
  (x.feed raw s).2.row[i]? = s.row[i]?
  := by
  rw [feed_eq]
  cases x.lineValues raw with
  | error e => rfl
  | ok values => exact getElem?_row_writeValues (not_mem_zip hi values)

/-- A text changes no column that is not one of the extractor. -/
theorem getElem?_row_feedText (x : Extractor) (line : String) (s : RecordSink) {i : Nat}
    (hi : i ∉ x.columns) :
  (x.feedText line s).2.row[i]? = s.row[i]?
  := by
  rw [feedText_eq]
  cases x.textValues line with
  | error e => rfl
  | ok values => exact getElem?_row_writeValues (not_mem_zip hi values)

end Extractor

namespace Session

/-- The columns of one extractor are none of another. -/
theorem Consistent.not_mem_columns {s : Session} (h : s.Consistent) {first second : Nat}
    {x y : Extractor} (hne : first ≠ second) (hx : s.extractors[first]? = some x)
    (hy : s.extractors[second]? = some y) {i : Nat} (hi : i ∈ y.columns) :
  i ∉ x.columns
  := by
  intro hmem
  obtain ⟨hfirst, rfl⟩ := List.getElem?_eq_some_iff.1 hx
  obtain ⟨hsecond, rfl⟩ := List.getElem?_eq_some_iff.1 hy
  have hordered := List.pairwise_iff_getElem.1 h.ordered
  obtain hlt | hlt := Nat.lt_or_gt_of_ne hne
  · exact Nat.lt_irrefl i (hordered first second hfirst hsecond hlt i hmem i hi)
  · exact Nat.lt_irrefl i (hordered second first hsecond hfirst hlt i hi i hmem)

/-- The record of a consistent session has the last value of each column. -/
theorem Consistent.fields_takeRecord {s : Session} (h : s.Consistent) :
  s.sink.takeRecord.1.fields
    = s.history.columns.mapIdx fun i (name, _) => (name, (s.history.lastWrite? i).getD .null)
  := by
  rw [h.sink_eq, History.sink_takeRecord]
  apply List.ext_getElem
  · simp [History.length_row]
  · intro i hi hi'
    simp [History.row]

/-- A value for a column that there is not changes nothing. -/
theorem Consistent.writeTo_of_le {s : Session} (h : s.Consistent) {column : Nat} (v : Value)
    (hle : s.sink.columns.length ≤ column) :
  v.writeTo s.sink column = s.sink
  := by
  have hrow : s.sink.row.length ≤ column := by
    rw [h.sink_eq] at hle ⊢
    rwa [History.sink, History.length_row]
  rw [Value.writeTo_eq, RecordSink.set, List.set_eq_of_length_le hrow]

/-- Whatever has been done with a sink and the extractors that were bound to it, the row has one
value for each column, and the record that is taken has, for each column that was declared and
under its name, the value that was last written to it since the row was last taken, or `null`.
A value for a column that there is not changes nothing.  Each extractor owns consecutive columns,
which come after all that were declared before, and a line that is fed to one extractor does not
change a column of another. -/
theorem session_last_write (actions : List SinkAction) :
  let s := run actions
  s.sink.row.length = s.sink.columns.length
    ∧ s.sink.columns = s.history.columns
    ∧ s.sink.takeRecord.1.fields
        = s.history.columns.mapIdx (fun i (name, _) => (name, (s.history.lastWrite? i).getD .null))
    ∧ (∀ column (v : Value), s.sink.columns.length ≤ column → v.writeTo s.sink column = s.sink)
    ∧ (∀ f, (Extractor.bind f s.sink).1.columns
        = List.range' s.sink.columns.length f.fields.length)
    ∧ (∀ x ∈ s.extractors, ∃ first, x.columns = List.range' first x.format.fields.length
        ∧ first + x.format.fields.length ≤ s.sink.columns.length)
    ∧ s.extractors.Pairwise (fun x y => ∀ i ∈ x.columns, ∀ j ∈ y.columns, i < j)
    ∧ ∀ (first second : Nat) (x y : Extractor), first ≠ second → s.extractors[first]? = some x
        → s.extractors[second]? = some y → ∀ i ∈ y.columns,
          (∀ raw, (x.feed raw s.sink).2.row[i]? = s.sink.row[i]?)
            ∧ ∀ line, (x.feedText line s.sink).2.row[i]? = s.sink.row[i]?
  := by
  intro s
  have hs : s.Consistent := consistent_run actions
  refine ⟨?_, ?_, hs.fields_takeRecord, ?_, ?_, hs.owns, hs.ordered, ?_⟩
  · rw [hs.sink_eq]
    apply History.length_row
  · rw [hs.sink_eq]
    rfl
  · intro column v hle
    exact hs.writeTo_of_le v hle
  · intro f
    rw [Extractor.bind_eq, declareColumns_eq, Format.length_columns]
  · intro first second x y hne hx hy i hi
    have hnot := hs.not_mem_columns hne hx hy hi
    constructor
    · intro raw
      exact x.getElem?_row_feed raw s.sink hnot
    · intro line
      exact x.getElem?_row_feedText line s.sink hnot

/-- A format is bound twice, with a column of its own between: the value that is written before
its column is declared is lost, and so is the line that fails. -/
theorem session_last_write_twice :
  let f : Format := ⟨"%%", [⟨"%", "(%)", .string⟩], "(%)", ⟨.group 1 (.one (.single '%')), 1⟩⟩
  let s := run [.bind f 9, .write 2 (.integer 5), .declare "n" .integer, .bind f 9,
    .feed 1 [37], .write 1 (.integer 7), .feed 0 [120]]
  s.sink.takeRecord.1.fields = [("%", .null), ("n", .integer 7), ("%", .string "%")]
    ∧ s.extractors.map (·.columns) = [[0], [2]]
    ∧ (s.extractors.map fun x => (x.feed [37] s.sink).2.row[2]?)
        = [some (.string "%"), some (.string "%")]
  := by
  intro f s
  obtain ⟨-, -, hfields, -, -, -, -, -⟩ := session_last_write
    [.bind f 9, .write 2 (.integer 5), .declare "n" .integer, .bind f 9,
      .feed 1 [37], .write 1 (.integer 7), .feed 0 [120]]
  refine ⟨hfields.trans rfl, rfl, rfl⟩

end Session

end LogFormat
