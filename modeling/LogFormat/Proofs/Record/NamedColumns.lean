import LogFormat.Proofs.Format.ColumnNames
import LogFormat.Proofs.Record.History

/-!
# Columns by their names

Of the fields of a format that have the same name, the first gives it to its column, and each
later one adds its number to it, so that all columns of the format have different names.  Columns
that have been declared stay where they are, whatever is done with the sink later
(`Session.extends_foldl`).  So a record gives the value of each column of an extractor under the
name of the column, unless the sink had a column of that name before (`columnNames_numbered`).
-/

namespace LogFormat

/-! ### Parts of a list -/

section

variable {α : Type} {middle : List α} {i : Nat} {a : α}

/-- An element of the middle part of a list comes after the first part. -/
theorem getElem?_middle (before after : List α) (h : middle[i]? = some a) :
  (before ++ middle ++ after)[before.length + i]? = some a
  := by
  obtain ⟨hi, -⟩ := List.getElem?_eq_some_iff.1 h
  rw [List.append_assoc, List.getElem?_append_right (Nat.le_add_right _ _),
    Nat.add_sub_cancel_left, List.getElem?_append_left hi, h]

/-- An element of a middle part without repetitions does not occur before that, if it is not in
the first part. -/
theorem getElem?_ne_of_lt_middle
    {before : List α} (after : List α) (hmiddle : middle.Nodup) (h : middle[i]? = some a)
    (hbefore : a ∉ before) :
  ∀ j < before.length + i, (before ++ middle ++ after)[j]? ≠ some a
  := by
  obtain ⟨hi, -⟩ := List.getElem?_eq_some_iff.1 h
  intro j hj hja
  rw [List.append_assoc] at hja
  by_cases hlt : j < before.length
  · rw [List.getElem?_append_left hlt] at hja
    apply hbefore (List.mem_of_getElem? hja)
  · rw [List.getElem?_append_right (Nat.le_of_not_lt hlt),
      List.getElem?_append_left (by omega), ← h] at hja
    have hplace := (List.getElem?_inj (by omega) hmiddle).1 hja
    omega

end

/-! ### Columns that stay -/

/-- What is written to a sink does not change its columns. -/
theorem RecordSink.columns_writeValues (s : RecordSink) (writes : List (Nat × Value)) :
  (writeValues s writes).columns = s.columns
  := by
  induction writes generalizing s with
  | nil => rfl
  | cons write writes ih =>
    obtain ⟨column, v⟩ := write
    rw [writeValues_cons, ih, Value.writeTo_eq, set]

/-- A raw line does not change the columns of a sink. -/
theorem Extractor.columns_feed (x : Extractor) (raw : Bytes) (s : RecordSink) :
  (x.feed raw s).2.columns = s.columns
  := by
  rw [feed_eq]
  cases x.lineValues raw with
  | error e => rfl
  | ok values => apply s.columns_writeValues

/-- A text does not change the columns of a sink. -/
theorem Extractor.columns_feedText (x : Extractor) (line : String) (s : RecordSink) :
  (x.feedText line s).2.columns = s.columns
  := by
  rw [feedText_eq]
  cases x.textValues line with
  | error e => rfl
  | ok values => apply s.columns_writeValues

namespace Session

/-- The columns and the extractors of a session are the first ones of another session. -/
structure Extends (s t : Session) : Prop where
  columns : s.sink.columns <+: t.sink.columns
  extractors : s.extractors <+: t.extractors

theorem Extends.of_eq {s t : Session} (hcolumns : t.sink.columns = s.sink.columns)
    (hextractors : t.extractors = s.extractors) :
  s.Extends t
  := by
  constructor
  · rw [hcolumns]
  · rw [hextractors]

/-- Whatever is done, the columns that have been declared and the extractors that have been bound
stay what they are. -/
theorem extends_act (s : Session) (action : SinkAction) :
  s.Extends (s.act action)
  := by
  cases action with
  | declare name type => exact ⟨List.prefix_append _ _, List.prefix_rfl⟩
  | write column v => exact .of_eq (s.sink.columns_writeValues [(column, v)]) rfl
  | take => exact .of_eq rfl rfl
  | bind f maxLineSize =>
    obtain ⟨hcolumns, hextractors⟩ := s.act_bind f maxLineSize
    constructor
    · rw [hcolumns]
      apply List.prefix_append
    · rw [hextractors]
      apply List.prefix_append
  | feed number raw =>
    rw [act]
    cases s.extractors[number]? with
    | none => exact .of_eq rfl rfl
    | some x => exact .of_eq (x.columns_feed raw s.sink) rfl
  | feedText number line =>
    rw [act]
    cases s.extractors[number]? with
    | none => exact .of_eq rfl rfl
    | some x => exact .of_eq (x.columns_feedText line s.sink) rfl

/-- They stay what they are over any number of actions. -/
theorem extends_foldl (s : Session) (actions : List SinkAction) :
  s.Extends (actions.foldl act s)
  := by
  induction actions generalizing s with
  | nil => exact .of_eq rfl rfl
  | cons action actions ih =>
    have hact := s.extends_act action
    have hothers := ih (s.act action)
    exact ⟨hact.columns.trans hothers.columns, hact.extractors.trans hothers.extractors⟩

/-- Wherever in a session a format is bound, its columns come after those before, and its
extractor after the extractors before. -/
theorem run_bind (earlier : List SinkAction) (f : Format) (maxLineSize : Nat)
    (later : List SinkAction) :
  ∃ columns extractors,
    (run (earlier ++ .bind f maxLineSize :: later)).sink.columns
      = (run earlier).sink.columns ++ f.columns ++ columns
    ∧ (run (earlier ++ .bind f maxLineSize :: later)).extractors
      = (run earlier).extractors
        ++ [⟨f, List.range' (run earlier).sink.columns.length f.fields.length, maxLineSize⟩]
        ++ extractors
  := by
  obtain ⟨hcolumns, hextractors⟩ := (run earlier).act_bind f maxLineSize
  obtain ⟨⟨columns, hcolumns'⟩, ⟨extractors, hextractors'⟩⟩ :=
    ((run earlier).act (.bind f maxLineSize)).extends_foldl later
  have hrun : run (earlier ++ .bind f maxLineSize :: later)
      = later.foldl act ((run earlier).act (.bind f maxLineSize)) := by
    rw [run, List.foldl_append, List.foldl_cons, run]
  rw [hrun, ← hcolumns', ← hextractors', hcolumns, hextractors]
  exact ⟨columns, extractors, rfl, rfl⟩

/-- A record gives the value that was last written to a column under the name of the column, if no
column before it has that name. -/
theorem Consistent.get?_takeRecord {s : Session} (h : s.Consistent) {n : Nat} {name : String}
    (hname : (s.sink.columns.map (·.1))[n]? = some name)
    (hfirst : ∀ i < n, (s.sink.columns.map (·.1))[i]? ≠ some name) :
  s.sink.takeRecord.1.get? name = some ((s.history.lastWrite? n).getD .null)
  := by
  have hcolumns : s.sink.columns = s.history.columns := congrArg RecordSink.columns h.sink_eq
  rw [hcolumns] at hname hfirst
  obtain ⟨hn, hname⟩ := List.getElem?_eq_some_iff.1 hname
  rw [List.length_map] at hn
  rw [List.getElem_map] at hname
  rw [Record.get?, h.fields_takeRecord, Option.map_eq_some_iff]
  refine ⟨(name, (s.history.lastWrite? n).getD .null), ?_, rfl⟩
  rw [List.find?_eq_some_iff_getElem]
  refine ⟨beq_self_eq_true name, n, ?_, ?_, ?_⟩
  · rwa [List.length_mapIdx]
  · rw [List.getElem_mapIdx, ← hname]
  · intro i hi
    have hne := hfirst i hi
    rw [List.getElem?_map, List.getElem?_eq_getElem (hi.trans hn), Option.map_some] at hne
    rw [List.getElem_mapIdx, Bool.not_eq_true', beq_eq_false_iff_ne]
    exact fun heq => hne (congrArg some heq)

end Session

/-! ### Names -/

namespace Format

/-- The second and later fields of a name get their number, counted among the fields of that name
from the left, and so all columns of a format have different names.  Wherever in a session the
format is bound, its extractor owns a column for each field, declared under the name of the
column.  A record has under that name what was last written to the column, or `null`, unless the
sink had a column of that name before the format was bound, as a new sink has not. -/
theorem columnNames_numbered {reader : TimeReader} {text : String} {f : Format}
    (h : compile reader text = .ok f) :
  f.columnNames.length = f.fields.length
    ∧ (∀ i field, f.fields[i]? = some field →
        let number := (f.fields.take (i + 1)).countP (·.name == field.name)
        f.columnNames[i]?
          = some (if number = 1 then field.name else field.name ++ "_" ++ toString number))
    ∧ f.columnNames.Nodup
    ∧ ∀ earlier maxLineSize later,
        let s := Session.run earlier
        let t := Session.run (earlier ++ .bind f maxLineSize :: later)
        let first := s.sink.columns.length
        t.extractors[s.extractors.length]?
            = some ⟨f, List.range' first f.fields.length, maxLineSize⟩
          ∧ ∀ i name, f.columnNames[i]? = some name →
              (t.sink.columns.map (·.1))[first + i]? = some name
                ∧ (name ∉ s.sink.columns.map (·.1) →
                    t.sink.takeRecord.1.get? name
                      = some ((t.history.lastWrite? (first + i)).getD .null))
  := by
  have hnodup := nodup_columnNames h
  refine ⟨f.length_columnNames, fun i field => getElem?_columnNames, hnodup, ?_⟩
  intro earlier maxLineSize later s t first
  obtain ⟨columns, extractors, hcolumns, hextractors⟩ :=
    Session.run_bind earlier f maxLineSize later
  have hnames : t.sink.columns.map (·.1)
      = s.sink.columns.map (·.1) ++ f.columnNames ++ columns.map (·.1) := by
    rw [hcolumns, List.map_append, List.map_append, map_fst_columns]
  have hfirst : first = (s.sink.columns.map (·.1)).length := (List.length_map _).symm
  constructor
  · rw [hextractors, List.append_assoc, List.getElem?_append_right (Nat.le_refl _), Nat.sub_self]
    rfl
  · intro i name hi
    have hname : (t.sink.columns.map (·.1))[first + i]? = some name := by
      rw [hnames, hfirst]
      apply getElem?_middle _ _ hi
    refine ⟨hname, fun hother => ?_⟩
    apply (Session.consistent_run _).get?_takeRecord hname
    rw [hnames, hfirst]
    apply getElem?_ne_of_lt_middle _ hnodup hi hother

/-- Two keys share the name of three columns.  The second of them is found, though a column of its
name is declared after it. -/
theorem columnNames_numbered_bytes :
  ∃ f, compile (fun _ _ => .error "") "%b %B %b" = .ok f
    ∧ f.columnNames[0]? = some "response-bytes"
    ∧ f.columnNames[1]? = some "response-bytes_2"
    ∧ f.columnNames[2]? = some "response-bytes_3"
    ∧ (Session.run [.declare "n" .integer, .bind f 9, .write 2 (.integer 5),
        .declare "response-bytes_2" .string, .write 4 (.string "x")]).sink.takeRecord.1.get?
          "response-bytes_2"
      = some (.integer 5)
  := by
  let field : Field := ⟨"response-bytes", SubPattern.integer, .integer⟩
  let resolved : List Resolved :=
    [⟨⟨0, ['%', 'b'], some ⟨'b', none, false, [], none⟩⟩, some field⟩,
      ⟨⟨2, [' '], none⟩, none⟩,
      ⟨⟨3, ['%', 'B'], some ⟨'B', none, false, [], none⟩⟩, some field⟩,
      ⟨⟨5, [' '], none⟩, none⟩,
      ⟨⟨6, ['%', 'b'], some ⟨'b', none, false, [], none⟩⟩, some field⟩]
  have hscan : Segment.scan "%b %B %b" = .ok (resolved.map (·.segment)) := by cbv
  have hcompile : compile (fun _ _ => .error "") "%b %B %b" = .ok (ofResolved "%b %B %b" resolved) :=
    compile_of_resolves (resolves_of_mapM hscan rfl)
  obtain ⟨-, hnames, -, hsessions⟩ := columnNames_numbered hcompile
  obtain ⟨-, hcolumns⟩ := hsessions [.declare "n" .integer] 9
    [.write 2 (.integer 5), .declare "response-bytes_2" .string, .write 4 (.string "x")]
  have hsecond := (hnames 1 field rfl).trans (congrArg some (by decide : _ = "response-bytes_2"))
  have hthird := (hnames 2 field rfl).trans (congrArg some (by decide : _ = "response-bytes_3"))
  obtain ⟨-, hget⟩ := hcolumns 1 "response-bytes_2" hsecond
  exact ⟨_, hcompile, hnames 0 field rfl, hsecond, hthird, hget (by decide)⟩

end Format

end LogFormat
