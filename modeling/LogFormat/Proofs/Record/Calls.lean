import LogFormat.Proofs.Format.Division
import LogFormat.Proofs.Record.Conversion

/-!
# Calls on a sink

A line that fails makes no call on its sink.  A line that does not fail writes each of its
values once, in the order of the fields, to the column that the sink has given to the field
(`feed_calls`).  To speak of calls, a sink of any kind is taken together with a list of them:
a `Recorded` sink does what the sink does, and adds each call to the list.
-/

namespace LogFormat

/-! ### Sinks with their calls -/

/-- A call on a sink: a new column with the number that it was given, or a value, which may be
`null`, for a column. -/
inductive SinkCall where
  | declare (name : String) (type : ColumnType) (number : Nat)
  | write (column : Nat) (value : Value)
deriving Repr, DecidableEq

/-- A sink and the calls on it, in order. -/
structure Recorded (σ : Type) where
  sink : σ
  calls : List SinkCall

namespace Recorded

variable {σ : Type} [Sink σ]

/-- Every call is passed on to the sink. -/
instance : Sink (Recorded σ) where
  declareColumn s name type :=
    let (number, sink) := Sink.declareColumn s.sink name type
    (number, ⟨sink, s.calls ++ [.declare name type number]⟩)
  writeNull s column := ⟨Sink.writeNull s.sink column, s.calls ++ [.write column .null]⟩
  writeString s column text :=
    ⟨Sink.writeString s.sink column text, s.calls ++ [.write column (.string text)]⟩
  writeInteger s column n :=
    ⟨Sink.writeInteger s.sink column n, s.calls ++ [.write column (.integer n)]⟩
  writeTimestamp s column t :=
    ⟨Sink.writeTimestamp s.sink column t, s.calls ++ [.write column (.timestamp t)]⟩

/-- A value makes the call that says what it is. -/
theorem writeTo_eq (s : Recorded σ) (column : Nat) (v : Value) :
  v.writeTo s column = ⟨v.writeTo s.sink column, s.calls ++ [.write column v]⟩
  := by
  cases v <;> rfl

/-- Each value makes one call. -/
theorem writeValues_eq (s : Recorded σ) (writes : List (Nat × Value)) :
  writeValues s writes
    = ⟨writeValues s.sink writes, s.calls ++ writes.map fun (column, v) => .write column v⟩
  := by
  induction writes generalizing s with
  | nil => simp [writeValues]
  | cons write writes ih =>
    obtain ⟨column, v⟩ := write
    rw [writeValues_cons, writeValues_cons, writeTo_eq, ih, List.map_cons, List.append_assoc,
      List.singleton_append]

/-- Each column makes one call. -/
theorem declareColumns_eq (s : Recorded σ) (columns : List (String × ColumnType)) :
  declareColumns s columns
    = ((declareColumns s.sink columns).1, ⟨(declareColumns s.sink columns).2,
        s.calls ++ List.zipWith (fun (name, type) number => .declare name type number) columns
          (declareColumns s.sink columns).1⟩)
  := by
  induction columns generalizing s with
  | nil => simp [declareColumns]
  | cons column columns ih =>
    simp only [declareColumns, ih]
    simp [Sink.declareColumn]

end Recorded

/-- Every column is given a number. -/
theorem length_declareColumns {σ : Type} [Sink σ] (sink : σ)
    (columns : List (String × ColumnType)) :
  (declareColumns sink columns).1.length = columns.length
  := by
  induction columns generalizing sink with
  | nil => rfl
  | cons column columns ih => rw [declareColumns, List.length_cons, List.length_cons, ih]

/-- The format is bound by declaring its columns. -/
theorem Extractor.bind_eq {σ : Type} [Sink σ] (f : Format) (sink : σ) :
  bind f sink
    = (⟨f, (declareColumns sink f.columns).1, defaultMaxLineSize⟩,
        (declareColumns sink f.columns).2)
  := rfl

/-! ### Types of values -/

/-- The values that a column of a type takes. -/
inductive ColumnType.Admits : ColumnType → Value → Prop
  | string (text : String) : Admits .string (.string text)
  | integer {n : Int} : minInteger ≤ n → n ≤ maxInteger → Admits .integer (.integer n)
  | null : Admits .integer .null
  | timestamp (t : Instant) : Admits .timestamp (.timestamp t)

/-- The number that is read fits into 64 bits. -/
theorem bounds_of_readInteger? {cs : List Char} {n : Int} (h : readInteger? cs = some n) :
  minInteger ≤ n ∧ n ≤ maxInteger
  := by
  simpa using (Option.filter_eq_some_iff.1 h).2

/-- A field only makes values of its column type. -/
theorem Field.admits_of_convert {field : Field} {raw : String} {v : Value}
    (h : field.convert raw = .ok v) :
  field.columnType.Admits v
  := by
  rw [convert] at h
  rw [columnType]
  cases hkind : field.kind with
  | string =>
    simp only [hkind] at h ⊢
    cases h
    apply ColumnType.Admits.string
  | integer =>
    simp only [hkind] at h ⊢
    split at h
    · cases h
      apply ColumnType.Admits.null
    · split at h
      · next n hn =>
        cases h
        obtain ⟨hmin, hmax⟩ := bounds_of_readInteger? hn
        apply ColumnType.Admits.integer hmin hmax
      · cases h
  | timestamp layout reader =>
    simp only [hkind] at h ⊢
    split at h
    · cases h
      apply ColumnType.Admits.timestamp
    · cases h

/-- Words only convert to values of the column types. -/
theorem Converts.admits {fields : List Field} {words : List (List Char)} {values : List Value}
    (h : Converts fields words values) :
  List.Forall₂ (fun field v => field.columnType.Admits v) fields values
  := by
  induction h with
  | nil => exact .nil
  | cons hvalue _ ih => exact .cons (Field.admits_of_convert hvalue) ih

/-! ### Words that do not convert -/

/-- The field with the given number and name does not take its word, for the given reason. -/
def Refuses (fields : List Field) (words : List (List Char)) (index : Nat) (name : String)
    (cause : FieldError) : Prop :=
  ∃ field word, fields[index]? = some field ∧ words[index]? = some word ∧ field.name = name
    ∧ field.convert (String.ofList word) = .error cause

/-- The first of the fields that do not take their words. -/
def FirstRefuses (fields : List Field) (words : List (List Char)) (index : Nat)
    (name : String) (cause : FieldError) : Prop :=
  Refuses fields words index name cause
    ∧ ∀ i name' cause', Refuses fields words i name' cause' → index ≤ i

section

variable {field : Field} {word : List Char} {fields : List Field} {words : List (List Char)}
  {name : String} {cause : FieldError}

@[simp]
theorem refuses_zero :
  Refuses (field :: fields) (word :: words) 0 name cause
    ↔ field.name = name ∧ field.convert (String.ofList word) = .error cause
  := by
  simp [Refuses]

@[simp]
theorem refuses_succ {index : Nat} :
  Refuses (field :: fields) (word :: words) (index + 1) name cause
    ↔ Refuses fields words index name cause
  := by
  simp [Refuses]

/-- A field that does not take its word is the first one if there are none before it. -/
theorem firstRefuses_zero (h : field.convert (String.ofList word) = .error cause) :
  FirstRefuses (field :: fields) (word :: words) 0 field.name cause
  := by
  constructor
  · apply refuses_zero.2 ⟨rfl, h⟩
  · rintro i name' cause' -
    apply Nat.zero_le

/-- A field that takes its word is not the first one that does not. -/
theorem FirstRefuses.succ {index : Nat} {value : Value}
    (hvalue : field.convert (String.ofList word) = .ok value)
    (h : FirstRefuses fields words index name cause) :
  FirstRefuses (field :: fields) (word :: words) (index + 1) name cause
  := by
  obtain ⟨hrefuses, hleast⟩ := h
  constructor
  · apply refuses_succ.2 hrefuses
  · rintro (_ | i) name' cause' hi
    · obtain ⟨-, hcause⟩ := refuses_zero.1 hi
      cases hvalue.symm.trans hcause
    · apply Nat.succ_le_succ
      apply hleast i name' cause' (refuses_succ.1 hi)

end

/-- Captures are converted field by field, up to the first one that is refused. -/
theorem Extractor.convertAll_outcome (first : Nat) {fields : List Field}
    {found : List Capture} (hlength : found.length = fields.length) :
  match convertAll first fields (found.map some) with
  | .ok values => Converts fields (found.map (·.text)) values
  | .error e => ∃ index name cause, e = .field (first + index) name cause
      ∧ FirstRefuses fields (found.map (·.text)) index name cause
  := by
  induction fields generalizing first found with
  | nil =>
    obtain rfl := List.length_eq_zero_iff.1 hlength
    apply Converts.nil
  | cons field fields ih =>
    obtain ⟨c, found, rfl⟩ := List.exists_cons_of_length_eq_add_one hlength
    have ih := ih (first + 1) (Nat.succ.inj hlength)
    rw [List.map_cons, convertAll_cons]
    cases hvalue : field.convert (String.ofList c.text) with
    | error cause => exact ⟨0, field.name, cause, rfl, firstRefuses_zero hvalue⟩
    | ok value =>
      cases hothers : convertAll (first + 1) fields (found.map some) with
      | error e =>
        rw [hothers] at ih
        obtain ⟨index, name, cause, rfl, hfirst⟩ := ih
        refine ⟨index + 1, name, cause, ?_, hfirst.succ hvalue⟩
        rw [Nat.add_right_comm]
        rfl
      | ok values =>
        rw [hothers] at ih
        apply Converts.cons hvalue ih

/-! ### Lines -/

namespace Format

/-- The words that the groups of a format find in a raw line, from which a carriage return at
the end is taken away. -/
def Finds (f : Format) (raw : Bytes) (words : List (List Char)) : Prop :=
  ∃ line, decode? raw = some line ∧ ∃ found : List Capture,
    f.line.captures? (Extractor.withoutReturn line) = some (found.map some)
      ∧ words = found.map (·.text)

/-- Why a raw line has no values. -/
def Fails (f : Format) (maxLineSize : Nat) (raw : Bytes) : RowError → Prop
  | .lineTooLarge size limit => size = raw.length ∧ limit = maxLineSize ∧ limit < size
  | .nonUtf8 => raw.length ≤ maxLineSize ∧ decode? raw = none
  | .noMatch => raw.length ≤ maxLineSize ∧ ∃ line, decode? raw = some line
      ∧ f.line.captures? (Extractor.withoutReturn line) = none
  | .field index name cause => raw.length ≤ maxLineSize ∧ ∃ words, f.Finds raw words
      ∧ FirstRefuses f.fields words index name cause

/-- A compiled format finds a word for each of its fields. -/
theorem exists_found {reader : TimeReader} {text : String} {f : Format}
    (h : compile reader text = .ok f) {line : String} {captures : List (Option Capture)}
    (hline : f.line.captures? line = some captures) :
  ∃ found : List Capture, captures = found.map some ∧ found.length = f.fields.length
  := by
  obtain ⟨resolved, hresolves, rfl⟩ := compile_eq_ok_iff.1 h
  obtain ⟨found, rfl, hdivide, -⟩ := (captures?_of_resolves hresolves line).2 captures hline
  refine ⟨found, rfl, ?_⟩
  rw [← List.length_map (·.text), ← hdivide.accepts.length_eq]
  rfl

/-- The values of a raw line are those of the words that are found in it. -/
theorem lineValues_outcome {reader : TimeReader} {text : String} {f : Format}
    (h : compile reader text = .ok f) (columns : List Nat) (maxLineSize : Nat) (raw : Bytes) :
  match Extractor.lineValues ⟨f, columns, maxLineSize⟩ raw with
  | .ok values => raw.length ≤ maxLineSize
      ∧ ∃ words, f.Finds raw words ∧ Converts f.fields words values
  | .error e => f.Fails maxLineSize raw e
  := by
  rw [Extractor.lineValues]
  by_cases hlarge : maxLineSize < raw.length
  · rw [if_pos hlarge]
    exact ⟨rfl, rfl, hlarge⟩
  · have hsize := Nat.le_of_not_lt hlarge
    rw [if_neg hlarge]
    cases hdecode : decode? raw with
    | none => exact ⟨hsize, hdecode⟩
    | some line =>
      simp only [Extractor.textValues]
      cases hcaptures : f.line.captures? (Extractor.withoutReturn line) with
      | none => exact ⟨hsize, line, hdecode, hcaptures⟩
      | some captures =>
        obtain ⟨found, rfl, hlength⟩ := exists_found h hcaptures
        have hfinds : f.Finds raw (found.map (·.text)) := ⟨line, hdecode, found, hcaptures, rfl⟩
        have hconvert := Extractor.convertAll_outcome 0 hlength
        simp only
        cases hvalues : Extractor.convertAll 0 f.fields (found.map some) with
        | ok values =>
          rw [hvalues] at hconvert
          exact ⟨hsize, _, hfinds, hconvert⟩
        | error e =>
          rw [hvalues] at hconvert
          obtain ⟨index, name, cause, rfl, hfirst⟩ := hconvert
          rw [Nat.zero_add]
          exact ⟨hsize, _, hfinds, hfirst⟩

/-- A line either fails and makes no call on the sink, or it makes one call for each field of
the format, in the order of the fields: it writes the value of the word that is found for the
field, which is of the column type of the field, to the column with the number that the sink
gave when the column was declared.  If a word does not convert, the error is that of the first
such field.  All this is so for every sink, in whatever state it is. -/
theorem feed_calls {σ : Type} [Sink σ] {reader : TimeReader} {text : String} {f : Format}
    (h : compile reader text = .ok f) (maxLineSize : Nat) (raw : Bytes)
    (unbound s : Recorded σ) :
  ∃ x bound, Extractor.bind f unbound = (x, bound)
    ∧ Extractor.bind f unbound.sink = (x, bound.sink)
    ∧ x.columns.length = f.fields.length
    ∧ bound.calls = unbound.calls
        ++ List.zipWith (fun (name, type) number => .declare name type number) f.columns x.columns
    ∧ match { x with maxLineSize := maxLineSize }.feed raw s with
      | (.error e, s') =>
        { x with maxLineSize := maxLineSize }.feed raw s.sink = (.error e, s'.sink)
          ∧ s' = s ∧ f.Fails maxLineSize raw e
      | (.ok (), s') =>
        { x with maxLineSize := maxLineSize }.feed raw s.sink = (.ok (), s'.sink)
          ∧ ∃ words values, f.Finds raw words ∧ Converts f.fields words values
            ∧ List.Forall₂ (fun field v => field.columnType.Admits v) f.fields values
            ∧ s'.calls = s.calls ++ List.zipWith .write x.columns values
  := by
  have hbind := Extractor.bind_eq f unbound
  rw [Recorded.declareColumns_eq] at hbind
  refine ⟨_, _, hbind, rfl, ?_, rfl, ?_⟩
  · rw [length_declareColumns, length_columns]
  have houtcome := lineValues_outcome h (declareColumns unbound.sink f.columns).1 maxLineSize raw
  simp only [Extractor.feed_eq]
  split at houtcome
  · next values hvalues =>
    obtain ⟨-, words, hfinds, hconverts⟩ := houtcome
    simp only [hvalues, Recorded.writeValues_eq, List.map_zip_eq_zipWith]
    exact ⟨trivial, words, values, hfinds, hconverts, hconverts.admits, rfl⟩
  · next e hvalues =>
    simp only [hvalues]
    exact ⟨trivial, trivial, houtcome⟩

/-- A status that converts is not written, because the number of bytes after it does not fit
into 64 bits. -/
theorem feed_calls_status_bytes :
  ∃ f x bound, compile (fun _ _ => .error "") "%s %b" = .ok f
    ∧ Extractor.bind f (⟨.empty, []⟩ : Recorded RecordSink) = (x, bound)
    ∧ bound.calls = [.declare "response-status" .integer 0, .declare "response-bytes" .integer 1]
    ∧ ({ x with maxLineSize := 100 }.feed (encode "200 99999999999999999999") bound).2 = bound
    ∧ ∃ words, f.Finds (encode "200 99999999999999999999") words
      ∧ FirstRefuses f.fields words 1 "response-bytes"
          (.malformedInteger "99999999999999999999")
  := by
  let resolved : List Resolved :=
    [⟨⟨0, ['%', 's'], some ⟨'s', none, false, [], none⟩⟩,
        some ⟨"response-status", SubPattern.status, .integer⟩⟩,
      ⟨⟨2, [' '], none⟩, none⟩,
      ⟨⟨3, ['%', 'b'], some ⟨'b', none, false, [], none⟩⟩,
        some ⟨"response-bytes", SubPattern.integer, .integer⟩⟩]
  have hscan : Segment.scan "%s %b" = .ok (resolved.map (·.segment)) := by cbv
  have hcompile : compile (fun _ _ => .error "") "%s %b" = .ok (ofResolved "%s %b" resolved) :=
    compile_of_resolves (resolves_of_mapM hscan rfl)
  have hline : (ofResolved "%s %b" resolved).line.captures? "200 99999999999999999999"
      = some ([⟨0, "200".toList⟩, ⟨4, "99999999999999999999".toList⟩].map some) := by cbv
  have hvalues : ∀ columns, Extractor.lineValues
      ⟨ofResolved "%s %b" resolved, columns, 100⟩
      (encode "200 99999999999999999999")
      = .error (.field 1 "response-bytes" (.malformedInteger "99999999999999999999")) := by
    intro columns
    have hwithout : Extractor.withoutReturn "200 99999999999999999999"
        = "200 99999999999999999999" := by
      have hlast : "200 99999999999999999999".toList.getLast? ≠ some '\r' := by decide
      simp only [Extractor.withoutReturn, if_neg hlast]
    have hlength : (encode "200 99999999999999999999").length = 24 := by
      rw [length_encode]
      rfl
    have hlarge : ¬100 < (encode "200 99999999999999999999").length := by
      rw [hlength]
      decide
    rw [Extractor.lineValues, if_neg hlarge, decode?_encode]
    simp only [Extractor.textValues, hwithout, hline]
    cbv
  obtain ⟨x, bound, hbind, -, -, -, hfeed⟩ := feed_calls hcompile 100
    (encode "200 99999999999999999999") ⟨RecordSink.empty, []⟩
    (Extractor.bind (ofResolved "%s %b" resolved) ⟨RecordSink.empty, []⟩).2
  rw [hbind] at hfeed
  obtain ⟨rfl, hbound⟩ := Prod.mk.inj (hbind.symm.trans (Extractor.bind_eq _ _))
  simp only [Extractor.feed_eq, hvalues] at hfeed
  obtain ⟨-, -, -, words, hfinds, hfirst⟩ := hfeed
  refine ⟨_, _, bound, hcompile, hbind, ?_, ?_, words, hfinds, hfirst⟩
  · rw [hbound]
    rfl
  · simp only [Extractor.feed_eq, hvalues]

end Format

end LogFormat
