import LogFormat.Proofs.Record.Row
import LogFormat.Proofs.Stream.Room
import Mathlib.Algebra.Group.Nat.Defs

/-!
# A run treats every line by itself

Between two lines the sink of a run is the one that was bound at the start, and so every
line gives what it would give alone (`step_of_ok`, `step_of_error`).  A run that skips
lines that fail is therefore a map over the lines of the input, of which the output and
the counters are read off (`run_eq_outcomes`).
-/

namespace LogFormat

/-! ### The lines of an input -/

/-- The pieces of a stream between its line feeds. -/
theorem divideLines_eq (bytes : Bytes) :
  (divideLines bytes).1 :: (divideLines bytes).2 = bytes.splitOn lineFeed
  := by
  induction bytes with
  | nil => rfl
  | cons byte bytes ih =>
    rw [List.splitOn_cons_eq_if_modifyHead, ← ih, divideLines, List.foldr_cons, ← divideLines]
    by_cases h : byte = lineFeed <;> simp [h]

/-- The lines of a stream that are not blank. -/
def contentLines (bytes : Bytes) : List Bytes :=
  (bytes.splitOn lineFeed).filter (!isBlankLine ·)

/-- Apart from blank ones, the lines of an input that does not break off are the pieces
between its line feeds. -/
theorem filter_lines (bytes : Bytes) :
  (Input.lines ⟨bytes, none⟩).filter (!isBlankLine ·) = contentLines bytes
  := by
  have hpieces := divideLines_eq bytes
  have hne := List.splitOn_ne_nil lineFeed bytes
  have hfinished : finishedLines bytes = (bytes.splitOn lineFeed).dropLast := by
    rw [← hpieces]
    rfl
  have hunfinished : unfinishedLine bytes = (bytes.splitOn lineFeed).getLast hne := by
    simp only [← hpieces]
    rfl
  have hsplit := List.dropLast_concat_getLast hne
  rw [← hfinished, ← hunfinished] at hsplit
  rw [Input.lines, contentLines, ← hsplit]
  split
  · next h =>
    have hempty : unfinishedLine bytes = [] := by simpa using h
    simp [hempty, isBlankLine]
  · rfl

/-- A single line that ends with its line feed. -/
theorem lines_append_lineFeed {line : Bytes} (h : lineFeed ∉ line) :
  Input.lines ⟨line ++ [lineFeed], none⟩ = [line]
  := by
  have hdivide := divideLines_eq (line ++ [lineFeed])
  rw [List.splitOn_append_cons_self_of_not_mem h, List.splitOn_nil] at hdivide
  obtain ⟨hfirst, hothers⟩ := List.cons_eq_cons.1 hdivide
  simp [Input.lines, finishedLines, unfinishedLine, hfirst, hothers]

/-! ### Counting -/

/-- The counts after one more line with the given outcome. -/
def Counters.count (c : Counters) : Except RowError Record → Counters
  | .ok _ => c.success 0
  | .error e => c.failure e

/-- A counter that goes up by one for certain outcomes counts them. -/
theorem Counters.foldl_count {get : Counters → UInt64} {hit : Except RowError Record → Bool}
    (hget : ∀ c outcome, get (count c outcome) = get c + if hit outcome then 1 else 0)
    (outcomes : List (Except RowError Record)) (c : Counters) :
  get (outcomes.foldl count c) = get c + .ofNat (outcomes.countP hit)
  := by
  induction outcomes generalizing c with
  | nil => simp
  | cons outcome outcomes ih =>
    rw [List.foldl_cons, ih, hget, List.countP_cons]
    cases hit outcome <;> simp [UInt64.add_assoc, UInt64.add_comm]

/-- The outcomes of lines, counted by kind, are as many as the lines. -/
theorem Counters.length_outcomes (outcomes : List (Except RowError Record)) :
  outcomes.length
    = outcomes.countP (· matches .ok _) + (outcomes.countP (· matches .error .noMatch)
      + outcomes.countP (· matches .error (.field _ _ _))
      + outcomes.countP (· matches .error (.lineTooLarge _ _))
      + outcomes.countP (· matches .error .nonUtf8))
  := by
  induction outcomes with
  | nil => rfl
  | cons outcome outcomes ih =>
    simp only [List.length_cons, List.countP_cons, ih]
    rcases outcome with (_ | _ | _ | _) | _ <;>
      simp only [if_true, Bool.false_eq_true, if_false] <;> omega

/-- The counters of fewer lines than they have numbers are exact. -/
theorem Counters.toNat_foldl_count {outcomes : List (Except RowError Record)}
    (h : outcomes.length < 2 ^ 64) :
  (outcomes.foldl count {}).lines.toNat = outcomes.length
    ∧ (outcomes.foldl count {}).extracted.toNat = outcomes.countP (· matches .ok _)
    ∧ (outcomes.foldl count {}).noMatch.toNat
        = outcomes.countP (· matches .error .noMatch)
    ∧ (outcomes.foldl count {}).fieldErrors.toNat
        = outcomes.countP (· matches .error (.field _ _ _))
    ∧ (outcomes.foldl count {}).linesTooLarge.toNat
        = outcomes.countP (· matches .error (.lineTooLarge _ _))
    ∧ (outcomes.foldl count {}).nonUtf8.toNat
        = outcomes.countP (· matches .error .nonUtf8)
  := by
  have hexact : ∀ (get : Counters → UInt64) (hit : Except RowError Record → Bool),
      get {} = 0 →
      (∀ c outcome, get (count c outcome) = get c + if hit outcome then 1 else 0) →
      (get (outcomes.foldl count {})).toNat = outcomes.countP hit := by
    intro get hit hzero hget
    have hle := outcomes.countP_le_length (p := hit)
    rw [foldl_count hget, hzero, UInt64.zero_add]
    apply UInt64.toNat_ofNat_of_lt' (Nat.lt_of_le_of_lt hle h)
  have hlines := hexact (·.lines) (fun _ => true) rfl
    (by rintro c ((_ | _ | _ | _) | _) <;> rfl)
  rw [List.countP_true] at hlines
  refine ⟨hlines, hexact (·.extracted) _ rfl ?_, hexact (·.noMatch) _ rfl ?_,
    hexact (·.fieldErrors) _ rfl ?_, hexact (·.linesTooLarge) _ rfl ?_,
    hexact (·.nonUtf8) _ rfl ?_⟩ <;>
    rintro c ((_ | _ | _ | _) | _) <;> simp [count, success, failure]

/-- Lines that give a record and lines that fail are all lines, as long as the counters
are exact. -/
theorem Counters.lines_foldl_count {outcomes : List (Except RowError Record)}
    (h : outcomes.length < 2 ^ 64) :
  (outcomes.foldl count {}).lines.toNat
    = (outcomes.foldl count {}).extracted.toNat + (outcomes.foldl count {}).failed.toNat
  := by
  obtain ⟨hlines, hextracted, hnoMatch, hfield, hlarge, hutf8⟩ := toNat_foldl_count h
  have hlength := length_outcomes outcomes
  simp only [failed, UInt64.toNat_add, hlines, hextracted, hnoMatch, hfield, hlarge, hutf8]
  omega

/-! ### Single steps -/

namespace Progress

/-- The state between two lines, when the sink has an empty row. -/
def ready (f : Format) (c : Counters) (line : Nat) : Progress :=
  ⟨f.sink, c, line⟩

/-- A run starts with the extractor that owns all columns of its sink. -/
theorem start_eq (f : Format) (maxLineSize : Nat) :
  start f maxLineSize = (f.extractor maxLineSize, ready f {} 0)
  := by
  rw [start, Extractor.bind_empty]
  rfl

variable {f : Format} {maxLineSize : Nat} {stop : Bool} {c : Counters} {n : Nat}
  {o : Output} {line : Bytes}

/-- A blank line only counts as a line of the input. -/
theorem step_of_blank (h : isBlankLine line) :
  step (f.extractor maxLineSize) stop (ready f c n) o line
    = (.ok (ready f c (n + 1)), o)
  := by
  rw [step, if_pos h]
  rfl

/-- A line that is not blank writes its record, if it has one.  The row is empty again
then. -/
theorem step_of_not_blank (hblank : ¬isBlankLine line) :
  step (f.extractor maxLineSize) stop (ready f c n) o line
    = match f.freshRecord maxLineSize line with
      | .error e =>
        (if stop then .error (.invalidRecord (n + 1) e)
          else .ok (ready f (c.failure e) (n + 1)), o)
      | .ok r =>
        match emit r o with
        | (.error e, o) => (.error e, o)
        | (.ok (), o) => (.ok (ready f (c.success 0) (n + 1)), o)
  := by
  rw [step, if_neg hblank, Format.freshRecord_eq]
  simp only [ready, Format.feed_sink]
  cases (f.extractor maxLineSize).lineValues line with
  | error e => cases stop <;> rfl
  | ok values =>
    rcases hemit : emit ⟨f.columnNames.zip values⟩ o with ⟨_ | _, _⟩ <;>
      simp only [Except.map, Format.takeRecord_filled, hemit]

/-- A line that has a record writes it, if there is room for it. -/
theorem step_of_ok {r : Record} (hblank : ¬isBlankLine line)
    (h : f.freshRecord maxLineSize line = .ok r) (hroom : o.HasRoom r.bytes.size) :
  step (f.extractor maxLineSize) stop (ready f c n) o line
    = (.ok (ready f (c.success 0) (n + 1)), o.put r.bytes)
  := by
  rw [step_of_not_blank hblank, h]
  simp only [emit_of_hasRoom hroom]

/-- A line that fails writes nothing. -/
theorem step_of_error {e : RowError} (hblank : ¬isBlankLine line)
    (h : f.freshRecord maxLineSize line = .error e) :
  step (f.extractor maxLineSize) stop (ready f c n) o line
    = (if stop then .error (.invalidRecord (n + 1) e) else .ok (ready f (c.failure e) (n + 1)),
        o)
  := by
  rw [step_of_not_blank hblank, h]

end Progress

/-! ### Whole runs -/

namespace Format

/-- What becomes of each line of a stream that is not blank, by itself. -/
def outcomes (f : Format) (maxLineSize : Nat) (bytes : Bytes) :
    List (Except RowError Record) :=
  (contentLines bytes).map (f.freshRecord maxLineSize)

/-- The records of the lines of a stream that have one. -/
def records (f : Format) (maxLineSize : Nat) (bytes : Bytes) : List Record :=
  (f.outcomes maxLineSize bytes).filterMap Except.toOption

end Format

/-- If lines that fail are skipped, lines one after the other write their records and are
counted by themselves, and leave the row empty. -/
theorem Progress.steps_eq {f : Format} {maxLineSize : Nat} (lines : List Bytes)
    {outcomes : List (Except RowError Record)}
    (h : (lines.filter (!isBlankLine ·)).map (f.freshRecord maxLineSize) = outcomes)
    (c : Counters) (n : Nat) {o : Output}
    (hroom : o.HasRoom (recordsBytes (outcomes.filterMap Except.toOption)).size) :
  steps (f.extractor maxLineSize) false (ready f c n) o lines
    = (.ok (ready f (outcomes.foldl Counters.count c) (n + lines.length)),
        o.put (recordsBytes (outcomes.filterMap Except.toOption)))
  := by
  subst h
  induction lines generalizing c n o with
  | nil => simp [steps, recordsBytes]
  | cons line lines ih =>
    have hlength : n + (line :: lines).length = n + 1 + lines.length := by
      rw [List.length_cons]
      omega
    rw [steps, hlength]
    by_cases hblank : isBlankLine line
    · simp only [hblank, Bool.not_true, Bool.false_eq_true, not_false_eq_true,
        List.filter_cons_of_neg] at hroom ⊢
      rw [step_of_blank hblank]
      apply ih c (n + 1) hroom
    · simp only [hblank, Bool.not_false, List.filter_cons_of_pos, List.map_cons,
        List.filterMap_cons, List.foldl_cons] at hroom ⊢
      cases hrecord : f.freshRecord maxLineSize line with
      | error e =>
        rw [hrecord] at hroom
        rw [step_of_error hblank hrecord]
        apply ih (c.failure e) (n + 1) hroom
      | ok r =>
        rw [hrecord] at hroom
        obtain ⟨hfirst, hothers⟩ := Output.hasRoom_append hroom
        have ih := ih (c.success 0) (n + 1) hothers
        rw [Output.put_put] at ih
        rw [step_of_ok hblank hrecord hfirst]
        apply ih

/-- A run that skips lines that fail is a map over the lines of its input: the output is
that of the records of the lines, each of them extracted by itself, and the counters count
the outcomes of the lines. -/
theorem run_eq_outcomes
    (f : Format) (maxLineSize : Nat) (bytes : Bytes) {o : Output}
    (hflush : o.flushFailure = none)
    (hroom : o.HasRoom (recordsBytes (f.records maxLineSize bytes)).size) :
  run f maxLineSize false ⟨bytes, none⟩ o
    = (.ok ((f.outcomes maxLineSize bytes).foldl Counters.count {}),
        o.put (recordsBytes (f.records maxLineSize bytes)))
  := by
  have houtcomes : ((Input.lines ⟨bytes, none⟩).filter (!isBlankLine ·)).map
      (f.freshRecord maxLineSize) = f.outcomes maxLineSize bytes := by
    rw [filter_lines]
    rfl
  have hsteps := Progress.steps_eq (Input.lines ⟨bytes, none⟩) houtcomes {} 0 hroom
  have hput : ∀ b, (o.put b).flushFailure = none := fun _ => hflush
  rw [run, Progress.start_eq]
  simp only [hsteps, hput]
  rfl

/-- A run over a single line that has a record writes the record, whether it stops at lines
that fail or not. -/
theorem run_single_line
    {f : Format} {maxLineSize : Nat} (stop : Bool) {line : Bytes} {r : Record} {o : Output}
    (hline : lineFeed ∉ line) (hblank : ¬isBlankLine line)
    (h : f.freshRecord maxLineSize line = .ok r)
    (hflush : o.flushFailure = none) (hroom : o.HasRoom r.bytes.size) :
  run f maxLineSize stop ⟨line ++ [lineFeed], none⟩ o
    = (.ok (Counters.success {} 0), o.put r.bytes)
  := by
  have hput : (o.put r.bytes).flushFailure = none := hflush
  rw [run, Progress.start_eq, lines_append_lineFeed hline]
  simp only [Progress.steps, Progress.step_of_ok hblank h hroom, hput]
  rfl

/-- The number of records is that of the lines that have one. -/
theorem Format.length_records (f : Format) (maxLineSize : Nat) (bytes : Bytes) :
  (f.records maxLineSize bytes).length
    = (f.outcomes maxLineSize bytes).countP (· matches .ok _)
  := by
  rw [records, List.length_filterMap_eq_countP]
  apply List.countP_congr
  rintro (_ | _) - <;> simp [Except.toOption]

/-- A run that skips lines that fail takes each line of the input by itself: with the
lines between the line feeds that are not blank, each of them extracted from a format that
is bound to a new sink, it writes the JSON texts of the records in order, a line feed after
each, and counts the lines, the records, and the failures of each kind. -/
theorem run_line_by_line
    (f : Format) (maxLineSize : Nat) (bytes : Bytes) {o : Output}
    (hflush : o.flushFailure = none)
    (hroom : o.HasRoom (recordsBytes (f.records maxLineSize bytes)).size) :
  ∃ counters, run f maxLineSize false ⟨bytes, none⟩ o
      = (.ok counters, o.put (recordsBytes (f.records maxLineSize bytes)))
    ∧ ((contentLines bytes).length < 2 ^ 64 →
      counters.lines.toNat = (contentLines bytes).length
        ∧ counters.extracted.toNat = (f.records maxLineSize bytes).length
        ∧ counters.noMatch.toNat
            = (f.outcomes maxLineSize bytes).countP (· matches .error .noMatch)
        ∧ counters.fieldErrors.toNat
            = (f.outcomes maxLineSize bytes).countP (· matches .error (.field _ _ _))
        ∧ counters.linesTooLarge.toNat
            = (f.outcomes maxLineSize bytes).countP (· matches .error (.lineTooLarge _ _))
        ∧ counters.nonUtf8.toNat
            = (f.outcomes maxLineSize bytes).countP (· matches .error .nonUtf8)
        ∧ counters.lines.toNat = counters.extracted.toNat + counters.failed.toNat)
  := by
  refine ⟨_, run_eq_outcomes f maxLineSize bytes hflush hroom, fun hlength => ?_⟩
  have houtcomes : (f.outcomes maxLineSize bytes).length = (contentLines bytes).length := by
    rw [Format.outcomes, List.length_map]
  rw [← houtcomes] at hlength ⊢
  obtain ⟨hlines, hextracted, hnoMatch, hfield, hlarge, hutf8⟩ :=
    Counters.toNat_foldl_count hlength
  rw [← Format.length_records] at hextracted
  exact ⟨hlines, hextracted, hnoMatch, hfield, hlarge, hutf8,
    Counters.lines_foldl_count hlength⟩

/-- Two lines with a blank line between them, of which the first is a percent sign. -/
theorem run_line_by_line_percent :
  let f : Format := ⟨"%%", [⟨"%", "(%)", .string⟩], "(%)", ⟨.group 1 (.one (.single '%')), 1⟩⟩
  ∃ counters, run f 9 false ⟨[37, 10, 10, 120], none⟩ {}
      = (.ok counters, Output.put {} (recordsBytes (f.records 9 [37, 10, 10, 120])))
    ∧ counters.lines.toNat = 2 ∧ counters.extracted.toNat = 1 ∧ counters.noMatch.toNat = 1
  := by
  intro f
  obtain ⟨counters, hrun, hcounters⟩ :=
    run_line_by_line f 9 [37, 10, 10, 120] (o := {}) rfl
      (Output.hasRoom_of_room_eq_none rfl _)
  have hlines : contentLines [37, 10, 10, 120] = [[37], [120]] := by decide
  obtain ⟨hlines', hextracted, hnoMatch, -⟩ := hcounters (by rw [hlines]; decide)
  refine ⟨counters, hrun, ?_, ?_, ?_⟩
  · rw [hlines', hlines]
    rfl
  · rw [hextracted, Format.records, Format.outcomes, hlines]
    rfl
  · rw [hnoMatch, Format.outcomes, hlines]
    rfl

end LogFormat
