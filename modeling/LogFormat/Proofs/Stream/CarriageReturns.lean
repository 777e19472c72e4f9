import LogFormat.Proofs.Stream.BrokenOff
import LogFormat.Proofs.Stream.StopMode

/-!
# Carriage returns before line feeds

One carriage return at the end of a line makes no difference to the values of the line, unless
the line is exactly as long as lines may be (`feed_append_return`).  So a stream whose lines end
with carriage return and line feed is run as the one whose lines end with line feeds only
(`run_withReturns`).  A line of the greatest length is too large with its carriage return
(`run_refuses_return`).
-/

namespace LogFormat

/-! ### Single lines -/

/-- The error of the same line with one byte more. -/
def RowError.longer : RowError → RowError
  | .lineTooLarge size limit => .lineTooLarge (size + 1) limit
  | e => e

/-- An error is counted as the same, whatever the size of the line is. -/
theorem Counters.failure_longer (c : Counters) (e : RowError) :
  c.failure e.longer = c.failure e
  := by
  cases e <;> rfl

namespace Extractor

/-- A text that cannot be converted is not too large. -/
theorem longer_of_convertAll {index : Nat} {fields : List Field}
    {captures : List (Option Capture)} {e : RowError}
    (h : convertAll index fields captures = .error e) :
  e.longer = e
  := by
  induction fields generalizing index captures with
  | nil => cases h
  | cons field fields ih =>
    obtain h | ⟨value, -, h⟩ := bind_eq_error.1 h
    · cases hvalue : field.convert (captures.head?.join.elim "" fun c => String.ofList c.text) with
      | ok value =>
        rw [hvalue] at h
        cases h
      | error cause =>
        rw [hvalue] at h
        cases h
        rfl
    · exact ih (error_of_bind h)

/-- The values of a text do not depend on how long it is. -/
theorem mapError_longer_textValues (x : Extractor) (line : String) :
  (x.textValues line).mapError RowError.longer = x.textValues line
  := by
  cases h : x.textValues line with
  | ok values => rfl
  | error e =>
    have he : e.longer = e := by
      rw [textValues] at h
      split at h
      · cases h
        rfl
      · exact longer_of_convertAll h
    rw [Except.mapError, he]

/-- A carriage return at the end of a text is taken away. -/
theorem withoutReturn_append (cs : List Char) :
  withoutReturn (String.ofList (cs ++ ['\r'])) = String.ofList cs
  := by
  simp only [withoutReturn, String.toList_ofList, List.getLast?_concat, if_true,
    List.dropLast_concat]

/-- A text whose bytes do not end with a carriage return is left as it is. -/
theorem withoutReturn_of_decode? {line : Bytes} {text : String} (h : decode? line = some text)
    (hline : line.getLast? ≠ some carriageReturn) :
  withoutReturn text = text
  := by
  have hlast : text.toList.getLast? ≠ some '\r' := by
    intro hlast
    obtain ⟨cs, hcs⟩ := List.getLast?_eq_some_iff.1 hlast
    apply hline
    rw [decode?_eq_some_iff.1 h, ← String.ofList_toList (s := text), hcs, encode_append]
    apply List.getLast?_concat
  simp only [withoutReturn, if_neg hlast]

/-- The values of a line with a carriage return at its end are those of the line, as long as it
is not too large because of the carriage return. -/
theorem lineValues_append_return (x : Extractor) {line : Bytes}
    (hline : line.getLast? ≠ some carriageReturn) :
  x.lineValues (line ++ [carriageReturn])
    = if line.length = x.maxLineSize then .error (.lineTooLarge (line.length + 1) x.maxLineSize)
      else (x.lineValues line).mapError RowError.longer
  := by
  have hdecode : decode? (line ++ [carriageReturn])
      = (decode? line).map fun text => String.ofList (text.toList ++ ['\r']) :=
    decode?_append_singleton (by decide) (by decide)
  rw [lineValues, lineValues, List.length_append, List.length_singleton]
  by_cases hfull : line.length = x.maxLineSize
  · rw [if_pos (by omega), if_pos hfull]
  · rw [if_neg hfull]
    by_cases hlarge : x.maxLineSize < line.length
    · rw [if_pos (by omega), if_pos hlarge]
      rfl
    · rw [if_neg (by omega), if_neg hlarge, hdecode]
      cases htext : decode? line with
      | none => rfl
      | some text =>
        simp only [Option.map_some, withoutReturn_append, String.ofList_toList,
          withoutReturn_of_decode? htext hline, mapError_longer_textValues]

/-- A line with a carriage return at its end does to every sink what the line does, as long as
it is not too large because of the carriage return. -/
theorem feed_append_return {σ : Type} [Sink σ] (x : Extractor) {line : Bytes}
    (hline : line.getLast? ≠ some carriageReturn) (sink : σ) :
  x.feed (line ++ [carriageReturn]) sink
    = if line.length = x.maxLineSize then
        (.error (.lineTooLarge (line.length + 1) x.maxLineSize), sink)
      else ((x.feed line sink).1.mapError RowError.longer, (x.feed line sink).2)
  := by
  rw [feed_eq, feed_eq, lineValues_append_return x hline]
  by_cases hfull : line.length = x.maxLineSize
  · simp only [if_pos hfull]
  · simp only [if_neg hfull]
    cases x.lineValues line <;> rfl

end Extractor

/-! ### Streams -/

/-- The stream with a carriage return before each line feed. -/
def withReturns (bytes : Bytes) : Bytes :=
  bytes.flatMap fun byte => if byte = lineFeed then [carriageReturn, lineFeed] else [byte]

/-- The input with a carriage return before each line feed. -/
def Input.withReturns (i : Input) : Input :=
  { i with bytes := LogFormat.withReturns i.bytes }

/-- A piece without line feeds gets no carriage return. -/
theorem withReturns_of_not_mem {bytes : Bytes} (h : lineFeed ∉ bytes) :
  withReturns bytes = bytes
  := by
  induction bytes with
  | nil => rfl
  | cons byte bytes ih =>
    rw [List.mem_cons, not_or] at h
    obtain ⟨hbyte, hbytes⟩ := h
    rw [withReturns, List.flatMap_cons, if_neg (Ne.symm hbyte), ← withReturns, ih hbytes,
      List.singleton_append]

/-- Each line gets a carriage return at its end, and the tail gets none. -/
theorem withReturns_framed_append {lines : List Bytes} {tail : Bytes}
    (h : ∀ line ∈ lines, lineFeed ∉ line) (htail : lineFeed ∉ tail) :
  withReturns (framed lines ++ tail) = framed (lines.map (· ++ [carriageReturn])) ++ tail
  := by
  induction lines with
  | nil => exact withReturns_of_not_mem htail
  | cons line lines ih =>
    obtain ⟨hline, hothers⟩ := List.forall_mem_cons.1 h
    have hline := withReturns_of_not_mem hline
    rw [withReturns] at hline ih
    rw [withReturns, List.map_cons, framed_cons, framed_cons, List.append_assoc,
      List.cons_append, List.flatMap_append, hline, List.flatMap_cons, ih hothers, if_pos rfl]
    simp

/-! ### Runs -/

/-- The error of the same run, if the line that it stopped at had one byte more. -/
def RunError.longer : RunError → RunError
  | .invalidRecord line cause => .invalidRecord line cause.longer
  | e => e

/-- The line has no carriage return, and there is room for one at its end: unless it is empty, it
is not exactly as long as lines may be. -/
structure EndsAlike (maxLineSize : Nat) (line : Bytes) : Prop where
  free : carriageReturn ∉ line
  size : line ≠ [] → line.length ≠ maxLineSize

/-- An input is lines with a line feed after each, which get a carriage return each, and what is
left of it, which gets none. -/
theorem lines_withReturns {i : Input} {maxLineSize : Nat} (hfree : carriageReturn ∉ i.bytes)
    (hsize : ∀ line ∈ finishedLines i.bytes, line ≠ [] → line.length ≠ maxLineSize) :
  ∃ lines others, i.lines = lines ++ others
    ∧ i.withReturns.lines = lines.map (· ++ [carriageReturn]) ++ others
    ∧ ∀ line ∈ lines, EndsAlike maxLineSize line
  := by
  obtain ⟨bytes, failure⟩ := i
  obtain ⟨lines, tail, rfl, hlines, htail⟩ := exists_framed bytes
  have hfinished : finishedLines (framed lines ++ tail) = lines :=
    lines_framed_append hlines htail (some "")
  have hreturns : ∀ line ∈ lines.map (· ++ [carriageReturn]), lineFeed ∉ line := by
    intro line hline
    obtain ⟨line', hline', rfl⟩ := List.mem_map.1 hline
    have := hlines line' hline'
    simpa using ⟨this, by decide⟩
  refine ⟨lines, if failure.isSome || tail.isEmpty then [] else [tail], ?_, ?_, ?_⟩
  · rw [lines_framed_append hlines htail]
    split <;> simp
  · rw [Input.withReturns, withReturns_framed_append hlines htail,
      lines_framed_append hreturns htail]
    split <;> simp
  · intro line hline
    constructor
    · intro hmem
      apply hfree
      exact List.mem_append_left _ (List.mem_flatMap.2 ⟨line, hline, List.mem_append_left _ hmem⟩)
    · exact hsize line (hfinished.symm ▸ hline)

/-- A line with a carriage return at its end is blank just if the line is. -/
theorem isBlankLine_append_return {line : Bytes} (h : carriageReturn ∉ line) :
  isBlankLine (line ++ [carriageReturn]) = isBlankLine line
  := by
  cases line with
  | nil => rfl
  | cons byte line =>
    have hbyte : byte ≠ carriageReturn := fun hbyte => h (hbyte ▸ List.mem_cons_self)
    have hreturn : (byte == carriageReturn) = false := by simpa using hbyte
    simp [isBlankLine, hreturn]

namespace Progress

/-- A record that cannot be written fails whatever the size of the line is. -/
theorem longer_of_emit {record : Record} {o o' : Output} {e : RunError}
    (h : emit record o = (.error e, o')) :
  e.longer = e
  := by
  rw [emit] at h
  split at h
  · cases h
    rfl
  · split at h <;> cases h
    rfl

/-- A step over a line with a carriage return at its end is the step over the line. -/
theorem step_append_return {x : Extractor} {stop : Bool} {line : Bytes}
    (h : EndsAlike x.maxLineSize line) (p : Progress) (o : Output) :
  step x stop p o (line ++ [carriageReturn])
    = ((step x stop p o line).1.mapError RunError.longer, (step x stop p o line).2)
  := by
  rw [step, step, isBlankLine_append_return h.free]
  by_cases hblank : isBlankLine line
  · rw [if_pos hblank, if_pos hblank]
    rfl
  · have hne : line ≠ [] := fun hnil => hblank (hnil ▸ rfl)
    have hlast : line.getLast? ≠ some carriageReturn := fun hlast =>
      h.free (List.mem_of_getLast? hlast)
    rw [if_neg hblank, if_neg hblank]
    simp only [x.feed_append_return hlast, if_neg (h.size hne)]
    rcases x.feed line p.sink with ⟨e | _, sink⟩
    · cases stop with
      | true => rfl
      | false => simp only [Except.mapError, Counters.failure_longer, Bool.false_eq_true, if_false]
    · simp only [Except.mapError]
      rcases hemit : emit sink.takeRecord.1 o with ⟨e | _, o'⟩
      · simp only [longer_of_emit hemit]
      · rfl

/-- Steps over lines with carriage returns at their ends are the steps over the lines. -/
theorem steps_append_return {x : Extractor} {stop : Bool} {lines : List Bytes}
    (h : ∀ line ∈ lines, EndsAlike x.maxLineSize line) (p : Progress) (o : Output) :
  steps x stop p o (lines.map (· ++ [carriageReturn]))
    = ((steps x stop p o lines).1.mapError RunError.longer, (steps x stop p o lines).2)
  := by
  induction lines generalizing p o with
  | nil => rfl
  | cons line lines ih =>
    obtain ⟨hline, hothers⟩ := List.forall_mem_cons.1 h
    rw [List.map_cons, steps, steps, step_append_return hline]
    rcases step x stop p o line with ⟨_ | p, o⟩
    · rfl
    · exact ih hothers p o

end Progress

/-- Carriage returns do not matter.  One of them at the end of a line that has none there makes
no difference to what the line does to a sink, as long as the line is not exactly as long as
lines may be.  So an input without carriage returns and the same input with a carriage return
before each line feed are run with the same output, and with the same counters or the same error,
if no line is exactly as long as lines may be; only the size of a line that is too large is
counted with its carriage return. -/
theorem run_withReturns (f : Format) (maxLineSize : Nat) :
  (∀ {σ : Type} [Sink σ] (columns : List Nat) (sink : σ) (line : Bytes),
    line.getLast? ≠ some carriageReturn → line.length ≠ maxLineSize →
    let x : Extractor := ⟨f, columns, maxLineSize⟩
    x.feed (line ++ [carriageReturn]) sink
      = ((x.feed line sink).1.mapError RowError.longer, (x.feed line sink).2))
  ∧ ∀ (stop : Bool) (i : Input) (o : Output), carriageReturn ∉ i.bytes →
    (∀ line ∈ finishedLines i.bytes, line ≠ [] → line.length ≠ maxLineSize) →
    let plain := run f maxLineSize stop i o
    let returned := run f maxLineSize stop i.withReturns o
    returned.2 = plain.2
      ∧ (returned.1 = plain.1 ∨ returned.1 = plain.1.mapError RunError.longer)
  := by
  constructor
  · intro σ _ columns sink line hline hsize x
    rw [x.feed_append_return hline, if_neg hsize]
  · rintro stop i o hfree hsize
    obtain ⟨lines, others, hlines, hreturns, halike⟩ := lines_withReturns hfree hsize
    simp only [run, Progress.start_eq, hlines, hreturns, Progress.steps_append,
      Progress.steps_append_return (x := f.extractor maxLineSize) halike]
    rcases Progress.steps (f.extractor maxLineSize) stop (.ready f {} 0) o lines with ⟨e | p, o'⟩
    · exact ⟨rfl, .inr rfl⟩
    · exact ⟨rfl, .inl rfl⟩

/-- The third line is too large, and its carriage return counts as a byte of it. -/
theorem run_withReturns_percent :
  let f : Format := ⟨"%%", [⟨"%", "(%)", .string⟩], "(%)", ⟨.group 1 (.one (.single '%')), 1⟩⟩
  let i : Input := ⟨[37, 10, 10, 37, 37, 37, 10, 37], none⟩
  (run f 2 true i.withReturns {}).2 = (run f 2 true i {}).2
    ∧ (run f 2 true i {}).1 = .error (.invalidRecord 3 (.lineTooLarge 3 2))
    ∧ ∃ size, (run f 2 true i.withReturns {}).1 = .error (.invalidRecord 3 (.lineTooLarge size 2))
  := by
  intro f i
  have hstop : (run f 2 true i {}).1 = .error (.invalidRecord 3 (.lineTooLarge 3 2)) := by rfl
  obtain ⟨-, hrun⟩ := run_withReturns f 2
  obtain ⟨houtput, hresult⟩ := hrun true i {} (by decide) (by decide)
  refine ⟨houtput, hstop, ?_⟩
  rw [hstop] at hresult
  rcases hresult with hresult | hresult
  · exact ⟨3, hresult⟩
  · exact ⟨4, hresult⟩

/-- A status of three digits is too large with its carriage return, if lines may be as long as the
status. -/
theorem run_refuses_return :
  ∃ f, Format.compile (.standard .utc) "%s" = .ok f
    ∧ (run f 3 false ⟨[50, 48, 48, 10], none⟩ {}).2.bytes
      = encode "\x7b\"response-status\":200\x7d\n"
    ∧ (run f 3 false (Input.withReturns ⟨[50, 48, 48, 10], none⟩) {}).2.bytes = []
  := by
  let resolved : List Resolved :=
    [⟨⟨0, ['%', 's'], some ⟨'s', none, false, [], none⟩⟩,
        some ⟨"response-status", SubPattern.status, .integer⟩⟩]
  have hscan : Segment.scan "%s" = .ok (resolved.map (·.segment)) := by cbv
  have hcompile : Format.compile (.standard .utc) "%s" = .ok (.ofResolved "%s" resolved) :=
    Format.compile_of_resolves (Format.resolves_of_mapM hscan rfl)
  refine ⟨_, hcompile, ?_, ?_⟩
  · cbv
  · cbv

end LogFormat
