import LogFormat.Stream.Counters
import LogFormat.Stream.Lines

/-!
# Runs

A run takes the lines of an input through an extractor and writes one JSON object and a
line feed for each line that gives a record.  Blank lines are passed over.  A line that
fails is counted, and in stop mode it ends the run.  Input and output may fail at any
point: an `Input` may break off, and an `Output` may run out of room.
-/

namespace LogFormat

/-- The bytes that can be read, and the error that then comes instead of the end. -/
structure Input where
  bytes : Bytes
  failure : Option String := none
deriving Repr, DecidableEq

namespace Input

/-- The lines that can be read.  The unfinished line at the end is one of them, unless
it is empty or the input breaks off. -/
def lines (i : Input) : List Bytes :=
  if i.failure.isSome || (unfinishedLine i.bytes).isEmpty then finishedLines i.bytes
  else finishedLines i.bytes ++ [unfinishedLine i.bytes]

end Input

/-- What has been written, how many more bytes there is room for, and the errors that
come when there is no more room and when the output is flushed. -/
structure Output where
  written : ByteArray := .empty
  room : Option Nat := none
  writeFailure : String := ""
  flushFailure : Option String := none

namespace Output

/-- Writes bytes as far as there is room. -/
def write (o : Output) (bytes : ByteArray) : Except String Unit × Output :=
  match o.room with
  | none => (.ok (), { o with written := o.written ++ bytes })
  | some room =>
    if bytes.size ≤ room then
      (.ok (), { o with written := o.written ++ bytes, room := some (room - bytes.size) })
    else
      (.error o.writeFailure,
        { o with written := o.written ++ bytes.extract 0 room, room := some 0 })

end Output

/-- What ends a run early. -/
inductive RunError where
  | io (reason : String)
  | json (reason : String)
  | invalidRecord (line : Nat) (cause : RowError)
deriving Repr, DecidableEq

/-- The text of the error. -/
def RunError.message : RunError → String
  | .io reason => s!"I/O error: {reason}"
  | .json reason => s!"Failed to encode record: {reason}"
  | .invalidRecord line cause => s!"Line {line}: {cause.message}"

/-- The state between two lines. -/
structure Progress where
  sink : RecordSink
  counters : Counters
  line : Nat

namespace Progress

/-- Writes a record and its line feed. -/
def emit (record : Record) (output : Output) : Except RunError Unit × Output :=
  match output.write (String.ofList record.json).toUTF8 with
  | (.error reason, output) => (.error (.json reason), output)
  | (.ok (), output) =>
    match output.write (ByteArray.mk #[lineFeed]) with
    | (.error reason, output) => (.error (.io reason), output)
    | (.ok (), output) => (.ok (), output)

/-- Takes one line through the extractor.  A run reads no clock, so the time that a line
takes counts as nothing. -/
def step (x : Extractor) (stop : Bool) (p : Progress) (output : Output) (line : Bytes) :
    Except RunError Progress × Output :=
  let p := { p with line := p.line + 1 }
  if isBlankLine line then (.ok p, output)
  else
    match x.feed line p.sink with
    | (.ok (), sink) =>
      let (record, sink) := sink.takeRecord
      match emit record output with
      | (.error error, output) => (.error error, output)
      | (.ok (), output) =>
        (.ok { p with sink := sink, counters := p.counters.success 0 }, output)
    | (.error error, sink) =>
      if stop then (.error (.invalidRecord p.line error), output)
      else (.ok { p with sink := sink, counters := p.counters.failure error }, output)

/-- Takes lines through the extractor until one of them ends the run. -/
def steps (x : Extractor) (stop : Bool) (p : Progress) (output : Output) :
    List Bytes → Except RunError Progress × Output
  | [] => (.ok p, output)
  | line :: lines =>
    match p.step x stop output line with
    | (.ok p, output) => p.steps x stop output lines
    | (.error error, output) => (.error error, output)

/-- The start of a run, with the extractor bound to its own sink. -/
def start (format : Format) (maxLineSize : Nat) : Extractor × Progress :=
  let (x, sink) := Extractor.bind format RecordSink.empty
  ({ x with maxLineSize := maxLineSize }, ⟨sink, {}, 0⟩)

end Progress

/-- Runs a format over an input.  The output is flushed when the input has been read to
its end. -/
def run (format : Format) (maxLineSize : Nat) (stop : Bool) (input : Input)
    (output : Output) : Except RunError Counters × Output :=
  let (x, p) := Progress.start format maxLineSize
  match p.steps x stop output input.lines with
  | (.error error, output) => (.error error, output)
  | (.ok p, output) =>
    match input.failure, output.flushFailure with
    | some reason, _ => (.error (.io reason), output)
    | none, some reason => (.error (.io reason), output)
    | none, none => (.ok p.counters, output)

end LogFormat
