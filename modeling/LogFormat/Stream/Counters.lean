import LogFormat.Record.Extractor

/-!
# Counters

How many lines were read, how many gave a record, and how many failed for which
reason.  The counters are words of 64 bits and go round at their end.
-/

namespace LogFormat

/-- The counts of a run, with the time that the successful lines took. -/
structure Counters where
  lines : UInt64 := 0
  extracted : UInt64 := 0
  nanos : UInt64 := 0
  noMatch : UInt64 := 0
  fieldErrors : UInt64 := 0
  linesTooLarge : UInt64 := 0
  nonUtf8 : UInt64 := 0
deriving Repr, DecidableEq

namespace Counters

/-- The counts after one more line that gave a record. -/
def success (c : Counters) (nanos : UInt64) : Counters :=
  { c with lines := c.lines + 1, extracted := c.extracted + 1, nanos := c.nanos + nanos }

/-- The counts after one more line that failed. -/
def failure (c : Counters) (error : RowError) : Counters :=
  let c := { c with lines := c.lines + 1 }
  match error with
  | .noMatch => { c with noMatch := c.noMatch + 1 }
  | .field _ _ _ => { c with fieldErrors := c.fieldErrors + 1 }
  | .lineTooLarge _ _ => { c with linesTooLarge := c.linesTooLarge + 1 }
  | .nonUtf8 => { c with nonUtf8 := c.nonUtf8 + 1 }

/-- The number of lines that failed. -/
def failed (c : Counters) : UInt64 :=
  c.noMatch + c.fieldErrors + c.linesTooLarge + c.nonUtf8

/-- The part of the lines that gave a record; of no lines it is all. -/
def successRate (c : Counters) : Float :=
  if c.lines = 0 then 1.0 else c.extracted.toFloat / c.lines.toFloat

/-- The mean time of a successful line, in microseconds. -/
def averageMicros (c : Counters) : Float :=
  if c.extracted = 0 then 0.0 else c.nanos.toFloat / c.extracted.toFloat / 1000.0

end Counters

end LogFormat
