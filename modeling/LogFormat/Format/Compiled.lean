import LogFormat.Directive.Table
import LogFormat.Format.Splice
import LogFormat.Pattern.Written

/-!
# Compiled formats

A format is compiled to a list of fields and a pattern for lines.  The written pattern
is the format with each directive replaced by its sub-pattern and each literal text
quoted; it has one group for each field.
-/

namespace LogFormat

/-- Why a format cannot be compiled. -/
inductive FormatError where
  | unknownKey (directive : String) (offset : Nat)
  | malformedDirective (offset : Nat)
  | invalidTimestampFormat (parameter : String) (fault : LayoutFault)
  | groupCountMismatch (groups fields : Nat)
  | invalidPattern (error : PatternError)
deriving Repr, DecidableEq

/-- The text of the error. -/
def FormatError.message : FormatError → String
  | .unknownKey directive offset =>
    s!"Unknown log format key {directive} at offset {offset}"
  | .malformedDirective offset => s!"Malformed directive at offset {offset}"
  | .invalidTimestampFormat parameter fault =>
    s!"Invalid timestamp format '{parameter}': {fault.message}"
  | .groupCountMismatch groups fields =>
    s!"Line pattern has {groups} capture groups for {fields} fields"
  | .invalidPattern error => s!"Invalid line pattern: {error.message}"

/-- A compiled format: its text, its fields from left to right, the written pattern of
its lines, and that pattern as it is read. -/
structure Format where
  text : String
  fields : List Field
  written : String
  line : LinePattern

/-- A segment of a format and, if it is a directive, the field that it stands for. -/
structure Resolved where
  segment : Segment
  field : Option Field

namespace Resolved

/-- Finds the field of a segment. -/
def ofSegment (reader : TimeReader) (s : Segment) : Except FormatError Resolved :=
  match s.directive with
  | none => .ok ⟨s, none⟩
  | some d =>
    match TableEntry.ofKey? d.key with
    | none => .error (.unknownKey (String.ofList s.text) s.start)
    | some entry =>
      match entry.field? reader d.parameter with
      | .ok field => .ok ⟨s, some field⟩
      | .error fault => .error (.invalidTimestampFormat (d.parameter.getD "") fault)

/-- The splice that makes a written pattern of the segment; literal text that needs no
quoting is left alone. -/
def splice? (r : Resolved) : Option Splice :=
  match r.field with
  | some field => some ⟨r.segment.span, field.subPattern.toList⟩
  | none =>
    let quoted := quote r.segment.text
    if quoted = r.segment.text then none else some ⟨r.segment.span, quoted⟩

end Resolved

namespace Format

/-- Compiles a format.  A malformed directive comes before every other mistake; of the
directives without a field the leftmost is reported. -/
def compile (reader : TimeReader) (format : String) : Except FormatError Format := do
  let segments ← (Segment.scan format).mapError .malformedDirective
  let resolved ← segments.mapM (Resolved.ofSegment reader)
  let fields := resolved.filterMap (·.field)
  let written := String.ofList (spliceAll format.toList (resolved.filterMap (·.splice?)))
  let line ← (LinePattern.read written).mapError .invalidPattern
  if line.groups = fields.length then .ok ⟨format, fields, written, line⟩
  else .error (.groupCountMismatch line.groups fields.length)

/-- Names made distinct: the second and later ones that are the same get their number,
counted among those before. -/
def numbered (before : List String) : List String → List String
  | [] => []
  | name :: names =>
    let count := before.count name
    (if count = 0 then name else s!"{name}_{count + 1}") :: numbered (name :: before) names

/-- The names of the columns, one for each field. -/
def columnNames (f : Format) : List String :=
  numbered [] (f.fields.map (·.name))

end Format

end LogFormat
