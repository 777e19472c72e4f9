import LogFormat.Directive.Word
import LogFormat.Text.Bytes

/-!
# Segments of a format

A format is a sequence of directive words and of stretches of literal text between
them; `Segment.scan` divides it so.  A `%` that does not begin a directive word makes
the format malformed, and its position is the reason given.
-/

namespace LogFormat

/-- A range of positions in a text, in bytes. -/
structure Span where
  start : Nat
  stop : Nat
deriving Repr, DecidableEq

/-- A piece of a format: a directive word, or literal text. -/
structure Segment where
  start : Nat
  text : List Char
  directive : Option Directive
deriving Repr, DecidableEq

namespace Segment

/-- Where the segment stands in its format. -/
def span (s : Segment) : Span :=
  ⟨s.start, s.start + utf8Length s.text⟩

/-- Whether a character ends a stretch of literal text. -/
def isLiteral (c : Char) : Bool :=
  c != '%'

/-- Divides a format from position `start` on, or gives the position of the `%` that
begins no directive word. -/
def scanFrom (start : Nat) (cs : List Char) : Except Nat (List Segment) :=
  match cs with
  | [] => .ok []
  | '%' :: ds =>
    match _read : Directive.read? ds with
    | none => .error start
    | some (directive, rest) => do
      let text := '%' :: ds.take (ds.length - rest.length)
      let segments ← scanFrom (start + utf8Length text) rest
      .ok (⟨start, text, some directive⟩ :: segments)
  | c :: ds => do
    let text := c :: ds.takeWhile isLiteral
    let segments ← scanFrom (start + utf8Length text) (ds.dropWhile isLiteral)
    .ok (⟨start, text, none⟩ :: segments)
termination_by cs.length
decreasing_by
  · have := Directive.read?_length_lt _read
    simp only [List.length_cons]
    omega
  · have := (List.dropWhile_suffix (l := ds) isLiteral).length_le
    simp only [List.length_cons]
    omega

/-- The segments of a format, in order. -/
def scan (format : String) : Except Nat (List Segment) :=
  scanFrom 0 format.toList

end Segment

end LogFormat
