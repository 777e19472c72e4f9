import LogFormat.Directive.Segment

/-!
# Splices

A splice replaces a range of a text.  Several splices are given by their ranges in the
text as it was before any of them; they are made from left to right, and the ranges of
those still to come are moved by as much as the text has grown or shrunk so far.
-/

namespace LogFormat

/-- A range of a text and what it is replaced by. -/
structure Splice where
  span : Span
  text : List Char
deriving Repr, DecidableEq

/-- The text with the range from `start` to `stop` replaced. -/
def replaceBytes (cs : List Char) (start stop : Nat) (text : List Char) : List Char :=
  (cutBytes start cs).1 ++ text ++ (cutBytes stop cs).2

/-- A text in which some splices have been made, and by how much it has grown. -/
structure Spliced where
  text : List Char
  drift : Int

/-- Where a position of the text before the splices is now. -/
def Spliced.moved (s : Spliced) (position : Nat) : Nat :=
  (position + s.drift).toNat

/-- Makes one splice more. -/
def Spliced.splice (s : Spliced) (p : Splice) : Spliced :=
  ⟨replaceBytes s.text (s.moved p.span.start) (s.moved p.span.stop) p.text,
    s.drift + (utf8Length p.text - (p.span.stop - p.span.start : Int))⟩

/-- The text with all splices made, in their order. -/
def spliceAll (cs : List Char) (splices : List Splice) : List Char :=
  (splices.foldl Spliced.splice ⟨cs, 0⟩).text

end LogFormat
