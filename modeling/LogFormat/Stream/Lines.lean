import LogFormat.Text.Bytes

/-!
# Lines of a byte stream

Lines end with a line feed, which is not part of them.  What follows the last line feed
is the unfinished line.
-/

namespace LogFormat

/-- The byte that ends a line. -/
def lineFeed : UInt8 := 10

/-- The byte of a carriage return. -/
def carriageReturn : UInt8 := 13

/-- The first piece of a stream divided at the line feeds, and the further pieces. -/
def divideLines (bytes : Bytes) : Bytes × List Bytes :=
  bytes.foldr
    (fun byte (first, others) =>
      if byte = lineFeed then ([], first :: others) else (byte :: first, others))
    ([], [])

/-- The finished lines of a stream. -/
def finishedLines (bytes : Bytes) : List Bytes :=
  let (first, others) := divideLines bytes
  (first :: others).dropLast

/-- The unfinished line of a stream, which is empty if the stream ends with a line feed. -/
def unfinishedLine (bytes : Bytes) : Bytes :=
  let (first, others) := divideLines bytes
  (first :: others).getLast (List.cons_ne_nil first others)

/-- Whether a line counts as blank: it is empty or a carriage return. -/
def isBlankLine (line : Bytes) : Bool :=
  line == [] || line == [carriageReturn]

end LogFormat
