import LogFormat.Pattern.Basic
import LogFormat.Text.Bytes

/-!
# Matching whole lines

A line is matched from end to end.  A place in a line of `n` characters is one of
`0, …, n`.  A place is live if what is left of the pattern can match what is left of the
line.  `Pattern.live` computes the live places before a pattern from those after it,
always in ascending order, and `Pattern.follow` then walks along the line, taking at
every choice the preferred way that leads to a live place.  So the match found is the
first one in the order of preference, and the time spent is at most proportional to the
size of the pattern times the length of the line.
-/

namespace LogFormat

/-- A part of a line that a group matched; `start` is its position in bytes. -/
structure Capture where
  start : Nat
  text : List Char
deriving Repr, DecidableEq

/-- The position in bytes just after a capture. -/
def Capture.stop (c : Capture) : Nat :=
  c.start + utf8Length c.text

namespace Pattern

/-- Puts a place before places already found, and the places before it for as long as
the characters between are in `s`; `stop` and the places before it are left out. -/
def liveRun (s : CharSet) (text : Array Char) (stop : Option Nat) :
    Nat → List Nat → List Nat
  | 0, found => 0 :: found
  | i + 1, found =>
    if text[i]?.any s.has && some i != stop then liveRun s text stop i ((i + 1) :: found)
    else (i + 1) :: found

/-- The live places before a repetition of characters of `s`, put before those already
found: the live places after it, which are given in descending order, and those from
which a run of such characters leads to one of them. -/
def liveRuns (s : CharSet) (text : Array Char) : List Nat → List Nat → List Nat
  | [], found => found
  | i :: places, found =>
    liveRuns s text places (liveRun s text places.head? i found)

/-- Ascending places with each of them once. -/
def distinct (places : List Nat) : List Nat :=
  places.foldr (fun i found => if found.head? = some i then found else i :: found) []

/-- The places from which the pattern can match up to a place in `after`. -/
def live : Pattern → Array Char → List Nat → List Nat
  | empty, _, after => after
  | one s, text, after =>
    after.filterMap fun
      | 0 => none
      | i + 1 => if text[i]?.any s.has then some i else none
  | seq p q, text, after => p.live text (q.live text after)
  | either p q, text, after =>
    distinct ((p.live text after).merge (q.live text after) Nat.ble)
  | many s _, text, after => liveRuns s text after.reverse []
  | group _ p, text, after => p.live text after

/-- The end of the run of at most `most` characters of `s` that begins at a place. -/
def runEnd (s : CharSet) (text : Array Char) : Nat → Nat → Nat
  | 0, i => i
  | most + 1, i => if text[i]?.any s.has then runEnd s text most (i + 1) else i

/-- What a pattern took: where it stopped, and the groups with the places where each
began and stopped. -/
structure Taken where
  stop : Nat
  groups : List (Nat × Nat × Nat)

/-- Walks along the line from the place `i` by the preferred way to a place in `after`;
there has to be one. -/
def follow : Pattern → Array Char → List Nat → Nat → Taken
  | empty, _, _, i => ⟨i, []⟩
  | one _, _, _, i => ⟨i + 1, []⟩
  | seq p q, text, after, i =>
    let first := p.follow text (q.live text after) i
    let second := q.follow text after first.stop
    ⟨second.stop, first.groups ++ second.groups⟩
  | either p q, text, after, i =>
    if (p.live text after).contains i then p.follow text after i
    else q.follow text after i
  | many s .longest, text, after, i =>
    let last := runEnd s text (text.size - i) i
    ⟨(after.filter fun j => i ≤ j && j ≤ last).max?.getD i, []⟩
  | many _ .shortest, _, after, i => ⟨(after.filter (i ≤ ·)).min?.getD i, []⟩
  | group g p, text, after, i =>
    let body := p.follow text after i
    ⟨body.stop, (g, i, body.stop) :: body.groups⟩

/-- The part of a line between two places. -/
def captured (text : Array Char) (first last : Nat) : Capture :=
  ⟨utf8Length (text.extract 0 first).toList, (text.extract first last).toList⟩

/-- The captures of the preferred match of the whole of `cs`, if there is a match. -/
def captures? (p : Pattern) (cs : List Char) : Option (List (Nat × Capture)) :=
  let text := cs.toArray
  if (p.live text [text.size]).contains 0 then
    some ((p.follow text [text.size] 0).groups.map fun (g, first, last) =>
      (g, captured text first last))
  else
    none

end Pattern

/-- A pattern for whole lines, with the number of its groups. -/
structure LinePattern where
  pattern : Pattern
  groups : Nat
deriving Repr, DecidableEq

namespace LinePattern

/-- For a line that matches, what each group took part with, from group 1 on; a group
that a repetition visits more than once keeps its last part. -/
def captures? (l : LinePattern) (line : String) : Option (List (Option Capture)) :=
  (l.pattern.captures? line.toList).map fun found =>
    (List.range l.groups).map fun i =>
      (found.reverse.find? (·.1 == i + 1)).map (·.2)

end LinePattern

end LogFormat
