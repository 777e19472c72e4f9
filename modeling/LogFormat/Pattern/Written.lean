import LogFormat.Pattern.Line
import LogFormat.Text.Decimal

/-!
# Written patterns

The usual notation for patterns.  Most characters stand for themselves; `.` is any
character but the line feed; `\s` and `\S` are the blank and the other characters; a
set is written `[…]` or `[^…]`, with ranges; `|` separates alternatives; `(…)` is a
numbered group and `(?:…)` only brackets; `*`, `+`, `?`, `{n}`, `{n,}` and `{n,m}`
repeat what stands before them, and a `?` after one of these prefers fewer
repetitions.  Only single characters and sets can be repeated without a bound.

A written pattern is read from left to right, one character at a time:
`Reading.step` takes a reading one character further.  So reading a text that is
put together from parts is reading the parts one after the other.  `quote` writes a
text so that it is read as the pattern of just that text.
-/

namespace LogFormat

/-- The characters with a meaning of their own in written patterns. -/
def isSpecial (c : Char) : Bool :=
  ['\\', '.', '+', '*', '?', '(', ')', '|', '[', ']', '\x7b', '\x7d', '^', '$', '#', '&',
    '-', '~'].contains c

/-- The text with a backslash before each special character. -/
def quote (cs : List Char) : List Char :=
  cs.flatMap fun c => if isSpecial c then ['\\', c] else [c]

/-- What is wrong with a written pattern. -/
inductive PatternError where
  | unclosedGroup
  | unopenedGroup
  | unclosedSet
  | emptySet
  | badRange (first last : Char)
  | nothingToRepeat
  | unboundedRepetition
  | badCount
  | unfinished
  | unsupported (c : Char)
deriving Repr, DecidableEq

/-- A description of the mistake. -/
def PatternError.message : PatternError → String
  | .unclosedGroup => "unclosed group"
  | .unopenedGroup => "unopened group"
  | .unclosedSet => "unclosed character class"
  | .emptySet => "empty character class"
  | .badRange first last => s!"invalid character range {first}-{last}"
  | .nothingToRepeat => "repetition operator missing expression"
  | .unboundedRepetition => "unbounded repetition of more than a character"
  | .badCount => "invalid repetition count"
  | .unfinished => "unfinished pattern"
  | .unsupported c => s!"unsupported construct at {c}"

namespace Pattern

/-- What a repetition sign would apply to.  After such a sign both preferences are kept,
since the next character decides between them. -/
inductive Operand where
  | nothing
  | item (p : Pattern)
  | repeated (longest shortest : Pattern)

/-- The pattern of an operand that nothing more is said about. -/
def Operand.pattern : Operand → Pattern
  | .nothing => empty
  | .item p => p
  | .repeated longest _ => longest

/-- What has been read inside one pair of brackets: the number of the group, the
alternatives before the present one, and the present one so far. -/
structure Level where
  group : Option Nat
  earlier : Option Pattern
  sequence : Pattern

namespace Level

/-- The level at its start. -/
def start (group : Option Nat) : Level :=
  ⟨group, none, empty⟩

/-- The pattern of the level, if nothing more follows. -/
def pattern (l : Level) : Pattern :=
  match l.earlier with
  | none => l.sequence
  | some p => either p l.sequence

/-- The level with one more part in its present alternative. -/
def push (l : Level) (operand : Operand) : Level :=
  match operand with
  | .nothing => l
  | operand => ⟨l.group, l.earlier, seq l.sequence operand.pattern⟩

/-- The level at the start of a further alternative. -/
def split (l : Level) : Level :=
  ⟨l.group, some l.pattern, empty⟩

/-- The pattern of the finished level with its brackets. -/
def close (l : Level) : Pattern :=
  match l.group with
  | none => l.pattern
  | some i => Pattern.group i l.pattern

end Level

/-- What has been read of a set: whether it is negated, the items so far, a character
that may yet begin a range, and whether the sign of the range has been read. -/
structure SetReading where
  negated : Bool
  items : List SetItem
  first : Option Char
  ranged : Bool

namespace SetReading

/-- A set at its start. -/
def start : SetReading :=
  ⟨false, [], none, false⟩

/-- The items with those that the held characters stand for. -/
def settled (s : SetReading) : List SetItem :=
  match s.first, s.ranged with
  | none, _ => s.items
  | some c, false => s.items ++ [.between c c]
  | some c, true => s.items ++ [.between c c, .between '-' '-']

/-- The set with one more character. -/
def char (s : SetReading) (c : Char) : Except PatternError SetReading :=
  match s.first, s.ranged with
  | some first, true =>
    if first.toNat ≤ c.toNat then
      .ok ⟨s.negated, s.items ++ [.between first c], none, false⟩
    else
      .error (.badRange first c)
  | _, _ => .ok ⟨s.negated, s.settled, some c, false⟩

/-- The set with one more class of characters. -/
def item (s : SetReading) (i : SetItem) : Except PatternError SetReading :=
  if s.ranged then .error .unfinished
  else .ok ⟨s.negated, s.settled ++ [i], none, false⟩

/-- The set after a `-`, which is a range sign between two characters and otherwise
stands for itself. -/
def dash (s : SetReading) : Except PatternError SetReading :=
  if s.first.isSome && !s.ranged then .ok ⟨s.negated, s.items, s.first, true⟩
  else s.char '-'

/-- The finished set. -/
def close (s : SetReading) : Except PatternError CharSet :=
  if s.settled = [] then .error .emptySet else .ok ⟨s.negated, s.settled⟩

end SetReading

/-- What the next character belongs to. -/
inductive Mode where
  | plain
  | escaped
  | opened
  | openedMark
  | setStart
  | set (s : SetReading)
  | setEscaped (s : SetReading)
  | count (least : Option Nat) (digits : List Char)

/-- A written pattern read in part: the open brackets from the inside out, the last part
read, and the number of groups so far. -/
structure Reading where
  outer : List Level
  level : Level
  operand : Operand
  groups : Nat
  mode : Mode

namespace Reading

/-- Nothing read yet. -/
def start : Reading :=
  ⟨[], Level.start none, .nothing, 0, .plain⟩

/-- The reading with one more part, in the plain mode. -/
def push (r : Reading) (p : Pattern) : Reading :=
  ⟨r.outer, r.level.push r.operand, .item p, r.groups, .plain⟩

/-- The reading inside a new pair of brackets. -/
def enter (r : Reading) (group : Option Nat) (groups : Nat) : Reading :=
  ⟨r.level.push r.operand :: r.outer, Level.start group, .nothing, groups, .plain⟩

/-- The reading after a repetition sign, given what the sign makes of a pattern. -/
def repeatWith (r : Reading) (f : Preference → Pattern → Except PatternError Pattern) :
    Except PatternError Reading := do
  match r.operand with
  | .item p =>
    let longest ← f .longest p
    let shortest ← f .shortest p
    .ok ⟨r.outer, r.level, .repeated longest shortest, r.groups, .plain⟩
  | _ => .error .nothingToRepeat

/-- Any number of repetitions; only of a set of characters. -/
def manyOf (prefer : Preference) : Pattern → Except PatternError Pattern
  | one s => .ok (many s prefer)
  | _ => .error .unboundedRepetition

/-- At least `least` and, if there is a bound, at most `most` repetitions. -/
def countOf (least : Nat) (most : Option Nat) (prefer : Preference) (p : Pattern) :
    Except PatternError Pattern :=
  match most with
  | none => (manyOf prefer p).map (seq (copies p least))
  | some most =>
    if least ≤ most then
      if least = most then .ok (copies p least)
      else .ok (seq (copies p least) (upTo prefer p (most - least)))
    else
      .error .badCount

/-- One character further outside of sets, escapes and counts. -/
def plainStep (r : Reading) (c : Char) : Except PatternError Reading :=
  match c with
  | '\\' => .ok { r with mode := .escaped }
  | '.' => .ok (r.push (one .anyButLineFeed))
  | '[' => .ok { r with mode := .setStart }
  | '(' => .ok { r with mode := .opened }
  | ')' =>
    match r.outer with
    | [] => .error .unopenedGroup
    | level :: outer =>
      .ok ⟨outer, level, .item (r.level.push r.operand).close, r.groups, .plain⟩
  | '|' => .ok { r with level := (r.level.push r.operand).split, operand := .nothing }
  | '*' => r.repeatWith manyOf
  | '+' => r.repeatWith (countOf 1 none)
  | '?' =>
    match r.operand with
    | .repeated _ shortest =>
      .ok { r with level := r.level.push (.item shortest), operand := .nothing }
    | _ => r.repeatWith fun prefer p => .ok (optional prefer p)
  | '\x7b' => .ok { r with mode := .count none [] }
  | '^' | '$' => .error (.unsupported c)
  | c => .ok (r.push (one (.single c)))

/-- One character further in a set. -/
def setStep (r : Reading) (s : SetReading) (c : Char) : Except PatternError Reading :=
  match c with
  | ']' => do .ok (r.push (one (← s.close)))
  | '\\' => .ok { r with mode := .setEscaped s }
  | '-' => do .ok { r with mode := .set (← s.dash) }
  | '[' => .error (.unsupported c)
  | c => do .ok { r with mode := .set (← s.char c) }

/-- One character further. -/
def step (r : Reading) (c : Char) : Except PatternError Reading :=
  match r.mode with
  | .plain => r.plainStep c
  | .escaped =>
    if c = 's' then .ok (r.push (one .blanks))
    else if c = 'S' then .ok (r.push (one .nonblanks))
    else if isSpecial c then .ok (r.push (one (.single c)))
    else .error (.unsupported c)
  | .opened =>
    if c = '?' then .ok { r with mode := .openedMark }
    else (r.enter (some (r.groups + 1)) (r.groups + 1)).plainStep c
  | .openedMark =>
    if c = ':' then .ok (r.enter none r.groups) else .error (.unsupported c)
  | .setStart =>
    if c = '^' then .ok { r with mode := .set { SetReading.start with negated := true } }
    else r.setStep SetReading.start c
  | .set s => r.setStep s c
  | .setEscaped s =>
    if c = 's' then do .ok { r with mode := .set (← s.item .blank) }
    else if c = 'S' then do .ok { r with mode := .set (← s.item .nonblank) }
    else if isSpecial c then do .ok { r with mode := .set (← s.char c) }
    else .error (.unsupported c)
  | .count least digits =>
    if c.isDigit then .ok { r with mode := .count least (digits ++ [c]) }
    else if c = ',' then
      match least, readNat? digits with
      | none, some n => .ok { r with mode := .count (some n) [] }
      | _, _ => .error .badCount
    else if c = '\x7d' then
      match least, readNat? digits with
      | none, some n => r.repeatWith (countOf n (some n))
      | some n, some m => r.repeatWith (countOf n (some m))
      | some n, none => r.repeatWith (countOf n none)
      | none, none => .error .badCount
    else .error .badCount

/-- The pattern that has been read, if the text ends here. -/
def finish (r : Reading) : Except PatternError LinePattern :=
  match r.mode, r.outer with
  | .plain, [] => .ok ⟨(r.level.push r.operand).pattern, r.groups⟩
  | .plain, _ :: _ => .error .unclosedGroup
  | .opened, _ => .error .unclosedGroup
  | .openedMark, _ => .error .unclosedGroup
  | .setStart, _ => .error .unclosedSet
  | .set _, _ => .error .unclosedSet
  | .setEscaped _, _ => .error .unclosedSet
  | _, _ => .error .unfinished

end Reading

end Pattern

/-- Reads a written pattern. -/
def LinePattern.read (text : String) : Except PatternError LinePattern := do
  (← text.toList.foldlM Pattern.Reading.step Pattern.Reading.start).finish

end LogFormat
