import LogFormat.Text.Blank

/-!
# Patterns

A `Pattern` describes texts: a character of a set, one pattern after another, a choice
between two, a repetition of the characters of a set, or a numbered group.  Where a
text can be divided between the parts of a pattern in several ways, the pattern says
which way it prefers: the first alternative before the second, and the longest or the
shortest repetition first.
-/

namespace LogFormat

/-- A part of the description of a set of characters. -/
inductive SetItem where
  | between (first last : Char)
  | blank
  | nonblank
deriving Repr, DecidableEq

/-- The characters that an item describes. -/
def SetItem.has : SetItem → Char → Bool
  | .between first last, c => first.toNat ≤ c.toNat && c.toNat ≤ last.toNat
  | .blank, c => isBlank c
  | .nonblank, c => !isBlank c

/-- A set of characters: those that some item describes or, if `negated`, all others. -/
structure CharSet where
  negated : Bool := false
  items : List SetItem
deriving Repr, DecidableEq

namespace CharSet

/-- Membership of a character. -/
def has (s : CharSet) (c : Char) : Bool :=
  s.items.any (·.has c) != s.negated

/-- The set of one character. -/
def single (c : Char) : CharSet :=
  ⟨false, [.between c c]⟩

/-- Every character but the line feed. -/
def anyButLineFeed : CharSet :=
  ⟨true, [.between '\n' '\n']⟩

/-- The blank characters. -/
def blanks : CharSet :=
  ⟨false, [.blank]⟩

/-- All characters but the blank ones. -/
def nonblanks : CharSet :=
  ⟨false, [.nonblank]⟩

end CharSet

/-- Which of the possible repetitions a pattern tries first. -/
inductive Preference where
  | longest
  | shortest
deriving Repr, DecidableEq

/-- A description of texts, with an order of preference among the ways to match one. -/
inductive Pattern where
  | empty
  | one (set : CharSet)
  | seq (first second : Pattern)
  | either (first second : Pattern)
  | many (set : CharSet) (prefer : Preference)
  | group (index : Nat) (body : Pattern)
deriving Repr, DecidableEq

namespace Pattern

/-- A pattern that may be left out; with `longest` leaving it out is the second choice. -/
def optional (prefer : Preference) (p : Pattern) : Pattern :=
  match prefer with
  | .longest => either p empty
  | .shortest => either empty p

/-- `n` times the same pattern, one after another. -/
def copies (p : Pattern) : Nat → Pattern
  | 0 => empty
  | n + 1 => seq (copies p n) p

/-- At most `n` times the same pattern, one after another. -/
def upTo (prefer : Preference) (p : Pattern) : Nat → Pattern
  | 0 => empty
  | n + 1 => optional prefer (seq p (upTo prefer p n))

end Pattern

end LogFormat
