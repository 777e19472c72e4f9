import LogFormat.Text.Decimal

/-!
# Directive words

A directive word is `%`, then optionally a status filter, which is an optional `!` and
one or more three-digit numbers with commas between them, then optionally `<` or `>`,
then optionally a non-empty parameter in braces, and last the key, a letter or `%`.
At each point the next character decides which part comes next, so a word is read
from left to right without a second try.
-/

namespace LogFormat

/-- Which request of a chain of internal redirections a directive looks at: the first,
as it came in, or the last, which was answered. -/
inductive Position where
  | first
  | last
deriving Repr, DecidableEq

/-- What a directive word says. -/
structure Directive where
  key : Char
  parameter : Option String
  inverse : Bool
  statuses : List Nat
  position : Option Position
deriving Repr, DecidableEq

namespace Directive

/-- A status number: exactly three digits. -/
def readStatus? : List Char → Option (Nat × List Char)
  | a :: b :: c :: rest =>
    if a.isDigit && b.isDigit && c.isDigit then some (digitsValue [a, b, c], rest) else none
  | _ => none

/-- The further numbers of a filter, each after a comma. -/
def readStatuses : List Char → List Nat × List Char
  | ',' :: a :: b :: c :: rest =>
    if a.isDigit && b.isDigit && c.isDigit then
      let (statuses, rest) := readStatuses rest
      (digitsValue [a, b, c] :: statuses, rest)
    else
      ([], ',' :: a :: b :: c :: rest)
  | cs => ([], cs)

/-- The numbers of a filter, if one stands here. -/
def readFilter? (cs : List Char) : Option (List Nat × List Char) :=
  (readStatus? cs).map fun (status, rest) =>
    let (statuses, rest) := readStatuses rest
    (status :: statuses, rest)

/-- The filter with its optional `!`; without numbers nothing is taken. -/
def readCondition (cs : List Char) : (Bool × List Nat) × List Char :=
  match cs with
  | '!' :: ds =>
    match readFilter? ds with
    | some (statuses, rest) => ((true, statuses), rest)
    | none => ((false, []), cs)
  | _ =>
    match readFilter? cs with
    | some (statuses, rest) => ((false, statuses), rest)
    | none => ((false, []), cs)

/-- The optional position sign. -/
def readPosition : List Char → Option Position × List Char
  | '<' :: rest => (some .first, rest)
  | '>' :: rest => (some .last, rest)
  | cs => (none, cs)

/-- The optional parameter, which ends at the first closing brace. -/
def readParameter (cs : List Char) : Option String × List Char :=
  match cs with
  | '\x7b' :: ds =>
    match ds.takeWhile (· != '\x7d'), ds.dropWhile (· != '\x7d') with
    | c :: name, '\x7d' :: rest => (some (String.ofList (c :: name)), rest)
    | _, _ => (none, cs)
  | _ => (none, cs)

/-- Whether a character can be the key of a directive. -/
def isKey (c : Char) : Bool :=
  c.isAlpha || c == '%'

/-- Reads the rest of a directive word after its `%`. -/
def read? (cs : List Char) : Option (Directive × List Char) :=
  let condition := readCondition cs
  let position := readPosition condition.2
  let parameter := readParameter position.2
  match parameter.2 with
  | c :: rest =>
    if isKey c then
      some (⟨c, parameter.1, condition.1.1, condition.1.2, position.1⟩, rest)
    else
      none
  | [] => none

theorem readStatus?_suffix {cs rest : List Char} {n : Nat}
    (h : readStatus? cs = some (n, rest)) :
  rest <:+ cs
  := by
  unfold readStatus? at h
  split at h
  · next a b c rest =>
    split at h
    · cases h
      exact ⟨[a, b, c], rfl⟩
    · cases h
  · cases h

theorem readStatuses_suffix (cs : List Char) :
  (readStatuses cs).2 <:+ cs
  := by
  fun_induction readStatuses cs with
  | case1 a b c rest h statuses rest' eq ih =>
    rw [eq] at ih
    exact ih.trans ⟨[',', a, b, c], rfl⟩
  | case2 => apply List.suffix_refl
  | case3 => apply List.suffix_refl

theorem readFilter?_suffix {cs rest : List Char} {statuses : List Nat}
    (h : readFilter? cs = some (statuses, rest)) :
  rest <:+ cs
  := by
  obtain ⟨⟨n, ds⟩, hn, he⟩ := Option.map_eq_some_iff.1 h
  cases he
  exact (readStatuses_suffix ds).trans (readStatus?_suffix hn)

theorem readCondition_suffix (cs : List Char) :
  (readCondition cs).2 <:+ cs
  := by
  unfold readCondition
  split
  · split
    · next h => exact (readFilter?_suffix h).trans (List.suffix_cons _ _)
    · apply List.suffix_refl
  · split
    · next h => exact readFilter?_suffix h
    · apply List.suffix_refl

theorem readPosition_suffix (cs : List Char) :
  (readPosition cs).2 <:+ cs
  := by
  unfold readPosition
  split
  · apply List.suffix_cons
  · apply List.suffix_cons
  · apply List.suffix_refl

theorem readParameter_suffix (cs : List Char) :
  (readParameter cs).2 <:+ cs
  := by
  unfold readParameter
  split
  · next ds =>
    split
    · next rest _ h =>
      have hrest : '\x7d' :: rest <:+ ds := h ▸ List.dropWhile_suffix _
      exact ((List.suffix_cons _ _).trans hrest).trans (List.suffix_cons _ _)
    · apply List.suffix_refl
  · apply List.suffix_refl

/-- A directive word ends with its key. -/
theorem read?_suffix {cs rest : List Char} {d : Directive}
    (h : read? cs = some (d, rest)) :
  d.key :: rest <:+ cs
  := by
  simp only [read?] at h
  split at h
  · next c rest hc =>
    split at h
    · cases h
      rw [← hc]
      apply (readParameter_suffix _).trans
      apply (readPosition_suffix _).trans
      apply readCondition_suffix
    · cases h
  · cases h

/-- A directive word takes at least its key. -/
theorem read?_length_lt {cs rest : List Char} {d : Directive}
    (h : read? cs = some (d, rest)) :
  rest.length < cs.length
  := (read?_suffix h).length_le

end Directive

end LogFormat
