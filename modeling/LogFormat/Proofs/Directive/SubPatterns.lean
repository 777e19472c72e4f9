import LogFormat.Directive.Table
import LogFormat.Proofs.Pattern.Language
import LogFormat.Proofs.Pattern.Reading

/-!
# Sub-patterns as patterns

Every sub-pattern of the table, and the sub-pattern of every layout of times, is read as
one group whose body has no groups (`field?_readsGroup`).  The bodies are given by name
beside the written forms.
-/

namespace LogFormat

open Pattern Pattern.Reading

/-- One or more characters of a set. -/
def Pattern.oneOrMore (s : CharSet) (prefer : Preference) : Pattern :=
  seq (copies (one s) 1) (many s prefer)

namespace SubPattern

/-- The digits. -/
def digits : CharSet :=
  ⟨false, [.between '0' '9']⟩

/-- The hexadecimal digits. -/
def hexDigits : List SetItem :=
  [.between '0' '9', .between 'A' 'F', .between 'a' 'f']

/-- Everything but a double quote. -/
def unquoted : CharSet :=
  ⟨true, [.between '"' '"']⟩

/-- Everything but square brackets. -/
def unbracketed : CharSet :=
  ⟨true, [.between '[' '[', .between ']' ']']⟩

/-- The body of `any`. -/
def anyBody : Pattern :=
  sequence [many unquoted .shortest]

/-- The body of `nonSpace`. -/
def nonSpaceBody : Pattern :=
  sequence [many .nonblanks .longest]

/-- One to three digits. -/
def byteNumber : Pattern :=
  seq (copies (one digits) 1) (upTo .longest (one digits) 2)

/-- The body of `address`. -/
def addressBody : Pattern :=
  either
    (sequence [copies (sequence [byteNumber, one (.single '.')]) 3, byteNumber])
    (sequence [many ⟨false, hexDigits⟩ .longest, one (.single ':'),
      oneOrMore ⟨false, hexDigits ++ [.between ':' ':', .between '.' '.']⟩ .longest])

/-- A single hyphen. -/
def hyphen : Pattern :=
  sequence [one (.single '-')]

/-- The body of `integer`. -/
def integerBody : Pattern :=
  either hyphen (sequence [oneOrMore digits .longest])

/-- The body of `status`. -/
def statusBody : Pattern :=
  either (sequence [copies (one digits) 3]) hyphen

/-- The body of `method`. -/
def methodBody : Pattern :=
  either (sequence [oneOrMore ⟨false, [.between 'A' 'Z']⟩ .longest]) hyphen

/-- The body of `query`. -/
def queryBody : Pattern :=
  sequence [optional .longest
    (sequence [one (.single '?'), many ⟨true, [.blank, .between '"' '"']⟩ .longest])]

/-- The body of `path`. -/
def pathBody : Pattern :=
  either
    (sequence [one (.single '/'),
      many ⟨true, [.blank, .between '"' '"', .between '?' '?']⟩ .longest])
    hyphen

/-- The body of `connection`. -/
def connectionBody : Pattern :=
  sequence [one ⟨false, [.between 'X' 'X', .between '+' '+', .between '-' '-']⟩]

/-- The body of `percent`. -/
def percentBody : Pattern :=
  sequence [one (.single '%')]

/-- The body of `bracketedTime`. -/
def bracketedTimeBody : Pattern :=
  either
    (sequence [one (.single '['), oneOrMore unbracketed .longest, one (.single ']')])
    (sequence [oneOrMore unbracketed .longest])

/-- The body of `epoch`. -/
def epochBody : Pattern :=
  sequence [oneOrMore digits .longest]

/-- The written sub-patterns with their bodies. -/
def bodies : List (String × Pattern) :=
  [(any, anyBody), (nonSpace, nonSpaceBody), (address, addressBody), (integer, integerBody),
    (status, statusBody), (method, methodBody), (query, queryBody), (path, pathBody),
    (connection, connectionBody), (percent, percentBody),
    (bracketedTime, bracketedTimeBody), (epoch, epochBody)]

/-- Every sub-pattern is read as one group with its body. -/
theorem readsGroup_of_mem_bodies {written : String} {body : Pattern}
    (h : (written, body) ∈ bodies) :
  ReadsGroup written body
  := by
  simp only [bodies, List.mem_cons, Prod.mk.injEq, List.not_mem_nil, or_false] at h
  rcases h with ⟨rfl, rfl⟩ | ⟨rfl, rfl⟩ | ⟨rfl, rfl⟩ | ⟨rfl, rfl⟩ | ⟨rfl, rfl⟩ | ⟨rfl, rfl⟩
    | ⟨rfl, rfl⟩ | ⟨rfl, rfl⟩ | ⟨rfl, rfl⟩ | ⟨rfl, rfl⟩ | ⟨rfl, rfl⟩ | ⟨rfl, rfl⟩ <;>
    apply readsGroup_of_step rfl fun _ _ _ _ => rfl

end SubPattern

/-! ### Items of time formats -/

namespace Item

open SubPattern (digits)

/-- A sign. -/
def sign : CharSet :=
  ⟨false, [.between '+' '+', .between '-' '-']⟩

/-- The letters. -/
def letters : CharSet :=
  ⟨false, [.between 'A' 'Z', .between 'a' 'z']⟩

/-- Two digits, with a colon before them or without, and what may follow. -/
def twoDigits (more : List Pattern) : Pattern :=
  sequence ([optional .longest (one (.single ':')), copies (one digits) 2] ++ more)

/-- The parts as which the written pattern of an item is read. -/
def patterns : Item → List Pattern
  | literal text => text.map fun c => one (.single c)
  | space text => text.map fun c => one (.single c)
  | number _ _ => [many .blanks .longest, optional .longest (one sign), oneOrMore digits .longest]
  | monthName _ => [oneOrMore letters .longest]
  | weekdayName _ => [oneOrMore letters .longest]
  | halfDay _ =>
    [one ⟨false, [.between 'A' 'A', .between 'a' 'a', .between 'P' 'P', .between 'p' 'p']⟩,
      one ⟨false, [.between 'M' 'M', .between 'm' 'm']⟩]
  | fraction _ =>
    [optional .longest (sequence [one (.single '.'), oneOrMore digits .longest])]
  | fractionDigits _ => [oneOrMore .anyButLineFeed .shortest]
  | zoneName => [oneOrMore .nonblanks .longest]
  | offset _ =>
    [either (sequence [one (.single 'Z')])
      (sequence [one sign, copies (one digits) 2,
        optional .longest (twoDigits [optional .longest (twoDigits [])])])]
  | looseOffset => [oneOrMore .anyButLineFeed .shortest]
  | dateTime => [oneOrMore .anyButLineFeed .shortest]

/-- The written pattern of an item is read as its parts. -/
theorem reads_written (item : Item) :
  Reads item.written (fun _ => item.patterns) 0
  := by
  cases item with
  | literal text => exact reads_quote text
  | space text => exact reads_quote text
  | _ =>
    rintro ⟨outer, level, operand, g, mode⟩ rfl
    exact ⟨_, rfl, rfl, rfl, rfl, rfl⟩

/-- The written patterns of items one after the other are read as all their parts. -/
theorem reads_flatMap_written (items : List Item) :
  Reads (items.flatMap written) (fun _ => items.flatMap patterns) 0
  := by
  induction items with
  | nil => exact reads_nil
  | cons item items ih => exact item.reads_written.append ih

/-- The parts of an item have no groups. -/
theorem groupless_of_mem_patterns {item : Item} {p : Pattern} (h : p ∈ item.patterns) :
  p.groupless
  := by
  cases item with
  | literal text =>
    obtain ⟨c, -, rfl⟩ := List.mem_map.1 h
    rfl
  | space text =>
    obtain ⟨c, -, rfl⟩ := List.mem_map.1 h
    rfl
  | _ =>
    simp only [patterns, List.mem_cons, List.not_mem_nil, or_false] at h
    rcases h with rfl | rfl | rfl <;> rfl

/-- The written patterns of items do not begin with a question mark. -/
theorem head?_flatMap_written_ne (items : List Item) :
  (items.flatMap written).head? ≠ some '?'
  := by
  induction items with
  | nil => simp
  | cons item items ih =>
    have hitem : item.written.head? ≠ some '?' := by
      cases item with
      | literal text => exact head?_quote_ne text
      | space text => exact head?_quote_ne text
      | _ => exact ne_of_beq_false rfl
    rw [List.flatMap_cons, List.head?_append]
    cases h : item.written.head? with
    | none => simpa using ih
    | some c => simpa [h] using hitem

end Item

/-! ### Fields -/

/-- The sub-pattern of a layout of items is read as one group of their parts. -/
theorem Layout.readsGroup_items (text : String) (items : List Item) :
  ReadsGroup (strftime text items).subPattern (sequence (items.flatMap Item.patterns))
  := by
  constructor
  · apply groupless_sequence
    intro p hp
    obtain ⟨item, -, hp⟩ := List.mem_flatMap.1 hp
    apply Item.groupless_of_mem_patterns hp
  · rw [subPattern, String.toList_ofList]
    apply (Item.reads_flatMap_written items).brackets (Item.head?_flatMap_written_ne items)

/-- The sub-pattern of a layout is read as one group. -/
theorem Layout.readsGroup_subPattern (l : Layout) :
  ∃ body, ReadsGroup l.subPattern body
  := by
  cases l with
  | commonLog =>
    use SubPattern.bracketedTimeBody
    apply SubPattern.readsGroup_of_mem_bodies
    simp [subPattern, SubPattern.bodies]
  | epoch unit =>
    use SubPattern.epochBody
    apply SubPattern.readsGroup_of_mem_bodies
    simp [subPattern, SubPattern.bodies]
  | strftime text items =>
    use sequence (items.flatMap Item.patterns)
    apply Layout.readsGroup_items

/-- The sub-patterns that stand in the table. -/
def FieldMaker.subPattern? : FieldMaker → Option String
  | .text subPattern => some subPattern
  | .integer subPattern => some subPattern
  | .timestamp => none

/-- The sub-patterns that stand in the table are those that have bodies. -/
theorem mem_bodies_of_mem_directiveTable {e : TableEntry} (he : e ∈ directiveTable)
    {written : String} (h : e.maker.subPattern? = some written) :
  written ∈ SubPattern.bodies.map (·.1)
  := by
  have hall : ∀ e ∈ directiveTable,
      e.maker.subPattern?.all (· ∈ SubPattern.bodies.map (·.1)) := by decide
  simpa [h] using hall e he

/-- The sub-pattern of the field of a directive is read as one group. -/
theorem TableEntry.field?_readsGroup {e : TableEntry} (he : e ∈ directiveTable)
    {reader : TimeReader} {parameter : Option String} {field : Field}
    (h : e.field? reader parameter = .ok field) :
  ∃ body, ReadsGroup field.subPattern body
  := by
  have htable : ∀ written, e.maker.subPattern? = some written →
      ∃ body, ReadsGroup written body := by
    intro written hw
    obtain ⟨⟨_, body⟩, hmem, rfl⟩ := List.mem_map.1 (mem_bodies_of_mem_directiveTable he hw)
    exact ⟨body, SubPattern.readsGroup_of_mem_bodies hmem⟩
  rw [field?] at h
  split at h
  · next written hmaker =>
    cases h
    apply htable written (by rw [hmaker]; rfl)
  · next written hmaker =>
    cases h
    apply htable written (by rw [hmaker]; rfl)
  · cases hl : Layout.ofParameter parameter with
    | error fault =>
      rw [hl] at h
      cases h
    | ok layout =>
      rw [hl] at h
      cases h
      apply layout.readsGroup_subPattern

end LogFormat
