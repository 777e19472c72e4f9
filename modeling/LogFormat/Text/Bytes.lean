/-!
# Texts and bytes

Positions in a text are counted in bytes of its UTF-8 form.  `utf8Length` is the
length so counted, `cutBytes` divides a text at such a position, and `decode` reads
bytes as a text where they are the UTF-8 form of one.
-/

namespace LogFormat

/-- A finite run of bytes. -/
abbrev Bytes := List UInt8

/-- The number of bytes in the UTF-8 form of a text. -/
def utf8Length (cs : List Char) : Nat :=
  cs.foldr (fun c n => c.utf8Size + n) 0

@[simp]
theorem utf8Length_nil :
  utf8Length [] = 0
  := rfl

@[simp]
theorem utf8Length_cons (c : Char) (cs : List Char) :
  utf8Length (c :: cs) = c.utf8Size + utf8Length cs
  := rfl

@[simp]
theorem utf8Length_append (cs ds : List Char) :
  utf8Length (cs ++ ds) = utf8Length cs + utf8Length ds
  := by
  induction cs with
  | nil => simp
  | cons c cs ih => simp [ih, Nat.add_assoc]

/-- Divides a text at a position: the first part is the longest prefix of at most
`n` bytes. -/
def cutBytes (n : Nat) : List Char → List Char × List Char
  | [] => ([], [])
  | c :: cs =>
    if c.utf8Size ≤ n then
      let (before, rest) := cutBytes (n - c.utf8Size) cs
      (c :: before, rest)
    else
      ([], c :: cs)

/-- Whether the UTF-8 form of a text has fewer than `n` bytes. -/
def shorterThan (n : Nat) (cs : List Char) : Bool :=
  utf8Length (cs.take n) < n

/-- The bytes of a text. -/
def encode (text : String) : Bytes :=
  text.toUTF8.data.toList

/-- The text whose UTF-8 form the bytes are, if they are one. -/
def decode? (bytes : Bytes) : Option String :=
  String.fromUTF8? ⟨bytes.toArray⟩

end LogFormat
