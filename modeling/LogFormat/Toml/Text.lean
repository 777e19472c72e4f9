import LogFormat.Text.Decimal

/-!
# TOML texts

The characters of a TOML document, and its strings and keys.  Strings are basic, with
escapes, or literal, without; either kind can extend over several lines.
-/

namespace LogFormat.Toml

/-- Whether a character is white space within a line. -/
def isSpace (c : Char) : Bool :=
  c == ' ' || c == '\t'

/-- Whether a character can stand in a comment or in a string: it is no control character
but the tab. -/
def isPlain (c : Char) : Bool :=
  c == '\t' || (0x20 ≤ c.toNat && c.toNat != 0x7F)

/-- The rest after spaces and tabs. -/
def skipSpace (cs : List Char) : List Char :=
  cs.dropWhile isSpace

/-- The rest after white space, line ends and comments; `comment` says whether a comment
is open. -/
def skipFill (comment : Bool) : List Char → Option (List Char)
  | [] => some []
  | '\n' :: cs => skipFill false cs
  | '\r' :: '\n' :: cs => skipFill false cs
  | c :: cs =>
    if comment then
      if isPlain c then skipFill true cs else none
    else if isSpace c then skipFill false cs
    else if c = '#' then skipFill true cs
    else some (c :: cs)

/-- The rest after white space, a comment and the end of the line. -/
def endLine (cs : List Char) : Option (List Char) :=
  let cs :=
    match skipSpace cs with
    | '#' :: ds => ds.dropWhile isPlain
    | ds => ds
  match cs with
  | [] => some []
  | '\n' :: rest => some rest
  | '\r' :: '\n' :: rest => some rest
  | _ => none

/-- The value of a hexadecimal digit. -/
def hexDigit? (c : Char) : Option Nat :=
  if c.isDigit then some (c.toNat - '0'.toNat)
  else if 'a'.toNat ≤ c.toNat ∧ c.toNat ≤ 'f'.toNat then some (c.toNat - 'a'.toNat + 10)
  else if 'A'.toNat ≤ c.toNat ∧ c.toNat ≤ 'F'.toNat then some (c.toNat - 'A'.toNat + 10)
  else none

/-- The character with the given number in hexadecimal digits. -/
def scalar? (digits : List Char) : Option Char := do
  let n ← digits.foldlM (fun n d => (hexDigit? d).map (16 * n + ·)) 0
  if h : n.isValidChar then some (Char.ofNatAux n h) else none

/-- The character that an escape of one letter stands for. -/
def escaped? : Char → Option Char
  | '"' => some '"'
  | '\\' => some '\\'
  | 'b' => some '\x08'
  | 'e' => some '\x1b'
  | 'f' => some '\x0c'
  | 'n' => some '\n'
  | 'r' => some '\r'
  | 't' => some '\t'
  | _ => none

/-- Puts a character before the text that is read next. -/
def prepend (c : Char) (r : Option (List Char × List Char)) : Option (List Char × List Char) :=
  r.map fun (text, rest) => (c :: text, rest)

/-- Reads a basic string after its opening quote. -/
def basicString : List Char → Option (List Char × List Char)
  | [] => none
  | '"' :: cs => some ([], cs)
  | '\\' :: 'x' :: a :: b :: cs => do prepend (← scalar? [a, b]) (basicString cs)
  | '\\' :: 'u' :: a :: b :: c :: d :: cs => do
    prepend (← scalar? [a, b, c, d]) (basicString cs)
  | '\\' :: 'U' :: a :: b :: c :: d :: e :: f :: g :: h :: cs => do
    prepend (← scalar? [a, b, c, d, e, f, g, h]) (basicString cs)
  | '\\' :: c :: cs => do prepend (← escaped? c) (basicString cs)
  | c :: cs => if isPlain c then prepend c (basicString cs) else none

/-- Reads a literal string after its opening quote. -/
def literalString (cs : List Char) : Option (List Char × List Char) :=
  match cs.dropWhile fun c => isPlain c && c != '\'' with
  | '\'' :: rest => some (cs.takeWhile (fun c => isPlain c && c != '\''), rest)
  | _ => none

/-- What follows the opening quotes of a string of several lines: a line end directly
after them does not count. -/
def afterOpening : List Char → List Char
  | '\n' :: cs => cs
  | '\r' :: '\n' :: cs => cs
  | cs => cs

/-- The end of a string of several lines, after three of its quotes: up to two more belong
to the string. -/
def closing (quote : Char) : List Char → List Char × List Char
  | a :: b :: cs =>
    if a = quote ∧ b = quote then ([quote, quote], cs)
    else if a = quote then ([quote], b :: cs)
    else ([], a :: b :: cs)
  | [a] => if a = quote then ([quote], []) else ([], [a])
  | [] => ([], [])

/-- Whether the line has only white space left. -/
def isLineDone (cs : List Char) : Bool :=
  match skipSpace cs with
  | '\n' :: _ => true
  | '\r' :: '\n' :: _ => true
  | _ => false

/-- Reads a basic string of several lines after its opening; `joining` says whether white
space is passed over after a backslash at the end of a line. -/
def basicLines (joining : Bool) : List Char → Option (List Char × List Char)
  | [] => none
  | '"' :: '"' :: '"' :: cs => some (closing '"' cs)
  | '\\' :: 'x' :: a :: b :: cs => do prepend (← scalar? [a, b]) (basicLines false cs)
  | '\\' :: 'u' :: a :: b :: c :: d :: cs => do
    prepend (← scalar? [a, b, c, d]) (basicLines false cs)
  | '\\' :: 'U' :: a :: b :: c :: d :: e :: f :: g :: h :: cs => do
    prepend (← scalar? [a, b, c, d, e, f, g, h]) (basicLines false cs)
  | '\\' :: c :: cs =>
    if isLineDone (c :: cs) then basicLines true (c :: cs)
    else do prepend (← escaped? c) (basicLines false cs)
  | '\n' :: cs => if joining then basicLines true cs else prepend '\n' (basicLines false cs)
  | '\r' :: '\n' :: cs =>
    if joining then basicLines true cs
    else prepend '\r' (prepend '\n' (basicLines false cs))
  | c :: cs =>
    if joining && isSpace c then basicLines true cs
    else if isPlain c then prepend c (basicLines false cs)
    else none

/-- Reads a literal string of several lines after its opening. -/
def literalLines : List Char → Option (List Char × List Char)
  | [] => none
  | '\'' :: '\'' :: '\'' :: cs => some (closing '\'' cs)
  | '\n' :: cs => prepend '\n' (literalLines cs)
  | '\r' :: '\n' :: cs => prepend '\r' (prepend '\n' (literalLines cs))
  | c :: cs => if isPlain c then prepend c (literalLines cs) else none

/-- Reads a string of any kind, if one begins here. -/
def string? : List Char → Option (List Char × List Char)
  | '"' :: '"' :: '"' :: cs => basicLines false (afterOpening cs)
  | '\'' :: '\'' :: '\'' :: cs => literalLines (afterOpening cs)
  | '"' :: cs => basicString cs
  | '\'' :: cs => literalString cs
  | _ => none

/-- Whether a character can stand in a key without quotes. -/
def isBare (c : Char) : Bool :=
  c.isAlphanum || c == '_' || c == '-'

/-- Reads one part of a key. -/
def keyPart? : List Char → Option (String × List Char)
  | '"' :: cs => (basicString cs).map fun (text, rest) => (String.ofList text, rest)
  | '\'' :: cs => (literalString cs).map fun (text, rest) => (String.ofList text, rest)
  | cs =>
    match cs.takeWhile isBare with
    | [] => none
    | name => some (String.ofList name, cs.drop name.length)

/-- Reads a key of at most `parts` parts with dots between them; the last part is apart. -/
def key? : Nat → List Char → Option ((List String × String) × List Char)
  | 0, _ => none
  | parts + 1, cs => do
    let (first, rest) ← keyPart? (skipSpace cs)
    match skipSpace rest with
    | '.' :: rest =>
      let ((path, last), rest) ← key? parts rest
      return ((first :: path, last), rest)
    | rest => return (([], first), rest)

end LogFormat.Toml
