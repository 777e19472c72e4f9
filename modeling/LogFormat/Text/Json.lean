import LogFormat.Text.Decimal

/-!
# JSON text

The text of a string in JSON.  A quote, a backslash and the control characters below
the space are escaped, the usual ones by a letter and the others by four hexadecimal
digits; every other character stands for itself.
-/

namespace LogFormat.Json

/-- The escaped form of a character. -/
def escape (c : Char) : List Char :=
  match c with
  | '"' => ['\\', '"']
  | '\\' => ['\\', '\\']
  | '\x08' => ['\\', 'b']
  | '\x0c' => ['\\', 'f']
  | '\n' => ['\\', 'n']
  | '\r' => ['\\', 'r']
  | '\t' => ['\\', 't']
  | c =>
    if c.toNat < 0x20 then
      ['\\', 'u', '0', '0', Nat.digitChar (c.toNat / 16), Nat.digitChar (c.toNat % 16)]
    else
      [c]

/-- A string with its quotes. -/
def string (text : List Char) : List Char :=
  '"' :: text.flatMap escape ++ ['"']

/-- Texts with commas between them. -/
def separated : List (List Char) → List Char
  | [] => []
  | [item] => item
  | item :: items => item ++ ',' :: separated items

/-- An object with the given names and texts of values, in order. -/
def object (entries : List (List Char × List Char)) : List Char :=
  '\x7b' :: separated (entries.map fun (name, value) => string name ++ ':' :: value)
    ++ ['\x7d']

end LogFormat.Json
