import LogFormat.Toml.Scalar

/-!
# TOML documents

A document is read line by line.  Arrays and tables in line can be nested, to a depth of
eighty at most, and can extend over several lines: between any two of their parts there
may be line ends and comments, but a dotted key stands on one line.  A key has at most
eighty parts.
-/

namespace LogFormat.Toml

/-- The greatest depth of nesting, and the greatest number of parts of a key. -/
def maxDepth : Nat := 80

mutual

/-- Reads a value.  `fuel` bounds the number of steps, and `depth` the nesting. -/
def value? (fuel depth : Nat) (cs : List Char) : Option (Value × List Char) :=
  match fuel, cs with
  | 0, _ => none
  | fuel + 1, '[' :: rest =>
    match depth with
    | 0 => none
    | depth + 1 => do
      let (items, rest) ← items? fuel depth (← skipFill false rest)
      return (.array items, rest)
  | fuel + 1, '\x7b' :: rest =>
    match depth with
    | 0 => none
    | depth + 1 => do
      let (entries, rest) ← entries? fuel depth [] (← skipFill false rest)
      return (.table .inline entries, rest)
  | _ + 1, cs =>
    match cs with
    | '"' :: _ => (string? cs).map fun (text, rest) => (.string (String.ofList text), rest)
    | '\'' :: _ => (string? cs).map fun (text, rest) => (.string (String.ofList text), rest)
    | _ => scalarValue? cs

/-- Reads the items of an array up to its closing bracket; a comma may follow the last. -/
def items? (fuel depth : Nat) (cs : List Char) : Option (List Value × List Char) :=
  match fuel, cs with
  | 0, _ => none
  | _ + 1, ']' :: rest => some ([], rest)
  | fuel + 1, cs => do
    let (item, rest) ← value? fuel depth cs
    match ← skipFill false rest with
    | ']' :: rest => return ([item], rest)
    | ',' :: rest =>
      let (items, rest) ← items? fuel depth (← skipFill false rest)
      return (item :: items, rest)
    | _ => none

/-- Reads the entries of a table in line up to its closing brace, after those already
read. -/
def entries? (fuel depth : Nat) (t : Entries) (cs : List Char) :
    Option (Entries × List Char) :=
  match fuel, cs with
  | 0, _ => none
  | _ + 1, '\x7d' :: rest => some (t, rest)
  | fuel + 1, cs => do
    let ((path, key), rest) ← key? maxDepth cs
    match ← skipFill false rest with
    | '=' :: rest =>
      let (value, rest) ← value? fuel depth (← skipFill false rest)
      let t ← t.assign path key value
      match ← skipFill false rest with
      | '\x7d' :: rest => return (t, rest)
      | ',' :: rest => entries? fuel depth t (← skipFill false rest)
      | _ => none
    | _ => none

end

/-- A statement of a document. -/
inductive Statement where
  | blank
  | header (path : List String) (key : String)
  | element (path : List String) (key : String)
  | assignment (path : List String) (key : String) (value : Value)
deriving Repr

/-- Reads one statement, without the end of its line. -/
def statement? (cs : List Char) : Option (Statement × List Char) :=
  match skipSpace cs with
  | [] => some (.blank, [])
  | '\n' :: rest => some (.blank, '\n' :: rest)
  | '\r' :: rest => some (.blank, '\r' :: rest)
  | '#' :: rest => some (.blank, '#' :: rest)
  | '[' :: '[' :: rest => do
    let ((path, key), rest) ← key? maxDepth rest
    match rest with
    | ']' :: ']' :: rest => return (.element path key, rest)
    | _ => none
  | '[' :: rest => do
    let ((path, key), rest) ← key? maxDepth rest
    match rest with
    | ']' :: rest => return (.header path key, rest)
    | _ => none
  | cs => do
    let ((path, key), rest) ← key? maxDepth cs
    match rest with
    | '=' :: rest =>
      let (value, rest) ← value? rest.length maxDepth (skipSpace rest)
      return (.assignment path key value, rest)
    | _ => none

/-- A document read in part: its table, and the name of the open table. -/
structure Reading where
  root : Entries
  current : List String

namespace Reading

/-- Makes one statement. -/
def make (r : Reading) : Statement → Option Reading
  | .blank => some r
  | .header path key => do return ⟨← r.root.openTable path key, path ++ [key]⟩
  | .element path key => do return ⟨← r.root.openElement path key, path ++ [key]⟩
  | .assignment path key value => do
    let root ← Entries.change false (fun _ inner => inner.assign path key value) .header
      r.root r.current
    return ⟨root, r.current⟩

/-- Reads at most `lines` statements, each on lines of its own. -/
def statements? (r : Reading) : Nat → List Char → Option Reading
  | 0, _ => none
  | lines + 1, cs => do
    let (statement, rest) ← statement? cs
    let r ← r.make statement
    match ← endLine rest with
    | [] => return r
    | rest => r.statements? lines rest

end Reading

/-- Reads a document; a byte order mark before it does not count. -/
def document? (text : String) : Option Entries :=
  let cs :=
    match text.toList with
    | '\ufeff' :: cs => cs
    | cs => cs
  (Reading.statements? ⟨[], []⟩ (cs.length + 1) cs).map (·.root)

end LogFormat.Toml
