/-!
# TOML values and tables

A TOML document is a table.  Its statements name places in that table: a header opens a
table, or a new element of an array of tables, and an assignment puts a value under a
key of the open table.  Each table remembers how it came about, since a table can be
opened by a header only once, and what one form has defined another may not extend.
-/

namespace LogFormat.Toml

/-- How a table came about: by a header of its own, as the parent of another table, by a
dotted key, or in line. -/
inductive Origin where
  | header
  | parent
  | dotted
  | inline
deriving Repr, DecidableEq

/-- A TOML value.  Of floats and of dates and times only the text is kept. -/
inductive Value where
  | string (text : String)
  | integer (number : Int)
  | boolean (value : Bool)
  | float (text : String)
  | dateTime (text : String)
  | array (items : List Value)
  | table (origin : Origin) (entries : List (String × Value))
  | tables (elements : List (List (String × Value)))
deriving Repr

/-- The entries of a table, in the order in which they were made. -/
abbrev Entries := List (String × Value)

namespace Entries

/-- The value under a key. -/
def get? (t : Entries) (key : String) : Option Value :=
  (t.find? (·.1 == key)).map (·.2)

/-- The entries with another value under a key that is there. -/
def replace (t : Entries) (key : String) (value : Value) : Entries :=
  t.map fun entry => if entry.1 == key then (key, value) else entry

/-- The entries with one more at the end. -/
def add (t : Entries) (key : String) (value : Value) : Entries :=
  t ++ [(key, value)]

/-- Changes the table at the end of a path, which starts from a table of the given
origin.  Missing tables on the way are made.  The path leads into the last element of an
array of tables; it leads through no other value and no table in line and, if it is a
dotted key, through no table with a header of its own. -/
def change (dotted : Bool) (f : Origin → Entries → Option Entries) (origin : Origin)
    (t : Entries) : List String → Option Entries
  | [] => f origin t
  | key :: path =>
    match t.get? key with
    | none => do
      let origin := if dotted then .dotted else .parent
      return t.add key (.table origin (← change dotted f origin [] path))
    | some (.table origin inner) =>
      if origin = .inline ∨ (dotted ∧ origin = .header) then none
      else do
        return t.replace key (.table origin (← change dotted f origin inner path))
    | some (.tables elements) =>
      match elements.getLast? with
      | none => none
      | some inner => do
        return t.replace key
          (.tables (elements.dropLast ++ [← change dotted f .header inner path]))
    | some _ => none

/-- Puts a value under a dotted key; `path` is the key without its last part. -/
def assign (t : Entries) (path : List String) (key : String) (value : Value) :
    Option Entries :=
  change true
    (fun origin inner =>
      if (!path.isEmpty && origin != .dotted) || (inner.get? key).isSome then none
      else some (inner.add key value))
    .header t path

/-- Opens the table with the given name; `path` is the name without its last part. -/
def openTable (t : Entries) (path : List String) (key : String) : Option Entries :=
  change false
    (fun _ inner =>
      match inner.get? key with
      | none => some (inner.add key (.table .header []))
      | some (.table .parent entries) => some (inner.replace key (.table .header entries))
      | some _ => none)
    .header t path

/-- Opens a new element of the array of tables with the given name. -/
def openElement (t : Entries) (path : List String) (key : String) : Option Entries :=
  change false
    (fun _ inner =>
      match inner.get? key with
      | none => some (inner.add key (.tables [[]]))
      | some (.tables elements) => some (inner.replace key (.tables (elements ++ [[]])))
      | some _ => none)
    .header t path

end Entries

end LogFormat.Toml
