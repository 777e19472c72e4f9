import LogFormat.Settings.Basic
import LogFormat.Toml.Document

/-!
# Where settings come from

Each setting has a variable of the environment and a key of a TOML file.  The variable
wins if it holds a usable text, then the file if there is one and it has the key, and
then the default.  A file that is there but cannot be read or decoded is an error,
whatever the environment says.
-/

namespace LogFormat

/-- The variables of the environment, as far as they are set. -/
structure Environment where
  format : Option Bytes := none
  defaultTimezone : Option Bytes := none
  stopOnInvalid : Option Bytes := none
  maxLineSize : Option Bytes := none
deriving Repr, DecidableEq

/-- The settings file, as it is found. -/
inductive SettingsFile where
  | missing
  | unreadable
  | contents (bytes : Bytes)
deriving Repr, DecidableEq

/-- Why no settings can be had from a file. -/
inductive LoadError where
  | io
  | toml
deriving Repr, DecidableEq

/-- Reads the words for yes and no. -/
def readBool? (text : String) : Option Bool :=
  if text = "true" then some true else if text = "false" then some false else none

namespace Environment

/-- A usable text of a variable. -/
def text? (bytes : Option Bytes) : Option String :=
  bytes.bind decode?

/-- The settings with those replaced that the environment gives; a text that does not
make sense for its setting counts as not given. -/
def override (e : Environment) (s : Settings) : Settings where
  format := (text? e.format).getD s.format
  defaultTimezone := (text? e.defaultTimezone).getD s.defaultTimezone
  stopOnInvalid := ((text? e.stopOnInvalid).bind readBool?).getD s.stopOnInvalid
  maxLineSize :=
    ((text? e.maxLineSize).bind fun text => readSize? text.toList).getD s.maxLineSize

end Environment

namespace Settings

/-- The settings of the environment alone. -/
def ofEnvironment (e : Environment) : Settings :=
  e.override {}

/-- The value of a key, if the key is there; a value of another type is an error. -/
def entry {α : Type} (t : Toml.Entries) (key : String) (read : Toml.Value → Option α) :
    Except LoadError (Option α) :=
  match t.get? key with
  | none => .ok none
  | some value =>
    match read value with
    | some a => .ok (some a)
    | none => .error .toml

/-- The text of a string. -/
def textOf? : Toml.Value → Option String
  | .string text => some text
  | _ => none

/-- The value of a boolean. -/
def boolOf? : Toml.Value → Option Bool
  | .boolean value => some value
  | _ => none

/-- A number that is a size. -/
def sizeOf? : Toml.Value → Option Nat
  | .integer n => if 0 ≤ n ∧ n ≤ maxSize then some n.toNat else none
  | _ => none

/-- The settings of a TOML document.  Keys that are missing have their defaults, and
other keys do not matter. -/
def ofToml (text : String) : Except LoadError Settings :=
  match Toml.document? text with
  | none => .error .toml
  | some t => do
    let defaults : Settings := {}
    let format ← entry t "format" textOf?
    let defaultTimezone ← entry t "default_timezone" textOf?
    let stopOnInvalid ← entry t "stop_on_invalid_record" boolOf?
    let maxLineSize ← entry t "max_line_size" sizeOf?
    .ok
      ⟨format.getD defaults.format, defaultTimezone.getD defaults.defaultTimezone,
        stopOnInvalid.getD defaults.stopOnInvalid, maxLineSize.getD defaults.maxLineSize⟩

/-- The settings of a file; a file that is missing or no text cannot be read. -/
def ofFile : SettingsFile → Except LoadError Settings
  | .missing => .error .io
  | .unreadable => .error .io
  | .contents bytes =>
    match decode? bytes with
    | none => .error .io
    | some text => ofToml text

/-- The settings of the file, if there is one, and of the environment, which wins. -/
def load (e : Environment) (file : SettingsFile) : Except LoadError Settings :=
  match file with
  | .missing => .ok (e.override (ofEnvironment e))
  | file => do .ok (e.override (← ofFile file))

end Settings

/-- Why a run cannot start. -/
inductive BootError where
  | load (error : LoadError)
  | invalid (fault : SettingsFault)
  | compile (fault : CompileFault)
deriving Repr, DecidableEq

/-- Loads and checks the settings and compiles their format. -/
def boot (e : Environment) (file : SettingsFile) :
    Except BootError (Settings × Format) := do
  let settings ← (Settings.load e file).mapError .load
  settings.validate.mapError .invalid
  let format ← settings.compile.mapError .compile
  .ok (settings, format)

end LogFormat
