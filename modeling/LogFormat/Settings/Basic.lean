import LogFormat.Format.Compiled
import LogFormat.Record.Extractor

/-!
# Settings

What a run is asked to do: the format of the lines, the zone of times without an
offset, whether a line that fails ends the run, and how long a line may be.  A format
can be given by one of the usual nicknames.
-/

namespace LogFormat

/-- The usual formats under their nicknames. -/
def namedFormats : List (String × String) :=
  [("common", "%h %l %u %t \"%r\" %>s %b"),
    ("combined",
      "%h %l %u %t \"%r\" %>s %b \"%\x7bReferer\x7di\" \"%\x7bUser-agent\x7di\""),
    ("vhost_common", "%v %h %l %u %t \"%r\" %>s %b"),
    ("referer", "%\x7bReferer\x7di -> %U"),
    ("agent", "%\x7bUser-agent\x7di")]

/-- What a run is asked to do. -/
structure Settings where
  format : String := "common"
  defaultTimezone : String := "UTC"
  stopOnInvalid : Bool := false
  maxLineSize : Nat := defaultMaxLineSize
deriving Repr, DecidableEq

/-- What makes settings unusable. -/
inductive SettingsFault where
  | emptyFormat
  | zeroLineSize
  | badTimezone (error : OffsetError)
deriving Repr, DecidableEq

/-- The text of the fault. -/
def SettingsFault.message : SettingsFault → String
  | .emptyFormat => "format must not be empty"
  | .zeroLineSize => "max_line_size must be > 0"
  | .badTimezone error => s!"default_timezone: {error.message}"

/-- Why settings do not compile. -/
inductive CompileFault where
  | timezone (error : OffsetError)
  | format (error : FormatError)
deriving Repr, DecidableEq

/-- The text of the fault. -/
def CompileFault.message : CompileFault → String
  | .timezone error => error.message
  | .format error => error.message

namespace Settings

/-- The format with a nickname replaced by what it stands for. -/
def resolvedFormat (s : Settings) : String :=
  ((namedFormats.find? (·.1 == s.format)).map (·.2)).getD s.format

/-- Checks the settings; of several faults the first of format, line size and zone is
reported. -/
def validate (s : Settings) : Except SettingsFault Unit :=
  if s.format.toList.all isBlank then .error .emptyFormat
  else if s.maxLineSize = 0 then .error .zeroLineSize
  else
    match Offset.ofText s.defaultTimezone with
    | .error error => .error (.badTimezone error)
    | .ok _ => .ok ()

/-- Compiles the format, with times read in the default zone. -/
def compile (s : Settings) : Except CompileFault Format := do
  let zone ← (Offset.ofText s.defaultTimezone).mapError .timezone
  (Format.compile (TimeReader.standard zone) s.resolvedFormat).mapError .format

end Settings

end LogFormat
