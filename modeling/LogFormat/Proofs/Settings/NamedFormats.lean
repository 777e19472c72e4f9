import LogFormat.Proofs.Format.Division
import LogFormat.Settings.Basic

/-!
# The named formats of access logs

The formats `common`, `vhost_common` and `combined` compile to fields that are given here
by name (`Nickname.compile_eq`).
-/

namespace LogFormat

/-- The named formats for the lines of an access log. -/
inductive Nickname where
  | common
  | vhostCommon
  | combined
deriving Repr, DecidableEq

namespace Nickname

/-- The name in the settings. -/
def name : Nickname → String
  | common => "common"
  | vhostCommon => "vhost_common"
  | combined => "combined"

/-- The format that the name stands for. -/
def text : Nickname → String
  | common => "%h %l %u %t \"%r\" %>s %b"
  | vhostCommon => "%v %h %l %u %t \"%r\" %>s %b"
  | combined =>
    "%h %l %u %t \"%r\" %>s %b \"%\x7bReferer\x7di\" \"%\x7bUser-agent\x7di\""

/-- The settings give the format by its name. -/
theorem resolvedFormat_eq {s : Settings} {n : Nickname} (h : s.format = n.name) :
  s.resolvedFormat = n.text
  := by
  rw [Settings.resolvedFormat, h]
  cases n <;> rfl

/-- Literal text of a format. -/
def literal (start : Nat) (text : List Char) : Resolved :=
  ⟨⟨start, text, none⟩, none⟩

/-- A directive of a format with its field. -/
def word (start : Nat) (text : List Char) (d : Directive) (field : Field) : Resolved :=
  ⟨⟨start, text, some d⟩, some field⟩

/-- A directive of a single letter with its field. -/
def letter (start : Nat) (key : Char) (field : Field) : Resolved :=
  word start ['%', key] ⟨key, none, false, [], none⟩ field

/-- The field of the host. -/
def hostField : Field := ⟨"remote-host", SubPattern.any, .string⟩

/-- The field of times, with a zone for texts without an offset. -/
def timeField (zone : Offset) : Field :=
  .timestamp "request-time" .commonLog (.standard zone)

/-- The directives of the common format from a position on. -/
def commonResolved (start : Nat) (zone : Offset) : List Resolved :=
  [letter start 'h' hostField, literal (start + 2) [' '],
    letter (start + 3) 'l' ⟨"remote-log-name", SubPattern.nonSpace, .string⟩,
    literal (start + 5) [' '], letter (start + 6) 'u' ⟨"request-user", SubPattern.any, .string⟩,
    literal (start + 8) [' '], letter (start + 9) 't' (timeField zone),
    literal (start + 11) [' ', '"'],
    letter (start + 13) 'r' ⟨"request-line", SubPattern.any, .string⟩,
    literal (start + 15) ['"', ' '],
    word (start + 17) ['%', '>', 's'] ⟨'s', none, false, [], some .last⟩
      ⟨"response-status", SubPattern.status, .integer⟩,
    literal (start + 20) [' '],
    letter (start + 21) 'b' ⟨"response-bytes", SubPattern.integer, .integer⟩]

/-- A header of the request, quoted. -/
def headerResolved (start : Nat) (header : String) : Resolved :=
  word start ("%\x7b".toList ++ header.toList ++ "\x7di".toList)
    ⟨'i', some header, false, [], none⟩ ⟨"request-header", SubPattern.any, .string⟩

/-- The segments of a named format with their fields. -/
def resolved (zone : Offset) : Nickname → List Resolved
  | common => commonResolved 0 zone
  | vhostCommon =>
    letter 0 'v' ⟨"request-server-name", SubPattern.nonSpace, .string⟩ :: literal 2 [' ']
      :: commonResolved 3 zone
  | combined =>
    commonResolved 0 zone ++
      [literal 23 [' ', '"'], headerResolved 25 "Referer", literal 36 ['"', ' ', '"'],
        headerResolved 39 "User-agent", literal 53 ['"']]

/-- The segments of a named format are resolved. -/
theorem resolves (n : Nickname) (zone : Offset) :
  Format.Resolves (.standard zone) n.text (n.resolved zone)
  := by
  have hscan : Segment.scan n.text = .ok ((n.resolved zone).map (·.segment)) := by
    cases n <;> cbv
  apply Format.resolves_of_mapM hscan
  cases n <;> rfl

/-- Settings with the name of a format compile to it, if their zone is one. -/
theorem compile_eq {s : Settings} {n : Nickname} (hname : s.format = n.name) {zone : Offset}
    (hzone : Offset.ofText s.defaultTimezone = .ok zone) :
  s.compile = .ok (.ofResolved n.text (n.resolved zone))
  := by
  rw [Settings.compile, hzone, resolvedFormat_eq hname]
  change Except.mapError _ (Format.compile (.standard zone) n.text) = _
  rw [Format.compile_of_resolves (n.resolves zone)]
  rfl

end Nickname

end LogFormat
