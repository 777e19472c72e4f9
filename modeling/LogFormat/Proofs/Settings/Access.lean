import LogFormat.Proofs.Settings.NamedFormats
import LogFormat.Proofs.Time.CommonLog

/-!
# Accesses as a server notes them

An `Access` is what a server writes to its log about a request: texts, with the conditions
that hold of them, and a time.  `Access.line` is the line in a named format, and
`Access.columns` are the columns that should be read from it, with their values.
-/

namespace LogFormat

/-- The text has neither double quotes nor line feeds. -/
def Unquoted (cs : List Char) : Prop :=
  '"' ∉ cs ∧ '\n' ∉ cs

/-- The text consists of digits. -/
def AllDigits (cs : List Char) : Prop :=
  ∀ c ∈ cs, c.isDigit

/-- Double quotes and line feeds can be looked for. -/
instance (cs : List Char) : Decidable (Unquoted cs) :=
  inferInstanceAs (Decidable (_ ∧ _))

/-- Digits can be looked for. -/
instance (cs : List Char) : Decidable (AllDigits cs) :=
  decidable_of_iff (cs.all Char.isDigit) List.all_eq_true

/-- The texts of the directives of the common format with its literal texts between them. -/
def commonText (host logName user time requestLine status size : List Char) : List Char :=
  host ++ ' ' :: (logName ++ ' ' :: (user ++ ' ' :: (time ++ ' ' :: '"' ::
    (requestLine ++ '"' :: ' ' :: (status ++ ' ' :: size)))))

/-- What is noted about a request: the names of the server and of the log entry without
blanks, the host without spaces, the other texts without double quotes, a status of three
digits or a hyphen, a number of bytes that fits a column or a hyphen, and a time of whole
seconds, which a clock with an offset of whole minutes shows in a year of four digits. -/
structure Access where
  serverName : List Char
  host : List Char
  logName : List Char
  user : List Char
  time : Instant
  zone : Offset
  requestLine : List Char
  status : List Char
  size : List Char
  referer : List Char
  userAgent : List Char
  serverName_nonblank : ∀ c ∈ serverName, ¬isBlank c
  logName_nonblank : ∀ c ∈ logName, ¬isBlank c
  host_nospace : ' ' ∉ host
  host_unquoted : Unquoted host
  user_unquoted : Unquoted user
  requestLine_unquoted : Unquoted requestLine
  referer_unquoted : Unquoted referer
  userAgent_unquoted : Unquoted userAgent
  status_digits : (status.length = 3 ∧ AllDigits status) ∨ status = ['-']
  size_digits : size = ['-']
    ∨ size ≠ [] ∧ AllDigits size ∧ (digitsValue size : Int) ≤ maxInteger
  time_whole : time.nanos % 1000000000 = 0
  zone_whole : zone.seconds % 60 = 0
  year_bounds : 0 ≤ (time.localDate zone).year ∧ (time.localDate zone).year ≤ 9999

namespace Access

/-- The time in brackets. -/
def timeText (a : Access) : List Char :=
  '[' :: a.time.commonLogText a.zone ++ [']']

/-- The line in the common format. -/
def commonLine (a : Access) : List Char :=
  commonText a.host a.logName a.user a.timeText a.requestLine a.status a.size

/-- The line in a named format. -/
def line (a : Access) : Nickname → List Char
  | .common => a.commonLine
  | .vhostCommon => a.serverName ++ ' ' :: a.commonLine
  | .combined =>
    a.commonLine ++ ' ' :: '"' :: (a.referer ++ '"' :: ' ' :: '"' :: (a.userAgent ++ ['"']))

/-- The texts of the directives of the common format. -/
def commonWords (a : Access) : List (List Char) :=
  [a.host, a.logName, a.user, a.timeText, a.requestLine, a.status, a.size]

/-- The texts of the directives of a named format. -/
def words (a : Access) : Nickname → List (List Char)
  | .common => a.commonWords
  | .vhostCommon => a.serverName :: a.commonWords
  | .combined => a.commonWords ++ [a.referer, a.userAgent]

/-- The number that digits denote; a hyphen is no value. -/
def number (digits : List Char) : Value :=
  if digits = ['-'] then .null else .integer (digitsValue digits)

/-- The columns of the common format with their values. -/
def commonColumns (a : Access) : List (String × Value) :=
  [("remote-host", .string (String.ofList a.host)),
    ("remote-log-name", .string (String.ofList a.logName)),
    ("request-user", .string (String.ofList a.user)),
    ("request-time", .timestamp a.time),
    ("request-line", .string (String.ofList a.requestLine)),
    ("response-status", number a.status),
    ("response-bytes", number a.size)]

/-- The columns of a named format with their values. -/
def columns (a : Access) : Nickname → List (String × Value)
  | .common => a.commonColumns
  | .vhostCommon =>
    ("request-server-name", .string (String.ofList a.serverName)) :: a.commonColumns
  | .combined =>
    a.commonColumns ++ [("request-header", .string (String.ofList a.referer)),
      ("request-header_2", .string (String.ofList a.userAgent))]

end Access

end LogFormat
