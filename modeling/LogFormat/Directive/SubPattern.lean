/-!
# Sub-patterns of directives

The written patterns of the texts that directives stand for.  Each has one group, which
is the whole of it.
-/

namespace LogFormat.SubPattern

/-- Anything without a double quote, as little as possible. -/
def any : String := "([^\"]*?)"

/-- Anything without blanks. -/
def nonSpace : String := "(\\S*)"

/-- An address of four numbers, or one of hexadecimal digits and colons. -/
def address : String :=
  "((?:[0-9]\x7b1,3\x7d\\.)\x7b3\x7d[0-9]\x7b1,3\x7d|[0-9A-Fa-f]*:[0-9A-Fa-f:.]+)"

/-- Digits, or a hyphen for none. -/
def integer : String := "(-|[0-9]+)"

/-- Three digits, or a hyphen for none. -/
def status : String := "([0-9]\x7b3\x7d|-)"

/-- The name of a request method, or a hyphen for none. -/
def method : String := "([A-Z]+|-)"

/-- A query with its question mark, or nothing. -/
def query : String := "((?:\\?[^\\s\"]*)?)"

/-- A path without its query, or a hyphen for none. -/
def path : String := "(/[^\\s\"?]*|-)"

/-- The state of a connection: aborted, kept alive or closed. -/
def connection : String := "([X+\\-])"

/-- A percent sign. -/
def percent : String := "(%)"

/-- A time with brackets around it or without any. -/
def bracketedTime : String := "(\\[[^\\[\\]]+\\]|[^\\[\\]]+)"

/-- A number of seconds, or of parts of seconds. -/
def epoch : String := "([0-9]+)"

end LogFormat.SubPattern
