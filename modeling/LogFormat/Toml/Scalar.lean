import LogFormat.Toml.Text
import LogFormat.Toml.Value
import LogFormat.Calendar.Date

/-!
# TOML scalars

Booleans, numbers, and dates and times.  Each is a run of characters without quotes.
Integers have to fit 128 bits, and floats may not be so large that no double is near
them.
-/

namespace LogFormat.Toml

/-- The digits of a number without the underscores, each of which has to stand between
two digits. -/
def ungrouped? (isDigit : Char → Bool) (cs : List Char) : Option (List Char) :=
  let digits := cs.filter (· != '_')
  let pairs := cs.zip cs.tail
  if digits.all isDigit && cs.head?.any isDigit && cs.getLast?.any isDigit
      && pairs.all (· != ('_', '_')) then
    some digits
  else
    none

/-- An integer that fits 128 bits. -/
def bounded? (n : Int) : Option Value :=
  if -(Nat.pow 2 127 : Int) ≤ n ∧ n < Nat.pow 2 128 then some (.integer n) else none

/-- The number that digits denote in a base. -/
def baseValue? (base : Nat) (cs : List Char) : Option Int := do
  let isDigit (c : Char) := (hexDigit? c).any (· < base)
  let digits ← ungrouped? isDigit cs
  return (digits.foldl (fun n d => base * n + (hexDigit? d).getD 0) 0 : Nat)

/-- Decimal digits without a zero before others. -/
def wholeDigits? (cs : List Char) : Option (List Char) := do
  let digits ← ungrouped? Char.isDigit cs
  if cs.length ≠ 1 ∧ cs.head? = some '0' then none else some digits

/-- A sign, which may be missing, and the rest. -/
def signed : List Char → Int × List Char
  | '-' :: cs => (-1, cs)
  | '+' :: cs => (1, cs)
  | cs => (1, cs)

/-- An integer: with a sign in decimal, or without one in another base. -/
def integer? (cs : List Char) : Option Value :=
  match cs with
  | '0' :: 'x' :: ds => do bounded? (← baseValue? 16 ds)
  | '0' :: 'o' :: ds => do bounded? (← baseValue? 8 ds)
  | '0' :: 'b' :: ds => do bounded? (← baseValue? 2 ds)
  | _ => do
    let (sign, ds) := signed cs
    bounded? (sign * (digitsValue (← wholeDigits? ds) : Nat))

/-- Whether `digits · 10 ^ exponent` is nearer to the first power of two beyond the
doubles than to the largest double. -/
def overflows (digits : Nat) (exponent : Int) : Bool :=
  let limit := Nat.pow 2 1024 - Nat.pow 2 970
  if digits = 0 then false
  else if 0 ≤ exponent then 400 < exponent || limit ≤ digits * Nat.pow 10 exponent.toNat
  else
    -- a quotient below one needs no power to be known for small
    (Nat.toDigits 10 digits).length > exponent.natAbs
      && limit * Nat.pow 10 exponent.natAbs ≤ digits

/-- A float: a whole part, and after it a fraction, an exponent, or both. -/
def float? (cs : List Char) : Option Value := do
  let (_, ds) := signed cs
  if ds = ['i', 'n', 'f'] ∨ ds = ['n', 'a', 'n'] then
    return .float (String.ofList cs)
  let isMark (c : Char) := c == 'e' || c == 'E'
  let mantissa := ds.takeWhile fun c => !isMark c
  let whole := mantissa.takeWhile (· != '.')
  let wholeDigits ← wholeDigits? whole
  let fraction ←
    match mantissa.dropWhile (· != '.') with
    | [] => some []
    | _ :: fraction => ungrouped? Char.isDigit fraction
  let exponent ←
    match ds.dropWhile fun c => !isMark c with
    | [] => if mantissa.contains '.' then some 0 else none
    | _ :: es => do
      let (sign, es) := signed es
      some (sign * (digitsValue (← ungrouped? Char.isDigit es) : Nat))
  if overflows (digitsValue (wholeDigits ++ fraction)) (exponent - fraction.length) then
    none
  else
    return .float (String.ofList cs)

/-- Reads exactly two digits. -/
def twoDigits? : List Char → Option (Nat × List Char)
  | a :: b :: cs => if a.isDigit && b.isDigit then some (digitsValue [a, b], cs) else none
  | _ => none

/-- Reads exactly the given character. -/
def exactly? (c : Char) : List Char → Option (List Char)
  | d :: cs => if d = c then some cs else none
  | [] => none

/-- Reads a date as year, month and day with hyphens between them. -/
def date? (cs : List Char) : Option (List Char) := do
  let (century, cs) ← twoDigits? cs
  let (year, cs) ← twoDigits? cs
  let (month, cs) ← twoDigits? (← exactly? '-' cs)
  let (day, cs) ← twoDigits? (← exactly? '-' cs)
  let _ ← Date.ofMonthDay? (100 * century + year : Nat) month day
  return cs

/-- Reads the part of a second, which may be missing. -/
def secondPart? : List Char → Option (List Char)
  | '.' :: cs =>
    if (cs.takeWhile Char.isDigit).isEmpty then none else some (cs.dropWhile Char.isDigit)
  | cs => some cs

/-- Reads a time as hour, minute, and optionally second and part of a second. -/
def time? (cs : List Char) : Option (List Char) := do
  let (hour, cs) ← twoDigits? cs
  let (minute, cs) ← twoDigits? (← exactly? ':' cs)
  guard (hour ≤ 23 ∧ minute ≤ 59)
  match cs with
  | ':' :: cs => do
    let (second, cs) ← twoDigits? cs
    guard (second ≤ 60)
    secondPart? cs
  | cs => some cs

/-- Reads the offset at the end of a date and time, which may be missing. -/
def zone? : List Char → Option (List Char)
  | 'Z' :: cs => some cs
  | 'z' :: cs => some cs
  | c :: cs =>
    if c = '+' ∨ c = '-' then do
      let (hours, cs) ← twoDigits? cs
      let (minutes, cs) ← twoDigits? (← exactly? ':' cs)
      guard (hours ≤ 23 ∧ minutes ≤ 59)
      return cs
    else
      some (c :: cs)
  | [] => some []

/-- A date, a time, or both; only with both there can be an offset. -/
def dateTime? (cs : List Char) : Option Value :=
  let rest? : Option (List Char) :=
    match date? cs with
    | none => time? cs
    | some [] => some []
    | some (c :: rest) =>
      if c = 'T' ∨ c = 't' ∨ c = ' ' then do zone? (← time? rest) else none
  if rest? = some [] then some (.dateTime (String.ofList cs)) else none

/-- Whether a character can stand in a scalar without quotes. -/
def isScalar (c : Char) : Bool :=
  c.isAlphanum || c == '+' || c == '-' || c == '_' || c == '.' || c == ':'

/-- The run of characters of a scalar.  A space between a date and a time is part of
it. -/
def scalarRun (cs : List Char) : List Char :=
  let run := cs.takeWhile isScalar
  match date? run, cs.drop run.length with
  | some [], ' ' :: c :: rest =>
    if c.isDigit then run ++ ' ' :: (c :: rest).takeWhile isScalar else run
  | _, _ => run

/-- Reads a scalar without quotes. -/
def scalarValue? (cs : List Char) : Option (Value × List Char) :=
  let run := scalarRun cs
  let value? : Option Value :=
    if run = ['t', 'r', 'u', 'e'] then some (.boolean true)
    else if run = ['f', 'a', 'l', 's', 'e'] then some (.boolean false)
    else integer? run <|> float? run <|> dateTime? run
  value?.map fun value => (value, cs.drop run.length)

end LogFormat.Toml
