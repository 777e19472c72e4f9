/-!
# Decimal numbers

Digits are the ten characters of ASCII.  `readInteger?` and `readSize?` read a whole
text as a number of a machine word; `padded` writes a number with leading zeros.
-/

namespace LogFormat

/-- The number that a run of digits denotes, most significant digit first. -/
def digitsValue (ds : List Char) : Nat :=
  ds.foldl (fun n d => 10 * n + (d.toNat - '0'.toNat)) 0

/-- The number that a text of one or more digits denotes. -/
def readNat? (cs : List Char) : Option Nat :=
  if cs ≠ [] ∧ cs.all Char.isDigit then some (digitsValue cs) else none

/-- The greatest signed number of 64 bits. -/
def maxInteger : Int := 9223372036854775807

/-- The least signed number of 64 bits. -/
def minInteger : Int := -9223372036854775808

/-- Reads digits after an optional sign as a signed number of 64 bits; a number that
does not fit is refused. -/
def readInteger? (cs : List Char) : Option Int :=
  let value? : Option Int :=
    match cs with
    | '-' :: ds => (readNat? ds).map fun n => -(n : Int)
    | '+' :: ds => (readNat? ds).map fun n => (n : Int)
    | ds => (readNat? ds).map fun n => (n : Int)
  value?.filter fun n => minInteger ≤ n && n ≤ maxInteger

/-- The greatest unsigned number of 64 bits. -/
def maxSize : Nat := 18446744073709551615

/-- Reads digits after an optional `+` as an unsigned number of 64 bits. -/
def readSize? (cs : List Char) : Option Nat :=
  let value? :=
    match cs with
    | '+' :: ds => readNat? ds
    | ds => readNat? ds
  value?.filter (· ≤ maxSize)

/-- The digits of `n`, with zeros before them up to `width` characters. -/
def padded (width n : Nat) : List Char :=
  let ds := Nat.toDigits 10 n
  List.replicate (width - ds.length) '0' ++ ds

/-- A number in decimal, with a hyphen before it if it is negative. -/
def integerText (n : Int) : List Char :=
  if n < 0 then '-' :: Nat.toDigits 10 n.natAbs else Nat.toDigits 10 n.natAbs

end LogFormat
