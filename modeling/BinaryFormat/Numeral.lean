/-!
# Numerals

Reading and writing integers in a base. A numeral is a nonempty run of digits, nothing else; a sign
in front of it is a separate layer, and so is the range of the machine word it has to fit.
-/

namespace BinaryFormat.Numeral

/-- The value of a digit or letter, counted from `0` to `9` and on from `a`, in either case. -/
def digitValue? (c : Char) : Option Nat :=
  if '0' ≤ c ∧ c ≤ '9' then some (c.toNat - '0'.toNat)
  else if 'a' ≤ c ∧ c ≤ 'z' then some (c.toNat - 'a'.toNat + 10)
  else if 'A' ≤ c ∧ c ≤ 'Z' then some (c.toNat - 'A'.toNat + 10)
  else none

/-- The value of a digit of the given base. -/
def digit? (base : Nat) (c : Char) : Option Nat := (digitValue? c).filter (· < base)

/-- Appends the digits `cs` to a numeral of value `n`. -/
def extend? (base : Nat) (n : Nat) : List Char → Option Nat
  | [] => some n
  | c :: cs => (digit? base c).bind fun d => extend? base (n * base + d) cs

/-- Reads a nonempty run of digits. -/
def natural? (base : Nat) : List Char → Option Nat
  | [] => none
  | c :: cs => extend? base 0 (c :: cs)

/-- Reads digits after at most one sign. -/
def integer? (base : Nat) : List Char → Option Int
  | '+' :: cs => (natural? base cs).map Int.ofNat
  | '-' :: cs => (natural? base cs).map fun n => -Int.ofNat n
  | cs => (natural? base cs).map Int.ofNat

/-- The word of an integer, if it is in range. -/
def toInt64? (n : Int) : Option Int64 :=
  if Int64.minValue.toInt ≤ n ∧ n ≤ Int64.maxValue.toInt then some (Int64.ofInt n) else none

/-- Reads a signed numeral that fits 64 bits. -/
def int64? (base : Nat) (cs : List Char) : Option Int64 := (integer? base cs).bind toInt64?

/-- Reads an index: digits after at most a plus sign, below 2⁶⁴. -/
def index? : List Char → Option Nat
  | '+' :: cs => (natural? 10 cs).filter (· < UInt64.size)
  | cs => (natural? 10 cs).filter (· < UInt64.size)

/-- An integer in decimal, behind a minus sign where it is negative. -/
def decimal (n : Int) : List Char :=
  if n < 0 then '-' :: Nat.toDigits 10 n.natAbs else Nat.toDigits 10 n.natAbs

/-- A number in lower-case hexadecimal, without leading zeros. -/
def hexDigits (n : Nat) : List Char := Nat.toDigits 16 n

/-- Lower-case hexadecimal behind `0x`. -/
def hex (n : Nat) : String := "0x" ++ String.ofList (hexDigits n)

/-- At least `width` hexadecimal digits, filled up with zeros on the left. -/
def paddedHex (width n : Nat) : List Char :=
  let digits := hexDigits n
  List.replicate (width - digits.length) '0' ++ digits

end BinaryFormat.Numeral
