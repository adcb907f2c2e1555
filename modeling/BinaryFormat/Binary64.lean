import BinaryFormat.Numeral

/-!
# Floating-point patterns

Floating-point fields are never computed with, so their numbers stay bit patterns of the binary64
format. A binary32 pattern is widened, which is exact: its exponent is rebiased and its fraction gets
zeros on the right, and a subnormal number becomes a normal one.
-/

namespace BinaryFormat

/-- The bits of a binary64 number. -/
structure Binary64 where
  /-- The sign bit, eleven bits of exponent and fifty-two of fraction. -/
  bits : UInt64
deriving DecidableEq, Repr

namespace Binary64

/-- Puts a pattern together from its sign, biased exponent and fraction. -/
def pack (sign exponent fraction : Nat) : Binary64 :=
  ⟨UInt64.ofNat (sign <<< 63 + exponent <<< 52 + fraction)⟩

/-- The same number as a binary32 pattern. -/
def ofBinary32 (bits : UInt32) : Binary64 :=
  let n := bits.toNat
  let sign := n >>> 31
  let exponent := n >>> 23 % 0x100
  let fraction := n % 0x800000
  if exponent = 0xff then pack sign 0x7ff (fraction <<< 29)
  else if exponent ≠ 0 then pack sign (exponent + 896) (fraction <<< 29)
  else if fraction = 0 then pack sign 0 0
  else
    -- a subnormal number is `fraction * 2 ^ (-149)`, and its leading bit is dropped
    let top := fraction.log2
    pack sign (top + 874) ((fraction - 1 <<< top) <<< (52 - top))

/-- Whether the pattern is not a number. -/
def isNaN (x : Binary64) : Bool :=
  x.bits.toNat >>> 52 % 0x800 == 0x7ff && x.bits.toNat % 0x10000000000000 != 0

/-- The sixteen hexadecimal digits of the pattern, or `nan` for every pattern that is no number. -/
def display (x : Binary64) : String :=
  if x.isNaN then "nan" else String.ofList (Numeral.paddedHex 16 x.bits.toNat)

end Binary64

end BinaryFormat
