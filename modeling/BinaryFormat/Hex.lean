import BinaryFormat.Numeral
import BinaryFormat.Text.Blank

/-!
# Bytes in hexadecimal

Two digits a byte. Reading ignores spaces and accepts either case; what it refuses is an odd number of
bytes of text or a pair that is not two digits, and a refusal names the first such pair by its place
in the text without spaces.
-/

namespace BinaryFormat.Hex

/-- Why a text holds no bytes. -/
inductive Problem where
  /-- A digit is left over. -/
  | oddLength
  /-- The two bytes of text at this place are not two digits. -/
  | invalidPair (place : Nat)
deriving DecidableEq, Repr

/-- The wording of a problem. -/
def Problem.message : Problem → String
  | oddLength => "hex string must have even length"
  | invalidPair place => "invalid hex byte at position " ++ toString place

/-- The two digits of a byte, in lower case. -/
def digits (b : UInt8) : List Char := Numeral.paddedHex 2 b.toNat

/-- The digits of some bytes. -/
def encode (bytes : List UInt8) : List Char := bytes.flatMap digits

/-- The byte of two digits. -/
def byte? (a b : Char) : Option UInt8 := do
  let high ← Numeral.digit? 16 a
  let low ← Numeral.digit? 16 b
  pure (UInt8.ofNat (16 * high + low))

/-- Reads pairs of digits, the first of them at `place`. -/
def decodePairs (place : Nat) : List Char → Except Problem (List UInt8)
  | [] => .ok []
  | [_] => .error (.invalidPair place)
  | a :: b :: cs =>
    match byte? a b with
    | some x => (decodePairs (place + 2) cs).map (x :: ·)
    | none => .error (.invalidPair place)

/-- The bytes of a text, spaces dropped first. Whether it is of even length is asked of its bytes in UTF-8, and before
any digit is looked at. -/
def decode (text : List Char) : Except Problem (List UInt8) :=
  let packed := text.filter (· != ' ')
  if Text.byteLength packed % 2 = 0 then decodePairs 0 packed else .error .oddLength

end BinaryFormat.Hex
