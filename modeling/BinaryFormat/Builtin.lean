import BinaryFormat.Environment

/-!
# Builtins

The functions an expression can call. `until_marker` looks ahead in the buffer, `parse_int` reads the
padded numerals of fixed-width text fields.
-/

namespace BinaryFormat

/-- The functions an expression can call. -/
inductive Builtin where
  /-- The distance to a byte sequence. -/
  | untilMarker
  /-- The integer written in a text. -/
  | parseInt
deriving DecidableEq, Repr

namespace Builtin

/-- The builtin of a name; names are taken as they are written, capitals included. -/
def ofName? (name : String) : Option Builtin :=
  if name = "until_marker" then some untilMarker
  else if name = "parse_int" then some parseInt
  else none

/-- The byte that an argument of `until_marker` stands for. -/
def markerByte (v : Value) : Except EvalError UInt8 := do
  let n ← v.toInt
  if 0 ≤ n.toInt ∧ n.toInt ≤ 255 then pure (UInt8.ofNat n.toInt.toNat)
  else throw (.markerByteOutOfRange n)

/-- The characters that pad a text field on the right. -/
def isPadding (c : Char) : Bool := c == '\x00' || c == ' '

/-- The digits of a padded numeral: without padding, leading blanks and, in base 16, one `0x`. -/
def paddedDigits (base : Nat) (text : List Char) : List Char :=
  let trimmed := (Text.dropEndWhile isPadding text).dropWhile Text.isBlank
  if base = 16 then
    match trimmed with
    | '0' :: 'x' :: r => r
    | '0' :: 'X' :: r => r
    | r => r
  else trimmed

/-- The integer written in a padded text; a text that holds none counts as zero, since numeric text
fields are often left empty. -/
def paddedInt (base : Nat) (text : List Char) : Int64 :=
  (Numeral.int64? base (paddedDigits base text)).getD 0

/-- The bases of `parse_int`. -/
def isBase (base : Int64) : Bool := base == 2 || base == 8 || base == 10 || base == 16

/-- What a call yields. The arguments of `until_marker` are bytes, one or more of them; those of `parse_int` are a
text and a base, and a number or a truth value is read as the text that it is shown as. -/
def call (env : Environment) : Builtin → List Value → Except EvalError Value
  | untilMarker, [] => .error (.arity "until_marker" "at least 1" 0)
  | untilMarker, v :: vs => do
    let marker ← (v :: vs).mapM markerByte
    pure (.int (Int64.ofNat (env.distance marker)))
  | parseInt, [text, base] => do
    let base ← base.toInt
    if isBase base then pure (.int (paddedInt base.toInt.toNat text.display.toList))
    else throw (.invalidBase base)
  | parseInt, vs => .error (.arity "parse_int" "2" vs.length)

end Builtin

end BinaryFormat
