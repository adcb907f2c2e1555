import BinaryFormat.Value

/-!
# What an expression can see

An expression depends on the buffer only through three questions: the binding of a name, the number of
bytes left in the current scope, and the distance to a marker within them.
-/

namespace BinaryFormat

/-- What an expression can see while it is evaluated. -/
structure Environment where
  /-- The value bound to a name, innermost scope first. -/
  get? : String → Option Value
  /-- The bytes left in the current scope. -/
  remaining : Nat
  /-- The distance to a byte sequence in the current scope, or the bytes left where it is absent. -/
  distance : List UInt8 → Nat

end BinaryFormat
