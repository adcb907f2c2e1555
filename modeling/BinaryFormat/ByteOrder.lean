/-!
# Byte order

A number over several bytes is written in base 256, its digits from the least or from the most
significant one on.
-/

namespace BinaryFormat

/-- The order of the bytes of a number. -/
inductive ByteOrder where
  | little
  | big
deriving DecidableEq, Repr

namespace ByteOrder

/-- The name of an order in a schema. -/
def name : ByteOrder → String
  | little => "little"
  | big => "big"

/-- The order of a name. -/
def ofName? (s : String) : Option ByteOrder :=
  if s = "little" then some little else if s = "big" then some big else none

/-- The number written in some bytes; none at all write zero. -/
def value (order : ByteOrder) (bytes : List UInt8) : Nat :=
  match order with
  | little => bytes.foldr (fun b n => b.toNat + 256 * n) 0
  | big => bytes.foldl (fun n b => 256 * n + b.toNat) 0

/-- The number written in some bytes in two's complement. -/
def signedValue (order : ByteOrder) (bytes : List UInt8) : Int :=
  Int.bmod (order.value bytes) (1 <<< (8 * bytes.length))

end ByteOrder

end BinaryFormat
