/-!
# Adler-32

Two sums modulo the largest prime below 2¹⁶: of the bytes, and of the first sum after every byte.
-/

namespace BinaryFormat.Compression

/-- The two sums. -/
structure Adler32 where
  /-- One more than the sum of the bytes. -/
  sum : Nat
  /-- The sum of the sums so far. -/
  sumOfSums : Nat
deriving DecidableEq, Repr

namespace Adler32

/-- The largest prime below 2¹⁶. -/
def modulus : Nat := 65521

/-- The sums of no bytes. -/
def start : Adler32 := ⟨1, 0⟩

/-- Takes one byte into the sums. -/
def step (c : Adler32) (b : UInt8) : Adler32 :=
  let sum := (c.sum + b.toNat) % modulus
  ⟨sum, (c.sumOfSums + sum) % modulus⟩

/-- Both sums in one word of 32 bits, that of the sums in the upper half. -/
def finish (c : Adler32) : Nat := c.sumOfSums <<< 16 + c.sum

/-- The check of a whole stream. -/
def ofBytes (data : Array UInt8) : Nat := (data.foldl step start).finish

end Adler32

end BinaryFormat.Compression
