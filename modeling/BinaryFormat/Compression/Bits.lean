import BinaryFormat.Buffer

/-!
# Reading bits

A compressed stream is a sequence of bits, the lowest bit of every byte first. A reader moves along it
and fails at its end; a stream that is cut off is as bad as one that is damaged, so there is one way to
fail only.
-/

namespace BinaryFormat.Compression

/-- A place between two bits of a buffer. -/
structure Bits where
  data : Buffer
  /-- The number of bits before the place. -/
  pos : Nat
deriving DecidableEq, Repr

/-- Reads from a place on, or fails. -/
abbrev BitReader := StateT Bits Option

namespace BitReader

/-- Reads one bit. -/
def bit : BitReader Bool := fun b =>
  match b.data[b.pos / 8]? with
  | some byte => some (byte.toNat.testBit (b.pos % 8), { b with pos := b.pos + 1 })
  | none => none

/-- Reads a number of `n` bits, its lowest bit first. -/
def number : Nat → BitReader Nat
  | 0 => pure 0
  | n + 1 => do
    let low ← bit
    let high ← number n
    pure (low.toNat + 2 * high)

/-- The number of bits that are left. -/
def remaining : BitReader Nat := fun b => some (8 * b.data.size - b.pos, b)

/-- Moves on to the next whole byte. -/
def align : BitReader Unit := fun b => some ((), { b with pos := (b.pos + 7) / 8 * 8 })

/-- Reads `n` bytes, the first of them at the next whole byte. -/
def bytes (n : Nat) : BitReader (List UInt8) := fun b =>
  let start := (b.pos + 7) / 8
  if start + n ≤ b.data.size then
    some (b.data.window start (start + n), { b with pos := (start + n) * 8 })
  else none

/-- The bytes from the next whole byte on, unread. -/
def rest : BitReader (List UInt8) := fun b =>
  some (b.data.window ((b.pos + 7) / 8) b.data.size, b)

/-- The whole bytes before the place. -/
def consumed : BitReader (List UInt8) := fun b => some (b.data.window 0 (b.pos / 8), b)

/-- What a reader makes of a buffer, whether or not it gets to its end. -/
def ofBuffer? {α : Type} (r : BitReader α) (data : Buffer) : Option α :=
  (r ⟨data, 0⟩).map Prod.fst

end BitReader

end BinaryFormat.Compression
