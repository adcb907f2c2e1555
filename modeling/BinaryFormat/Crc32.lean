/-!
# CRC-32

The cyclic redundancy check over the reflected polynomial `0xedb88320`: the register starts with all
bits set, takes the bits of every byte lowest first, and is complemented at the end. One byte moves the
register by eight shifts, and as a shift is linear, a table of 256 words does the eight at once.
-/

namespace BinaryFormat

namespace Crc32

/-- The generator, its lowest power in the highest bit. -/
def polynomial : UInt32 := 0xedb88320

/-- Moves one bit out of the register and reduces by the generator. -/
def shift (c : UInt32) : UInt32 :=
  if c &&& 1 != 0 then (c >>> 1) ^^^ polynomial else c >>> 1

/-- Moves one byte out of the register. -/
def shiftByte (c : UInt32) : UInt32 :=
  shift (shift (shift (shift (shift (shift (shift (shift c)))))))

/-- What moving each byte out leaves behind. -/
def table : Vector UInt32 256 := Vector.ofFn fun i => shiftByte (UInt32.ofNat i.val)

/-- Takes one byte into the register. -/
def step (c : UInt32) (b : UInt8) : UInt32 :=
  (c >>> 8) ^^^ table.get (c ^^^ b.toUInt32).toUInt8.toFin

end Crc32

/-- A check in progress. -/
structure Crc32 where
  register : UInt32
deriving DecidableEq, Repr

namespace Crc32

/-- The check before any byte: all bits are set. -/
def start : Crc32 := ⟨0xffffffff⟩

/-- Takes some bytes into the check, one after the other. -/
def update (c : Crc32) (bytes : List UInt8) : Crc32 := ⟨bytes.foldl step c.register⟩

/-- The sum of the bytes taken so far: the complement of the register. -/
def finish (c : Crc32) : UInt32 := ~~~c.register

/-- The sum of some bytes. -/
def ofBytes (bytes : List UInt8) : UInt32 := (start.update bytes).finish

@[simp] theorem update_nil (c : Crc32) : c.update [] = c := rfl

@[simp] theorem update_append (c : Crc32) (a b : List UInt8) :
    c.update (a ++ b) = (c.update a).update b := by simp [update]

end Crc32

end BinaryFormat
