import BinaryFormat.ByteOrder
import BinaryFormat.Compression.Adler32
import BinaryFormat.Compression.Deflate
import BinaryFormat.Crc32

/-!
# Containers of compressed streams

A deflate stream travels between a header, which says how it was made, and a trailer with a check of
what it holds. A container that is read in full is a sound one: whatever is wrong with header, stream
or trailer makes reading fail. What follows the trailer is not looked at.
-/

namespace BinaryFormat.Compression.Container

open BitReader

/-- Reads a number of `n` bytes. -/
def word (order : ByteOrder) (n : Nat) : BitReader Nat := do pure (order.value (← bytes n))

/-- Reads a stream with a two-byte header and an Adler-32. The header names the method and the size of the
window and is a multiple of 31; a dictionary cannot be given. -/
def zlib : BitReader Buffer := do
  let method ← word .big 1
  let flags ← word .big 1
  guard ((256 * method + flags) % 31 = 0)
  guard (method % 16 = 8 ∧ method / 16 ≤ 7)
  guard (¬ flags.testBit 5)
  let out ← Deflate.inflate
  guard ((← word .big 4) = Adler32.ofBytes out)
  pure out

/-- The longest name or comment. -/
def maxText : Nat := 0xffff

/-- Passes over a text and the NUL byte behind it. -/
def passText : BitReader Unit := do
  let length := (← rest).takeWhile (· != 0) |>.length
  guard (length ≤ maxText)
  let _ ← bytes (length + 1)

/-- Passes over the extra field, its length in front. -/
def passExtra : BitReader Unit := do
  let length ← word .little 2
  let _ ← bytes length

/-- Passes over the check of the header, the lower half of a CRC-32. -/
def passHeaderCheck : BitReader Unit := do
  let header ← consumed
  guard ((← word .little 2) = (Crc32.ofBytes header).toNat % UInt16.size)

/-- Passes over the header. -/
def passHeader : BitReader Unit := do
  guard ((← bytes 3) = [0x1f, 0x8b, 8])
  let flags ← word .little 1
  guard (flags < 0x20)
  let _ ← bytes 6
  if flags.testBit 2 then passExtra
  if flags.testBit 3 then passText
  if flags.testBit 4 then passText
  if flags.testBit 1 then passHeaderCheck

/-- Reads a stream with a header that may name its file, a CRC-32 and the number of its bytes. -/
def gzip : BitReader Buffer := do
  passHeader
  let out ← Deflate.inflate
  guard ((← word .little 4) = (Crc32.ofBytes out.toList).toNat)
  guard ((← word .little 4) = out.size % UInt32.size)
  pure out

end BinaryFormat.Compression.Container
