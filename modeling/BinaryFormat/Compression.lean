import BinaryFormat.Compression.Container
import BinaryFormat.Text.Case

/-!
# Compression

How the bytes of a compressed field were compressed, by name, and how to get them back.
-/

namespace BinaryFormat

/-- A way to compress bytes. -/
inductive Compression where
  /-- A deflate stream with an Adler-32. -/
  | zlib
  /-- A bare deflate stream. -/
  | deflate
  /-- A deflate stream with a CRC-32. -/
  | gzip
  /-- The bytes as they are. -/
  | identity
deriving DecidableEq, Repr

namespace Compression

/-- The compression of a name, in either case. -/
def ofName? (name : String) : Option Compression :=
  [("zlib", Compression.zlib), ("deflate", .deflate), ("gzip", .gzip), ("none", .identity)].lookup
    (Text.lower name)

/-- The name of the compression where a field gives none. -/
def defaultName : String := "zlib"

/-- The bytes that some bytes were compressed from, if they are sound. -/
def decompress? (c : Compression) (data : List UInt8) : Option Buffer :=
  match c with
  | zlib => BitReader.ofBuffer? Container.zlib data.toArray
  | deflate => BitReader.ofBuffer? Deflate.inflate data.toArray
  | gzip => BitReader.ofBuffer? Container.gzip data.toArray
  | identity => some data.toArray

end Compression

end BinaryFormat
