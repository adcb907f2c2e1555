import BinaryFormat.Text.Encoding

/-!
# Field types

What a field holds. Integers and floating-point numbers fix their width; text and bytes need a size,
except for texts that end at their first NUL byte.
-/

namespace BinaryFormat

/-- What a field holds. -/
inductive FieldType where
  | u8 | u16 | u32 | u64
  | i8 | i16 | i32 | i64
  | f32 | f64
  | bytes
  | ascii | utf8 | utf16le | utf16be | shiftJis | latin1
  | asciiz | utf8z
  | struct | switch | bitfield | virtual | compressed
deriving DecidableEq, Repr

namespace FieldType

/-- The name of a type in a schema. -/
def name : FieldType → String
  | u8 => "u8"
  | u16 => "u16"
  | u32 => "u32"
  | u64 => "u64"
  | i8 => "i8"
  | i16 => "i16"
  | i32 => "i32"
  | i64 => "i64"
  | f32 => "f32"
  | f64 => "f64"
  | bytes => "bytes"
  | ascii => "ascii"
  | utf8 => "utf8"
  | utf16le => "utf16le"
  | utf16be => "utf16be"
  | shiftJis => "shift_jis"
  | latin1 => "latin1"
  | asciiz => "asciiz"
  | utf8z => "utf8z"
  | struct => "struct"
  | switch => "switch"
  | bitfield => "bitfield"
  | virtual => "virtual"
  | compressed => "compressed"

/-- All types. -/
def all : List FieldType :=
  [u8, u16, u32, u64, i8, i16, i32, i64, f32, f64, bytes, ascii, utf8, utf16le, utf16be, shiftJis,
    latin1, asciiz, utf8z, struct, switch, bitfield, virtual, compressed]

/-- The type of a name. -/
def ofName? (s : String) : Option FieldType := all.find? (·.name == s)

/-- The bytes of an integer type, and whether it is signed. -/
def layout? : FieldType → Option (Nat × Bool)
  | u8 => some (1, false)
  | u16 => some (2, false)
  | u32 => some (4, false)
  | u64 => some (8, false)
  | i8 => some (1, true)
  | i16 => some (2, true)
  | i32 => some (4, true)
  | i64 => some (8, true)
  | _ => none

/-- The bytes that a type takes whatever the field says. -/
def fixedWidth? : FieldType → Option Nat
  | f32 => some 4
  | f64 => some 8
  | virtual => some 0
  | t => t.layout?.map Prod.fst

/-- The encoding of a text of declared size. -/
def encoding? : FieldType → Option Text.Encoding
  | ascii => some .ascii
  | utf8 => some .utf8
  | utf16le => some .utf16le
  | utf16be => some .utf16be
  | shiftJis => some .shiftJis
  | latin1 => some .latin1
  | _ => none

/-- No two types have one name, so each is found under its own. -/
theorem ofName?_name (t : FieldType) : ofName? t.name = some t := by cases t <;> rfl

end FieldType

end BinaryFormat
