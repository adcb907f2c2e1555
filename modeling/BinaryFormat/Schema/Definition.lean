import BinaryFormat.ByteOrder
import BinaryFormat.Expression
import BinaryFormat.Schema.FieldType
import BinaryFormat.Table
import BinaryFormat.Text.Case

/-!
# Schemas

A schema describes one binary format: enumerations, flag sets and structs under their names, and the
struct that a buffer starts with. Definitions refer to each other by name, and only decoding finds out
whether a name exists, so a schema with a dangling name is still a schema.

Numbers that a schema can hold are machine words, so a schema that was built is one that can be written
and loaded again.
-/

namespace BinaryFormat

namespace Schema

/-- A named value of an enumeration. -/
structure EnumEntry where
  value : Int64
  name : String
  description : Option String
deriving DecidableEq, Repr

/-- An enumeration: names for some values of an integer. -/
structure EnumDef where
  name : String
  /-- The named values; of two entries for one value the first counts. -/
  entries : List EnumEntry
deriving DecidableEq, Repr

/-- The entry of a value. -/
def EnumDef.find? (d : EnumDef) (value : Int64) : Option EnumEntry :=
  d.entries.find? (·.value == value)

/-- A named bit of a flag set. -/
structure FlagEntry where
  /-- The number of the bit, counted from the least significant one. -/
  bit : UInt32
  name : String
  description : Option String
deriving DecidableEq, Repr

/-- A flag set: names for some bits of a register. -/
structure FlagsDef where
  name : String
  flags : List FlagEntry
deriving DecidableEq, Repr

/-- A named bit and whether it is set. -/
structure FlagState where
  entry : FlagEntry
  isSet : Bool
deriving DecidableEq, Repr

/-- The state of every named bit in a register; bits past the register are unset. -/
def FlagsDef.states (d : FlagsDef) (register : UInt64) : List FlagState :=
  d.flags.map fun e => ⟨e, register.toNat.testBit e.bit.toNat⟩

/-- How many bytes a field takes. -/
inductive Size where
  | fixed (n : UInt64)
  /-- What is left of the scope. -/
  | remaining
  | computed (e : Expression)

/-- How often a field occurs. -/
inductive Repetition where
  /-- Once, and not as an array. -/
  | once
  /-- As often as an expression says. -/
  | count (n : Expression)
  /-- Until the scope is exhausted. -/
  | untilEnd
  /-- Until an expression holds after an element. -/
  | untilTrue (stop : Expression)

/-- A case of a switch: the struct that is decoded where the discriminant has this value. -/
structure SwitchCase where
  /-- What the discriminant is compared with. -/
  value : Expression
  target : String

/-- How a switch field chooses its struct. -/
structure SwitchDef where
  /-- What the cases are compared with. -/
  discriminant : Expression
  /-- The cases, tried in order. -/
  cases : List SwitchCase
  /-- The struct decoded where no case fits. -/
  fallback : Option String

/-- A range of bits in a bitfield, both ends included. -/
structure BitRange where
  name : String
  high : UInt32
  low : UInt32
  /-- The enumeration that names the values of the part. -/
  enumRef : Option String
deriving DecidableEq, Repr

namespace BitRange

/-- Whether the range is one: not reversed, and within 64 bits. -/
def isProper (b : BitRange) : Bool := b.low ≤ b.high && b.high < 64

/-- As many bits as the range has, the lowest ones, all set. -/
def mask (b : BitRange) : UInt64 := 0xffffffffffffffff >>> (63 - (b.high - b.low)).toUInt64

/-- The bits of a range, moved down to the least significant ones. -/
def extract (b : BitRange) (register : UInt64) : UInt64 :=
  (register >>> b.low.toUInt64) &&& b.mask

end BitRange

/-- What a stored checksum covers. -/
structure ChecksumDef where
  algorithm : String
  /-- The fields covered, in order. -/
  fields : List String
deriving DecidableEq, Repr

/-- Whether the algorithm is one that can be verified; a stored value of any other is taken on trust. -/
def ChecksumDef.isVerifiable (d : ChecksumDef) : Bool := Text.lower d.algorithm == "crc32"

/-- A field of a struct. -/
structure Field where
  name : String
  type : FieldType
  size : Option Size := none
  /-- How many bytes each element of an array takes. -/
  elementSize : Option Size := none
  enumRef : Option String := none
  flagsRef : Option String := none
  /-- The string table its value is an offset into. -/
  stringTable : Option String := none
  structRef : Option String := none
  repetition : Repetition := .once
  switch : Option SwitchDef := none
  bitRanges : List BitRange := []
  checksum : Option ChecksumDef := none
  /-- The bytes it should hold. -/
  expected : Option (List UInt8) := none
  /-- The field is there only where this holds. -/
  condition : Option Expression := none
  /-- The offset it is read at. -/
  seek : Option Expression := none
  /-- Whether reading goes on where it was before the seek. -/
  restore : Bool := false
  /-- The multiple that its offset is moved up to. -/
  align : Option UInt64 := none
  /-- Whether it is mere padding. -/
  padding : Bool := false
  /-- What should hold once it is read. -/
  validate : Option Expression := none
  value : Option Expression := none
  compression : Option String := none
  description : Option String := none

/-- The bytes a field takes, where the schema alone tells. -/
def Field.staticSize? (f : Field) : Option Nat :=
  match f.repetition, f.seek, f.align with
  | .once, none, none =>
    match f.size with
    | some (.fixed n) => some n.toNat
    | some _ => none
    | none => f.type.fixedWidth?
  | _, _, _ => none

/-- A struct: fields read one after the other. -/
structure StructDef where
  name : String
  fields : List Field
  /-- The byte order inside it, where it differs. -/
  order : Option ByteOrder := none
  /-- The multiple that its end is moved up to. -/
  align : Option UInt64 := none
  /-- Whether its bytes are a table of NUL-terminated texts. -/
  isStringTable : Bool := false

end Schema

/-- A binary format. -/
structure Schema where
  name : String
  /-- The byte order, where no struct says otherwise. -/
  order : ByteOrder := .little
  enums : Table Schema.EnumDef := []
  flags : Table Schema.FlagsDef := []
  structs : Table Schema.StructDef := []
  /-- The struct that a buffer starts with. -/
  root : String

namespace Schema

/-- Adds a struct under its own name. -/
def insertStruct (s : Schema) (d : StructDef) : Schema :=
  { s with structs := s.structs.insert d.name d }

/-- Adds an enumeration under a name. -/
def insertEnum (s : Schema) (name : String) (d : EnumDef) : Schema :=
  { s with enums := s.enums.insert name d }

/-- Adds a flag set under a name. -/
def insertFlags (s : Schema) (name : String) (d : FlagsDef) : Schema :=
  { s with flags := s.flags.insert name d }

end Schema

end BinaryFormat
