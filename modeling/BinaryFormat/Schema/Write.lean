import BinaryFormat.Document
import BinaryFormat.Hex
import BinaryFormat.Schema.Definition

/-!
# Writing a schema

The written form says what differs from the defaults and a few entries that are always there. An
expression is written as the text it was read from.
-/

namespace BinaryFormat.Schema

/-- An entry that is written when its value is set. -/
def whenSet {α : Type} (key : String) (a : Option α) (f : α → Document) : String × Option Document :=
  (key, a.map f)

/-- An entry that is written whatever its value is. -/
def always (key : String) (d : Document) : String × Option Document := (key, some d)

/-- The written form of an expression. -/
def ofExpression (e : Expression) : Document := .text e.source

/-- The written form of a 64-bit number. -/
def ofUInt64 (n : UInt64) : Document := .int n.toNat

/-- The written form of a byte order. -/
def ofOrder (o : ByteOrder) : Document := .text o.name

/-- The written form of an enumeration entry. -/
def EnumEntry.document (e : EnumEntry) : Document :=
  .ofPresent [always "value" (.int e.value.toInt), always "name" (.text e.name),
    whenSet "description" e.description .text]

/-- The written form of an enumeration. -/
def EnumDef.document (d : EnumDef) : Document :=
  .ofPresent [always "name" (.text d.name), always "entries" (.list (d.entries.map EnumEntry.document))]

/-- The written form of a named bit. -/
def FlagEntry.document (e : FlagEntry) : Document :=
  .ofPresent [always "bit" (.int e.bit.toNat), always "name" (.text e.name),
    whenSet "description" e.description .text]

/-- The written form of a flag set. -/
def FlagsDef.document (d : FlagsDef) : Document :=
  .ofPresent [always "name" (.text d.name), always "flags" (.list (d.flags.map FlagEntry.document))]

/-- The written form of a size. -/
def Size.document : Size → Document
  | fixed n => ofUInt64 n
  | remaining => .text "remaining"
  | computed e => ofExpression e

/-- The written form of a repetition, unless it is none. -/
def Repetition.document? : Repetition → Option Document
  | once => none
  | count n => some (.table [("count", ofExpression n)])
  | untilEnd => some (.text "until_eof")
  | untilTrue stop => some (.table [("until_value", ofExpression stop)])

/-- The written form of a case. -/
def SwitchCase.document (c : SwitchCase) : Document :=
  .ofPresent [always "value" (ofExpression c.value), always "target" (.text c.target)]

/-- The written form of a switch. -/
def SwitchDef.document (d : SwitchDef) : Document :=
  .ofPresent [always "discriminant" (ofExpression d.discriminant),
    always "cases" (.list (d.cases.map SwitchCase.document)), whenSet "default" d.fallback .text]

/-- The written form of a bit range. -/
def BitRange.document (b : BitRange) : Document :=
  .ofPresent [always "name" (.text b.name), always "high" (.int b.high.toNat),
    always "low" (.int b.low.toNat), whenSet "enum" b.enumRef .text]

/-- The written form of what a checksum covers. -/
def ChecksumDef.document (c : ChecksumDef) : Document :=
  .ofPresent [always "algorithm" (.text c.algorithm), always "fields" (.list (c.fields.map .text))]

/-- The written form of a list of bit ranges, unless there are none. -/
def bitRangesDocument? (ranges : List BitRange) : Option Document :=
  if ranges.isEmpty then none else some (.list (ranges.map BitRange.document))

/-- The written form of a field. Its two truth values are written even where they are false. -/
def Field.document (f : Field) : Document :=
  .ofPresent [always "name" (.text f.name), always "type" (.text f.type.name),
    whenSet "size" f.size Size.document, whenSet "element_size" f.elementSize Size.document,
    whenSet "enum" f.enumRef .text, whenSet "flags" f.flagsRef .text,
    whenSet "string_table" f.stringTable .text, whenSet "struct" f.structRef .text,
    ("repeat", f.repetition.document?), whenSet "switch" f.switch SwitchDef.document,
    ("bitfield", bitRangesDocument? f.bitRanges), whenSet "checksum" f.checksum ChecksumDef.document,
    whenSet "expected" f.expected fun b => .text (String.ofList (Hex.encode b)),
    whenSet "if" f.condition ofExpression, whenSet "seek" f.seek ofExpression,
    always "restore" (.bool f.restore), whenSet "align" f.align ofUInt64,
    always "padding" (.bool f.padding), whenSet "validate" f.validate ofExpression,
    whenSet "value" f.value ofExpression, whenSet "compression" f.compression .text,
    whenSet "description" f.description .text]

/-- The written form of a struct. -/
def StructDef.document (d : StructDef) : Document :=
  .ofPresent [always "name" (.text d.name), always "fields" (.list (d.fields.map Field.document)),
    whenSet "endianness" d.order ofOrder, whenSet "align" d.align ofUInt64,
    always "is_string_table" (.bool d.isStringTable)]

/-- The written form of definitions under their names. -/
def tableDocument {α : Type} (f : α → Document) (t : Table α) : Document :=
  .table (t.map fun e => (e.1, f e.2))

/-- The written form of a schema. -/
def document (s : Schema) : Document :=
  .ofPresent [always "name" (.text s.name), always "endianness" (ofOrder s.order),
    always "enums" (tableDocument EnumDef.document s.enums),
    always "flags" (tableDocument FlagsDef.document s.flags),
    always "structs" (tableDocument StructDef.document s.structs), always "root" (.text s.root)]

end BinaryFormat.Schema
