import BinaryFormat.Document.Record
import BinaryFormat.Schema.Definition

/-!
# Loading a schema

Loading reads every expression, so a schema that loads holds no text that is none. Definitions without a
name of their own take the key they stand under.
-/

namespace BinaryFormat.Schema

/-- Loads a named value. -/
def EnumEntry.record : Record EnumEntry :=
  EnumEntry.mk <$> .required "value" Document.toInt64 <*> .required "name" Document.toText <*>
    .optional "description" Document.toText

/-- Loads an enumeration; it may leave its name to the key that it stands under. -/
def EnumDef.record : Record EnumDef :=
  EnumDef.mk <$> .withDefault "name" Document.toText "" <*>
    .required "entries" (Document.toListOf EnumEntry.record.load)

/-- Loads a named bit. -/
def FlagEntry.record : Record FlagEntry :=
  FlagEntry.mk <$> .required "bit" Document.toUInt32 <*> .required "name" Document.toText <*>
    .optional "description" Document.toText

/-- Loads a flag set; it may leave its name to the key that it stands under. -/
def FlagsDef.record : Record FlagsDef :=
  FlagsDef.mk <$> .withDefault "name" Document.toText "" <*>
    .required "flags" (Document.toListOf FlagEntry.record.load)

/-- Loads a size: a number of bytes, the word for what is left, or an expression. -/
def Size.load : Document → Load Size
  | .text s =>
    if Text.trim s.toList = "remaining".toList then .ok .remaining
    else (Document.text s).toExpression.map .computed
  | d => d.toUInt64.map .fixed

/-- Loads a repetition: a table with the count or with the condition to stop at, or a word. -/
def Repetition.load : Document → Load Repetition
  | .table [("count", d)] => d.toExpression.map .count
  | .table [("until_value", d)] => d.toExpression.map .untilTrue
  | d => d.toName fun s =>
    if s = "none" then some .once else if s = "until_eof" then some .untilEnd else none

/-- Loads a case of a switch. -/
def SwitchCase.record : Record SwitchCase :=
  SwitchCase.mk <$> .required "value" Document.toExpression <*> .required "target" Document.toText

/-- Loads a switch; it may have no case at all. -/
def SwitchDef.record : Record SwitchDef :=
  SwitchDef.mk <$> .required "discriminant" Document.toExpression <*>
    .withDefault "cases" (Document.toListOf SwitchCase.record.load) [] <*>
    .optional "default" Document.toText

/-- Loads a bit range. Whether it is a proper one is not asked before it is decoded. -/
def BitRange.record : Record BitRange :=
  BitRange.mk <$> .required "name" Document.toText <*> .required "high" Document.toUInt32 <*>
    .required "low" Document.toUInt32 <*> .optional "enum" Document.toText

/-- Loads what a checksum covers. -/
def ChecksumDef.record : Record ChecksumDef :=
  ChecksumDef.mk <$> .required "algorithm" Document.toText <*>
    .required "fields" (Document.toListOf Document.toText)

/-- Loads a field. Only its name and its type have to be there; what a type needs beyond them is missed when the field
is decoded. -/
def Field.record : Record Field :=
  Field.mk <$> .required "name" Document.toText <*>
    .required "type" (Document.toName FieldType.ofName?) <*>
    .optional "size" Size.load <*> .optional "element_size" Size.load <*>
    .optional "enum" Document.toText <*> .optional "flags" Document.toText <*>
    .optional "string_table" Document.toText <*> .optional "struct" Document.toText <*>
    .withDefault "repeat" Repetition.load .once <*>
    .optional "switch" SwitchDef.record.load <*>
    .withDefault "bitfield" (Document.toListOf BitRange.record.load) [] <*>
    .optional "checksum" ChecksumDef.record.load <*> .optional "expected" Document.toBytes <*>
    .optional "if" Document.toExpression <*> .optional "seek" Document.toExpression <*>
    .withDefault "restore" Document.toBool false <*> .optional "align" Document.toUInt64 <*>
    .withDefault "padding" Document.toBool false <*>
    .optional "validate" Document.toExpression <*> .optional "value" Document.toExpression <*>
    .optional "compression" Document.toText <*> .optional "description" Document.toText

/-- Loads a byte order. -/
def loadOrder (d : Document) : Load ByteOrder := d.toName ByteOrder.ofName?

/-- Loads a struct; it may leave its name to the key that it stands under. -/
def StructDef.record : Record StructDef :=
  StructDef.mk <$> .withDefault "name" Document.toText "" <*>
    .required "fields" (Document.toListOf Field.record.load) <*>
    .optional "endianness" loadOrder <*> .optional "align" Document.toUInt64 <*>
    .withDefault "is_string_table" Document.toBool false

/-- The name of a definition: its own, or the key it stands under. -/
def nameUnder (key name : String) : String := if name.isEmpty then key else name

/-- Loads the enumerations under their names. -/
def loadEnums (d : Document) : Load (Table EnumDef) := do
  let defs ← d.toTableOf EnumDef.record.load
  pure (defs.map fun e => (e.1, { e.2 with name := nameUnder e.1 e.2.name }))

/-- Loads the flag sets under their names. -/
def loadFlags (d : Document) : Load (Table FlagsDef) := do
  let defs ← d.toTableOf FlagsDef.record.load
  pure (defs.map fun e => (e.1, { e.2 with name := nameUnder e.1 e.2.name }))

/-- Loads the structs under their names. -/
def loadStructs (d : Document) : Load (Table StructDef) := do
  let defs ← d.toTableOf StructDef.record.load
  pure (defs.map fun e => (e.1, { e.2 with name := nameUnder e.1 e.2.name }))

/-- Loads a schema. -/
def record : Record Schema :=
  Schema.mk <$> .required "name" Document.toText <*>
    .withDefault "endianness" loadOrder .little <*> .withDefault "enums" loadEnums [] <*>
    .withDefault "flags" loadFlags [] <*> .required "structs" loadStructs <*>
    .required "root" Document.toText

/-- The schema that a document holds. -/
def ofDocument (d : Document) : Load Schema := record.load d

end BinaryFormat.Schema
