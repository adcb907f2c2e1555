import BinaryFormat.Node
import BinaryFormat.Schema.Write

/-!
# Writing a decoded tree

Every node is a table of its name, type, place, content and attributes, and of the nodes below it
where there are any. What a node does not have is left out.
-/

namespace BinaryFormat

open Schema (always whenSet ofUInt64)

/-- The written form of bytes. -/
def hexDocument (bytes : List UInt8) : Document := .text (String.ofList (Hex.encode bytes))

/-- The written form of a flag and its state. -/
def Schema.FlagState.document (s : FlagState) : Document :=
  .ofPresent [always "name" (.text s.entry.name), always "bit" (.int s.entry.bit.toNat),
    always "set" (.bool s.isSet), whenSet "description" s.entry.description .text]

/-- The written form of flags and their states. -/
def Schema.FlagState.documents (states : List FlagState) : Document :=
  .list (states.map FlagState.document)

/-- The written form of a value, without its type. -/
def Value.document : Value → Document
  | int n => .int n.toInt
  | text s => .text s
  | bool b => .bool b

namespace Node

/-- The written form of what became of a checksum. -/
def Verdict.document : Verdict → Document
  | valid => .table [("valid", .bool true)]
  | mismatch computed => .table [("valid", .bool false), ("expected", .int computed.toNat)]

/-- The written form of an integer. An entry of an enumeration is written by its name and its description. -/
def IntegerContent.document (i : IntegerContent) : Document :=
  .ofPresent [always "value" (.int i.value.toInt),
    whenSet "enum_label" (i.entry.map (·.name)) .text,
    whenSet "enum_description" (i.entry.bind (·.description)) .text,
    whenSet "checksum" i.verdict Verdict.document, whenSet "string_ref" i.text .text]

/-- The written form of a part of a bitfield. -/
def BitPart.document (p : BitPart) : Document :=
  .ofPresent [always "name" (.text p.range.name), always "high" (.int p.range.high.toNat),
    always "low" (.int p.range.low.toNat), always "value" (ofUInt64 p.value),
    whenSet "enum_label" p.label .text]

namespace Content

/-- The name of a kind of content. -/
def kind : Content → String
  | struct => "struct"
  | array => "array"
  | integer _ => "integer"
  | float _ => "float"
  | text .. => "string"
  | bytes .. => "bytes"
  | bitfield .. => "bitfield"
  | flags .. => "flags"
  | compressed .. => "compressed"
  | computed _ => "virtual"
  | failed _ => "error"

/-- The written form of content, but for its kind; structs and arrays have nothing but their nodes. -/
def value? : Content → Option Document
  | struct | array => none
  | integer i => some i.document
  | float x => some (.text x.display)
  | text t e states => some <| .ofPresent [always "text" (.text t), always "encoding" (.text e.name),
      whenSet "flags" states Schema.FlagState.documents]
  | bytes data isExpected => some <| .ofPresent [always "data" (hexDocument data),
      whenSet "matches_expected" isExpected .bool]
  | bitfield raw parts => some <| .ofPresent [always "raw" (ofUInt64 raw),
      always "fields" (.list (parts.map BitPart.document))]
  | flags raw states => some <| .ofPresent [always "raw" (ofUInt64 raw),
      always "flags" (Schema.FlagState.documents states)]
  | compressed algorithm compressedSize decompressedSize raw => some <| .ofPresent [
      always "algorithm" (.text algorithm), always "compressed_size" (.int compressedSize),
      always "decompressed_size" (.int decompressedSize), whenSet "raw" raw hexDocument]
  | computed v => some v.document
  | failed message => some (.text message)

/-- The written form of content. -/
def document (c : Content) : Document :=
  .ofPresent [always "kind" (.text c.kind), ("value", c.value?)]

end Content

/-- The written form of the attributes of a node. -/
def attributes (n : Node) : Document :=
  .ofPresent [whenSet "description" n.description .text,
    ("padding", if n.isPadding then some (.bool true) else none), whenSet "valid" n.isValid .bool]

mutual

/-- The written form of a tree. -/
def document : Node → Document
  | n@{ name, typeName, offset, size, content, children, .. } =>
    .ofPresent [always "name" (.text name), always "type_name" (.text typeName),
      always "offset" (.int offset), always "size" (.int size), always "value" content.document,
      ("children", if children.isEmpty then none else some (.list (documents children))),
      always "attributes" n.attributes]

/-- The written forms of some trees. -/
def documents : List Node → List Document
  | [] => []
  | n :: rest => n.document :: documents rest

end

end Node

end BinaryFormat
