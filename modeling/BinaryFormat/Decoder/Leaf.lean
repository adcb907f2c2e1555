import BinaryFormat.Crc32
import BinaryFormat.Decoder.Setting

/-!
# Fields without fields of their own

Integers, floating-point numbers, texts, bytes, bitfields and computed values. Each of them but bytes and
floating-point numbers binds its name, so that expressions further on can refer to it.
-/

namespace BinaryFormat

open Schema (BitRange ChecksumDef Field)

/-- What becomes of a stored checksum: it is compared with that of the bytes of the first nodes of the
names it covers, and names without a node contribute nothing. -/
def Schema.ChecksumDef.verdict (c : ChecksumDef) (r : Reader) (nodes : List Node) (stored : UInt64) :
    Node.Verdict :=
  if c.isVerifiable then
    let covered := c.fields.filterMap fun name => nodes.find? (·.name == name)
    let crc := covered.foldl (fun crc n => crc.update (r.slice n.offset n.size)) Crc32.start
    if crc.finish.toUInt64 = stored then .valid else .mismatch crc.finish
  else .valid

namespace Decoder

open Node (Content Number)

variable (d : Decoder)

/-- Reads an integer of this many bytes in the byte order in force. -/
def number (width : Nat) (isSigned : Bool) : Decoding Number :=
  if isSigned then Number.signed <$> .read (·.readSigned width)
  else Number.unsigned <$> .read (·.readUnsigned width)

/-- The entry of an enumeration, where one is named. -/
def entryOf (enumRef : Option String) (value : Int64) : Decoding (Option Schema.EnumEntry) :=
  match enumRef with
  | some name => do pure ((← d.enumDef name).find? value)
  | none => pure none

/-- The states of the flags of a register, where a flag set is named. -/
def statesOf (flagsRef : Option String) (register : UInt64) :
    Decoding (Option (List Schema.FlagState)) :=
  match flagsRef with
  | some name => do pure (some ((← d.flagsDef name).states register))
  | none => pure none

/-- Decodes an integer. It is a register of flags, or else may name its value, refer to a text and be
a checksum; elements of arrays have no nodes before them to check. -/
def integer (f : Field) (siblings : Option (List Node)) (width : Nat) (isSigned : Bool) :
    Decoding Content := do
  let n ← number width isSigned
  .bindName f.name (.int n.toInt64)
  match ← d.statesOf f.flagsRef n.toUInt64 with
  | some states => pure (.flags n.toUInt64 states)
  | none => do
    let entry ← d.entryOf f.enumRef n.toInt64
    let reader := (← Decoding.run).reader
    pure <| .integer {
      value := n, entry
      text := f.stringTable.bind fun table => reader.textAt? table n.toUInt64.toNat
      verdict := do pure ((← f.checksum).verdict reader (← siblings) n.toUInt64) }

/-- Decodes bytes as they are, and compares them with the ones expected where the field says which. -/
def bytes (f : Field) : Decoding Content := do
  let n ← fieldSize f
  let data ← .read (·.read n)
  pure (.bytes data (f.expected.map (· == data)))

/-- The number of bytes of a text that count as a register of flags. -/
def textRegister : Nat := 4

/-- Decodes an ASCII text, whose first bytes may be a register of flags at the same time. -/
def ascii (f : Field) : Decoding Content := do
  let n ← fieldSize f
  let data ← .read (·.read n)
  let register := UInt64.ofNat (ByteOrder.big.value (data.take textRegister))
  let states ← d.statesOf f.flagsRef register
  let text := Text.decode .ascii data
  .bindName f.name (.text text)
  pure (.text text .ascii states)

/-- Decodes a text of declared size. It is bound with everything that pads it. -/
def text (f : Field) (e : Text.Encoding) : Decoding Content := do
  let n ← fieldSize f
  let text ← .read (·.readText n e)
  .bindName f.name (.text text)
  pure (.text text e none)

/-- Decodes a text that ends at a NUL byte. -/
def terminated (f : Field) (e : Text.Encoding) : Decoding Content := do
  let text ← .read (·.readTerminated e)
  .bindName f.name (.text text)
  pure (.text text e none)

/-- Takes one part out of a bitfield; a range that is none fails whatever the bits are. -/
def bitPart (register : UInt64) (b : BitRange) : Decoding Node.BitPart :=
  if b.isProper then do
    let entry ← d.entryOf b.enumRef (b.extract register).toInt64
    pure ⟨b, b.extract register, entry.map (·.name)⟩
  else .fail (.bitRange b.name b.high.toNat b.low.toNat)

/-- Decodes a bitfield. Its name is bound to the whole register, and its parts bind nothing. -/
def bitfield (f : Field) : Decoding Content := do
  let n ← fieldSize f
  if n = 1 ∨ n = 2 ∨ n = 4 then do
    let register ← .read (·.readUnsigned n)
    .bindName f.name (.int register.toInt64)
    pure (.bitfield register (← f.bitRanges.mapM (d.bitPart register)))
  else .fail (.bitfieldSize f.name n)

/-- Evaluates a field that has no bytes. -/
def computed (f : Field) : Decoding Content :=
  match f.value with
  | some e => do
    let v ← .eval e
    .bindName f.name v
    pure (.computed v)
  | none => .fail (.missingValue f.name)

/-- The node of a field that has nothing below it: it covers the bytes that were read. -/
def leaf (f : Field) (content : Decoding Content) : Decoding Node := do
  let start ← .pos
  let content ← content
  let stop ← .pos
  pure { name := f.name, typeName := f.type.name, offset := start, size := stop - start, content }

end Decoder

end BinaryFormat
