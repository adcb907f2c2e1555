import BinaryFormat.Compression
import BinaryFormat.Decoder.Leaf

/-!
# Fields

A field is decoded in the order: its condition, its seek, its alignment, its bytes, its validation. Its
bytes are a leaf, a struct, a compressed stream or an array of these.

How a struct is decoded is a parameter here, `nested`: structs hold fields and fields hold structs, and
this half of the circle does not depend on how it is closed. The other parameter, `rounds`, bounds the
rounds of every array of which only its elements tell where it ends.
-/

namespace BinaryFormat

open Schema (Field StructDef)

namespace Decoder

variable (d : Decoder) (rounds : Nat) (nested : StructDef → String → Decoding Node)

/-! ### Structs inside fields -/

/-- Decodes a struct in a field: in a scope of its own where the field declares a size. -/
def structField (f : Field) (s : StructDef) : Decoding Node :=
  match f.size with
  | none => nested s f.name
  | some _ => do
    let start ← .pos
    let size ← fieldSize f
    .move (·.enter size)
    let node ← nested s f.name
    .move (·.leave)
    pure { node with offset := start, size }

/-- The first struct whose case equals the discriminant. -/
def chosenCase (discriminant : Value) : List Schema.SwitchCase → Decoding (Option String)
  | [] => pure none
  | c :: rest => do
    if discriminant.looseEq (← .eval c.value) then pure (some c.target)
    else chosenCase discriminant rest

/-- Decodes the struct that a switch chooses. -/
def switchField (f : Field) : Decoding Node :=
  match f.switch with
  | none => .fail (.missingSwitch f.name)
  | some s => do
    let discriminant ← .eval s.discriminant
    match (← chosenCase discriminant s.cases).or s.fallback with
    | some target => do structField nested f (← d.structDef target)
    | none => .fail (.noCase discriminant)

/-- Decodes another buffer in the middle of a run. What is counted goes on counting, while place, scopes
and bindings begin anew and are dropped afterwards. -/
def inBuffer {α : Type} (data : Buffer) (x : Decoding α) : Decoding α := fun run =>
  match x { run with reader := Reader.ofBuffer data d.schema.order } with
  | .done a inner => .done a { run with nodes := inner.nodes, recovered := inner.recovered }
  | .failed f inner => .failed f { run with nodes := inner.nodes, recovered := inner.recovered }
  | .unfinished => .unfinished

/-- Decompresses the bytes of a field, and decodes the struct in them where the field names one. -/
def compressedField (f : Field) : Decoding Node := do
  let start ← .pos
  let size ← fieldSize f
  let data ← .read (·.read size)
  let algorithm := f.compression.getD Compression.defaultName
  match Compression.ofName? algorithm with
  | none => .fail (.unknownCompression (Text.lower algorithm))
  | some c =>
    match c.decompress? data with
    | none => .fail (.corrupt algorithm)
    | some out => do
      -- What came out is kept in the node only where no struct is decoded in it.
      let node (raw : Option (List UInt8)) (children : List Node) : Node :=
        { name := f.name, typeName := f.type.name, offset := start, size, children
          content := .compressed algorithm size out.size raw }
      match f.structRef with
      | none => pure (node (some out.toList) [])
      | some name => do
        let s ← d.structDef name
        pure (node none [← d.inBuffer out (nested s f.name)])

/-- Decodes one occurrence of a field. -/
def single (f : Field) (siblings : Option (List Node)) : Decoding Node :=
  match f.type with
  | .u8 => leaf f (d.integer f siblings 1 false)
  | .u16 => leaf f (d.integer f siblings 2 false)
  | .u32 => leaf f (d.integer f siblings 4 false)
  | .u64 => leaf f (d.integer f siblings 8 false)
  | .i8 => leaf f (d.integer f siblings 1 true)
  | .i16 => leaf f (d.integer f siblings 2 true)
  | .i32 => leaf f (d.integer f siblings 4 true)
  | .i64 => leaf f (d.integer f siblings 8 true)
  | .f32 => leaf f (Node.Content.float <$> .read (·.readBinary32))
  | .f64 => leaf f (Node.Content.float <$> .read (·.readBinary64))
  | .bytes => leaf f (bytes f)
  | .ascii => leaf f (d.ascii f)
  | .utf8 => leaf f (text f .utf8)
  | .utf16le => leaf f (text f .utf16le)
  | .utf16be => leaf f (text f .utf16be)
  | .shiftJis => leaf f (text f .shiftJis)
  | .latin1 => leaf f (text f .latin1)
  | .asciiz => leaf f (terminated f .ascii)
  | .utf8z => leaf f (terminated f .utf8)
  | .bitfield => leaf f (d.bitfield f)
  | .virtual => leaf f (computed f)
  | .struct =>
    match f.structRef with
    | some name => do structField nested f (← d.structDef name)
    | none => .fail (.missingStruct f.name)
  | .switch => switchField d nested f
  | .compressed => compressedField d nested f

/-! ### Arrays -/

/-- What an element of an array is called: its number in brackets, from zero on. -/
def elementName (i : Nat) : String := "[" ++ toString i ++ "]"

/-- The field that each element of an array is. -/
def elementField (f : Field) : Field :=
  { f with repetition := .once, size := f.elementSize.or f.size }

/-- Decodes one element of an array and counts it; a cancelled run fails in front of it. -/
def element (f : Field) (i : Nat) : Decoding Node := do
  d.checkCancelled
  let node ← .within (elementName i) f.type (single d nested f none)
  d.countNode
  pure { node with name := elementName i }

/-- Decodes `left` more elements, given those before, last first. -/
def countedElements (f : Field) : (left i : Nat) → List Node → Decoding (List Node)
  | 0, _, found => pure found.reverse
  | left + 1, i, found => do
    let node ← element d nested f i
    countedElements f left (i + 1) (node :: found)

/-- Decodes elements, given those before, last first, until `isLast` holds after one. An element that
leaves the position where it was is the last one, too: another one would do the same. -/
def openElements (f : Field) (isLast : Decoding Bool) :
    (rounds i : Nat) → List Node → Decoding (List Node)
  | 0, _, _ => .unfinished
  | rounds + 1, i, found => do
    d.checkElements (i + 1)
    let before ← .pos
    let node ← element d nested f i
    if (← .pos) = before then pure (node :: found).reverse
    else if ← isLast then pure (node :: found).reverse
    else openElements f isLast rounds (i + 1) (node :: found)

/-- Whether nothing is left of the scope. -/
def isExhausted : Decoding Bool := do pure (← Decoding.run).reader.isExhausted

/-- Decodes the elements of an array. Of a count that is too large none is decoded, while an open end is checked
element by element. -/
def elements (f : Field) : Decoding (List Node) :=
  match f.repetition with
  | .once => pure []
  | .count n => do
    let n ← .evalNat "repeat count" n
    d.checkElements n
    countedElements d nested (elementField f) n 0 []
  | .untilEnd => do
    if ← isExhausted then pure []
    else openElements d nested (elementField f) isExhausted rounds 0 []
  | .untilTrue stop =>
    let isLast : Decoding Bool := do if ← .holds stop then pure true else isExhausted
    openElements d nested (elementField f) isLast rounds 0 []

/-- Decodes an array. Its size is how far the position moved, and zero where it moved back. -/
def array (f : Field) : Decoding Node := do
  let start ← .pos
  let children ← elements d rounds nested f
  let stop ← .pos
  pure { name := f.name, typeName := f.type.name, offset := start, size := stop - start
         content := .array, children }

/-! ### Steering -/

/-- Whether the field is there at all. -/
def isPresent (f : Field) : Decoding Bool :=
  match f.condition with
  | none => pure true
  | some e => .holds e

/-- Moves to where the field says it is, and yields the position before. -/
def seek (f : Field) : Decoding (Option Nat) :=
  match f.seek with
  | none => pure none
  | some e => do
    let target ← .evalNat "seek" e
    let before ← .pos
    .move (·.seek target)
    pure (some before)

/-- Moves up to a multiple, where one is asked for. -/
def align (multiple : Option UInt64) : Decoding Unit :=
  match multiple with
  | none => pure ()
  | some n => do
    let _ ← Decoding.read (·.align n.toNat)

/-- Whether what should hold of the field does. -/
def validity (f : Field) : Decoding (Option Bool) :=
  match f.validate with
  | none => pure none
  | some e => some <$> .holds e

/-- Moves back to the position before a seek. -/
def restore (f : Field) (before : Option Nat) : Decoding Unit :=
  match before with
  | some pos => if f.restore then .jump pos else pure ()
  | none => pure ()

/-- Decodes a field that is there. -/
def presentField (f : Field) (siblings : List Node) : Decoding Node := do
  let before ← seek f
  align f.align
  let node ← match f.repetition with
    | .once => single d nested f (some siblings)
    | _ => array d rounds nested f
  let isValid ← validity f
  restore f before
  pure { node with description := f.description, isPadding := f.padding, isValid }

/-- Decodes a field, given the nodes of the fields before it in the struct, or passes it over. -/
def field (f : Field) (siblings : List Node) : Decoding (Option Node) :=
  .within f.name f.type do
    if ← isPresent f then some <$> presentField d rounds nested f siblings else pure none

end Decoder

end BinaryFormat
