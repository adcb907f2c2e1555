import BinaryFormat.Binary64
import BinaryFormat.Schema.Definition
import BinaryFormat.Value

/-!
# Decoded trees

A node stands for a stretch of bytes and says what they hold. The members of a struct, the elements of
an array and the struct inside a compressed stream hang below it; everything else is a leaf. Offsets
count from the start of the buffer that a node was decoded from, and below a compressed node that is
the decompressed one.
-/

namespace BinaryFormat

namespace Node

/-- An integer as it was read, of up to 64 bits and of either signedness. -/
inductive Number where
  | unsigned (n : UInt64)
  | signed (n : Int64)
deriving DecidableEq, Repr

namespace Number

/-- The integer itself. -/
def toInt : Number → Int
  | unsigned n => n.toNat
  | signed n => n.toInt

/-- The integer as expressions see it; large unsigned ones come out negative. -/
def toInt64 : Number → Int64
  | unsigned n => n.toInt64
  | signed n => n

/-- The 64-bit pattern of the integer. -/
def toUInt64 : Number → UInt64
  | unsigned n => n
  | signed n => n.toUInt64

end Number

/-- What became of a stored checksum. -/
inductive Verdict where
  | valid
  | mismatch (computed : UInt32)
deriving DecidableEq, Repr

/-- An integer and what the schema makes of it. -/
structure IntegerContent where
  value : Number
  entry : Option Schema.EnumEntry := none
  /-- What became of the checksum that it is. -/
  verdict : Option Verdict := none
  /-- The text that it refers to. -/
  text : Option String := none
deriving DecidableEq, Repr

/-- A part of a bitfield: its bits, and the name of the value that they make. -/
structure BitPart where
  range : Schema.BitRange
  value : UInt64
  label : Option String
deriving DecidableEq, Repr

/-- What the bytes of a node hold. -/
inductive Content where
  /-- A struct, its members below. -/
  | struct
  /-- An array, its elements below. -/
  | array
  | integer (i : IntegerContent)
  | float (x : Binary64)
  /-- A text, and the flags that its bytes are at the same time. -/
  | text (text : String) (encoding : Text.Encoding) (flags : Option (List Schema.FlagState))
  /-- Bytes, and whether they are the ones expected. -/
  | bytes (data : List UInt8) (isExpected : Option Bool)
  | bitfield (raw : UInt64) (parts : List BitPart)
  | flags (raw : UInt64) (states : List Schema.FlagState)
  /-- A compressed stream; its content is kept unless a struct below shows it. -/
  | compressed (algorithm : String) (compressedSize decompressedSize : Nat)
    (raw : Option (List UInt8))
  | computed (v : Value)
  /-- A field that could not be decoded. -/
  | failed (message : String)
deriving DecidableEq, Repr

end Node

/-- A node of a decoded tree. -/
structure Node where
  /-- The name of the field, or the number of the element in brackets. -/
  name : String
  /-- The name of the declared type, or of the struct. -/
  typeName : String
  offset : Nat
  size : Nat
  content : Node.Content
  children : List Node := []
  description : Option String := none
  /-- Whether the field is mere padding. -/
  isPadding : Bool := false
  /-- Whether what should hold of the field does. -/
  isValid : Option Bool := none

namespace Node

/-- A node without a name, a size or anything below it. -/
instance : Inhabited Node := ⟨⟨"", "", 0, 0, .struct, [], none, false, none⟩⟩

/-! ### Comparing nodes -/

mutual

/-- Compares two nodes part by part, and their children node by node. -/
def decEq : (a b : Node) → Decidable (a = b)
  | ⟨n, t, o, s, c, ns, d, p, v⟩, ⟨n', t', o', s', c', ns', d', p', v'⟩ =>
    have := decEqList ns ns'
    decidable_of_iff (n = n' ∧ t = t' ∧ o = o' ∧ s = s' ∧ c = c' ∧ ns = ns' ∧ d = d' ∧ p = p' ∧ v = v') (by simp)

/-- Compares two lists of nodes. -/
def decEqList : (as bs : List Node) → Decidable (as = bs)
  | [], [] => isTrue rfl
  | [], _ :: _ | _ :: _, [] => isFalse nofun
  | a :: as, b :: bs =>
    have := decEq a b
    have := decEqList as bs
    decidable_of_iff (a = b ∧ as = bs) (by simp)

end

/-- Two trees are equal or not, and which of the two can be computed. -/
instance : DecidableEq Node := decEq

/-! ### Finding nodes -/

/-- The first node below that has this name. -/
def child? (n : Node) (name : String) : Option Node := n.children.find? (·.name == name)

/-- The node that one segment of a path leads to: in an array an index counts its elements, and
otherwise the segment is a name. -/
def segment? (n : Node) (segment : List Char) : Option Node :=
  match n.content, Numeral.index? segment with
  | .array, some i => n.children[i]?
  | _, _ => n.child? (String.ofList segment)

/-- The segments between the dots of a path. -/
def segments : List Char → List (List Char)
  | [] => [[]]
  | c :: cs =>
    if c = '.' then [] :: segments cs
    else match segments cs with
      | [] => [[c]]
      | s :: rest => (c :: s) :: rest

/-- The node that a dotted path leads to. -/
def path? (n : Node) (path : String) : Option Node := (segments path.toList).foldlM segment? n

/-- The elements of an array; any other node has none. -/
def elements (n : Node) : List Node :=
  match n.content with
  | .array => n.children
  | _ => []

mutual

/-- The number of nodes in a tree. -/
def count : Node → Nat
  | { children, .. } => 1 + countAll children

/-- The number of nodes in some trees. -/
def countAll : List Node → Nat
  | [] => 0
  | n :: rest => n.count + countAll rest

end

/-! ### Reading content -/

/-- Whether the field could not be decoded. -/
def isFailed (n : Node) : Bool :=
  match n.content with
  | .failed _ => true
  | _ => false

/-- The integer that a node holds, for registers their whole pattern. -/
def int? (n : Node) : Option Int64 :=
  match n.content with
  | .integer i => some i.value.toInt64
  | .bitfield raw _ => some raw.toInt64
  | .flags raw _ => some raw.toInt64
  | .computed (.int v) => some v
  | _ => none

/-- The text that a node holds. -/
def text? (n : Node) : Option String :=
  match n.content with
  | .text t _ _ => some t
  | _ => none

/-- The name of the integer that a node holds. -/
def label? (n : Node) : Option String :=
  match n.content with
  | .integer i => i.entry.map (·.name)
  | _ => none

end Node

end BinaryFormat
