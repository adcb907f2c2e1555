import BinaryFormat.Document.Record
import BinaryFormat.Toml.Parser

/-!
# Options of a run

What happens to a field that cannot be decoded, how much a run may produce, and whether it was
cancelled beforehand. A limit of zero elements or nodes is no limit; nesting is always limited.
-/

namespace BinaryFormat

/-- What happens when a field cannot be decoded. -/
inductive Mode where
  | strict
  /-- The field is replaced and the run goes on. -/
  | recover
deriving DecidableEq, Repr

/-- The name of a mode in a document. -/
def Mode.name : Mode → String
  | strict => "strict"
  | recover => "recover"

/-- The mode of a name. -/
def Mode.ofName? (s : String) : Option Mode :=
  if s = "strict" then some strict else if s = "recover" then some recover else none

/-- The options of a run. -/
structure Options where
  /-- What happens when a field cannot be decoded. -/
  mode : Mode := .strict
  maxDepth : UInt32 := 256
  /-- How many elements an array may have; zero for any number. -/
  maxElements : UInt64 := 0
  /-- How many nodes a run may produce; zero for any number. -/
  maxNodes : UInt64 := 0
  /-- Whether the run was cancelled before it began. Somebody else may cancel a run at any moment while it goes on; that
  is left out here, and the answer stays what it was throughout the run. -/
  cancelled : Bool := false
deriving DecidableEq, Repr

namespace Options

/-- Reads options that belong to no run yet; `isNothing` says how nothing is written. -/
def record (isNothing : Document → Bool) : Record Options :=
  (fun mode depth elements nodes => ⟨mode, depth, elements, nodes, false⟩) <$>
    .withDefault "mode" (Document.toOneOf isNothing Mode.ofName?) .strict <*>
    .withDefault "max_depth" Document.toUInt32 256 <*>
    .withDefault "max_array_elements" Document.toUInt64 0 <*>
    .withDefault "max_total_nodes" Document.toUInt64 0

/-- The options that a document holds. -/
def ofDocument (d : Document) : Load Options := (record Document.isNull).load d

/-- The options that a TOML text holds. The notation has no `null`; an empty table or array stands for
it. -/
def ofToml? (text : List Char) : Option Options := do
  let d ← Toml.parse text
  ((record Document.isEmpty).load d).toOption

/-- The written form of options; whether the run was cancelled is no part of it. -/
def document (o : Options) : Document :=
  .table [("mode", .text o.mode.name), ("max_depth", .int o.maxDepth.toNat),
    ("max_array_elements", .int o.maxElements.toNat), ("max_total_nodes", .int o.maxNodes.toNat)]

/-- The options of a run that replaces what it cannot decode. -/
def recovering : Options := { mode := .recover }

end Options

end BinaryFormat
