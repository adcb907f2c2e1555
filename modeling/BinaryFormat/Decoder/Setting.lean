import BinaryFormat.Decoding
import BinaryFormat.Node

/-!
# What decoding follows

A decoder is a schema and the options of its runs. Names of definitions are looked up when they are
needed, so a dangling one only fails a run that gets to it.
-/

namespace BinaryFormat

open Schema (EnumDef Field FlagsDef StructDef)

/-- A schema and the options of its runs. -/
structure Decoder where
  schema : Schema
  options : Options

namespace Decoder

variable (d : Decoder)

/-! ### Definitions -/

/-- The struct of a name. -/
def structDef (name : String) : Decoding StructDef :=
  match d.schema.structs.get? name with
  | some s => pure s
  | none => .fail (.unknownStruct name)

/-- The enumeration of a name. -/
def enumDef (name : String) : Decoding EnumDef :=
  match d.schema.enums.get? name with
  | some e => pure e
  | none => .fail (.unknownEnum name)

/-- The flag set of a name. -/
def flagsDef (name : String) : Decoding FlagsDef :=
  match d.schema.flags.get? name with
  | some f => pure f
  | none => .fail (.unknownFlags name)

/-- The number of bytes that a field takes. -/
def fieldSize (f : Field) : Decoding Nat :=
  match f.size with
  | some (.fixed n) => pure n.toNat
  | some .remaining => do pure (← Decoding.run).reader.remaining
  | some (.computed e) => .evalNat "size" e
  | none => .fail (.missingSize f.name f.type)

/-! ### Limits -/

/-- Fails if the run was cancelled. -/
def checkCancelled : Decoding Unit := if d.options.cancelled then .fail .cancelled else pure ()

/-- Counts one node more, and fails if that is one too many. -/
def countNode : Decoding Unit := do
  Decoding.modify fun run => { run with nodes := run.nodes + 1 }
  let max := d.options.maxNodes.toNat
  if 0 < max ∧ max < (← Decoding.run).nodes then .fail (.tooManyNodes max) else pure ()

/-- Fails if an array must not have so many elements. -/
def checkElements (count : Nat) : Decoding Unit :=
  let max := d.options.maxElements.toNat
  if 0 < max ∧ max < count then .fail (.tooManyElements count max) else pure ()

/-- Goes into a struct. -/
def descend : Decoding Unit := do
  Decoding.modify fun run => { run with depth := run.depth + 1 }
  let max := d.options.maxDepth.toNat
  if max < (← Decoding.run).depth then .fail (.tooDeep max) else pure ()

/-- Comes out of a struct again. -/
def ascend : Decoding Unit := Decoding.modify fun run => { run with depth := run.depth - 1 }

end Decoder

end BinaryFormat
