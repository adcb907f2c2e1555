import BinaryFormat.Decoder.Field

/-!
# Structs

The fields of a struct are decoded one after the other. In recovery a field that fails for a reason in
the data becomes a node that says so, and decoding goes on behind it where the schema alone tells how
long it is; otherwise nothing is known about what follows, and the struct ends there.
-/

namespace BinaryFormat

open Schema (Field StructDef)

namespace Decoder

variable (d : Decoder) (rounds : Nat)

/-- The node of a field that failed. -/
def failedNode (f : Field) (start size : Nat) (failure : Failure) : Node :=
  { name := f.name, typeName := f.type.name, offset := start, size
    content := .failed failure.message }

/-- What is reported of a failure in a field. -/
def recoveredFailure (f : Field) (before : Run) (failure : Failure) : Recovered :=
  let place := failure.place.getD
    ⟨before.pos, Run.extendPath before.pathText f.name, f.type⟩
  ⟨place.offset, place.path, failure.report⟩

/-- Undoes what a field that failed has left open since `before`. -/
def backOut (before : Run) : Decoding Unit :=
  .modify fun run => { run with
    reader := run.reader.unwind before.reader.scopes.length
    path := before.path, depth := before.depth }

/-- The position behind a field that failed, where the schema alone tells; it does not leave the
scope. -/
def resumption (f : Field) (start : Nat) : Decoding (Option Nat) := do
  let stop := (← Decoding.run).reader.scope.stop
  pure (f.staticSize?.map fun size => min (start + size) stop)

/-- Puts a node in the place of a field that failed, and yields it together with the position at which
decoding goes on. -/
def replaceField (f : Field) (before : Run) (failure : Failure) : Decoding (Node × Option Nat) := do
  backOut before
  let resume ← resumption f before.pos
  .modify fun run =>
    { run with recovered := recoveredFailure f before failure :: run.recovered }
  d.countNode
  let size := (resume.map (· - before.pos)).getD 0
  .jump (resume.getD before.pos)
  pure (failedNode f before.pos size failure, resume)

/-- Decodes the fields of a struct, given the nodes of those before. -/
def fields (nested : StructDef → String → Decoding Node) :
    List Field → List Node → Decoding (List Node)
  | [], found => pure found
  | f :: rest, found => do
    d.checkCancelled
    let before ← .run
    match ← .attempt (field d rounds nested f found) with
    | .ok (some node) => do
      d.countNode
      fields nested rest (found ++ [node])
    | .ok none => fields nested rest found
    | .error failure =>
      if d.options.mode = .recover ∧ failure.isRecoverable then do
        let (node, resume) ← d.replaceField f before failure
        if resume.isSome then fields nested rest (found ++ [node]) else pure (found ++ [node])
      else .rethrow failure

/-- Decodes the fields of a struct in its byte order. -/
def body (nested : StructDef → String → Decoding Node) (s : StructDef) : Decoding (List Node) :=
  match s.order with
  | none => fields d rounds nested s.fields []
  | some order => do
    .modifyReader (·.overlay order)
    let children ← fields d rounds nested s.fields []
    .move (·.leave)
    pure children

/-- Decodes a struct, given how the structs inside it are decoded. -/
def structWith (nested : StructDef → String → Decoding Node) (s : StructDef) (name : String) :
    Decoding Node := do
  d.descend
  let start ← .pos
  let children ← body d rounds nested s
  let stop ← .pos
  if s.isStringTable then .modifyReader (·.addTable s.name start stop)
  align s.align
  ascend
  let stop ← .pos
  pure { name, typeName := s.name, offset := start, size := stop - start, content := .struct
         children }

/-- Decodes a struct in which structs are nested fewer than `levels` deep. -/
def struct : (levels : Nat) → StructDef → String → Decoding Node
  | 0 => fun _ _ => .unfinished
  | levels + 1 => structWith d rounds (struct levels)

end Decoder

end BinaryFormat
