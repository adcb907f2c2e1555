import BinaryFormat.Decoder.Struct

/-!
# Decoding a buffer

A buffer is decoded as the root struct of a schema, and the root node takes the name of the format. Structs
cannot be nested more deeply than the options allow, so nesting needs no further bound. Arrays without a
count may go on for ever, because a field can seek back: decoding them is given a number of rounds, and
a buffer that does not get by with it is neither decoded nor refused.
-/

namespace BinaryFormat

/-- A decoded buffer. -/
structure Decoded where
  root : Node
  /-- The failures recovered from, in the order in which they arose. -/
  recovered : List Recovered

namespace Decoder

/-- Decodes the root struct. One level more than the options allow is enough, since going into a struct fails there.
-/
def root (d : Decoder) (rounds : Nat) : Decoding Node := do
  let s ← d.structDef d.schema.root
  d.struct rounds (d.options.maxDepth.toNat + 1) s d.schema.name

/-- Decodes a buffer; nothing is known if an array does not end within `rounds` elements. -/
def decode? (d : Decoder) (rounds : Nat) (data : Buffer) : Option (Except Failure Decoded) :=
  match d.root rounds (.start (.ofBuffer data d.schema.order)) with
  | .done root run => some (.ok ⟨root, run.recovered.reverse⟩)
  | .failed f _ => some (.error f)
  | .unfinished => none

end Decoder

end BinaryFormat
