import BinaryFormat.Options
import BinaryFormat.Reader

/-!
# Runs

What one decode of a buffer carries along: the reader, the way from the root to the field being decoded,
the number of structs around it, the number of nodes made and the failures that were recovered from.
The way only serves to say where a failure arose.
-/

namespace BinaryFormat

/-- A failure that decoding recovered from. -/
structure Recovered where
  offset : Nat
  /-- The dotted path of the field in which it arose. -/
  path : String
  message : String
deriving DecidableEq, Repr

/-- The state of a decode. -/
structure Run where
  reader : Reader
  /-- The names of the fields around, innermost first; elements are numbers in brackets. -/
  path : List String
  /-- The number of structs around. -/
  depth : Nat
  /-- The number of nodes made, the root among them from the start. -/
  nodes : Nat
  /-- The failures recovered from, last first. -/
  recovered : List Recovered

namespace Run

/-- The run before anything is decoded. The root counts as a node from the start. -/
def start (reader : Reader) : Run := { reader, path := [], depth := 0, nodes := 1, recovered := [] }

/-- The position in the buffer. -/
def pos (r : Run) : Nat := r.reader.pos

/-- Adds a segment to a dotted path; a number in brackets needs no dot. -/
def extendPath (path segment : String) : String :=
  if path.isEmpty || segment.startsWith "[" then path ++ segment else path ++ "." ++ segment

/-- The dotted path of the field being decoded. -/
def pathText (r : Run) : String := r.path.foldr (fun segment path => extendPath path segment) ""

/-- The place of a field of the given type. -/
def place (r : Run) (type : FieldType) : Place := ⟨r.pos, r.pathText, type⟩

end Run

end BinaryFormat
