/-!
# Documents

Schemas, options and decoded trees travel as documents: scalars, lists and tables, in whatever notation
the surroundings use. Tables keep the order of their entries, because the first bad entry decides why a
table is refused.
-/

namespace BinaryFormat

/-- A value of a document. -/
inductive Document where
  | null
  | bool (b : Bool)
  | int (n : Int)
  /-- A scalar that nothing here is made of: a fraction, a date. -/
  | other
  | text (s : String)
  | list (items : List Document)
  /-- A table, entry by entry. -/
  | table (entries : List (String × Document))

namespace Document

/-- An absent value is one. -/
instance : Inhabited Document := ⟨null⟩

/-- The entry of a table under a key. -/
def get? (d : Document) (key : String) : Option Document :=
  match d with
  | table entries => entries.lookup key
  | _ => none

/-- A table of the entries that are there. -/
def ofPresent (entries : List (String × Option Document)) : Document :=
  table (entries.filterMap fun e => e.2.map fun d => (e.1, d))

end Document

end BinaryFormat
