import BinaryFormat.Document
import BinaryFormat.Expression
import BinaryFormat.Hex

/-!
# Reading values from documents

A record is described once, entry by entry, and the description yields both passes of reading it. The
first goes through the entries in the order of the document, so the first bad one decides why the record
is refused. The second puts the value together, and can then only miss an entry.

A record may also be given as a list, its entries without their keys in the order of the description.
-/

namespace BinaryFormat

/-- Why a document is no value. -/
inductive LoadError where
  | malformed
  | expression (e : SyntaxError)
  | bytes (p : Hex.Problem)
deriving DecidableEq, Repr

/-- The wording of an error, where there is one. -/
def LoadError.message? : LoadError → Option String
  | malformed => none
  | expression e => some e.report
  | bytes p => some p.message

/-- A value, or why the document is none. -/
abbrev Load (α : Type) := Except LoadError α

namespace Document

/-! ### Scalars -/

/-- A text. -/
def toText : Document → Load String
  | text s => .ok s
  | _ => .error .malformed

/-- A truth value. -/
def toBool : Document → Load Bool
  | bool b => .ok b
  | _ => .error .malformed

/-- A natural number below a bound. -/
def toNatBelow (bound : Nat) : Document → Load Nat
  | int (.ofNat n) => if n < bound then .ok n else .error .malformed
  | _ => .error .malformed

/-- A natural number of 32 bits. -/
def toUInt32 (d : Document) : Load UInt32 := (d.toNatBelow UInt32.size).map UInt32.ofNat

/-- A natural number of 64 bits. -/
def toUInt64 (d : Document) : Load UInt64 := (d.toNatBelow UInt64.size).map UInt64.ofNat

/-- An integer of 64 bits, negative ones included. -/
def toInt64 : Document → Load Int64
  | int n =>
    match Numeral.toInt64? n with
    | some n => .ok n
    | none => .error .malformed
  | _ => .error .malformed

/-- An expression, with or without its braces. -/
def toExpression : Document → Load Expression
  | text s => (Expression.ofSource s).mapError .expression
  | _ => .error .malformed

/-- Bytes in hexadecimal. -/
def toBytes : Document → Load (List UInt8)
  | text s => (Hex.decode s.toList).mapError .bytes
  | _ => .error .malformed

/-- Whether a document is the absent value. -/
def isNull : Document → Bool
  | null => true
  | _ => false

/-- Whether a document is a table or a list with nothing in it. -/
def isEmpty : Document → Bool
  | list [] => true
  | table [] => true
  | _ => false

/-- The name of a variant without content: a text, or a table of that one key and nothing under it.
How nothing is written depends on the notation, so `isNothing` says it. -/
def toVariant (isNothing : Document → Bool) : Document → Load String
  | text s => .ok s
  | table [(s, d)] => if isNothing d then .ok s else .error .malformed
  | _ => .error .malformed

/-- One of several variants without content. -/
def toOneOf {α : Type} (isNothing : Document → Bool) (ofName? : String → Option α) (d : Document) :
    Load α := do
  match ofName? (← d.toVariant isNothing) with
  | some a => pure a
  | none => throw .malformed

/-- One of several names, where `null` says nothing. -/
def toName {α : Type} (ofName? : String → Option α) : Document → Load α := toOneOf isNull ofName?

/-! ### Compound values -/

/-- A value, or nothing where a document says `null`. -/
def toOption {α : Type} (f : Document → Load α) : Document → Load (Option α)
  | null => .ok none
  | d => (f d).map some

/-- A list of values; the first bad one decides why it is none. -/
def toListOf {α : Type} (f : Document → Load α) : Document → Load (List α)
  | list items => items.mapM f
  | _ => .error .malformed

/-- A table of values under any keys. -/
def toTableOf {α : Type} (f : Document → Load α) : Document → Load (List (String × α))
  | table entries => entries.mapM fun e => (f e.2).map fun a => (e.1, a)
  | _ => .error .malformed

end Document

/-- How a value is read from the entries of a table. -/
structure Record (α : Type) where
  /-- The keys that mean something, in the order of the description. -/
  keys : List String
  /-- Whether the entry under a key can be read; a key without a meaning holds anything. -/
  check : String → Document → Load Unit
  /-- The value of the entries that a look-up finds. -/
  build : (String → Option Document) → Load α

namespace Record

variable {α β : Type}

/-- No entry, and always the same value. -/
def const (a : α) : Record α := ⟨[], fun _ _ => .ok (), fun _ => .ok a⟩

/-- The entry under a key; `absent` is what its absence means. -/
def entry (key : String) (read : Document → Load α) (absent : Load α) : Record α where
  keys := [key]
  check k d := if k = key then (read d).map fun _ => () else .ok ()
  build m := ((m key).map read).getD absent

/-- An entry that has to be there. -/
def required (key : String) (read : Document → Load α) : Record α :=
  entry key read (.error .malformed)

/-- An entry that may be absent and then has this value. The value is not read, so it need not be one that could be
written. -/
def withDefault (key : String) (read : Document → Load α) (a : α) : Record α :=
  entry key read (.ok a)

/-- An entry that may be absent, which may also be said by `null`. -/
def optional (key : String) (read : Document → Load α) : Record (Option α) :=
  withDefault key (Document.toOption read) none

/-- Reads one record's entries and then another's. -/
def apply (f : Record (α → β)) (a : Record α) : Record β where
  keys := f.keys ++ a.keys
  check k d := do
    f.check k d
    a.check k d
  build m := do
    let g ← f.build m
    let x ← a.build m
    pure (g x)

/-- A record is described by a constructor applied to its entries in order. -/
instance : Applicative Record where
  pure := const
  seq f a := apply f (a ())

/-- Reads the entries of a table: first every one that is there, and then what they make up together. -/
def loadEntries (r : Record α) (entries : List (String × Document)) : Load α := do
  entries.forM fun e => r.check e.1 e.2
  r.build fun key => entries.lookup key

/-- Reads a record from a table or from a list. A list may stop early if the entries that are missing may be, and it
may not go on behind the last one. -/
def load (r : Record α) : Document → Load α
  | .table entries => r.loadEntries entries
  | .list items => do
    let a ← r.loadEntries (r.keys.zip items)
    if items.length ≤ r.keys.length then pure a else throw .malformed
  | _ => .error .malformed

end Record

end BinaryFormat
