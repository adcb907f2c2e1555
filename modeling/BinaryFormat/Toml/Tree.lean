import BinaryFormat.Document

/-!
# Building a TOML tree

Tables grow line by line, and a key may be given only once. What may still be added to a table depends
on how it came about: one that merely lies on the way to another may get a header of its own later, one
that was opened by a header or by a dotted key may not be opened again. A dotted key adds to tables that
dotted keys made; on its way it may pass tables that lie on the way to another, and the last one of an
array.
-/

namespace BinaryFormat.Toml

/-- How a table came about. -/
inductive Origin where
  /-- It lies on the way to a table with a header. -/
  | implied
  | header
  /-- It was made by a dotted key. -/
  | dotted
deriving DecidableEq, Repr

/-- What stands under a key. -/
inductive Item where
  | value (d : Document)
  /-- A table that may still grow. -/
  | table (origin : Origin) (entries : List (String × Item))
  /-- An array of tables; the last one, given first, may still grow. -/
  | tables (last : List (String × Item)) (earlier : List (List (String × Item)))

/-- The entries of a table, in the order in which their keys first appeared. -/
abbrev Entries := List (String × Item)

/-- Changes what stands under a key, from nothing if nothing does. -/
def alter? (entries : Entries) (key : String) (f : Option Item → Option Item) : Option Entries :=
  match entries with
  | [] => (f none).map fun item => [(key, item)]
  | e :: rest =>
    if e.1 = key then (f (some e.2)).map fun item => (key, item) :: rest
    else (alter? rest key f).map (e :: ·)

/-- Gives a value to a dotted key. The table that takes the value is one that a dotted key made, so the
part before the last may not name any other. -/
def assign? (value : Document) : List String → Entries → Option Entries
  | [], _ => none
  | [k], entries =>
    alter? entries k fun old => if old.isNone then some (.value value) else none
  | k :: ks, entries =>
    alter? entries k fun old =>
      match old with
      | none => (assign? value ks []).map (.table .dotted)
      | some (.table .dotted es) => (assign? value ks es).map (.table .dotted)
      | some (.table .implied es) =>
        if 1 < ks.length then (assign? value ks es).map (.table .implied) else none
      | some (.tables last earlier) =>
        if 1 < ks.length then (assign? value ks last).map (.tables · earlier) else none
      | some _ => none

/-- Follows a header to the item that it opens. -/
def open? (leaf : Option Item → Option Item) : List String → Entries → Option Entries
  | [], _ => none
  | [k], entries => alter? entries k leaf
  | k :: ks, entries =>
    alter? entries k fun old =>
      match old with
      | none => (open? leaf ks []).map (.table .implied)
      | some (.table o es) => (open? leaf ks es).map (.table o)
      | some (.tables last earlier) => (open? leaf ks last).map (.tables · earlier)
      | some (.value _) => none

/-- A run of lines under one header. -/
structure Section where
  /-- The header, empty for the lines before the first one. -/
  path : List String
  /-- Whether the header adds a table to an array. -/
  isElement : Bool
  /-- The keys of the lines and their values, in order. -/
  lines : List (List String × Document)

/-- Adds lines to a table. -/
def addLines? (lines : List (List String × Document)) (entries : Entries) : Option Entries :=
  lines.foldlM (fun es l => assign? l.2 l.1 es) entries

/-- Adds a section to the table at the root. Of an array of tables it begins a new one, and any other table may be
opened by one header only. -/
def addSection? (root : Entries) (s : Section) : Option Entries :=
  if s.path.isEmpty then addLines? s.lines root
  else
    open? (fun old =>
      match s.isElement, old with
      | true, none => (addLines? s.lines []).map (.tables · [])
      | true, some (.tables last earlier) => (addLines? s.lines []).map (.tables · (last :: earlier))
      | false, none => (addLines? s.lines []).map (.table .header)
      | false, some (.table .implied es) => (addLines? s.lines es).map (.table .header)
      | _, _ => none) s.path root

mutual

/-- The document of an item. -/
def Item.document : Item → Document
  | .value d => d
  | .table _ entries => .table (documents entries)
  | .tables last earlier => .list ((documentLists earlier).reverse ++ [.table (documents last)])

/-- The documents of the entries of a table. -/
def documents : Entries → List (String × Document)
  | [] => []
  | (k, item) :: rest => (k, item.document) :: documents rest

/-- The documents of some tables. -/
def documentLists : List Entries → List Document
  | [] => []
  | es :: rest => .table (documents es) :: documentLists rest

end

end BinaryFormat.Toml
