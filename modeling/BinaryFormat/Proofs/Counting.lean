import BinaryFormat.Proofs.Trace

/-!
# How many nodes a decode makes

The node of a field and the node of an element are counted when they are put in their place, and the count never
goes back, not even where a field fails and what was made of it is dropped. So the count bounds the tree from
above, but for one kind of node: a struct in a stream is neither a field nor an element, and nothing counts it.
A tree may exceed the limit by as many nodes as there are structs in its streams, and no more.
-/

namespace BinaryFormat

open Schema (Field StructDef)

namespace Node

mutual

/-- The number of structs in the streams of a tree. -/
def unpacked : Node → Nat
  | { content, children, .. } => (if content.isStream then children.length else 0) + unpackedAll children

/-- The number of structs in the streams of some trees. -/
def unpackedAll : List Node → Nat
  | [] => 0
  | n :: rest => n.unpacked + unpackedAll rest

end

theorem count_eq (n : Node) : n.count = 1 + countAll n.children := by
  cases n
  rfl

/-- A stream is charged for the struct right below it, and every tree for the streams in it. -/
theorem unpacked_eq (n : Node) :
    n.unpacked = (if n.content.isStream then n.children.length else 0) + unpackedAll n.children := by
  cases n
  rfl

theorem countAll_singleton (n : Node) : countAll [n] = 1 + countAll n.children := by
  rw [countAll, countAll, count_eq, Nat.add_zero]

theorem le_unpackedAll_singleton (n : Node) : unpackedAll n.children ≤ unpackedAll [n] := by
  rw [unpackedAll, unpackedAll, unpacked_eq]
  omega

section Relabel

variable (n : Node) (name : String) (offset size : Nat) (description : Option String) (isPadding : Bool)
  (isValid : Option Bool) (rest : List Node)

/-- How many nodes there are does not depend on what they are called and where they are. -/
theorem countAll_relabel :
    countAll ({ n with name, offset, size, description, isPadding, isValid } :: rest) =
      countAll (n :: rest) := by
  rw [countAll, countAll, count_eq, count_eq]

theorem unpackedAll_relabel :
    unpackedAll ({ n with name, offset, size, description, isPadding, isValid } :: rest) =
      unpackedAll (n :: rest) := by
  rw [unpackedAll, unpackedAll, unpacked_eq, unpacked_eq]

end Relabel

/-- The struct in a stream makes for two nodes, and one of them is not counted. -/
theorem Holds.count {n inner : Node} (h : n.Holds inner) :
    countAll [n] = 1 + countAll [inner] ∧ unpackedAll [n] = 1 + unpackedAll [inner] := by
  obtain ⟨hchildren, hstream⟩ := h
  constructor
  · rw [countAll_singleton, hchildren]
  · rw [unpackedAll, unpackedAll, unpacked_eq, hchildren, hstream]
    rfl

end Node

namespace Decoder

open Node (countAll unpackedAll)

variable {d : Decoder}

/-- The number of nodes that a part yields without having counted them: they are up to the part around it. -/
def Task.uncounted : Task → Nat
  | .fields _ | .elements _ _ => 0
  | _ => 1

/-- What was counted of a field that failed stays counted, and its node comes on top. -/
theorem Replaces.nodes_lt {f : Field} {r r' : Run} {n : Node} (h : Replaces d f r n r') :
    r.nodes < r'.nodes := by
  cases h with
  | @mk rounds levels found e failed _ _ hfield _ _ hnodes =>
      have haborts : r.Aborts failed := (d.balanced_field rounds levels f found).aborts hfield
      have := haborts.nodes
      omega

/-- The node of a failed field has nothing below it. -/
theorem Replaces.countAll_eq {f : Field} {r r' : Run} {n : Node} (h : Replaces d f r n r') (rest : List Node) :
    countAll (n :: rest) = 1 + countAll rest ∧ unpackedAll (n :: rest) = unpackedAll rest := by
  cases h with
  | mk => exact ⟨rfl, Nat.zero_add _⟩

/-- Every node is counted, but for the structs in streams. -/
theorem Trace.count_le {t : Task} {r r' : Run} {nodes : List Node} (h : Trace d t r nodes r') :
    r.nodes + countAll nodes ≤ r'.nodes + unpackedAll nodes + t.uncounted := by
  induction h with
  | @leaf f n r r' _ hleaf _ _ _ hclose =>
      have hcount : countAll [n] = 1 := by rw [Node.countAll_singleton, hleaf.children, countAll]
      have hnodes := hclose.nodes
      show r.nodes + countAll [n] ≤ r'.nodes + unpackedAll [n] + 1
      omega
  | nested _ _ _ ih => exact ih
  | sized _ _ _ hopen _ hclose ih =>
      rw [hopen.nodes, ← hclose.nodes] at ih
      rw [Node.countAll_relabel, Node.unpackedAll_relabel]
      exact ih
  | @unpacked f target s stop n inner r r₁ r₂ r' _ _ hholds _ _ _ hopen _ hclose ih =>
      -- both nodes are in the tree, and only one of them will be counted
      obtain ⟨hcount, hunpacked⟩ := hholds.count
      rw [hopen.nodes, ← hclose.nodes] at ih
      change r.nodes + countAll [inner] ≤ r'.nodes + unpackedAll [inner] + 1 at ih
      show r.nodes + countAll [n] ≤ r'.nodes + unpackedAll [n] + 1
      omega
  | once _ _ ih => exact ih
  | @array f n r r' _ _ _ _ _ ih =>
      have hcount := Node.countAll_singleton n
      have hunpacked := Node.le_unpackedAll_singleton n
      change r.nodes + countAll n.children ≤ r'.nodes + unpackedAll n.children + 0 at ih
      show r.nodes + countAll [n] ≤ r'.nodes + unpackedAll [n] + 1
      omega
  | noElement | noField => exact Nat.le_refl _
  | @element f i n rest r r₁ r' _ _ _ ih ih' =>
      change r.nodes + (n.count + 0) ≤ r₁.nodes + (n.unpacked + 0) + 1 at ih
      change r₁.nodes + 1 + countAll rest ≤ r'.nodes + unpackedAll rest + 0 at ih'
      rw [Node.countAll_relabel, Node.unpackedAll_relabel]
      show r.nodes + (n.count + countAll rest) ≤ r'.nodes + (n.unpacked + unpackedAll rest) + 0
      omega
  | absent _ _ ih => exact ih
  | @present f fs n rest isValid r r₁ r₂ r₃ r' _ hopen _ _ hclose _ _ ih ih' =>
      -- the one node that the field owes is counted behind it
      have hopened : r₁.nodes = r.nodes := hopen.nodes
      have hclosed : r₃.nodes = r₂.nodes + 1 := hclose.nodes
      change r₁.nodes + (n.count + 0) ≤ r₂.nodes + (n.unpacked + 0) + 1 at ih
      change r₃.nodes + countAll rest ≤ r'.nodes + unpackedAll rest + 0 at ih'
      rw [Node.countAll_relabel, Node.unpackedAll_relabel]
      show r.nodes + (n.count + countAll rest) ≤ r'.nodes + (n.unpacked + unpackedAll rest) + 0
      omega
  | @failed f fs n rest r r₁ r' _ hrep _ ih =>
      obtain ⟨hcount, hunpacked⟩ := hrep.countAll_eq rest
      have hlt := hrep.nodes_lt
      change r₁.nodes + countAll rest ≤ r'.nodes + unpackedAll rest + 0 at ih
      show r.nodes + countAll (n :: rest) ≤ r'.nodes + unpackedAll (n :: rest) + 0
      omega
  | @abandoned f fs n r r' _ hrep =>
      obtain ⟨hcount, hunpacked⟩ := hrep.countAll_eq []
      have hlt := hrep.nodes_lt
      show r.nodes + countAll [n] ≤ r'.nodes + unpackedAll [n] + 0
      rw [hcount, hunpacked]
      exact hlt
  | @struct s name n r r₁ r₂ r' _ _ _ hopen _ hclose _ ih =>
      have hcount := Node.countAll_singleton n
      have hunpacked := Node.le_unpackedAll_singleton n
      rw [hopen.nodes, ← hclose.nodes] at ih
      change r.nodes + countAll n.children ≤ r'.nodes + unpackedAll n.children + 0 at ih
      show r.nodes + countAll [n] ≤ r'.nodes + unpackedAll [n] + 1
      omega

/-- A part that succeeds has not counted more nodes than the options allow. -/
theorem Trace.admits {t : Task} {r r' : Run} {nodes : List Node} (h : Trace d t r nodes r')
    (hr : d.Admits r.nodes) : d.Admits r'.nodes := by
  induction h with
  | leaf _ _ _ _ _ hclose => exact hclose.nodes ▸ hr
  | nested _ _ _ ih => exact ih hr
  | sized _ _ _ hopen _ hclose ih => exact hclose.nodes ▸ ih (hopen.nodes ▸ hr)
  | unpacked _ _ _ _ _ _ hopen _ hclose ih => exact hclose.nodes ▸ ih (hopen.nodes ▸ hr)
  | once _ _ ih => exact ih hr
  | array _ _ _ _ _ ih => exact ih hr
  | noElement | noField => exact hr
  | element hcounted _ _ _ ih => exact ih hcounted
  | absent _ _ ih => exact ih hr
  | present hcounted _ _ _ hclose _ _ _ ih => exact ih (hclose.nodes ▸ hcounted)
  | failed _ hrep _ ih => exact ih hrep.admits
  | abandoned _ hrep => exact hrep.admits
  | struct _ _ _ hopen _ hclose _ ih => exact hclose.nodes ▸ ih (hopen.nodes ▸ hr)

/-- A decode under a limit answers with no more nodes than that, not counting the structs in streams. -/
theorem answer_count_le {d : Decoder} {data : Buffer} {t : Decoded} (hmax : 0 < d.options.maxNodes.toNat)
    (h : d.Answers data (.ok t)) : t.root.count ≤ d.options.maxNodes.toNat + t.root.unpacked := by
  obtain ⟨s, r, -, htrace, -⟩ := h.trace
  have hcount : 1 + (t.root.count + 0) ≤ r.nodes + (t.root.unpacked + 0) + 1 := htrace.count_le
  have hnodes : r.nodes ≤ d.options.maxNodes.toNat := htrace.admits (fun h => h) hmax
  omega

/-- A stream of no bytes that holds a struct without fields, and room for two nodes. -/
def parcel : Decoder where
  schema := {
    name := "parcel"
    structs := [
      ("all", { name := "all", fields := [
        { name := "box", type := .compressed, size := some (.fixed 0), compression := some "none"
          structRef := some "inner" }] }),
      ("inner", { name := "inner", fields := [] })]
    root := "all" }
  options := { maxNodes := 2 }

/-- The tree of the empty buffer: three nodes, of which one is a struct in a stream. -/
theorem parcel_answer : ∃ t, parcel.Answers #[] (.ok t) ∧ (t.root.count, t.root.unpacked) = (3, 1) := by
  refine parcel.exists_answer_of_decode? 0 ?_
  decide +kernel

/-- Where the tree has a struct in a stream, it may have one node more than the options allow. -/
theorem parcel_count_le : 0 < parcel.options.maxNodes.toNat ∧ ∃ t, parcel.Answers #[] (.ok t) ∧
    t.root.unpacked = 1 ∧ t.root.count ≤ parcel.options.maxNodes.toNat + t.root.unpacked := by
  have hmax : 0 < parcel.options.maxNodes.toNat := by decide
  obtain ⟨t, ht, hcount⟩ := parcel_answer
  exact ⟨hmax, t, ht, congrArg Prod.snd hcount, answer_count_le hmax ht⟩

/-- The root, the stream and the struct in it are three nodes, though the options allow for two. -/
theorem parcel_exceeds : parcel.options.maxNodes.toNat = 2 ∧
    ∃ t, parcel.Answers #[] (.ok t) ∧ t.root.count = 3 := by
  obtain ⟨t, ht, hcount⟩ := parcel_answer
  exact ⟨rfl, t, ht, congrArg Prod.fst hcount⟩

end Decoder

end BinaryFormat
