import BinaryFormat.Proofs.Calls
import BinaryFormat.Proofs.Modes
import BinaryFormat.Proofs.Trace

/-!
# How a tree grows

Every node of a tree was yielded by a call of the decode, with a run that the decode got to. `Builds` says how: a call
yields nodes, and what is below them was yielded by the calls that it made. Unlike the trace it keeps the calls and
the runs themselves, so that whatever the decoder's own steps say of a run can be said of the node that came out.

A node may be given another name or extent on its way up, and what a field says about it is written to it. What it
holds and what is below it stays, and that is all that is spoken of here.
-/

namespace BinaryFormat

open Schema (Field StructDef)
open Decoding

namespace Node

/-- The two nodes hold the same and have the same below them. -/
structure Like (n m : Node) : Prop where
  typeName : n.typeName = m.typeName
  content : n.content = m.content
  children : n.children = m.children

theorem Like.refl (n : Node) : n.Like n := ⟨rfl, rfl, rfl⟩

theorem Like.trans {n m k : Node} (h : n.Like m) (h' : m.Like k) : n.Like k :=
  ⟨h.typeName.trans h'.typeName, h.content.trans h'.content, h.children.trans h'.children⟩

/-- A node that is no branch is no struct. -/
theorem content_ne_struct_of_isBranch {n : Node} (h : n.isBranch = false) : n.content ≠ .struct := by
  intro hc
  unfold isBranch at h
  rw [hc] at h
  cases h

/-- A property of what a node holds and has below it goes over to every node that is like it. -/
theorem Throughout.like {P : Node → Prop} {n m : Node} (hP : ∀ {n m : Node}, n.Like m → P m → P n) (hl : n.Like m)
    (h : m.Throughout P) : n.Throughout P := intro (hP hl h.here) (hl.children ▸ h.below)

end Node

namespace Decoder

/-- A call yields these nodes. -/
inductive Builds (d : Decoder) (rounds : Nat) : Call → Run → List Node → Prop where
  /-- Below the node of a struct are the nodes of its fields, which are decoded one struct further in. -/
  | struct {levels : Nat} {s : StructDef} {name : String} {n : Node} {r r₁ r' : Run} :
      d.struct rounds (levels + 1) s name r = .done n r' → d.descend r = .done () r₁ →
      Builds d rounds (.fields levels s.fields []) (r₁.inOrder s.order) n.children →
      Builds d rounds (.struct (levels + 1) s name) r [n]
  | noField {levels : Nat} {found : List Node} {r : Run} : Builds d rounds (.fields levels [] found) r []
  /-- A field that is passed over yields nothing. -/
  | absent {levels : Nat} {f : Field} {rest : List Field} {found nodes : List Node} {r r' : Run} :
      iteration d rounds (d.struct rounds levels) f found r = .done (none, true) r' →
      Builds d rounds (.fields levels rest found) r' nodes → Builds d rounds (.fields levels (f :: rest) found) r nodes
  | present {levels : Nat} {f : Field} {rest : List Field} {found nodes : List Node} {n : Node} {r r' : Run} :
      iteration d rounds (d.struct rounds levels) f found r = .done (some n, true) r' →
      Builds d rounds (.field levels f found) r [n] → Builds d rounds (.fields levels rest (found ++ [n])) r' nodes →
      Builds d rounds (.fields levels (f :: rest) found) r (n :: nodes)
  /-- In the place of a field that failed is a node that nobody yielded, and behind it no field may be left. -/
  | failed {levels size : Nat} {f : Field} {rest : List Field} {found nodes : List Node} {e : Failure} {goesOn : Bool}
      {r r' : Run} :
      iteration d rounds (d.struct rounds levels) f found r = .done (some (failedNode f r.pos size e), goesOn) r' →
      Builds d rounds (.fields levels (if goesOn then rest else []) (found ++ [failedNode f r.pos size e])) r' nodes →
      Builds d rounds (.fields levels (f :: rest) found) r (failedNode f r.pos size e :: nodes)
  /-- What the field says about the content is written to its node. -/
  | field {levels : Nat} {f : Field} {found : List Node} {n m : Node} {r r₁ r' : Run} :
      isPresent f { r with path := f.name :: r.path } = .done true r₁ → approach f r₁ = .done () r' →
      Builds d rounds (.content levels f found) r' [m] → n.Like m → Builds d rounds (.field levels f found) r [n]
  | once {levels : Nat} {f : Field} {found : List Node} {n : Node} {r : Run} :
      f.repetition = .once → Builds d rounds (.single levels f (some found)) r [n] →
      Builds d rounds (.content levels f found) r [n]
  | array {levels : Nat} {f : Field} {found : List Node} {n : Node} {r r' : Run} :
      f.repetition ≠ .once → n.content = .array →
      elements d rounds (d.struct rounds levels) f r = .done n.children r' →
      Builds d rounds (.elements levels (elementField f) 0 n.children.length) r n.children →
      Builds d rounds (.content levels f found) r [n]
  | noElement {levels i : Nat} {f : Field} {r : Run} : Builds d rounds (.elements levels f i 0) r []
  /-- An element goes by its number, whatever its field is called. -/
  | element {levels i left : Nat} {f : Field} {n m : Node} {rest : List Node} {r r' : Run} :
      element d (d.struct rounds levels) f i r = .done n r' →
      Builds d rounds (.single levels f none) { r with path := elementName i :: r.path } [m] → n.Like m →
      Builds d rounds (.elements levels f (i + 1) left) r' rest →
      Builds d rounds (.elements levels f i (left + 1)) r (n :: rest)
  | leaf {levels : Nat} {f : Field} {siblings : Option (List Node)} {n : Node} {r : Run} :
      n.IsLeaf → Builds d rounds (.single levels f siblings) r [n]
  | nested {levels : Nat} {f : Field} {siblings : Option (List Node)} {s : StructDef} {n : Node} {r : Run} :
      f.HoldsStruct → held d f r = .done s r → f.size = none → Builds d rounds (.struct levels s f.name) r [n] →
      Builds d rounds (.single levels f siblings) r [n]
  /-- In a field with a size the node takes the extent of the field. -/
  | sized {levels size : Nat} {f : Field} {siblings : Option (List Node)} {s : StructDef} {n m : Node} {r : Run}
      {reader : Reader} :
      f.HoldsStruct → held d f r = .done s r → fieldSize f r = .done size r → r.reader.enter size = .ok reader →
      Builds d rounds (.struct levels s f.name) { r with reader } [m] → n.Like m →
      Builds d rounds (.single levels f siblings) r [n]
  /-- The struct in a stream hangs below the node of the stream. -/
  | unpacked {levels size : Nat} {f : Field} {siblings : Option (List Node)} {s : StructDef} {n m : Node} {r : Run}
      {bytes : List UInt8} {reader : Reader} {c : Compression} {out : Buffer} :
      f.type = .compressed → fieldSize f r = .done size r → r.reader.read size = .ok (bytes, reader) →
      Compression.ofName? (f.compression.getD Compression.defaultName) = some c → c.decompress? bytes = some out →
      held d f r = .done s r → n.Holds m →
      Builds d rounds (.struct levels s f.name) { r with reader := .ofBuffer out d.schema.order } [m] →
      Builds d rounds (.single levels f siblings) r [n]

/-- The node of a struct is known but for where it lies and what lies below it. -/
theorem node_of_struct {d : Decoder} {rounds levels : Nat} {s : StructDef} {name : String} {n : Node} {r r' : Run}
    (h : d.struct rounds levels s name r = .done n r') :
    n = { name, typeName := s.name, offset := n.offset, size := n.size, content := .struct
          children := n.children } := by
  cases levels with
  | zero => cases h
  | succ levels =>
      obtain ⟨_, _, _, _, -, -, -, -, hnode⟩ := structWith_eq_done h
      rw [hnode]

namespace Reaches

variable {d : Decoder} {rounds levels : Nat} {data : Buffer} {f : Field} {rest : List Field} {found : List Node}
  {r r' : Run}

/-- A decode only gets to structs of the schema. -/
theorem defines {s : StructDef} {name : String} (hr : Reaches d rounds data (.struct levels s name) r) :
    d.schema.Defines s := by
  cases hr with
  | root hs => exact ⟨_, hs⟩
  | call _ hcall =>
      cases hcall with
      | nested _ hheld | sized _ hheld | unpacked _ _ _ _ _ hheld => exact defines_of_held hheld

/-- Behind a field that is absent the loop goes on with the nodes found so far. -/
theorem absent (hr : Reaches d rounds data (.fields levels (f :: rest) found) r)
    (h : iteration d rounds (d.struct rounds levels) f found r = .done (none, true) r') :
    Reaches d rounds data (.fields levels rest found) r' := by
  have hnext := hr.call (.next h)
  rw [Option.toList_none, List.append_nil] at hnext
  exact hnext

/-- An iteration of the loop over the fields gets to its field. -/
theorem field {p : Option Node × Bool} (hr : Reaches d rounds data (.fields levels (f :: rest) found) r)
    (h : iteration d rounds (d.struct rounds levels) f found r = .done p r') :
    Reaches d rounds data (.field levels f found) r := hr.call (.field (iteration_eq_done h).1)

/-- An element gets to the occurrence that it is, under its number. -/
theorem occurrence {i left : Nat} {n : Node} (hr : Reaches d rounds data (.elements levels f i (left + 1)) r)
    (h : element d (d.struct rounds levels) f i r = .done n r') :
    Reaches d rounds data (.single levels f none) { r with path := elementName i :: r.path } := by
  obtain ⟨-, -, hcancelled, -⟩ := element_eq_done h
  exact hr.call (.element hcancelled)

end Reaches

/-- A property of what nodes hold and have below them holds throughout the nodes that a call yields, if it holds of
the structs and arrays that the decode gets to and of every node that is neither. -/
theorem Builds.throughout {d : Decoder} {rounds : Nat} {data : Buffer} {P : Node → Prop}
    (hlike : ∀ {n m : Node}, n.Like m → P m → P n) (hleaf : ∀ {n : Node}, n.isBranch = false → P n)
    (harray : ∀ {levels : Nat} {f : Field} {n : Node} {r r' : Run}, n.content = .array →
      elements d rounds (d.struct rounds levels) f r = .done n.children r' → P n)
    (hstruct : ∀ {levels : Nat} {s : StructDef} {name : String} {n : Node} {r r' : Run},
      Reaches d rounds data (.struct (levels + 1) s name) r →
      d.struct rounds (levels + 1) s name r = .done n r' → P n)
    {c : Call} {r : Run} {nodes : List Node} (h : Builds d rounds c r nodes) (hr : Reaches d rounds data c r) :
    ∀ n ∈ nodes, n.Throughout P := by
  -- along the calls that were made, each of them got to from the one above
  induction h with
  | struct hn hdescend _ ih =>
      intro n hmem
      obtain rfl := List.mem_singleton.mp hmem
      exact .intro (hstruct hr hn) (ih (hr.call (.body hdescend)))
  | noField | noElement => nofun
  | absent hstep _ ih => exact ih (hr.absent hstep)
  | present hstep _ _ ihfield ih =>
      intro n hmem
      rcases List.mem_cons.mp hmem with rfl | hmem
      · exact ihfield (hr.field hstep) _ (.head _)
      · exact ih (hr.call (.next hstep)) n hmem
  | failed hstep _ ih =>
      intro n hmem
      rcases List.mem_cons.mp hmem with rfl | hmem
      · exact .intro (hleaf rfl) nofun
      · exact ih (hr.call (.next hstep)) n hmem
  | field hpresent happroach _ hl ih =>
      intro n hmem
      obtain rfl := List.mem_singleton.mp hmem
      exact (ih (hr.call (.content hpresent happroach)) _ (.head _)).like hlike hl
  | once hf _ ih => exact ih (hr.call (.once hf))
  | array hf hc helements _ ih =>
      intro n hmem
      obtain rfl := List.mem_singleton.mp hmem
      exact .intro (harray hc helements) (ih (hr.call (.array hf)))
  | element helement _ hl _ ihsingle ih =>
      intro n hmem
      rcases List.mem_cons.mp hmem with rfl | hmem
      · exact (ihsingle (hr.occurrence helement) _ (.head _)).like hlike hl
      · exact ih (hr.call (.nextElement helement)) n hmem
  | leaf hn =>
      intro n hmem
      obtain rfl := List.mem_singleton.mp hmem
      exact .intro (hleaf hn.isBranch) (hn.children ▸ nofun)
  | nested hf hheld hsize _ ih => exact ih (hr.call (.nested hf hheld hsize))
  | sized hf hheld hsize henter _ hl ih =>
      intro n hmem
      obtain rfl := List.mem_singleton.mp hmem
      exact (ih (hr.call (.sized hf hheld hsize henter)) _ (.head _)).like hlike hl
  | unpacked hf hsize hread hc hout hheld hholds _ ih =>
      intro n hmem
      obtain rfl := List.mem_singleton.mp hmem
      refine .intro (hleaf hholds.isBranch_eq) ?_
      rw [hholds.children]
      exact ih (hr.call (.unpacked hf hsize hread hc hout hheld))

/-! ## Every call that succeeds -/

section Walk

variable {d : Decoder} {rounds levels : Nat}
  (hn : ∀ {s name r n r'}, d.struct rounds levels s name r = .done n r' →
    Builds d rounds (.struct levels s name) r [n])

include hn

/-- One occurrence of a field is built from the struct that it holds, or is a leaf. -/
theorem builds_single {f : Field} {siblings : Option (List Node)} {n : Node} {r r' : Run}
    (h : single d (d.struct rounds levels) f siblings r = .done n r') :
    Builds d rounds (.single levels f siblings) r [n] := by
  obtain ⟨hf, s, hs, h₁⟩ | ⟨hc, h₁⟩ | ⟨-, -, hcovers, hnode⟩ := single_eq_done h
  · obtain ⟨hsize, h₂⟩ | ⟨size, m, -, hsize, hbounded, rfl⟩ := structField_eq_done h₁
    · exact .nested hf hs hsize (hn h₂)
    · obtain ⟨reader, r₂, henter, hm⟩ := inner_of_bounded hbounded
      exact .sized hf hs hsize henter (hn hm) ⟨rfl, rfl, rfl⟩
  · -- a stream without a struct in it is kept as it is, and then it is a leaf
    obtain ⟨size, bytes, reader, c, out, raw, children, hsize, hread, hname, hout, rfl, hrest⟩ :=
      compressedField_eq_done h₁
    obtain ⟨rfl, -⟩ | ⟨name, s, m, r₁, href, hs, hm, rfl, -⟩ := hrest
    · exact .leaf ⟨rfl, rfl, rfl⟩
    · have hdef : d.structDef name r = .done s r := by
        unfold structDef
        rw [hs]
        rfl
      have hheld : held d f r = .done s r := by
        unfold held target
        rw [hc, href]
        exact hdef
      exact .unpacked hc hsize hread hname hout hheld ⟨rfl, rfl⟩ (hn hm)
  · exact .leaf ⟨by rw [hnode], Shows.isBranch_eq hcovers, Shows.isFailed_eq hcovers⟩

/-- The nodes of an array are built one by one, in the runs that come behind each other. -/
theorem builds_elements {f : Field} {nodes : List Node} {r r' : Run}
    (h : elements d rounds (d.struct rounds levels) f r = .done nodes r') :
    Builds d rounds (.elements levels (elementField f) 0 nodes.length) r nodes := by
  refine elements_induction
    (P := fun i r nodes _ => Builds d rounds (.elements levels (elementField f) i nodes.length) r nodes)
    (fun _ _ => .noElement) (fun helement hrest => ?_) h
  obtain ⟨m, r₁, -, hsingle, -, rfl, -⟩ := element_eq_done helement
  exact .element helement (builds_single hn hsingle) ⟨rfl, rfl, rfl⟩ hrest

theorem builds_content {f : Field} {found : List Node} {n : Node} {r r' : Run}
    (h : content d rounds (d.struct rounds levels) f found r = .done n r') :
    Builds d rounds (.content levels f found) r [n] := by
  obtain ⟨hf, h⟩ | ⟨hf, h⟩ := content_eq_done h
  · exact .once hf (builds_single hn h)
  · obtain ⟨nodes, helements, rfl⟩ := array_eq_done h
    exact .array hf rfl helements (builds_elements hn helements)

/-- A field that is there is built from its content. -/
theorem builds_field {f : Field} {found : List Node} {n : Node} {r r' : Run}
    (h : field d rounds (d.struct rounds levels) f found r = .done (some n) r') :
    Builds d rounds (.field levels f found) r [n] := by
  obtain ⟨-, hnone, -⟩ | ⟨m, r₁, hpresent, hfield, hsome, -⟩ := field_eq_done h
  · cases hnone
  · cases hsome
    obtain ⟨before, m, isValid, r₂, r₃, r₄, hseek, halign, hcontent, -, rfl⟩ := presentField_eq_done hfield
    exact .field hpresent (approach_eq_done hseek halign) (builds_content hn hcontent) ⟨rfl, rfl, rfl⟩

/-- The nodes of the fields that are left come behind those that were found. -/
theorem builds_fields {fs : List Field} {found nodes : List Node} {r r' : Run}
    (h : fields d rounds (d.struct rounds levels) fs found r = .done nodes r') :
    ∃ new, nodes = found ++ new ∧ Builds d rounds (.fields levels fs found) r new := by
  refine fields_induction (P := fun fs found r new _ => Builds d rounds (.fields levels fs found) r new)
    (fun _ _ => .noField) (fun hstep hnew => ?_) h
  obtain ⟨-, ⟨-, rfl⟩ | ⟨n, r₂, hfield, rfl, -, -⟩ | ⟨e, r₂, -, -, -, size, rfl⟩⟩ := iteration_eq_done hstep
  · rw [Option.toList_none, List.append_nil] at hnew
    exact .absent hstep hnew
  · exact .present hstep (builds_field hn hfield) hnew
  · exact .failed hstep hnew

end Walk

variable (d : Decoder) in
/-- A struct that is decoded yields its node. -/
theorem builds_struct {rounds levels : Nat} {s : StructDef} {name : String} {n : Node} {r r' : Run}
    (h : d.struct rounds levels s name r = .done n r') : Builds d rounds (.struct levels s name) r [n] := by
  induction levels generalizing s name r n r' with
  | zero => cases h
  | succ levels ih =>
      obtain ⟨children, r₁, r₂, r₃, hdescend, hbody, -, -, hnode⟩ := structWith_eq_done h
      obtain ⟨r₄, hfields⟩ := fields_of_body hbody
      obtain ⟨new, rfl, hnew⟩ := builds_fields ih hfields
      refine .struct h hdescend ?_
      rw [hnode]
      exact hnew

/-- The tree of an answer was yielded by the call of the root struct. -/
theorem Answers.builds {d : Decoder} {data : Buffer} {t : Decoded} (h : d.Answers data (.ok t)) :
    ∃ rounds s, d.schema.structs.get? d.schema.root = some s ∧
      Builds d rounds (.struct (d.options.maxDepth.toNat + 1) s d.schema.name)
        (.start (.ofBuffer data d.schema.order)) [t.root] := by
  obtain ⟨rounds, r, hr, -⟩ := d.answers_ok_iff.mp h
  obtain ⟨s, r₁, hdef, hstruct⟩ := bind_eq_done hr
  obtain ⟨hs, rfl⟩ := structDef_eq_done hdef
  exact ⟨rounds, s, hs, d.builds_struct hstruct⟩

end Decoder

end BinaryFormat
