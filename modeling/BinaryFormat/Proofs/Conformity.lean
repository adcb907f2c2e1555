import BinaryFormat.Node.Write
import BinaryFormat.Proofs.Growth

/-!
# How a tree conforms to its schema

The members of a struct in the tree are those that its definition declares: one node for each field that is there,
in the order of the declarations, under the name of the field and of the kind that its declaration calls for. A field
that is passed over leaves nothing. In recovery a field that failed leaves a node in its place, and the members end
behind it if the schema does not tell how long the field is.

Which fields are there is decided by conditions, and these are evaluated in the middle of a decode. So a struct is
read along the runs that the decoder's own loop has at each of its fields.
-/

namespace BinaryFormat

open Schema (Field StructDef)
open Decoding

/-- The name of the kind of content that one occurrence of the type has, if it is no register of flags. -/
def FieldType.kind : FieldType → String
  | .u8 | .u16 | .u32 | .u64 | .i8 | .i16 | .i32 | .i64 => "integer"
  | .f32 | .f64 => "float"
  | .bytes => "bytes"
  | .ascii | .utf8 | .utf16le | .utf16be | .shiftJis | .latin1 | .asciiz | .utf8z => "string"
  | .struct | .switch => "struct"
  | .bitfield => "bitfield"
  | .virtual => "virtual"
  | .compressed => "compressed"

/-- The name of the kind of content that the declaration of a field calls for. -/
def Schema.Field.kind (f : Field) : String :=
  match f.repetition with
  | .once => if f.type.kind = "integer" ∧ f.flagsRef.isSome = true then "flags" else f.type.kind
  | .count _ | .untilEnd | .untilTrue _ => "array"

theorem Schema.Field.kind_of_ne_once {f : Field} (h : f.repetition ≠ .once) : f.kind = "array" := by
  unfold Field.kind
  cases hf : f.repetition with
  | once => exact absurd hf h
  | count _ | untilEnd | untilTrue _ => rfl

/-- Content that shows its bytes is of the kind that the type calls for, unless the type is an integer, which may
be a register of flags. -/
theorem Shows.kind_eq {order : ByteOrder} {type : FieldType} {bytes : List UInt8} {c : Node.Content}
    (h : Shows order type bytes c) (hi : type.kind ≠ "integer") : c.kind = type.kind := by
  cases h with
  | integer hl _ | flags hl _ =>
      refine absurd ?_ hi
      cases type <;> first | rfl | cases hl
  | text he | terminated he _ _ _ => cases type <;> first | rfl | cases he
  | binary32 ht _ | binary64 ht _ | bytes ht | bitfield ht _ _ | computed ht _ => rw [ht]; rfl

namespace Decoder

/-! ## What a field yields -/

section Kinds

variable {d : Decoder} {rounds : Nat} {f : Field} {n : Node} {r r' : Run}

/-- The node is one that the declaration of the field calls for. -/
structure Declared (f : Field) (n : Node) : Prop where
  name : n.name = f.name
  kind : n.content.kind = f.kind

/-- An integer is shown as flags exactly if the field names some. -/
theorem kind_of_integer {siblings : Option (List Node)} {width : Nat} {isSigned : Bool} {c : Node.Content}
    (h : d.integer f siblings width isSigned r = .done c r') :
    c.kind = if f.flagsRef.isSome = true then "flags" else "integer" := by
  obtain ⟨_, r₁, -, h₁⟩ := bind_eq_done h
  obtain ⟨_, r₂, -, h₂⟩ := bind_eq_done h₁
  obtain ⟨states, r₃, hstates, h₃⟩ := bind_eq_done h₂
  unfold statesOf at hstates
  cases hf : f.flagsRef with
  | none =>
      rw [hf] at hstates
      obtain ⟨rfl, -⟩ := Outcome.done.inj hstates
      obtain ⟨_, r₄, -, h₄⟩ := bind_eq_done h₃
      obtain ⟨rfl, -⟩ := Outcome.done.inj h₄
      rfl
  | some name =>
      rw [hf] at hstates
      obtain ⟨_, r₄, -, h₄⟩ := bind_eq_done hstates
      obtain ⟨rfl, -⟩ := Outcome.done.inj h₄
      obtain ⟨rfl, -⟩ := Outcome.done.inj h₃
      rfl

theorem exists_layout (hi : f.type.kind = "integer") :
    ∃ width isSigned, f.type.layout? = some (width, isSigned) := by
  cases ht : f.type with
  | u8 | u16 | u32 | u64 | i8 | i16 | i32 | i64 => exact ⟨_, _, rfl⟩
  | _ => exact absurd hi (by rw [ht]; decide)

variable {nested : StructDef → String → Decoding Node}
  (hn : ∀ {s name r n r'}, nested s name r = .done n r' → n.name = name ∧ n.content = .struct)

include hn

/-- One occurrence of a field bears its name and is of its kind. -/
theorem declared_single (hf : f.repetition = .once) {siblings : Option (List Node)}
    (h : single d nested f siblings r = .done n r') : Declared f n := by
  have hkind : f.type.kind ≠ "integer" → f.kind = f.type.kind := by
    intro hi
    unfold Field.kind
    rw [hf]
    exact if_neg fun hflags => hi hflags.1
  -- the bytes of a leaf do not tell whether an integer is a register of flags, so integers are opened once more
  obtain ⟨hs, s, -, h₁⟩ | ⟨hc, h₁⟩ | ⟨-, -, hcovers, hnode⟩ := single_eq_done h
  · have htype : f.type.kind = "struct" := by rcases hs with ht | ht <;> rw [ht] <;> rfl
    have hstruct : n.name = f.name ∧ n.content = .struct := by
      obtain ⟨-, h₂⟩ | ⟨size, m, -, -, hbounded, rfl⟩ := structField_eq_done h₁
      · exact hn h₂
      · obtain ⟨reader, r₂, -, hm⟩ := inner_of_bounded hbounded
        obtain ⟨hname, hcontent⟩ := hn hm
        exact ⟨hname, hcontent⟩
    refine ⟨hstruct.1, ?_⟩
    rw [hkind (by rw [htype]; decide), htype, hstruct.2]
    rfl
  · obtain ⟨size, bytes, reader, c, out, raw, children, -, -, -, -, rfl, -⟩ := compressedField_eq_done h₁
    refine ⟨rfl, ?_⟩
    rw [hkind (by rw [hc]; decide), hc]
    rfl
  · refine ⟨by rw [hnode], ?_⟩
    by_cases hi : f.type.kind = "integer"
    · obtain ⟨width, isSigned, hlayout⟩ := exists_layout hi
      rw [d.single_eq_integer nested hlayout siblings] at h
      rw [kind_of_integer (leaf_eq_done h).1]
      unfold Field.kind
      rw [hf, hi]
      simp only [true_and]
    · exact (Shows.kind_eq hcovers hi).trans (hkind hi).symm

theorem declared_content {siblings : List Node} (h : content d rounds nested f siblings r = .done n r') :
    Declared f n := by
  obtain ⟨hf, h⟩ | ⟨hf, h⟩ := content_eq_done h
  · exact declared_single hn hf h
  · obtain ⟨nodes, -, rfl⟩ := array_eq_done h
    exact ⟨rfl, (Field.kind_of_ne_once hf).symm⟩

/-- A field that is decoded yields a node that its declaration calls for. -/
theorem declared_field {siblings : List Node} (h : field d rounds nested f siblings r = .done (some n) r') :
    isPresent f { r with path := f.name :: r.path } = .done true { r with path := f.name :: r.path } ∧
      Declared f n := by
  obtain ⟨-, hnone, -⟩ | ⟨m, r₁, hpresent, hfield, hsome, -⟩ := field_eq_done h
  · cases hnone
  · cases hsome
    obtain ⟨before, m, isValid, r₂, r₃, r₄, -, -, hcontent, -, rfl⟩ := presentField_eq_done hfield
    obtain ⟨hname, hkind⟩ := declared_content hn hcontent
    exact ⟨hpresent, hname, hkind⟩

end Kinds

/-! ## The members of a struct -/

/-- Fields of a struct, behind those of which the nodes were found, and the nodes of these fields. Each field is
looked at with the run that the loop over the fields has there. -/
inductive Roster (d : Decoder) (rounds levels : Nat) : List Field → List Node → Run → List Node → Prop where
  | nil {found : List Node} {r : Run} : Roster d rounds levels [] found r []
  /-- A field that is not there is passed over. -/
  | absent {f : Field} {rest : List Field} {found nodes : List Node} {r r' : Run} :
      isPresent f { r with path := f.name :: r.path } = .done false { r with path := f.name :: r.path } →
      iteration d rounds (d.struct rounds levels) f found r = .done (none, true) r' →
      Roster d rounds levels rest found r' nodes → Roster d rounds levels (f :: rest) found r nodes
  /-- A field that is there has a node, and the other fields follow behind it. -/
  | present {f : Field} {rest : List Field} {found nodes : List Node} {n : Node} {r r' : Run} :
      isPresent f { r with path := f.name :: r.path } = .done true { r with path := f.name :: r.path } →
      Declared f n → iteration d rounds (d.struct rounds levels) f found r = .done (some n, true) r' →
      Roster d rounds levels rest (found ++ [n]) r' nodes → Roster d rounds levels (f :: rest) found r (n :: nodes)
  /-- A field of a known length fails, and the other fields follow behind the node in its place. -/
  | failed {f : Field} {rest : List Field} {found nodes : List Node} {n : Node} {e : Failure} {r r₁ r' : Run} :
      d.options.mode = .recover → field d rounds (d.struct rounds levels) f found r = .failed e r₁ →
      n.name = f.name → n.content.kind = "error" → f.staticSize?.isSome = true →
      iteration d rounds (d.struct rounds levels) f found r = .done (some n, true) r' →
      Roster d rounds levels rest (found ++ [n]) r' nodes → Roster d rounds levels (f :: rest) found r (n :: nodes)
  /-- A field of unknown length fails, and the node in its place is the last one. -/
  | abandoned {f : Field} {rest : List Field} {found : List Node} {n : Node} {e : Failure} {r r₁ r' : Run} :
      d.options.mode = .recover → field d rounds (d.struct rounds levels) f found r = .failed e r₁ →
      n.name = f.name → n.content.kind = "error" → f.staticSize? = none →
      iteration d rounds (d.struct rounds levels) f found r = .done (some n, false) r' →
      Roster d rounds levels (f :: rest) found r [n]

variable {d : Decoder} {rounds levels : Nat}

/-- The members have the names of fields, in the order of the declarations and each of them once. -/
theorem Roster.names_sublist {fs : List Field} {found nodes : List Node} {r : Run}
    (h : Roster d rounds levels fs found r nodes) : (nodes.map (·.name)).Sublist (fs.map (·.name)) := by
  induction h with
  | nil => exact .slnil
  | absent _ _ _ ih => exact ih.cons _
  | present _ hn _ _ ih =>
      rw [List.map_cons, List.map_cons, hn.name]
      exact ih.cons_cons _
  | failed _ _ hname _ _ _ _ ih =>
      rw [List.map_cons, List.map_cons, hname]
      exact ih.cons_cons _
  | abandoned _ _ hname _ _ _ =>
      rw [List.map_cons, List.map_cons, hname]
      exact (List.nil_sublist _).cons_cons _

/-- What the fields of a struct add to the nodes found before is a roster of them. -/
theorem roster_fields {fs : List Field} {found nodes : List Node} {r r' : Run}
    (h : fields d rounds (d.struct rounds levels) fs found r = .done nodes r') :
    ∃ new, nodes = found ++ new ∧ Roster d rounds levels fs found r new := by
  have hn : ∀ {s name r n r'}, d.struct rounds levels s name r = .done n r' → n.name = name ∧ n.content = .struct := by
    intro s name r n r' h
    rw [node_of_struct h]
    exact ⟨rfl, rfl⟩
  refine fields_induction (P := fun fs found r new _ => Roster d rounds levels fs found r new)
    (fun _ _ => .nil) (fun {f rest found p new r r₁ r'} hstep hnew => ?_) h
  obtain ⟨-, ⟨hfield, rfl⟩ | ⟨n, r₂, hfield, rfl, -, -⟩ | ⟨e, r₂, hmode, hfield, -, size, rfl⟩⟩ :=
    iteration_eq_done hstep
  · obtain ⟨hpresent, -, -⟩ | ⟨_, _, -, -, hsome, -⟩ := field_eq_done hfield
    · rw [Option.toList_none, List.append_nil] at hnew
      exact .absent hpresent hstep hnew
    · cases hsome
  · obtain ⟨hpresent, hdeclared⟩ := declared_field hn hfield
    exact .present hpresent hdeclared hstep hnew
  · -- the loop goes on if the length is known, and otherwise it goes on with no field left
    cases hsize : f.staticSize? with
    | none =>
        rw [hsize] at hstep hnew
        cases hnew with
        | nil => exact .abandoned hmode hfield rfl rfl hsize hstep
    | some length =>
        rw [hsize] at hstep hnew
        have hknown : f.staticSize?.isSome = true := by rw [hsize]; rfl
        exact .failed hmode hfield rfl rfl hknown hstep hnew

/-- A struct that is decoded has the members that its definition declares. -/
theorem roster_struct {s : StructDef} {name : String} {n : Node} {r r' : Run}
    (h : d.struct rounds (levels + 1) s name r = .done n r') :
    ∃ r₁, d.descend r = .done () r₁ ∧ Roster d rounds levels s.fields [] (r₁.inOrder s.order) n.children := by
  obtain ⟨children, r₁, r₂, r₃, hdescend, hbody, -, -, hnode⟩ := structWith_eq_done h
  obtain ⟨r₄, hfields⟩ := fields_of_body hbody
  obtain ⟨new, rfl, hroster⟩ := roster_fields hfields
  refine ⟨r₁, hdescend, ?_⟩
  rw [hnode]
  exact hroster

/-- The node is that of a struct that the decode got to, and its members are those that the definition declares. -/
structure DecodedFrom (d : Decoder) (rounds : Nat) (data : Buffer) (m : Node) (s : StructDef) : Prop where
  defines : d.schema.Defines s
  typeName : m.typeName = s.name
  ordered : (m.children.map (·.name)).Sublist (s.fields.map (·.name))
  decoded : ∃ levels name n r r₁ r', Reaches d rounds data (.struct (levels + 1) s name) r ∧
    d.struct rounds (levels + 1) s name r = .done n r' ∧ m.Like n ∧
    d.descend r = .done () r₁ ∧ Roster d rounds levels s.fields [] (r₁.inOrder s.order) m.children

/-- Every struct in the tree of an answer was decoded from a struct of the schema. It has one member for each field
of the definition that is there, in the order of the declarations, under the name of the field and of the kind that
its declaration calls for. In recovery a field that failed has a failed node in its place, and only behind such a
node, if the schema does not tell how long the field is, the members may end early. -/
theorem answer_conforms {d : Decoder} {data : Buffer} {t : Decoded} (h : d.Answers data (.ok t)) :
    ∃ rounds, ∀ m, t.root.Contains m → m.content = .struct → ∃ s, DecodedFrom d rounds data m s := by
  obtain ⟨rounds, root, hroot, hbuilds⟩ := h.builds
  refine ⟨rounds, fun m hm => ?_⟩
  refine hbuilds.throughout (P := fun m => m.content = .struct → ∃ s, DecodedFrom d rounds data m s)
    ?_ ?_ ?_ ?_ (.root hroot) _ (.head _) m hm
  · -- A node that is the like of another one, with a new description, say, is decoded from the struct of that one.
    intro n m hl hP hc
    obtain ⟨s, hdefines, htype, hordered, levels, name, m', r, r₁, r', hr, hstruct, hlike, hroster⟩ :=
      hP (hl.content ▸ hc)
    rw [← hl.typeName] at htype
    rw [← hl.children] at hordered hroster
    exact ⟨s, hdefines, htype, hordered, levels, name, m', r, r₁, r', hr, hstruct, hl.trans hlike, hroster⟩
  · intro n hb hc
    exact absurd hc (Node.content_ne_struct_of_isBranch hb)
  · intro levels f n r r' hc _ hk
    rw [hc] at hk
    cases hk
  · intro levels s name n r r' hr hstruct _
    obtain ⟨r₁, hdescend, hroster⟩ := roster_struct hstruct
    have htype : n.typeName = s.name := by rw [node_of_struct hstruct]
    exact ⟨s, hr.defines, htype, hroster.names_sublist, levels, name, n, r, r₁, r', hr, hstruct, .refl n, hdescend,
      hroster⟩

end Decoder

/-! ## A record that is cut off -/

namespace CutOff

/-- The tokens of `0`. -/
theorem scan?_never : Token.scan? 0 (stripBraces "0".toList).1 =
    some ⟨[⟨.int 0, ⟨0, 1⟩⟩, ⟨.finish, ⟨1, 1⟩⟩], []⟩ := by
  decide +kernel

/-- The condition that never holds. -/
def never : Expression where
  source := "0"
  tree := .int 0 ⟨0, 1⟩
  tree_eq := by
    unfold Expr.ofSource Expr.ofText
    rw [scan?_never]
    rfl

/-- A register, a field that is not there, a box, and three fields that do not fit in four bytes. Of the last but one
the schema does not tell the length. -/
def decoder : Decoder where
  schema := {
    name := "record"
    flags := [("bits", { name := "bits", flags := [⟨0, "low", none⟩] })]
    structs := [
      ("all", { name := "all", fields := [
        { name := "register", type := .u8, flagsRef := some "bits" },
        { name := "gone", type := .u8, condition := some never },
        { name := "box", type := .struct, size := some (.fixed 2), structRef := some "list" },
        { name := "wide", type := .u32 },
        { name := "tail", type := .u8, align := some 8 },
        { name := "lost", type := .u8 }] }),
      ("list", { name := "list", fields := [{ name := "bytes", type := .u8, repetition := .untilEnd }] })]
    root := "all" }
  options := { mode := .recover }

/-- Behind the failure of the number the record goes on, and behind the next one it ends. -/
theorem decoder_conforms : ∃ t, decoder.Answers #[5, 1, 2, 9] (.ok t) ∧
    t.root.children.map (fun n => (n.name, n.content.kind)) =
      [("register", "flags"), ("box", "struct"), ("wide", "error"), ("tail", "error")] ∧
    ∃ rounds, ∀ m, t.root.Contains m → m.content = .struct →
      ∃ s, Decoder.DecodedFrom decoder rounds #[5, 1, 2, 9] m s := by
  obtain ⟨t, ht, hchildren⟩ : ∃ t, decoder.Answers #[5, 1, 2, 9] (.ok t) ∧
      t.root.children.map (fun n => (n.name, n.content.kind)) =
        [("register", "flags"), ("box", "struct"), ("wide", "error"), ("tail", "error")] := by
    refine decoder.exists_answer_of_decode? 3 ?_
    decide +kernel
  exact ⟨t, ht, hchildren, Decoder.answer_conforms ht⟩

end CutOff

end BinaryFormat
