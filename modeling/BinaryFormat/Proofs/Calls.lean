import BinaryFormat.Proofs.Stacks

/-!
# The calls of a decode

A decode is in a part of the decoder at a time: in a struct, among its fields, in a field, in an array, in one
occurrence of a field. From one part it gets to others, and `Calls` says to which and with which run. The runs that
a decode gets to at all are those that calls lead to from the root struct. Every run that a relation here speaks of
is one that the decoder's own steps have led to.
-/

namespace BinaryFormat

open Schema (Field StructDef)
open Decoding

/-- The run with a byte order set, if there is one to set. -/
def Run.inOrder (r : Run) : Option ByteOrder → Run
  | none => r
  | some order => { r with reader := r.reader.overlay order }

/-- The field holds a struct in the buffer that it is in. -/
def Schema.Field.HoldsStruct (f : Field) : Prop := f.type = .struct ∨ f.type = .switch

namespace Decoder

/-- A part of the decoder with what it is given. Structs may be nested fewer than `levels` deep in it. -/
inductive Call where
  /-- A struct under a name. -/
  | struct (levels : Nat) (s : StructDef) (name : String)
  /-- Fields of a struct, behind those of which the nodes were found. -/
  | fields (levels : Nat) (fs : List Field) (found : List Node)
  /-- A field, which may be absent. -/
  | field (levels : Nat) (f : Field) (found : List Node)
  /-- A field once its place is found. -/
  | content (levels : Nat) (f : Field) (found : List Node)
  /-- Elements of an array from a number on, `left` of them. -/
  | elements (levels : Nat) (f : Field) (i left : Nat)
  /-- One occurrence of a field. -/
  | single (levels : Nat) (f : Field) (siblings : Option (List Node))

variable (d : Decoder)

/-- Moves to the place of a field. -/
def approach (f : Field) : Decoding Unit := do
  let _ ← seek f
  align f.align

/-- The name of the struct that a field holds: the one that it says, or the one that a switch chooses. -/
def target (f : Field) : Decoding String :=
  match f.type with
  | .switch =>
    match f.switch with
    | none => .fail (.missingSwitch f.name)
    | some s => do
      let discriminant ← .eval s.discriminant
      match (← chosenCase discriminant s.cases).or s.fallback with
      | some name => pure name
      | none => .fail (.noCase discriminant)
  | _ =>
    match f.structRef with
    | some name => pure name
    | none => .fail (.missingStruct f.name)

/-- The struct that a field holds. -/
def held (f : Field) : Decoding StructDef := do d.structDef (← target f)

variable (rounds : Nat)

/-- From a call with a run, a decode may get to another call with another run. That an array may have ended
before its next element is left out of account, so a few more runs are said to be got to than are. -/
inductive Calls (d : Decoder) (rounds : Nat) : Call → Run → Call → Run → Prop where
  | body {levels : Nat} {s : StructDef} {name : String} {r r' : Run} :
      d.descend r = .done () r' →
      Calls d rounds (.struct (levels + 1) s name) r (.fields levels s.fields []) (r'.inOrder s.order)
  | field {levels : Nat} {f : Field} {rest : List Field} {found : List Node} {r : Run} :
      d.checkCancelled r = .done () r →
      Calls d rounds (.fields levels (f :: rest) found) r (.field levels f found) r
  | next {levels : Nat} {f : Field} {rest : List Field} {found : List Node} {p : Option Node × Bool}
      {r r' : Run} :
      iteration d rounds (d.struct rounds levels) f found r = .done p r' →
      Calls d rounds (.fields levels (f :: rest) found) r
        (.fields levels (if p.2 then rest else []) (found ++ p.1.toList)) r'
  | content {levels : Nat} {f : Field} {found : List Node} {r r₁ r' : Run} :
      isPresent f { r with path := f.name :: r.path } = .done true r₁ → approach f r₁ = .done () r' →
      Calls d rounds (.field levels f found) r (.content levels f found) r'
  | once {levels : Nat} {f : Field} {found : List Node} {r : Run} :
      f.repetition = .once →
      Calls d rounds (.content levels f found) r (.single levels f (some found)) r
  | array {levels left : Nat} {f : Field} {found : List Node} {r : Run} :
      f.repetition ≠ .once →
      Calls d rounds (.content levels f found) r (.elements levels (elementField f) 0 left) r
  | element {levels i left : Nat} {f : Field} {r : Run} :
      d.checkCancelled r = .done () r →
      Calls d rounds (.elements levels f i (left + 1)) r (.single levels f none)
        { r with path := elementName i :: r.path }
  | nextElement {levels i left : Nat} {f : Field} {n : Node} {r r' : Run} :
      element d (d.struct rounds levels) f i r = .done n r' →
      Calls d rounds (.elements levels f i (left + 1)) r (.elements levels f (i + 1) left) r'
  | nested {levels : Nat} {f : Field} {siblings : Option (List Node)} {s : StructDef} {r : Run} :
      f.HoldsStruct → held d f r = .done s r → f.size = none →
      Calls d rounds (.single levels f siblings) r (.struct levels s f.name) r
  | sized {levels size : Nat} {f : Field} {siblings : Option (List Node)} {s : StructDef} {r : Run}
      {reader : Reader} :
      f.HoldsStruct → held d f r = .done s r → fieldSize f r = .done size r →
      r.reader.enter size = .ok reader →
      Calls d rounds (.single levels f siblings) r (.struct levels s f.name) { r with reader }
  | unpacked {levels size : Nat} {f : Field} {siblings : Option (List Node)} {s : StructDef} {r : Run}
      {bytes : List UInt8} {reader : Reader} {c : Compression} {out : Buffer} :
      f.type = .compressed → fieldSize f r = .done size r → r.reader.read size = .ok (bytes, reader) →
      Compression.ofName? (f.compression.getD Compression.defaultName) = some c →
      c.decompress? bytes = some out → held d f r = .done s r →
      Calls d rounds (.single levels f siblings) r (.struct levels s f.name)
        { r with reader := .ofBuffer out d.schema.order }

/-- A decode of the buffer gets to this call with this run. -/
inductive Reaches (d : Decoder) (rounds : Nat) (data : Buffer) : Call → Run → Prop where
  | root {s : StructDef} :
      d.schema.structs.get? d.schema.root = some s →
      Reaches d rounds data (.struct (d.options.maxDepth.toNat + 1) s d.schema.name)
        (.start (.ofBuffer data d.schema.order))
  | call {c c' : Call} {r r' : Run} :
      Reaches d rounds data c r → Calls d rounds c r c' r' → Reaches d rounds data c' r'

variable {d} {nested : StructDef → String → Decoding Node} {f : Field}

theorem approach_eq_done {before : Option Nat} {r r₁ r' : Run} (hseek : seek f r = .done before r₁)
    (halign : align f.align r₁ = .done () r') : approach f r = .done () r' := by
  rw [approach, bind_done hseek]
  exact halign

/-- On the way to its place a field stays in the buffer and in the scopes that it is in. -/
theorem returns_approach {r r' : Run} (h : approach f r = .done () r') : r.Returns r' := by
  obtain ⟨before, r₁, hseek, halign⟩ := bind_eq_done h
  obtain ⟨-, hsought⟩ := seek_ensures f r
  rw [hseek] at hsought
  have haligned := ((reading_align f.align).reads halign).returns
  obtain ⟨-, -, rfl⟩ | ⟨-, -, target, htarget, rfl⟩ := hsought
  · exact haligned
  · exact ((Run.Returns.refl r).jump fun _ => htarget).trans haligned

theorem unmoving_target : (target f).Unmoving := by
  unfold target
  split
  · split
    · exact .fail _
    · refine (Unmoving.eval _).bind fun v => (unmoving_chosenCase v _).bind fun chosen => ?_
      split
      · exact .pure _
      · exact .fail _
  · split
    · exact .pure _
    · exact .fail _

theorem unmoving_held : (held d f).Unmoving := unmoving_target.bind fun _ => d.unmoving_structDef _

/-- An occurrence of a field that holds a struct is that struct in the scope that the field declares. -/
theorem single_eq_held (hf : f.HoldsStruct) (siblings : Option (List Node)) :
    single d nested f siblings = held d f >>= structField nested f := by
  unfold single held target
  obtain hf | hf := hf
  · rw [hf]
    dsimp only
    cases f.structRef with
    | none => rfl
    | some name => rfl
  · rw [hf]
    dsimp only
    unfold switchField
    cases f.switch with
    | none => rfl
    | some spec =>
        dsimp only
        simp only [bind_assoc]
        -- A switch asks for its discriminant and its case first, and these two steps are the same on both sides.
        congr 1
        funext v
        congr 1
        funext chosen
        cases chosen.or spec.fallback <;> rfl

/-- One occurrence of a field is a struct, a stream or a leaf, and a leaf shows the bytes that were read. -/
theorem single_eq_done {siblings : Option (List Node)} {n : Node} {r r' : Run}
    (h : single d nested f siblings r = .done n r') :
    (f.HoldsStruct ∧ ∃ s, held d f r = .done s r ∧ structField nested f s r = .done n r') ∨
      (f.type = .compressed ∧ compressedField d nested f r = .done n r') ∨
      (f.type ≠ .struct ∧ f.type ≠ .switch ∧ f.type ≠ .compressed) ∧ r.Reads r' ∧ Covers f.type r r' n.content ∧
        n = { name := f.name, typeName := f.type.name, offset := r.pos, size := r'.pos - r.pos
              content := n.content } := by
  by_cases hs : f.HoldsStruct
  · rw [single_eq_held hs] at h
    obtain ⟨s, r₁, hheld, hstruct⟩ := bind_eq_done h
    obtain rfl := unmoving_held.eq hheld
    exact .inl ⟨hs, s, hheld, hstruct⟩
  by_cases hc : f.type = .compressed
  · unfold single at h
    rw [hc] at h
    exact .inr (.inl ⟨hc, h⟩)
  · have hleaf : f.type ≠ .struct ∧ f.type ≠ .switch ∧ f.type ≠ .compressed :=
      ⟨fun ht => hs (.inl ht), fun ht => hs (.inr ht), hc⟩
    exact .inr (.inr ⟨hleaf, single_eq_done_of_leaf hleaf h⟩)

/-- The nodes of the body of a struct are those of its fields, in its byte order. -/
theorem fields_of_body {rounds : Nat} {s : StructDef} {nodes : List Node} {r r' : Run}
    (h : body d rounds nested s r = .done nodes r') :
    ∃ r₁, fields d rounds nested s.fields [] (r.inOrder s.order) = .done nodes r₁ := by
  cases ho : s.order with
  | none =>
      rw [body_plain _ _ _ ho] at h
      exact ⟨r', h⟩
  | some order =>
      rw [body_ordered _ _ _ ho] at h
      obtain ⟨_, r₁, hoverlay, h₁⟩ := bind_eq_done h
      obtain ⟨inner, r₂, hfields, h₂⟩ := bind_eq_done h₁
      obtain ⟨_, r₃, -, h₃⟩ := bind_eq_done h₂
      obtain ⟨rfl, -⟩ := Outcome.done.inj h₃
      obtain ⟨-, rfl⟩ := Outcome.done.inj hoverlay
      exact ⟨r₂, hfields⟩

/-- A byte order that was set can be left again, so only the fields make the body of a struct fail. -/
theorem fields_of_body_failed {rounds levels : Nat} {s : StructDef} {e : Failure} {r r' : Run}
    (h : body d rounds (d.struct rounds levels) s r = .failed e r') :
    fields d rounds (d.struct rounds levels) s.fields [] (r.inOrder s.order) = .failed e r' := by
  cases ho : s.order with
  | none =>
      rw [body_plain _ _ _ ho] at h
      exact h
  | some order =>
      rw [body_ordered _ _ _ ho, overlaid,
        bind_done (rfl : modifyReader (·.overlay order) r = .done () { r with reader := r.reader.overlay order })]
        at h
      -- behind the fields the scope of the byte order is still there
      obtain hfields | ⟨children, r₁, hfields, hleave⟩ := bind_eq_failed h
      · exact hfields
      · have hbalanced : (fields d rounds (d.struct rounds levels) s.fields []).Balanced false :=
          d.balanced_fields rounds (d.balanced_levels rounds levels) [] nofun
        have hframes := (hbalanced.returns hfields).frames
        obtain ⟨left, hl, -⟩ := Reader.leave_eq_ok hframes
        rw [bind_done (move_ok (f := fun r => r.leave) hl)] at hleave
        cases hleave

/-- The struct that a field holds is one of the schema. -/
theorem defines_of_held {r r' : Run} {s : StructDef} (h : held d f r = .done s r') : d.schema.Defines s := by
  obtain ⟨name, r₁, -, hdef⟩ := bind_eq_done h
  exact ⟨name, (structDef_eq_done hdef).1⟩

end Decoder

end BinaryFormat
