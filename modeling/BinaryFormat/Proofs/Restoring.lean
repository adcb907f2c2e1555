import BinaryFormat.Proofs.Extent

/-!
# Fields that leave the position as it was

A field may lie elsewhere in the buffer, and what comes behind it in the schema be read from where the field was met.
Two paths of the decoder see to that. Where the field succeeds, its seek has kept the position from before, and the
last thing it does is to go back. Where it fails, the loop over the fields goes by the bytes that the schema tells of
the field. Of one that seeks the schema tells none, and so the loop goes back to where the field was met, too.
-/

namespace BinaryFormat

open Schema (Field StructDef)
open Decoding

/-- The field moves to an offset of its own, and back behind it. -/
structure Schema.Field.Restores (f : Field) : Prop where
  seek : f.seek.isSome = true
  restore : f.restore = true

namespace Schema.Field

variable {f : Field}

/-- The schema does not tell how far a field goes on that is elsewhere. -/
theorem staticSize?_of_seek (h : f.seek.isSome = true) : f.staticSize? = none := by
  cases hn : f.staticSize? with
  | none => rfl
  | some n =>
      obtain ⟨-, hseek, -⟩ := staticSize?_eq_some hn
      rw [hseek] at h
      cases h

end Schema.Field

namespace Decoder

variable {d : Decoder} {rounds levels : Nat} {nested : StructDef → String → Decoding Node} {f : Field} {r r' : Run}

/-! ## The field succeeds -/

/-- Whatever a field does between its seek and its end, the position before the seek is the one behind it. -/
theorem pos_of_restore {α : Type} {x : Decoding α} {a : α} (hf : f.Restores) (h : sought f x r = .done a r') :
    r'.pos = r.pos := by
  obtain ⟨before, r₁, hseek, h₁⟩ := bind_eq_done h
  obtain ⟨a, r₂, -, h₂⟩ := bind_eq_done h₁
  obtain ⟨_, r₃, hrestore, h₃⟩ := bind_eq_done h₂
  obtain ⟨-, rfl⟩ := Outcome.done.inj h₃
  obtain ⟨-, hsought⟩ := seek_ensures f r
  rw [hseek] at hsought
  obtain ⟨hnone, -⟩ | ⟨-, rfl, -⟩ := hsought
  · rw [hf.seek] at hnone
    cases hnone
  · unfold restore at hrestore
    dsimp only at hrestore
    rw [if_pos hf.restore] at hrestore
    obtain ⟨-, rfl⟩ := Outcome.done.inj hrestore
    rfl

/-- A field that goes back leaves the position where it found it. -/
theorem pos_field {found : List Node} {o : Option Node} (hf : f.Restores)
    (h : field d rounds nested f found r = .done o r') : r'.pos = r.pos := by
  obtain ⟨-, -, rfl⟩ | ⟨n, r₁, -, hpresent, -, rfl⟩ := field_eq_done h
  · rfl
  · rw [presentField_eq] at hpresent
    have hpos := pos_of_restore hf hpresent
    exact hpos

/-! ## The field fails -/

/-- Recovery has nowhere to go on but where the field was met. -/
theorem resumesAt_eq_none (hf : f.Restores) (start stop : Nat) : resumesAt f start stop = none := by
  unfold resumesAt
  rw [Field.staticSize?_of_seek hf.seek]
  rfl

/-- So does the node in its place, since a field that seeks has no size to go on by. -/
theorem pos_settled {e : Failure} {p : Option Node × Bool} {failed : Run} (hf : f.Restores)
    (h : d.settled f r (.error e) failed = .done p r') : r'.pos = r.pos := by
  obtain ⟨-, -, -, -, rfl⟩ := d.settled_error_eq_done h
  rw [resumesAt_eq_none hf]
  rfl

/-- The node of the field is counted behind it, and the position is none of the things that are counted. -/
theorem pos_iteration {found : List Node} {p : Option Node × Bool} (hf : f.Restores)
    (h : iteration d rounds nested f found r = .done p r') : r'.pos = r.pos := by
  obtain ⟨_, r₁, hcancelled, hmember⟩ := bind_eq_done h
  obtain rfl := d.unmoving_checkCancelled.eq hcancelled
  rw [member_apply] at hmember
  cases hx : field d rounds nested f found r₁ with
  | unfinished => rw [hx] at hmember; cases hmember
  | failed e r₂ =>
      rw [hx] at hmember
      exact pos_settled hf hmember
  | done o r₂ =>
      rw [hx] at hmember
      have hpos : r₂.pos = r₁.pos := pos_field hf hx
      cases o with
      | none =>
          obtain ⟨-, rfl⟩ := Outcome.done.inj hmember
          exact hpos
      | some n =>
          obtain ⟨_, r₃, hcount, hpure⟩ := bind_eq_done hmember
          obtain ⟨rfl, -⟩ := d.countNode_eq_done hcount
          obtain ⟨-, rfl⟩ := Outcome.done.inj hpure
          exact hpos

/-- A failure that recovery can settle is settled, and the struct ends behind the node that stands for the field. -/
theorem fields_eq_of_recovers {found : List Node} {e : Failure} (hf : f.Restores)
    (h : d.Recovers rounds levels f found r e) :
    ∃ r', r.Returns r' ∧ r'.pos = r.pos ∧ ∀ rest, fields d rounds (d.struct rounds levels) (f :: rest) found r =
      .done (found ++ [failedNode f r.pos 0 e]) r' := by
  obtain ⟨r', hiteration, hreturns, hpos⟩ := h.iteration_eq
  rw [resumesAt_eq_none hf, Option.getD_none, Nat.sub_self, Field.staticSize?_of_seek hf.seek] at hiteration
  rw [resumesAt_eq_none hf] at hpos
  refine ⟨r', hreturns, hpos, fun rest => ?_⟩
  rw [fields_cons_eq, bind_done hiteration]
  rfl

variable (d rounds levels)

/-- A field that goes elsewhere and back leaves the position where it was, in the same buffer and with the same scopes
open: if it succeeds or is passed over, and behind the iteration of the loop over the fields that it is met in, in
whichever way that came to its end. Where recovery has to deal with a failure of the field, however far inside it that
arose, this is the end of the struct: a node of no bytes stands for the field, and the position is where it was. -/
theorem restoring_field_pos (hf : f.Restores) (found : List Node) (r : Run) :
    (∀ o r', field d rounds (d.struct rounds levels) f found r = .done o r' → r.Returns r' ∧ r'.pos = r.pos) ∧
    (∀ p r', iteration d rounds (d.struct rounds levels) f found r = .done p r' → r.Returns r' ∧ r'.pos = r.pos) ∧
    ∀ e, d.Recovers rounds levels f found r e → ∃ r', r.Returns r' ∧ r'.pos = r.pos ∧ ∀ rest,
      fields d rounds (d.struct rounds levels) (f :: rest) found r =
        .done (found ++ [failedNode f r.pos 0 e]) r' := by
  refine ⟨fun o r' h => ?_, fun p r' h => ?_, fun e h => ?_⟩
  · exact ⟨(d.balanced_field rounds levels f found).returns h, pos_field hf h⟩
  · exact ⟨(d.balanced_iteration rounds levels f found).returns h, pos_iteration hf h⟩
  · exact fields_eq_of_recovers hf h

end Decoder

/-! ## A look ahead -/

namespace Glance

/-- The tokens of `3`. -/
theorem scan?_offset : Token.scan? 0 (stripBraces "3".toList).1 =
    some ⟨[⟨.int 3, ⟨0, 1⟩⟩, ⟨.finish, ⟨1, 1⟩⟩], []⟩ := by
  decide +kernel

/-- The offset that the field goes to. -/
def offset : Expression where
  source := "3"
  tree := .int 3 ⟨0, 1⟩
  tree_eq := by
    unfold Expr.ofSource Expr.ofText
    rw [scan?_offset]
    rfl

/-- A number of two bytes at the offset. -/
def pair : Field where
  name := "pair"
  type := .u16
  seek := some offset
  restore := true

/-- A decoder that recovers where the offset is too far. -/
def decoder : Decoder where
  schema := {
    name := "glance"
    structs := [("all", { name := "all", fields := [pair] })]
    root := "all" }
  options := { mode := .recover }

/-- The run behind the first byte of a buffer. -/
def run (data : Buffer) : Run :=
  .start { Reader.ofBuffer data .little with pos := 1 }

/-- The number is read, or it does not fit and a node stands for it: either way the second byte is next. -/
theorem pair_field_pos : pair.Restores ∧
    (∃ node r', Decoder.field decoder 0 (decoder.struct 0 0) pair [] (run #[9, 8, 7, 6, 5]) = .done (some node) r' ∧
      r'.pos = 1) ∧
    ∃ e r', decoder.Recovers 0 0 pair [] (run #[9, 8, 7, 6]) e ∧ r'.pos = 1 ∧ ∀ rest,
      Decoder.fields decoder 0 (decoder.struct 0 0) (pair :: rest) [] (run #[9, 8, 7, 6]) =
        .done [Decoder.failedNode pair 1 0 e] r' := by
  have hpair : pair.Restores := ⟨rfl, rfl⟩
  obtain ⟨node, r', hdone⟩ : ∃ node r', Decoder.field decoder 0 (decoder.struct 0 0) pair [] (run #[9, 8, 7, 6, 5]) =
      .done (some node) r' := ⟨_, _, rfl⟩
  obtain ⟨e, hfails⟩ : ∃ e, decoder.Recovers 0 0 pair [] (run #[9, 8, 7, 6]) e :=
    ⟨_, rfl, rfl, rfl, _, rfl, nofun⟩
  obtain ⟨hsucceeds, -, -⟩ := Decoder.restoring_field_pos decoder 0 0 hpair [] (run #[9, 8, 7, 6, 5])
  obtain ⟨-, -, hrecovers⟩ := Decoder.restoring_field_pos decoder 0 0 hpair [] (run #[9, 8, 7, 6])
  obtain ⟨r'', -, hpos, hfields⟩ := hrecovers e hfails
  exact ⟨hpair, ⟨node, r', hdone, (hsucceeds _ _ hdone).2⟩, e, r'', hfails, hpos, hfields⟩

end Glance

end BinaryFormat
