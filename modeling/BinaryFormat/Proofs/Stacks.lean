import BinaryFormat.Proofs.Balance

/-!
# Stacks that are left as they were found

The scopes, the path and the depth are pushed to in one place and popped from in another, and a failure skips
every pop that is still to come. Two things make up for that. A step that succeeds has popped what it pushed,
so what goes on behind it finds the stacks of before. And the loop over the fields of a struct closes what a
field that failed has left open, so that a recovering loop may fail at any depth and still comes back to the
stacks that it was entered with.

The loop is spoken of by the runs that it gets to, one after each iteration, and `Iterates.fields_eq` says that
these are runs of the decoder's own loop.
-/

namespace BinaryFormat

open Schema (Field StructDef)
open Decoding

namespace Run

/-- The two runs have the same scopes open, up to what is bound in them, and the same byte order in force, and
they are at the same path and depth. -/
structure Level (r r' : Run) : Prop where
  frames : r'.reader.frames = r.reader.frames
  byteOrder : r'.reader.byteOrder = r.reader.byteOrder
  path : r'.path = r.path
  depth : r'.depth = r.depth

theorem Level.refl (r : Run) : r.Level r := ⟨rfl, rfl, rfl, rfl⟩

theorem Level.trans {r r' r'' : Run} (h : r.Level r') (h' : r'.Level r'') : r.Level r'' :=
  ⟨h'.frames.trans h.frames, h'.byteOrder.trans h.byteOrder, h'.path.trans h.path, h'.depth.trans h.depth⟩

/-- A step that returns leaves the stacks level. -/
theorem Returns.level {r r' : Run} (h : r.Returns r') : r.Level r' :=
  ⟨h.frames, Reader.byteOrder_congr h.order h.frames, h.path, h.depth⟩

end Run

theorem Decoding.Balanced.level {α : Type} {x : Decoding α} {b : Bool} (h : x.Balanced b) {r r' : Run}
    {a : α} (hx : x r = .done a r') : r.Level r' := (h.returns hx).level

namespace Decoder

/-! ## The loop over the fields of a struct -/

section Loop

variable (d : Decoder) (rounds : Nat) (nested : StructDef → String → Decoding Node)

/-- One iteration: what the field contributes, and whether the loop goes on behind it. -/
def iteration (f : Field) (found : List Node) : Decoding (Option Node × Bool) := do
  d.checkCancelled
  d.member f (field d rounds nested f found)

variable {d rounds nested} in
/-- The loop over the fields goes on behind an iteration, or ends there. -/
theorem fields_cons_eq {f : Field} {rest : List Field} {found : List Node} :
    fields d rounds nested (f :: rest) found = (do
      let p ← iteration d rounds nested f found
      fields d rounds nested (if p.2 then rest else []) (found ++ p.1.toList)) := by
  rw [fields_cons, iteration, bind_assoc]
  congr 1
  funext _
  congr 1
  funext p
  obtain ⟨node, goesOn⟩ := p
  cases goesOn with
  | true => rfl
  | false => rfl

variable {d rounds nested} in
/-- What holds where no field is left, and behind an iteration if it holds from where the loop goes on, holds of the
fields of a struct. The nodes found before come first. -/
theorem fields_induction {P : List Field → List Node → Run → List Node → Run → Prop}
    (hnil : ∀ found r, P [] found r [] r)
    (hcons : ∀ {f rest found p new r r₁ r'}, iteration d rounds nested f found r = .done p r₁ →
      P (if p.2 then rest else []) (found ++ p.1.toList) r₁ new r' → P (f :: rest) found r (p.1.toList ++ new) r')
    {fs : List Field} {found nodes : List Node} {r r' : Run}
    (h : fields d rounds nested fs found r = .done nodes r') :
    ∃ new, nodes = found ++ new ∧ P fs found r new r' := by
  induction fs generalizing found r with
  | nil =>
      obtain ⟨rfl, rfl⟩ := Outcome.done.inj h
      exact ⟨[], (List.append_nil _).symm, hnil _ _⟩
  | cons f rest ih =>
      rw [fields_cons_eq] at h
      obtain ⟨⟨node, goesOn⟩, r₁, hstep, h₁⟩ := bind_eq_done h
      cases goesOn with
      | true =>
          obtain ⟨new, rfl, hnew⟩ := ih h₁
          exact ⟨node.toList ++ new, List.append_assoc _ _ _, hcons hstep hnew⟩
      -- The field was abandoned, so nothing is decoded behind it.
      | false =>
          obtain ⟨rfl, rfl⟩ := Outcome.done.inj h₁
          have hend : P (f :: rest) found r (node.toList ++ []) r₁ := hcons hstep (hnil _ _)
          rw [List.append_nil] at hend
          exact ⟨node.toList, rfl, hend⟩

variable {d rounds nested} in
/-- An iteration passes the field over, or it adds the node of the field, or in recovery a node that stands in its
place. Behind that one the loop goes on if the schema tells how long the field is. -/
theorem iteration_eq_done {f : Field} {found : List Node} {p : Option Node × Bool} {r r' : Run}
    (h : iteration d rounds nested f found r = .done p r') : d.checkCancelled r = .done () r ∧
      ((field d rounds nested f found r = .done none r' ∧ p = (none, true)) ∨
      (∃ n r₁, field d rounds nested f found r = .done (some n) r₁ ∧ p = (some n, true) ∧
        d.Admits (r₁.nodes + 1) ∧ r' = { r₁ with nodes := r₁.nodes + 1 }) ∨
      ∃ e r₁, d.options.mode = .recover ∧ field d rounds nested f found r = .failed e r₁ ∧
        e.isRecoverable = true ∧ ∃ size, p = (some (failedNode f r.pos size e), f.staticSize?.isSome)) := by
  obtain ⟨_, r₁, hcancelled, hmember⟩ := bind_eq_done h
  obtain rfl := d.unmoving_checkCancelled.eq hcancelled
  refine ⟨hcancelled, ?_⟩
  rw [member_apply] at hmember
  cases hx : field d rounds nested f found r₁ with
  | unfinished => rw [hx] at hmember; cases hmember
  | done o r₂ =>
      rw [hx] at hmember
      cases o with
      | none =>
          obtain ⟨rfl, rfl⟩ := Outcome.done.inj hmember
          exact .inl ⟨rfl, rfl⟩
      | some n =>
          obtain ⟨_, r₃, hcount, hpure⟩ := bind_eq_done hmember
          obtain ⟨rfl, hadmits⟩ := d.countNode_eq_done hcount
          obtain ⟨rfl, rfl⟩ := Outcome.done.inj hpure
          exact .inr (.inl ⟨n, r₂, rfl, rfl, hadmits, rfl⟩)
  | failed e r₂ =>
      rw [hx] at hmember
      -- Recovered from: the node in place of the field is counted as well, but where the run then stands is not said
      -- here.
      obtain ⟨hmode, he, -, rfl, -⟩ := d.settled_error_eq_done hmember
      rw [isSome_resumesAt]
      exact .inr (.inr ⟨e, r₂, hmode, rfl, he, _, rfl⟩)

/-- The loop over the fields, entered with `start`, gets to a run with some fields left and some nodes
found. -/
inductive Iterates (fs : List Field) (start : Run) : List Field → List Node → Run → Prop where
  | enter : Iterates fs start fs [] start
  | next {f : Field} {rest : List Field} {found : List Node} {p : Option Node × Bool} {r r' : Run} :
      Iterates fs start (f :: rest) found r → iteration d rounds nested f found r = .done p r' →
      Iterates fs start (if p.2 then rest else []) (found ++ p.1.toList) r'

variable {d rounds nested}

/-- Where the loop has got to, it goes on as from there. -/
theorem Iterates.fields_eq {fs rest : List Field} {start r : Run} {found : List Node}
    (h : Iterates d rounds nested fs start rest found r) :
    fields d rounds nested fs [] start = fields d rounds nested rest found r := by
  induction h with
  | enter => rfl
  | @next f rest found p r r' _ hstep ih =>
      rw [ih, fields_cons_eq, bind_done hstep]

end Loop

/-! ## Every part of a decode, and every iteration -/

variable (d : Decoder) (rounds levels : Nat)

/-- Structs are balanced at every depth. -/
theorem balanced_levels : ∀ b s name, d.schema.Defines s → (b = true → d.schema.Calm s) →
    (d.struct rounds levels s name).Balanced b := fun _ s name _ hc =>
  d.balanced_struct rounds levels s name hc

theorem balanced_field (f : Field) (siblings : List Node) :
    (field d rounds (d.struct rounds levels) f siblings).Balanced false := by
  have hguarded : (guarded d rounds (d.struct rounds levels) f siblings).Balanced false :=
    d.balanced_guarded rounds (d.balanced_levels rounds levels) siblings nofun
  rw [field_eq]
  exact hguarded.within f.name f.type

/-- An iteration is balanced, also where the field is recovered from. -/
theorem balanced_iteration (f : Field) (found : List Node) :
    (iteration d rounds (d.struct rounds levels) f found).Balanced false := by
  refine (Balanced.reading d.unmoving_checkCancelled.reading).bind fun _ _ => ?_
  exact (d.balanced_field rounds levels f found).member d f

theorem balanced_element_levels (f : Field) (i : Nat) : (element d (d.struct rounds levels) f i).Balanced false :=
  d.balanced_element (d.balanced_levels rounds levels) i nofun

/-- Whatever the loop has come through, recovered failures among them, it has the stacks that it was entered
with. -/
theorem Iterates.level {d : Decoder} {rounds levels : Nat} {fs rest : List Field} {start r : Run}
    {found : List Node} (h : Iterates d rounds (d.struct rounds levels) fs start rest found r) :
    start.Level r := by
  induction h with
  | enter => exact .refl _
  | next _ hstep ih => exact ih.trans ((balanced_iteration _ _ _ _ _).level hstep)

/-- From whatever run they start, a struct, a field, one occurrence of a field and an element leave the stacks
as they found them if they succeed, and so does every iteration of the loop over the fields of a struct. -/
theorem stacks_restored (r : Run) :
    (∀ s name n r', d.struct rounds levels s name r = .done n r' → r.Level r') ∧
    (∀ f siblings o r', field d rounds (d.struct rounds levels) f siblings r = .done o r' → r.Level r') ∧
    (∀ f siblings n r', single d (d.struct rounds levels) f siblings r = .done n r' → r.Level r') ∧
    (∀ f i n r', element d (d.struct rounds levels) f i r = .done n r' → r.Level r') ∧
    ∀ fs rest found r', Iterates d rounds (d.struct rounds levels) fs r rest found r' → r.Level r' := by
  have hn := d.balanced_levels rounds levels
  refine ⟨?_, ?_, ?_, ?_, fun _ _ _ _ h => h.level⟩
  · intro s name n r' h
    exact (d.balanced_struct (b := false) rounds levels s name nofun).level h
  · intro f siblings o r' h
    exact (d.balanced_field rounds levels f siblings).level h
  · intro f siblings n r' h
    have hsingle : (single d (d.struct rounds levels) f siblings).Balanced false :=
      d.balanced_single hn siblings nofun
    exact hsingle.level h
  · intro f i n r' h
    exact (d.balanced_element_levels rounds levels f i).level h

/-- A box of two bytes. -/
def box : Field where
  name := "box"
  type := .struct
  size := some (.fixed 2)
  structRef := some "inner"

/-- A big-endian number whose padding does not fit in the box that it is in. -/
def crammed : Decoder where
  schema := {
    name := "crammed"
    structs := [
      ("all", { name := "all", fields := [box] }),
      ("inner", { name := "inner", fields := [{ name := "n", type := .u16 }], order := some .big
                  align := some 8 })]
    root := "all" }
  options := { mode := .recover }

/-- The box fails with its scope still open and one struct further in. The iteration that recovers from it
closes both, and goes on behind the box. -/
theorem crammed_restored :
    let start := Run.start (.ofBuffer #[1, 2, 3] .little)
    ∃ node r, Iterates crammed 0 (crammed.struct 0 1) [box] start [] [node] r ∧
      node.isFailed = true ∧ r.pos = 2 ∧ start.Level r := by
  intro start
  obtain ⟨node, r, hstep, hfailed, hpos⟩ : ∃ node r,
      iteration crammed 0 (crammed.struct 0 1) box [] start = .done (some node, true) r ∧
        node.isFailed = true ∧ r.pos = 2 := ⟨_, _, rfl, rfl, rfl⟩
  have hloop : Iterates crammed 0 (crammed.struct 0 1) [box] start [] [node] r := .next .enter hstep
  exact ⟨node, r, hloop, hfailed, hpos, (stacks_restored crammed 0 1 start).2.2.2.2 _ _ _ _ hloop⟩

end Decoder

end BinaryFormat
