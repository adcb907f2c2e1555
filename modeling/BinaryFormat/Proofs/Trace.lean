import BinaryFormat.Proofs.Calls
import BinaryFormat.Proofs.Rounds

/-!
# The trace of a decode

A decode that succeeds leaves a tree, and the way it went is a tree of the same shape: where each node was begun
and ended, when it was counted, and which failures were replaced by a node on the way. That is the trace. What
concerns the whole of a decode, where its bytes went or what it counted and noted down, is shown by induction on
the trace, and the decoder need not be opened again.

Of a run the trace keeps what has been made in it, and the position and the end of its scope. Between two parts a
run is moved to another offset or into another scope, and what else changes about its reader is left out.
-/

namespace BinaryFormat

open Schema (Field StructDef)
open Decoding

/-! ## Multiples -/

/-- The first multiple from an offset on. There is no multiple of zero to go to. -/
def aligned (multiple : Option UInt64) (offset : Nat) : Nat :=
  let n := (multiple.getD 1).toNat
  if n = 0 then offset else (offset + n - 1) / n * n

/-- What is left to the next multiple, and the offset itself, come to that multiple. -/
theorem add_padding_eq (offset n : Nat) (hn : 0 < n) :
    offset + (n - offset % n) % n = (offset + n - 1) / n * n := by
  have hsplit : n * (offset / n) + offset % n = offset := Nat.div_add_mod offset n
  have hrest : offset % n < n := Nat.mod_lt offset hn
  -- On a multiple there is nothing to pad. Anywhere else the quotient is rounded up, to the next one.
  cases Nat.eq_zero_or_pos (offset % n) with
  | inl hzero =>
      have hquot : (offset + n - 1) / n = offset / n := by
        have hoff : offset + n - 1 = n - 1 + n * (offset / n) := by omega
        rw [hoff, Nat.add_mul_div_left _ _ hn, Nat.div_eq_of_lt (by omega), Nat.zero_add]
      rw [hzero, Nat.sub_zero, Nat.mod_self, hquot, Nat.mul_comm]
      omega
  | inr hpos =>
      have hquot : (offset + n - 1) / n = offset / n + 1 := by
        have hoff : offset + n - 1 = offset % n - 1 + n * (offset / n + 1) := by
          rw [Nat.mul_succ]
          omega
        rw [hoff, Nat.add_mul_div_left _ _ hn, Nat.div_eq_of_lt (by omega), Nat.zero_add]
      rw [Nat.mod_eq_of_lt (show n - offset % n < n by omega), hquot, Nat.mul_comm, Nat.mul_succ]
      omega

/-- Aligning never goes back. -/
theorem le_aligned (multiple : Option UInt64) (offset : Nat) : offset ≤ aligned multiple offset := by
  unfold aligned
  dsimp only
  split
  · exact Nat.le_refl _
  · rename_i hn
    rw [← add_padding_eq offset _ (Nat.pos_of_ne_zero hn)]
    exact Nat.le_add_right _ _

theorem aligned_none (offset : Nat) : aligned none offset = offset := by
  show (if 1 = 0 then offset else (offset + 1 - 1) / 1 * 1) = offset
  rw [if_neg (by decide), Nat.div_one, Nat.mul_one, Nat.add_sub_cancel]

theorem aligned_some (n : UInt64) (r : Reader) : aligned (some n) r.pos = r.pos + r.padding n.toNat := by
  show (if n.toNat = 0 then r.pos else _) = r.pos + (n.toNat - r.pos % n.toNat) % n.toNat
  by_cases hn : n.toNat = 0
  · rw [if_pos hn, hn]
    simp only [Nat.mod_zero, Nat.zero_sub, Nat.add_zero]
  · rw [if_neg hn, add_padding_eq r.pos _ (Nat.pos_of_ne_zero hn)]
    rfl

/-! ## Parts of a decode -/

/-- The end of the scope that the run is in. -/
abbrev Run.stop (r : Run) : Nat := r.reader.scope.stop

/-- The run `r'` stands at an offset in a scope that ends at `stop`, and has made what `r` has. -/
structure Run.Shifts (r : Run) (pos stop : Nat) (r' : Run) : Prop where
  path : r'.path = r.path
  nodes : r'.nodes = r.nodes
  recovered : r'.recovered = r.recovered
  pos : r'.pos = pos
  stop : r'.stop = stop

/-- The run as it is once the node of a field or an element has been counted, with the path from before. -/
def Run.counted (r : Run) (path : List String) : Run := { r with path, nodes := r.nodes + 1 }

namespace Node

/-- The node covers the bytes between two offsets. -/
structure Spans (n : Node) (start stop : Nat) : Prop where
  offset : n.offset = start
  size : n.size = stop - start

/-- Nothing hangs below the node, nor could it. -/
structure IsLeaf (n : Node) : Prop where
  children : n.children = []
  isBranch : n.isBranch = false
  isFailed : n.isFailed = false

/-- Whether the bytes are those of a compressed stream. -/
def Content.isStream : Content → Bool
  | .compressed .. => true
  | _ => false

/-- The node is the stream that a struct was decoded from. -/
structure Holds (n inner : Node) : Prop where
  children : n.children = [inner]
  isStream : n.content.isStream = true

theorem Holds.isBranch_eq {n inner : Node} (h : n.Holds inner) : n.isBranch = false := by
  have hstream := h.isStream
  unfold Node.isBranch
  cases hc : n.content with
  | struct | array => rw [hc] at hstream; cases hstream
  | _ => rfl

end Node

/-- The field declares that it takes so many bytes, as far as the schema alone tells. -/
def Schema.Field.Declares (f : Field) (size : Nat) : Prop :=
  match f.size with
  | some (.fixed n) => size = n.toNat
  | some .remaining | some (.computed _) => True
  | none => False

namespace Decoder

variable (d : Decoder)

/-- A part of a decode. -/
inductive Task where
  /-- A struct under a name. -/
  | struct (s : StructDef) (name : String)
  /-- The fields of a struct, or those that are left. -/
  | fields (fs : List Field)
  /-- A field once its place is found. -/
  | content (f : Field)
  /-- One occurrence of a field. -/
  | occurrence (f : Field)
  /-- The elements of an array from a number on. -/
  | elements (f : Field) (i : Nat)

/-- A field that starts at `r` fails, and a node in its place leads to `r'`. -/
inductive Replaces (d : Decoder) (f : Field) (r : Run) : Node → Run → Prop where
  | mk {rounds levels : Nat} {found : List Node} {e : Failure} {failed r' : Run} :
      d.options.mode = .recover →
      field d rounds (d.struct rounds levels) f found r = .failed e failed → e.isRecoverable = true →
      r'.path = r.path → r'.nodes = failed.nodes + 1 → d.Admits r'.nodes →
      r'.recovered = recoveredFailure f r e :: failed.recovered →
      r'.pos = (resumesAt f r.pos r.stop).getD r.pos → r'.stop = r.stop →
      Replaces d f r (failedNode f r.pos (r'.pos - r.pos) e) r'

/-- From one run to another a part of a decode yields these nodes. -/
inductive Trace (d : Decoder) : Task → Run → List Node → Run → Prop where
  /-- Bytes are read, or none. -/
  | leaf {f : Field} {n : Node} {r r' : Run} :
      n.name = f.name → n.IsLeaf → n.Spans r.pos r'.pos →
      r.pos ≤ r'.pos → r'.pos ≤ max r.pos r.stop → r.Shifts r'.pos r.stop r' →
      Trace d (.occurrence f) r [n] r'
  /-- A struct is decoded in the scope that its field is in. -/
  | nested {f : Field} {target : String} {s : StructDef} {n : Node} {r r' : Run} :
      f.size = none → d.schema.structs.get? target = some s →
      Trace d (.struct s f.name) r [n] r' →
      Trace d (.occurrence f) r [n] r'
  /-- A struct is decoded in a scope of the size that its field declares. -/
  | sized {f : Field} {target : String} {s : StructDef} {size : Nat} {n : Node} {r r₁ r₂ r' : Run} :
      f.Declares size → d.schema.structs.get? target = some s →
      r.pos + size ≤ r.stop → r.Shifts r.pos (r.pos + size) r₁ →
      Trace d (.struct s f.name) r₁ [n] r₂ →
      r₂.Shifts (r.pos + size) r.stop r' →
      Trace d (.occurrence f) r [{ n with offset := r.pos, size }] r'
  /-- A struct is decoded in the buffer that the bytes of its field decompress to. -/
  | unpacked {f : Field} {target : String} {s : StructDef} {stop : Nat} {n inner : Node}
      {r r₁ r₂ r' : Run} :
      n.name = f.name → d.schema.structs.get? target = some s → n.Holds inner → n.Spans r.pos r'.pos →
      r.pos ≤ r'.pos → r'.pos ≤ max r.pos r.stop → r.Shifts 0 stop r₁ →
      Trace d (.struct s f.name) r₁ [inner] r₂ →
      r₂.Shifts r'.pos r.stop r' →
      Trace d (.occurrence f) r [n] r'
  | once {f : Field} {n : Node} {r r' : Run} :
      f.repetition = .once → Trace d (.occurrence f) r [n] r' → Trace d (.content f) r [n] r'
  | array {f : Field} {n : Node} {r r' : Run} :
      f.repetition ≠ .once → n.name = f.name → n.content = .array → n.Spans r.pos r'.pos →
      Trace d (.elements (elementField f) 0) r n.children r' →
      Trace d (.content f) r [n] r'
  | noElement {f : Field} {i : Nat} {r : Run} : Trace d (.elements f i) r [] r
  | element {f : Field} {i : Nat} {n : Node} {rest : List Node} {r r₁ r' : Run} :
      d.Admits (r₁.nodes + 1) →
      Trace d (.occurrence f) { r with path := elementName i :: r.path } [n] r₁ →
      Trace d (.elements f (i + 1)) (r₁.counted r.path) rest r' →
      Trace d (.elements f i) r ({ n with name := elementName i } :: rest) r'
  | noField {r : Run} : Trace d (.fields []) r [] r
  /-- A field is passed over. -/
  | absent {f : Field} {fs : List Field} {nodes : List Node} {r r' : Run} :
      f.condition.isSome = true → Trace d (.fields fs) r nodes r' → Trace d (.fields (f :: fs)) r nodes r'
  /-- A field is decoded from `r₁` on, and the one behind it from `r₃` on. -/
  | present {f : Field} {fs : List Field} {n : Node} {rest : List Node} {isValid : Option Bool}
      {r r₁ r₂ r₃ r' : Run} :
      d.Admits (r₂.nodes + 1) →
      Run.Shifts { r with path := f.name :: r.path } r₁.pos r.stop r₁ →
      (f.seek = none → r₁.pos = aligned f.align r.pos ∧ r₁.pos ≤ max r.pos r.stop) →
      Trace d (.content f) r₁ [n] r₂ →
      (r₂.counted r.path).Shifts r₃.pos r.stop r₃ → (f.seek = none → r₃.pos = r₂.pos) →
      Trace d (.fields fs) r₃ rest r' →
      Trace d (.fields (f :: fs)) r
        ({ n with description := f.description, isPadding := f.padding, isValid } :: rest) r'
  /-- A field of a known length fails, and the struct goes on behind it. -/
  | failed {f : Field} {fs : List Field} {n : Node} {rest : List Node} {r r₁ r' : Run} :
      f.staticSize?.isSome = true → Replaces d f r n r₁ → Trace d (.fields fs) r₁ rest r' →
      Trace d (.fields (f :: fs)) r (n :: rest) r'
  /-- A field of unknown length fails, and the struct ends there. -/
  | abandoned {f : Field} {fs : List Field} {n : Node} {r r' : Run} :
      f.staticSize? = none → Replaces d f r n r' → Trace d (.fields (f :: fs)) r [n] r'
  | struct {s : StructDef} {name : String} {n : Node} {r r₁ r₂ r' : Run} :
      n.name = name → n.content = .struct → n.Spans r.pos r'.pos → r.Shifts r.pos r.stop r₁ →
      Trace d (.fields s.fields) r₁ n.children r₂ →
      r₂.Shifts (aligned s.align r₂.pos) r.stop r' → r'.pos ≤ max r₂.pos r.stop →
      Trace d (.struct s name) r [n] r'

variable {d}

namespace Replaces

variable {f : Field} {n : Node} {r r' : Run}

/-- A node in the place of a field leaves the path as it was. -/
theorem path (h : Replaces d f r n r') : r'.path = r.path := by
  cases h with
  | mk _ _ _ hpath => exact hpath

theorem stop (h : Replaces d f r n r') : r'.stop = r.stop := by
  cases h with
  | mk _ _ _ _ _ _ _ _ hstop => exact hstop

theorem admits (h : Replaces d f r n r') : d.Admits r'.nodes := by
  cases h with
  | mk _ _ _ _ _ hadmits => exact hadmits

end Replaces

/-- A part of a decode comes back to the path that it started at. -/
theorem Trace.path {t : Task} {r r' : Run} {nodes : List Node} (h : Trace d t r nodes r') :
    r'.path = r.path := by
  induction h with
  | leaf _ _ _ _ _ hr => exact hr.path
  | nested _ _ _ ih => exact ih
  | sized _ _ _ hopen _ hclose ih => exact hclose.path.trans (ih.trans hopen.path)
  | unpacked _ _ _ _ _ _ hopen _ hclose ih => exact hclose.path.trans (ih.trans hopen.path)
  | once _ _ ih => exact ih
  | array _ _ _ _ _ ih => exact ih
  | noElement | noField => rfl
  | element _ _ _ _ ih => exact ih
  | absent _ _ ih => exact ih
  | present _ _ _ _ hclose _ _ _ ih => exact ih.trans hclose.path
  | failed _ hrep _ ih => exact ih.trans hrep.path
  | abandoned _ hrep => exact hrep.path
  | struct _ _ _ hopen _ hclose _ ih => exact hclose.path.trans (ih.trans hopen.path)

/-- A part of a decode comes back to the scope that it started in. -/
theorem Trace.stop {t : Task} {r r' : Run} {nodes : List Node} (h : Trace d t r nodes r') :
    r'.stop = r.stop := by
  induction h with
  | leaf _ _ _ _ _ hr => exact hr.stop
  | nested _ _ _ ih => exact ih
  | sized _ _ _ _ _ hclose => exact hclose.stop
  | unpacked _ _ _ _ _ _ _ _ hclose => exact hclose.stop
  | once _ _ ih => exact ih
  | array _ _ _ _ _ ih => exact ih
  | noElement | noField => rfl
  | element _ _ _ ih ih' => exact ih'.trans ih
  | absent _ _ ih => exact ih
  | present _ _ _ _ hclose _ _ _ ih => exact ih.trans hclose.stop
  | failed _ hrep _ ih => exact ih.trans hrep.stop
  | abandoned _ hrep => exact hrep.stop
  | struct _ _ _ _ _ hclose => exact hclose.stop

end Decoder

namespace Run

theorem Shifts.refl (r : Run) : r.Shifts r.pos r.stop r := ⟨rfl, rfl, rfl, rfl, rfl⟩

theorem Shifts.trans {r r' r'' : Run} {pos stop pos' stop' : Nat} (h : r.Shifts pos stop r')
    (h' : r'.Shifts pos' stop' r'') : r.Shifts pos' stop' r'' :=
  ⟨h'.path.trans h.path, h'.nodes.trans h.nodes, h'.recovered.trans h.recovered, h'.pos, h'.stop⟩

theorem Reads.shifts {r r' : Run} (h : r.Reads r') : r.Shifts r'.pos r.stop r' := by
  have hstop : r'.stop = r.stop := Reader.scope_stop_congr h.reader.data h.reader.frames
  obtain ⟨reader, rfl⟩ : ∃ reader, r' = { r with reader } := ⟨_, h.rest⟩
  exact ⟨rfl, rfl, rfl, rfl, hstop⟩

end Run

namespace Decoder

/-! ## Brackets that are gone through -/

section Brackets

variable {α : Type} {x : Decoding α} {r r' : Run} {a : α}

/-- Closing a scope comes back to the one around it. -/
theorem leave_eq_done {s : Scope} {frames : List Scope} {u : Unit} (hf : r.reader.frames = s :: frames)
    (h : Decoding.move (·.leave) r = .done u r') :
    r.Shifts (if s.isOverlay then r.pos else s.stop) r'.stop r' ∧ r'.reader.data = r.reader.data ∧
      r'.reader.frames = frames := by
  obtain ⟨left, hl, hdata, -, hframes, hpos⟩ := Reader.leave_eq_ok hf
  obtain ⟨reader, hreader, rfl⟩ := move_eq_done h
  obtain rfl := Except.ok.inj (hl.symm.trans hreader)
  exact ⟨⟨rfl, rfl, rfl, hpos, rfl⟩, hdata, hframes⟩

/-- A step in a scope of its own begins at its start, and is left at its end wherever it got to. -/
theorem bounded_eq_done {b : Bool} {size : Nat} (hx : x.Balanced b) (h : bounded size x r = .done a r') :
    ∃ r₁ r₂, r.pos + size ≤ r.stop ∧ r.Shifts r.pos (r.pos + size) r₁ ∧ x r₁ = .done a r₂ ∧
      r₂.Shifts (r.pos + size) r.stop r' := by
  obtain ⟨_, r₁, henter, h⟩ := bind_eq_done h
  obtain ⟨_, r₂, hinner, h⟩ := bind_eq_done h
  obtain ⟨_, r₃, hleave, h⟩ := bind_eq_done h
  obtain ⟨rfl, rfl⟩ := Outcome.done.inj h
  obtain ⟨reader, he, rfl⟩ := move_eq_done henter
  obtain ⟨hsize, hreader⟩ := Reader.enter_eq_ok he
  have hopen : r.Shifts r.pos (r.pos + size) { r with reader } := by
    subst hreader
    exact ⟨rfl, rfl, rfl, rfl, rfl⟩
  have hframes : reader.frames = ⟨r.pos, r.pos + size, none, false, []⟩ :: r.reader.frames := by
    subst hreader
    rfl
  have hdata : reader.data = r.reader.data := by rw [hreader]
  -- The step leaves the stack as it has found it, so the scope that is closed is the one that was opened.
  have hreturns := hx.returns hinner
  obtain ⟨hclose, hdata', hframes'⟩ := leave_eq_done (hreturns.frames.trans hframes) hleave
  have hstop : r₃.stop = r.stop :=
    Reader.scope_stop_congr (hdata'.trans (hreturns.data.trans hdata)) hframes'
  exact ⟨_, r₂, hsize, hopen, hinner, hstop ▸ hclose⟩

/-- A step in a byte order of its own is left where it got to. -/
theorem overlaid_eq_done {b : Bool} {order : ByteOrder} (hx : x.Balanced b)
    (h : overlaid order x r = .done a r') :
    ∃ r₁ r₂, r.Shifts r.pos r.stop r₁ ∧ x r₁ = .done a r₂ ∧ r₂.Shifts r₂.pos r.stop r' := by
  obtain ⟨_, r₁, hoverlay, h⟩ := bind_eq_done h
  obtain ⟨_, r₂, hinner, h⟩ := bind_eq_done h
  obtain ⟨_, r₃, hleave, h⟩ := bind_eq_done h
  obtain ⟨rfl, rfl⟩ := Outcome.done.inj h
  obtain ⟨-, rfl⟩ := Outcome.done.inj hoverlay
  have hreturns := hx.returns hinner
  obtain ⟨hclose, hdata, hframes⟩ := leave_eq_done hreturns.frames hleave
  have hstop : r₃.stop = r.stop := Reader.scope_stop_congr (hdata.trans hreturns.data) hframes
  exact ⟨{ r with reader := r.reader.overlay order }, r₂, ⟨rfl, rfl, rfl, rfl, rfl⟩, hinner, hstop ▸ hclose⟩

/-- A field that does not seek is where the run is, and so is what goes on behind it. -/
theorem sought_eq_done {f : Field} (h : sought f x r = .done a r') :
    ∃ r₁ r₂, r.Shifts r₁.pos r.stop r₁ ∧ (f.seek = none → r₁ = r) ∧ x r₁ = .done a r₂ ∧
      r₂.Shifts r'.pos r₂.stop r' ∧ (f.seek = none → r' = r₂) := by
  obtain ⟨before, r₁, hseek, h⟩ := bind_eq_done h
  obtain ⟨_, r₂, hinner, h⟩ := bind_eq_done h
  obtain ⟨_, r₃, hrestore, h⟩ := bind_eq_done h
  obtain ⟨rfl, rfl⟩ := Outcome.done.inj h
  have hat := seek_ensures f r
  rw [hseek] at hat
  -- a field without a seek leaves the run alone, and any other may come back to where it was or not
  obtain ⟨-, rfl, rfl⟩ | ⟨hsome, rfl, target, -, rfl⟩ := hat.2
  · obtain ⟨-, rfl⟩ := Outcome.done.inj hrestore
    exact ⟨r₁, r₂, .refl _, fun _ => rfl, hinner, .refl _, fun _ => rfl⟩
  · have hseeks : f.seek = none → False := fun hnone => by rw [hnone] at hsome; cases hsome
    refine ⟨{ r with reader := { r.reader with pos := target } }, r₂, ⟨rfl, rfl, rfl, rfl, rfl⟩,
      fun hnone => (hseeks hnone).elim, hinner, ?_, fun hnone => (hseeks hnone).elim⟩
    unfold restore at hrestore
    dsimp only at hrestore
    split at hrestore
    · obtain ⟨-, rfl⟩ := Outcome.done.inj hrestore
      exact ⟨rfl, rfl, rfl, rfl, rfl⟩
    · obtain ⟨-, rfl⟩ := Outcome.done.inj hrestore
      exact .refl _

/-- Aligning moves to the next multiple, inside the scope. -/
theorem align_eq_done {multiple : Option UInt64} {u : Unit} (h : align multiple r = .done u r') :
    r.Shifts (aligned multiple r.pos) r.stop r' ∧ r'.pos ≤ max r.pos r.stop := by
  have hreads := (reading_align multiple).reads h
  have hshifts := hreads.shifts
  refine ⟨?_, hreads.reader.upper⟩
  cases multiple with
  | none =>
      obtain ⟨-, rfl⟩ := Outcome.done.inj h
      rw [aligned_none]
      exact hshifts
  | some n =>
      obtain ⟨pad, r₁, hread, h⟩ := bind_eq_done h
      obtain ⟨-, rfl⟩ := Outcome.done.inj h
      obtain ⟨reader, hr, rfl⟩ := read_eq_done hread
      obtain ⟨rfl, rfl, -⟩ := Reader.align_eq_ok hr
      have haligned : aligned (some n) r.pos = r.pos + r.reader.padding n.toNat := aligned_some n r.reader
      rw [haligned]
      exact hshifts

theorem declares_of_fieldSize {f : Field} {size : Nat} (h : fieldSize f r = .done size r') :
    f.Declares size := by
  unfold fieldSize at h
  unfold Field.Declares
  cases hf : f.size with
  | none => rw [hf] at h; cases h
  | some declared =>
      cases declared with
      | fixed n =>
          rw [hf] at h
          obtain ⟨rfl, -⟩ := Outcome.done.inj h
          rfl
      | remaining | computed _ => trivial

end Brackets

/-! ## The trace of what a decoder does -/

section Sound

variable {rounds levels : Nat}
  (hn : ∀ {s name r n r'}, d.struct rounds levels s name r = .done n r' → Trace d (.struct s name) r [n] r')

include hn

theorem trace_structField {f : Field} {target : String} {s : StructDef} {n : Node} {r r' : Run}
    (hs : d.schema.structs.get? target = some s)
    (h : structField (d.struct rounds levels) f s r = .done n r') : Trace d (.occurrence f) r [n] r' := by
  obtain ⟨hf, h⟩ | ⟨size, m, -, hsize, hbounded, rfl⟩ := structField_eq_done h
  · exact .nested hf hs (hn h)
  · have hbalanced : (d.struct rounds levels s f.name).Balanced false :=
      d.balanced_struct rounds levels s f.name nofun
    obtain ⟨inner, after, hfits, hopen, hinner, hclose⟩ := bounded_eq_done hbalanced hbounded
    exact .sized (declares_of_fieldSize hsize) hs hfits hopen (hn hinner) hclose

theorem trace_compressedField {f : Field} {n : Node} {r r' : Run}
    (h : compressedField d (d.struct rounds levels) f r = .done n r') :
    Trace d (.occurrence f) r [n] r' := by
  obtain ⟨size, bytes, reader, c, out, raw, children, -, hread, -, -, rfl, hrest⟩ := compressedField_eq_done h
  have hadvances := Reader.advances_read hread
  have hreads : r.Reads { r with reader } := ⟨rfl, hadvances⟩
  have hspans : size = reader.pos - r.pos := by
    obtain ⟨-, rfl, -⟩ := Reader.read_eq_ok hread
    exact (Nat.add_sub_cancel_left _ _).symm
  obtain ⟨rfl, rfl⟩ | ⟨name, s, m, r₁, -, hs, hinner, rfl, rfl⟩ := hrest
  · exact .leaf rfl ⟨rfl, rfl, rfl⟩ ⟨rfl, hspans⟩ hadvances.lower hadvances.upper hreads.shifts
  · -- the reader of the stream is given up, and only what was counted and noted down comes back
    have hopen : r.Shifts 0 out.size { r with reader := .ofBuffer out d.schema.order } := ⟨rfl, rfl, rfl, rfl, rfl⟩
    have htrace := hn hinner
    have hclose : r₁.Shifts reader.pos r.stop
        { r with reader, nodes := r₁.nodes, recovered := r₁.recovered } :=
      ⟨htrace.path.symm, rfl, rfl, rfl, hreads.shifts.stop⟩
    exact .unpacked rfl hs ⟨rfl, rfl⟩ ⟨rfl, hspans⟩ hadvances.lower hadvances.upper hopen htrace hclose

/-- One occurrence of a field is a leaf, a struct or a stream. -/
theorem trace_single {f : Field} {siblings : Option (List Node)} {n : Node} {r r' : Run}
    (h : single d (d.struct rounds levels) f siblings r = .done n r') : Trace d (.occurrence f) r [n] r' := by
  obtain ⟨-, s, hheld, h₁⟩ | ⟨-, h₁⟩ | ⟨-, hreads, hcovers, hnode⟩ := single_eq_done h
  · obtain ⟨name, hs⟩ := defines_of_held hheld
    exact trace_structField hn hs h₁
  · exact trace_compressedField hn h₁
  · have hleaf : n.IsLeaf := ⟨by rw [hnode], Shows.isBranch_eq hcovers, Shows.isFailed_eq hcovers⟩
    have hspans : n.Spans r.pos r'.pos := ⟨by rw [hnode], by rw [hnode]⟩
    exact .leaf (by rw [hnode]) hleaf hspans hreads.reader.lower hreads.reader.upper hreads.shifts

/-! ### Arrays -/

/-- The elements that are left follow the one that was decoded. -/
theorem trace_element {f : Field} {i : Nat} {n : Node} {rest : List Node} {r r' r'' : Run}
    (h : element d (d.struct rounds levels) f i r = .done n r')
    (hrest : Trace d (.elements f (i + 1)) r' rest r'') :
    Trace d (.elements f i) r (n :: rest) r'' := by
  obtain ⟨m, r₁, -, hsingle, hadmits, rfl, rfl⟩ := element_eq_done h
  exact .element hadmits (trace_single hn hsingle) hrest

theorem trace_elements {f : Field} {nodes : List Node} {r r' : Run}
    (h : elements d rounds (d.struct rounds levels) f r = .done nodes r') :
    Trace d (.elements (elementField f) 0) r nodes r' :=
  elements_induction (P := fun i => Trace d (.elements (elementField f) i)) (fun _ _ => .noElement)
    (trace_element hn) h

/-! ### Fields -/

theorem trace_content {f : Field} {siblings : List Node} {n : Node} {r r' : Run}
    (h : content d rounds (d.struct rounds levels) f siblings r = .done n r') :
    Trace d (.content f) r [n] r' := by
  obtain ⟨hf, h⟩ | ⟨hf, h⟩ := content_eq_done h
  · exact .once hf (trace_single hn h)
  · obtain ⟨nodes, helements, rfl⟩ := array_eq_done h
    exact .array hf rfl rfl ⟨rfl, rfl⟩ (trace_elements hn helements)

/-- A field that is there is decoded at its place, and what goes on behind it is somewhere else only if it
seeks. -/
theorem trace_presentField {f : Field} {siblings : List Node} {n : Node} {r r' : Run}
    (h : presentField d rounds (d.struct rounds levels) f siblings r = .done n r') :
    ∃ node isValid r₁ r₂,
      n = { node with description := f.description, isPadding := f.padding, isValid } ∧
      r.Shifts r₁.pos r.stop r₁ ∧
      (f.seek = none → r₁.pos = aligned f.align r.pos ∧ r₁.pos ≤ max r.pos r.stop) ∧
      Trace d (.content f) r₁ [node] r₂ ∧ r₂.Shifts r'.pos r.stop r' ∧ (f.seek = none → r'.pos = r₂.pos) := by
  rw [presentField_eq] at h
  obtain ⟨r₁, r₂, hopen, hhere, hinner, hclose, hthere⟩ := sought_eq_done h
  obtain ⟨_, r₃, halign, h₁⟩ := bind_eq_done hinner
  obtain ⟨node, r₄, hcontent, h₂⟩ := bind_eq_done h₁
  obtain ⟨isValid, r₅, hvalid, h₃⟩ := bind_eq_done h₂
  obtain rfl := (unmoving_validity f).eq hvalid
  obtain ⟨rfl, rfl⟩ := Outcome.done.inj h₃
  obtain ⟨hshifts, hmax⟩ := align_eq_done halign
  have htrace := trace_content hn hcontent
  have hplaced := hopen.trans hshifts
  -- Only the seek can put the field somewhere else, and only going back from it can change where the next one begins.
  have hstop : r₃.stop = r.stop := hshifts.stop.trans hopen.stop
  refine ⟨node, isValid, r₃, r₅, rfl, ?_, fun hnone => ?_, htrace, ?_, fun hnone => ?_⟩
  · exact ⟨hplaced.path, hplaced.nodes, hplaced.recovered, rfl, hstop⟩
  · obtain rfl := hhere hnone
    exact ⟨hshifts.pos, hmax⟩
  · exact ⟨hclose.path, hclose.nodes, hclose.recovered, rfl, hclose.stop.trans (htrace.stop.trans hstop)⟩
  · rw [hthere hnone]

/-- What goes on behind a field goes on from where the field has led. -/
theorem trace_iteration {f : Field} {fs : List Field} {found rest : List Node} {p : Option Node × Bool}
    {r r₁ r' : Run} (hstep : iteration d rounds (d.struct rounds levels) f found r = .done p r₁)
    (hrest : Trace d (.fields (if p.2 then fs else [])) r₁ rest r') :
    Trace d (.fields (f :: fs)) r (p.1.toList ++ rest) r' := by
  obtain ⟨_, r₀, hcancelled, h⟩ := bind_eq_done hstep
  rw [d.unmoving_checkCancelled.eq hcancelled, member_apply] at h
  cases hx : field d rounds (d.struct rounds levels) f found r with
  | unfinished => rw [hx] at h; cases h
  | done o r₂ =>
      rw [hx] at h
      obtain ⟨hpresent, rfl, rfl⟩ | ⟨n, r₃, -, hfield, rfl, rfl⟩ := field_eq_done hx
      · obtain ⟨rfl, rfl⟩ := Outcome.done.inj h
        exact .absent (condition_of_isPresent hpresent) hrest
      · obtain ⟨node, isValid, r₆, r₇, rfl, hopen, hplace, htrace, hclose, hthere⟩ :=
          trace_presentField hn hfield
        obtain ⟨_, r₈, hcount, hpure⟩ := bind_eq_done h
        obtain ⟨rfl, hadmits⟩ := d.countNode_eq_done hcount
        obtain ⟨rfl, rfl⟩ := Outcome.done.inj hpure
        have hnodes : r₃.nodes + 1 = r₇.nodes + 1 := congrArg (· + 1) hclose.nodes
        refine .present ?_ hopen hplace htrace ?_ ?_ hrest
        · exact hnodes ▸ hadmits
        · exact ⟨rfl, hnodes, hclose.recovered, rfl, hclose.stop⟩
        · exact hthere
  | failed e r₂ =>
      rw [hx] at h
      obtain ⟨hmode, he, hadmits, rfl, hr₁⟩ := d.settled_error_eq_done h
      -- what the field had left open is closed before its node is made, so the node ends in the scope of `r`
      have hreturns := ((d.balanced_field rounds levels f found).aborts hx).afterFailure f e
      have hstop : (afterFailure f r r₂ e).reader.scope.stop = r.stop := hreturns.stop
      rw [hstop] at hr₁ hrest ⊢
      have hpos : r₁.pos = (resumesAt f r.pos r.stop).getD r.pos := by rw [hr₁]; rfl
      have hreplaces : Replaces d f r (failedNode f r.pos (r₁.pos - r.pos) e) r₁ := by
        refine .mk hmode hx he ?_ ?_ ?_ ?_ hpos ?_
        · rw [hr₁]; rfl
        · rw [hr₁]
        · rw [hr₁]; exact hadmits
        · rw [hr₁]; rfl
        · rw [hr₁]; exact hstop
      rw [hpos] at hreplaces
      -- the struct goes on behind the field exactly if the schema tells how long it is
      unfold resumesAt at hrest
      cases hsize : f.staticSize? with
      | none =>
          rw [hsize] at hrest
          cases hrest with
          | noField => exact .abandoned hsize hreplaces
      | some size =>
          rw [hsize] at hrest
          exact .failed (by rw [hsize]; rfl) hreplaces hrest

theorem trace_fields {fs : List Field} {found nodes : List Node} {r r' : Run}
    (h : fields d rounds (d.struct rounds levels) fs found r = .done nodes r') :
    ∃ new, nodes = found ++ new ∧ Trace d (.fields fs) r new r' := by
  exact fields_induction (P := fun fs _ r new r' => Trace d (.fields fs) r new r') (fun _ _ => .noField)
    (trace_iteration hn) h

/-! ### Structs -/

/-- A byte order of its own changes nothing about where the fields of a struct are. -/
theorem trace_body {s : StructDef} {nodes : List Node} {r r' : Run}
    (h : body d rounds (d.struct rounds levels) s r = .done nodes r') :
    ∃ r₁ r₂, r.Shifts r.pos r.stop r₁ ∧ Trace d (.fields s.fields) r₁ nodes r₂ ∧
      r₂.Shifts r₂.pos r.stop r' := by
  cases ho : s.order with
  | none =>
      rw [body_plain _ _ _ ho] at h
      obtain ⟨new, rfl, htrace⟩ := trace_fields hn h
      exact ⟨r, r', .refl r, htrace, htrace.stop ▸ .refl r'⟩
  | some order =>
      rw [body_ordered _ _ _ ho] at h
      have hbalanced : (fields d rounds (d.struct rounds levels) s.fields []).Balanced false :=
        d.balanced_fields rounds (d.balanced_levels rounds levels) [] nofun
      obtain ⟨r₁, r₂, hopen, hfields, hclose⟩ := overlaid_eq_done hbalanced h
      obtain ⟨new, rfl, htrace⟩ := trace_fields hn hfields
      exact ⟨r₁, r₂, hopen, htrace, hclose⟩

/-- A struct is traced from its first field to behind its padding. -/
theorem trace_structWith {s : StructDef} {name : String} {n : Node} {r r' : Run}
    (h : structWith d rounds (d.struct rounds levels) s name r = .done n r') :
    Trace d (.struct s name) r [n] r' := by
  obtain ⟨children, r₁, r₂, r₃, hdescend, hbody, halign, rfl, rfl⟩ := structWith_eq_done h
  have hdeeper : r.Shifts r.pos r.stop r₁ := by
    obtain ⟨rfl, -⟩ := d.descend_eq_done hdescend
    exact ⟨rfl, rfl, rfl, rfl, rfl⟩
  -- a struct that is a string table is entered into the reader, which stays where it is
  have htable : r₂.Shifts r₂.pos r₂.stop (tabled s r₁.pos r₂) := by
    unfold tabled
    split
    · exact ⟨rfl, rfl, rfl, rfl, rfl⟩
    · exact .refl r₂
  obtain ⟨inner, after, hopen, htrace, hclose⟩ := trace_body hn hbody
  obtain ⟨hshifts, hmax⟩ := align_eq_done halign
  have hpos : (tabled s r₁.pos r₂).pos = after.pos := htable.pos.trans hclose.pos
  have hstop : (tabled s r₁.pos r₂).stop = r.stop := htable.stop.trans (hclose.stop.trans hdeeper.stop)
  rw [hpos, hstop] at hshifts hmax
  rw [hdeeper.pos, hdeeper.stop] at hopen
  have hpadded := (hclose.trans htable).trans hshifts
  refine .struct rfl rfl ⟨hdeeper.pos, ?_⟩ (hdeeper.trans hopen) htrace ?_ hmax
  · exact congrArg (r₃.pos - ·) hdeeper.pos
  · exact ⟨hpadded.path, hpadded.nodes, hpadded.recovered, hpadded.pos, hpadded.stop⟩

end Sound

variable (d) in
/-- A struct that is decoded has a trace. -/
theorem trace_struct {rounds levels : Nat} {s : StructDef} {name : String} {n : Node} {r r' : Run}
    (h : d.struct rounds levels s name r = .done n r') : Trace d (.struct s name) r [n] r' := by
  induction levels generalizing s name r n r' with
  | zero => cases h
  | succ levels ih => exact trace_structWith ih h

/-- An answer has a trace, of the root struct in the whole of the buffer. -/
theorem Answers.trace {data : Buffer} {t : Decoded} (h : d.Answers data (.ok t)) :
    ∃ s r, d.schema.structs.get? d.schema.root = some s ∧
      Trace d (.struct s d.schema.name) (.start (.ofBuffer data d.schema.order)) [t.root] r ∧
      t.recovered = r.recovered.reverse := by
  obtain ⟨rounds, r, hr, hrecovered⟩ := d.answers_ok_iff.mp h
  obtain ⟨s, r₁, hdef, hstruct⟩ := bind_eq_done hr
  obtain ⟨hs, rfl⟩ := structDef_eq_done hdef
  exact ⟨s, r, hs, d.trace_struct hstruct, hrecovered⟩

end Decoder

end BinaryFormat
