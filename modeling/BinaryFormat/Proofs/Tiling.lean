import BinaryFormat.Proofs.Modes
import BinaryFormat.Proofs.Trace

/-!
# Where the bytes go

In a schema without seeks the nodes of a decode lie one behind the other, each beginning where the one before
it ends, and no byte is lost or claimed twice. Gaps are made on purpose only: a field or a struct may be moved up
to a multiple, and a field may declare more bytes than the struct in it takes. A field that failed takes part
with the bytes that were passed over in its place.

What this means for a tree is said without a decoder, by the schema and the offsets alone. Where a node must begin
is handed down, and where it ended is handed back, so that nothing is left open between two nodes. Below a
compressed node the offsets begin anew.
-/

namespace BinaryFormat

open Schema (Field StructDef)

namespace Node

/-- The nodes follow each other from one offset to another without a gap. -/
def Adjacent : Nat → List Node → Nat → Prop
  | start, [], stop => start = stop
  | start, n :: rest, stop => n.offset = start ∧ Adjacent (start + n.size) rest stop

/-- The nodes follow each other between two offsets. -/
def Ordered : Nat → List Node → Nat → Prop
  | start, [], stop => start ≤ stop
  | start, n :: rest, stop => start ≤ n.offset ∧ Ordered (n.offset + n.size) rest stop

/-- What lies below the node lies in its range, in order and without overlaps, and elements of an array leave no
gap in it. -/
structure Tidy (n : Node) : Prop where
  inside : ∀ c ∈ n.children, n.offset ≤ c.offset ∧ c.offset + c.size ≤ n.offset + n.size
  disjoint : n.children.Pairwise fun a b => a.offset + a.size ≤ b.offset
  adjacent : n.content = .array → Adjacent n.offset n.children (n.offset + n.size)

/-- Nodes without a gap between them are in order. -/
theorem Adjacent.ordered {start stop : Nat} {nodes : List Node} (h : Adjacent start nodes stop) :
    Ordered start nodes stop := by
  induction nodes generalizing start with
  | nil => exact Nat.le_of_eq h
  | cons n rest ih =>
      obtain ⟨hoffset, hrest⟩ := h
      exact ⟨Nat.le_of_eq hoffset.symm, ih (hoffset ▸ hrest)⟩

theorem Ordered.le {start stop : Nat} {nodes : List Node} (h : Ordered start nodes stop) :
    start ≤ stop := by
  induction nodes generalizing start with
  | nil => exact h
  | cons n rest ih =>
      obtain ⟨hoffset, hrest⟩ := h
      have := ih hrest
      omega

theorem Ordered.mono {start stop stop' : Nat} {nodes : List Node} (h : Ordered start nodes stop)
    (hle : stop ≤ stop') : Ordered start nodes stop' := by
  induction nodes generalizing start with
  | nil => exact Nat.le_trans h hle
  | cons n rest ih => exact ⟨h.1, ih h.2⟩

/-- Nodes in order between two offsets lie between them. -/
theorem Ordered.mem {start stop : Nat} {nodes : List Node} (h : Ordered start nodes stop) :
    ∀ c ∈ nodes, start ≤ c.offset ∧ c.offset + c.size ≤ stop := by
  induction nodes generalizing start with
  | nil => nofun
  | cons n rest ih =>
      obtain ⟨hoffset, hrest⟩ := h
      intro c hc
      rcases List.mem_cons.mp hc with rfl | hc
      · exact ⟨hoffset, hrest.le⟩
      · obtain ⟨hlower, hupper⟩ := ih hrest c hc
        omega

/-- Nodes in order do not overlap, also those that are not neighbours. -/
theorem Ordered.pairwise {start stop : Nat} {nodes : List Node} (h : Ordered start nodes stop) :
    nodes.Pairwise fun a b => a.offset + a.size ≤ b.offset := by
  induction nodes generalizing start with
  | nil => exact .nil
  | cons n rest ih =>
      obtain ⟨-, hrest⟩ := h
      exact .cons (fun c hc => (hrest.mem c hc).1) (ih hrest)

/-- Nodes in order in the range of a node are what can lie below it. -/
theorem Ordered.tidy {n : Node} (h : Ordered n.offset n.children (n.offset + n.size))
    (ha : n.content = .array → Adjacent n.offset n.children (n.offset + n.size)) : n.Tidy :=
  ⟨h.mem, h.pairwise, ha⟩

theorem isBranch_of_isFailed {n : Node} (h : n.isFailed = true) : n.isBranch = false := by
  unfold isFailed at h
  unfold isBranch
  split at h
  · rename_i hc
    rw [hc]
  · cases h

/-- Every struct and every array in the tree is tidy. -/
def Tidied (n : Node) : Prop := ∀ m, n.Contains m → m.isBranch = true → m.Tidy

namespace Tidied

variable {n : Node}

theorem tidy (h : n.Tidied) (hb : n.isBranch = true) : n.Tidy := Throughout.here h hb

theorem below (h : n.Tidied) : ∀ c ∈ n.children, c.Tidied := Throughout.below h

theorem of_tidy (h : n.isBranch = true → n.Tidy) (hbelow : ∀ c ∈ n.children, c.Tidied) : n.Tidied :=
  Throughout.intro h hbelow

theorem of_leaf (hb : n.isBranch = false) (hc : n.children = []) : n.Tidied :=
  of_tidy (fun h => absurd (hb.symm.trans h) (by decide)) (hc ▸ nofun)

/-- What is said of a node besides its range and what lies below it is no matter. -/
theorem relabel (h : n.Tidied) (name : String) (description : Option String) (isPadding : Bool)
    (isValid : Option Bool) : Tidied { n with name, description, isPadding, isValid } := by
  refine of_tidy (fun hb => ?_) h.below
  obtain ⟨hinside, hdisjoint, hadjacent⟩ := h.tidy hb
  exact ⟨hinside, hdisjoint, hadjacent⟩

end Tidied

end Node

namespace Decoder

open Node (Adjacent Ordered Tidy)

/-! ## Tilings -/

/-- The nodes of a part of a decode take the bytes from one offset to another. -/
inductive Tiles (schema : Schema) : Task → Nat → List Node → Nat → Prop where
  | leaf {f : Field} {n : Node} {start : Nat} :
      n.offset = start → n.IsLeaf → Tiles schema (.occurrence f) start [n] (start + n.size)
  | nested {f : Field} {target : String} {s : StructDef} {n : Node} {start stop : Nat} :
      f.size = none → schema.structs.get? target = some s → Tiles schema (.struct s f.name) start [n] stop →
      Tiles schema (.occurrence f) start [n] stop
  /-- The field takes what it declares, though the struct in it may end before. -/
  | sized {f : Field} {target : String} {s : StructDef} {size : Nat} {n : Node} {start stop : Nat} :
      f.Declares size → schema.structs.get? target = some s →
      Tiles schema (.struct s f.name) start [n] stop → stop ≤ start + size →
      Tiles schema (.occurrence f) start [{ n with offset := start, size }] (start + size)
  /-- The struct in a stream begins at the first byte of a buffer of its own. -/
  | unpacked {f : Field} {target : String} {s : StructDef} {n inner : Node} {start stop : Nat} :
      n.offset = start → schema.structs.get? target = some s → n.Holds inner →
      Tiles schema (.struct s f.name) 0 [inner] stop →
      Tiles schema (.occurrence f) start [n] (start + n.size)
  | once {f : Field} {n : Node} {start stop : Nat} :
      f.repetition = .once → Tiles schema (.occurrence f) start [n] stop →
      Tiles schema (.content f) start [n] stop
  | array {f : Field} {n : Node} {start stop : Nat} :
      f.repetition ≠ .once → n.content = .array → n.offset = start → start + n.size = stop →
      Tiles schema (.elements (elementField f) 0) start n.children stop →
      Tiles schema (.content f) start [n] stop
  | noElement {f : Field} {i start : Nat} : Tiles schema (.elements f i) start [] start
  | element {f : Field} {i : Nat} {n : Node} {rest : List Node} {start middle stop : Nat} :
      Tiles schema (.occurrence f) start [n] middle → Tiles schema (.elements f (i + 1)) middle rest stop →
      Tiles schema (.elements f i) start ({ n with name := elementName i } :: rest) stop
  | noField {start : Nat} : Tiles schema (.fields []) start [] start
  | absent {f : Field} {fs : List Field} {nodes : List Node} {start stop : Nat} :
      f.condition.isSome = true → Tiles schema (.fields fs) start nodes stop →
      Tiles schema (.fields (f :: fs)) start nodes stop
  /-- Only the padding to its multiple stands between a field that did not fail and what is before it. -/
  | present {f : Field} {fs : List Field} {n : Node} {rest : List Node} {isValid : Option Bool}
      {start middle stop : Nat} :
      Tiles schema (.content f) (aligned f.align start) [n] middle → Tiles schema (.fields fs) middle rest stop →
      Tiles schema (.fields (f :: fs)) start
        ({ n with description := f.description, isPadding := f.padding, isValid } :: rest) stop
  /-- A field that failed takes no more than its length, and no padding. -/
  | failed {f : Field} {fs : List Field} {size : Nat} {n : Node} {rest : List Node} {start stop : Nat} :
      n.isFailed = true → n.children = [] → n.offset = start → f.staticSize? = some size → n.size ≤ size →
      Tiles schema (.fields fs) (start + n.size) rest stop →
      Tiles schema (.fields (f :: fs)) start (n :: rest) stop
  | abandoned {f : Field} {fs : List Field} {n : Node} {start : Nat} :
      n.isFailed = true → n.children = [] → n.offset = start → f.staticSize? = none → n.size = 0 →
      Tiles schema (.fields (f :: fs)) start [n] start
  /-- Only the padding to its multiple stands between the last field of a struct and its end. -/
  | struct {s : StructDef} {name : String} {n : Node} {start stop : Nat} :
      n.content = .struct → n.offset = start → start + n.size = aligned s.align stop →
      Tiles schema (.fields s.fields) start n.children stop →
      Tiles schema (.struct s name) start [n] (aligned s.align stop)

/-- How the nodes of a part lie: with gaps only between the fields of a struct. -/
def Task.Places : Task → Nat → List Node → Nat → Prop
  | .fields _ => Ordered
  | _ => Adjacent

namespace Tiles

variable {schema : Schema} {t : Task} {start stop : Nat} {nodes : List Node}

/-- A part that tiles a stretch of bytes has its nodes in order in it. -/
theorem places (h : Tiles schema t start nodes stop) : t.Places start nodes stop := by
  induction h with
  | leaf ho _ => exact ⟨ho, rfl⟩
  | nested _ _ _ ih => exact ih
  | sized _ _ _ _ _ => exact ⟨rfl, rfl⟩
  | unpacked ho _ _ _ _ => exact ⟨ho, rfl⟩
  | once _ _ ih => exact ih
  | array _ _ ho hstop _ _ => exact ⟨ho, hstop⟩
  | noElement => exact rfl
  | element _ _ ih ih' =>
      obtain ⟨ho, hstop⟩ := ih
      exact ⟨ho, hstop ▸ ih'⟩
  | noField => exact Nat.le_refl _
  | absent _ _ ih => exact ih
  | @present f _ _ _ _ start _ _ _ _ ih ih' =>
      obtain ⟨ho, hstop⟩ := ih
      refine ⟨?_, ?_⟩
      · exact ho ▸ le_aligned f.align start
      · exact ho.symm ▸ hstop ▸ ih'
  | failed _ _ ho _ _ _ ih =>
      refine ⟨Nat.le_of_eq ho.symm, ?_⟩
      exact ho.symm ▸ ih
  | abandoned _ _ ho _ hsize => exact ⟨Nat.le_of_eq ho.symm, by rw [ho, hsize]; exact Nat.le_refl _⟩
  | struct _ ho hstop _ _ => exact ⟨ho, hstop⟩

/-- What lies below a node of a struct. -/
theorem content_eq {s : StructDef} {name : String} {n : Node} (h : Tiles schema (.struct s name) start [n] stop) :
    n.content = .struct := by
  cases h with
  | struct hc _ _ _ => exact hc

/-- Every struct and every array in the tiled nodes is tidy. -/
theorem tidied (h : Tiles schema t start nodes stop) : ∀ n ∈ nodes, n.Tidied := by
  induction h with
  | leaf _ hleaf => exact List.forall_mem_singleton.mpr (.of_leaf hleaf.isBranch hleaf.children)
  | nested _ _ _ ih => exact ih
  | @sized f target s size n start stop _ _ hstruct hle ih =>
      have hn := List.forall_mem_singleton.mp ih
      obtain ⟨ho, hstop⟩ : n.offset = start ∧ start + n.size = stop := hstruct.places
      refine List.forall_mem_singleton.mpr (.of_tidy (fun hb => ?_) hn.below)
      have htidy := hn.tidy hb
      refine ⟨fun c hc => ?_, htidy.disjoint, fun ha => ?_⟩
      · -- the struct ends in the scope that its field declares
        obtain ⟨hlower, hupper⟩ := htidy.inside c hc
        show start ≤ c.offset ∧ c.offset + c.size ≤ start + size
        omega
      · exact nomatch hstruct.content_eq.symm.trans ha
  | unpacked _ _ hholds _ ih =>
      refine List.forall_mem_singleton.mpr (.of_tidy (fun hb => ?_) ?_)
      · exact absurd (hholds.isBranch_eq.symm.trans hb) (by decide)
      · rw [hholds.children]
        exact ih
  | once _ _ ih => exact ih
  | array _ hc ho hstop helements ih =>
      have hplaces : Adjacent _ _ _ := helements.places
      refine List.forall_mem_singleton.mpr (.of_tidy (fun _ => ?_) ih)
      rw [← hstop, ← ho] at hplaces
      exact hplaces.ordered.tidy fun _ => hplaces
  | noElement => exact nofun
  | element _ _ ih ih' =>
      have hn := List.forall_mem_singleton.mp ih
      exact List.forall_mem_cons.mpr ⟨hn.relabel _ _ _ _, ih'⟩
  | noField => exact nofun
  | absent _ _ ih => exact ih
  | present _ _ ih ih' =>
      have hn := List.forall_mem_singleton.mp ih
      exact List.forall_mem_cons.mpr ⟨hn.relabel _ _ _ _, ih'⟩
  | failed hf hc _ _ _ _ ih =>
      exact List.forall_mem_cons.mpr ⟨.of_leaf (Node.isBranch_of_isFailed hf) hc, ih⟩
  | abandoned hf hc _ _ _ =>
      exact List.forall_mem_singleton.mpr (.of_leaf (Node.isBranch_of_isFailed hf) hc)
  | @struct s name n start stop hc ho hstop hfields ih =>
      have hplaces : Ordered start n.children stop := hfields.places
      have hinside := hplaces.mono (le_aligned s.align stop)
      refine List.forall_mem_singleton.mpr (.of_tidy (fun _ => ?_) ih)
      rw [← hstop, ← ho] at hinside
      exact hinside.tidy fun ha => nomatch hc.symm.trans ha

end Tiles

/-! ## Decodes without seeks -/

/-- Nothing among the fields of the part seeks. -/
def Task.Settled : Task → Prop
  | .struct s _ => ∀ f ∈ s.fields, f.seek = none
  | .fields fs => ∀ f ∈ fs, f.seek = none
  | _ => True

variable {d : Decoder}

theorem settled_of_get? (hseek : ∀ f, d.schema.HasField f → f.seek = none) {target name : String}
    {s : StructDef} (hs : d.schema.structs.get? target = some s) : (Task.struct s name).Settled :=
  fun f hf => hseek f ⟨s, ⟨target, hs⟩, hf⟩

/-- The node in the place of a field that failed begins where the field did, and decoding goes on where it
ends. -/
theorem Replaces.tiles {f : Field} {r r' : Run} {n : Node} (h : Replaces d f r n r') (hr : r.pos ≤ r.stop) :
    n.isFailed = true ∧ n.children = [] ∧ n.offset = r.pos ∧ r'.pos = r.pos + n.size ∧ r'.pos ≤ r.stop ∧
      (∀ size, f.staticSize? = some size → n.size ≤ size) ∧ (f.staticSize? = none → n.size = 0) := by
  cases h with
  | @mk _ _ _ e _ _ _ _ _ _ _ _ _ hpos _ =>
      -- Decoding resumes between where the field began and where its scope ends, and at the known size if that fits.
      have hlower := le_resumesAt f hr
      have hupper := resumesAt_le f r.pos r.stop
      rw [← hpos] at hlower hupper
      refine ⟨rfl, rfl, rfl, ?_, ?_, fun size hsize => ?_, fun hnone => ?_⟩
      · show r'.pos = r.pos + (r'.pos - r.pos)
        omega
      · omega
      · have hresume : r'.pos = min (r.pos + size) r.stop := by
          rw [hpos, resumesAt, hsize]
          rfl
        show r'.pos - r.pos ≤ size
        omega
      · have hresume : r'.pos = r.pos := by
          rw [hpos, resumesAt, hnone]
          rfl
        show r'.pos - r.pos = 0
        omega

/-- In a schema without seeks every part of a decode tiles the bytes that it goes through, and stays in its
scope. -/
theorem Trace.tiles (hseek : ∀ f, d.schema.HasField f → f.seek = none) {t : Task} {r r' : Run}
    {nodes : List Node} (h : Trace d t r nodes r') (ht : t.Settled) (hr : r.pos ≤ r.stop) :
    Tiles d.schema t r.pos nodes r'.pos ∧ r.pos ≤ r'.pos ∧ r'.pos ≤ r.stop := by
  induction h with
  | @leaf f n r r' _ hleaf hspans hlower hupper hclose =>
      have hsize : r'.pos = r.pos + n.size := by
        have := hspans.size
        omega
      refine ⟨?_, hlower, by omega⟩
      rw [hsize]
      exact .leaf hspans.offset hleaf
  | nested hf hs _ ih =>
      obtain ⟨htiles, hle⟩ := ih (settled_of_get? hseek hs) hr
      exact ⟨.nested hf hs htiles, hle⟩
  | @sized f target s size n r r₁ r₂ r' hf hs hfits hopen _ hclose ih =>
      have hstart := hopen.pos
      have hstop := hopen.stop
      obtain ⟨htiles, -, hupper⟩ := ih (settled_of_get? hseek hs) (by omega)
      have hend := hclose.pos
      refine ⟨?_, by omega, by omega⟩
      rw [hend]
      rw [hstart] at htiles
      exact .sized hf hs htiles (by omega)
  | @unpacked f target s stop n inner r r₁ r₂ r' _ hs hholds hspans hlower hupper hopen _ _ ih =>
      have hsize : r'.pos = r.pos + n.size := by
        have := hspans.size
        omega
      have hstart := hopen.pos
      obtain ⟨htiles, -⟩ := ih (settled_of_get? hseek hs) (by omega)
      refine ⟨?_, hlower, by omega⟩
      rw [hsize]
      rw [hstart] at htiles
      exact .unpacked hspans.offset hs hholds htiles
  | once hf _ ih =>
      obtain ⟨htiles, hle⟩ := ih trivial hr
      exact ⟨.once hf htiles, hle⟩
  | array hf _ hc hspans _ ih =>
      obtain ⟨htiles, hlower, hupper⟩ := ih trivial hr
      refine ⟨.array hf hc hspans.offset ?_ htiles, hlower, hupper⟩
      have := hspans.size
      omega
  | noElement => exact ⟨.noElement, Nat.le_refl _, hr⟩
  | @element f i n rest r r₁ r' _ hfirst _ ih ih' =>
      obtain ⟨htiles, hlower, hupper⟩ := ih trivial hr
      have hstop : r₁.stop = r.stop := hfirst.stop
      obtain ⟨htiles', hlower', hupper'⟩ := ih' trivial (hstop.symm ▸ hupper)
      refine ⟨.element htiles htiles', Nat.le_trans hlower hlower', hstop ▸ hupper'⟩
  | noField => exact ⟨.noField, Nat.le_refl _, hr⟩
  | absent hf _ ih =>
      obtain ⟨htiles, hle⟩ := ih (fun g hg => ht g (.tail _ hg)) hr
      exact ⟨.absent hf htiles, hle⟩
  | @present f fs n rest isValid r r₁ r₂ r₃ r' _ hopen hplace _ hclose hthere _ ih ih' =>
      -- this is where the fields may not seek: the field is at its multiple, and the next one is right behind it
      obtain ⟨hstart, hmax⟩ := hplace (ht f (.head _))
      have hnext := hthere (ht f (.head _))
      have hstop := hopen.stop
      have hstop' := hclose.stop
      have halign := le_aligned f.align r.pos
      obtain ⟨htiles, hlower, hupper⟩ := ih trivial (by omega)
      obtain ⟨htiles', hlower', hupper'⟩ := ih' (fun g hg => ht g (.tail _ hg)) (by omega)
      rw [hstart] at htiles
      rw [hnext] at htiles'
      exact ⟨.present htiles htiles', by omega, by omega⟩
  | @failed f fs n rest r r₁ r' hsize hrep _ ih =>
      obtain ⟨hf, hc, ho, hpos, hle, hlength, -⟩ := hrep.tiles hr
      have hstop : r₁.stop = r.stop := hrep.stop
      obtain ⟨htiles, hlower, hupper⟩ := ih (fun g hg => ht g (.tail _ hg)) (by omega)
      obtain ⟨size, hsome⟩ := Option.isSome_iff_exists.mp hsize
      rw [hpos] at htiles
      exact ⟨.failed hf hc ho hsome (hlength size hsome) htiles, by omega, by omega⟩
  | @abandoned f fs n r r' hnone hrep =>
      obtain ⟨hf, hc, ho, hpos, hle, -, hempty⟩ := hrep.tiles hr
      have hzero := hempty hnone
      rw [hzero, Nat.add_zero] at hpos
      rw [hpos]
      exact ⟨.abandoned hf hc ho hnone hzero, Nat.le_refl _, hr⟩
  | @struct s name n r r₁ r₂ r' _ hc hspans hopen _ hclose hmax ih =>
      have hstart := hopen.pos
      have hstop := hopen.stop
      have hend := hclose.pos
      have halign := le_aligned s.align r₂.pos
      obtain ⟨htiles, hlower, hupper⟩ := ih ht (by omega)
      have hsize : r.pos + n.size = aligned s.align r₂.pos := by
        have := hspans.size
        omega
      rw [hstart] at htiles
      rw [hend]
      exact ⟨.struct hc hspans.offset hsize htiles, by omega, by omega⟩

/-- In a schema without seeks the answer tiles the buffer from its start on. So what lies below any struct or
array of the tree lies in its range, in order and without overlaps, and the elements of an array fill it. -/
theorem answer_tiled {d : Decoder} (hseek : ∀ f, d.schema.HasField f → f.seek = none) {data : Buffer}
    {t : Decoded} (h : d.Answers data (.ok t)) :
    (∃ s stop, d.schema.structs.get? d.schema.root = some s ∧ stop ≤ data.size ∧
      Tiles d.schema (.struct s d.schema.name) 0 [t.root] stop) ∧
    ∀ n, t.root.Contains n → n.isBranch = true → n.Tidy := by
  obtain ⟨s, r, hs, htrace, -⟩ := h.trace
  obtain ⟨htiles, -, hstop⟩ := htrace.tiles hseek (settled_of_get? hseek hs) (Nat.zero_le _)
  exact ⟨⟨s, r.pos, hs, hstop, htiles⟩, htiles.tidied _ (.head _)⟩

/-- A byte, a number at a multiple of four, a box filled with bytes and one with room left, a stream, and a number
that is cut off. -/
def mosaic : Decoder where
  schema := {
    name := "mosaic"
    structs := [
      ("all", { name := "all", fields := [
        { name := "a", type := .u8 },
        { name := "b", type := .u16, align := some 4 },
        { name := "full", type := .struct, size := some (.fixed 3), structRef := some "many" },
        { name := "half", type := .struct, size := some (.fixed 2), structRef := some "one" },
        { name := "stream", type := .compressed, size := some (.fixed 1), compression := some "none"
          structRef := some "one" },
        { name := "cut", type := .u32 }] }),
      ("many", { name := "many", fields := [{ name := "bytes", type := .u8, repetition := .untilEnd }] }),
      ("one", { name := "one", fields := [{ name := "byte", type := .u8 }] })]
    root := "all" }
  options := { mode := .recover }

/-- No field of the mosaic goes elsewhere. -/
theorem mosaic_seek : ∀ f, mosaic.schema.HasField f → f.seek = none := by
  rintro f ⟨s, ⟨name, hs⟩, hf⟩
  have hmem : ∀ e ∈ mosaic.schema.structs, ∀ f ∈ e.2.fields, f.seek.isNone = true := by decide
  exact Option.isNone_iff_eq_none.mp (hmem _ (Table.mem_of_get? hs) f hf)

/-- Three bytes of padding and one byte of a box belong to no leaf, and the last byte belongs to the number that
is cut off. -/
theorem mosaic_tiled : ∃ t, mosaic.Answers #[1, 0, 0, 0, 2, 0, 3, 4, 5, 6, 0, 7, 8] (.ok t) ∧
    t.root.children.map (fun n => (n.offset, n.size)) = [(0, 1), (4, 2), (6, 3), (9, 2), (11, 1), (12, 1)] ∧
    (∃ s stop, mosaic.schema.structs.get? mosaic.schema.root = some s ∧ stop ≤ 13 ∧
      Tiles mosaic.schema (.struct s mosaic.schema.name) 0 [t.root] stop) ∧
    ∀ n, t.root.Contains n → n.isBranch = true → n.Tidy := by
  obtain ⟨t, ht, hchildren⟩ : ∃ t, mosaic.Answers #[1, 0, 0, 0, 2, 0, 3, 4, 5, 6, 0, 7, 8] (.ok t) ∧
      t.root.children.map (fun n => (n.offset, n.size)) =
        [(0, 1), (4, 2), (6, 3), (9, 2), (11, 1), (12, 1)] := by
    refine mosaic.exists_answer_of_decode? 3 ?_
    decide +kernel
  exact ⟨t, ht, hchildren, answer_tiled mosaic_seek ht⟩

end Decoder

end BinaryFormat
