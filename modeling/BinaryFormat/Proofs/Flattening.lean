import BinaryFormat.Proofs.Recovery
import BinaryFormat.Proofs.Simulation

/-!
# Byte orders that say nothing new

A struct that sets the byte order opens an overlay, and what is bound in an overlay moves outwards when it is
closed. Where the byte order is the one of the schema, nothing of this can be noticed: a decode does the same if
the struct sets none.

The two runs have stacks of different shapes. On one side there are overlays, on the other side what they bind is
bound right away in the scope around them. So a scope on the plain side stands for a scope on the other side
together with all the overlays directly on top of it, and a name is looked up in the overlays first.
-/

namespace BinaryFormat

open Schema (Field StructDef)
open Decoding

/-! ## Stacks with overlays, and without -/

/-- A stack of scopes, over the bindings at the bottom, and the same stack without its overlays. The index says
of each scope of the first stack whether it is an overlay, innermost first. What overlays further in bind is
pending: it belongs to the next scope that is none. -/
inductive Flat (order : ByteOrder) (size : Nat) : List Bool → (String → Option Value) →
    List Scope → Table Value → List Scope → Table Value → Prop where
  | root {pending : String → Option Value} {base base' : Table Value} :
      (∀ x, base'.get? x = (pending x).or (base.get? x)) → Flat order size [] pending [] base [] base'
  | bounded {shape : List Bool} {pending : String → Option Value} {s s' : Scope} {rest rest' : List Scope}
      {base base' : Table Value} :
      s.isOverlay = false → s'.isOverlay = false → s.order = none → s'.order = none → s'.stop = s.stop →
      (∀ x, s'.bindings.get? x = (pending x).or (s.bindings.get? x)) →
      Flat order size shape (fun _ => none) rest base rest' base' →
      Flat order size (false :: shape) pending (s :: rest) base (s' :: rest') base'
  | overlay {shape : List Bool} {pending : String → Option Value} {s : Scope} {rest scopes' : List Scope}
      {base base' : Table Value} :
      s.isOverlay = true → s.order = some order → s.stop = (rest.head?.map Scope.stop).getD size →
      Flat order size shape (fun x => (pending x).or (s.bindings.get? x)) rest base scopes' base' →
      Flat order size (true :: shape) pending (s :: rest) base scopes' base'

namespace Flat

variable {order : ByteOrder} {size : Nat} {shape : List Bool} {pending : String → Option Value}
  {scopes scopes' : List Scope} {base base' : Table Value}

/-- The flat stack has as many scopes as the other one has that are no overlays. -/
theorem length (h : Flat order size shape pending scopes base scopes' base') :
    scopes.length = shape.length ∧ scopes'.length = shape.count false := by
  induction h with
  | root _ => exact ⟨rfl, rfl⟩
  | bounded _ _ _ _ _ _ _ ih =>
      rw [List.length_cons, List.length_cons, List.length_cons, List.count_cons_self, ih.1, ih.2]
      exact ⟨rfl, rfl⟩
  | overlay _ _ _ _ ih =>
      rw [List.length_cons, List.length_cons, List.count_cons_of_ne (by decide), ih.1, ih.2]
      exact ⟨rfl, rfl⟩

/-- Both stacks end where they did: an overlay ends where the scope below it does. -/
theorem stop_eq (h : Flat order size shape pending scopes base scopes' base') :
    (scopes'.head?.map Scope.stop).getD size = (scopes.head?.map Scope.stop).getD size := by
  induction h with
  | root _ => rfl
  | bounded _ _ _ _ hstop => exact hstop
  | overlay _ _ hstop _ ih => exact ih.trans hstop.symm

/-- An overlay only says again what the byte order is. -/
theorem findSome?_order (h : Flat order size shape pending scopes base scopes' base') :
    scopes'.findSome? Scope.order = none ∧
      (scopes.findSome? Scope.order = none ∨ scopes.findSome? Scope.order = some order) := by
  induction h with
  | root _ => exact ⟨rfl, Or.inl rfl⟩
  | bounded _ _ ho ho' _ _ _ ih =>
      rw [List.findSome?_cons, List.findSome?_cons, ho, ho']
      exact ih
  | overlay _ ho _ _ ih =>
      refine ⟨ih.1, Or.inr ?_⟩
      rw [List.findSome?_cons, ho]

/-- A name has the same value in both stacks, but for what is pending. -/
theorem get?_eq (h : Flat order size shape pending scopes base scopes' base') (x : String) :
    (scopes'.findSome? fun s => s.bindings.get? x).or (base'.get? x) =
      (pending x).or ((scopes.findSome? fun s => s.bindings.get? x).or (base.get? x)) := by
  induction h with
  | root hbase => exact hbase x
  | @bounded _ pending s _ _ _ _ _ _ _ _ _ _ hbindings _ ih =>
      rw [List.findSome?_cons, List.findSome?_cons, hbindings x]
      -- The scope of the other stack binds what is pending and what this one binds, the former in front.
      cases pending x with
      | some v => rfl
      | none =>
          rw [Option.none_or, Option.none_or]
          cases s.bindings.get? x with
          | some v => rfl
          | none => exact ih
  | @overlay _ pending s _ _ _ _ _ _ _ _ ih =>
      rw [ih, List.findSome?_cons]
      dsimp only
      cases pending x with
      | some v => rfl
      | none => cases s.bindings.get? x <;> rfl

/-! ### Binding and looking up -/

theorem congr {pending' : String → Option Value} (h : Flat order size shape pending scopes base scopes' base')
    (hp : ∀ x, pending' x = pending x) : Flat order size shape pending' scopes base scopes' base' := by
  obtain rfl : pending' = pending := funext hp
  exact h

/-- The bindings of the innermost scope, or those at the bottom, are replaced. -/
def onTop (f : Table Value → Table Value) : List Scope → Table Value → List Scope × Table Value
  | [], base => ([], f base)
  | s :: rest, base => ({ s with bindings := f s.bindings } :: rest, base)

/-- What is bound in the plain stack is what becomes pending in the other one. -/
theorem pend {f : Table Value → Table Value} {more : String → Option Value}
    (hf : ∀ t x, (f t).get? x = (more x).or (t.get? x))
    (h : Flat order size shape pending scopes base scopes' base') :
    Flat order size shape (fun x => (more x).or (pending x)) scopes base
      (onTop f scopes' base').1 (onTop f scopes' base').2 := by
  induction h with
  | root hbase =>
      refine .root fun x => ?_
      dsimp only [onTop]
      rw [hf, hbase, Option.or_assoc]
  | bounded hs hs' ho ho' hstop hbindings hrest _ =>
      refine .bounded hs hs' ho ho' hstop (fun x => ?_) hrest
      dsimp only
      rw [hf, hbindings, Option.or_assoc]
  | overlay hs ho hstop _ ih =>
      exact .overlay hs ho hstop (ih.congr fun x => Option.or_assoc)

/-- What is bound in both stacks leaves nothing pending. -/
theorem bind {f : Table Value → Table Value} {more : String → Option Value}
    (hf : ∀ t x, (f t).get? x = (more x).or (t.get? x))
    (h : Flat order size shape (fun _ => none) scopes base scopes' base') :
    Flat order size shape (fun _ => none) (onTop f scopes base).1 (onTop f scopes base).2
      (onTop f scopes' base').1 (onTop f scopes' base').2 := by
  cases h with
  | root hbase =>
      refine .root fun x => ?_
      dsimp only [onTop]
      rw [hf, hf, hbase]
      rfl
  | bounded hs hs' ho ho' hstop hbindings hrest =>
      refine .bounded hs hs' ho ho' hstop (fun x => ?_) hrest
      dsimp only
      rw [hf, hf, hbindings]
      rfl
  -- On the left it is bound in the overlay, and so is pending below. On the right it is bound below.
  | overlay hs ho hstop hrest =>
      refine .overlay hs ho hstop ((hrest.pend hf).congr fun x => ?_)
      dsimp only
      rw [hf]
      rfl

/-- What is pending moves into the innermost scope. -/
theorem adopt {f : Table Value → Table Value} (hf : ∀ t x, (f t).get? x = (pending x).or (t.get? x))
    (h : Flat order size shape pending scopes base scopes' base') :
    Flat order size shape (fun _ => none) (onTop f scopes base).1 (onTop f scopes base).2 scopes' base' := by
  cases h with
  | root hbase =>
      refine .root fun x => ?_
      dsimp only [onTop]
      rw [hf, hbase]
      rfl
  | bounded hs hs' ho ho' hstop hbindings hrest =>
      refine .bounded hs hs' ho ho' hstop (fun x => ?_) hrest
      dsimp only
      rw [hf, hbindings]
      rfl
  | overlay hs ho hstop hrest =>
      refine .overlay hs ho hstop (hrest.congr fun x => ?_)
      dsimp only
      rw [hf]
      rfl

/-- Scopes that are no overlays are dropped from both stacks alike. -/
theorem drop (n : Nat) (h : Flat order size (List.replicate n false ++ shape) (fun _ => none) scopes base
    scopes' base') :
    Flat order size shape (fun _ => none) (scopes.drop n) base (scopes'.drop n) base' := by
  induction n generalizing scopes scopes' with
  | zero => exact h
  | succ n ih =>
      cases h with
      | bounded _ _ _ _ _ _ hrest => exact ih hrest

end Flat

/-! ## Readers with overlays, and without -/

/-- The reader `r'` is `r` without its overlays, none of which changes the byte order. -/
structure Reader.Flattens (default : ByteOrder) (shape : List Bool) (r r' : Reader) : Prop where
  data : r'.data = r.data
  pos : r'.pos = r.pos
  tables : r'.tables = r.tables
  order : r.order = default
  order' : r'.order = default
  flat : Flat default r.data.size shape (fun _ => none) r.scopes r.bindings r'.scopes r'.bindings

namespace Reader

theorem scope_stop_eq_head (r : Reader) : r.scope.stop = (r.scopes.head?.map Scope.stop).getD r.data.size := by
  unfold scope
  cases r.scopes <;> rfl

/-- A name is bound in the topmost scope, or below them all where there is none. -/
theorem scopes_bind (r : Reader) (name : String) (v : Value) :
    ((r.bind name v).scopes, (r.bind name v).bindings) = Flat.onTop (·.insert name v) r.scopes r.bindings := by
  unfold bind
  cases r.scopes <;> rfl

theorem scopes_adopt (r : Reader) (bindings : Table Value) :
    ((r.adopt bindings).scopes, (r.adopt bindings).bindings) =
      Flat.onTop (·.merge bindings) r.scopes r.bindings := by
  unfold adopt
  cases r.scopes <;> rfl

theorem rest_bind (r : Reader) (name : String) (v : Value) :
    r.bind name v = { r with scopes := (r.bind name v).scopes, bindings := (r.bind name v).bindings } := by
  unfold bind
  cases r.scopes <;> rfl

theorem rest_adopt (r : Reader) (bindings : Table Value) :
    r.adopt bindings =
      { r with scopes := (r.adopt bindings).scopes, bindings := (r.adopt bindings).bindings } := by
  unfold adopt
  cases r.scopes <;> rfl

namespace Flattens

variable {default : ByteOrder} {shape : List Bool} {r r' : Reader}

theorem stop (h : r.Flattens default shape r') : r'.scope.stop = r.scope.stop := by
  rw [scope_stop_eq_head, scope_stop_eq_head, h.data]
  exact h.flat.stop_eq

/-- The byte order is the same: what an overlay sets is the default already. -/
theorem byteOrder (h : r.Flattens default shape r') : r'.byteOrder = r.byteOrder := by
  have horder : ∀ q : Reader, q.byteOrder = (q.scopes.findSome? Scope.order).getD q.order := by
    intro q
    unfold Reader.byteOrder Reader.allScopes
    rw [List.findSome?_append]
    cases q.scopes.findSome? Scope.order <;> rfl
  obtain ⟨hplain, hsome⟩ := h.flat.findSome?_order
  rw [horder, horder, hplain, h.order', h.order]
  obtain hsome | hsome := hsome
  · rw [hsome]
  · rw [hsome]
    rfl

/-- A name means the same to both readers, although it may be bound in different scopes of them. -/
theorem get? (h : r.Flattens default shape r') (x : String) : r'.get? x = r.get? x := by
  rw [Reader.get?_eq, Reader.get?_eq, h.flat.get?_eq x]
  rfl

theorem bind (h : r.Flattens default shape r') (name : String) (v : Value) :
    (r.bind name v).Flattens default shape (r'.bind name v) := by
  have hinsert : ∀ (t : Table Value) (x : String),
      (t.insert name v).get? x = (if x = name then some v else none).or (t.get? x) := by
    intro t x
    rw [Table.get?_insert]
    split <;> rfl
  have hflat := h.flat.bind hinsert
  rw [← scopes_bind, ← scopes_bind] at hflat
  rw [rest_bind r, rest_bind r']
  exact ⟨h.data, h.pos, h.tables, h.order, h.order', hflat⟩

theorem opened (h : r.Flattens default shape r') (size : Nat) :
    (r.opened size).Flattens default (false :: shape) (r'.opened size) where
  data := h.data
  pos := h.pos
  tables := h.tables
  order := h.order
  order' := h.order'
  flat := .bounded rfl rfl rfl rfl (congrArg (· + size) h.pos) (fun _ => rfl) h.flat

/-- A scope that is no overlay is closed in both readers. -/
theorem leave (h : r.Flattens default (false :: shape) r') :
    ∃ left left', r.leave = .ok left ∧ r'.leave = .ok left' ∧ left.Flattens default shape left' := by
  obtain ⟨data, pos, scopes, bindings, order, tables⟩ := r
  obtain ⟨data', pos', scopes', bindings', order', tables'⟩ := r'
  have hflat := h.flat
  dsimp only at hflat
  cases hflat with
  | bounded hs hs' _ _ hstop _ hrest =>
      unfold Reader.leave
      dsimp only
      rw [if_neg (by rw [hs]; decide), if_neg (by rw [hs']; decide)]
      exact ⟨_, _, rfl, rfl, h.data, hstop, h.tables, h.order, h.order', hrest⟩

/-- Opening an overlay changes nothing about the reader that has none. -/
theorem overlay (h : r.Flattens default shape r') :
    (r.overlay default).Flattens default (true :: shape) r' :=
  ⟨h.data, h.pos, h.tables, h.order, h.order', .overlay rfl rfl r.scope_stop_eq_head h.flat⟩

/-- Closing an overlay changes nothing about the reader that has none. -/
theorem leave_overlay (h : r.Flattens default (true :: shape) r') :
    ∃ left, r.leave = .ok left ∧ left.Flattens default shape r' := by
  obtain ⟨data, pos, scopes, bindings, order, tables⟩ := r
  have hflat := h.flat
  dsimp only at hflat
  cases hflat with
  | @overlay _ _ s rest _ _ _ hs _ _ hrest =>
      unfold Reader.leave
      dsimp only
      rw [if_pos hs]
      refine ⟨_, rfl, ?_⟩
      -- The bindings of the overlay go into the scope below, where the other reader has them already.
      have hmerge : ∀ (t : Table Value) (x : String),
          (t.merge s.bindings).get? x = (none.or (s.bindings.get? x)).or (t.get? x) :=
        fun t x => Table.get?_merge t s.bindings x
      have hadopt := hrest.adopt hmerge
      rw [← scopes_adopt ⟨data, pos, rest, bindings, order, tables⟩] at hadopt
      rw [rest_adopt]
      exact ⟨h.data, h.pos, h.tables, h.order, h.order', hadopt⟩

/-- Scopes that are no overlays, opened since there were other ones, are dropped from both readers alike. -/
theorem unwind {q q' : Reader} {n : Nat} (h : r.Flattens default shape r')
    (hq : q.Flattens default (List.replicate n false ++ shape) q') :
    (q.unwind r.scopes.length).Flattens default shape (q'.unwind r'.scopes.length) := by
  have hlength : q.scopes.length - r.scopes.length = n := by
    rw [hq.flat.length.1, h.flat.length.1, List.length_append, List.length_replicate, Nat.add_sub_cancel]
  have hlength' : q'.scopes.length - r'.scopes.length = n := by
    rw [hq.flat.length.2, h.flat.length.2, List.count_append, List.count_replicate_self, Nat.add_sub_cancel]
  unfold Reader.unwind
  rw [hlength, hlength']
  exact ⟨hq.data, hq.pos, hq.tables, hq.order, hq.order', hq.flat.drop n⟩

end Flattens

end Reader

/-! ## Decoders with overlays, and without -/

namespace Decoder

variable (d : Decoder)

/-- The likeness of a reader and the same reader without its overlays. In recovery, only scopes that are no
overlays can be open on top when a failure is recovered from. -/
def flattening : Kinship d (List Bool) where
  Alike := Reader.Flattens d.schema.order
  Stuck shape e r r' := r'.pos = r.pos ∧
    (d.options.mode = .recover → e.isRecoverable = true →
      ∃ n, r.Flattens d.schema.order (List.replicate n false ++ shape) r')
  Shared _ _ := True
  Ranging := True
  pos h := h.pos
  stop h := h.stop
  size h := by rw [h.data]
  byteOrder h := h.byteOrder
  get? h := h.get?
  textAt? h table n := by
    unfold Reader.textAt? Reader.slice
    rw [h.tables, h.data]
  window h _ _ _ := by rw [h.data]
  slice h _ _ _ _ := by
    unfold Reader.slice
    rw [h.data]
  shared _ _ _ := trivial
  advance h _ _ _ := ⟨h.data, rfl, h.tables, h.order, h.order', h.flat⟩
  bind h := h.bind
  table {_ r _} h name start :=
    ⟨h.data, h.pos, congrArg (fun t : Table (Nat × Nat) => t.insertIfNew name (start, r.pos)) h.tables,
      h.order, h.order', h.flat⟩
  -- A scope with a size is open on both sides, so it counts as no overlay in the shape.
  opened {shape _ _} h {size} _ := by
    refine ⟨false :: shape, h.opened size, fun h => h.leave, fun {e r r'} hstuck => ⟨hstuck.1, fun hm he => ?_⟩⟩
    obtain ⟨n, hn⟩ := hstuck.2 hm he
    refine ⟨n + 1, ?_⟩
    rw [List.replicate_succ', List.append_assoc]
    exact hn
  ofBuffer data := ⟨[], rfl, rfl, rfl, rfl, rfl, .root fun _ => rfl⟩
  stuck h _ := ⟨h.pos, fun _ _ => ⟨0, h⟩⟩
  stuck_pos h := h.1
  stuck_locate h _ := h
  ranging _ := trivial
  jump _ {_ _ _} h p := ⟨h.data, rfl, h.tables, h.order, h.order', h.flat⟩
  -- What a failure left open has no overlays in it, and both sides drop it alike.
  unwind hm {_} he {shape _ _ r r'} h hstuck := by
    obtain ⟨n, hn⟩ := hstuck.2 hm he
    exact h.unwind hn

/-- The decoder whose structs set no byte order. -/
def withoutOrders : Decoder :=
  { d with schema := { d.schema with
      structs := d.schema.structs.map fun p => (p.1, { p.2 with order := none }) } }

/-- No struct changes the byte order: it sets none, or the one in force without it. -/
def Uniform : Prop := ∀ s, d.schema.Defines s → ∀ order, s.order = some order → order = d.schema.order

/-- Without the byte orders of its structs a schema is the same in every other respect. -/
theorem mirrors_withoutOrders : d.Mirrors (fun s => { s with order := none }) d.withoutOrders where
  options := rfl
  name := rfl
  root := rfl
  order := rfl
  enums := rfl
  flags := rfl
  structs n := by
    unfold withoutOrders Table.get?
    dsimp only
    induction d.schema.structs with
    | nil => rfl
    | cons p rest ih =>
        rw [List.map_cons, List.lookup_cons, List.lookup_cons, ih]
        cases n == p.1 <;> rfl
  structName _ := rfl
  structAlign _ := rfl
  structTable _ := rfl

variable {d}

/-- In recovery the fields of a struct fail only where the data is not to blame. -/
theorem fields_settled (d : Decoder) (rounds : Nat) (nested : StructDef → String → Decoding Node)
    (fs : List Field) (found : List Node) (r : Run) :
    (fields d rounds nested fs found r).Satisfies (fun _ _ => True)
      (fun e _ => d.options.mode = .recover → e.isRecoverable = false) := by
  cases hx : fields d rounds nested fs found r with
  | done nodes r' => trivial
  | unfinished => trivial
  | failed e r' =>
      intro hm
      have hfatal : (fields d rounds nested fs found r).Satisfies (fun nodes _ => found <+: nodes)
          (fun e _ => e.isRecoverable = false) := fields_fatal hm fs found r
      rw [hx] at hfatal
      exact hfatal

/-- In an overlay that sets the byte order of the schema, the fields do what they do without it. -/
theorem similarBodies (hu : d.Uniform) (rounds : Nat) :
    d.flattening.SimilarBodies (fun s => { s with order := none }) d.withoutOrders rounds := by
  intro levels s hs hfields shape
  rw [body_plain (s := { s with order := none }) _ _ _ rfl]
  cases ho : s.order with
  | none =>
      rw [body_plain _ _ _ ho]
      exact hfields shape
  | some order =>
      obtain rfl := hu s hs order ho
      rw [body_ordered _ _ _ ho]
      rintro r _ ⟨reader, rfl, h⟩
      -- On the right the fields run as they are. On the left they run in the overlay, which has to be on top again
      -- when they are done or have failed.
      let inner : Run := { r with reader := r.reader.overlay d.schema.order }
      have hmatch := (hfields (true :: shape) inner { r with reader } ⟨reader, rfl, h.overlay⟩).and_left
        (fields_settled d rounds (d.struct rounds levels) s.fields [] inner)
      rw [← bind_pure' (fields d.withoutOrders _ _ _ _)]
      refine Outcome.Matches.bind (hmatch.mono id ?_) ?_
      · -- In recovery the loop over the fields settles every failure that can be recovered from.
        rintro e r' _ ⟨⟨reader', rfl, hstuck⟩, hfatal⟩
        refine ⟨reader', rfl, hstuck.1, fun hm he => ?_⟩
        rw [hfatal hm] at he
        cases he
      · rintro a r' _ ⟨⟨-, reader', rfl, h'⟩, -⟩
        obtain ⟨left, hleave, hleft⟩ := Reader.Flattens.leave_overlay h'
        rw [bind_done (move_ok (f := fun r => r.leave) hleave)]
        exact .done ⟨trivial, reader', rfl, hleft⟩

/-- A struct that sets the byte order that is in force anyway is decoded as if it set none, whatever the buffer
and the options. -/
theorem decode?_withoutOrders (hu : d.Uniform) (rounds : Nat) (data : Buffer) :
    d.withoutOrders.decode? rounds data = d.decode? rounds data :=
  d.flattening.decode?_eq d.mirrors_withoutOrders (fun _ _ => Or.inr trivial) (similarBodies hu rounds) data

end Decoder

/-! ## A length behind an overlay -/

namespace Packet

/-- The tokens of `n`. -/
theorem scan?_length : Token.scan? 0 (stripBraces "n".toList).1 =
    some ⟨[⟨.name "n", ⟨0, 1⟩⟩, ⟨.finish, ⟨1, 1⟩⟩], []⟩ := by
  decide +kernel

/-- The length that the header tells. -/
def length : Expression where
  source := "n"
  tree := .ident "n" ⟨0, 1⟩
  tree_eq := by
    unfold Expr.ofSource Expr.ofText
    rw [scan?_length]
    rfl

/-- A header that sets the byte order which is in force anyway, and as many bytes as it says. -/
def decoder : Decoder where
  schema := {
    name := "packet"
    order := .big
    structs := [
      ("all", { name := "all", fields := [
        { name := "head", type := .struct, structRef := some "header" },
        { name := "body", type := .bytes, size := some (.computed length) }] }),
      ("header", { name := "header", fields := [{ name := "n", type := .u16 }], order := some .big })]
    root := "all" }
  options := {}

/-- The length is bound inside the header, and is known behind it with and without the overlay. -/
theorem decode?_withoutOrders_packet : decoder.Uniform ∧
    decoder.withoutOrders.decode? 0 #[0, 1, 7] = decoder.decode? 0 #[0, 1, 7] ∧
      ∃ t, decoder.Answers #[0, 1, 7] (.ok t) ∧ t.root.count = 4 := by
  have huniform : decoder.Uniform := by
    rintro s ⟨name, hs⟩ order ho
    rcases List.mem_cons.mp (Table.mem_of_get? hs) with h | h
    · obtain ⟨-, rfl⟩ := Prod.mk.inj h
      cases ho
    · obtain ⟨-, rfl⟩ := Prod.mk.inj (List.mem_singleton.mp h)
      exact (Option.some.inj ho).symm
  refine ⟨huniform, Decoder.decode?_withoutOrders huniform 0 #[0, 1, 7], ?_⟩
  refine decoder.exists_answer_of_decode? 0 ?_
  decide +kernel

end Packet

end BinaryFormat
