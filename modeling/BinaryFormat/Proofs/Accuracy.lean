import BinaryFormat.Proofs.Ambient
import BinaryFormat.Proofs.Rounds

/-!
# Every node is about its bytes

A decoded tree is judged by the schema alone, without decoding anything: each node lies in the buffer, a leaf
shows the bytes of its range, and what hangs below a node is judged as the members of its struct, the elements
of its array or the content of its stream. The judgement is handed the byte order in force, which a struct
may set for what lies inside it, and which starts anew in a decompressed buffer.
-/

namespace BinaryFormat

open Schema (Field StructDef)
open Decoding

namespace Node

/-- The bytes of the node are all there. -/
def LiesIn (n : Node) (data : Buffer) : Prop := n.offset + n.size ≤ data.size

/-- The bytes of the node. -/
def bytesIn (n : Node) (data : Buffer) : List UInt8 := data.window n.offset (n.offset + n.size)

theorem LiesIn.length_bytesIn {n : Node} {data : Buffer} (h : n.LiesIn data) : (n.bytesIn data).length = n.size := by
  have hle : n.offset + n.size ≤ data.size := h
  rw [bytesIn, Buffer.length_window]
  omega

end Node

namespace Decoder

variable (d : Decoder)

mutual

/-- The node is about a struct. -/
inductive StructNode (d : Decoder) : Buffer → ByteOrder → StructDef → Node → Prop where
  | mk {data : Buffer} {order : ByteOrder} {s : StructDef} {n : Node} :
      n.LiesIn data → n.content = .struct → Members d data (s.order.getD order) s.fields n.children →
      StructNode d data order s n

/-- The nodes are about the fields, in order: one for each of them that is there, and none behind one that
failed where its length is not known. -/
inductive Members (d : Decoder) : Buffer → ByteOrder → List Field → List Node → Prop where
  | nil {data : Buffer} {order : ByteOrder} : Members d data order [] []
  | absent {data : Buffer} {order : ByteOrder} {f : Field} {rest : List Field} {nodes : List Node} :
      f.condition.isSome = true → Members d data order rest nodes →
      Members d data order (f :: rest) nodes
  | present {data : Buffer} {order : ByteOrder} {f : Field} {rest : List Field} {n : Node}
      {nodes : List Node} :
      FieldNode d data order f n → Members d data order rest nodes →
      Members d data order (f :: rest) (n :: nodes)
  | failed {data : Buffer} {order : ByteOrder} {f : Field} {rest : List Field} {n : Node}
      {nodes : List Node} {message : String} :
      d.options.mode = .recover → n.LiesIn data → n.content = .failed message → n.children = [] →
      f.staticSize?.isSome = true → Members d data order rest nodes →
      Members d data order (f :: rest) (n :: nodes)
  | abandoned {data : Buffer} {order : ByteOrder} {f : Field} {rest : List Field} {n : Node}
      {message : String} :
      d.options.mode = .recover → n.LiesIn data → n.content = .failed message → n.children = [] →
      f.staticSize? = none → Members d data order (f :: rest) [n]

/-- The node is about a field that was decoded. -/
inductive FieldNode (d : Decoder) : Buffer → ByteOrder → Field → Node → Prop where
  | once {data : Buffer} {order : ByteOrder} {f : Field} {n : Node} :
      f.repetition = .once → Occurrence d data order f n → FieldNode d data order f n
  | array {data : Buffer} {order : ByteOrder} {f : Field} {n : Node} :
      f.repetition ≠ .once → n.LiesIn data → n.content = .array →
      (∀ e ∈ n.children, Occurrence d data order (elementField f) e) → FieldNode d data order f n

/-- The node is about one occurrence of a field. -/
inductive Occurrence (d : Decoder) : Buffer → ByteOrder → Field → Node → Prop where
  | leaf {data : Buffer} {order : ByteOrder} {f : Field} {n : Node} :
      n.LiesIn data → (f.type = .virtual → n.size = 0) → Shows order f.type (n.bytesIn data) n.content →
      n.children = [] → Occurrence d data order f n
  | struct {data : Buffer} {order : ByteOrder} {f : Field} {n : Node} {target : String}
      {s : StructDef} :
      target ∈ f.targets → d.schema.structs.get? target = some s → StructNode d data order s n →
      Occurrence d data order f n
  | stream {data out : Buffer} {order : ByteOrder} {f : Field} {n : Node} {c : Compression} :
      f.type = .compressed → Compression.ofName? (f.compression.getD Compression.defaultName) = some c →
      n.LiesIn data → c.decompress? (n.bytesIn data) = some out → f.structRef = none →
      n.content = .compressed (f.compression.getD Compression.defaultName) n.size out.size
        (some out.toList) →
      n.children = [] → Occurrence d data order f n
  | unpacked {data out : Buffer} {order : ByteOrder} {f : Field} {n inner : Node} {c : Compression}
      {name : String} {s : StructDef} :
      f.type = .compressed → Compression.ofName? (f.compression.getD Compression.defaultName) = some c →
      n.LiesIn data → c.decompress? (n.bytesIn data) = some out → f.structRef = some name →
      n.content = .compressed (f.compression.getD Compression.defaultName) n.size out.size none →
      d.schema.structs.get? name = some s → n.children = [inner] →
      StructNode d out d.schema.order s inner → Occurrence d data order f n

end

variable {d} {data : Buffer} {order : ByteOrder}

/-- The judgement is about the bytes: the name and what is said besides are up to the schema. -/
theorem Occurrence.relabel {f : Field} {n : Node} (h : Occurrence d data order f n) (name : String)
    (description : Option String) (isPadding : Bool) (isValid : Option Bool) :
    Occurrence d data order f { n with name, description, isPadding, isValid } := by
  cases h with
  | leaf hl hv hs hc => exact .leaf hl hv hs hc
  | struct ht hd hs =>
      cases hs with
      | mk hl hc hm => exact .struct ht hd (.mk hl hc hm)
  | stream ht hn hl hd hs hc hch => exact .stream ht hn hl hd hs hc hch
  | unpacked ht hn hl hd hs hc hg hch hi => exact .unpacked ht hn hl hd hs hc hg hch hi

theorem FieldNode.annotate {f : Field} {n : Node} (h : FieldNode d data order f n)
    (description : Option String) (isPadding : Bool) (isValid : Option Bool) :
    FieldNode d data order f { n with description, isPadding, isValid } := by
  cases h with
  | once hr ho => exact .once hr (ho.relabel n.name description isPadding isValid)
  | array hr hl hc he => exact .array hr hl hc he

/-! ## Every node lies in the buffer -/

theorem StructNode.liesIn {s : StructDef} {n : Node} (h : StructNode d data order s n) : n.LiesIn data := by
  cases h with
  | mk hl _ _ => exact hl

theorem Occurrence.liesIn {f : Field} {n : Node} (h : Occurrence d data order f n) : n.LiesIn data := by
  cases h with
  | leaf hl _ _ _ | stream _ _ hl _ _ _ _ | unpacked _ _ hl _ _ _ _ _ _ => exact hl
  | struct _ _ hs => exact hs.liesIn

theorem FieldNode.liesIn {f : Field} {n : Node} (h : FieldNode d data order f n) : n.LiesIn data := by
  cases h with
  | once _ ho => exact ho.liesIn
  | array _ hl _ _ => exact hl

theorem Members.liesIn {fs : List Field} {nodes : List Node} (h : Members d data order fs nodes) :
    ∀ n ∈ nodes, n.LiesIn data := by
  induction fs generalizing nodes with
  | nil =>
      cases h
      nofun
  | cons f rest ih =>
      cases h with
      | absent _ hrest => exact ih hrest
      | present hn hrest => exact List.forall_mem_cons.mpr ⟨hn.liesIn, ih hrest⟩
      | failed _ hl _ _ _ hrest => exact List.forall_mem_cons.mpr ⟨hl, ih hrest⟩
      | abandoned _ hl _ _ _ => exact List.forall_mem_singleton.mpr hl

/-! ## Leaves -/

theorem makes_leaf {f : Field} {content : Decoding Node.Content} (hr : content.Reading)
    (hc : ∀ {r c r'}, content r = .done c r' → Covers f.type r r' c) :
    (leaf f content).Makes fun data order n => Occurrence d data order f n where
  balanced := .reading (reading_leaf f hr)
  fits {r r' n} hs h := by
    obtain ⟨start, r₁, hstart, h₁⟩ := bind_eq_done h
    obtain ⟨c, r₂, hcontent, h₂⟩ := bind_eq_done h₁
    obtain ⟨stop, r₃, hstop, h₃⟩ := bind_eq_done h₂
    obtain ⟨rfl, rfl⟩ := Outcome.done.inj hstart
    obtain ⟨rfl, rfl⟩ := Outcome.done.inj hstop
    obtain ⟨rfl, -⟩ := Outcome.done.inj h₃
    have hreads := hr.reads hcontent
    have hlower : r.pos ≤ r₂.pos := hreads.reader.lower
    have hupper : r₂.pos ≤ r.reader.data.size := hreads.reader.data ▸ (hreads.returns.sound hs).pos_le
    have hstop : r.pos + (r₂.pos - r.pos) = r₂.pos := Nat.add_sub_cancel' hlower
    have hshows : Shows r.reader.byteOrder f.type
        (r.reader.data.window r.pos (r.pos + (r₂.pos - r.pos))) c := hstop.symm ▸ hc hcontent
    refine .leaf (Nat.le_trans (Nat.le_of_eq hstop) hupper) (fun ht => ?_) hshows rfl
    -- A computed field shows no bytes at all, so it has not moved.
    have hnil := (ht ▸ hshows).eq_nil
    have hlen := Buffer.length_window r.reader.data r.pos (r.pos + (r₂.pos - r.pos))
    rw [hnil, List.length_nil] at hlen
    show r₂.pos - r.pos = 0
    omega

/-! ## Structs inside fields -/

/-- A struct looked up is the one of that name. -/
theorem makes_structDef {α : Type} {name : String} {x : StructDef → Decoding α}
    {J : Buffer → ByteOrder → α → Prop}
    (h : ∀ s, d.schema.structs.get? name = some s → (x s).Makes J) : (d.structDef name >>= x).Makes J := by
  unfold structDef
  cases hs : d.schema.structs.get? name with
  | none => exact .fail _
  | some s => exact h s hs

/-- What goes on from the bytes of a field with a size may take them for those of a range of the buffer. -/
theorem makes_extent {α : Type} (f : Field) {x : Nat → Nat → List UInt8 → Decoding α}
    {J : Buffer → ByteOrder → α → Prop}
    (h : ∀ start size bytes, (x start size bytes).Makes fun data order a =>
      start + size ≤ data.size → data.window start (start + size) = bytes → J data order a) :
    (do let start ← .pos; let size ← fieldSize f; let bytes ← .read (·.read size); x start size bytes
      : Decoding α).Makes J where
  balanced := (Balanced.reading .pos).bind fun start _ =>
    (Balanced.reading (unmoving_fieldSize f).reading).bind fun size _ =>
      (Balanced.reading (reading_readBytes size)).bind fun bytes _ => (h start size bytes).balanced
  fits {r r' a} hs hx := by
    obtain ⟨start, r₁, hstart, h₁⟩ := bind_eq_done hx
    obtain ⟨size, r₂, hsize, h₂⟩ := bind_eq_done h₁
    obtain ⟨bytes, r₃, hread, h₃⟩ := bind_eq_done h₂
    obtain ⟨rfl, rfl⟩ := Outcome.done.inj hstart
    obtain rfl := (unmoving_fieldSize f).eq hsize
    -- Reading changes neither the buffer nor the byte order, so what holds behind it holds of those at the start.
    have hret := ((reading_readBytes size).reads hread).returns
    obtain ⟨reader, hr, -⟩ := read_eq_done hread
    obtain ⟨hbytes, -, -, hfits⟩ := Reader.read_eq_ok hr
    have ha := (h _ size bytes).fits (hret.sound hs) h₃
    rw [hret.data, hret.byteOrder] at ha
    exact ha hfits hbytes.symm

section Fields

variable {nested : StructDef → String → Decoding Node}
  (hn : ∀ s name, d.schema.Defines s → (nested s name).Makes fun data order n => StructNode d data order s n)

include hn

theorem makes_structField (f : Field) {s : StructDef} (hs : d.schema.Defines s) :
    (structField nested f s).Makes fun data order n => StructNode d data order s n := by
  cases hf : f.size with
  | none =>
      unfold structField
      rw [hf]
      exact hn s f.name hs
  | some size =>
      rw [structField_sized _ hf]
      have hbounded := fun size => (hn s f.name hs).bounded size
      refine ⟨?_, fun {r r' n} hsound h => ?_⟩
      · refine (Balanced.reading .pos).bind fun _ _ => ?_
        refine (Balanced.reading (unmoving_fieldSize f).reading).bind fun size _ => ?_
        exact (hbounded size).balanced.bind fun _ _ => .reading (.pure _)
      · obtain ⟨start, r₁, hstart, h₁⟩ := bind_eq_done h
        obtain ⟨size, r₂, hsize, h₂⟩ := bind_eq_done h₁
        obtain ⟨node, r₃, hnode, h₃⟩ := bind_eq_done h₂
        obtain ⟨rfl, rfl⟩ := Outcome.done.inj hstart
        obtain rfl := (unmoving_fieldSize f).eq hsize
        obtain ⟨rfl, -⟩ := Outcome.done.inj h₃
        -- the size that was declared is the one of the scope that was entered, so it lies in the buffer
        obtain ⟨_, r₄, henter, -⟩ := bind_eq_done hnode
        obtain ⟨reader, he, -⟩ := move_eq_done henter
        have hfits := (Reader.enter_eq_ok he).1
        cases (hbounded size).fits hsound hnode with
        | mk _ hc hm => exact .mk (Nat.le_trans hfits hsound.stop_le) hc hm

theorem makes_switchField {f : Field} (hf : f.type = .switch) :
    (switchField d nested f).Makes fun data order n => Occurrence d data order f n := by
  unfold switchField
  cases hs : f.switch with
  | none => exact .fail _
  | some spec =>
      refine .behind (.reading (Unmoving.eval _).reading) fun v _ => ?_
      refine .behind (.reading (unmoving_chosenCase v _).reading) fun chosen hy => ?_
      cases ht : chosen.or spec.fallback with
      | none => exact .fail _
      | some target =>
          refine makes_structDef fun s hd => ?_
          exact (makes_structField hn f ⟨_, hd⟩).mono fun _ _ _ h =>
            .struct (mem_targets_of_switch hf hs hy ht) hd h

theorem makes_compressedField {f : Field} (hf : f.type = .compressed) :
    (compressedField d nested f).Makes fun data order n => Occurrence d data order f n := by
  unfold compressedField
  refine makes_extent f fun start size bytes => ?_
  dsimp only
  cases hc : Compression.ofName? (f.compression.getD Compression.defaultName) with
  | none => exact .fail _
  | some c =>
      dsimp only
      cases hout : c.decompress? bytes with
      | none => exact .fail _
      | some out =>
          dsimp only
          cases hs : f.structRef with
          | none =>
              refine .pure fun data order hfits hbytes => ?_
              exact .stream hf hc hfits ((congrArg c.decompress? hbytes).trans hout) hs rfl rfl
          | some name =>
              refine makes_structDef fun s hd => ?_
              refine ((hn s f.name ⟨_, hd⟩).inBuffer d out).bind fun inner _ => ?_
              refine .pure fun data order hinner hfits hbytes => ?_
              exact .unpacked hf hc hfits ((congrArg c.decompress? hbytes).trans hout) hs rfl hd rfl hinner

theorem makes_single (f : Field) (siblings : Option (List Node)) :
    (single d nested f siblings).Makes fun data order n => Occurrence d data order f n := by
  by_cases hf : f.type ≠ .struct ∧ f.type ≠ .switch ∧ f.type ≠ .compressed
  · obtain ⟨content, hr, hc, he⟩ := single_eq_leaf d.schema f siblings hf
    rw [he d.options nested]
    exact makes_leaf hr hc
  · unfold single
    cases ht : f.type with
    | struct =>
        dsimp only
        cases hs : f.structRef with
        | none => exact .fail _
        | some name =>
            refine makes_structDef fun s hd => ?_
            exact (makes_structField hn f ⟨_, hd⟩).mono fun _ _ _ h =>
              .struct (mem_targets_of_struct ht hs) hd h
    | switch => exact makes_switchField hn ht
    | compressed => exact makes_compressedField hn ht
    | _ => exact absurd ⟨by rw [ht]; decide, by rw [ht]; decide, by rw [ht]; decide⟩ hf

/-! ## Arrays -/

theorem makes_element (f : Field) (i : Nat) :
    (element d nested f i).Makes fun data order n => Occurrence d data order f n := by
  unfold element
  refine .behind (.reading d.unmoving_checkCancelled.reading) fun _ _ => ?_
  refine ((makes_single hn f none).within _ _).bind fun node _ => ?_
  refine .behind (.counted d) fun _ _ => .pure fun data order h => ?_
  exact h.relabel _ node.description node.isPadding node.isValid

/-- The elements that were found already are judged along with those that follow. -/
theorem makes_countedElements (f : Field) (left i : Nat) (found : List Node) :
    (countedElements d nested f left i found).Makes fun data order nodes =>
      (∀ e ∈ found, Occurrence d data order f e) → ∀ e ∈ nodes, Occurrence d data order f e := by
  induction left generalizing i found with
  | zero => exact .pure fun _ _ h e he => h e (List.mem_reverse.mp he)
  | succ left ih =>
      unfold countedElements
      refine (makes_element hn f i).bind fun node _ => (ih (i + 1) (node :: found)).mono ?_
      exact fun data order nodes h hnode hfound => h (List.forall_mem_cons.mpr ⟨hnode, hfound⟩)

theorem makes_openElements (f : Field) {isLast : Decoding Bool} (hl : isLast.Unmoving) (rounds i : Nat)
    (found : List Node) :
    (openElements d nested f isLast rounds i found).Makes fun data order nodes =>
      (∀ e ∈ found, Occurrence d data order f e) → ∀ e ∈ nodes, Occurrence d data order f e := by
  induction rounds generalizing i found with
  | zero => exact .unfinished
  | succ rounds ih =>
      unfold openElements
      refine .behind (.reading (d.unmoving_checkElements _).reading) fun _ _ => ?_
      refine .behind (.reading .pos) fun before _ => (makes_element hn f i).bind fun node _ => ?_
      -- The elements found so far are kept last first, and the invariant is that each of them is an occurrence.
      have hcons : ∀ data order, Occurrence d data order f node →
          (∀ e ∈ found, Occurrence d data order f e) → ∀ e ∈ node :: found, Occurrence d data order f e :=
        fun _ _ hnode hfound => List.forall_mem_cons.mpr ⟨hnode, hfound⟩
      refine .behind (.reading .pos) fun after _ => ?_
      split
      · exact .pure fun data order hnode hfound e he => hcons data order hnode hfound e (List.mem_reverse.mp he)
      · refine .behind (.reading hl.reading) fun last _ => ?_
        split
        · exact .pure fun data order hnode hfound e he =>
            hcons data order hnode hfound e (List.mem_reverse.mp he)
        · exact (ih (i + 1) (node :: found)).mono fun data order _ h hnode hfound =>
            h (hcons data order hnode hfound)

theorem makes_elements (rounds : Nat) (f : Field) :
    (elements d rounds nested f).Makes fun data order nodes =>
      ∀ e ∈ nodes, Occurrence d data order (elementField f) e := by
  have hopen : ∀ isLast : Decoding Bool, isLast.SeesEnd →
      (openElements d nested (elementField f) isLast rounds 0 []).Makes fun data order nodes =>
        ∀ e ∈ nodes, Occurrence d data order (elementField f) e := fun isLast hl =>
    (makes_openElements hn _ hl.unmoving rounds 0 []).mono fun _ _ _ h => h nofun
  unfold elements
  cases f.repetition with
  | once => exact .pure fun _ _ => nofun
  | count n =>
      refine .behind (.reading (Unmoving.evalNat _ _).reading) fun n _ => ?_
      refine .behind (.reading (d.unmoving_checkElements n).reading) fun _ _ => ?_
      exact (makes_countedElements hn _ n 0 []).mono fun _ _ _ h => h nofun
  | untilEnd =>
      refine .behind (.reading unmoving_isExhausted.reading) fun e _ => ?_
      cases e with
      | true => exact .pure fun _ _ => nofun
      | false => exact hopen _ seesEnd_isExhausted
  | untilTrue stop => exact hopen _ (seesEnd_untilTrue stop)

/-! ## Structs -/

theorem makes_content (rounds : Nat) (f : Field) (siblings : List Node) :
    (content d rounds nested f siblings).Makes fun data order n => FieldNode d data order f n := by
  have harray : f.repetition ≠ .once →
      (array d rounds nested f).Makes fun data order n => FieldNode d data order f n := by
    intro hf
    unfold array
    refine Makes.pos.bind fun start _ => (makes_elements hn rounds f).bind fun children _ => ?_
    refine Makes.pos.bind fun stop _ => .pure fun data order hstop he hstart => ?_
    exact .array hf (show start + (stop - start) ≤ data.size by omega) rfl he
  unfold content
  cases hf : f.repetition with
  | once => exact (makes_single hn f _).mono fun _ _ _ h => .once hf h
  | count _ | untilEnd | untilTrue _ => exact harray (by rw [hf]; nofun)

theorem makes_field (rounds : Nat) (f : Field) (found : List Node) :
    (field d rounds nested f found).Makes fun data order o =>
      match o with
      | some n => FieldNode d data order f n
      | none => f.condition.isSome = true := by
  refine .within _ _ (.behind (.reading (unmoving_isPresent f).reading) fun there hy => ?_)
  cases there with
  | false =>
      refine .pure fun _ _ => ?_
      obtain ⟨r, r', hy⟩ := hy
      exact condition_of_isPresent hy
  | true =>
      simp only [if_true, map_eq_pure_bind, presentField_eq]
      refine Makes.bind (.sought f (.behind (.reading (reading_align _)) fun _ _ => ?_)) fun n _ =>
        .pure fun _ _ h => h
      refine (makes_content hn rounds f found).bind fun n _ => ?_
      refine .behind (.reading (unmoving_validity f).reading) fun _ _ => .pure fun _ _ h => ?_
      exact h.annotate _ _ _

end Fields

/-- A field that failed stands for bytes of the buffer, though nobody knows for which. -/
theorem liesIn_failedNode (f : Field) {start stop : Nat} (e : Failure) (hstart : start ≤ data.size)
    (hstop : stop ≤ data.size) :
    (failedNode f start ((resumesAt f start stop).getD start - start) e).LiesIn data := by
  have hle := resumesAt_le f start stop
  show start + ((resumesAt f start stop).getD start - start) ≤ data.size
  omega

/-- What a field contributes goes before what the fields behind it do. -/
theorem makes_member (f : Field) {x : Decoding (Option Node)}
    (h : x.Makes fun data order o =>
      match o with
      | some n => FieldNode d data order f n
      | none => f.condition.isSome = true) :
    (d.member f x).Makes fun data order p => ∀ rest nodes,
      (if p.2 = true then Members d data order rest nodes else nodes = []) →
        Members d data order (f :: rest) (p.1.toList ++ nodes) where
  balanced := h.balanced.member d f
  fits {r r' p} hs hx := by
    rw [member_apply] at hx
    cases hr : x r with
    | unfinished => rw [hr] at hx; cases hx
    | done o r₁ =>
        rw [hr] at hx
        have ho := h.fits hs hr
        cases o with
        | none =>
            obtain ⟨rfl, -⟩ := Outcome.done.inj hx
            exact fun rest nodes hrest => .absent ho hrest
        | some n =>
            obtain ⟨_, r₂, -, h₂⟩ := bind_eq_done hx
            obtain ⟨rfl, -⟩ := Outcome.done.inj h₂
            exact fun rest nodes hrest => .present ho hrest
    | failed e r₁ =>
        rw [hr] at hx
        obtain ⟨hmode, -, -, rfl, -⟩ := d.settled_error_eq_done hx
        have hreturns := (h.balanced.aborts hr).afterFailure f e
        have hlies := liesIn_failedNode f e hs.pos_le (hreturns.data ▸ (hreturns.sound hs).stop_le)
        intro rest nodes hrest
        -- the struct goes on behind the field exactly if the schema tells how long it is
        unfold resumesAt at hrest
        cases hsize : f.staticSize? with
        | none =>
            rw [hsize] at hrest
            obtain rfl := hrest
            exact .abandoned hmode hlies rfl rfl hsize
        | some size =>
            rw [hsize] at hrest
            exact .failed hmode hlies rfl rfl (by rw [hsize]; rfl) hrest

section Structs

variable {nested : StructDef → String → Decoding Node}
  (hn : ∀ s name, d.schema.Defines s → (nested s name).Makes fun data order n => StructNode d data order s n)

include hn

theorem makes_fields (rounds : Nat) (fs : List Field) (found : List Node) :
    (fields d rounds nested fs found).Makes fun data order nodes =>
      ∃ new, nodes = found ++ new ∧ Members d data order fs new := by
  induction fs generalizing found with
  | nil => exact .pure fun _ _ => ⟨[], (List.append_nil _).symm, .nil⟩
  | cons f rest ih =>
      rw [fields_cons]
      refine .behind (.reading d.unmoving_checkCancelled.reading) fun _ _ => ?_
      refine (makes_member f (makes_field hn rounds f found)).bind fun p _ => ?_
      obtain ⟨node, goesOn⟩ := p
      cases goesOn with
      | true =>
          refine (ih (found ++ node.toList)).mono fun data order nodes h hp => ?_
          obtain ⟨new, rfl, hm⟩ := h
          exact ⟨node.toList ++ new, List.append_assoc _ _ _, hp rest new hm⟩
      | false =>
          refine .pure fun data order hp => ⟨node.toList, rfl, ?_⟩
          have hm := hp rest [] rfl
          rwa [List.append_nil] at hm

theorem makes_inside (rounds : Nat) (s : StructDef) :
    (inside d rounds nested s).Makes fun data order p =>
      p.1 ≤ data.size ∧ Members d data (s.order.getD order) s.fields p.2 := by
  have hbody : (body d rounds nested s).Makes fun data order children =>
      Members d data (s.order.getD order) s.fields children := by
    have hfields : (fields d rounds nested s.fields []).Makes fun data order children =>
        Members d data order s.fields children :=
      (makes_fields hn rounds s.fields []).mono fun _ _ _ ⟨_, hnew, hm⟩ => hnew ▸ hm
    cases ho : s.order with
    | none => rw [body_plain _ _ _ ho]; exact hfields
    | some order => rw [body_ordered _ _ _ ho]; exact hfields.overlaid order
  unfold inside
  -- The table and the padding behind the fields add nothing to the nodes.
  refine Makes.pos.bind fun start _ => hbody.bind fun children _ => ?_
  refine .behind (.reading .pos) fun stop _ => ?_
  have hend : (do align s.align; pure (start, children) : Decoding _).Makes fun data order p =>
      Members d data (s.order.getD order) s.fields children → start ≤ data.size →
        p.1 ≤ data.size ∧ Members d data (s.order.getD order) s.fields p.2 :=
    .behind (.reading (reading_align _)) fun _ _ => .pure fun _ _ hm hstart => ⟨hstart, hm⟩
  by_cases ht : s.isStringTable = true
  · simp only [if_pos ht]
    exact .behind (.table _ _ _) fun _ _ => hend
  · simp only [if_neg ht]
    exact hend

theorem makes_structWith (rounds : Nat) (s : StructDef) (name : String) :
    (structWith d rounds nested s name).Makes fun data order n => StructNode d data order s n := by
  rw [structWith_eq]
  refine ((makes_inside hn rounds s).descended d).bind fun p _ => Makes.pos.bind fun stop _ => ?_
  refine .pure fun data order hstop hp => ?_
  exact .mk (show p.1 + (stop - p.1) ≤ data.size by have := hp.1; omega) rfl hp.2

end Structs

variable (d) in
theorem makes_struct (rounds levels : Nat) {s : StructDef} (name : String) (hs : d.schema.Defines s) :
    (d.struct rounds levels s name).Makes fun data order n => StructNode d data order s n := by
  induction levels generalizing s name with
  | zero => exact .unfinished
  | succ levels ih => exact makes_structWith (fun _ name hs => ih name hs) rounds s name

variable (d) in
theorem makes_root (rounds : Nat) : (d.root rounds).Makes fun data order n =>
    ∃ s, d.schema.structs.get? d.schema.root = some s ∧ StructNode d data order s n :=
  makes_structDef fun s hs => (d.makes_struct rounds _ _ ⟨_, hs⟩).mono fun _ _ _ h => ⟨s, hs, h⟩

/-- The tree that a decode ends in is about the root struct, and so is every node of it about its bytes. -/
theorem answer_accurate {d : Decoder} {data : Buffer} {t : Decoded} (h : d.Answers data (.ok t)) :
    ∃ s, d.schema.structs.get? d.schema.root = some s ∧
      StructNode d data d.schema.order s t.root := by
  obtain ⟨rounds, r, hr, -⟩ := d.answers_ok_iff.mp h
  exact (d.makes_root rounds).fits (Reader.sound_ofBuffer data d.schema.order) hr

/-- A big-endian number, a name, and a box with a little-endian number in it. -/
def crate : Decoder where
  schema := {
    name := "crate"
    structs := [
      ("all", { name := "all", order := some .big, fields := [
        { name := "id", type := .u16 },
        { name := "label", type := .asciiz },
        { name := "box", type := .compressed, size := some (.fixed 2), compression := some "none"
          structRef := some "inner" }] }),
      ("inner", { name := "inner", fields := [{ name := "n", type := .i16 }] })]
    root := "all" }
  options := { maxDepth := 2 }

/-- What is in a crate. The number in the box is negative, for the box has a byte order of its own. -/
def crateTree : Node where
  name := "crate"
  typeName := "all"
  offset := 0
  size := 6
  content := .struct
  children := [
    { name := "id", typeName := "u16", offset := 0, size := 2
      content := .integer { value := .unsigned 258 } },
    { name := "label", typeName := "asciiz", offset := 2, size := 2
      content := .text "A" .ascii none },
    { name := "box", typeName := "compressed", offset := 4, size := 2
      content := .compressed "none" 2 2 none
      children := [{
        name := "box", typeName := "inner", offset := 0, size := 2, content := .struct
        children := [
          { name := "n", typeName := "i16", offset := 0, size := 2
            content := .integer { value := .signed (-129) } }] }] }]

theorem crate_accurate : crate.Answers #[1, 2, 65, 0, 127, 255] (.ok ⟨crateTree, []⟩) ∧
    ∃ s, crate.schema.structs.get? crate.schema.root = some s ∧
      StructNode crate #[1, 2, 65, 0, 127, 255] crate.schema.order s crateTree := by
  have h : crate.Answers #[1, 2, 65, 0, 127, 255] (.ok ⟨crateTree, []⟩) := by
    let parts (t : Decoded) : Node × List Recovered := (t.root, t.recovered)
    obtain ⟨t, ht, hparts⟩ : ∃ t, crate.Answers #[1, 2, 65, 0, 127, 255] (.ok t) ∧ parts t = (crateTree, []) := by
      refine crate.exists_answer_of_decode? 0 ?_
      decide +kernel
    obtain ⟨hroot, hrecovered⟩ := Prod.mk.inj hparts
    rwa [← hroot, ← hrecovered]
  exact ⟨h, answer_accurate h⟩

end Decoder

end BinaryFormat
