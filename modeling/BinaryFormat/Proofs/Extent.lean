import BinaryFormat.Proofs.Trace

/-!
# Where a field ends

Of some fields the schema alone tells how many bytes they take, and recovery goes by that number: behind a field
that failed, decoding goes on where the field would have ended. The decoder itself never asks for the number. It
reads what the type of the field calls for, or closes the scope that it has opened for a struct.

Both come to the same end wherever the field declares no size, and wherever its type is one that is read by the
size declared. A number, a computed value and a text that ends at its first NUL byte are read as ever, though,
when their field declares a size. Such a field ends in one place if it is decoded, and in another if it fails.
-/

namespace BinaryFormat

open Schema (Field StructDef)

/-! ## The bytes of a field -/

/-- The bytes up to the first NUL byte, which is one of them, or up to the end of the scope. -/
def Reader.terminatedLength (r : Reader) : Nat :=
  min ((r.unread.takeWhile (· != 0)).length + 1) r.unread.length

/-- The bytes that a type is read from, if a size that its field declares makes no difference to it. -/
def FieldType.extent? (t : FieldType) (r : Reader) : Option Nat :=
  match t.terminatedEncoding? with
  | some _ => some r.terminatedLength
  | none => t.fixedWidth?

namespace Schema.Field

/-- The bytes that a field is read from, of which the schema tells that it takes `n`. -/
def extent (f : Field) (n : Nat) (r : Reader) : Nat := (f.type.extent? r).getD n

/-- The schema tells the bytes of a field that occurs once and where the run is, if it fixes a size or else if its
type does. -/
theorem staticSize?_eq_some {f : Field} {n : Nat} (h : f.staticSize? = some n) :
    f.repetition = .once ∧ f.seek = none ∧ f.align = none ∧
      ((∃ size, f.size = some (.fixed size) ∧ size.toNat = n) ∨ (f.size = none ∧ f.type.fixedWidth? = some n)) := by
  unfold staticSize? at h
  split at h
  · rename_i hrepetition hseek halign
    refine ⟨hrepetition, hseek, halign, ?_⟩
    cases hsize : f.size with
    | none =>
        rw [hsize] at h
        exact .inr ⟨rfl, h⟩
    | some size =>
        rw [hsize] at h
        cases size with
        | fixed size => exact .inl ⟨size, rfl, Option.some.inj h⟩
        | remaining | computed _ => cases h
  · cases h

/-- A type that has no width of its own is read by the size that its field declares. -/
theorem fieldSize_eq_pure {f : Field} {n : Nat} (h : f.staticSize? = some n) (ht : f.type.fixedWidth? = none) :
    Decoder.fieldSize f = pure n := by
  obtain ⟨-, -, -, ⟨size, hsize, rfl⟩ | ⟨-, hwidth⟩⟩ := staticSize?_eq_some h
  · unfold Decoder.fieldSize
    rw [hsize]
  · rw [ht] at hwidth
    cases hwidth

/-- The schema is right about a field that declares no size, and about one whose type goes by its size. -/
theorem extent_eq {f : Field} {n : Nat} {r : Reader} (h : f.staticSize? = some n)
    (hsize : f.size = none ∨ f.type.extent? r = none) : f.extent n r = n := by
  unfold extent
  cases hsize with
  | inl hnone =>
      obtain ⟨-, -, -, ⟨size, hsome, -⟩ | ⟨-, hwidth⟩⟩ := staticSize?_eq_some h
      · rw [hnone] at hsome
        cases hsome
      · -- a type of a fixed width is not one of a text that looks for its end
        have hextent : f.type.extent? r = some n := by
          unfold FieldType.extent?
          cases ht : f.type with
          | asciiz | utf8z => rw [ht] at hwidth; cases hwidth
          | _ => rw [ht] at hwidth; exact hwidth
        rw [hextent, Option.getD_some]
  | inr hnone => rw [hnone, Option.getD_none]

end Schema.Field

/-! ## Steps that take as many bytes as can be told beforehand -/

namespace Decoding

variable {α β : Type}

namespace Stays

theorem pure (a : α) : Stays (pure a) := of_unmoving (.pure a)

theorem bind {x : Decoding α} {f : α → Decoding β} (hx : x.Stays) (hf : ∀ a, (f a).Stays) : (x >>= f).Stays := by
  intro r b r' h
  obtain ⟨a, r₁, hr, h₁⟩ := bind_eq_done h
  exact ((hf a).pos_eq h₁).trans (hx.pos_eq hr)

end Stays

/-- Where the step succeeds, it moves the position by a number of bytes that the reader tells beforehand. -/
def Takes (x : Decoding α) (width : Reader → Nat) : Prop :=
  ∀ r a r', x r = .done a r' → r'.pos = r.pos + width r.reader

namespace Takes

/-- A step that stays where it is takes no bytes. -/
theorem of_stays {x : Decoding α} (h : x.Stays) : x.Takes fun _ => 0 := fun _ _ _ hx => h.pos_eq hx

/-- What comes behind a step may look at what it yields, as long as it stays there. -/
theorem bind {x : Decoding α} {f : α → Decoding β} {width : Reader → Nat} (hx : x.Takes width)
    (hf : ∀ a, (f a).Stays) : (x >>= f).Takes width := by
  intro r b r' h
  obtain ⟨a, r₁, hr, h₁⟩ := bind_eq_done h
  exact ((hf a).pos_eq h₁).trans (hx r a r₁ hr)

theorem map {x : Decoding α} {width : Reader → Nat} (f : α → β) (hx : x.Takes width) : (f <$> x).Takes width := by
  rw [map_eq_pure_bind]
  exact hx.bind fun _ => .pure _

/-- A value that is made of some bytes takes these bytes, however it is made of them. -/
theorem read {g : Reader → Except Cause (α × Reader)} {width : Reader → Nat} {P : Reader → α → List UInt8 → Prop}
    (hg : ∀ {r r' : Reader} {a : α}, g r = .ok (a, r') → ∃ bytes, r.read (width r) = .ok (bytes, r') ∧ P r a bytes) :
    (Decoding.read g).Takes width := by
  intro r a r' h
  obtain ⟨reader, hr, rfl⟩ := read_eq_done h
  obtain ⟨bytes, hbytes, -⟩ := hg hr
  obtain ⟨-, rfl, -⟩ := Reader.read_eq_ok hbytes
  rfl

end Takes

end Decoding

namespace Decoder

open Decoding

variable (d : Decoder) {f : Field} {n : Nat}

/-! ### Leaves -/

theorem takes_leaf {x : Decoding Node.Content} {width : Reader → Nat} (h : x.Takes width) :
    (leaf f x).Takes width := by
  intro r node r' hr
  exact h r node.content r' (leaf_eq_done hr).1

/-- An integer takes the width of its type, whatever `size` the field declares. -/
theorem takes_integer (siblings : Option (List Node)) (width : Nat) (isSigned : Bool) :
    (d.integer f siblings width isSigned).Takes fun _ => width := by
  have hnumber : (number width isSigned).Takes fun _ => width := by
    intro r m r' h
    obtain ⟨bytes, hread, -⟩ := number_eq_done h
    obtain ⟨-, hreader, -⟩ := Reader.read_eq_ok hread
    show r'.reader.pos = r.reader.pos + width
    rw [hreader]
  -- whatever is looked up behind the number moves nothing
  refine hnumber.bind fun m => .bind (.bindName _ _) fun _ => .bind (.of_unmoving (d.unmoving_statesOf _ _)) fun o => ?_
  cases o with
  | some states => exact .pure _
  | none => exact .bind (.of_unmoving (d.unmoving_entryOf _ _)) fun _ => .of_unmoving (.bind .run fun _ => .pure _)

theorem takes_readBytes (n : Nat) : (Decoding.read (·.read n)).Takes fun _ => n := by
  intro r bytes r' h
  obtain ⟨reader, hread, rfl⟩ := read_eq_done h
  obtain ⟨-, rfl, -⟩ := Reader.read_eq_ok hread
  rfl

/-- Bytes take as many as the size of the field says. -/
theorem takes_bytes (hs : fieldSize f = pure n) : (bytes f).Takes fun _ => n := by
  unfold bytes
  rw [hs, pure_bind]
  exact (takes_readBytes n).bind fun _ => .pure _

theorem takes_ascii (hs : fieldSize f = pure n) : (d.ascii f).Takes fun _ => n := by
  unfold ascii
  rw [hs, pure_bind]
  exact (takes_readBytes n).bind fun _ => .bind (.of_unmoving (d.unmoving_statesOf _ _)) fun _ =>
    .bind (.bindName _ _) fun _ => .pure _

theorem takes_text (e : Text.Encoding) (hs : fieldSize f = pure n) : (text f e).Takes fun _ => n := by
  have hread : (Decoding.read (·.readText n e)).Takes fun _ => n := .read Reader.readText_eq_ok
  unfold text
  rw [hs, pure_bind]
  exact hread.bind fun _ => .bind (.bindName _ _) fun _ => .pure _

/-- A terminated text takes its terminator as well, where there is one. -/
theorem takes_terminated (e : Text.Encoding) : (terminated f e).Takes Reader.terminatedLength := by
  have hread : (Decoding.read (·.readTerminated e)).Takes Reader.terminatedLength :=
    .read Reader.readTerminated_eq_ok
  exact hread.bind fun _ => .bind (.bindName _ _) fun _ => .pure _

/-- A bitfield takes its register at once; its parts take nothing more. -/
theorem takes_bitfield (hs : fieldSize f = pure n) : (d.bitfield f).Takes fun _ => n := by
  have hread : (Decoding.read (·.readUnsigned n)).Takes fun _ => n := .read Reader.readUnsigned_exact
  unfold bitfield
  rw [hs, pure_bind]
  split
  · exact hread.bind fun register => .bind (.bindName _ _) fun _ =>
      .bind (.of_unmoving (.mapM (d.unmoving_bitPart register) _)) fun _ => .pure _
  · exact fun _ _ _ h => nomatch h

/-- A computed value takes no bytes. -/
theorem takes_computed : (computed f).Takes fun _ => 0 := by
  unfold computed
  cases f.value with
  | none => exact fun _ _ _ h => nomatch h
  | some e => exact .of_stays (.bind (.of_unmoving (.eval e)) fun _ => .bind (.bindName _ _) fun _ => .pure _)

theorem takes_binary32 : (Node.Content.float <$> Decoding.read (·.readBinary32)).Takes fun _ => 4 :=
  .map _ (.read Reader.readBinary32_eq_ok)

theorem takes_binary64 : (Node.Content.float <$> Decoding.read (·.readBinary64)).Takes fun _ => 8 :=
  .map _ (.read Reader.readBinary64_eq_ok)

/-! ### Occurrences -/

variable (rounds levels : Nat)

/-- However the fields of a struct move, closing the scope of its field comes to the end of that scope. -/
theorem takes_structField (s : StructDef) (hs : fieldSize f = pure n) :
    (structField (d.struct rounds levels) f s).Takes fun _ => n := by
  intro r node r' h
  have hbalanced : (d.struct rounds levels s f.name).Balanced false :=
    d.balanced_struct rounds levels s f.name nofun
  obtain ⟨hnone, -⟩ | ⟨size, m, -, hsize, hbounded, -⟩ := structField_eq_done h
  · -- without a size there is none to be read
    unfold fieldSize at hs
    rw [hnone] at hs
    exact absurd (congrFun hs r) nofun
  · rw [hs] at hsize
    obtain ⟨rfl, -⟩ := Outcome.done.inj hsize
    obtain ⟨_, _, -, -, -, hclose⟩ := bounded_eq_done hbalanced hbounded
    exact hclose.pos

/-- A compressed field takes its compressed bytes, however many come out of them. -/
theorem takes_compressedField (nested : StructDef → String → Decoding Node) (hs : fieldSize f = pure n) :
    (compressedField d nested f).Takes fun _ => n := by
  intro r node r' h
  obtain ⟨size, bytes, reader, c, out, raw, children, hsize, hread, -, -, -, hrest⟩ := compressedField_eq_done h
  rw [hs] at hsize
  obtain ⟨rfl, -⟩ := Outcome.done.inj hsize
  obtain ⟨-, rfl, -⟩ := Reader.read_eq_ok hread
  -- the struct in the stream is decoded in another buffer, so it leaves the position alone
  obtain ⟨-, rfl⟩ | ⟨name, s, m, r₁, -, -, -, -, rfl⟩ := hrest
  · rfl
  · rfl

/-- A struct in a scope of its own takes the whole scope, whether or not its fields do. -/
theorem takes_held (hs : fieldSize f = pure n) :
    (held d f >>= structField (d.struct rounds levels) f).Takes fun _ => n := by
  intro r node r' h
  obtain ⟨s, r₁, hheld, hstruct⟩ := bind_eq_done h
  -- choosing the struct leaves the run as it is, even where the choice looks ahead
  obtain rfl := unmoving_held.eq hheld
  exact d.takes_structField rounds levels s hs r₁ node r' hstruct

/-- One occurrence of a field takes the bytes that its type calls for, or else those that the schema tells. -/
theorem takes_single (siblings : Option (List Node)) (hn : f.staticSize? = some n) :
    (single d (d.struct rounds levels) f siblings).Takes (f.extent n) := by
  have hsize : f.type.fixedWidth? = none → fieldSize f = pure n := Field.fieldSize_eq_pure hn
  show (single d _ f siblings).Takes fun r => (f.type.extent? r).getD n
  by_cases hheld : f.HoldsStruct
  · rw [single_eq_held hheld]
    obtain ht | ht := hheld
    · rw [ht]
      exact d.takes_held rounds levels (hsize (by rw [ht]; rfl))
    · rw [ht]
      exact d.takes_held rounds levels (hsize (by rw [ht]; rfl))
  · unfold single
    -- Integers, floats, texts with a terminator and computed fields tell their extent themselves and never ask for
    -- the size that the schema tells. All others read that size.
    cases ht : f.type with
    | struct | switch => simp [Field.HoldsStruct, ht] at hheld
    | compressed => exact d.takes_compressedField _ (hsize (by rw [ht]; rfl))
    | u8 | u16 | u32 | u64 | i8 | i16 | i32 | i64 => exact takes_leaf (d.takes_integer siblings _ _)
    | f32 => exact takes_leaf takes_binary32
    | f64 => exact takes_leaf takes_binary64
    | bytes => exact takes_leaf (takes_bytes (hsize (by rw [ht]; rfl)))
    | ascii => exact takes_leaf (d.takes_ascii (hsize (by rw [ht]; rfl)))
    | utf8 | utf16le | utf16be | shiftJis | latin1 => exact takes_leaf (takes_text _ (hsize (by rw [ht]; rfl)))
    | asciiz | utf8z => exact takes_leaf (takes_terminated _)
    | bitfield => exact takes_leaf (d.takes_bitfield (hsize (by rw [ht]; rfl)))
    | virtual => exact takes_leaf takes_computed

/-! ## Fields that succeed, and fields that fail -/

/-- A field that is there is read where the run is, as it neither seeks nor is aligned. -/
theorem takes_presentField (siblings : List Node) (hn : f.staticSize? = some n) :
    (presentField d rounds (d.struct rounds levels) f siblings).Takes (f.extent n) := by
  intro r node r' h
  obtain ⟨hrepetition, hseek, halign, -⟩ := Field.staticSize?_eq_some hn
  obtain ⟨before, m, isValid, r₁, r₂, r₃, hsought, haligned, hcontent, hrestore, -⟩ := presentField_eq_done h
  unfold seek at hsought
  rw [hseek] at hsought
  rw [halign] at haligned
  obtain ⟨rfl, rfl⟩ := Outcome.done.inj hsought
  obtain ⟨-, rfl⟩ := Outcome.done.inj haligned
  obtain ⟨-, rfl⟩ := Outcome.done.inj hrestore
  obtain ⟨-, hsingle⟩ | ⟨harray, -⟩ := content_eq_done hcontent
  · exact d.takes_single rounds levels (some siblings) hn _ _ _ hsingle
  · exact absurd hrepetition harray

/-- From `r` the field fails, and the failure is one to recover from, for which another node is admitted. -/
structure Recovers (f : Field) (found : List Node) (r : Run) (e : Failure) : Prop where
  mode : d.options.mode = .recover
  isRecoverable : e.isRecoverable = true
  cancelled : d.options.cancelled = false
  failed : ∃ r', field d rounds (d.struct rounds levels) f found r = .failed e r' ∧ d.Admits (r'.nodes + 1)

/-- Behind a field that fails, the fields that are left are decoded from an offset of the same scope. -/
def ResumesAt (f : Field) (r : Run) (pos : Nat) : Prop :=
  ∀ {rounds levels : Nat} {found : List Node} {e : Failure}, d.Recovers rounds levels f found r e →
    ∃ r', r'.pos = pos ∧ r'.stop = r.stop ∧ ∀ fs,
      fields d rounds (d.struct rounds levels) (f :: fs) found r =
        fields d rounds (d.struct rounds levels) fs (found ++ [failedNode f r.pos (pos - r.pos) e]) r'

variable {d rounds levels}

/-- A failure to recover from is settled in the iteration that it arises in: a node stands for the field, and the loop
goes on where the schema says, or else where the field was met. -/
theorem Recovers.iteration_eq {found : List Node} {r : Run} {e : Failure} (h : d.Recovers rounds levels f found r e) :
    let pos := (resumesAt f r.pos r.stop).getD r.pos
    ∃ r', iteration d rounds (d.struct rounds levels) f found r =
        .done (some (failedNode f r.pos (pos - r.pos) e), f.staticSize?.isSome) r' ∧ r.Returns r' ∧ r'.pos = pos := by
  intro pos
  obtain ⟨failed, hfield, hadmits⟩ := h.failed
  have hcancelled : d.checkCancelled r = .done () r := by
    unfold checkCancelled
    rw [h.cancelled]
    rfl
  have haborts : r.Aborts failed := (d.balanced_field rounds levels f found).aborts hfield
  have hstop : (afterFailure f r failed e).stop = r.stop := (haborts.afterFailure f e).stop
  have hcount : d.countNode (afterFailure f r failed e) =
      .done () { afterFailure f r failed e with nodes := failed.nodes + 1 } := d.countNode_of_admits hadmits
  have hsettled : ∃ p r', d.settled f r (.error e) failed = .done p r' := by
    rw [settled_error, if_pos ⟨h.mode, h.isRecoverable⟩, bind_apply, replaceField_apply]
    dsimp only
    rw [bind_done hcount]
    exact ⟨_, _, rfl⟩
  obtain ⟨p, r', hsettled⟩ := hsettled
  obtain ⟨-, -, -, rfl, hr⟩ := d.settled_error_eq_done hsettled
  rw [show (afterFailure f r failed e).reader.scope.stop = r.stop from hstop, isSome_resumesAt] at hsettled
  rw [show (afterFailure f r failed e).reader.scope.stop = r.stop from hstop] at hr
  have hiteration : iteration d rounds (d.struct rounds levels) f found r =
      .done (some (failedNode f r.pos (pos - r.pos) e), f.staticSize?.isSome) r' := by
    rw [iteration, bind_done hcancelled, member_apply, hfield]
    exact hsettled
  exact ⟨r', hiteration, (d.balanced_iteration rounds levels f found).returns hiteration, congrArg Run.pos hr⟩

variable (d)

/-- Recovery goes by the bytes that the schema tells. -/
theorem resumesAt_staticSize (hn : f.staticSize? = some n) (r : Run) :
    d.ResumesAt f r (min (r.pos + n) r.stop) := by
  intro rounds levels found e h
  obtain ⟨r', hiteration, hreturns, hpos⟩ := h.iteration_eq
  have hresumes : resumesAt f r.pos r.stop = some (min (r.pos + n) r.stop) := by
    unfold resumesAt
    rw [hn]
    rfl
  rw [hresumes, Option.getD_some] at hiteration hpos
  refine ⟨r', hpos, hreturns.stop, fun fs => ?_⟩
  rw [fields_cons_eq, bind_done hiteration, hn]
  rfl

variable {d}

/-- A field of which the schema tells that it takes `n` bytes takes the bytes that its type calls for, once it is
there and succeeds. These are `n` bytes if the field declares no size, or if its type is read by the size declared.
Where the field fails at the same position, decoding goes on `n` bytes further, or at the end of the scope. So it
goes on where the field would have ended, as long as its type calls for `n` bytes. -/
theorem field_extent {siblings : List Node} {node : Node} {r r' : Run} (hn : f.staticSize? = some n)
    (h : field d rounds (d.struct rounds levels) f siblings r = .done (some node) r') :
    r'.pos = r.pos + f.extent n r.reader ∧
      (f.size = none ∨ f.type.extent? r.reader = none → f.extent n r.reader = n) ∧
      ∀ s : Run, s.pos = r.pos → d.ResumesAt f s (min (r.pos + n) s.stop) ∧
        (f.extent n r.reader = n → d.ResumesAt f s (min r'.pos s.stop)) := by
  have hpos : r'.pos = r.pos + f.extent n r.reader := by
    obtain ⟨-, hnone, -⟩ | ⟨m, r₁, -, hpresent, -, rfl⟩ := field_eq_done h
    · cases hnone
    · have htakes := d.takes_presentField rounds levels siblings hn _ m r₁ hpresent
      exact htakes
  refine ⟨hpos, Field.extent_eq hn, fun s hs => ?_⟩
  have hresumes : d.ResumesAt f s (min (r.pos + n) s.stop) := hs ▸ d.resumesAt_staticSize hn s
  refine ⟨hresumes, fun hextent => ?_⟩
  rw [hpos, hextent]
  exact hresumes

end Decoder

/-! ## A number that declares more bytes than it has -/

namespace Stamp

/-- A number of one byte, in four. -/
def mark : Field where
  name := "mark"
  type := .u8
  size := some (.fixed 4)

/-- Two bytes that may be cut off. -/
def body : Field where
  name := "body"
  type := .bytes
  size := some (.fixed 2)

/-- A decoder that goes on behind a failure. -/
def decoder : Decoder where
  schema := {
    name := "stamp"
    structs := [("all", { name := "all", fields := [mark, body] })]
    root := "all" }
  options := { mode := .recover }

/-- A run at the start of some bytes. -/
def run (data : Buffer) : Run := .start (.ofBuffer data .little)

/-- The two bytes are read, and where only one is left, decoding goes on behind that one. -/
theorem field_extent_body : body.staticSize? = some 2 ∧
    (∃ node r', Decoder.field decoder 0 (decoder.struct 0 0) body [] (run #[5, 6]) = .done (some node) r' ∧
      r'.pos = 2 ∧ decoder.ResumesAt body (run #[5]) 1) ∧
    ∃ e, decoder.Recovers 0 0 body [] (run #[5]) e := by
  have hdone : ∃ node r', Decoder.field decoder 0 (decoder.struct 0 0) body [] (run #[5, 6]) =
      .done (some node) r' := ⟨_, _, rfl⟩
  obtain ⟨node, r', h⟩ := hdone
  have hsize : body.staticSize? = some 2 := rfl
  obtain ⟨hpos, hextent, hresumes⟩ := Decoder.field_extent hsize h
  have htwo := hextent (.inr rfl)
  rw [htwo] at hpos
  refine ⟨hsize, ⟨node, r', h, hpos, (hresumes (run #[5]) rfl).1⟩, _, rfl, rfl, rfl, _, rfl, nofun⟩

/-- The number takes one byte, and not the four that the schema tells. -/
theorem mark_falls_short : mark.staticSize? = some 4 ∧
    ∃ node r', Decoder.field decoder 0 (decoder.struct 0 0) mark [] (run #[1, 2, 3, 4, 5, 6]) = .done (some node) r' ∧
      r'.pos ≠ (run #[1, 2, 3, 4, 5, 6]).pos + 4 :=
  ⟨rfl, _, _, rfl, by decide⟩

end Stamp

end BinaryFormat
