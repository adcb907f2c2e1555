import BinaryFormat.Proofs.Bracket

/-!
# Steps that only read

Most of what a decode does is to read bytes, to evaluate an expression or to bind a name. Such a step
moves the position forward and not past the scope it is in, and changes nothing else that another step
could notice but bindings: the scopes keep their windows and byte orders, and nothing is counted. Where it
fails it does not say in which field, for that is up to the field around it. All this is stated once here,
for the operations of a reader and then for every step made of them.
-/

namespace BinaryFormat

open Schema (Field)

/-- A scope without what is bound in it: its window and its byte order. -/
def Scope.frame (s : Scope) : Scope := { s with bindings := [] }

namespace Reader

/-- The open scopes without what is bound in them, innermost first. -/
def frames (r : Reader) : List Scope := r.scopes.map Scope.frame

/-! ## What the frames determine -/

/-- The innermost scope ends where the topmost frame does, or with the buffer where there is none. -/
theorem scope_stop_eq (r : Reader) : r.scope.stop = (r.frames.head?.map Scope.stop).getD r.data.size := by
  unfold scope frames
  cases r.scopes <;> rfl

theorem scope_stop_congr {r r' : Reader} (hd : r'.data = r.data) (hf : r'.frames = r.frames) :
    r'.scope.stop = r.scope.stop := by
  rw [scope_stop_eq, scope_stop_eq, hf, hd]

theorem findSome?_order_frames (scopes : List Scope) :
    (scopes.map Scope.frame).findSome? Scope.order = scopes.findSome? Scope.order := by
  induction scopes with
  | nil => rfl
  | cons s rest ih =>
      rw [List.map_cons, List.findSome?_cons, List.findSome?_cons, ih]
      rfl

/-- The byte order is that of the topmost frame that sets one. -/
theorem byteOrder_eq (r : Reader) :
    r.byteOrder = (r.frames.findSome? Scope.order).getD r.order := by
  unfold byteOrder allScopes frames
  rw [findSome?_order_frames, List.findSome?_append]
  cases r.scopes.findSome? Scope.order <;> rfl

theorem byteOrder_congr {r r' : Reader} (ho : r'.order = r.order) (hf : r'.frames = r.frames) :
    r'.byteOrder = r.byteOrder := by
  rw [byteOrder_eq, byteOrder_eq, hf, ho]

/-- A name is looked up in the open scopes and then outside of them. -/
theorem get?_eq (r : Reader) (name : String) :
    r.get? name = (r.scopes.findSome? fun s => s.bindings.get? name).or (r.bindings.get? name) := by
  unfold get? allScopes
  rw [List.findSome?_append, List.findSome?_singleton]
  rfl

/-! ## Moving forward -/

/-- The reader `r'` is `r` further on: not before it, and not past its scope. -/
structure Advances (r r' : Reader) : Prop where
  data : r'.data = r.data
  order : r'.order = r.order
  tables : r'.tables = r.tables
  frames : r'.frames = r.frames
  lower : r.pos ≤ r'.pos
  upper : r'.pos ≤ max r.pos r.scope.stop

namespace Advances

theorem refl (r : Reader) : r.Advances r :=
  ⟨rfl, rfl, rfl, rfl, Nat.le_refl _, Nat.le_max_left _ _⟩

theorem trans {r r' r'' : Reader} (h : r.Advances r') (h' : r'.Advances r'') : r.Advances r'' := by
  have hs := scope_stop_congr h.data h.frames
  refine ⟨h'.data.trans h.data, h'.order.trans h.order, h'.tables.trans h.tables,
    h'.frames.trans h.frames, Nat.le_trans h.lower h'.lower, ?_⟩
  have h1 := h.upper
  have h2 := h'.upper
  omega

end Advances

theorem advances_move {r : Reader} {n : Nat} (h : r.pos + n ≤ max r.pos r.scope.stop) :
    r.Advances { r with pos := r.pos + n } := ⟨rfl, rfl, rfl, rfl, Nat.le_add_right _ _, h⟩

/-- Binding a name changes no frame. -/
theorem frames_bind (r : Reader) (name : String) (v : Value) : (r.bind name v).frames = r.frames := by
  unfold bind frames
  cases r.scopes <;> rfl

theorem advances_bind (r : Reader) (name : String) (v : Value) : r.Advances (r.bind name v) := by
  have hf := frames_bind r name v
  have hrest : (r.bind name v).data = r.data ∧ (r.bind name v).order = r.order ∧
      (r.bind name v).tables = r.tables ∧ (r.bind name v).pos = r.pos := by
    unfold bind
    cases r.scopes <;> exact ⟨rfl, rfl, rfl, rfl⟩
  obtain ⟨hd, ho, ht, hp⟩ := hrest
  exact ⟨hd, ho, ht, hf, Nat.le_of_eq hp.symm, hp ▸ Nat.le_max_left _ _⟩

/-! ## Reading bytes -/

/-- Bytes are read if they are all in the scope, and then the position is behind them. -/
theorem read_eq_ok {r r' : Reader} {n : Nat} {bytes : List UInt8} (h : r.read n = .ok (bytes, r')) :
    bytes = r.data.window r.pos (r.pos + n) ∧ r' = { r with pos := r.pos + n } ∧
      n ≤ r.remaining ∧ r.pos + n ≤ r.data.size := by
  unfold read at h
  by_cases hn : n ≤ r.remaining
  · by_cases hs : r.pos + n ≤ r.data.size
    · rw [if_pos hn, if_pos hs] at h
      obtain ⟨rfl, rfl⟩ := Prod.mk.inj (Except.ok.inj h)
      exact ⟨rfl, rfl, hn, hs⟩
    · rw [if_pos hn, if_neg hs] at h; cases h
  · rw [if_neg hn] at h; cases h

/-- Reading moves the position inside the scope and leaves all else alone. -/
theorem advances_read {r r' : Reader} {n : Nat} {bytes : List UInt8}
    (h : r.read n = .ok (bytes, r')) : r.Advances r' := by
  obtain ⟨-, rfl, hn, -⟩ := read_eq_ok h
  apply advances_move
  unfold remaining at hn
  omega

/-- A value computed from `n` bytes is that of the bytes that are read. -/
theorem bind_read_eq_ok {α : Type} {r r' : Reader} {n : Nat} {a : α} {f : List UInt8 → α}
    (h : (do let (bytes, r') ← r.read n; pure (f bytes, r') : Except Cause (α × Reader)) = .ok (a, r')) :
    ∃ bytes, r.read n = .ok (bytes, r') ∧ a = f bytes := by
  cases hr : r.read n with
  | error c => rw [hr] at h; cases h
  | ok p =>
      rw [hr] at h
      obtain ⟨rfl, rfl⟩ := Prod.mk.inj (Except.ok.inj h)
      exact ⟨p.1, rfl, rfl⟩

/-- An unsigned number is read from its bytes, in the byte order in force. -/
theorem readUnsigned_eq_ok {r r' : Reader} {width : Nat} {n : UInt64}
    (h : r.readUnsigned width = .ok (n, r')) : isWidth width = true ∧
      ∃ bytes, r.read width = .ok (bytes, r') ∧ n = UInt64.ofNat (r.byteOrder.value bytes) := by
  unfold readUnsigned at h
  by_cases hw : isWidth width = true
  · rw [if_pos hw] at h; exact ⟨hw, bind_read_eq_ok h⟩
  · rw [if_neg hw] at h; cases h

/-- A signed number is read from its bytes, in the byte order in force. -/
theorem readSigned_eq_ok {r r' : Reader} {width : Nat} {n : Int64}
    (h : r.readSigned width = .ok (n, r')) : isWidth width = true ∧
      ∃ bytes, r.read width = .ok (bytes, r') ∧ n = Int64.ofInt (r.byteOrder.signedValue bytes) := by
  unfold readSigned at h
  by_cases hw : isWidth width = true
  · rw [if_pos hw] at h; exact ⟨hw, bind_read_eq_ok h⟩
  · rw [if_neg hw] at h; cases h

theorem readBinary32_eq_ok {r r' : Reader} {x : Binary64} (h : r.readBinary32 = .ok (x, r')) :
    ∃ bytes, r.read 4 = .ok (bytes, r') ∧
      x = Binary64.ofBinary32 (UInt32.ofNat (r.byteOrder.value bytes)) := by
  unfold readBinary32 at h
  exact bind_read_eq_ok h

theorem readBinary64_eq_ok {r r' : Reader} {x : Binary64} (h : r.readBinary64 = .ok (x, r')) :
    ∃ bytes, r.read 8 = .ok (bytes, r') ∧ x = ⟨UInt64.ofNat (r.byteOrder.value bytes)⟩ := by
  unfold readBinary64 at h
  exact bind_read_eq_ok h

theorem readText_eq_ok {r r' : Reader} {n : Nat} {e : Text.Encoding} {t : String}
    (h : r.readText n e = .ok (t, r')) :
    ∃ bytes, r.read n = .ok (bytes, r') ∧ t = Text.decode e bytes := by
  unfold readText at h
  exact bind_read_eq_ok h

/-- A terminated text takes its terminator, and its text is what stands before it. -/
theorem readTerminated_eq_ok {r r' : Reader} {e : Text.Encoding} {t : String}
    (h : r.readTerminated e = .ok (t, r')) :
    ∃ bytes, r.read (min ((r.unread.takeWhile (· != 0)).length + 1) r.unread.length)
        = .ok (bytes, r') ∧ t = Text.decode e (r.unread.takeWhile (· != 0)) := by
  unfold readTerminated at h
  exact bind_read_eq_ok (f := fun _ => Text.decode e (r.unread.takeWhile (· != 0))) h

/-- Padding is skipped inside the scope; a position behind the scope stays where it is. -/
theorem align_eq_ok {r r' : Reader} {n pad : Nat} (h : r.align n = .ok (pad, r')) :
    pad = r.padding n ∧ r' = { r with pos := r.pos + pad } ∧ r.pos + pad ≤ max r.pos r.scope.stop := by
  unfold align at h
  by_cases hn : n ≤ 1
  · rw [if_pos hn] at h
    obtain ⟨rfl, rfl⟩ := Prod.mk.inj (Except.ok.inj h)
    have hpad : 0 = r.padding n := by
      unfold padding
      obtain rfl | rfl : n = 0 ∨ n = 1 := by omega
      · simp only [Nat.zero_sub, Nat.zero_mod]
      · simp only [Nat.mod_one]
    exact ⟨hpad, rfl, Nat.le_max_left _ _⟩
  · by_cases hs : r.pos + r.padding n ≤ r.scope.stop
    · rw [if_neg hn, if_pos hs] at h
      obtain ⟨rfl, rfl⟩ := Prod.mk.inj (Except.ok.inj h)
      exact ⟨rfl, rfl, Nat.le_trans hs (Nat.le_max_right _ _)⟩
    · rw [if_neg hn, if_neg hs] at h; cases h

/-- The next multiple lies behind the end of the scope. -/
def LacksRoom (r : Reader) (n : Nat) : Prop := 1 < n ∧ r.scope.stop < r.pos + r.padding n

/-- Without room for the padding, aligning says how far it would get beyond the scope. -/
theorem LacksRoom.align_eq {r : Reader} {n : Nat} (h : r.LacksRoom n) :
    r.align n = .error (.alignTooFar n (r.pos + r.padding n - r.scope.stop)) := by
  unfold align
  rw [if_neg (Nat.not_le_of_lt h.1), if_neg (Nat.not_le_of_lt h.2)]

theorem lacksRoom_or (r : Reader) (n : Nat) : r.LacksRoom n ∨ ∃ p, r.align n = .ok p := by
  unfold align
  by_cases hn : n ≤ 1
  · exact Or.inr ⟨_, if_pos hn⟩
  · by_cases hs : r.pos + r.padding n ≤ r.scope.stop
    · exact Or.inr ⟨_, (if_neg hn).trans (if_pos hs)⟩
    · exact Or.inl ⟨Nat.lt_of_not_le hn, Nat.lt_of_not_le hs⟩

end Reader

/-! ## Reading steps -/

/-- The run `r'` is `r` with a reader further on. -/
structure Run.Reads (r r' : Run) : Prop where
  rest : r' = { r with reader := r'.reader }
  reader : r.reader.Advances r'.reader

namespace Run.Reads

theorem refl (r : Run) : r.Reads r := ⟨rfl, .refl _⟩

theorem trans {r r' r'' : Run} (h : r.Reads r') (h' : r'.Reads r'') : r.Reads r'' := by
  refine ⟨?_, h.reader.trans h'.reader⟩
  rw [h'.rest, h.rest]

end Run.Reads

namespace Decoding

open Outcome (ensures_done ensures_failed)

variable {α β : Type}

/-- A step that only reads, whether it fails or not, and leaves it to others to say where it failed. -/
def Reading (x : Decoding α) : Prop :=
  ∀ r, (x r).Ensures (fun _ r' => r.Reads r') (fun e r' => r.Reads r' ∧ e.place = none)

namespace Reading

/-- A step that only reads leaves all but the reader as it was. -/
theorem reads {x : Decoding α} (h : x.Reading) {r r' : Run} {a : α} (hx : x r = .done a r') :
    r.Reads r' := by
  have := (h r).2
  rw [hx] at this
  exact this

theorem pure (a : α) : Reading (pure a) := fun r => ensures_done (.refl r)

theorem bind {x : Decoding α} {f : α → Decoding β} (hx : x.Reading) (hf : ∀ a, (f a).Reading) :
    (x >>= f).Reading := by
  intro r
  refine ensures_bind ((hx r).mono (fun a r' h => ?_) (fun _ _ h => h))
  exact (hf a r').mono (fun _ _ h' => h.trans h') (fun _ _ h' => ⟨h.trans h'.1, h'.2⟩)

theorem map {x : Decoding α} (f : α → β) (hx : x.Reading) : (f <$> x).Reading := by
  rw [map_eq_pure_bind]
  exact hx.bind fun a => .pure (f a)

theorem ite {c : Prop} [Decidable c] {x y : Decoding α} (hx : x.Reading) (hy : y.Reading) :
    (if c then x else y).Reading := by
  split
  · exact hx
  · exact hy

theorem fail (c : Cause) : (fail c : Decoding α).Reading := fun r => ensures_failed ⟨.refl r, rfl⟩

theorem run : run.Reading := fun r => ensures_done (.refl r)

theorem pos : pos.Reading := fun r => ensures_done (.refl r)

/-- Binding a name is reading, too: names are no part of what a frame is. -/
theorem bindName (name : String) (v : Value) : (bindName name v).Reading := fun r =>
  ensures_done ⟨rfl, r.reader.advances_bind name v⟩

theorem read {f : Reader → Except Cause (α × Reader)}
    (h : ∀ r a r', f r = .ok (a, r') → r.Advances r') : (read f).Reading := by
  intro r
  unfold Decoding.read
  cases hf : f r.reader with
  | ok p => exact ensures_done ⟨rfl, h _ _ _ hf⟩
  | error c => exact ensures_failed ⟨.refl r, rfl⟩

end Reading

/-- A reading step that leaves the run as it is, whether it fails or not. -/
def Unmoving (x : Decoding α) : Prop :=
  ∀ r, (x r).Ensures (fun _ r' => r' = r) (fun e r' => r' = r ∧ e.place = none)

namespace Unmoving

theorem reading {x : Decoding α} (h : x.Unmoving) : x.Reading := fun r =>
  (h r).mono (fun _ _ h => h ▸ .refl r) (fun _ _ h => ⟨h.1 ▸ .refl r, h.2⟩)

/-- A step that moves nothing ends in the run it started from. -/
theorem eq {x : Decoding α} (h : x.Unmoving) {r r' : Run} {a : α} (hx : x r = .done a r') : r' = r := by
  have := (h r).2
  rw [hx] at this
  exact this

theorem pure (a : α) : Unmoving (pure a) := fun _ => ensures_done rfl

theorem fail (c : Cause) : (fail c : Decoding α).Unmoving := fun _ => ensures_failed ⟨rfl, rfl⟩

theorem run : run.Unmoving := fun _ => ensures_done rfl

theorem bind {x : Decoding α} {f : α → Decoding β} (hx : x.Unmoving) (hf : ∀ a, (f a).Unmoving) :
    (x >>= f).Unmoving := by
  intro r
  refine ensures_bind ((hx r).mono (fun a r' h => ?_) (fun _ _ h => h))
  subst h
  exact hf a r'

theorem ite {c : Prop} [Decidable c] {x y : Decoding α} (hx : x.Unmoving) (hy : y.Unmoving) :
    (if c then x else y).Unmoving := by
  split
  · exact hx
  · exact hy

theorem map {x : Decoding α} (f : α → β) (hx : x.Unmoving) : (f <$> x).Unmoving := by
  rw [map_eq_pure_bind]
  exact hx.bind fun a => .pure (f a)

theorem mapM {f : α → Decoding β} (hf : ∀ a, (f a).Unmoving) (as : List α) :
    (as.mapM f).Unmoving := by
  induction as with
  | nil => exact .pure []
  | cons a as ih =>
      rw [List.mapM_cons]
      exact (hf a).bind fun b => ih.bind fun bs => .pure (b :: bs)

/-- Evaluating an expression moves nothing, whether it has a value or not. -/
theorem eval (e : Expression) : (eval e).Unmoving := by
  intro r
  unfold Decoding.eval
  cases e.tree.eval r.reader.environment
  · exact ensures_failed ⟨rfl, rfl⟩
  · exact ensures_done rfl

theorem integer (v : Value) : (integer v).Unmoving := by
  intro r
  unfold Decoding.integer
  cases v.toInt
  · exact ensures_failed ⟨rfl, rfl⟩
  · exact ensures_done rfl

theorem holds (e : Expression) : (holds e).Unmoving := (eval e).bind fun _ => .pure _

theorem evalNat (role : String) (e : Expression) : (evalNat role e).Unmoving :=
  (eval e).bind fun v => (integer v).bind fun _ => .ite (.fail _) (.pure _)

end Unmoving

end Decoding

namespace Decoder

open Decoding Outcome

variable (d : Decoder)

theorem unmoving_structDef (name : String) : (d.structDef name).Unmoving := by
  unfold structDef
  cases d.schema.structs.get? name
  · exact .fail _
  · exact .pure _

theorem unmoving_enumDef (name : String) : (d.enumDef name).Unmoving := by
  unfold enumDef
  cases d.schema.enums.get? name
  · exact .fail _
  · exact .pure _

theorem unmoving_flagsDef (name : String) : (d.flagsDef name).Unmoving := by
  unfold flagsDef
  cases d.schema.flags.get? name
  · exact .fail _
  · exact .pure _

/-- Finding out a size moves nothing, even where it is computed. -/
theorem unmoving_fieldSize (f : Field) : (fieldSize f).Unmoving := by
  unfold fieldSize
  cases f.size with
  | none => exact .fail _
  | some s =>
      cases s with
      | fixed n => exact .pure _
      | remaining => exact Unmoving.run.bind fun _ => .pure _
      | computed e => exact .evalNat _ _

theorem unmoving_entryOf (enumRef : Option String) (value : Int64) : (d.entryOf enumRef value).Unmoving := by
  unfold entryOf
  cases enumRef with
  | none => exact .pure _
  | some name => exact (d.unmoving_enumDef name).bind fun _ => .pure _

theorem unmoving_statesOf (flagsRef : Option String) (register : UInt64) :
    (d.statesOf flagsRef register).Unmoving := by
  unfold statesOf
  cases flagsRef with
  | none => exact .pure _
  | some name => exact (d.unmoving_flagsDef name).bind fun _ => .pure _

theorem reading_number (width : Nat) (isSigned : Bool) : (number width isSigned).Reading := by
  unfold number
  cases isSigned
  · refine Reading.map _ (.read fun r n r' h => ?_)
    obtain ⟨-, bytes, hr, -⟩ := Reader.readUnsigned_eq_ok h
    exact Reader.advances_read hr
  · refine Reading.map _ (.read fun r n r' h => ?_)
    obtain ⟨-, bytes, hr, -⟩ := Reader.readSigned_eq_ok h
    exact Reader.advances_read hr

/-- An integer is read once, and its enum, flags and checksum move nothing more. -/
theorem reading_integer (f : Field) (siblings : Option (List Node)) (width : Nat) (isSigned : Bool) :
    (d.integer f siblings width isSigned).Reading := by
  refine (reading_number width isSigned).bind fun n => (Reading.bindName _ _).bind fun _ => ?_
  refine (d.unmoving_statesOf _ _).reading.bind fun states => ?_
  cases states with
  | some states => exact .pure _
  | none =>
      exact (d.unmoving_entryOf _ _).reading.bind fun _ => Reading.run.bind fun _ => .pure _

theorem reading_readBytes (n : Nat) : (Decoding.read (·.read n)).Reading :=
  .read fun _ _ _ h => Reader.advances_read h

theorem reading_bytes (f : Field) : (bytes f).Reading :=
  (unmoving_fieldSize f).reading.bind fun n => (reading_readBytes n).bind fun _ => .pure _

theorem reading_ascii (f : Field) : (d.ascii f).Reading :=
  (unmoving_fieldSize f).reading.bind fun n => (reading_readBytes n).bind fun _ =>
    (d.unmoving_statesOf _ _).reading.bind fun _ => (Reading.bindName _ _).bind fun _ => .pure _

theorem reading_text (f : Field) (e : Text.Encoding) : (text f e).Reading := by
  refine (unmoving_fieldSize f).reading.bind fun n => ?_
  refine Reading.bind (.read fun r t r' h => ?_) fun _ => (Reading.bindName _ _).bind fun _ => .pure _
  obtain ⟨bytes, hr, -⟩ := Reader.readText_eq_ok h
  exact Reader.advances_read hr

theorem reading_terminated (f : Field) (e : Text.Encoding) : (terminated f e).Reading := by
  refine Reading.bind (.read fun r t r' h => ?_) fun _ => (Reading.bindName _ _).bind fun _ => .pure _
  obtain ⟨bytes, hr, -⟩ := Reader.readTerminated_eq_ok h
  exact Reader.advances_read hr

theorem unmoving_bitPart (register : UInt64) (b : Schema.BitRange) :
    (d.bitPart register b).Unmoving := by
  unfold bitPart
  exact .ite ((d.unmoving_entryOf _ _).bind fun _ => .pure _) (.fail _)

/-- A bitfield is read once, and its parts move nothing more. -/
theorem reading_bitfield (f : Field) : (d.bitfield f).Reading := by
  refine (unmoving_fieldSize f).reading.bind fun n => .ite ?_ (.fail _)
  refine Reading.bind (.read fun r m r' h => ?_) fun register => (Reading.bindName _ _).bind fun _ =>
    (Unmoving.mapM (d.unmoving_bitPart register) f.bitRanges).reading.bind fun _ => .pure _
  obtain ⟨-, bytes, hr, -⟩ := Reader.readUnsigned_eq_ok h
  exact Reader.advances_read hr

theorem reading_computed (f : Field) : (computed f).Reading := by
  unfold computed
  cases f.value with
  | none => exact .fail _
  | some e => exact (Unmoving.eval e).reading.bind fun v => (Reading.bindName _ v).bind fun _ => .pure _

theorem reading_binary32 : (Node.Content.float <$> Decoding.read (·.readBinary32)).Reading := by
  refine Reading.map _ (.read fun r x r' h => ?_)
  obtain ⟨bytes, hr, -⟩ := Reader.readBinary32_eq_ok h
  exact Reader.advances_read hr

theorem reading_binary64 : (Node.Content.float <$> Decoding.read (·.readBinary64)).Reading := by
  refine Reading.map _ (.read fun r x r' h => ?_)
  obtain ⟨bytes, hr, -⟩ := Reader.readBinary64_eq_ok h
  exact Reader.advances_read hr

/-- A leaf reads what its content does. -/
theorem reading_leaf (f : Field) {content : Decoding Node.Content} (h : content.Reading) :
    (leaf f content).Reading :=
  Reading.pos.bind fun _ => h.bind fun _ => Reading.pos.bind fun _ => .pure _

theorem unmoving_chosenCase (v : Value) (cases : List Schema.SwitchCase) :
    (chosenCase v cases).Unmoving := by
  induction cases with
  | nil => exact .pure _
  | cons c rest ih =>
      unfold chosenCase
      exact (Unmoving.eval _).bind fun _ => .ite (.pure _) ih

theorem unmoving_isExhausted : isExhausted.Unmoving := Unmoving.run.bind fun _ => .pure _

theorem unmoving_checkCancelled : d.checkCancelled.Unmoving := .ite (.fail _) (.pure _)

theorem unmoving_checkElements (count : Nat) : (d.checkElements count).Unmoving := .ite (.fail _) (.pure _)

/-- Aligning reads nothing but moves inside the scope. -/
theorem reading_align (multiple : Option UInt64) : (align multiple).Reading := by
  unfold align
  cases multiple with
  | none => exact .pure _
  | some n =>
      refine Reading.bind (.read fun r pad r' h => ?_) fun _ => .pure _
      obtain ⟨-, rfl, hp⟩ := Reader.align_eq_ok h
      exact Reader.advances_move hp

theorem unmoving_isPresent (f : Field) : (isPresent f).Unmoving := by
  unfold isPresent
  cases f.condition with
  | none => exact .pure _
  | some e => exact .holds e

/-- A field that is passed over has a condition. -/
theorem condition_of_isPresent {f : Field} {r r' : Run} (h : isPresent f r = .done false r') :
    f.condition.isSome = true := by
  unfold isPresent at h
  cases hc : f.condition with
  | none => rw [hc] at h; cases h
  | some e => rfl

theorem unmoving_validity (f : Field) : (validity f).Unmoving := by
  unfold validity
  cases f.validate with
  | none => exact .pure _
  | some e => exact .map _ (.holds e)

/-- A seek goes to an offset of the buffer, and yields the one before. -/
theorem seek_ensures (f : Field) (r : Run) :
    (seek f r).Ensures
      (fun before r' => (f.seek.isSome = false ∧ before = none ∧ r' = r) ∨
        (f.seek.isSome = true ∧ before = some r.pos ∧ ∃ target, target ≤ r.reader.data.size ∧
          r' = { r with reader := { r.reader with pos := target } }))
      (fun _ r' => r' = r) := by
  unfold seek
  cases f.seek with
  | none => exact ensures_done (Or.inl ⟨rfl, rfl, rfl⟩)
  | some e =>
      refine ensures_bind ((Unmoving.evalNat "seek" e r).mono (fun target r' h => ?_) (fun _ _ h => h.1))
      subst h
      by_cases ht : target ≤ r'.reader.data.size
      · have hs : r'.reader.seek target = .ok { r'.reader with pos := target } := if_pos ht
        rw [bind_done (rfl : pos r' = .done r'.pos r'), bind_done (move_ok (f := fun r => r.seek target) hs)]
        exact ensures_done (Or.inr ⟨rfl, rfl, target, ht, rfl⟩)
      · have hs : r'.reader.seek target = .error (.seekTooFar target r'.reader.data.size) := if_neg ht
        rw [bind_done (rfl : pos r' = .done r'.pos r'), bind_failed (move_error (f := fun r => r.seek target) hs)]
        exact ensures_failed rfl

end Decoder

end BinaryFormat
