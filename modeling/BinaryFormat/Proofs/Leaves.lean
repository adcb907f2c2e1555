import BinaryFormat.Proofs.Integers

/-!
# What the bytes of a leaf show

A leaf is determined by the bytes between its offset and its end, by the type of its field and by the
byte order in force. The relation is written down here without reading anything, and then every leaf that is
read is shown to be in it.
-/

namespace BinaryFormat

open Schema (Field)

/-- The encoding of a text that ends at its first NUL byte. -/
def FieldType.terminatedEncoding? : FieldType → Option Text.Encoding
  | .asciiz => some .ascii
  | .utf8z => some .utf8
  | _ => none

/-- The node is there for the nodes below it. -/
def Node.isBranch (n : Node) : Bool :=
  match n.content with
  | .struct | .array => true
  | _ => false

/-- Some bytes, read as a field type in a byte order, hold this content. -/
inductive Shows (order : ByteOrder) (type : FieldType) (bytes : List UInt8) : Node.Content → Prop where
  | integer {isSigned : Bool} {i : Node.IntegerContent} : type.layout? = some (bytes.length, isSigned) →
      i.value.toInt = order.integer isSigned bytes → Shows order type bytes (.integer i)
  | flags {isSigned : Bool} {raw : UInt64} {states : List Schema.FlagState} :
      type.layout? = some (bytes.length, isSigned) →
      (raw.toNat : Int) = order.integer isSigned bytes % UInt64.size →
      Shows order type bytes (.flags raw states)
  | binary32 : type = .f32 → bytes.length = 4 →
      Shows order type bytes (.float (Binary64.ofBinary32 (UInt32.ofNat (order.value bytes))))
  | binary64 : type = .f64 → bytes.length = 8 →
      Shows order type bytes (.float ⟨UInt64.ofNat (order.value bytes)⟩)
  | bytes {isExpected : Option Bool} : type = .bytes → Shows order type bytes (.bytes bytes isExpected)
  | text {e : Text.Encoding} {states : Option (List Schema.FlagState)} : type.encoding? = some e →
      Shows order type bytes (.text (Text.decode e bytes) e states)
  | terminated {e : Text.Encoding} {body terminator : List UInt8} : type.terminatedEncoding? = some e →
      bytes = body ++ terminator → (terminator = [] ∨ terminator = [0]) → 0 ∉ body →
      Shows order type bytes (.text (Text.decode e body) e none)
  | bitfield {raw : UInt64} {parts : List Node.BitPart} : type = .bitfield → bytes.length ≤ 4 →
      raw.toNat = order.value bytes → Shows order type bytes (.bitfield raw parts)
  | computed {v : Value} : type = .virtual → bytes = [] → Shows order type bytes (.computed v)

/-- A computed value is read from no bytes. -/
theorem Shows.eq_nil {order : ByteOrder} {bytes : List UInt8} {c : Node.Content}
    (h : Shows order .virtual bytes c) : bytes = [] := by
  cases h with
  | computed _ hb => exact hb
  | integer hl _ | flags hl _ => cases hl
  | text he | terminated he _ _ _ => cases he
  | binary32 ht _ | binary64 ht _ | bytes ht | bitfield ht _ _ => cases ht

/-- Content that shows its bytes is not that of a failed field. -/
theorem Shows.isFailed_eq {order : ByteOrder} {type : FieldType} {n : Node} {bytes : List UInt8}
    (h : Shows order type bytes n.content) : n.isFailed = false := by
  unfold Node.isFailed
  generalize n.content = c at h
  cases h <;> rfl

/-- A node of which the bytes are shown is neither a struct nor an array. -/
theorem Shows.isBranch_eq {order : ByteOrder} {type : FieldType} {n : Node} {bytes : List UInt8}
    (h : Shows order type bytes n.content) : n.isBranch = false := by
  unfold Node.isBranch
  generalize n.content = c at h
  cases h <;> rfl

/-! ## Steps that stay where they are -/

namespace Decoding

variable {α : Type}

/-- The step leaves the position as it is. -/
def Stays (x : Decoding α) : Prop := ∀ r a r', x r = .done a r' → r'.pos = r.pos

namespace Stays

theorem pos_eq {x : Decoding α} (h : x.Stays) {r r' : Run} {a : α} (hx : x r = .done a r') :
    r'.pos = r.pos := h r a r' hx

/-- A step that changes nothing stays where it is. -/
theorem of_unmoving {x : Decoding α} (h : x.Unmoving) : x.Stays := by
  intro r a r' hx
  rw [h.eq hx]

theorem bindName (name : String) (v : Value) : (bindName name v).Stays := by
  intro r a r' hx
  obtain ⟨-, rfl⟩ := Outcome.done.inj hx
  show (r.reader.bind name v).pos = r.reader.pos
  unfold Reader.bind
  cases r.reader.scopes <;> rfl

end Stays

end Decoding

namespace Reader

/-- The first bytes of a window are a window. -/
theorem take_window (b : Buffer) {start stop n : Nat} (h : n ≤ stop - start) :
    (b.window start stop).take n = b.window start (start + n) := by
  rw [Buffer.window_eq, Buffer.window_eq, List.take_drop, List.take_take]
  rcases Nat.eq_zero_or_pos n with rfl | hn
  · rw [List.drop_eq_nil_of_le (by rw [List.length_take]; omega),
      List.drop_eq_nil_of_le (by rw [List.length_take]; omega)]
  · rw [Nat.min_eq_left (by omega)]

/-- What was read lies between the positions before and after. -/
theorem window_of_read {r r' : Reader} {n : Nat} {bytes : List UInt8} (h : r.read n = .ok (bytes, r')) :
    r.data.window r.pos r'.pos = bytes := by
  obtain ⟨rfl, rfl, -⟩ := read_eq_ok h
  rfl

/-- Reading up to the first NUL byte reads what is before it, and it too if there is one. -/
theorem take_terminated (unread : List UInt8) :
    0 ∉ unread.takeWhile (· != 0) ∧
      ∃ terminator, (terminator = [] ∨ terminator = [0]) ∧
        unread.take (min ((unread.takeWhile (· != 0)).length + 1) unread.length) =
          unread.takeWhile (· != 0) ++ terminator := by
  induction unread with
  | nil => exact ⟨nofun, [], Or.inl rfl, rfl⟩
  | cons b rest ih =>
      obtain ⟨hbody, terminator, ht, htake⟩ := ih
      -- the first byte is the terminator, or it goes before what the rest has
      by_cases hb : b = 0
      · subst hb
        exact ⟨nofun, [0], Or.inr rfl, by simp⟩
      · have hcons : (b :: rest).takeWhile (· != 0) = b :: rest.takeWhile (· != 0) :=
          List.takeWhile_cons_of_pos (by simpa using hb)
        rw [hcons]
        refine ⟨?_, terminator, ht, ?_⟩
        · intro h0
          rcases List.mem_cons.mp h0 with h0 | h0
          · exact hb h0.symm
          · exact hbody h0
        · rw [List.length_cons, List.length_cons, Nat.add_min_add_right, List.take_succ_cons, htake]
          rfl

end Reader

/-! ## Reading leaves -/

namespace Decoder

open Decoding

variable (d : Decoder) (f : Field) {r r' : Run} {c : Node.Content}

/-- The content is what the bytes up to the next position show. -/
def Covers (type : FieldType) (r r' : Run) (c : Node.Content) : Prop :=
  Shows r.reader.byteOrder type (r.reader.data.window r.pos r'.pos) c

/-- A number is read from as many bytes as it is wide, in the byte order in force. -/
theorem number_eq_done {width : Nat} {isSigned : Bool} {n : Node.Number}
    (h : number width isSigned r = .done n r') :
    ∃ bytes, r.reader.read width = .ok (bytes, r'.reader) ∧
      n.toInt = r.reader.byteOrder.integer isSigned bytes := by
  unfold number at h
  cases isSigned with
  | false =>
      rw [if_neg (by decide), map_eq_pure_bind] at h
      obtain ⟨m, r₁, hr, hp⟩ := bind_eq_done h
      obtain ⟨reader, hread, rfl⟩ := read_eq_done hr
      obtain ⟨rfl, rfl⟩ := Outcome.done.inj hp
      obtain ⟨bytes, hb, hv⟩ := Reader.readUnsigned_exact hread
      exact ⟨bytes, hb, congrArg Int.ofNat hv⟩
  | true =>
      rw [if_pos rfl, map_eq_pure_bind] at h
      obtain ⟨m, r₁, hr, hp⟩ := bind_eq_done h
      obtain ⟨reader, hread, rfl⟩ := read_eq_done hr
      obtain ⟨rfl, rfl⟩ := Outcome.done.inj hp
      obtain ⟨bytes, hb, hv⟩ := Reader.readSigned_exact hread
      exact ⟨bytes, hb, hv⟩

/-- The bytes that were read are those up to the next position, wherever nothing moves afterwards. -/
theorem covers_of_read {type : FieldType} {n : Nat} {bytes : List UInt8} {reader : Reader}
    (hread : r.reader.read n = .ok (bytes, reader)) (hpos : r'.pos = reader.pos)
    (hs : Shows r.reader.byteOrder type bytes c) : Covers type r r' c := by
  show Shows _ _ (r.reader.data.window r.reader.pos r'.pos) c
  rw [hpos, Reader.window_of_read hread]
  exact hs

/-- An integer shows its bytes as a number, or as a register of flags. -/
theorem covers_integer (siblings : Option (List Node)) {width : Nat} {isSigned : Bool}
    (hl : f.type.layout? = some (width, isSigned)) (h : d.integer f siblings width isSigned r = .done c r') :
    Covers f.type r r' c := by
  obtain ⟨n, r₁, hn, h₁⟩ := bind_eq_done h
  obtain ⟨bytes, hread, hv⟩ := number_eq_done hn
  obtain ⟨_, r₂, hbind, h₂⟩ := bind_eq_done h₁
  obtain ⟨states, r₃, hstates, h₃⟩ := bind_eq_done h₂
  -- Neither the name nor the flags move, so the bytes are those that were read.
  have hpos : r₃.pos = r₁.pos :=
    (Stays.of_unmoving (d.unmoving_statesOf _ _)).pos_eq hstates |>.trans ((Stays.bindName _ _).pos_eq hbind)
  have hlayout : f.type.layout? = some (bytes.length, isSigned) := Reader.length_of_read hread ▸ hl
  cases states with
  | some states =>
      obtain ⟨rfl, rfl⟩ := Outcome.done.inj h₃
      have hraw := n.toNat_toUInt64
      rw [hv] at hraw
      exact covers_of_read hread hpos (.flags hlayout hraw)
  | none =>
      obtain ⟨entry, r₄, hentry, h₄⟩ := bind_eq_done h₃
      have hpos' : r₄.pos = r₃.pos := (Stays.of_unmoving (d.unmoving_entryOf _ _)).pos_eq hentry
      obtain ⟨rfl, rfl⟩ := Outcome.done.inj h₄
      exact covers_of_read hread (hpos'.trans hpos) (.integer hlayout hv)

/-- A floating-point number is made of as many bytes as are read for it. -/
theorem covers_float {type : FieldType} {x : Reader → Except Cause (Binary64 × Reader)} {n : Nat}
    {value : ByteOrder → List UInt8 → Binary64}
    (hx : ∀ {r r' : Reader} {v : Binary64}, x r = .ok (v, r') →
      ∃ bytes, r.read n = .ok (bytes, r') ∧ v = value r.byteOrder bytes)
    (hs : ∀ {order : ByteOrder} {bytes : List UInt8}, bytes.length = n →
      Shows order type bytes (.float (value order bytes)))
    (h : (Node.Content.float <$> Decoding.read x) r = .done c r') : Covers type r r' c := by
  rw [map_eq_pure_bind] at h
  obtain ⟨v, r₁, hr, hp⟩ := bind_eq_done h
  obtain ⟨reader, hread, rfl⟩ := read_eq_done hr
  obtain ⟨rfl, rfl⟩ := Outcome.done.inj hp
  obtain ⟨bytes, hb, rfl⟩ := hx hread
  exact covers_of_read hb rfl (hs (Reader.length_of_read hb))

/-- A terminated text shows what stands before its terminator. -/
theorem covers_terminated {e : Text.Encoding} (hf : f.type.terminatedEncoding? = some e)
    (h : terminated f e r = .done c r') : Covers f.type r r' c := by
  obtain ⟨t, r₁, hr, h₁⟩ := bind_eq_done h
  obtain ⟨_, r₂, hbind, h₂⟩ := bind_eq_done h₁
  obtain ⟨reader, hread, rfl⟩ := read_eq_done hr
  obtain ⟨bytes, hb, rfl⟩ := Reader.readTerminated_eq_ok hread
  have hpos := (Stays.bindName _ _).pos_eq hbind
  obtain ⟨rfl, rfl⟩ := Outcome.done.inj h₂
  refine covers_of_read hb hpos ?_
  -- what was read is the text before the first NUL byte, and that byte if there is one
  obtain ⟨rfl, -, hn, -⟩ := Reader.read_eq_ok hb
  rw [← Reader.take_window _ hn]
  show Shows _ _ (r.reader.unread.take _) _
  obtain ⟨hbody, terminator, ht, htake⟩ := Reader.take_terminated r.reader.unread
  rw [htake]
  exact .terminated hf rfl ht hbody

/-- A bitfield shows its bytes as a register; its parts are not judged by them. -/
theorem covers_bitfield (hf : f.type = .bitfield) (h : d.bitfield f r = .done c r') :
    Covers f.type r r' c := by
  obtain ⟨n, r₁, hn, h₁⟩ := bind_eq_done h
  obtain rfl := (unmoving_fieldSize f).eq hn
  by_cases hsize : n = 1 ∨ n = 2 ∨ n = 4
  · rw [if_pos hsize] at h₁
    obtain ⟨raw, r₂, hr, h₂⟩ := bind_eq_done h₁
    obtain ⟨_, r₃, hbind, h₃⟩ := bind_eq_done h₂
    obtain ⟨parts, r₄, hparts, h₄⟩ := bind_eq_done h₃
    obtain ⟨reader, hread, rfl⟩ := read_eq_done hr
    obtain ⟨bytes, hb, hv⟩ := Reader.readUnsigned_exact hread
    have hpos := ((Stays.of_unmoving (.mapM (d.unmoving_bitPart raw) _)).pos_eq hparts).trans
      ((Stays.bindName _ _).pos_eq hbind)
    have hlen := Reader.length_of_read hb
    obtain ⟨rfl, rfl⟩ := Outcome.done.inj h₄
    exact covers_of_read hb hpos (.bitfield hf (by omega) hv)
  · rw [if_neg hsize] at h₁
    cases h₁

theorem covers_bytes (hf : f.type = .bytes) (h : bytes f r = .done c r') : Covers f.type r r' c := by
  obtain ⟨n, r₁, hn, h₁⟩ := bind_eq_done h
  obtain ⟨bytes, r₂, hr, h₂⟩ := bind_eq_done h₁
  obtain rfl := (unmoving_fieldSize f).eq hn
  obtain ⟨reader, hb, rfl⟩ := read_eq_done hr
  obtain ⟨rfl, rfl⟩ := Outcome.done.inj h₂
  exact covers_of_read hb rfl (.bytes hf)

theorem covers_ascii (hf : f.type = .ascii) (h : d.ascii f r = .done c r') : Covers f.type r r' c := by
  obtain ⟨n, r₁, hn, h₁⟩ := bind_eq_done h
  obtain ⟨bytes, r₂, hr, h₂⟩ := bind_eq_done h₁
  obtain ⟨states, r₃, hstates, h₃⟩ := bind_eq_done h₂
  obtain ⟨_, r₄, hbind, h₄⟩ := bind_eq_done h₃
  obtain rfl := (unmoving_fieldSize f).eq hn
  obtain ⟨reader, hb, rfl⟩ := read_eq_done hr
  have hpos := ((Stays.bindName _ _).pos_eq hbind).trans
    ((Stays.of_unmoving (d.unmoving_statesOf _ _)).pos_eq hstates)
  obtain ⟨rfl, rfl⟩ := Outcome.done.inj h₄
  exact covers_of_read hb hpos (.text (by rw [hf]; rfl))

theorem covers_text {e : Text.Encoding} (hf : f.type.encoding? = some e) (h : text f e r = .done c r') :
    Covers f.type r r' c := by
  obtain ⟨n, r₁, hn, h₁⟩ := bind_eq_done h
  obtain ⟨t, r₂, hr, h₂⟩ := bind_eq_done h₁
  obtain ⟨_, r₃, hbind, h₃⟩ := bind_eq_done h₂
  obtain rfl := (unmoving_fieldSize f).eq hn
  obtain ⟨reader, hread, rfl⟩ := read_eq_done hr
  obtain ⟨bytes, hb, rfl⟩ := Reader.readText_eq_ok hread
  have hpos := (Stays.bindName _ _).pos_eq hbind
  obtain ⟨rfl, rfl⟩ := Outcome.done.inj h₃
  exact covers_of_read hb hpos (.text hf)

/-- A computed value shows no bytes. -/
theorem covers_computed (hf : f.type = .virtual) (h : computed f r = .done c r') : Covers f.type r r' c := by
  unfold computed at h
  cases hv : f.value with
  | none => rw [hv] at h; cases h
  | some e =>
      rw [hv] at h
      obtain ⟨v, r₁, heval, h₁⟩ := bind_eq_done h
      obtain ⟨_, r₂, hbind, h₂⟩ := bind_eq_done h₁
      have hpos := ((Stays.bindName _ _).pos_eq hbind).trans ((Stays.of_unmoving (.eval e)).pos_eq heval)
      obtain ⟨rfl, rfl⟩ := Outcome.done.inj h₂
      refine .computed hf (List.eq_nil_of_length_eq_zero ?_)
      rw [Buffer.length_window, hpos]
      omega

variable {f} in
/-- One occurrence of a field of an integer type is an integer. -/
theorem single_eq_integer (nested : Schema.StructDef → String → Decoding Node) {width : Nat} {isSigned : Bool}
    (hf : f.type.layout? = some (width, isSigned)) (siblings : Option (List Node)) :
    single d nested f siblings = leaf f (d.integer f siblings width isSigned) := by
  unfold single
  cases ht : f.type <;> rw [ht] at hf <;> cases hf <;> rfl

/-- A field without a struct in it is a leaf that shows its bytes, and how it is read does not depend on the
options of the run. -/
theorem single_eq_leaf (s : Schema) (f : Field) (siblings : Option (List Node))
    (h : f.type ≠ .struct ∧ f.type ≠ .switch ∧ f.type ≠ .compressed) :
    ∃ content : Decoding Node.Content, content.Reading ∧
      (∀ {r c r'}, content r = .done c r' → Covers f.type r r' c) ∧
      ∀ options nested, single ⟨s, options⟩ nested f siblings = leaf f content := by
  -- The kinds without a struct ask the schema only, so any options will do to name their content.
  let d : Decoder := ⟨s, {}⟩
  have hint : ∀ {width isSigned}, f.type.layout? = some (width, isSigned) →
      (d.integer f siblings width isSigned).Reading ∧
        ∀ {r c r'}, d.integer f siblings width isSigned r = .done c r' → Covers f.type r r' c :=
    fun hl => ⟨d.reading_integer f siblings _ _, d.covers_integer f siblings hl⟩
  have htext : ∀ {e}, f.type.encoding? = some e →
      (text f e).Reading ∧ ∀ {r c r'}, text f e r = .done c r' → Covers f.type r r' c :=
    fun he => ⟨reading_text f _, covers_text f he⟩
  have hterminated : ∀ {e}, f.type.terminatedEncoding? = some e →
      (terminated f e).Reading ∧ ∀ {r c r'}, terminated f e r = .done c r' → Covers f.type r r' c :=
    fun he => ⟨reading_terminated f _, covers_terminated f he⟩
  unfold single
  cases ht : f.type with
  | u8 | u16 | u32 | u64 | i8 | i16 | i32 | i64 =>
      obtain ⟨hr, hc⟩ := hint (by rw [ht]; rfl)
      exact ⟨_, hr, ht ▸ hc, fun _ _ => rfl⟩
  | f32 =>
      have hc : ∀ {r c r'}, (Node.Content.float <$> Decoding.read (·.readBinary32)) r = .done c r' →
          Covers .f32 r r' c := covers_float Reader.readBinary32_eq_ok (.binary32 rfl)
      exact ⟨_, reading_binary32, hc, fun _ _ => rfl⟩
  | f64 =>
      have hc : ∀ {r c r'}, (Node.Content.float <$> Decoding.read (·.readBinary64)) r = .done c r' →
          Covers .f64 r r' c := covers_float Reader.readBinary64_eq_ok (.binary64 rfl)
      exact ⟨_, reading_binary64, hc, fun _ _ => rfl⟩
  | bytes => exact ⟨_, reading_bytes f, ht ▸ covers_bytes f ht, fun _ _ => rfl⟩
  | ascii => exact ⟨_, d.reading_ascii f, ht ▸ covers_ascii d f ht, fun _ _ => rfl⟩
  | utf8 | utf16le | utf16be | shiftJis | latin1 =>
      obtain ⟨hr, hc⟩ := htext (by rw [ht]; rfl)
      exact ⟨_, hr, ht ▸ hc, fun _ _ => rfl⟩
  | asciiz | utf8z =>
      obtain ⟨hr, hc⟩ := hterminated (by rw [ht]; rfl)
      exact ⟨_, hr, ht ▸ hc, fun _ _ => rfl⟩
  | bitfield => exact ⟨_, d.reading_bitfield f, ht ▸ covers_bitfield d f ht, fun _ _ => rfl⟩
  | virtual => exact ⟨_, reading_computed f, ht ▸ covers_computed f ht, fun _ _ => rfl⟩
  | struct | switch | compressed => simp [ht] at h

end Decoder

end BinaryFormat
