import Mathlib.Algebra.Ring.Nat
import BinaryFormat.Proofs.Accuracy
import BinaryFormat.Proofs.Calls

/-!
# What a stored checksum is compared with

A field may be a checksum of fields before it in its struct. Their nodes say where in the buffer the bytes are that
it covers, and the cursor may have been anywhere since. All these nodes lie in the buffer, those that stand for failed
fields among them, so that every byte they tell of is hashed, in the order in which the checksum names its fields.

What the result is compared with is the 64-bit pattern of the integer that was read. An integer that comes out negative
has a pattern that no result has, and so it never passes, not even where its bytes are those of the result.
-/

namespace BinaryFormat

open Schema (ChecksumDef Field StructDef)
open Decoding

/-! ## The bytes that are covered -/

namespace Schema.ChecksumDef

/-- The nodes that are covered: of every name the first node that has it, if there is one. -/
def covered (c : ChecksumDef) (nodes : List Node) : List Node :=
  c.fields.filterMap fun name => nodes.find? (·.name == name)

/-- The CRC-32 of the bytes that are covered. -/
def crc (c : ChecksumDef) (nodes : List Node) (data : Buffer) : UInt32 :=
  Crc32.ofBytes ((c.covered nodes).flatMap fun n => n.bytesIn data)

theorem mem_of_mem_covered {c : ChecksumDef} {nodes : List Node} {n : Node} (h : n ∈ c.covered nodes) :
    n ∈ nodes := by
  obtain ⟨name, -, hfind⟩ := List.mem_filterMap.mp h
  exact List.mem_of_find?_eq_some hfind

end Schema.ChecksumDef

/-- Taking in the bytes of one node after the other is taking in all of them. -/
theorem Crc32.foldl_update_slice {reader : Reader} {nodes : List Node} (h : ∀ n ∈ nodes, n.LiesIn reader.data)
    (start : Crc32) : nodes.foldl (fun crc n => crc.update (reader.slice n.offset n.size)) start =
      start.update (nodes.flatMap fun n => n.bytesIn reader.data) := by
  induction nodes generalizing start with
  | nil => rfl
  | cons n rest ih =>
      obtain ⟨hn, hrest⟩ := List.forall_mem_cons.mp h
      have hslice : reader.slice n.offset n.size = n.bytesIn reader.data := if_pos hn
      rw [List.foldl_cons, List.flatMap_cons, update_append, ← hslice]
      exact ih hrest _

namespace Schema.ChecksumDef

variable {c : ChecksumDef} {nodes : List Node} {reader : Reader} (hc : c.isVerifiable = true)
  (h : ∀ n ∈ nodes, n.LiesIn reader.data) (stored : UInt64)

include hc h

/-- The checksum of the bytes that are covered, as a word of 64 bits, is compared with the one that is stored. -/
theorem verdict_eq : c.verdict reader nodes stored =
    if (c.crc nodes reader.data).toUInt64 = stored then .valid else .mismatch (c.crc nodes reader.data) := by
  have hsum := Crc32.foldl_update_slice (fun n hn => h n (c.mem_of_mem_covered hn)) Crc32.start
  unfold verdict
  rw [if_pos hc]
  dsimp only
  rw [show c.fields.filterMap (fun name => nodes.find? (·.name == name)) = c.covered nodes from rfl, hsum]
  rfl

theorem verdict_eq_valid_iff :
    c.verdict reader nodes stored = .valid ↔ (c.crc nodes reader.data).toUInt64 = stored := by
  rw [verdict_eq hc h]
  split
  · exact iff_of_true rfl ‹_›
  · exact iff_of_false nofun ‹_›

/-- A checksum that does not pass says what was expected. -/
theorem verdict_valid_or_mismatch :
    c.verdict reader nodes stored = .valid ∨ c.verdict reader nodes stored = .mismatch (c.crc nodes reader.data) := by
  rw [verdict_eq hc h]
  split
  · exact .inl rfl
  · exact .inr rfl

end Schema.ChecksumDef

namespace Decoder

/-! ## The nodes found so far -/

/-- The nodes that are known in a call: those of the fields before, in the same struct. -/
def Call.found : Call → List Node
  | .struct .. | .elements .. => []
  | .fields _ _ found | .field _ _ found | .content _ _ found => found
  | .single _ _ siblings => siblings.getD []

/-- The nodes that are known in the call lie in the buffer that it reads. -/
structure Call.Grounded (c : Call) (r : Run) : Prop where
  sound : r.reader.Sound
  liesIn : ∀ n ∈ c.found, n.LiesIn r.reader.data

variable {d : Decoder} {rounds levels : Nat} {f : Field} {found : List Node} {r r' : Run}

/-- The node that an iteration of the loop over the fields adds lies in the buffer, also if it stands for a field that
failed. -/
theorem liesIn_of_iteration {p : Option Node × Bool} (hs : r.reader.Sound)
    (h : iteration d rounds (d.struct rounds levels) f found r = .done p r') :
    ∀ n ∈ p.1.toList, n.LiesIn r.reader.data := by
  obtain ⟨_, r₁, hcancelled, hmember⟩ := bind_eq_done h
  obtain rfl := d.unmoving_checkCancelled.eq hcancelled
  have hmakes := makes_member f (makes_field (fun _ name => d.makes_struct rounds levels name) rounds f found)
  have hmembers := hmakes.fits hs hmember [] [] (by split; exacts [.nil, rfl])
  rw [List.append_nil] at hmembers
  exact hmembers.liesIn

/-- What is known in a call lies in its buffer, and so does what is known in the next one. -/
theorem Calls.grounded {c c' : Call} (h : Calls d rounds c r c' r') (hr : c.Grounded r) : c'.Grounded r' := by
  cases h with
  | @body _ s _ _ _ hdescend =>
      obtain ⟨rfl, -⟩ := d.descend_eq_done hdescend
      refine ⟨?_, nofun⟩
      cases s.order with
      | none => exact hr.sound
      | some order => exact hr.sound.push (Nat.le_refl _)
  | field _ | once _ => exact ⟨hr.sound, hr.liesIn⟩
  | array _ | element _ | nested _ _ _ => exact ⟨hr.sound, nofun⟩
  -- The loop goes on with a node more, which lies in the buffer as those before it do.
  | next hstep =>
      have hreturns := (d.balanced_iteration rounds _ _ _).returns hstep
      refine ⟨hreturns.sound hr.sound, fun n hn => ?_⟩
      rw [hreturns.data]
      obtain hn | hn := List.mem_append.mp hn
      · exact hr.liesIn n hn
      · exact liesIn_of_iteration hr.sound hstep n hn
  | content hpresent happroach =>
      obtain rfl := (unmoving_isPresent _).eq hpresent
      have hreturns := returns_approach happroach
      exact ⟨hreturns.sound hr.sound, fun n hn => hreturns.data ▸ hr.liesIn n hn⟩
  | nextElement hstep =>
      have hreturns := (d.balanced_element_levels rounds _ _ _).returns hstep
      exact ⟨hreturns.sound hr.sound, nofun⟩
  | sized _ _ _ henter =>
      obtain ⟨hsize, rfl⟩ := Reader.enter_eq_ok henter
      exact ⟨hr.sound.push hsize, nofun⟩
  | unpacked => exact ⟨Reader.sound_ofBuffer _ _, nofun⟩

/-- Wherever a decode gets to, the nodes it has found lie in the buffer. -/
theorem Reaches.grounded {data : Buffer} {c : Call} (h : Reaches d rounds data c r) : c.Grounded r := by
  induction h with
  | root _ => exact ⟨Reader.sound_ofBuffer _ _, nofun⟩
  | call _ hcall ih => exact hcall.grounded ih

/-! ## The integer that is compared -/

variable {width : Nat} {isSigned : Bool}

/-- An integer that is no register of flags is a checksum if its field says so, and is compared by its pattern. -/
theorem integer_eq_done {content : Node.Content} (hf : f.flagsRef = none)
    (h : d.integer f (some found) width isSigned r = .done content r') :
    ∃ i : Node.IntegerContent, ∃ reader : Reader, content = .integer i ∧ reader.data = r.reader.data ∧
      i.verdict = f.checksum.map fun c => c.verdict reader found i.value.toUInt64 := by
  obtain ⟨value, r₁, hnumber, h₁⟩ := bind_eq_done h
  obtain ⟨_, r₂, hbind, h₂⟩ := bind_eq_done h₁
  obtain ⟨states, r₃, hstates, h₃⟩ := bind_eq_done h₂
  rw [hf] at hstates
  obtain ⟨rfl, rfl⟩ := Outcome.done.inj hstates
  obtain ⟨entry, r₄, hentry, h₄⟩ := bind_eq_done h₃
  obtain rfl := (d.unmoving_entryOf _ _).eq hentry
  obtain ⟨rfl, -⟩ := Outcome.done.inj h₄
  have hread := ((reading_number width isSigned).reads hnumber).reader.data
  have hbound := ((Reading.bindName f.name (.int value.toInt64)).reads hbind).reader.data
  refine ⟨_, r₄.reader, rfl, hbound.trans hread, ?_⟩
  cases f.checksum <;> rfl

/-- A field of an integer type that occurs once holds an integer, which is judged by the nodes found so far. -/
theorem field_eq_integer {nested : StructDef → String → Decoding Node} {n : Node}
    (hf : f.type.layout? = some (width, isSigned)) (honce : f.repetition = .once) (hflags : f.flagsRef = none)
    (h : field d rounds nested f found r = .done (some n) r') :
    ∃ i : Node.IntegerContent, ∃ reader : Reader, n.content = .integer i ∧ reader.data = r.reader.data ∧
      i.verdict = f.checksum.map fun c => c.verdict reader found i.value.toUInt64 := by
  obtain ⟨-, hnone, -⟩ | ⟨m, r₁, -, hpresent, hm, -⟩ := field_eq_done h
  · cases hnone
  obtain rfl := Option.some.inj hm
  obtain ⟨before, m, isValid, r₂, r₃, r₄, hseek, halign, hcontent, -, rfl⟩ := presentField_eq_done hpresent
  obtain ⟨-, hsingle⟩ | ⟨harray, -⟩ := content_eq_done hcontent
  · rw [d.single_eq_integer _ hf] at hsingle
    obtain ⟨hinteger, -⟩ := leaf_eq_done hsingle
    obtain ⟨i, reader, hi, hdata, hverdict⟩ := integer_eq_done hflags hinteger
    exact ⟨i, reader, hi, hdata.trans (returns_approach (approach_eq_done hseek halign)).data, hverdict⟩
  · exact absurd honce harray

/-- An integer lies in as many bytes as its type has, and it is the one that they write. -/
theorem FieldNode.integer {data : Buffer} {order : ByteOrder} {n : Node} {i : Node.IntegerContent}
    (h : FieldNode d data order f n) (hf : f.type.layout? = some (width, isSigned)) (hi : n.content = .integer i) :
    n.size = width ∧ i.value.toInt = order.integer isSigned (n.bytesIn data) := by
  cases h with
  | array _ _ hc _ =>
      rw [hi] at hc
      cases hc
  | once _ ho =>
      cases ho with
      | leaf hl _ hs _ =>
          rw [hi] at hs
          cases hs with
          | integer hlayout hvalue =>
              rw [hf] at hlayout
              obtain ⟨rfl, rfl⟩ := Prod.mk.inj (Option.some.inj hlayout)
              exact ⟨hl.length_bytesIn.symm, hvalue⟩
      | struct _ _ hs =>
          cases hs with
          | mk _ hc _ =>
              rw [hi] at hc
              cases hc
      | stream _ _ _ _ _ hc _ | unpacked _ _ _ _ _ hc _ _ _ =>
          rw [hi] at hc
          cases hc

section Pattern

variable {order : ByteOrder} {bytes : List UInt8} {value : Node.Number}

/-- An integer has the pattern of a word of 32 bits if its bytes are that word and do not come out negative. -/
theorem pattern_eq_iff (h : value.toInt = order.integer isSigned bytes) (word : UInt32) :
    word.toUInt64 = value.toUInt64 ↔ order.value bytes = word.toNat ∧ 0 ≤ value.toInt := by
  rw [value.toUInt64_eq_iff]
  constructor
  · intro hword
    have hnonneg : 0 ≤ value.toInt := hword ▸ Int.natCast_nonneg _
    have hvalue := ByteOrder.integer_eq_value (h ▸ hnonneg)
    exact ⟨by omega, hnonneg⟩
  · rintro ⟨hword, hnonneg⟩
    have hvalue := ByteOrder.integer_eq_value (h ▸ hnonneg)
    rw [h, hvalue, hword]

/-- Without a sign, or in eight bytes, a word of 32 bits never comes out negative. -/
theorem nonneg_of_eq_word (h : value.toInt = order.integer isSigned bytes)
    (hwide : isSigned = false ∨ bytes.length = 8) {word : UInt32} (hword : order.value bytes = word.toNat) : 0 ≤ value.toInt := by
  rw [h]
  refine (order.integer_nonneg_iff isSigned bytes).mpr (hwide.imp_right fun hlength => ?_)
  have hlt : word.toNat < 2 ^ 32 := word.toNat_lt
  rw [hword, hlength]
  exact Nat.lt_trans (Nat.mul_lt_mul_of_pos_left hlt (by decide)) (by decide)

end Pattern

/-- A checksum of 32 bits that is an integer of its own is compared with the CRC-32 of the bytes of the nodes that it
covers, which are among those found before it in its struct. All of these bytes lie in the buffer. The checksum passes
if its own bytes, read without a sign, are that number, as long as they do not come out negative in the type of the
field. Without a sign, or in eight bytes, they need not be looked at for that. A checksum that does not pass says
what was expected. -/
theorem checksum_verdict {data : Buffer} {c : ChecksumDef} {n : Node}
    (hr : Reaches d rounds data (.field levels f found) r) (hf : f.type.layout? = some (width, isSigned))
    (honce : f.repetition = .once) (hflags : f.flagsRef = none) (hc : f.checksum = some c)
    (hv : c.isVerifiable = true) (h : field d rounds (d.struct rounds levels) f found r = .done (some n) r') :
    (∀ m ∈ n :: found, m.LiesIn r.reader.data) ∧ n.size = width ∧
      ∃ i : Node.IntegerContent, n.content = .integer i ∧
        i.value.toInt = r.reader.byteOrder.integer isSigned (n.bytesIn r.reader.data) ∧
        (i.verdict = some .valid ∨ i.verdict = some (.mismatch (c.crc found r.reader.data))) ∧
        (i.verdict = some .valid ↔
          r.reader.byteOrder.value (n.bytesIn r.reader.data) = (c.crc found r.reader.data).toNat ∧
            0 ≤ i.value.toInt) ∧
        (isSigned = false ∨ width = 8 → (i.verdict = some .valid ↔
          r.reader.byteOrder.value (n.bytesIn r.reader.data) = (c.crc found r.reader.data).toNat)) := by
  obtain ⟨hsound, hfound⟩ := hr.grounded
  have hfits := (makes_field (fun _ name => d.makes_struct rounds levels name) rounds f found).fits hsound h
  have hn : n.LiesIn r.reader.data := hfits.liesIn
  obtain ⟨i, reader, hi, hdata, hverdict⟩ := field_eq_integer hf honce hflags h
  obtain ⟨hsize, hvalue⟩ := hfits.integer hf hi
  have hlies : ∀ m ∈ found, m.LiesIn reader.data := hdata ▸ hfound
  have hshown := c.verdict_valid_or_mismatch hv hlies i.value.toUInt64
  have hvalid := c.verdict_eq_valid_iff hv hlies i.value.toUInt64
  -- Reading has left the buffer as it was. The 64 bits of a value are a word of 32 bits only if it is not negative.
  rw [hdata] at hshown hvalid
  rw [pattern_eq_iff hvalue] at hvalid
  rw [hc, Option.map_some] at hverdict
  rw [← Option.some_inj, ← hverdict] at hvalid
  refine ⟨List.forall_mem_cons.mpr ⟨hn, hfound⟩, hsize, i, hi, hvalue, ?_, hvalid, fun hwide => ?_⟩
  · rw [hverdict]
    exact hshown.imp (congrArg some) (congrArg some)
  · have hwide := hwide.imp_right (hn.length_bytesIn.trans hsize).trans
    exact hvalid.trans ⟨And.left, fun hcrc => ⟨hcrc, nonneg_of_eq_word hvalue hwide hcrc⟩⟩

end Decoder

/-! ## A byte under seal -/

namespace Seal

/-- The byte that is covered. -/
def byte : Field where
  name := "byte"
  type := .u8

/-- The checksum of the byte, as an integer of some type. -/
def sum (type : FieldType) : Field where
  name := "sum"
  type
  checksum := some ⟨"crc32", ["byte"]⟩

/-- A byte and its checksum, of some type. -/
def decoder (type : FieldType) : Decoder where
  schema := {
    name := "sealed"
    structs := [("all", { name := "all", fields := [byte, sum type] })]
    root := "all" }
  options := {}

/-- A byte, and its CRC-32. -/
def data : Buffer := #[0, 0x8d, 0xef, 0x02, 0xd2]

/-- The node of the byte. -/
def byteNode : Node where
  name := "byte"
  typeName := "u8"
  offset := 0
  size := 1
  content := .integer { value := .unsigned 0 }

/-- The run behind the byte. -/
def run : Run where
  reader := { Reader.ofBuffer data .little with pos := 1, bindings := [("byte", .int 0)] }
  path := []
  depth := 1
  nodes := 2
  recovered := []

/-- A decode gets to the checksum with the node of the byte in its hands. -/
theorem reaches_sum (type : FieldType) :
    Decoder.Reaches (decoder type) 0 data (.field 256 (sum type) [byteNode]) run :=
  .call (.call (.call (.root rfl) (.body rfl)) (.next (p := (some byteNode, true)) rfl)) (.field rfl)

/-- The CRC-32 of a zero byte has its highest bit set, so that it is negative as a signed number. -/
theorem crc_data : Schema.ChecksumDef.crc ⟨"crc32", ["byte"]⟩ [byteNode] data = 0xd202ef8d := by
  decide +kernel

/-- Without a sign the checksum passes. -/
theorem sum_passes : Decoder.Reaches (decoder .u32) 0 data (.field 256 (sum .u32) [byteNode]) run ∧
    ∃ n r' i, Decoder.field (decoder .u32) 0 ((decoder .u32).struct 0 256) (sum .u32) [byteNode] run =
      .done (some n) r' ∧ n.content = .integer i ∧ i.verdict = some .valid := by
  have hr := reaches_sum .u32
  obtain ⟨n, r', h, hbytes⟩ : ∃ n r', Decoder.field (decoder .u32) 0 ((decoder .u32).struct 0 256) (sum .u32)
      [byteNode] run = .done (some n) r' ∧ n.bytesIn data = [0x8d, 0xef, 0x02, 0xd2] := ⟨_, _, rfl, rfl⟩
  obtain ⟨-, -, i, hi, -, -, -, hvalid⟩ := Decoder.checksum_verdict hr rfl rfl rfl rfl rfl h
  refine ⟨hr, n, r', i, h, hi, (hvalid (.inl rfl)).mpr ?_⟩
  show ByteOrder.little.value (n.bytesIn data) = (Schema.ChecksumDef.crc _ [byteNode] data).toNat
  rw [hbytes, crc_data]
  rfl

/-- With a sign it does not, although the bytes are those of the number that is expected. -/
theorem sum_refused : Decoder.Reaches (decoder .i32) 0 data (.field 256 (sum .i32) [byteNode]) run ∧
    ∃ n r' i, Decoder.field (decoder .i32) 0 ((decoder .i32).struct 0 256) (sum .i32) [byteNode] run =
      .done (some n) r' ∧ n.content = .integer i ∧
      run.reader.byteOrder.value (n.bytesIn data) =
        (Schema.ChecksumDef.crc ⟨"crc32", ["byte"]⟩ [byteNode] data).toNat ∧
      i.verdict = some (.mismatch (Schema.ChecksumDef.crc ⟨"crc32", ["byte"]⟩ [byteNode] data)) := by
  rw [crc_data]
  exact ⟨reaches_sum .i32, _, _, _, rfl, rfl, rfl, by decide +kernel⟩

end Seal

end BinaryFormat
