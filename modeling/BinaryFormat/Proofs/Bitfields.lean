import Mathlib.Algebra.BigOperators.Group.List.Basic
import Mathlib.Data.List.Forall2
import Mathlib.Data.Nat.Bitwise
import Mathlib.Tactic.Ring
import BinaryFormat.Proofs.Balance

/-!
# Bitfields lose no bits

A bitfield is a register of a few bytes with names for ranges of its bits. The register is read like any integer,
so what is to be shown is about the ranges: that a shift and a mask cut out the bits between the two bounds of a
range, up to the last bit of 64, and that nothing gets lost between the ranges.

A part, moved back to where it was cut out, is the sum of its bits at their places, and so is the whole register.
Hence parts make up the register wherever their ranges make up its bits, in whatever order they are given.
-/

namespace BinaryFormat

open Schema (BitRange Field)
open Decoding

/-! ## Some bits of a number -/

/-- What the bits at these places add to a number. -/
def bitSum (n : Nat) (places : List Nat) : Nat := (places.map fun i => (n.testBit i).toNat * 2 ^ i).sum

theorem bitSum_append (n : Nat) (a b : List Nat) : bitSum n (a ++ b) = bitSum n a + bitSum n b := by
  rw [bitSum, List.map_append, List.sum_append]
  rfl

/-- Bits that come in groups add up group by group. -/
theorem bitSum_flatMap {α : Type} (n : Nat) (f : α → List Nat) (as : List α) :
    bitSum n (as.flatMap f) = (as.map fun a => bitSum n (f a)).sum := by
  induction as with
  | nil => rfl
  | cons a as ih => rw [List.flatMap_cons, bitSum_append, ih, List.map_cons, List.sum_cons]

theorem bitSum_perm {n : Nat} {a b : List Nat} (h : a.Perm b) : bitSum n a = bitSum n b := (h.map _).sum_eq

/-- Some bits in a row, cut out and moved back. -/
theorem bitSum_range' (n low width : Nat) :
    bitSum n (List.range' low width) = n / 2 ^ low % 2 ^ width * 2 ^ low := by
  induction width with
  | zero => rw [Nat.pow_zero, Nat.mod_one, Nat.zero_mul]; rfl
  | succ width ih =>
      have hbit : (n.testBit (low + width)).toNat = n / 2 ^ low / 2 ^ width % 2 := by
        rw [Nat.toNat_testBit, Nat.pow_add, Nat.div_div_eq_div_mul]
      rw [List.range'_1_concat, bitSum_append, ih, Nat.mod_pow_succ, ← hbit, Nat.add_mul]
      congr 1
      rw [bitSum, List.map_singleton, List.sum_singleton, Nat.pow_add]
      ring

/-- All bits of a number together are the number. -/
theorem bitSum_range {n k : Nat} (h : n < 2 ^ k) : bitSum n (List.range k) = n := by
  rw [List.range_eq_range', bitSum_range', Nat.pow_zero, Nat.div_one, Nat.mul_one, Nat.mod_eq_of_lt h]

/-! ## Ranges -/

namespace Schema.BitRange

/-- The number of bits of a range. -/
def width (b : BitRange) : Nat := b.high.toNat - b.low.toNat + 1

/-- The bits of a range. -/
def bits (b : BitRange) : List Nat := List.range' b.low.toNat (b.high.toNat + 1 - b.low.toNat)

/-- No word that a range is worked out with is too small for what it holds. -/
structure Fits (b : BitRange) : Prop where
  width : (b.high - b.low + 1).toNat = b.width
  width_le : b.width ≤ 64
  low_lt : b.low.toNat < 64
  mask : b.mask.toNat = 2 ^ b.width - 1

variable {b : BitRange}

/-- A range is proper if it is not reversed and ends inside a word. -/
theorem isProper_iff : b.isProper = true ↔ b.low ≤ b.high ∧ b.high < 64 := by
  rw [isProper, Bool.and_eq_true, decide_eq_true_eq, decide_eq_true_eq]

theorem bounds (h : b.isProper = true) : b.low.toNat ≤ b.high.toNat ∧ b.high.toNat < 64 := by
  obtain ⟨hle, hlt⟩ := isProper_iff.mp h
  exact ⟨UInt32.le_iff_toNat_le.mp hle, UInt32.lt_iff_toNat_lt.mp hlt⟩

theorem toNat_sub (h : b.isProper = true) : (b.high - b.low).toNat = b.high.toNat - b.low.toNat :=
  UInt32.toNat_sub_of_le _ _ (isProper_iff.mp h).1

/-- All bits of a word, moved down until `w` of them are left. -/
theorem shiftRight_ones {w : Nat} (h : w ≤ 64) : (2 ^ 64 - 1) >>> (64 - w) = 2 ^ w - 1 := by
  apply Nat.eq_of_testBit_eq
  intro i
  rw [Nat.testBit_shiftRight, Nat.testBit_two_pow_sub_one, Nat.testBit_two_pow_sub_one, decide_eq_decide]
  omega

/-- The mask of a range of `w` bits is 2^w - 1; at a width of 64, where shifting would be lost, as well. -/
theorem toNat_mask (h : b.isProper = true) : b.mask.toNat = 2 ^ b.width - 1 := by
  obtain ⟨hle, hlt⟩ := bounds h
  have hamount : (63 - (b.high - b.low)).toNat = 64 - b.width := by
    rw [UInt32.toNat_sub_of_le _ _ (by rw [UInt32.le_iff_toNat_le, toNat_sub h]; show _ ≤ 63; omega), toNat_sub h]
    show 63 - _ = 64 - (_ + 1)
    omega
  have hwidth : b.width ≤ 64 := by unfold width; omega
  have hpos : 0 < b.width := Nat.succ_pos _
  rw [mask, UInt64.toNat_shiftRight, UInt32.toNat_toUInt64, hamount, Nat.mod_eq_of_lt (by omega)]
  exact shiftRight_ones hwidth

/-- For a proper range, width, mask and lowest bit all fit into the words they are held in. -/
theorem fits (h : b.isProper = true) : b.Fits := by
  obtain ⟨hle, hlt⟩ := bounds h
  refine ⟨?_, by unfold width; omega, by omega, toNat_mask h⟩
  rw [UInt32.toNat_add, toNat_sub h]
  show (b.high.toNat - b.low.toNat + 1) % 2 ^ 32 = b.width
  exact Nat.mod_eq_of_lt (by omega)

/-- The bits of a range are a quotient by the power below it and a remainder by the power of its width. -/
theorem toNat_extract (h : b.isProper = true) (register : UInt64) :
    (b.extract register).toNat = register.toNat / 2 ^ b.low.toNat % 2 ^ b.width := by
  obtain ⟨hle, hlt⟩ := bounds h
  rw [extract, UInt64.toNat_and, toNat_mask h, Nat.and_two_pow_sub_one_eq_mod, UInt64.toNat_shiftRight,
    UInt32.toNat_toUInt64, Nat.mod_eq_of_lt (show b.low.toNat < 64 by omega), Nat.shiftRight_eq_div_pow]

/-- A part, moved back to its place, is made up of its bits. -/
theorem toNat_extract_mul (h : b.isProper = true) (register : UInt64) :
    (b.extract register).toNat * 2 ^ b.low.toNat = bitSum register.toNat b.bits := by
  have hwidth : b.high.toNat + 1 - b.low.toNat = b.width := Nat.sub_add_comm (bounds h).1
  rw [bits, hwidth, bitSum_range', toNat_extract h]

/-- Ranges that make up all bits of a register have parts that make up the register. -/
theorem sum_extract {ranges : List BitRange} (h : ∀ b ∈ ranges, b.isProper = true) {register : UInt64} {k : Nat}
    (hlt : register.toNat < 2 ^ k) (hparts : (ranges.flatMap bits).Perm (List.range k)) :
    (ranges.map fun b => (b.extract register).toNat * 2 ^ b.low.toNat).sum = register.toNat := by
  have heach : (ranges.map fun b => (b.extract register).toNat * 2 ^ b.low.toNat) =
      ranges.map fun b => bitSum register.toNat b.bits :=
    List.map_congr_left fun b hb => toNat_extract_mul (h b hb) register
  rw [heach, ← bitSum_flatMap, bitSum_perm hparts, bitSum_range hlt]

end Schema.BitRange

/-! ## Reading a register -/

/-- In a sound reader bytes can be read as long as they are left in the scope. -/
theorem Reader.Sound.exists_read_iff {r : Reader} (h : r.Sound) (n : Nat) :
    (∃ p, r.read n = .ok p) ↔ n ≤ r.remaining := by
  constructor
  · rintro ⟨p, hp⟩
    exact (Reader.read_eq_ok hp).2.2.1
  · intro hn
    exact ⟨_, h.read_eq hn⟩

theorem Reader.Sound.exists_readUnsigned_iff {r : Reader} (h : r.Sound) {n : Nat} (hn : Reader.isWidth n = true) :
    (∃ p, r.readUnsigned n = .ok p) ↔ n ≤ r.remaining := by
  rw [← h.exists_read_iff]
  unfold readUnsigned
  rw [if_pos hn]
  cases r.read n with
  | ok p => exact iff_of_true ⟨_, rfl⟩ ⟨_, rfl⟩
  | error c => exact iff_of_false nofun nofun

namespace Decoding

variable {α β : Type}

/-- Steps that leave the run as it is succeed one after the other if each of them does. -/
theorem Unmoving.mapM_eq_done_iff {f : α → Decoding β} (hf : ∀ a, (f a).Unmoving) {as : List α} {bs : List β}
    {r r' : Run} : as.mapM f r = .done bs r' ↔ r' = r ∧ List.Forall₂ (fun a b => f a r = .done b r) as bs := by
  induction as generalizing bs r' with
  | nil =>
      rw [List.mapM_nil, List.forall₂_nil_left_iff]
      constructor
      · intro h
        obtain ⟨rfl, rfl⟩ := Outcome.done.inj h
        exact ⟨rfl, rfl⟩
      · rintro ⟨rfl, rfl⟩
        rfl
  | cons a as ih =>
      rw [List.mapM_cons, List.forall₂_cons_left_iff]
      constructor
      · intro h
        obtain ⟨b, r₁, ha, h₁⟩ := bind_eq_done h
        obtain ⟨bs', r₂, has, h₂⟩ := bind_eq_done h₁
        obtain rfl := (hf a).eq ha
        obtain ⟨rfl, hall⟩ := ih.mp has
        obtain ⟨rfl, rfl⟩ := Outcome.done.inj h₂
        exact ⟨rfl, b, bs', ha, hall, rfl⟩
      · rintro ⟨rfl, b, bs', ha, hall, rfl⟩
        rw [bind_done ha, bind_done (ih.mpr ⟨rfl, hall⟩)]
        rfl

end Decoding

namespace Decoder

variable {d : Decoder} {f : Field} {r r' : Run} {register : UInt64} {b : BitRange}

/-- An enum is found exactly if the schema declares it. -/
theorem enumDef_eq_done_iff {name : String} {e : Schema.EnumDef} :
    d.enumDef name r = .done e r ↔ d.schema.enums.get? name = some e := by
  unfold enumDef
  cases d.schema.enums.get? name with
  | none => exact iff_of_false nofun nofun
  | some e' =>
      constructor
      · intro h
        exact congrArg some (Outcome.done.inj h).1
      · rintro ⟨⟩
        rfl

/-- Only a name that the schema does not declare makes the lookup fail; a value without an entry does not. -/
theorem entryOf_isDone_iff {enumRef : Option String} (value : Int64) :
    (∃ e, d.entryOf enumRef value r = .done e r) ↔ ∀ name ∈ enumRef, (d.schema.enums.get? name).isSome = true := by
  cases enumRef with
  | none => exact iff_of_true ⟨_, rfl⟩ nofun
  | some name =>
      simp only [Option.mem_some_iff, forall_eq']
      constructor
      · rintro ⟨entry, h⟩
        obtain ⟨e, r₁, he, -⟩ := bind_eq_done h
        obtain rfl := (d.unmoving_enumDef name).eq he
        exact Option.isSome_of_eq_some (enumDef_eq_done_iff.mp he)
      · intro h
        obtain ⟨e, hget⟩ := Option.isSome_iff_exists.mp h
        exact ⟨_, bind_done (enumDef_eq_done_iff.mpr hget) _⟩

/-- A part shows the bits of its range. -/
theorem bitPart_eq_done {p : Node.BitPart} (h : d.bitPart register b r = .done p r') :
    b.isProper = true ∧ p.range = b ∧ p.value = b.extract register := by
  unfold bitPart at h
  split at h
  · rename_i hb
    obtain ⟨entry, r₁, -, h₁⟩ := bind_eq_done h
    obtain ⟨rfl, -⟩ := Outcome.done.inj h₁
    exact ⟨hb, rfl, rfl⟩
  · cases h

/-- A part fails for its range or for an unknown enum, whatever the register holds. -/
theorem bitPart_isDone_iff (register : UInt64) : (∃ p, d.bitPart register b r = .done p r) ↔
    b.isProper = true ∧ ∀ name ∈ b.enumRef, (d.schema.enums.get? name).isSome = true := by
  rw [← entryOf_isDone_iff (d := d) (r := r) (b.extract register).toInt64]
  unfold bitPart
  constructor
  · rintro ⟨p, h⟩
    split at h
    · rename_i hb
      obtain ⟨entry, r₁, hentry, -⟩ := bind_eq_done h
      obtain rfl := (d.unmoving_entryOf _ _).eq hentry
      exact ⟨hb, entry, hentry⟩
    · cases h
  · rintro ⟨hb, entry, hentry⟩
    rw [if_pos hb, bind_done hentry]
    exact ⟨_, rfl⟩

/-- A bitfield is a register, and the parts that its ranges cut out of it. -/
theorem bitfield_eq_done_iff {c : Node.Content} : d.bitfield f r = .done c r' ↔
    ∃ n register reader parts, fieldSize f r = .done n r ∧ (n = 1 ∨ n = 2 ∨ n = 4) ∧
      r.reader.readUnsigned n = .ok (register, reader) ∧
      r' = { r with reader := reader.bind f.name (.int register.toInt64) } ∧
      List.Forall₂ (fun b p => d.bitPart register b r' = .done p r') f.bitRanges parts ∧
      c = .bitfield register parts := by
  constructor
  · intro h
    obtain ⟨n, r₁, hn, h₁⟩ := bind_eq_done h
    obtain rfl := (unmoving_fieldSize f).eq hn
    split at h₁
    · rename_i hsize
      obtain ⟨register, r₂, hread, h₂⟩ := bind_eq_done h₁
      obtain ⟨_, r₃, hbind, h₃⟩ := bind_eq_done h₂
      obtain ⟨parts, r₄, hparts, h₄⟩ := bind_eq_done h₃
      obtain ⟨reader, hreader, rfl⟩ := read_eq_done hread
      obtain ⟨-, rfl⟩ := Outcome.done.inj hbind
      -- Cutting the parts out changes nothing, so all of them are cut out in the run behind the register.
      obtain ⟨rfl, hall⟩ := (Unmoving.mapM_eq_done_iff (d.unmoving_bitPart register)).mp hparts
      obtain ⟨rfl, rfl⟩ := Outcome.done.inj h₄
      exact ⟨n, register, reader, parts, hn, hsize, hreader, rfl, hall, rfl⟩
    · cases h₁
  · rintro ⟨n, register, reader, parts, hn, hsize, hreader, rfl, hall, rfl⟩
    have hparts := (Unmoving.mapM_eq_done_iff (d.unmoving_bitPart register)).mpr ⟨rfl, hall⟩
    rw [bitfield, bind_done hn, if_pos hsize, bind_done (read_ok (f := fun r => r.readUnsigned n) hreader)]
    exact bind_done hparts _

/-- All ranges cut out their part if all of them are in order and every enum they name is defined. -/
theorem exists_parts_iff {ranges : List BitRange} :
    (∃ parts, List.Forall₂ (fun b p => d.bitPart register b r = .done p r) ranges parts) ↔
      ∀ b ∈ ranges, b.isProper = true ∧ ∀ name ∈ b.enumRef, (d.schema.enums.get? name).isSome = true := by
  induction ranges with
  | nil => exact iff_of_true ⟨[], .nil⟩ nofun
  | cons b ranges ih =>
      rw [List.forall_mem_cons, ← ih, ← bitPart_isDone_iff (r := r) register]
      constructor
      · rintro ⟨parts, h⟩
        obtain ⟨p, parts, hp, hparts, rfl⟩ := List.forall₂_cons_left_iff.mp h
        exact ⟨⟨p, hp⟩, parts, hparts⟩
      · rintro ⟨⟨p, hp⟩, parts, hparts⟩
        exact ⟨p :: parts, .cons hp hparts⟩

/-- Every part is cut out by the range in its place. -/
theorem parts_eq {ranges : List BitRange} {parts : List Node.BitPart}
    (h : List.Forall₂ (fun b p => d.bitPart register b r = .done p r) ranges parts) :
    parts.map (·.range) = ranges ∧ ∀ p ∈ parts, p.range.isProper = true ∧ p.value = p.range.extract register := by
  induction h with
  | nil => exact ⟨rfl, nofun⟩
  | cons hp _ ih =>
      obtain ⟨hproper, rfl, hvalue⟩ := bitPart_eq_done hp
      exact ⟨by rw [List.map_cons, ih.1], List.forall_mem_cons.mpr ⟨⟨hproper, hvalue⟩, ih.2⟩⟩

/-- The bytes that a bitfield may have are those of an integer. -/
theorem isWidth_of_size {n : Nat} (h : n = 1 ∨ n = 2 ∨ n = 4) : Reader.isWidth n = true := by
  obtain rfl | rfl | rfl := h <;> rfl

/-- A bitfield is decoded exactly if its size is 1, 2 or 4 bytes, they are there, and each part can be shown. -/
theorem bitfield_isDone_iff (hr : r.reader.Sound) : (∃ c r', d.bitfield f r = .done c r') ↔
    ∃ n, fieldSize f r = .done n r ∧ (n = 1 ∨ n = 2 ∨ n = 4) ∧ n ≤ r.reader.remaining ∧
      ∀ b ∈ f.bitRanges, b.isProper = true ∧ ∀ name ∈ b.enumRef, (d.schema.enums.get? name).isSome = true := by
  constructor
  · rintro ⟨c, r', h⟩
    obtain ⟨n, register, reader, parts, hn, hsize, hread, -, hparts, -⟩ := bitfield_eq_done_iff.mp h
    exact ⟨n, hn, hsize, (hr.exists_readUnsigned_iff (isWidth_of_size hsize)).mp ⟨_, hread⟩,
      exists_parts_iff.mp ⟨parts, hparts⟩⟩
  · rintro ⟨n, hn, hsize, hleft, hranges⟩
    obtain ⟨⟨register, reader⟩, hread⟩ := (hr.exists_readUnsigned_iff (isWidth_of_size hsize)).mpr hleft
    obtain ⟨parts, hparts⟩ := exists_parts_iff.mpr hranges
    exact ⟨_, _, bitfield_eq_done_iff.mpr ⟨n, register, reader, parts, hn, hsize, hread, rfl, hparts, rfl⟩⟩

variable {nested : Schema.StructDef → String → Decoding Node} {siblings : Option (List Node)}

theorem single_eq_bitfield (hf : f.type = .bitfield) :
    single d nested f siblings = leaf f (d.bitfield f) := by
  unfold single
  rw [hf]

/-- A leaf is decoded if its content is. -/
theorem leaf_isDone_iff {content : Decoding Node.Content} :
    (∃ n r', leaf f content r = .done n r') ↔ ∃ c r', content r = .done c r' := by
  constructor
  · rintro ⟨n, r', h⟩
    exact ⟨_, _, (leaf_eq_done h).1⟩
  · rintro ⟨c, r', h⟩
    have hpos : pos r = .done r.pos r := rfl
    exact ⟨_, r', (bind_done hpos _).trans (bind_done h _)⟩

/-- **Bitfields lose no bits.** From a sound reader, as decoding keeps it, a bitfield is decoded if it has a size that
there is, as many bytes are left, and its ranges and what they refer to are in order. Every part is then what its range
cuts out, worked out without an overflow, and wherever the ranges make up all bits, the parts put back to their places
make up the register. -/
theorem bitfield_lossless (hf : f.type = .bitfield) :
    (r.reader.Sound → ((∃ node r', single d nested f siblings r = .done node r') ↔
      ∃ n, fieldSize f r = .done n r ∧ (n = 1 ∨ n = 2 ∨ n = 4) ∧ n ≤ r.reader.remaining ∧
        ∀ b ∈ f.bitRanges, (b.low ≤ b.high ∧ b.high < 64) ∧
          ∀ name ∈ b.enumRef, (d.schema.enums.get? name).isSome = true)) ∧
    ∀ node r', single d nested f siblings r = .done node r' →
      ∃ n raw parts, fieldSize f r = .done n r ∧ node.content = .bitfield raw parts ∧
        raw.toNat = r.reader.byteOrder.value (r.reader.data.window r.pos (r.pos + n)) ∧
        parts.map (·.range) = f.bitRanges ∧
        (∀ p ∈ parts, p.range.Fits ∧ p.value.toNat < 2 ^ p.range.width ∧
          p.value.toNat = raw.toNat / 2 ^ p.range.low.toNat % 2 ^ p.range.width) ∧
        ((f.bitRanges.flatMap BitRange.bits).Perm (List.range (8 * n)) →
          (parts.map fun p => p.value.toNat * 2 ^ p.range.low.toNat).sum = raw.toNat) := by
  rw [single_eq_bitfield hf]
  refine ⟨fun hr => ?_, fun node r' h => ?_⟩
  · simp only [leaf_isDone_iff, bitfield_isDone_iff hr, BitRange.isProper_iff]
  · obtain ⟨n, raw, reader, parts, hn, hsize, hread, -, hparts, hc⟩ := bitfield_eq_done_iff.mp (leaf_eq_done h).1
    obtain ⟨bytes, hbytes, hraw⟩ := Reader.readUnsigned_exact hread
    obtain ⟨hranges, hvalues⟩ := parts_eq hparts
    have hwindow : bytes = r.reader.data.window r.pos (r.pos + n) := (Reader.read_eq_ok hbytes).1
    refine ⟨n, raw, parts, hn, hc, hwindow ▸ hraw, hranges, fun p hp => ?_, fun hall => ?_⟩
    · obtain ⟨hproper, hvalue⟩ := hvalues p hp
      have hexact := hvalue ▸ BitRange.toNat_extract hproper raw
      exact ⟨BitRange.fits hproper, hexact ▸ Nat.mod_lt _ (Nat.two_pow_pos _), hexact⟩
    · have hlt : raw.toNat < 2 ^ (8 * n) := by
        have hlt := r.reader.byteOrder.value_lt bytes
        rwa [← hraw, Reader.length_of_read hbytes, Nat.one_shiftLeft] at hlt
      have hproper : ∀ b ∈ f.bitRanges, b.isProper = true := by
        intro b hb
        obtain ⟨p, hp, rfl⟩ := List.mem_map.mp (hranges ▸ hb)
        exact (hvalues p hp).1
      -- the parts are those of the ranges, in their order
      have hsum : (parts.map fun p => p.value.toNat * 2 ^ p.range.low.toNat) =
          f.bitRanges.map fun b => (b.extract raw).toNat * 2 ^ b.low.toNat := by
        rw [← hranges, List.map_map]
        exact List.map_congr_left fun p hp => by rw [(hvalues p hp).2]; rfl
      rw [hsum, BitRange.sum_extract hproper hlt hall]

end Decoder

/-! ## A pixel -/

namespace Pixel

/-- The names for the values of a part. There is no struct, as the field is decoded by itself. -/
def schema : Schema where
  name := "image"
  enums := [("level", { name := "level", entries := [⟨31, "full", none⟩] })]
  root := "pixel"

/-- A decoder for a single field. -/
def decoder : Decoder := { schema, options := {} }

/-- Three colours in 16 bits, in no order, and one of them has names for its values. -/
def field : Field where
  name := "pixel"
  type := .bitfield
  size := some (.fixed 2)
  bitRanges := [⟨"green", 10, 5, none⟩, ⟨"red", 15, 11, some "level"⟩, ⟨"blue", 4, 0, none⟩]

/-- Two bytes whose register is 0xfc5f. -/
def run : Run := .start (.ofBuffer #[0x5f, 0xfc] .little)

/-- The three parts of 0xfc5f, moved to their places again, add up to it. -/
theorem sum_parts : field.type = .bitfield ∧ run.reader.Sound ∧
    ∃ node r' raw parts, Decoder.single decoder (decoder.struct 0 256) field none run = .done node r' ∧
      node.content = .bitfield raw parts ∧ raw.toNat = 0xfc5f ∧ parts.map (·.range) = field.bitRanges ∧
      (parts.map fun p => p.value.toNat * 2 ^ p.range.low.toNat).sum = 0xfc5f := by
  have hs : run.reader.Sound := Reader.sound_ofBuffer _ _
  obtain ⟨hdone, hlossless⟩ : (_ → ((∃ node r', Decoder.single decoder (decoder.struct 0 256) field none run =
      .done node r') ↔ _)) ∧ _ := Decoder.bitfield_lossless rfl
  obtain ⟨node, r', h⟩ := (hdone hs).mpr ⟨2, rfl, by decide, by decide, by decide⟩
  obtain ⟨n, raw, parts, hn, hc, hraw, hranges, -, hsum⟩ := hlossless node r' h
  obtain ⟨rfl, -⟩ := Outcome.done.inj hn
  have hword : raw.toNat = 0xfc5f := hraw
  exact ⟨rfl, hs, node, r', raw, parts, h, hc, hword, hranges, (hsum (by decide)).trans hword⟩

end Pixel

end BinaryFormat
