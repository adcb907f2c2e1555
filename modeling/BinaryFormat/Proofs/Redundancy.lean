import Mathlib.Data.Nat.Bitwise
import Mathlib.Logic.Function.Iterate
import BinaryFormat.Crc32

/-!
# What a CRC-32 is, and what it detects

The definition of the check takes one bit at a time: a bit is compared with the lowest one of the register, the
register moves down, and where they differed the generator is added. The register here takes a byte at a time.

Both come down to how a register moves on its own. To move is linear and loses nothing, and a number whose low bits
are clear only moves down. Therefore up to 32 bits can be added to the register at once and be moved out afterwards,
instead of one by one. With eight bits this is the table. With 32 it says that two runs of bits that differ leave
different registers, and as later bits only move the registers on, they stay different.
-/

namespace BinaryFormat

namespace Crc32

/-! ## The definition -/

/-- The bits of some bytes, the lowest bit of every byte first. -/
def bitsOf (bytes : List UInt8) : List Bool := bytes.flatMap fun b => (List.range 8).map b.toNat.testBit

/-- Takes one bit into the register. -/
def stepBit (c : UInt32) (bit : Bool) : UInt32 :=
  if c.toNat.testBit 0 != bit then (c >>> 1) ^^^ 0xedb88320 else c >>> 1

/-- The check of some bits, taken one by one. -/
def ofBits (bits : List Bool) : UInt32 := ~~~bits.foldl stepBit 0xffffffff

/-! ## A register that moves -/

theorem and_one_bne_zero (c : UInt32) : (c &&& 1 != 0) = c.toNat.testBit 0 := by
  have hlow : (c &&& 1).toNat = c.toNat % 2 := (UInt32.toNat_and c 1).trans (Nat.and_one_is_mod _)
  rw [Nat.testBit_zero, Bool.eq_iff_iff, bne_iff_ne, decide_eq_true_eq, Ne, ← UInt32.toNat_inj, hlow]
  show ¬c.toNat % 2 = 0 ↔ c.toNat % 2 = 1
  omega

/-- What is added to a register once it has moved a bit out. -/
def feedback (bit : Bool) : UInt32 := if bit then polynomial else 0

/-- The feedback of a difference is the difference of the feedbacks. -/
theorem feedback_xor (a b : Bool) : feedback (a ^^ b) = feedback a ^^^ feedback b := by
  cases a <;> cases b <;> decide

/-- One shift moves the register down and feeds the bit back that falls out. -/
theorem shift_eq (c : UInt32) : shift c = (c >>> 1) ^^^ feedback (c.toNat.testBit 0) := by
  unfold shift feedback
  rw [and_one_bne_zero]
  split
  · rfl
  · rw [UInt32.xor_zero]

/-- Shifting is linear: it respects differences. -/
theorem shift_xor (a b : UInt32) : shift (a ^^^ b) = shift a ^^^ shift b := by
  rw [shift_eq, shift_eq, shift_eq, UInt32.shiftRight_xor, UInt32.toNat_xor, Nat.testBit_xor, feedback_xor]
  ac_rfl

/-- The highest bit of the generator is set, so that it cannot be taken for a register that has moved. -/
theorem eq_zero_of_shift {c : UInt32} (h : shift c = 0) : c = 0 := by
  have hlt : c.toNat < 2 ^ 32 := c.toNat_lt
  have hmoved : c.toNat / 2 = (feedback (c.toNat.testBit 0)).toNat := by
    rw [shift_eq, UInt32.xor_eq_zero_iff, ← UInt32.toNat_inj, UInt32.toNat_shiftRight] at h
    rwa [Nat.shiftRight_eq_div_pow] at h
  rw [Nat.testBit_zero] at hmoved
  rw [← UInt32.toNat_inj]
  show c.toNat = 0
  by_cases hodd : c.toNat % 2 = 1
  · rw [decide_eq_true hodd] at hmoved
    have hset : (feedback true).toNat = 0xedb88320 := rfl
    omega
  · rw [decide_eq_false hodd] at hmoved
    have hclear : (feedback false).toNat = 0 := rfl
    omega

/-- No two registers are shifted to the same one. -/
theorem shift_injective : Function.Injective shift := by
  intro a b h
  rw [← UInt32.xor_eq_zero_iff, ← shift_xor] at h
  exact UInt32.xor_eq_zero_iff.mp (eq_zero_of_shift h)

/-- Where the bit that falls out is zero, a shift halves. -/
theorem shift_double {m : Nat} (h : 2 * m < 2 ^ 32) : shift (UInt32.ofNat (2 * m)) = UInt32.ofNat m := by
  have hdouble : (UInt32.ofNat (2 * m)).toNat = 2 * m := UInt32.toNat_ofNat_of_lt' h
  have hsingle : (UInt32.ofNat m).toNat = m := UInt32.toNat_ofNat_of_lt' (by show m < 2 ^ 32; omega)
  have heven : (2 * m).testBit 0 = false := by rw [Nat.testBit_zero, Nat.mul_mod_right]; rfl
  rw [shift_eq, hdouble, heven, ← UInt32.toNat_inj, hsingle]
  show ((UInt32.ofNat (2 * m) >>> 1) ^^^ 0).toNat = m
  rw [UInt32.xor_zero, UInt32.toNat_shiftRight, hdouble]
  show (2 * m) >>> 1 = m
  rw [Nat.shiftRight_eq_div_pow]
  omega

theorem iterate_shift_xor (n : Nat) (a b : UInt32) : shift^[n] (a ^^^ b) = shift^[n] a ^^^ shift^[n] b := by
  induction n generalizing a b with
  | zero => rfl
  | succ n ih => rw [Function.iterate_succ_apply, shift_xor, ih]; rfl

/-- A number with so many low bits clear only moves down. -/
theorem iterate_shift_mul (n : Nat) {m : Nat} (h : 2 ^ n * m < 2 ^ 32) :
    shift^[n] (UInt32.ofNat (2 ^ n * m)) = UInt32.ofNat m := by
  induction n with
  | zero => rw [Nat.pow_zero, Nat.one_mul]; rfl
  | succ n ih =>
      rw [Nat.pow_succ', Nat.mul_assoc] at h ⊢
      rw [Function.iterate_succ_apply, shift_double h, ih (by omega)]

/-! ## Bits at once -/

/-- The number that some bits write, the lowest one first. -/
def word : List Bool → Nat
  | [] => 0
  | b :: bits => b.toNat + 2 * word bits

/-- A word of some bits is less than the power of two of their number. -/
theorem word_lt (bits : List Bool) : word bits < 2 ^ bits.length := by
  induction bits with
  | nil => exact Nat.one_pos
  | cons b bits ih =>
      have hb := b.toNat_lt
      rw [word, List.length_cons, Nat.pow_succ]
      omega

/-- A word tells its bits, given how many they are. -/
theorem word_injective {a b : List Bool} (hlength : a.length = b.length) (h : word a = word b) : a = b := by
  induction a generalizing b with
  | nil => exact (List.length_eq_zero_iff.mp hlength.symm).symm
  | cons x a ih =>
      cases b with
      | nil => cases hlength
      | cons y b =>
          have hx := x.toNat_lt
          have hy := y.toNat_lt
          rw [word, word] at h
          have hlow : x.toNat = y.toNat := by omega
          obtain rfl : x = y := by cases x <;> cases y <;> first | rfl | cases hlow
          rw [ih (Nat.succ.inj hlength) (by omega)]

theorem word_testBit (k n : Nat) : word ((List.range k).map n.testBit) = n % 2 ^ k := by
  induction k generalizing n with
  | zero => exact (Nat.mod_one n).symm
  | succ k ih =>
      have htail : n.testBit ∘ Nat.succ = (n / 2).testBit := funext fun i => Nat.testBit_succ n i
      rw [List.range_succ_eq_map, List.map_cons, List.map_map, htail, word, ih, Nat.toNat_testBit, Nat.pow_succ',
        Nat.mod_mul]
      rw [Nat.pow_zero, Nat.div_one]

/-- A bit is taken in by adding it to the lowest one and shifting. -/
theorem stepBit_eq (c : UInt32) (bit : Bool) : stepBit c bit = shift (c ^^^ UInt32.ofNat bit.toNat) := by
  have hbit : shift (UInt32.ofNat bit.toNat) = feedback bit := by cases bit <;> decide
  rw [shift_xor, shift_eq, hbit, UInt32.xor_assoc, ← feedback_xor]
  unfold stepBit feedback
  cases c.toNat.testBit 0 <;> cases bit <;> first | rfl | exact UInt32.xor_zero.symm

/-- The bits that a register has room for may be added to it at once and moved out afterwards. -/
theorem foldl_stepBit (c : UInt32) {bits : List Bool} (h : bits.length ≤ 32) :
    bits.foldl stepBit c = shift^[bits.length] (c ^^^ UInt32.ofNat (word bits)) := by
  induction bits generalizing c with
  | nil => exact UInt32.xor_zero.symm
  | cons b bits ih =>
      -- There is room for one bit more, so doubling the word loses none.
      have hroom : 2 * word bits < 2 ^ 32 := by
        have hlt := word_lt bits
        have hle : 2 ^ (bits.length + 1) ≤ 2 ^ 32 := Nat.pow_le_pow_right (by decide) h
        rw [Nat.pow_succ] at hle
        omega
      have hword : b.toNat ^^^ 2 * word bits = word (b :: bits) := by
        have hxor := Nat.xor_bit b 0 false (word bits)
        simpa [Nat.bit_val, word, Nat.add_comm] using hxor
      calc (b :: bits).foldl stepBit c
          = shift^[bits.length] (stepBit c b ^^^ UInt32.ofNat (word bits)) := ih _ (Nat.le_of_succ_le h)
        _ = shift^[bits.length] (shift (c ^^^ UInt32.ofNat b.toNat) ^^^ shift (UInt32.ofNat (2 * word bits))) := by
            rw [stepBit_eq, shift_double hroom]
        _ = shift^[bits.length + 1] (c ^^^ UInt32.ofNat (word (b :: bits))) := by
            rw [← shift_xor, UInt32.xor_assoc, ← UInt32.ofNat_xor, hword, Function.iterate_succ_apply]

/-! ## Byte by byte -/

/-- A number is put together from its lower and its higher bits. -/
theorem mod_xor_mul_div (x n : Nat) : x % 2 ^ n ^^^ 2 ^ n * (x / 2 ^ n) = x := by
  apply Nat.eq_of_testBit_eq
  intro i
  rw [Nat.testBit_xor, Nat.testBit_mod_two_pow, Nat.testBit_two_pow_mul, Nat.testBit_div_two_pow]
  by_cases h : i < n
  · simp [h, Nat.not_le.mpr h]
  · simp [h, Nat.le_of_not_lt h]

/-- The table has what becomes of the low byte, and the other bytes only move down. -/
theorem table_xor (c : UInt32) : (c >>> 8) ^^^ table.get c.toUInt8.toFin = shift^[8] c := by
  have hlt : 2 ^ 8 * (c.toNat / 2 ^ 8) < 2 ^ 32 := Nat.lt_of_le_of_lt (Nat.mul_div_le ..) c.toNat_lt
  have hlow : table.get c.toUInt8.toFin = shift^[8] (UInt32.ofNat (c.toNat % 2 ^ 8)) := by
    have hentry : table.get c.toUInt8.toFin = shiftByte (UInt32.ofNat c.toUInt8.toNat) := Vector.getElem_ofFn _
    rw [hentry, UInt32.toNat_toUInt8]
    rfl
  have hhigh : c >>> 8 = UInt32.ofNat (c.toNat / 2 ^ 8) := by
    rw [← UInt32.toNat_inj, UInt32.toNat_shiftRight, UInt32.toNat_ofNat_of_lt' (by show _ < 2 ^ 32; omega)]
    exact Nat.shiftRight_eq_div_pow _ _
  calc (c >>> 8) ^^^ table.get c.toUInt8.toFin
      = shift^[8] (UInt32.ofNat (2 ^ 8 * (c.toNat / 2 ^ 8))) ^^^ shift^[8] (UInt32.ofNat (c.toNat % 2 ^ 8)) := by
          rw [iterate_shift_mul 8 hlt, hlow, hhigh]
    _ = shift^[8] c := by
          rw [← iterate_shift_xor, ← UInt32.ofNat_xor, Nat.xor_comm, mod_xor_mul_div, UInt32.ofNat_toNat]

/-- A byte is taken like its bits. -/
theorem step_eq (c : UInt32) (b : UInt8) : step c b = ((List.range 8).map b.toNat.testBit).foldl stepBit c := by
  have hb : b.toNat < 2 ^ 8 := b.toNat_lt
  have hword : UInt32.ofNat (word ((List.range 8).map b.toNat.testBit)) = b.toUInt32 := by
    rw [word_testBit, Nat.mod_eq_of_lt hb, ← UInt8.toNat_toUInt32, UInt32.ofNat_toNat]
  have hhigh : c >>> 8 = (c ^^^ b.toUInt32) >>> 8 := by
    have hclear : b.toUInt32 >>> 8 = 0 := by
      rw [← UInt32.toNat_inj, UInt32.toNat_shiftRight, UInt8.toNat_toUInt32]
      show b.toNat >>> 8 = 0
      rw [Nat.shiftRight_eq_div_pow, Nat.div_eq_of_lt hb]
    rw [UInt32.shiftRight_xor, hclear, UInt32.xor_zero]
  rw [foldl_stepBit c (by simp), hword, List.length_map, List.length_range, step, hhigh, table_xor]

/-- Bytes are taken like their bits, whatever was taken before. -/
theorem register_update (c : Crc32) (bytes : List UInt8) :
    (c.update bytes).register = (bitsOf bytes).foldl stepBit c.register := by
  induction bytes generalizing c with
  | nil => rfl
  | cons b bytes ih =>
      rw [bitsOf, List.flatMap_cons, List.foldl_append, ← step_eq]
      exact ih ⟨step c.register b⟩

/-- Parts that are taken in one by one are taken in as a whole. -/
theorem foldl_update (c : Crc32) (parts : List (List UInt8)) : parts.foldl update c = c.update parts.flatten := by
  induction parts generalizing c with
  | nil => rfl
  | cons part parts ih => rw [List.foldl_cons, ih, List.flatten_cons, update_append]

/-- The CRC-32 of some bytes is the one of their bits, by definition one at a time. -/
theorem ofBytes_eq (bytes : List UInt8) : ofBytes bytes = ofBits (bitsOf bytes) := by
  rw [ofBytes, finish, register_update]
  rfl

/-- **The check is the one that takes a bit at a time**, in whatever parts the bytes come. -/
theorem finish_foldl_update (parts : List (List UInt8)) :
    (parts.foldl update start).finish = ofBits (bitsOf parts.flatten) ∧
      ofBytes parts.flatten = ofBits (bitsOf parts.flatten) := by
  rw [foldl_update]
  exact ⟨ofBytes_eq _, ofBytes_eq _⟩

/-! ## Bursts -/

theorem length_bitsOf (bytes : List UInt8) : (bitsOf bytes).length = 8 * bytes.length := by
  induction bytes with
  | nil => rfl
  | cons b bytes ih =>
      rw [bitsOf, List.flatMap_cons, List.length_append, ← bitsOf, ih, List.length_map, List.length_range,
        List.length_cons]
      omega

/-- Different bytes have different bits. -/
theorem bitsOf_injective {a b : List UInt8} (h : bitsOf a = bitsOf b) : a = b := by
  induction a generalizing b with
  | nil =>
      cases b with
      | nil => rfl
      | cons y b => cases h
  | cons x a ih =>
      cases b with
      | nil => cases h
      | cons y b =>
          obtain ⟨hbyte, hrest⟩ := List.append_inj h (by simp)
          have hword := congrArg word hbyte
          rw [word_testBit, word_testBit, Nat.mod_eq_of_lt x.toNat_lt, Nat.mod_eq_of_lt y.toNat_lt] at hword
          rw [UInt8.toNat_inj.mp hword, ih hrest]

/-- The same bits take different registers to different ones. -/
theorem foldl_stepBit_injective (bits : List Bool) : Function.Injective fun c => bits.foldl stepBit c := by
  induction bits with
  | nil => exact Function.injective_id
  | cons b bits ih =>
      intro c c' h
      have hstep : stepBit c b = stepBit c' b := ih h
      rw [stepBit_eq, stepBit_eq] at hstep
      exact (UInt32.xor_left_inj _).mp (shift_injective hstep)

/-- No two runs of as many bits as a register has room for lead from a register to the same one. -/
theorem eq_of_foldl_stepBit {x y : List Bool} (hlength : x.length = y.length) (hroom : x.length ≤ 32) {c : UInt32}
    (h : x.foldl stepBit c = y.foldl stepBit c) : x = y := by
  have hlt {bits : List Bool} (hroom : bits.length ≤ 32) : word bits < UInt32.size :=
    Nat.lt_of_lt_of_le (word_lt bits) (Nat.pow_le_pow_right (by decide) hroom)
  rw [foldl_stepBit c hroom, foldl_stepBit c (hlength ▸ hroom), ← hlength] at h
  have hword := (UInt32.xor_right_inj c).mp (shift_injective.iterate _ h)
  rw [← UInt32.toNat_inj, UInt32.toNat_ofNat_of_lt' (hlt hroom),
    UInt32.toNat_ofNat_of_lt' (hlt (hlength ▸ hroom))] at hword
  exact word_injective hlength hword

/-- All bits in which the runs differ lie in a window of 32. -/
def Burst (x y : List Bool) : Prop :=
  ∃ first, ∀ i, x[i]? ≠ y[i]? → first ≤ i ∧ i < first + 32

/-- Around the window the runs are the same, and what is in it has room in a register. -/
theorem Burst.split {x y : List Bool} (h : Burst x y) : ∃ front inner inner' back,
    x = front ++ (inner ++ back) ∧ y = front ++ (inner' ++ back) ∧ inner.length ≤ 32 := by
  obtain ⟨first, h⟩ := h
  -- In front of the first differing bit and behind the window there is no position in which the two differ.
  have hfront : y.take first = x.take first := by
    apply List.ext_getElem?
    intro i
    rw [List.getElem?_take, List.getElem?_take]
    split
    · by_contra hne
      have := h i (Ne.symm hne)
      omega
    · rfl
  have hback : (y.drop first).drop 32 = (x.drop first).drop 32 := by
    apply List.ext_getElem?
    intro i
    rw [List.getElem?_drop, List.getElem?_drop, List.getElem?_drop, List.getElem?_drop]
    by_contra hne
    have := h _ (Ne.symm hne)
    omega
  refine ⟨x.take first, (x.drop first).take 32, (y.drop first).take 32, (x.drop first).drop 32, ?_, ?_, ?_⟩
  · rw [List.take_append_drop, List.take_append_drop]
  · rw [← hfront, ← hback, List.take_append_drop, List.take_append_drop]
  · exact List.length_take_le ..

/-- **No burst of up to 32 bits goes unnoticed**, whatever stands before and behind it. -/
theorem ofBytes_ne_of_burst {a b : List UInt8} (hlength : a.length = b.length) (hne : a ≠ b)
    (hburst : Burst (bitsOf a) (bitsOf b)) : ofBytes a ≠ ofBytes b := by
  intro h
  have hbits : (bitsOf a).length = (bitsOf b).length := by rw [length_bitsOf, length_bitsOf, hlength]
  rw [ofBytes_eq, ofBytes_eq, ofBits, ofBits, UInt32.not_inj] at h
  obtain ⟨front, inner, inner', back, ha, hb, hinner⟩ := hburst.split
  rw [ha, hb, List.foldl_append, List.foldl_append, List.foldl_append, List.foldl_append] at h
  have hlengths : inner.length = inner'.length := by
    rw [ha, hb] at hbits
    simpa using hbits
  -- the bits behind the window move both registers on alike, so they were the same before them
  obtain rfl := eq_of_foldl_stepBit hlengths hinner (foldl_stepBit_injective back h)
  exact hne (bitsOf_injective (ha.trans hb.symm))

/-- One bit more is too much: the generator itself has 33 bits, and is not noticed. -/
example : ofBytes [0x41, 0x06, 0x71, 0xdb, 0x01] = ofBytes [0, 0, 0, 0, 0] := by decide +kernel

end Crc32

/-! ## Four damaged bytes -/

namespace Damage

open Crc32 (Burst bitsOf ofBytes)

/-- The nine digits from 1 to 9. -/
def sent : List UInt8 := [0x31, 0x32, 0x33, 0x34, 0x35, 0x36, 0x37, 0x38, 0x39]

/-- The bytes with 32 of their bits inverted, from bit 12 on. -/
def received : List UInt8 := [0x31, 0xc2, 0xcc, 0xcb, 0xca, 0x39, 0x37, 0x38, 0x39]

/-- The damage is inside of 32 bits. -/
theorem burst_received : Burst (bitsOf sent) (bitsOf received) := by
  refine ⟨12, fun i hi => ?_⟩
  have hlt : i < 72 := by
    by_contra hge
    exact hi (by rw [List.getElem?_eq_none (Nat.not_lt.mp hge), List.getElem?_eq_none (Nat.not_lt.mp hge)])
  have hinside : ∀ i < 72, (bitsOf sent)[i]? ≠ (bitsOf received)[i]? → 12 ≤ i ∧ i < 12 + 32 := by decide +kernel
  exact hinside i hlt hi

/-- The damage is found out. -/
theorem ofBytes_received_ne : sent.length = received.length ∧ sent ≠ received ∧
    Burst (bitsOf sent) (bitsOf received) ∧ ofBytes sent ≠ ofBytes received :=
  have hne : sent ≠ received := by decide
  ⟨rfl, hne, burst_received, Crc32.ofBytes_ne_of_burst rfl hne burst_received⟩

end Damage

end BinaryFormat
