import Mathlib.Order.Bounds.Basic
import BinaryFormat.Proofs.Records

/-!
# What is read as bytes in hexadecimal

A text is cut into pairs of bytes, and a character that is no ASCII character takes more than one of them, so a cut may
go through the middle of it. It need not be known where: such a character is no digit, and neither is its first byte.
Hence up to the first pair that is not two digits characters and bytes are the same, and the pair that is refused among
the characters is the first one to be refused among the bytes.

What is read is written as the text that it was read from, but for spaces and the case of letters. So the bytes are read
back from what is written of them, and texts of two digits a byte are the only ones that are read.
-/

namespace BinaryFormat.Hex

/-! ## Digits -/

/-- One of the hexadecimal digits, in either case. -/
def IsDigit (c : Char) : Prop := ('0' ≤ c ∧ c ≤ '9') ∨ ('a' ≤ c ∧ c ≤ 'f') ∨ ('A' ≤ c ∧ c ≤ 'F')

/-- Digits are told by comparing code points. -/
instance (c : Char) : Decidable (IsDigit c) := inferInstanceAs (Decidable (_ ∨ _))

theorem IsDigit.toNat_lt {c : Char} (h : IsDigit c) : c.toNat < 128 := by
  have hle : ∀ d : Char, d.toNat < 128 → c ≤ d → c.toNat < 128 := fun d hd h => Nat.lt_of_le_of_lt h hd
  rcases h with h | h | h
  · exact hle '9' (by decide) h.2
  · exact hle 'f' (by decide) h.2
  · exact hle 'F' (by decide) h.2

/-- Digits are what digits are written with, up to the case of letters. -/
theorem isDigit_iff {c : Char} : IsDigit c ↔ ∃ d < 16, c.toLower = d.digitChar := by
  by_cases hc : c.toNat < 128
  · have hall : ∀ n < 128, IsDigit (Char.ofNat n) ↔ ∃ d < 16, (Char.ofNat n).toLower = d.digitChar := by
      decide +kernel
    exact Numeral.forall_ascii (P := fun c => IsDigit c ↔ ∃ d < 16, c.toLower = d.digitChar) hall hc
  · refine iff_of_false (fun h => hc h.toNat_lt) ?_
    rintro ⟨d, hd, h⟩
    exact hc (Numeral.toNat_lt_of_toLower hd h)

variable {a b : Char} {cs text : List Char} {x : UInt8} {bytes : List UInt8} {place : Nat}

/-- A byte that is read from two characters is written with these, in lower case. -/
theorem digits_of_byte? (h : byte? a b = some x) : digits x = [a.toLower, b.toLower] := by
  obtain ⟨high, ha, h⟩ := Option.bind_eq_some_iff.mp h
  obtain ⟨low, hb, h⟩ := Option.bind_eq_some_iff.mp h
  obtain ⟨hhigh, ha⟩ := (Numeral.digit?_eq_some_iff (by decide)).mp ha
  obtain ⟨hlow, hb⟩ := (Numeral.digit?_eq_some_iff (by decide)).mp hb
  obtain rfl := Option.some.inj h
  have hlt : 16 * high + low < UInt8.size := by
    show _ < 256
    omega
  have hdiv : (16 * high + low) / 16 = high := by omega
  have hmod : (16 * high + low) % 16 = low := by omega
  rw [digits_eq, UInt8.toNat_ofNat_of_lt' hlt, hdiv, hmod, ha, hb]

theorem isDigit_of_byte? (h : byte? a b = some x) : IsDigit a ∧ IsDigit b := by
  obtain ⟨high, ha, h⟩ := Option.bind_eq_some_iff.mp h
  obtain ⟨low, hb, -⟩ := Option.bind_eq_some_iff.mp h
  exact ⟨isDigit_iff.mpr ⟨high, (Numeral.digit?_eq_some_iff (by decide)).mp ha⟩,
    isDigit_iff.mpr ⟨low, (Numeral.digit?_eq_some_iff (by decide)).mp hb⟩⟩

/-- A pair is refused only if one of the two is no digit. -/
theorem not_isDigit_of_byte? (h : byte? a b = none) : ¬(IsDigit a ∧ IsDigit b) := by
  rintro ⟨ha, hb⟩
  obtain ⟨high, ha⟩ := isDigit_iff.mp ha
  obtain ⟨low, hb⟩ := isDigit_iff.mp hb
  rw [byte?, (Numeral.digit?_eq_some_iff (by decide)).mpr ha, (Numeral.digit?_eq_some_iff (by decide)).mpr hb] at h
  cases h

/-! ## What is written of the bytes that are read -/

theorem length_encode (bytes : List UInt8) : (encode bytes).length = 2 * bytes.length := by
  induction bytes with
  | nil => rfl
  | cons x bytes ih => rw [encode_cons, List.length_cons, List.length_cons, ih, List.length_cons, Nat.mul_succ]

theorem isDigit_of_mem_encode {c : Char} (h : c.toLower ∈ encode bytes) : IsDigit c := by
  obtain ⟨x, -, hc⟩ := List.mem_flatMap.mp h
  rw [digits_eq] at hc
  rcases List.mem_cons.mp hc with hc | hc
  · exact isDigit_iff.mpr ⟨_, Nat.div_lt_of_lt_mul x.toNat_lt, hc⟩
  · exact isDigit_iff.mpr ⟨_, Nat.mod_lt _ (by decide), List.mem_singleton.mp hc⟩

/-- What is read is written again as it stood, in lower case. -/
theorem encode_of_decodePairs (h : decodePairs place cs = .ok bytes) : encode bytes = cs.map Char.toLower := by
  induction place, cs using decodePairs.induct generalizing bytes with
  | case1 place =>
      cases h
      rfl
  | case2 place c => cases h
  | case3 place a b cs x hx ih =>
      rw [decodePairs, hx] at h
      cases hcs : decodePairs (place + 2) cs with
      | error p =>
          rw [hcs] at h
          cases h
      | ok bytes' =>
          rw [hcs] at h
          cases h
          rw [encode, List.flatMap_cons, digits_of_byte? hx, ← encode, ih hcs]
          rfl
  | case4 place a b cs hx =>
      rw [decodePairs, hx] at h
      cases h

/-! ## Characters and bytes -/

/-- The bytes of a text in UTF-8. -/
def octets (cs : List Char) : List UInt8 := cs.flatMap String.utf8EncodeChar

/-- A text has as many octets as its characters have bytes in UTF-8. -/
theorem length_octets (cs : List Char) : (octets cs).length = Text.byteLength cs := by
  induction cs with
  | nil => rfl
  | cons c cs ih =>
      rw [octets, List.flatMap_cons, List.length_append, String.length_utf8EncodeChar, ← octets, ih,
        Text.byteLength_cons]

theorem not_isDigit_of_utf8Size {c : Char} (h : c.utf8Size ≠ 1) : ¬IsDigit c := fun hc =>
  h (Char.utf8Size_eq_one_iff.mpr (UInt32.le_iff_toNat_le.mpr (Nat.le_of_lt_succ hc.toNat_lt)))

/-- A byte in front of others has its highest bit set. -/
theorem not_isDigit_lead {x y : UInt8} (hy : 128 ≤ y.toNat) : ¬IsDigit (Char.ofUInt8 (x ||| y)) := by
  intro h
  have hlt : (x ||| y).toUInt32.toNat < 128 := h.toNat_lt
  rw [UInt8.toNat_toUInt32, UInt8.toNat_or] at hlt
  exact Nat.not_le.mpr hlt (Nat.le_trans hy Nat.right_le_or)

theorem ofUInt8_toUInt8 {c : Char} (h : c.val.toNat < 256) : Char.ofUInt8 c.val.toUInt8 = c := by
  refine Char.ext (UInt32.toNat_inj.mp ?_)
  show c.val.toUInt8.toUInt32.toNat = c.val.toNat
  rw [UInt8.toNat_toUInt32, UInt32.toNat_toUInt8, Nat.mod_eq_of_lt h]

/-- The first byte of a character is a digit if the character is one, and then it is the only byte. -/
theorem exists_utf8EncodeChar_eq (c : Char) : ∃ x xs, String.utf8EncodeChar c = x :: xs ∧
    (IsDigit (Char.ofUInt8 x) ↔ IsDigit c) ∧ (IsDigit c → xs = []) := by
  by_cases hsize : c.utf8Size = 1
  · have hlt : c.val.toNat < 256 := Nat.lt_of_le_of_lt (Char.utf8Size_eq_one_iff.mp hsize) (by decide)
    exact ⟨_, _, String.utf8EncodeChar_eq_singleton hsize, by rw [ofUInt8_toUInt8 hlt], fun _ => rfl⟩
  · have hc : ¬IsDigit c := not_isDigit_of_utf8Size hsize
    obtain ⟨x, xs, h, hx⟩ : ∃ x xs, String.utf8EncodeChar c = x :: xs ∧ ¬IsDigit (Char.ofUInt8 x) := by
      rcases Char.utf8Size_eq c with h | h | h | h
      · exact absurd h hsize
      · exact ⟨_, _, String.utf8EncodeChar_eq_cons_cons h, not_isDigit_lead (by decide)⟩
      · exact ⟨_, _, String.utf8EncodeChar_eq_cons_cons_cons h, not_isDigit_lead (by decide)⟩
      · exact ⟨_, _, String.utf8EncodeChar_eq_cons_cons_cons_cons h, not_isDigit_lead (by decide)⟩
    exact ⟨x, xs, h, iff_of_false hx hc, fun hdigit => absurd hdigit hc⟩

theorem utf8EncodeChar_of_isDigit {c : Char} (h : IsDigit c) :
    ∃ x, String.utf8EncodeChar c = [x] ∧ IsDigit (Char.ofUInt8 x) := by
  obtain ⟨x, xs, hc, hx, hxs⟩ := exists_utf8EncodeChar_eq c
  exact ⟨x, hxs h ▸ hc, hx.mpr h⟩

/-- Digits are bytes of their own. -/
theorem octets_of_isDigit (h : ∀ c ∈ cs, IsDigit c) :
    (octets cs).length = cs.length ∧ ∀ x ∈ octets cs, IsDigit (Char.ofUInt8 x) := by
  induction cs with
  | nil => exact ⟨rfl, nofun⟩
  | cons c cs ih =>
      obtain ⟨hc, hcs⟩ := List.forall_mem_cons.mp h
      obtain ⟨x, hx, hdigit⟩ := utf8EncodeChar_of_isDigit hc
      obtain ⟨hlength, hall⟩ := ih hcs
      rw [octets, List.flatMap_cons, hx, ← octets]
      exact ⟨congrArg (· + 1) hlength, List.forall_mem_cons.mpr ⟨hdigit, hall⟩⟩

/-! ## The pair that is refused -/

/-- At this even place two bytes begin, or one that is the last, that are not both digits. -/
def IsBadPair (bytes : List UInt8) (i : Nat) : Prop :=
  i % 2 = 0 ∧ ∃ x ∈ (bytes.drop i).take 2, ¬IsDigit (Char.ofUInt8 x)

/-- Places are counted in bytes, so behind one pair they are two less. -/
theorem isBadPair_add_two_iff {x y : UInt8} {i : Nat} :
    IsBadPair (x :: y :: bytes) (i + 2) ↔ IsBadPair bytes i := by
  rw [IsBadPair, IsBadPair, Nat.add_mod_right]
  rfl

/-- Behind a pair of digits the first bad pair is still the first one. -/
theorem isLeast_isBadPair_cons {x y : UInt8} {k : Nat} (hx : IsDigit (Char.ofUInt8 x)) (hy : IsDigit (Char.ofUInt8 y))
    (h : IsLeast {i | IsBadPair bytes i} k) : IsLeast {i | IsBadPair (x :: y :: bytes) i} (k + 2) := by
  refine ⟨isBadPair_add_two_iff.mpr h.1, fun i hi => ?_⟩
  match i, hi with
  | 0, ⟨_, z, hz, hbad⟩ =>
      rcases List.mem_cons.mp hz with rfl | hz
      · exact absurd hx hbad
      · obtain rfl := List.mem_singleton.mp hz
        exact absurd hy hbad
  | i + 2, hi => exact Nat.add_le_add_right (h.2 (isBadPair_add_two_iff.mp hi)) 2

/-- Where two characters are no byte, the first two octets are not both digits. -/
theorem isBadPair_zero (hbyte : byte? a b = none) : IsBadPair (octets (a :: b :: cs)) 0 := by
  obtain ⟨x, xs, ha, hx, hxs⟩ := exists_utf8EncodeChar_eq a
  obtain ⟨y, ys, hb, hy, -⟩ := exists_utf8EncodeChar_eq b
  rw [octets, List.flatMap_cons, List.flatMap_cons, ha, hb]
  refine ⟨rfl, ?_⟩
  by_cases hdigit : IsDigit a
  · rw [hxs hdigit]
    exact ⟨y, .tail _ (.head _), fun h => not_isDigit_of_byte? hbyte ⟨hdigit, hy.mp h⟩⟩
  · exact ⟨x, .head _, fun h => hdigit (hx.mp h)⟩

/-- The characters are refused at the first pair of bytes that is not two digits. -/
theorem isLeast_of_decodePairs {p : Problem} (heven : (octets cs).length % 2 = 0)
    (h : decodePairs place cs = .error p) :
    ∃ k, p = .invalidPair (place + k) ∧ IsLeast {i | IsBadPair (octets cs) i} k := by
  induction place, cs using decodePairs.induct with
  | case1 place => cases h
  | case2 place c =>
      -- a digit would be the only byte
      obtain ⟨x, xs, hc, hx, hxs⟩ := exists_utf8EncodeChar_eq c
      rw [octets, List.flatMap_singleton, hc] at heven ⊢
      have hdigit : ¬IsDigit c := by
        intro hdigit
        rw [hxs hdigit] at heven
        cases heven
      cases h
      exact ⟨0, rfl, ⟨rfl, x, .head _, fun h => hdigit (hx.mp h)⟩, fun i _ => Nat.zero_le i⟩
  | case3 place a b cs byte hbyte ih =>
      obtain ⟨ha, hb⟩ := isDigit_of_byte? hbyte
      obtain ⟨x, hxa, hx⟩ := utf8EncodeChar_of_isDigit ha
      obtain ⟨y, hyb, hy⟩ := utf8EncodeChar_of_isDigit hb
      have hoctets : octets (a :: b :: cs) = x :: y :: octets cs := by
        rw [octets, List.flatMap_cons, List.flatMap_cons, hxa, hyb]
        rfl
      rw [hoctets] at heven ⊢
      rw [decodePairs, hbyte] at h
      cases hcs : decodePairs (place + 2) cs with
      | ok bytes =>
          rw [hcs] at h
          cases h
      | error p' =>
          rw [hcs] at h
          cases h
          obtain ⟨k, rfl, hk⟩ := ih (by rw [List.length_cons, List.length_cons] at heven; omega) hcs
          exact ⟨k + 2, by rw [Nat.add_assoc, Nat.add_comm 2 k], isLeast_isBadPair_cons hx hy hk⟩
  | case4 place a b cs hbyte =>
      rw [decodePairs, hbyte] at h
      cases h
      exact ⟨0, rfl, isBadPair_zero hbyte, fun i _ => Nat.zero_le i⟩

/-! ## Whole texts -/

/-- A text without its spaces. -/
def packed (text : List Char) : List Char := text.filter (· != ' ')

theorem decode_eq_of_even (h : (octets (packed text)).length % 2 = 0) : decode text = decodePairs 0 (packed text) := by
  rw [length_octets] at h
  exact if_pos h

theorem decode_eq_oddLength (h : ¬(octets (packed text)).length % 2 = 0) : decode text = .error .oddLength := by
  rw [length_octets] at h
  exact if_neg h

theorem encode_of_decode (h : decode text = .ok bytes) : encode bytes = (packed text).map Char.toLower := by
  by_cases heven : (octets (packed text)).length % 2 = 0
  · rw [decode_eq_of_even heven] at h
    exact encode_of_decodePairs h
  · rw [decode_eq_oddLength heven] at h
    cases h

/-- A text is read if it has an even number of characters, all of them digits, apart from its spaces. -/
theorem exists_decode_iff : (∃ bytes, decode text = .ok bytes) ↔
    (packed text).length % 2 = 0 ∧ ∀ c ∈ packed text, IsDigit c := by
  constructor
  · rintro ⟨bytes, h⟩
    have hencode := encode_of_decode h
    refine ⟨?_, fun c hc => ?_⟩
    · rw [← List.length_map (f := Char.toLower), ← hencode, length_encode]
      exact Nat.mul_mod_right 2 _
    · exact isDigit_of_mem_encode (hencode ▸ List.mem_map_of_mem hc)
  · rintro ⟨heven, hdigits⟩
    -- Digits take one octet each, so the number of octets is even as well and no pair of them is bad.
    obtain ⟨hlength, hoctets⟩ := octets_of_isDigit hdigits
    rw [← hlength] at heven
    rw [decode_eq_of_even heven]
    cases h : decodePairs 0 (packed text) with
    | ok bytes => exact ⟨bytes, rfl⟩
    | error p =>
        obtain ⟨k, -, ⟨-, x, hx, hbad⟩, -⟩ := isLeast_of_decodePairs heven h
        exact absurd (hoctets x (List.mem_of_mem_drop (List.mem_of_mem_take hx))) hbad

/-- The length that is found odd is the one in UTF-8. -/
theorem decode_eq_oddLength_iff :
    decode text = .error .oddLength ↔ (octets (packed text)).length % 2 = 1 := by
  constructor
  · intro h
    rcases Nat.mod_two_eq_zero_or_one (octets (packed text)).length with heven | hodd
    · rw [decode_eq_of_even heven] at h
      obtain ⟨k, hk, -⟩ := isLeast_of_decodePairs heven h
      cases hk
    · exact hodd
  · intro hodd
    exact decode_eq_oddLength (by rw [hodd]; decide)

/-- The place that is reported is that of the first bad pair, and it is only looked for in texts of even length. -/
theorem decode_eq_invalidPair_iff : decode text = .error (.invalidPair place) ↔
    (octets (packed text)).length % 2 = 0 ∧ IsLeast {i | IsBadPair (octets (packed text)) i} place := by
  constructor
  · intro h
    by_cases heven : (octets (packed text)).length % 2 = 0
    · rw [decode_eq_of_even heven] at h
      obtain ⟨k, hk, hleast⟩ := isLeast_of_decodePairs heven h
      obtain rfl : place = 0 + k := Problem.invalidPair.inj hk
      rw [Nat.zero_add]
      exact ⟨heven, hleast⟩
    · rw [decode_eq_oddLength heven] at h
      cases h
  · rintro ⟨heven, hleast⟩
    cases h : decode text with
    | ok bytes =>
        -- no pair of digits is refused
        obtain ⟨-, hdigits⟩ := exists_decode_iff.mp ⟨bytes, h⟩
        obtain ⟨-, x, hx, hbad⟩ := hleast.1
        exact absurd ((octets_of_isDigit hdigits).2 x (List.mem_of_mem_drop (List.mem_of_mem_take hx))) hbad
    | error p =>
        rw [decode_eq_of_even heven] at h
        obtain ⟨k, rfl, hk⟩ := isLeast_of_decodePairs heven h
        rw [Nat.zero_add, hk.unique hleast]

/-- **Bytes in hexadecimal.** Bytes are read back from what is written of them. A text is read if and only if it is an
even number of digits without its spaces, and then it is what is written of the bytes, but for the case of its letters.
Otherwise it is refused for its length if that is an odd number of bytes, and else for the first pair of bytes that is
not two digits. -/
theorem decode_exact : (∀ bytes, decode (encode bytes) = .ok bytes) ∧
    ∀ text,
      ((∃ bytes, decode text = .ok bytes) ↔ (packed text).length % 2 = 0 ∧ ∀ c ∈ packed text, IsDigit c) ∧
      (∀ bytes, decode text = .ok bytes → encode bytes = (packed text).map Char.toLower) ∧
      (decode text = .error .oddLength ↔ (octets (packed text)).length % 2 = 1) ∧
      ∀ place, decode text = .error (.invalidPair place) ↔
        (octets (packed text)).length % 2 = 0 ∧ IsLeast {i | IsBadPair (octets (packed text)) i} place :=
  ⟨decode_encode, fun _ =>
    ⟨exists_decode_iff, fun _ => encode_of_decode, decode_eq_oddLength_iff, fun _ => decode_eq_invalidPair_iff⟩⟩

-- the second pair is cut out of the two bytes of its last character
example : decode ['0', '0', ' ', '1', 'é', '1'] = .error (.invalidPair 2) := by decide

end BinaryFormat.Hex
