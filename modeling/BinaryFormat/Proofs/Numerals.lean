import BinaryFormat.Numeral

/-!
# What is read as a numeral

A numeral is read from the front, digit by digit, and a number is written from the back. That the two fit together is
shown from what stands behind the digits read so far: unless they are all zero, they are the digits of their value, and
one more digit makes them the digits of the next value. So what is read is a number as it is written, letters in either
case, behind any number of zeros. A sign is a layer of its own around it.

Up to base 16 every digit is an ASCII character, and what a single one of those is worth is looked up.
-/

namespace BinaryFormat.Numeral

/-! ## Digits -/

/-- What holds of each ASCII character at hand. -/
theorem forall_ascii {P : Char → Prop} (h : ∀ n < 128, P (Char.ofNat n)) {c : Char} (hc : c.toNat < 128) : P c := by
  have hp := h c.toNat hc
  rwa [Char.ofNat_toNat] at hp

/-- There are no digits beyond ASCII, other decimal digits of Unicode included. -/
theorem digitValue?_of_not_ascii {c : Char} (hc : ¬c.toNat < 128) : digitValue? c = none := by
  have hle : ∀ d : Char, d.toNat < 128 → ¬c ≤ d := fun d hd h => hc (Nat.lt_of_le_of_lt h hd)
  rw [digitValue?, if_neg fun h => hle '9' (by decide) h.2, if_neg fun h => hle 'z' (by decide) h.2,
    if_neg fun h => hle 'Z' (by decide) h.2]

theorem toLower_of_not_ascii {c : Char} (hc : ¬c.toNat < 128) : c.toLower = c := by
  unfold Char.toLower
  split
  · rename_i h
    have hle : c.toNat ≤ 90 := h.2
    omega
  · rfl

theorem eq_zero_of_toLower {c : Char} (h : c.toLower = '0') : c = '0' := by
  by_cases hc : c.toNat < 128
  · exact forall_ascii (P := fun c => c.toLower = '0' → c = '0') (by decide +kernel) hc h
  · rwa [toLower_of_not_ascii hc] at h

theorem toLower_digitChar {d : Nat} (hd : d < 16) : d.digitChar.toLower = d.digitChar := by
  have hall : ∀ d < 16, d.digitChar.toLower = d.digitChar := by decide
  exact hall d hd

/-- What becomes a digit in lower case is a character of ASCII, and no other letter turns into one. -/
theorem toNat_lt_of_toLower {c : Char} {d : Nat} (hd : d < 16) (h : c.toLower = d.digitChar) : c.toNat < 128 := by
  have hall : ∀ d < 16, d.digitChar.toNat < 128 := by decide
  refine Decidable.byContradiction fun hc => ?_
  rw [toLower_of_not_ascii hc] at h
  exact hc (h ▸ hall d hd)

/-- A digit has the value of its lower case letter, or of its figure. -/
theorem digitValue?_eq_some_iff {c : Char} {d : Nat} (hd : d < 16) :
    digitValue? c = some d ↔ c.toLower = d.digitChar := by
  by_cases hc : c.toNat < 128
  · have hall : ∀ n < 128, ∀ d < 16, digitValue? (Char.ofNat n) = some d ↔ (Char.ofNat n).toLower = d.digitChar := by
      decide +kernel
    exact forall_ascii (P := fun c => ∀ d < 16, digitValue? c = some d ↔ c.toLower = d.digitChar) hall hc d hd
  · rw [digitValue?_of_not_ascii hc]
    exact iff_of_false nofun fun h => hc (toNat_lt_of_toLower hd h)

section Base

variable {base : Nat}

/-- A digit is one in lower case, whatever its case. -/
theorem digit?_eq_some_iff (hb : base ≤ 16) {c : Char} {d : Nat} :
    digit? base c = some d ↔ d < base ∧ c.toLower = d.digitChar := by
  rw [digit?, Option.filter_eq_some_iff, decide_eq_true_eq]
  constructor
  · rintro ⟨hc, hd⟩
    exact ⟨hd, (digitValue?_eq_some_iff (Nat.lt_of_lt_of_le hd hb)).mp hc⟩
  · rintro ⟨hd, hc⟩
    exact ⟨(digitValue?_eq_some_iff (Nat.lt_of_lt_of_le hd hb)).mpr hc, hd⟩

theorem digit?_digitChar (hb : base ≤ 16) {d : Nat} (hd : d < base) : digit? base d.digitChar = some d :=
  (digit?_eq_some_iff hb).mpr ⟨hd, toLower_digitChar (Nat.lt_of_lt_of_le hd hb)⟩

/-- The case of a digit does not matter. -/
theorem digit?_toLower (hb : base ≤ 16) (c : Char) : digit? base c.toLower = digit? base c := by
  have htwice : c.toLower.toLower = c.toLower := by
    by_cases hc : c.toNat < 128
    · exact forall_ascii (P := fun c => c.toLower.toLower = c.toLower) (by decide +kernel) hc
    · rw [toLower_of_not_ascii hc, toLower_of_not_ascii hc]
  refine Option.ext fun d => ?_
  rw [digit?_eq_some_iff hb, digit?_eq_some_iff hb, htwice]

/-! ## Digits one after the other -/

/-- Digits are read one after the other, so a number may be read in two goes. -/
theorem extend?_append (n : Nat) (cs ds : List Char) :
    extend? base n (cs ++ ds) = (extend? base n cs).bind fun m => extend? base m ds := by
  induction cs generalizing n with
  | nil => rfl
  | cons c cs ih =>
      rw [List.cons_append, extend?, extend?]
      cases digit? base c with
      | none => rfl
      | some d => exact ih _

theorem extend?_map_toLower (hb : base ≤ 16) (n : Nat) (cs : List Char) :
    extend? base n (cs.map Char.toLower) = extend? base n cs := by
  induction cs generalizing n with
  | nil => rfl
  | cons c cs ih =>
      rw [List.map_cons, extend?, extend?, digit?_toLower hb]
      cases digit? base c with
      | none => rfl
      | some d => exact ih _

/-- Zeros in front add nothing. -/
theorem extend?_zeros (hb : 1 < base ∧ base ≤ 16) {zeros : List Char} (h : ∀ c ∈ zeros, c = '0') :
    extend? base 0 zeros = some 0 := by
  induction zeros with
  | nil => rfl
  | cons c zeros ih =>
      obtain ⟨rfl, hzeros⟩ := List.forall_mem_cons.mp h
      have hzero : digit? base '0' = some 0 := digit?_digitChar hb.2 (Nat.lt_trans Nat.zero_lt_one hb.1)
      rw [extend?, hzero, Option.bind_some, Nat.zero_mul, Nat.add_zero]
      exact ih hzeros

/-- The digits of a numeral are digits of its base. -/
theorem exists_of_mem_toDigits {base n : Nat} (hb : 1 < base) :
    ∀ c ∈ Nat.toDigits base n, ∃ d < base, c = d.digitChar := by
  induction n using Nat.strongRecOn with
  | _ n ih =>
      intro c hc
      -- the last digit is a remainder, and those before it are the digits of a smaller number
      rw [Nat.toDigits_eq_if hb] at hc
      split at hc
      · rename_i hn
        exact ⟨n, hn, List.mem_singleton.1 hc⟩
      · rename_i hn
        rcases List.mem_append.1 hc with hc | hc
        · exact ih (n / base) (Nat.div_lt_self (by omega) hb) c hc
        · exact ⟨n % base, Nat.mod_lt _ (by omega), List.mem_singleton.1 hc⟩

/-- The digits of a number are read as the number. -/
theorem extend?_toDigits (hb : 1 < base ∧ base ≤ 16) (n : Nat) : extend? base 0 (Nat.toDigits base n) = some n := by
  induction n using Nat.strongRecOn with
  | _ n ih =>
      have hpos : 0 < base := Nat.lt_trans Nat.zero_lt_one hb.1
      rw [Nat.toDigits_eq_if hb.1]
      split
      · rename_i hn
        rw [extend?, digit?_digitChar hb.2 hn, Option.bind_some, Nat.zero_mul, Nat.zero_add]
        rfl
      · rename_i hn
        have hlast : digit? base (n % base).digitChar = some (n % base) := digit?_digitChar hb.2 (Nat.mod_lt n hpos)
        rw [extend?_append, ih (n / base) (Nat.div_lt_self (by omega) hb.1), Option.bind_some, extend?, hlast,
          Option.bind_some, Nat.div_add_mod']
        rfl

/-- Digits that are read behind a number in front, which is not zero, are the further digits of the value. -/
theorem toDigits_append_of_extend? (hb : 1 < base ∧ base ≤ 16) {m n : Nat} {cs : List Char} (hm : 0 < m)
    (h : extend? base m cs = some n) : Nat.toDigits base m ++ cs.map Char.toLower = Nat.toDigits base n := by
  induction cs generalizing m with
  | nil =>
      obtain rfl := Option.some.inj h
      exact List.append_nil _
  | cons c cs ih =>
      obtain ⟨d, hd, hcs⟩ := Option.bind_eq_some_iff.mp h
      obtain ⟨hlt, hc⟩ := (digit?_eq_some_iff hb.2).mp hd
      have hnext : Nat.toDigits base m ++ [d.digitChar] = Nat.toDigits base (m * base + d) := by
        rw [← Nat.toDigits_of_lt_base hlt, Nat.toDigits_append_toDigits hb.1 hm hlt, Nat.mul_comm]
      have hpos : 0 < m * base + d := Nat.add_pos_left (Nat.mul_pos hm (Nat.lt_trans Nat.zero_lt_one hb.1)) d
      rw [List.map_cons, hc, List.append_cons, hnext]
      exact ih hpos hcs

/-- The characters are a number as it is written in the base, letters in either case, behind any number of zeros. -/
def Spells (base n : Nat) (cs : List Char) : Prop :=
  ∃ zeros digits, cs = zeros ++ digits ∧ (∀ c ∈ zeros, c = '0') ∧ digits.map Char.toLower = Nat.toDigits base n

/-- The digits of a number spell it. -/
theorem spells_toDigits (hb : 1 < base ∧ base ≤ 16) (n : Nat) : Spells base n (Nat.toDigits base n) := by
  refine ⟨[], _, rfl, nofun, (List.map_congr_left fun c hc => ?_).trans (List.map_id _)⟩
  obtain ⟨d, hd, rfl⟩ := exists_of_mem_toDigits hb.1 c hc
  exact toLower_digitChar (Nat.lt_of_lt_of_le hd hb.2)

/-- What is read as a number spells it: zeros first, and from the first other digit on its digits. -/
theorem spells_of_extend? (hb : 1 < base ∧ base ≤ 16) {n : Nat} {c : Char} {cs : List Char}
    (h : extend? base 0 (c :: cs) = some n) : Spells base n (c :: cs) := by
  induction cs generalizing c with
  | nil =>
      obtain ⟨d, hd, hn⟩ := Option.bind_eq_some_iff.mp h
      obtain ⟨hlt, hc⟩ := (digit?_eq_some_iff hb.2).mp hd
      rw [Nat.zero_mul, Nat.zero_add] at hn
      obtain rfl := Option.some.inj hn
      exact ⟨[], [c], rfl, nofun, by rw [Nat.toDigits_of_lt_base hlt, ← hc]; rfl⟩
  | cons c' cs ih =>
      obtain ⟨d, hd, hcs⟩ := Option.bind_eq_some_iff.mp h
      obtain ⟨hlt, hc⟩ := (digit?_eq_some_iff hb.2).mp hd
      rw [Nat.zero_mul, Nat.zero_add] at hcs
      rcases Nat.eq_zero_or_pos d with rfl | hpos
      · -- a zero in front is one of the zeros
        have hzero : c = '0' := eq_zero_of_toLower hc
        obtain ⟨zeros, digits, hsplit, hzeros, hdigits⟩ := ih hcs
        refine ⟨c :: zeros, digits, congrArg (c :: ·) hsplit, List.forall_mem_cons.mpr ⟨hzero, hzeros⟩, hdigits⟩
      · refine ⟨[], c :: c' :: cs, rfl, nofun, ?_⟩
        rw [← toDigits_append_of_extend? hb hpos hcs, Nat.toDigits_of_lt_base hlt, ← hc]
        rfl

/-- Exactly the spellings of a number are read as the number. -/
theorem natural?_eq_some_iff (hb : 1 < base ∧ base ≤ 16) {n : Nat} {cs : List Char} :
    natural? base cs = some n ↔ Spells base n cs := by
  constructor
  · intro h
    cases cs with
    | nil => cases h
    | cons c cs => exact spells_of_extend? hb h
  · rintro ⟨zeros, digits, rfl, hzeros, hdigits⟩
    -- Zeros in front change nothing, and the digits of a number are read as the number.
    have hread : extend? base 0 (zeros ++ digits) = some n := by
      rw [extend?_append, extend?_zeros hb hzeros, Option.bind_some, ← extend?_map_toLower hb.2, hdigits,
        extend?_toDigits hb]
    cases hcs : zeros ++ digits with
    | nil =>
        obtain ⟨-, rfl⟩ := List.append_eq_nil_iff.mp hcs
        exact absurd hdigits.symm Nat.toDigits_ne_nil
    | cons c cs =>
        rw [hcs] at hread
        exact hread

/-! ## Signs -/

/-- The characters are an integer as it is written in the base, with a sign or, unless it is negative, without. -/
def Writes (base : Nat) (n : Int) (cs : List Char) : Prop :=
  ∃ sign digits, cs = sign ++ digits ∧ Spells base n.natAbs digits ∧
    ((sign = [] ∨ sign = ['+']) ∧ 0 ≤ n ∨ sign = ['-'] ∧ n ≤ 0)

/-- A sign is no digit. -/
theorem natural?_sign {sign : Char} (h : sign = '+' ∨ sign = '-') (cs : List Char) :
    natural? base (sign :: cs) = none := by
  have hsign : digitValue? sign = none := by rcases h with rfl | rfl <;> rfl
  rw [natural?, extend?, digit?, hsign]
  rfl

/-- Exactly the written forms of an integer are read as the integer. -/
theorem integer?_eq_some_iff (hb : 1 < base ∧ base ≤ 16) {n : Int} {cs : List Char} :
    integer? base cs = some n ↔ Writes base n cs := by
  constructor
  · intro h
    unfold integer? at h
    split at h
    · obtain ⟨m, hm, rfl⟩ := Option.map_eq_some_iff.mp h
      exact ⟨['+'], _, rfl, (natural?_eq_some_iff hb).mp hm, .inl ⟨.inr rfl, Int.natCast_nonneg m⟩⟩
    · obtain ⟨m, hm, rfl⟩ := Option.map_eq_some_iff.mp h
      refine ⟨['-'], _, rfl, ?_, .inr ⟨rfl, Int.neg_nonpos_of_nonneg (Int.natCast_nonneg m)⟩⟩
      rw [Int.natAbs_neg]
      exact (natural?_eq_some_iff hb).mp hm
    · obtain ⟨m, hm, rfl⟩ := Option.map_eq_some_iff.mp h
      exact ⟨[], _, rfl, (natural?_eq_some_iff hb).mp hm, .inl ⟨.inl rfl, Int.natCast_nonneg m⟩⟩
  · rintro ⟨sign, digits, rfl, hdigits, ⟨rfl | rfl, hn⟩ | ⟨rfl, hn⟩⟩
    · have hread := (natural?_eq_some_iff hb).mpr hdigits
      -- A numeral without a sign does not begin with one, so the first two cases of the reader pass it over.
      have hnot : ∀ sign, sign = '+' ∨ sign = '-' → ∀ cs, digits ≠ sign :: cs := by
        rintro sign h cs rfl
        rw [natural?_sign h] at hread
        cases hread
      rw [List.nil_append, integer?, hread]
      · exact congrArg some (Int.natAbs_of_nonneg hn)
      · exact hnot '+' (.inl rfl)
      · exact hnot '-' (.inr rfl)
    · show (natural? base digits).map Int.ofNat = some n
      rw [(natural?_eq_some_iff hb).mpr hdigits]
      exact congrArg some (Int.natAbs_of_nonneg hn)
    · show (natural? base digits).map (fun n => -Int.ofNat n) = some n
      rw [(natural?_eq_some_iff hb).mpr hdigits]
      exact congrArg some (by show -(n.natAbs : Int) = n; omega)

/-- An integer is a word if it is in the range of words. -/
theorem toInt64?_eq_some_iff {n : Int} {w : Int64} : toInt64? n = some w ↔ w.toInt = n := by
  unfold toInt64?
  constructor
  · intro h
    split at h
    · rename_i hrange
      obtain rfl := Option.some.inj h
      exact Int64.toInt_ofInt_of_le hrange.1 (Int.lt_of_le_of_lt hrange.2 (by decide))
    · cases h
  · rintro rfl
    rw [if_pos ⟨w.minValue_le_toInt, w.toInt_le⟩, Int64.ofInt_toInt]

theorem toInt64?_toInt (w : Int64) : toInt64? w.toInt = some w := toInt64?_eq_some_iff.mpr rfl

/-- Exactly the written forms of a word are read as the word; the others are out of range or no integers. -/
theorem int64?_eq_some_iff (hb : 1 < base ∧ base ≤ 16) {w : Int64} {cs : List Char} :
    int64? base cs = some w ↔ Writes base w.toInt cs := by
  rw [int64?, Option.bind_eq_some_iff, ← integer?_eq_some_iff hb]
  constructor
  · rintro ⟨n, hn, hw⟩
    rwa [toInt64?_eq_some_iff.mp hw]
  · intro h
    exact ⟨w.toInt, h, toInt64?_toInt w⟩

end Base

end BinaryFormat.Numeral
