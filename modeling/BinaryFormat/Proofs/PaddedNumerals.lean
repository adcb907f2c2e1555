import BinaryFormat.Builtin
import BinaryFormat.Proofs.Numerals

/-!
# Numerals in text fields

A text field of fixed width pads its numeral, with NUL bytes or spaces behind it and with blanks in front, and a
hexadecimal one may be marked as such. Nothing of this is part of a numeral: signs and digits are no blanks and no
padding, and no digit is an `x`. Hence what is left of a text without its padding is the numeral that was padded, and
the texts that hold a numeral are just those that are read as one. All others count as zero, so that only the base can
make a call fail.
-/

namespace BinaryFormat

/-- What cannot stand for an integer is a text, and an error of types. -/
theorem Value.kind_of_toInt {v : Value} {e : EvalError} (h : v.toInt = .error e) : e.kind = .typeMismatch := by
  cases v with
  | int n => cases h
  | bool b => cases h
  | text s =>
      cases hn : Numeral.int64? 10 (Text.trim s.toList) with
      | some n =>
          rw [toInt, hn] at h
          cases h
      | none =>
          rw [toInt, hn] at h
          cases h
          rfl

namespace Builtin

/-- What may stand in front of a hexadecimal numeral, before its sign. -/
def IsMark (base : Nat) (mark : List Char) : Prop :=
  mark = [] ∨ base = 16 ∧ (mark = ['0', 'x'] ∨ mark = ['0', 'X'])

/-- The text is blanks, the numeral of an integer, perhaps with a mark in front, and padding. -/
def Holds (base : Nat) (n : Int) (text : List Char) : Prop :=
  ∃ blanks mark numeral padding, text = blanks ++ (mark ++ numeral) ++ padding ∧
    (∀ c ∈ blanks, Text.isBlank c = true) ∧ IsMark base mark ∧ Numeral.Writes base n numeral ∧
    ∀ c ∈ padding, c = '\x00' ∨ c = ' '

/-- Behind a numeral only NUL characters and spaces are padding, not every blank. -/
theorem isPadding_iff {c : Char} : isPadding c = true ↔ c = '\x00' ∨ c = ' ' := by
  rw [isPadding, Bool.or_eq_true, beq_iff_eq, beq_iff_eq]

/-! ## Taking a text apart -/

/-- What is left of a text, with what was taken away from it. -/
theorem exists_eq_paddedDigits (base : Nat) (text : List Char) : ∃ blanks mark padding,
    text = blanks ++ (mark ++ paddedDigits base text) ++ padding ∧ (∀ c ∈ blanks, Text.isBlank c = true) ∧
      IsMark base mark ∧ ∀ c ∈ padding, c = '\x00' ∨ c = ' ' := by
  -- What is taken away, from the outside in: the padding behind, the blanks in front, and a mark of the base.
  obtain ⟨padding, htext, hpadding⟩ := Text.exists_eq_dropEndWhile isPadding text
  obtain ⟨mark, hmark, htrimmed⟩ : ∃ mark, IsMark base mark ∧
      (Text.dropEndWhile isPadding text).dropWhile Text.isBlank = mark ++ paddedDigits base text := by
    unfold paddedDigits
    dsimp only
    split
    · rename_i hbase
      split
      · rename_i h
        exact ⟨['0', 'x'], .inr ⟨hbase, .inl rfl⟩, h⟩
      · rename_i h
        exact ⟨['0', 'X'], .inr ⟨hbase, .inr rfl⟩, h⟩
      · exact ⟨[], .inl rfl, rfl⟩
    · exact ⟨[], .inl rfl, rfl⟩
  refine ⟨(Text.dropEndWhile isPadding text).takeWhile Text.isBlank, mark, padding, ?_, fun c hc => ?_, hmark,
    fun c hc => isPadding_iff.mp (hpadding c hc)⟩
  · rw [← htrimmed, List.takeWhile_append_dropWhile]
    exact htext
  · exact List.all_eq_true.mp List.all_takeWhile c hc

/-- A character that is neither blank nor padding and cannot be taken for a part of a mark. -/
def IsPlain (c : Char) : Prop := isPadding c = false ∧ Text.isBlank c = false ∧ c ≠ 'x' ∧ c ≠ 'X'

/-- Plain characters are told one by one. -/
instance (c : Char) : Decidable (IsPlain c) := inferInstanceAs (Decidable (_ ∧ _))

/-- A digit of any base is plain. -/
theorem isPlain_of_toLower {c : Char} {d : Nat} (hd : d < 16) (h : c.toLower = d.digitChar) : IsPlain c := by
  have hall : ∀ n < 128, ∀ d < 16, (Char.ofNat n).toLower = d.digitChar → IsPlain (Char.ofNat n) := by
    decide +kernel
  exact Numeral.forall_ascii (P := fun c => ∀ d < 16, c.toLower = d.digitChar → IsPlain c) hall
    (Numeral.toNat_lt_of_toLower hd h) d hd h

section Base

variable {base : Nat} (hb : 1 < base ∧ base ≤ 16)

include hb

theorem isPlain_of_spells {n : Nat} {cs : List Char} (h : Numeral.Spells base n cs) : ∀ c ∈ cs, IsPlain c := by
  obtain ⟨zeros, digits, rfl, hzeros, hdigits⟩ := h
  intro c hc
  rcases List.mem_append.mp hc with hc | hc
  · rw [hzeros c hc]
    decide
  · have hmem : c.toLower ∈ Nat.toDigits base n := hdigits ▸ List.mem_map_of_mem hc
    obtain ⟨d, hd, hlower⟩ := Numeral.exists_of_mem_toDigits hb.1 _ hmem
    exact isPlain_of_toLower (Nat.lt_of_lt_of_le hd hb.2) hlower

/-- A numeral consists of plain characters, so that neither padding nor a mark takes any of it away. -/
theorem isPlain_of_writes {n : Int} {cs : List Char} (h : Numeral.Writes base n cs) :
    cs ≠ [] ∧ ∀ c ∈ cs, IsPlain c := by
  obtain ⟨sign, digits, rfl, hdigits, hsign⟩ := h
  have hplain : ∀ c ∈ sign, IsPlain c := by
    rcases hsign with ⟨rfl | rfl, -⟩ | ⟨rfl, -⟩
    · nofun
    · exact List.forall_mem_singleton.mpr (by decide)
    · exact List.forall_mem_singleton.mpr (by decide)
  refine ⟨fun h => ?_, fun c hc => ?_⟩
  · obtain ⟨-, rfl⟩ := List.append_eq_nil_iff.mp h
    obtain ⟨zeros, digits, h, -, hdigits⟩ := hdigits
    obtain ⟨-, rfl⟩ := List.append_eq_nil_iff.mp h.symm
    exact Nat.toDigits_ne_nil hdigits.symm
  · rcases List.mem_append.mp hc with hc | hc
    · exact hplain c hc
    · exact isPlain_of_spells hb hdigits c hc

omit hb in
/-- Without its padding a text is the numeral that it was made of. -/
theorem paddedDigits_eq {blanks mark numeral padding : List Char} (hblanks : ∀ c ∈ blanks, Text.isBlank c = true)
    (hmark : IsMark base mark) (hne : numeral ≠ []) (hplain : ∀ c ∈ numeral, IsPlain c)
    (hpadding : ∀ c ∈ padding, c = '\x00' ∨ c = ' ') :
    paddedDigits base (blanks ++ (mark ++ numeral) ++ padding) = numeral := by
  have hend : Text.dropEndWhile isPadding (blanks ++ (mark ++ numeral) ++ padding) = blanks ++ (mark ++ numeral) := by
    refine Text.dropEndWhile_append (fun c hc => ?_) fun c hc => isPadding_iff.mpr (hpadding c hc)
    rw [← List.append_assoc, List.getLast?_append, List.getLast?_eq_some_getLast hne, Option.some_or] at hc
    obtain rfl := Option.some.inj hc
    exact (hplain _ (List.getLast_mem hne)).1
  have hfront : (blanks ++ (mark ++ numeral)).dropWhile Text.isBlank = mark ++ numeral := by
    refine Text.dropWhile_append hblanks fun c hc => ?_
    rcases hmark with rfl | ⟨-, rfl | rfl⟩
    · exact (hplain c (List.mem_of_head? hc)).2.1
    · obtain rfl := Option.some.inj hc
      decide
    · obtain rfl := Option.some.inj hc
      decide
  rw [paddedDigits, hend, hfront]
  rcases hmark with rfl | ⟨rfl, rfl | rfl⟩
  · rw [List.nil_append]
    split
    · split
      · exact absurd rfl (hplain 'x' (.tail _ (.head _))).2.2.1
      · exact absurd rfl (hplain 'X' (.tail _ (.head _))).2.2.2
      · rfl
    · rfl
  · rfl
  · rfl

/-- The texts that hold a numeral are those that are read as it. -/
theorem holds_iff {w : Int64} {text : List Char} :
    Holds base w.toInt text ↔ Numeral.int64? base (paddedDigits base text) = some w := by
  rw [Numeral.int64?_eq_some_iff hb]
  constructor
  · rintro ⟨blanks, mark, numeral, padding, rfl, hblanks, hmark, hnumeral, hpadding⟩
    obtain ⟨hne, hplain⟩ := isPlain_of_writes hb hnumeral
    rwa [paddedDigits_eq hblanks hmark hne hplain hpadding]
  · intro h
    obtain ⟨blanks, mark, padding, htext, hblanks, hmark, hpadding⟩ := exists_eq_paddedDigits base text
    exact ⟨blanks, mark, _, padding, htext, hblanks, hmark, h, hpadding⟩

/-- A text that holds a numeral is read as its integer. -/
theorem paddedInt_of_holds {w : Int64} {text : List Char} (h : Holds base w.toInt text) : paddedInt base text = w := by
  rw [paddedInt, (holds_iff hb).mp h]
  rfl

/-- Any other text is read as zero. -/
theorem paddedInt_of_not_holds {text : List Char} (h : ∀ w : Int64, ¬Holds base w.toInt text) :
    paddedInt base text = 0 := by
  have hnone : Numeral.int64? base (paddedDigits base text) = none :=
    Option.eq_none_iff_forall_ne_some.mpr fun w hw => h w ((holds_iff hb).mpr hw)
  rw [paddedInt, hnone]
  rfl

end Base

/-! ## The call -/

theorem isBase_iff {b : Int64} : isBase b = true ↔ b ∈ [2, 8, 10, 16] := by
  simp [isBase, or_assoc]

/-- A base that is supported has at least two digits and no more than there are. -/
theorem bounds_of_mem {b : Int64} (h : b ∈ [2, 8, 10, 16]) : 1 < b.toInt.toNat ∧ b.toInt.toNat ≤ 16 := by
  simp only [List.mem_cons, List.not_mem_nil, or_false] at h
  rcases h with rfl | rfl | rfl | rfl <;> decide

section Call

variable {env : Environment} {text base : Value} {b : Int64}

theorem parseInt_eq (env : Environment) (text base : Value) : parseInt.call env [text, base] = (do
    let b ← base.toInt
    if isBase b then pure (.int (paddedInt b.toInt.toNat text.display.toList)) else throw (.invalidBase b)) := rfl

theorem parseInt_of_error {e : EvalError} (h : base.toInt = .error e) :
    parseInt.call env [text, base] = .error e := by
  rw [parseInt_eq, h]
  rfl

theorem parseInt_of_ok (h : base.toInt = .ok b) : parseInt.call env [text, base] =
    if isBase b then .ok (.int (paddedInt b.toInt.toNat text.display.toList)) else .error (.invalidBase b) := by
  rw [parseInt_eq, h]
  rfl

/-- In one of the four bases the text is read, whatever it is. -/
theorem parseInt_of_mem (h : base.toInt = .ok b) (hb : b ∈ [2, 8, 10, 16]) :
    parseInt.call env [text, base] = .ok (.int (paddedInt b.toInt.toNat text.display.toList)) := by
  rw [parseInt_of_ok h, if_pos (isBase_iff.mpr hb)]

/-- Any other base is an error, whatever the text is. -/
theorem parseInt_of_not_mem (h : base.toInt = .ok b) (hb : b ∉ [2, 8, 10, 16]) :
    parseInt.call env [text, base] = .error (.invalidBase b) := by
  rw [parseInt_of_ok h, if_neg fun hbase => hb (isBase_iff.mp hbase)]

/-- Only the base makes a call fail. -/
theorem parseInt_eq_error_iff {e : EvalError} : parseInt.call env [text, base] = .error e ↔
    (base.toInt = .error e ∧ e.kind = .typeMismatch) ∨
      ∃ b, base.toInt = .ok b ∧ b ∉ [2, 8, 10, 16] ∧ e = .invalidBase b := by
  constructor
  · intro h
    cases hbase : base.toInt with
    | error e' =>
        rw [parseInt_of_error hbase] at h
        obtain rfl := Except.error.inj h
        exact .inl ⟨rfl, Value.kind_of_toInt hbase⟩
    | ok b =>
        by_cases hb : b ∈ [2, 8, 10, 16]
        · rw [parseInt_of_mem hbase hb] at h
          cases h
        · rw [parseInt_of_not_mem hbase hb] at h
          exact .inr ⟨b, rfl, hb, (Except.error.inj h).symm⟩
  · rintro (⟨hbase, -⟩ | ⟨b, hbase, hb, rfl⟩)
    · exact parseInt_of_error hbase
    · exact parseInt_of_not_mem hbase hb

end Call

/-- **A padded numeral is read back.** A text is read as the integer of the numeral that it holds, and as zero if it
holds none that fits a word. The call fails only for its base, which stands for no integer or is not supported. -/
theorem call_parseInt (env : Environment) (text base : Value) :
    (∀ e, parseInt.call env [text, base] = .error e ↔ (base.toInt = .error e ∧ e.kind = .typeMismatch) ∨
      ∃ b, base.toInt = .ok b ∧ b ∉ [2, 8, 10, 16] ∧ e = .invalidBase b) ∧
    ∀ b, base.toInt = .ok b → b ∈ [2, 8, 10, 16] →
      (∀ n : Int64, Holds b.toInt.toNat n.toInt text.display.toList →
        parseInt.call env [text, base] = .ok (.int n)) ∧
      ((∀ n : Int64, ¬Holds b.toInt.toNat n.toInt text.display.toList) →
        parseInt.call env [text, base] = .ok (.int 0)) := by
  refine ⟨fun e => parseInt_eq_error_iff, fun b hbase hb => ?_⟩
  rw [parseInt_of_mem hbase hb]
  refine ⟨fun n hn => ?_, fun hn => ?_⟩
  · rw [paddedInt_of_holds (bounds_of_mem hb) hn]
  · rw [paddedInt_of_not_holds (bounds_of_mem hb) hn]

/-- A mark in front of the sign, zeros behind it, digits in either case, and padding of both kinds. -/
theorem call_parseInt_marked :
    parseInt.call ⟨fun _ => none, 0, fun _ => 0⟩ [.text " 0X-00fF\x00 ", .int 16] = .ok (.int (-255)) := by
  have hnumeral : Numeral.Writes 16 (-255) ['-', '0', '0', 'f', 'F'] :=
    ⟨['-'], ['0', '0', 'f', 'F'], rfl, ⟨['0', '0'], ['f', 'F'], rfl, by simp, by decide⟩, .inr ⟨rfl, by decide⟩⟩
  have hholds : Holds 16 (-255) [' ', '0', 'X', '-', '0', '0', 'f', 'F', '\x00', ' '] :=
    ⟨[' '], ['0', 'X'], _, ['\x00', ' '], rfl, List.forall_mem_singleton.mpr rfl, .inr ⟨rfl, .inr rfl⟩, hnumeral,
      by simp⟩
  exact ((call_parseInt _ (.text " 0X-00fF\x00 ") (.int 16)).2 16 rfl (by decide)).1 (-255) hholds

end Builtin

end BinaryFormat
