import Mathlib.Algebra.Ring.Int.Defs
import Mathlib.Algebra.Ring.Nat
import BinaryFormat.Expr.Eval

/-!
# Operators as arithmetic

Integers of expressions are words, and words wrap. What an operator computes is still to be told in terms of integers
that have no bounds: there is an exact result, and it is reduced to the one word that agrees with it modulo 2 ^ 64. A
remainder and a shift to the right are in range as they are. Patterns of bits are those of two's complement, and the
order is that of integers.

An operator can fail for three reasons: a side stands for no integer, the divisor is zero, or the amount of a shift is
not below the number of bits of a word. The last two are about the right side alone, and nothing else about the words
matters, not even where a quotient is out of range.
-/

namespace BinaryFormat

/-! ## Words -/

namespace Word

/-- The pattern of 64 bits of an integer in two's complement. -/
def pattern (n : Int) : Nat := (n % 2 ^ 64).toNat

variable (l r : Int64)

/-- A word stands for its pattern, reduced to the range around zero. -/
theorem toInt_eq_bmod : l.toInt = (l.toBitVec.toNat : Int).bmod (2 ^ 64) := BitVec.toInt_eq_toNat_bmod l.toBitVec

/-- The pattern of a word is the number that its bits are without a sign. -/
theorem pattern_toInt : pattern l.toInt = l.toBitVec.toNat := by
  have hlt : l.toBitVec.toNat < 2 ^ 64 := l.toBitVec.isLt
  have hcast : (2 ^ 64 : Int) = (2 ^ 64 : Nat) := rfl
  rw [pattern, toInt_eq_bmod, hcast, Int.bmod_emod]
  omega

theorem pattern_and : pattern (l &&& r).toInt = pattern l.toInt &&& pattern r.toInt := by
  rw [pattern_toInt, pattern_toInt, pattern_toInt]
  rfl

theorem pattern_or : pattern (l ||| r).toInt = pattern l.toInt ||| pattern r.toInt := by
  rw [pattern_toInt, pattern_toInt, pattern_toInt]
  rfl

theorem pattern_xor : pattern (l ^^^ r).toInt = pattern l.toInt ^^^ pattern r.toInt := by
  rw [pattern_toInt, pattern_toInt, pattern_toInt]
  rfl

/-- A shift takes its amount modulo the number of bits, which leaves an amount in range as it is. -/
theorem toNat_amount {r : Int64} (h : 0 ≤ r.toInt ∧ r.toInt < 64) : (r.toBitVec.smod 64).toNat = r.toInt.toNat := by
  have hmod : (Int64.ofBitVec (r.toBitVec.smod 64)).toInt = r.toInt := by
    refine BitVec.toInt_smod.trans ?_
    exact Int.fmod_eq_of_lt h.1 h.2
  have hpattern : pattern r.toInt = (r.toBitVec.smod 64).toNat := hmod ▸ pattern_toInt _
  rw [← hpattern, pattern, Int.emod_eq_of_lt h.1 (by omega)]

/-- Shifting to the left multiplies, and what does not fit is lost. -/
theorem toInt_shiftLeft {r : Int64} (h : 0 ≤ r.toInt ∧ r.toInt < 64) :
    (l <<< r).toInt = (l.toInt * 2 ^ r.toInt.toNat).bmod (2 ^ 64) := by
  have hshift : (l <<< r).toInt = (l.toBitVec <<< (r.toBitVec.smod 64)).toInt := rfl
  rw [hshift, BitVec.shiftLeft_eq', BitVec.toInt_shiftLeft, toNat_amount h, toInt_eq_bmod l, Int.bmod_mul_bmod,
    Nat.shiftLeft_eq]
  norm_cast

/-- Shifting to the right divides and rounds down, negative numbers too. -/
theorem toInt_shiftRight {r : Int64} (h : 0 ≤ r.toInt ∧ r.toInt < 64) :
    (l >>> r).toInt = l.toInt.fdiv (2 ^ r.toInt.toNat) := by
  have hshift : (l >>> r).toInt = (l.toBitVec.sshiftRight' (r.toBitVec.smod 64)).toInt := rfl
  have hpos : (0 : Int) < 2 ^ r.toInt.toNat := Int.pow_pos (by decide)
  rw [hshift, BitVec.toInt_sshiftRight', toNat_amount h, Int.shiftRight_eq_div_pow,
    Int.fdiv_eq_ediv_of_nonneg _ (Int.le_of_lt hpos)]
  rfl

/-- The quotient may have been reduced, and then so is its multiple. -/
theorem div_mul_add_mod : l / r * r + l % r = l := by
  rw [← Int64.toInt_inj, Int64.toInt_add, Int64.toInt_mul, Int64.toInt_div, Int64.toInt_mod, Int.bmod_mul_bmod,
    Int.bmod_add_bmod, Int.tdiv_mul_add_tmod]
  exact l.toInt_bmod

end Word

/-! ## Values -/

namespace Value

/-- The two coercions to an integer agree where there is one. -/
theorem toInt?_eq_some_iff {v : Value} {n : Int64} : v.toInt? = some n ↔ v.toInt = .ok n := by
  rw [← v.toOption_toInt]
  cases v.toInt with
  | ok m => exact ⟨fun h => congrArg Except.ok (Option.some.inj h), fun h => congrArg some (Except.ok.inj h)⟩
  | error e => exact ⟨nofun, nofun⟩

/-- And they fail on the same values. -/
theorem toInt?_eq_none_iff {v : Value} : v.toInt? = none ↔ ∃ e, v.toInt = .error e := by
  rw [← v.toOption_toInt]
  cases v.toInt with
  | ok m => exact ⟨nofun, nofun⟩
  | error e => exact ⟨fun _ => ⟨e, rfl⟩, fun _ => rfl⟩

/-- The value is this very integer. -/
def Equals (v : Value) (n : Int) : Prop := ∃ w : Int64, v = .int w ∧ w.toInt = n

/-- The value is the integer, reduced to 64 bits in two's complement. -/
def Reduces (v : Value) (n : Int) : Prop := ∃ w : Int64, v = .int w ∧ w.toInt = n.bmod (2 ^ 64)

/-- The value is the integer with this pattern of bits. -/
def HasPattern (v : Value) (bits : Nat) : Prop := ∃ w : Int64, v = .int w ∧ Word.pattern w.toInt = bits

end Value

namespace BinaryOp

/-- The operators that take integers on both sides: of arithmetic, of bits, shifts and those of order. -/
def takesIntegers : BinaryOp → Bool
  | or | and | eq | ne => false
  | lt | le | gt | ge | bitOr | bitXor | bitAnd | shl | shr | add | sub | mul | div | mod => true

/-- The operator has no value if this integer is on its right. -/
def Refuses (op : BinaryOp) (r : Int) : Prop :=
  ((op = div ∨ op = mod) ∧ r = 0) ∨ ((op = shl ∨ op = shr) ∧ ¬(0 ≤ r ∧ r < 64))

/-- The value of the operator on two integers. -/
def Yields (op : BinaryOp) (l r : Int) (v : Value) : Prop :=
  match op with
  | add => v.Reduces (l + r)
  | sub => v.Reduces (l - r)
  | mul => v.Reduces (l * r)
  | div => v.Reduces (l.tdiv r)
  | mod => v.Equals (l.tmod r)
  | shl => v.Reduces (l * 2 ^ r.toNat)
  | shr => v.Equals (l.fdiv (2 ^ r.toNat))
  | bitOr => v.HasPattern (Word.pattern l ||| Word.pattern r)
  | bitXor => v.HasPattern (Word.pattern l ^^^ Word.pattern r)
  | bitAnd => v.HasPattern (Word.pattern l &&& Word.pattern r)
  | lt => v = .bool (decide (l < r))
  | le => v = .bool (decide (l ≤ r))
  | gt => v = .bool (decide (l > r))
  | ge => v = .bool (decide (l ≥ r))
  | or | and | eq | ne => False

variable {op : BinaryOp} {a b : Value} {l r : Int64}

theorem onInts_eq {f : Int64 → Int64 → Except EvalError Value} (ha : a.toInt? = some l) (hb : b.toInt? = some r) :
    onInts a b f = f l r := by
  rw [onInts, Value.toInt?_eq_some_iff.mp ha, Value.toInt?_eq_some_iff.mp hb]
  rfl

/-- Without an integer on both sides there is no value. -/
theorem onInts_fails {f : Int64 → Int64 → Except EvalError Value} (h : a.toInt? = none ∨ b.toInt? = none) :
    ∃ e, onInts a b f = .error e := by
  unfold onInts
  rcases h with h | h
  · obtain ⟨e, he⟩ := Value.toInt?_eq_none_iff.mp h
    rw [he]
    exact ⟨e, rfl⟩
  · obtain ⟨e, he⟩ := Value.toInt?_eq_none_iff.mp h
    rw [he]
    cases a.toInt with
    | ok l => exact ⟨e, rfl⟩
    | error e' => exact ⟨e', rfl⟩

/-- What an operator makes of two words: it refuses the right one, or it has a value. -/
def Computes (op : BinaryOp) (f : Int64 → Int64 → Except EvalError Value) : Prop :=
  ∀ l r, (op.Refuses r.toInt ∧ ∃ e, f l r = .error e) ∨
    (¬op.Refuses r.toInt ∧ ∃ v, f l r = .ok v ∧ op.Yields l.toInt r.toInt v)

/-- An operator that is neither a division nor a shift refuses nothing. -/
theorem computes_total {f : Int64 → Int64 → Value} (hop : ∀ r, ¬op.Refuses r)
    (hf : ∀ l r, op.Yields l.toInt r.toInt (f l r)) : op.Computes fun l r => .ok (f l r) :=
  fun l r => .inr ⟨hop _, _, rfl, hf l r⟩

/-- A division refuses zero, and has a value everywhere else. -/
theorem computes_divide {f : Int64 → Int64 → Int64} (hop : op = div ∨ op = mod)
    (hf : ∀ l r, op.Yields l.toInt r.toInt (.int (f l r))) : op.Computes (divide op f) := by
  intro l r
  have hrefuses : op.Refuses r.toInt ↔ r = 0 := by
    rw [← Int64.toInt_inj]
    rcases hop with rfl | rfl <;> simp [Refuses]
  rw [hrefuses]
  unfold divide
  by_cases hr : r = 0
  · exact .inl ⟨hr, _, if_pos hr⟩
  · exact .inr ⟨hr, _, if_neg hr, hf l r⟩

/-- A shift refuses amounts that are negative or 64 and more. -/
theorem computes_shift {f : Int64 → Int64 → Int64} (hop : op = shl ∨ op = shr)
    (hf : ∀ l r, 0 ≤ r.toInt ∧ r.toInt < 64 → op.Yields l.toInt r.toInt (.int (f l r))) : op.Computes (shift f) := by
  intro l r
  have hrefuses : op.Refuses r.toInt ↔ ¬(0 ≤ r.toInt ∧ r.toInt < 64) := by
    rcases hop with rfl | rfl <;> simp [Refuses]
  rw [hrefuses]
  unfold shift
  by_cases hr : 0 ≤ r.toInt ∧ r.toInt < 64
  · exact .inr ⟨not_not_intro hr, _, if_pos hr, hf l r hr⟩
  · exact .inl ⟨hr, _, if_neg hr⟩

/-- Each operator on integers coerces both sides and computes with the words. -/
theorem exists_computes (hop : op.takesIntegers = true) :
    ∃ f, (∀ a b, op.apply a b = onInts a b f) ∧ op.Computes f := by
  cases op with
  | or | and | eq | ne => cases hop
  | lt =>
      refine ⟨_, fun _ _ => rfl, computes_total (by simp [Refuses]) fun l r => ?_⟩
      exact congrArg Value.bool (decide_eq_decide.mpr Int64.lt_iff_toInt_lt)
  | le =>
      refine ⟨_, fun _ _ => rfl, computes_total (by simp [Refuses]) fun l r => ?_⟩
      exact congrArg Value.bool (decide_eq_decide.mpr Int64.le_iff_toInt_le)
  | gt =>
      refine ⟨_, fun _ _ => rfl, computes_total (by simp [Refuses]) fun l r => ?_⟩
      exact congrArg Value.bool (decide_eq_decide.mpr Int64.lt_iff_toInt_lt)
  | ge =>
      refine ⟨_, fun _ _ => rfl, computes_total (by simp [Refuses]) fun l r => ?_⟩
      exact congrArg Value.bool (decide_eq_decide.mpr Int64.le_iff_toInt_le)
  | bitOr => exact ⟨_, fun _ _ => rfl, computes_total (by simp [Refuses]) fun l r => ⟨_, rfl, Word.pattern_or l r⟩⟩
  | bitXor => exact ⟨_, fun _ _ => rfl, computes_total (by simp [Refuses]) fun l r => ⟨_, rfl, Word.pattern_xor l r⟩⟩
  | bitAnd => exact ⟨_, fun _ _ => rfl, computes_total (by simp [Refuses]) fun l r => ⟨_, rfl, Word.pattern_and l r⟩⟩
  | shl => exact ⟨_, fun _ _ => rfl, computes_shift (.inl rfl) fun l r h => ⟨_, rfl, Word.toInt_shiftLeft l h⟩⟩
  | shr => exact ⟨_, fun _ _ => rfl, computes_shift (.inr rfl) fun l r h => ⟨_, rfl, Word.toInt_shiftRight l h⟩⟩
  | add => exact ⟨_, fun _ _ => rfl, computes_total (by simp [Refuses]) fun l r => ⟨_, rfl, Int64.toInt_add l r⟩⟩
  | sub => exact ⟨_, fun _ _ => rfl, computes_total (by simp [Refuses]) fun l r => ⟨_, rfl, Int64.toInt_sub l r⟩⟩
  | mul => exact ⟨_, fun _ _ => rfl, computes_total (by simp [Refuses]) fun l r => ⟨_, rfl, Int64.toInt_mul l r⟩⟩
  | div => exact ⟨_, fun _ _ => rfl, computes_divide (.inl rfl) fun l r => ⟨_, rfl, Int64.toInt_div l r⟩⟩
  | mod => exact ⟨_, fun _ _ => rfl, computes_divide (.inr rfl) fun l r => ⟨_, rfl, Int64.toInt_mod l r⟩⟩

/-- An operator fails where a side stands for no integer, or where it refuses the right one. -/
theorem apply_fails_iff (hop : op.takesIntegers = true) (a b : Value) : (∃ e, op.apply a b = .error e) ↔
    a.toInt? = none ∨ b.toInt? = none ∨ ∃ r, b.toInt? = some r ∧ op.Refuses r.toInt := by
  obtain ⟨f, happly, hf⟩ := exists_computes hop
  rw [happly]
  cases ha : a.toInt? with
  | none => exact iff_of_true (onInts_fails (.inl ha)) (.inl rfl)
  | some l =>
      cases hb : b.toInt? with
      | none => exact iff_of_true (onInts_fails (.inr hb)) (.inr (.inl rfl))
      | some r =>
          rw [onInts_eq ha hb]
          -- With an integer on both sides it is the operator itself that computes or refuses.
          rcases hf l r with ⟨hr, he⟩ | ⟨hr, v, hv, -⟩
          · exact iff_of_true he (.inr (.inr ⟨r, rfl, hr⟩))
          · rw [hv]
            refine iff_of_false nofun ?_
            rintro (h | h | ⟨r', h, hr'⟩)
            · cases h
            · cases h
            · cases h
              exact hr hr'

/-- Everywhere else it has its value. -/
theorem exists_value (hop : op.takesIntegers = true) (ha : a.toInt? = some l) (hb : b.toInt? = some r)
    (hr : ¬op.Refuses r.toInt) : ∃ v, op.apply a b = .ok v ∧ op.Yields l.toInt r.toInt v := by
  obtain ⟨f, happly, hf⟩ := exists_computes hop
  rw [happly, onInts_eq ha hb]
  rcases hf l r with ⟨hr', -⟩ | ⟨-, hv⟩
  · exact absurd hr' hr
  · exact hv

end BinaryOp

/-! ## Evaluating operators -/

namespace Expr

variable {env : Environment} {x y : Expr} {a b : Value}

/-- An operator on integers is applied to what its sides evaluate to. -/
theorem eval_binary {op : BinaryOp} (hop : op.takesIntegers = true) (hx : x.eval env = .ok a) (hy : y.eval env = .ok b)
    (s : Span) : (binary op x y s).eval env = op.apply a b := by
  have heval : (binary op x y s).eval env = (do
      let a ← x.eval env
      let b ← y.eval env
      op.apply a b) := by
    cases op with
    | or | and | eq | ne => cases hop
    | lt | le | gt | ge | bitOr | bitXor | bitAnd | shl | shr | add | sub | mul | div | mod => rfl
  rw [heval, hx, hy]
  rfl

/-- What is left over by a division makes up for it. -/
theorem eval_division {l r : Int64} (hx : x.eval env = .ok a) (hy : y.eval env = .ok b) (ha : a.toInt? = some l)
    (hb : b.toInt? = some r) (hr : r ≠ 0) (s₁ s₂ s₃ s₄ : Span) :
    (binary .add (binary .mul (binary .div x y s₁) y s₂) (binary .mod x y s₃) s₄).eval env = .ok (.int l) := by
  have hdiv : (binary .div x y s₁).eval env = .ok (.int (l / r)) := by
    rw [eval_binary rfl hx hy]
    exact (BinaryOp.onInts_eq ha hb).trans (if_neg hr)
  have hmod : (binary .mod x y s₃).eval env = .ok (.int (l % r)) := by
    rw [eval_binary rfl hx hy]
    exact (BinaryOp.onInts_eq ha hb).trans (if_neg hr)
  have hmul : (binary .mul (binary .div x y s₁) y s₂).eval env = .ok (.int (l / r * r)) := by
    rw [eval_binary rfl hdiv hy]
    exact BinaryOp.onInts_eq rfl hb
  rw [eval_binary rfl hmul hmod]
  show Except.ok (Value.int (l / r * r + l % r)) = _
  rw [Word.div_mul_add_mod]

end Expr

namespace BinaryOp

/-- **Operators on integers are exact.** Such an operator fails only for a side that stands for no integer or for a
right side that it refuses. Otherwise its value is the one that arithmetic without bounds tells. In particular quotient
and remainder make up the dividend again, whatever the divisor that is not zero. -/
theorem apply_exact (a b : Value) :
    (∀ op : BinaryOp, op.takesIntegers = true →
      ((∃ e, op.apply a b = .error e) ↔
        a.toInt? = none ∨ b.toInt? = none ∨ ∃ r, b.toInt? = some r ∧ op.Refuses r.toInt) ∧
      ∀ l r, a.toInt? = some l → b.toInt? = some r → ¬op.Refuses r.toInt →
        ∃ v, op.apply a b = .ok v ∧ op.Yields l.toInt r.toInt v) ∧
    ∀ l r, a.toInt? = some l → b.toInt? = some r → r ≠ 0 →
      ∀ (env : Environment) (x y : Expr), x.eval env = .ok a → y.eval env = .ok b → ∀ s₁ s₂ s₃ s₄,
        (Expr.binary .add (.binary .mul (.binary .div x y s₁) y s₂) (.binary .mod x y s₃) s₄).eval env =
          .ok (.int l) := by
  refine ⟨fun op hop => ⟨apply_fails_iff hop a b, fun l r ha hb hr => exists_value hop ha hb hr⟩, ?_⟩
  exact fun l r ha hb hr env x y hx hy s₁ s₂ s₃ s₄ => Expr.eval_division hx hy ha hb hr s₁ s₂ s₃ s₄

/-- The quotient of the least integer by a text that stands for minus one is out of range and reduced. -/
theorem apply_div_least : ∃ v, div.apply (.int Int64.minValue) (.text " -1 ") = .ok v ∧ v.Reduces (2 ^ 63) := by
  obtain ⟨-, hvalue⟩ := (apply_exact (.int Int64.minValue) (.text " -1 ")).1 div rfl
  have hright : (Value.text " -1 ").toInt? = some (-1) := by decide
  obtain ⟨v, hv, hyields⟩ := hvalue _ _ rfl hright (by unfold Refuses; decide)
  exact ⟨v, hv, hyields⟩

end BinaryOp

end BinaryFormat
