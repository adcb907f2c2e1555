import BinaryFormat.EvalError
import BinaryFormat.Numeral
import BinaryFormat.Text.Blank

/-!
# Values of expressions

Expressions compute with 64-bit integers, texts and truth values, and a value of any type can stand
where an integer or a truth value is asked for. A text counts as an integer when it is a decimal
numeral with blanks around it at most, and only this coercion can fail.
-/

namespace BinaryFormat

/-- A value that expressions produce and fields bind. -/
inductive Value where
  | int (n : Int64)
  | text (s : String)
  | bool (b : Bool)
deriving DecidableEq, Repr

namespace Value

/-- The integer a value stands for, if it stands for one. -/
def toInt? : Value → Option Int64
  | int n => some n
  | bool b => some (if b then 1 else 0)
  | text s => Numeral.int64? 10 (Text.trim s.toList)

/-- The integer a value stands for. -/
def toInt : Value → Except EvalError Int64
  | int n => .ok n
  | bool b => .ok (if b then 1 else 0)
  | text s =>
    match Numeral.int64? 10 (Text.trim s.toList) with
    | some n => .ok n
    | none => .error (.notNumeric s)

/-- The truth value a value stands for: nonzero integers and nonempty texts are true. -/
def toBool : Value → Bool
  | int n => n != 0
  | bool b => b
  | text s => !s.isEmpty

/-- Equality of the language: two texts by their characters, otherwise as integers where both are
integers, otherwise only a value with itself. -/
def looseEq (a b : Value) : Bool :=
  match a, b with
  | text s, text t => s == t
  | a, b =>
    match a.toInt?, b.toInt? with
    | some m, some n => m == n
    | _, _ => a == b

/-- How a value is shown. -/
def display : Value → String
  | int n => toString n.toInt
  | text s => s
  | bool b => if b then "true" else "false"

/-- The name of the type of a value. -/
def typeName : Value → String
  | int _ => "integer"
  | text _ => "text"
  | bool _ => "boolean"

/-- Both ways to ask for an integer find the same one. -/
theorem toOption_toInt (v : Value) : v.toInt.toOption = v.toInt? := by
  cases v with
  | int n => rfl
  | bool b => rfl
  | text s =>
    simp only [toInt, toInt?]
    split <;> rename_i h <;> rw [h] <;> rfl

end Value

end BinaryFormat
