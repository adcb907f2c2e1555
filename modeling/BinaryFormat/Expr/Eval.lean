import BinaryFormat.Builtin

/-!
# Evaluating expressions

Integers are 64-bit words in two's complement and wrap. Both sides of an operator are evaluated from
left to right before either is coerced, except that `and` and `or` stop at a left side that decides and
a choice evaluates one branch only.
-/

namespace BinaryFormat

namespace BinaryOp

/-- Coerces both sides to integers, the left one first. -/
def onInts (a b : Value) (f : Int64 → Int64 → Except EvalError Value) : Except EvalError Value := do
  let l ← a.toInt
  let r ← b.toInt
  f l r

/-- Refuses a zero divisor. -/
def divide (op : BinaryOp) (f : Int64 → Int64 → Int64) (l r : Int64) : Except EvalError Value :=
  if r = 0 then .error (.divisionByZero l op) else .ok (.int (f l r))

/-- Refuses a shift by a negative amount or by the whole word. -/
def shift (f : Int64 → Int64 → Int64) (l r : Int64) : Except EvalError Value :=
  if 0 ≤ r.toInt ∧ r.toInt < 64 then .ok (.int (f l r)) else .error (.shiftOutOfRange r)

/-- The value of an operator on two values. -/
def apply (op : BinaryOp) (a b : Value) : Except EvalError Value :=
  match op with
  | and => .ok (.bool (a.toBool && b.toBool))
  | or => .ok (.bool (a.toBool || b.toBool))
  | eq => .ok (.bool (a.looseEq b))
  | ne => .ok (.bool (!a.looseEq b))
  | lt => onInts a b fun l r => .ok (.bool (decide (l < r)))
  | le => onInts a b fun l r => .ok (.bool (decide (l ≤ r)))
  | gt => onInts a b fun l r => .ok (.bool (decide (r < l)))
  | ge => onInts a b fun l r => .ok (.bool (decide (r ≤ l)))
  | bitOr => onInts a b fun l r => .ok (.int (l ||| r))
  | bitXor => onInts a b fun l r => .ok (.int (l ^^^ r))
  | bitAnd => onInts a b fun l r => .ok (.int (l &&& r))
  | shl => onInts a b (shift (· <<< ·))
  | shr => onInts a b (shift (· >>> ·))
  | add => onInts a b fun l r => .ok (.int (l + r))
  | sub => onInts a b fun l r => .ok (.int (l - r))
  | mul => onInts a b fun l r => .ok (.int (l * r))
  | div => onInts a b (divide .div (· / ·))
  | mod => onInts a b (divide .mod (· % ·))

end BinaryOp

namespace Expr

/-- The name that always stands for the number of bytes left. -/
def remainingName : String := "remaining"

/-- The value of a name. A binding of `remaining` is never seen. -/
def evalName (env : Environment) (name : String) : Except EvalError Value :=
  if name = remainingName then .ok (.int (Int64.ofNat env.remaining))
  else
    match env.get? name with
    | some v => .ok v
    | none => .error (.unknownVariable name)

/-- The byte of a text at a position. -/
def evalIndex (name : String) (v : Value) (i : Int64) : Except EvalError Value :=
  match v with
  | .text s =>
    match (if 0 ≤ i.toInt then s.toUTF8.data[i.toInt.toNat]? else none) with
    | some b => .ok (.int (Int64.ofNat b.toNat))
    | none => .error (.indexOutOfRange i name s.utf8ByteSize)
  | v => .error (.notIndexable v.typeName name)

mutual

/-- The value of an expression. Operands and arguments are evaluated from left to right; of `and`, `or` and a choice,
only what is needed. -/
def eval (env : Environment) : Expr → Except EvalError Value
  | int n _ => .ok (.int n)
  | text s _ => .ok (.text s)
  | ident n _ => evalName env n
  | index n i _ => do
    let target ← evalName env n
    let position ← i.eval env
    evalIndex n target (← position.toInt)
  | call n args _ =>
    match Builtin.ofName? n with
    | none => .error (.unknownFunction n)
    | some f => do f.call env (← evalArgs env args)
  | unary .neg e _ => do
    let v ← e.eval env
    pure (.int (-(← v.toInt)))
  | unary .not e _ => do
    let v ← e.eval env
    pure (.bool (!v.toBool))
  -- `and` and `or` give a boolean, whatever their operands are.
  | binary .and l r _ => do
    let a ← l.eval env
    if a.toBool then
      let b ← r.eval env
      pure (.bool b.toBool)
    else pure (.bool false)
  | binary .or l r _ => do
    let a ← l.eval env
    if a.toBool then pure (.bool true)
    else
      let b ← r.eval env
      pure (.bool b.toBool)
  | binary op l r _ => do
    let a ← l.eval env
    let b ← r.eval env
    op.apply a b
  | ternary c t e _ => do
    let v ← c.eval env
    if v.toBool then t.eval env else e.eval env

/-- The values of the arguments of a call. -/
def evalArgs (env : Environment) : List Expr → Except EvalError (List Value)
  | [] => .ok []
  | e :: es => do
    let v ← e.eval env
    let vs ← evalArgs env es
    pure (v :: vs)

end

end Expr

end BinaryFormat
