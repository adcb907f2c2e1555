import BinaryFormat.Token

/-!
# Expression trees

The tree of an expression over literals, variables, indexed variables and calls. Every node carries the
bytes it was read from; parentheses leave no node and do not widen one.
-/

namespace BinaryFormat

/-- The prefix operators. -/
inductive UnaryOp where
  | neg
  | not
deriving DecidableEq, Repr

/-- The operators with two operands, from the loosest to the tightest. -/
inductive BinaryOp where
  | or | and
  | eq | ne
  | lt | le | gt | ge
  | bitOr | bitXor | bitAnd
  | shl | shr
  | add | sub
  | mul | div | mod
deriving DecidableEq, Repr

namespace BinaryOp

/-- The symbol an operator is written with. -/
def symbol : BinaryOp → Symbol
  | or => .or
  | and => .and
  | eq => .equal
  | ne => .notEqual
  | lt => .less
  | le => .lessEqual
  | gt => .greater
  | ge => .greaterEqual
  | bitOr => .pipe
  | bitXor => .caret
  | bitAnd => .ampersand
  | shl => .shiftLeft
  | shr => .shiftRight
  | add => .plus
  | sub => .minus
  | mul => .star
  | div => .slash
  | mod => .percent

/-- How tightly an operator binds: ten levels, the loosest first, each associating to the left. -/
def level : BinaryOp → Nat
  | or => 1
  | and => 2
  | eq | ne => 3
  | lt | le | gt | ge => 4
  | bitOr => 5
  | bitXor => 6
  | bitAnd => 7
  | shl | shr => 8
  | add | sub => 9
  | mul | div | mod => 10

end BinaryOp

/-- The operator with two operands that a symbol stands for. -/
def Symbol.binaryOp? : Symbol → Option BinaryOp
  | .or => some .or
  | .and => some .and
  | .equal => some .eq
  | .notEqual => some .ne
  | .less => some .lt
  | .lessEqual => some .le
  | .greater => some .gt
  | .greaterEqual => some .ge
  | .pipe => some .bitOr
  | .caret => some .bitXor
  | .ampersand => some .bitAnd
  | .shiftLeft => some .shl
  | .shiftRight => some .shr
  | .plus => some .add
  | .minus => some .sub
  | .star => some .mul
  | .slash => some .div
  | .percent => some .mod
  | _ => none

theorem Symbol.binaryOp?_eq_some_iff {s : Symbol} {op : BinaryOp} :
    s.binaryOp? = some op ↔ op.symbol = s := by
  constructor
  · cases s <;> simp only [Symbol.binaryOp?, Option.some.injEq, reduceCtorEq, false_implies] <;>
      rintro rfl <;> rfl
  · rintro rfl; cases op <;> rfl

/-- An expression, each node with the bytes it was read from. -/
inductive Expr where
  | int (value : Int64) (span : Span)
  | text (value : String) (span : Span)
  | ident (name : String) (span : Span)
  /-- A byte of a text variable. -/
  | index (name : String) (position : Expr) (span : Span)
  | call (name : String) (args : List Expr) (span : Span)
  | unary (op : UnaryOp) (operand : Expr) (span : Span)
  | binary (op : BinaryOp) (lhs rhs : Expr) (span : Span)
  | ternary (condition thenBranch elseBranch : Expr) (span : Span)
deriving Repr

/-- The bytes an expression was read from. -/
def Expr.span : Expr → Span
  | int _ s | text _ s | ident _ s | index _ _ s | call _ _ s => s
  | unary _ _ s | binary _ _ _ s | ternary _ _ _ s => s

end BinaryFormat
