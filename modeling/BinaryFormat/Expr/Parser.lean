import BinaryFormat.Expr

/-!
# Reading an expression from tokens

The parser is a machine with a stack. What has been read so far is either a complete operand or the
promise of one, and below it lie the constructs still open: operators that wait for their right side,
brackets that wait to be closed. Each token either extends this state or is refused on the spot, so
reading is a plain recursion over the tokens, and the token refused is the first that no continuation
could have saved.

How far an operator reaches is decided when the next token arrives. A binary operator first closes the
open operators that bind at least as tightly, which makes every level associate to the left; a question
mark closes all of them, and any closing token closes finished choices as well.
-/

namespace BinaryFormat

namespace Parser

/-- What a refused token should have been. -/
inductive Wanted where
  | expression | endOfExpression | closeParen | closeBracket | colon
deriving DecidableEq, Repr

/-- How a report names what was wanted. -/
def Wanted.text : Wanted → String
  | expression => "expression"
  | endOfExpression => "end of expression"
  | closeParen => "')'"
  | closeBracket => "']'"
  | colon => "':'"

/-- A token that does not fit where it stands. -/
structure Unexpected where
  found : Token.Kind
  /-- What would have fitted. -/
  wanted : Wanted
  span : Span
deriving DecidableEq, Repr

/-- A construct that only a token of its own can close. -/
inductive Bracket where
  /-- A choice whose condition is read; a colon ends its first branch. -/
  | condition (condition : Expr)
  | group
  /-- The argument list of a call, with the arguments already closed. -/
  | call (name : String) (span : Span) (args : List Expr)
  | index (name : String) (span : Span)

/-- What closes a bracket. -/
def Bracket.wanted : Bracket → Wanted
  | condition _ => .colon
  | group | call .. => .closeParen
  | index .. => .closeBracket

/-- A construct that is still open. -/
inductive Frame where
  | unary (op : UnaryOp) (span : Span)
  /-- A binary operator that waits for its right side. -/
  | binary (lhs : Expr) (op : BinaryOp)
  | choice (condition thenBranch : Expr)
  | bracket (b : Bracket)

/-- How far reading has come; the innermost open construct is the head of the stack. -/
inductive State where
  /-- An operand has to follow. -/
  | wanting (open_ : List Frame)
  /-- An identifier was read, which may still turn out to be called or indexed. -/
  | named (name : String) (span : Span) (open_ : List Frame)
  | holding (e : Expr) (open_ : List Frame)

/-- Applies a prefix operator; the new node begins with the operator. -/
def applyUnary (op : UnaryOp) (s : Span) (e : Expr) : Expr := .unary op e (s.merge e.span)

/-- Applies an operator with two operands; the new node reaches from one to the other. -/
def applyBinary (l : Expr) (op : BinaryOp) (r : Expr) : Expr := .binary op l r (l.span.merge r.span)

/-- Puts a choice together; the new node reaches from the condition to the second branch. -/
def applyChoice (c t e : Expr) : Expr := .ternary c t e (c.span.merge e.span)

/-- Applies the prefix operators directly before a complete operand. -/
def applyPrefixes (e : Expr) : List Frame → Expr × List Frame
  | .unary op s :: fs => applyPrefixes (applyUnary op s e) fs
  | fs => (e, fs)

/-- Goes on behind an operand, once the prefix operators before it are applied. -/
def hold (e : Expr) (fs : List Frame) : State :=
  .holding (applyPrefixes e fs).1 (applyPrefixes e fs).2

/-- Closes the open operators that bind at least as tightly as `level`. -/
def reduce (level : Nat) (e : Expr) : List Frame → Expr × List Frame
  | .binary l op :: fs =>
    if level ≤ op.level then reduce level (applyBinary l op e) fs else (e, .binary l op :: fs)
  | fs => (e, fs)

/-- Closes every operator and every choice down to the next bracket. -/
def settle (e : Expr) : List Frame → Expr × Option (Bracket × List Frame)
  | .unary op s :: fs => settle (applyUnary op s e) fs
  | .binary l op :: fs => settle (applyBinary l op e) fs
  | .choice c t :: fs => settle (applyChoice c t e) fs
  | .bracket b :: fs => (e, some (b, fs))
  | [] => (e, none)

/-- Meets the token `t` where an operand has to follow. -/
def stepWanting (t : Token) (fs : List Frame) : Except Unexpected State :=
  match t.kind, fs with
  | .int n, fs => .ok (hold (.int n t.span) fs)
  | .text s, fs => .ok (hold (.text s t.span) fs)
  | .name n, fs => .ok (.named n t.span fs)
  | .symbol .openParen, fs => .ok (.wanting (.bracket .group :: fs))
  | .symbol .minus, fs => .ok (.wanting (.unary .neg t.span :: fs))
  | .symbol .not, fs => .ok (.wanting (.unary .not t.span :: fs))
  | .symbol .closeParen, .bracket (.call n s []) :: fs =>
    .ok (hold (.call n [] (s.merge t.span)) fs)
  | k, _ => .error ⟨k, .expression, t.span⟩

/-- Meets the token `t` behind the content `e` of the bracket `b`. -/
def stepBracket (t : Token) (e : Expr) (fs : List Frame) : Bracket → Except Unexpected State
  | .condition c =>
    if t.kind = .symbol .colon then .ok (.wanting (.choice c e :: fs))
    else .error ⟨t.kind, .colon, t.span⟩
  | .group =>
    if t.kind = .symbol .closeParen then .ok (hold e fs)
    else .error ⟨t.kind, .closeParen, t.span⟩
  | .call n s args =>
    if t.kind = .symbol .comma then .ok (.wanting (.bracket (.call n s (args ++ [e])) :: fs))
    else if t.kind = .symbol .closeParen then .ok (hold (.call n (args ++ [e]) (s.merge t.span)) fs)
    else .error ⟨t.kind, .closeParen, t.span⟩
  | .index n s =>
    if t.kind = .symbol .closeBracket then .ok (hold (.index n e (s.merge t.span)) fs)
    else .error ⟨t.kind, .closeBracket, t.span⟩

/-- Meets the token `t` behind the complete operand `e`. -/
def stepHolding (t : Token) (e : Expr) (fs : List Frame) : Except Unexpected State :=
  match t.kind with
  | .symbol .question =>
    let (c, fs) := reduce 0 e fs
    .ok (.wanting (.bracket (.condition c) :: fs))
  | k =>
    match (match k with | .symbol s => s.binaryOp? | _ => none) with
    | some op =>
      let (l, fs) := reduce op.level e fs
      .ok (.wanting (.binary l op :: fs))
    | none =>
      match settle e fs with
      | (e, some (b, fs)) => stepBracket t e fs b
      | (_, none) => .error ⟨k, .endOfExpression, t.span⟩

/-- Meets the next token. -/
def State.step (t : Token) : State → Except Unexpected State
  | .wanting fs => stepWanting t fs
  | .named n s fs =>
    if t.kind = .symbol .openParen then .ok (.wanting (.bracket (.call n s []) :: fs))
    else if t.kind = .symbol .openBracket then .ok (.wanting (.bracket (.index n s) :: fs))
    else stepHolding t (applyPrefixes (.ident n s) fs).1 (applyPrefixes (.ident n s) fs).2
  | .holding e fs => stepHolding t e fs

/-- Meets the end of the expression behind the complete operand `e`. -/
def finishHolding (e : Expr) (fs : List Frame) (span : Span) : Except Unexpected Expr :=
  match settle e fs with
  | (e, none) => .ok e
  | (_, some (b, _)) => .error ⟨.finish, b.wanted, span⟩

/-- Meets the end of the expression. -/
def State.finish (span : Span) : State → Except Unexpected Expr
  | .wanting _ => .error ⟨.finish, .expression, span⟩
  | .named n s fs => finishHolding (.ident n s) fs span
  | .holding e fs => finishHolding e fs span

/-- Meets the tokens one by one; a list without an end token ends where it ends. -/
def State.run : State → List Token → Except Unexpected Expr
  | s, [] => s.finish Span.origin
  | s, t :: ts => if t.kind = .finish then s.finish t.span else (s.step t).bind (·.run ts)

end Parser

/-- The expression of some tokens, or the first of them that fits nowhere. -/
def Expr.ofTokens (ts : List Token) : Except Parser.Unexpected Expr := (Parser.State.wanting []).run ts

namespace Parser.Unexpected

/-- What is wrong, without what was wanted. -/
def detail (u : Unexpected) : String := "unexpected token " ++ u.found.describe

/-- The report of an unexpected token: its first byte, its name and what was wanted. -/
def report (u : Unexpected) : String :=
  "parse error at " ++ toString u.span.start ++ ": " ++ u.detail ++ " (expected " ++ u.wanted.text ++ ")"

end Parser.Unexpected

end BinaryFormat
