import BinaryFormat.Span

/-!
# Tokens

A token carries literals by value, so that the parser never looks at the source again. Operators,
brackets and the three reserved words differ in nothing but their spelling, and one enumeration with
one spelling function serves them all.
-/

namespace BinaryFormat

/-- What is written with a spelling of its own: operators, brackets, punctuation and the reserved words. -/
inductive Symbol where
  | plus | minus | star | slash | percent
  | ampersand | pipe | caret | shiftLeft | shiftRight
  | equal | notEqual | less | lessEqual | greater | greaterEqual
  | question | colon | openParen | closeParen | openBracket | closeBracket | comma
  | and | or | not
deriving DecidableEq, Repr

/-- The spelling of a symbol. -/
def Symbol.text : Symbol → String
  | plus => "+"
  | minus => "-"
  | star => "*"
  | slash => "/"
  | percent => "%"
  | ampersand => "&"
  | pipe => "|"
  | caret => "^"
  | shiftLeft => "<<"
  | shiftRight => ">>"
  | equal => "=="
  | notEqual => "!="
  | less => "<"
  | lessEqual => "<="
  | greater => ">"
  | greaterEqual => ">="
  | question => "?"
  | colon => ":"
  | openParen => "("
  | closeParen => ")"
  | openBracket => "["
  | closeBracket => "]"
  | comma => ","
  | and => "and"
  | or => "or"
  | not => "not"

namespace Token

/-- The content of a token. -/
inductive Kind where
  | int (value : Int64)
  /-- A quoted literal, escapes already resolved. -/
  | text (value : String)
  | name (value : String)
  /-- An operator, punctuation mark or reserved word. -/
  | symbol (value : Symbol)
  | finish
deriving DecidableEq, Repr

/-- How a token is named in a report. -/
def Kind.describe : Kind → String
  | .int n => "integer '" ++ toString n.toInt ++ "'"
  | .text s => "text '" ++ s ++ "'"
  | .name n => "'" ++ n ++ "'"
  | .symbol s => "'" ++ s.text ++ "'"
  | .finish => "end of expression"

end Token

/-- A token with the bytes it was read from. -/
structure Token where
  kind : Token.Kind
  span : Span
deriving DecidableEq, Repr

end BinaryFormat
