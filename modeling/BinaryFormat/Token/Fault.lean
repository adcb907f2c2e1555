import BinaryFormat.Token

/-!
# Faults of a source text

Scanning never stops at a fault: an unknown character is skipped, a bad numeral or escape still yields
a token. So a fault is data, kept with the bytes it concerns and reported later, and one pass over the
text finds all of them in the order in which they stand in it.
-/

namespace BinaryFormat.Token

/-- What is wrong with a piece of source text. -/
inductive Problem where
  | unexpectedCharacter (c : Char)
  /-- A quoted literal runs to the end of the text. -/
  | unterminatedText
  /-- An escape `\x` without a hexadecimal digit. -/
  | emptyHexEscape
  /-- A backslash before a character that needs none. -/
  | unknownEscape (c : Char)
  /-- A numeral that is `0x` and nothing else. -/
  | missingHexDigits
  /-- A numeral with a letter, digit or underscore directly behind it. -/
  | invalidDigit (digits : String)
  | integerOverflow
deriving DecidableEq, Repr

/-- The wording of a problem. -/
def Problem.message : Problem → String
  | unexpectedCharacter c => "unexpected character '" ++ String.singleton c ++ "'"
  | unterminatedText => "unterminated text literal"
  | emptyHexEscape => "invalid hex escape"
  | unknownEscape c => "unknown escape sequence '\\" ++ String.singleton c ++ "'"
  | missingHexDigits => "expected hex digits after '0x'"
  | invalidDigit digits => "invalid digit in numeric literal '" ++ digits ++ "'"
  | integerOverflow => "integer literal overflow"

/-- A problem with the bytes it concerns. -/
structure Fault where
  problem : Problem
  span : Span
deriving DecidableEq, Repr

/-- The report of a fault: its first byte and its wording. -/
def Fault.report (f : Fault) : String :=
  "lex error at " ++ toString f.span.start ++ ": " ++ f.problem.message

end BinaryFormat.Token
