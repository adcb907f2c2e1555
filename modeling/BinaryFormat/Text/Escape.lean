import BinaryFormat.Numeral

/-!
# Escaped characters

The written form of a text literal keeps printable ASCII as it is. Quotes, the backslash and three
control characters are escaped by one letter, every other character by its code in braces.
-/

namespace BinaryFormat.Text

/-- The written form of one character inside quotes. -/
def escape (c : Char) : List Char :=
  if c = '\t' then ['\\', 't']
  else if c = '\r' then ['\\', 'r']
  else if c = '\n' then ['\\', 'n']
  else if c = '\'' ∨ c = '"' ∨ c = '\\' then ['\\', c]
  else if 0x20 ≤ c.toNat ∧ c.toNat ≤ 0x7e then [c]
  else ['\\', 'u', '\x7b'] ++ Numeral.hexDigits c.toNat ++ ['\x7d']

/-- The written form of a text, quotes included. -/
def quote (cs : List Char) : List Char := '\'' :: cs.flatMap escape ++ ['\'']

end BinaryFormat.Text
