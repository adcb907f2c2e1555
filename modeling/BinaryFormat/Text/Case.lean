/-!
# Letter case

The names of algorithms are matched without regard to the case of their ASCII letters. All other
characters stay as they are.
-/

namespace BinaryFormat.Text

/-- A text with its ASCII letters in lower case. -/
def lower (s : String) : String := String.ofList (s.toList.map Char.toLower)

end BinaryFormat.Text
