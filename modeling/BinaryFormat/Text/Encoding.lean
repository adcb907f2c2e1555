import BinaryFormat.Text.ShiftJis
import BinaryFormat.Text.Utf16
import BinaryFormat.Text.Utf8

/-!
# Text encodings

The encodings a text field can be declared with. Decoding never fails, because a damaged text is still
worth showing: what cannot be read becomes a replacement character.
-/

namespace BinaryFormat.Text

/-- The encodings of text fields. -/
inductive Encoding where
  | ascii | utf8 | utf16le | utf16be | shiftJis | latin1
deriving DecidableEq, Repr

namespace Encoding

/-- The name an encoding is shown by. -/
def display : Encoding → String
  | ascii => "ascii"
  | utf8 => "utf-8"
  | utf16le => "utf-16le"
  | utf16be => "utf-16be"
  | shiftJis => "shift_jis"
  | latin1 => "latin-1"

/-- The name an encoding is written by in documents. -/
def name : Encoding → String
  | ascii => "ascii"
  | utf8 => "utf8"
  | utf16le => "utf16_le"
  | utf16be => "utf16_be"
  | shiftJis => "shift_jis"
  | latin1 => "latin1"

/-- The encoding of a name in documents. -/
def ofName? (s : String) : Option Encoding :=
  [ascii, utf8, utf16le, utf16be, shiftJis, latin1].find? (·.name == s)

end Encoding

/-- The text that some bytes hold. -/
def decode (e : Encoding) (bytes : List UInt8) : String :=
  String.ofList <|
    match e with
    | .ascii => bytes.map fun b => if b < 0x80 then Char.ofNat b.toNat else replacement
    | .latin1 => bytes.map fun b => Char.ofNat b.toNat
    | .utf8 => Utf8.machine.run bytes
    | .utf16le => (Utf16.machine .little).run bytes
    | .utf16be => (Utf16.machine .big).run bytes
    | .shiftJis => ShiftJis.machine.run bytes

end BinaryFormat.Text
