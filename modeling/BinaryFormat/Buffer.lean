/-!
# Buffers

The bytes being decoded, with constant-time access; every window of them is handed out as a list.
-/

namespace BinaryFormat

/-- The bytes being decoded. -/
abbrev Buffer := Array UInt8

namespace Buffer

/-- The bytes from `start` up to `stop`, or up to the end of the buffer. -/
def window (b : Buffer) (start stop : Nat) : List UInt8 := (b.extract start stop).toList

theorem window_eq (b : Buffer) (start stop : Nat) :
    window b start stop = (b.toList.take stop).drop start := by
  simp [window, Array.toList_extract, List.extract_eq_take_drop, List.drop_take]

theorem length_window (b : Buffer) (start stop : Nat) :
    (window b start stop).length = min stop b.size - start := by
  simp only [window, Array.length_toList, Array.size_extract]

end Buffer

/-- The offset of the first place where a byte sequence occurs. -/
def offsetOf? (marker : List UInt8) : List UInt8 → Option Nat
  | [] => if marker = [] then some 0 else none
  | b :: bs => if marker.isPrefixOf (b :: bs) then some 0 else (offsetOf? marker bs).map (· + 1)

end BinaryFormat
