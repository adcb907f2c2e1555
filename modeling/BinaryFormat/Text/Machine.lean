/-!
# Reading text byte by byte

An encoding is read by a machine: each byte moves its state and may complete characters, and the end of
the bytes completes whatever is still pending. Nothing is ever refused. Bytes that mean nothing complete
a replacement character, and the byte that showed it is read again from the initial state.
-/

namespace BinaryFormat.Text

/-- A machine that turns bytes into characters. -/
structure Machine (σ : Type) where
  start : σ
  /-- The characters that a byte completes, and the state behind it. -/
  step : σ → UInt8 → List Char × σ
  /-- The characters that the end of the bytes completes. -/
  finish : σ → List Char

namespace Machine

/-- The characters of some bytes, read on from a state. -/
def runFrom {σ : Type} (m : Machine σ) (s : σ) : List UInt8 → List Char
  | [] => m.finish s
  | b :: bs => (m.step s b).1 ++ m.runFrom (m.step s b).2 bs

/-- The characters of some bytes. -/
def run {σ : Type} (m : Machine σ) (bytes : List UInt8) : List Char := m.runFrom m.start bytes

end Machine

/-- What stands for bytes that mean nothing. -/
def replacement : Char := '\ufffd'

end BinaryFormat.Text
