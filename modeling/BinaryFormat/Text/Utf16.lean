import BinaryFormat.ByteOrder
import BinaryFormat.Text.Machine

/-!
# UTF-16

Two bytes make a unit, in either order, and a high surrogate followed by a low one make a character. A
surrogate without its partner becomes a replacement character and so does a single byte at the end; a
byte order mark is a character like any other.
-/

namespace BinaryFormat.Text.Utf16

/-- What has been read but not yet become a character. -/
structure Pending where
  byte : Option UInt8
  high : Option Nat
deriving DecidableEq, Repr

/-- Whether a unit is the first half of a pair. -/
def isHigh (u : Nat) : Bool := 0xd800 ≤ u && u < 0xdc00

/-- Whether a unit is the second half of a pair. -/
def isLow (u : Nat) : Bool := 0xdc00 ≤ u && u < 0xe000

/-- Reads a unit outside of a pair. -/
def single (u : Nat) : List Char × Option Nat :=
  if isHigh u then ([], some u) else if isLow u then ([replacement], none) else ([Char.ofNat u], none)

/-- Reads a unit, behind the first half of a pair if one waits. -/
def unit (high : Option Nat) (u : Nat) : List Char × Option Nat :=
  match high with
  | none => single u
  | some h =>
    if isLow u then ([Char.ofNat (0x10000 + (h - 0xd800) * 0x400 + (u - 0xdc00))], none)
    else (replacement :: (single u).1, (single u).2)

/-- Reads a byte: every second one completes a unit. -/
def step (order : ByteOrder) (s : Pending) (b : UInt8) : List Char × Pending :=
  match s.byte with
  | none => ([], { s with byte := some b })
  | some a =>
    let r := unit s.high (order.value [a, b])
    (r.1, ⟨none, r.2⟩)

/-- The machine of UTF-16 in the given order. -/
def machine (order : ByteOrder) : Machine Pending where
  start := ⟨none, none⟩
  step := step order
  finish s := if s.byte.isSome || s.high.isSome then [replacement] else []

end BinaryFormat.Text.Utf16
