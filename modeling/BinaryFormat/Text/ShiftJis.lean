import BinaryFormat.Text.Machine
import BinaryFormat.Text.ShiftJis.Table

/-!
# Shift_JIS

ASCII, the half-width katakana and the control character `0x80` are single bytes; two ranges of lead
bytes open a pair that selects a cell of the table or a private-use character. Where a pair selects
nothing, a trail byte that is ASCII is read again on its own, so broken text never swallows a delimiter.
-/

namespace BinaryFormat.Text.ShiftJis

/-- The number of a cell, from a lead byte and a trail byte in the ranges of the encoding. -/
def pointer? (lead trail : Nat) : Option Nat :=
  if (0x40 ≤ trail ∧ trail ≤ 0x7e) ∨ (0x80 ≤ trail ∧ trail ≤ 0xfc) then
    let leadOffset := if lead < 0xa0 then 0x81 else 0xc1
    let trailOffset := if trail < 0x7f then 0x40 else 0x41
    some ((lead - leadOffset) * 188 + trail - trailOffset)
  else none

/-- The character of a cell: a block of private use, or the table. -/
def character? (n : Nat) : Option Char :=
  if 8836 ≤ n ∧ n ≤ 10715 then some (Char.ofNat (0xe000 + (n - 8836))) else cell? n

/-- Whether a byte opens a pair. -/
def isLead (n : Nat) : Bool := (0x81 ≤ n && n ≤ 0x9f) || (0xe0 ≤ n && n ≤ 0xfc)

/-- Reads the next byte; the state is a lead byte that waits for its trail. -/
def step (s : Option UInt8) (b : UInt8) : List Char × Option UInt8 :=
  let n := b.toNat
  match s with
  | none =>
    if n ≤ 0x80 then ([Char.ofNat n], none)
    else if 0xa1 ≤ n ∧ n ≤ 0xdf then ([Char.ofNat (0xff61 + (n - 0xa1))], none)
    else if isLead n then ([], some b)
    else ([replacement], none)
  | some lead =>
    match (pointer? lead.toNat n).bind character? with
    | some c => ([c], none)
    | none => if n < 0x80 then ([replacement, Char.ofNat n], none) else ([replacement], none)

/-- The machine of Shift JIS; its state is a lead byte that waits for its trail. -/
def machine : Machine (Option UInt8) where
  start := none
  step := step
  finish s := if s.isSome then [replacement] else []

end BinaryFormat.Text.ShiftJis
