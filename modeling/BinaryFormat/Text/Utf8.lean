import BinaryFormat.Text.Machine

/-!
# UTF-8

The lead byte of a sequence fixes how many continuation bytes follow and, for four leads, narrows the
first of them, which keeps out overlong forms, surrogates and codes past the last plane. A sequence that
breaks off becomes one replacement character, however many of its bytes were right.
-/

namespace BinaryFormat.Text.Utf8

/-- A sequence that is not complete. -/
structure Pending where
  code : Nat
  /-- The number of bytes to come. -/
  missing : Nat
  /-- The least next byte. -/
  least : UInt8
  greatest : UInt8
deriving DecidableEq, Repr

/-- The sequence that a byte above ASCII opens, if it opens one. -/
def lead? (b : UInt8) : Option Pending :=
  let n := b.toNat
  if 0xc2 ≤ n ∧ n ≤ 0xdf then some ⟨n - 0xc0, 1, 0x80, 0xbf⟩
  else if n = 0xe0 then some ⟨0, 2, 0xa0, 0xbf⟩
  else if n = 0xed then some ⟨0xd, 2, 0x80, 0x9f⟩
  else if 0xe1 ≤ n ∧ n ≤ 0xef then some ⟨n - 0xe0, 2, 0x80, 0xbf⟩
  else if n = 0xf0 then some ⟨0, 3, 0x90, 0xbf⟩
  else if 0xf1 ≤ n ∧ n ≤ 0xf3 then some ⟨n - 0xf0, 3, 0x80, 0xbf⟩
  else if n = 0xf4 then some ⟨4, 3, 0x80, 0x8f⟩
  else none

/-- Reads a byte outside of a sequence. -/
def first (b : UInt8) : List Char × Option Pending :=
  if b < 0x80 then ([Char.ofNat b.toNat], none)
  else
    match lead? b with
    | some p => ([], some p)
    | none => ([replacement], none)

/-- Reads a byte. One that breaks a sequence off is read again outside of it. -/
def step (s : Option Pending) (b : UInt8) : List Char × Option Pending :=
  match s with
  | none => first b
  | some p =>
    if p.least ≤ b ∧ b ≤ p.greatest then
      let code := p.code * 64 + b.toNat % 64
      if p.missing ≤ 1 then ([Char.ofNat code], none) else ([], some ⟨code, p.missing - 1, 0x80, 0xbf⟩)
    else (replacement :: (first b).1, (first b).2)

/-- The machine of UTF-8; its state is a sequence that is not complete. -/
def machine : Machine (Option Pending) where
  start := none
  step := step
  finish s := if s.isSome then [replacement] else []

end BinaryFormat.Text.Utf8
