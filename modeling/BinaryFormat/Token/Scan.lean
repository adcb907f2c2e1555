import BinaryFormat.Token.Piece

/-!
# Scanning a source text

A scan is the tokens of a text, closed by an end token, and all its faults. It exists for every text
except one with a literal that has no reading.
-/

namespace BinaryFormat.Token

/-- The tokens and the faults of a text, each in the order of the text. -/
structure Scan where
  /-- The tokens, the end token last. -/
  tokens : List Token
  faults : List Fault
deriving DecidableEq, Repr

/-- Puts the piece that starts at `pos` in front. -/
def Scan.push (s : Scan) (pos : Nat) (p : Piece) : Scan where
  tokens := (p.kind.map fun k => (⟨k, ⟨pos, p.stop⟩⟩ : Token)).toList ++ s.tokens
  faults := p.faults ++ s.faults

/-- Scans a text whose first byte stands at `pos`. -/
def scan? (pos : Nat) : List Char → Option Scan
  | [] => some { tokens := [⟨.finish, ⟨pos, pos⟩⟩], faults := [] }
  | c :: cs =>
    if isSpace c then scan? (pos + 1) cs
    else
      match _h : piece? pos c cs with
      | none => none
      | some p => (scan? p.stop p.rest).map (·.push pos p)
termination_by cs => cs.length
decreasing_by
  · simp
  · exact length_rest_lt_of_piece? _h

end BinaryFormat.Token
