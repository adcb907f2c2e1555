/-!
# Byte ranges of a source text

Diagnostics point into the text of an expression by a half-open range of UTF-8 bytes. Characters are
what the scanner recurses on, bytes are what a range counts, so cutting a text at a range has to walk
the characters and give up where a bound falls inside one.
-/

namespace BinaryFormat

/-- A half-open range of bytes inside one source text. -/
structure Span where
  start : Nat
  /-- The offset just past the last byte. -/
  stop : Nat
deriving DecidableEq, Repr

namespace Span

/-- The range given to a token that is not there. -/
def origin : Span := ⟨0, 0⟩

/-- The least range that covers both. -/
def merge (a b : Span) : Span := ⟨min a.start b.start, max a.stop b.stop⟩

@[simp] theorem start_merge (a b : Span) : (a.merge b).start = min a.start b.start := rfl

@[simp] theorem stop_merge (a b : Span) : (a.merge b).stop = max a.stop b.stop := rfl

end Span

/-- Cuts a text after `n` bytes; `none` when the text is shorter or the cut falls inside a character. -/
def splitAtByte? : Nat → List Char → Option (List Char × List Char)
  | 0, cs => some ([], cs)
  | _ + 1, [] => none
  | n + 1, c :: cs =>
    if c.utf8Size ≤ n + 1 then (splitAtByte? (n + 1 - c.utf8Size) cs).map fun p => (c :: p.1, p.2)
    else none
termination_by structural _ cs => cs

namespace Span

/-- The characters a range covers, or nothing when the range is not made of whole characters. -/
def excerpt (s : Span) (source : List Char) : List Char :=
  if s.start ≤ s.stop then
    match splitAtByte? s.start source with
    | none => []
    | some (_, back) => ((splitAtByte? (s.stop - s.start) back).map Prod.fst).getD []
  else []

end Span

end BinaryFormat
