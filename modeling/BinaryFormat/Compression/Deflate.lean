import BinaryFormat.Compression.Huffman

/-!
# The deflate format

A stream is a sequence of blocks. A stored block holds its bytes as they are; a coded one is a sequence of
literal bytes and of matches, which repeat bytes seen some distance back. The codes of literals, lengths
and distances are either fixed or sent ahead of the block, their lengths being coded themselves.

A distance may reach back past the first byte: what lies before it counts as zeros.

Every symbol takes at least one bit and every block at least three, so the number of bits left bounds
how many there can be.
-/

namespace BinaryFormat.Compression.Deflate

open BitReader

/-- The least length of each length symbol, and the number of bits that add to it. -/
def lengthTable : List (Nat × Nat) :=
  [(3, 0), (4, 0), (5, 0), (6, 0), (7, 0), (8, 0), (9, 0), (10, 0), (11, 1), (13, 1), (15, 1), (17, 1),
    (19, 2), (23, 2), (27, 2), (31, 2), (35, 3), (43, 3), (51, 3), (59, 3), (67, 4), (83, 4), (99, 4),
    (115, 4), (131, 5), (163, 5), (195, 5), (227, 5), (258, 0)]

/-- The least distance of each distance symbol, and the number of bits that add to it. -/
def distanceTable : List (Nat × Nat) :=
  [(1, 0), (2, 0), (3, 0), (4, 0), (5, 1), (7, 1), (9, 2), (13, 2), (17, 3), (25, 3), (33, 4), (49, 4),
    (65, 5), (97, 5), (129, 6), (193, 6), (257, 7), (385, 7), (513, 8), (769, 8), (1025, 9), (1537, 9),
    (2049, 10), (3073, 10), (4097, 11), (6145, 11), (8193, 12), (12289, 12), (16385, 13), (24577, 13)]

/-- Reads the number that an entry of a table begins. -/
def extended (table : List (Nat × Nat)) (entry : Nat) : BitReader Nat := do
  match table[entry]? with
  | some (least, width) => pure (least + (← number width))
  | none => failure

/-- The byte that is `distance` back. -/
def byteBack (out : Buffer) (distance : Nat) : UInt8 :=
  if distance ≤ out.size then (out[out.size - distance]?).getD 0 else 0

/-- Repeats bytes from `distance` back; a match longer than its distance repeats its own bytes. -/
def copy (distance : Nat) : Nat → Buffer → Buffer
  | 0, out => out
  | n + 1, out => copy distance n (out.push (byteBack out distance))

/-- The symbol that ends a block. -/
def endOfBlock : Nat := 256

/-- Reads literals and matches up to the end of their block; `n` bounds their number. -/
def symbols (literals distances : Huffman) : Nat → Buffer → BitReader Buffer
  | 0, _ => failure
  | n + 1, out => do
    let s ← literals.read
    if s < endOfBlock then symbols literals distances n (out.push (UInt8.ofNat s))
    else if s = endOfBlock then pure out
    else do
      let length ← extended lengthTable (s - (endOfBlock + 1))
      let distance ← extended distanceTable (← distances.read)
      symbols literals distances n (copy distance length out)

/-- Reads the content of a coded block. There are no more symbols in it than bits left, as each takes one or more. -/
def coded (literals distances : Huffman) (out : Buffer) : BitReader Buffer := do
  let n ← remaining
  symbols literals distances (n + 1) out

/-- Reads a stored block: its length, the complement of its length, and its bytes. -/
def stored (out : Buffer) : BitReader Buffer := do
  align
  let length ← number 16
  let complement ← number 16
  guard (length + complement = 0xffff)
  pure (out ++ (← bytes length))

/-- The fixed code of literals and lengths. -/
def fixedLiterals : Huffman :=
  .ofLengths (List.replicate 144 8 ++ List.replicate 112 9 ++ List.replicate 24 7 ++ List.replicate 8 8)

/-- The fixed code of distances: every one is five bits long. -/
def fixedDistances : Huffman := .ofLengths (List.replicate 32 5)

/-- The order in which the lengths of the code of lengths are sent. -/
def lengthOrder : List Nat := [16, 17, 18, 0, 8, 7, 9, 6, 10, 5, 11, 4, 12, 3, 13, 2, 14, 1, 15]

/-- Reads lengths until there are `total` of them, given those read so far, last first; `n` bounds the
number of symbols. -/
def lengths (code : Huffman) (total : Nat) : Nat → List Nat → BitReader (List Nat)
  | 0, found => pure found
  | n + 1, found =>
    if total ≤ found.length then pure found
    else do
      let s ← code.read
      if s < 16 then lengths code total n (s :: found)
      else if s = 16 then
        match found.head? with
        | some last => do
          lengths code total n (List.replicate ((← number 2) + 3) last ++ found)
        | none => failure
      else if s = 17 then do
        lengths code total n (List.replicate ((← number 3) + 3) 0 ++ found)
      else do
        lengths code total n (List.replicate ((← number 7) + 11) 0 ++ found)

/-- Reads the codes of literals and distances that a block is sent with. -/
def sentCodes : BitReader (Huffman × Huffman) := do
  let literals := (← number 5) + 257
  let distances := (← number 5) + 1
  let count := (← number 4) + 4
  guard (literals ≤ 286 ∧ distances ≤ 30)
  let widths ← (lengthOrder.take count).mapM fun s => do pure (s, ← number 3)
  let lengthLengths := (List.range 19).map fun s => (widths.lookup s).getD 0
  guard (Huffman.isComplete lengthLengths)
  let total := literals + distances
  let found ← lengths (.ofLengths lengthLengths) total total []
  guard (found.length = total)
  let (ofLiterals, ofDistances) := found.reverse.splitAt literals
  guard (Huffman.isUsable ofLiterals ∧ Huffman.isUsable ofDistances)
  pure (.ofLengths ofLiterals, .ofLengths ofDistances)

/-- Reads blocks up to the last one; `n` bounds their number. -/
def blocks : Nat → Buffer → BitReader Buffer
  | 0, _ => failure
  | n + 1, out => do
    let isLast ← bit
    let kind ← number 2
    let out ← match kind with
      | 0 => stored out
      | 1 => coded fixedLiterals fixedDistances out
      | 2 => do
        let (literals, distances) ← sentCodes
        coded literals distances out
      | _ => failure
    if isLast then pure out else blocks n out

/-- Reads a whole stream. -/
def inflate : BitReader Buffer := do
  let n ← remaining
  blocks (n + 1) #[]

end BinaryFormat.Compression.Deflate
