import BinaryFormat.Compression.Bits

/-!
# Huffman codes

A code is given by the lengths of its codewords alone, symbol by symbol, and zero means that the symbol
has none. Codewords are ordered by length and then by symbol, and each is the lowest bit string that
no earlier one begins. As a tree this means that at every depth the leaves stand left of the branches, so
the tree can be put together from its deepest level upwards.
-/

namespace BinaryFormat.Compression

/-- A tree of codewords: at a branch the next bit decides. -/
inductive Huffman where
  /-- No codeword leads here. -/
  | unused
  /-- The end of the codeword of a symbol. -/
  | symbol (s : Nat)
  /-- The codewords that go on with each bit. -/
  | branch (zero one : Huffman)
deriving DecidableEq, Repr

namespace Huffman

/-- No codeword is longer than this. -/
def maxLength : Nat := 15

/-- The symbols whose codewords have this length. -/
def leaves (lengths : List Nat) (length : Nat) : List Huffman :=
  (lengths.zipIdx.filter (·.1 == length)).map fun e => symbol e.2

/-- Joins neighbours, two and two, under branches. -/
def joinPairs : List Huffman → List Huffman
  | a :: b :: rest => branch a b :: joinPairs rest
  | [a] => [branch a unused]
  | [] => []

/-- The trees that stand `height` above the deepest level. -/
def level (lengths : List Nat) : Nat → List Huffman
  | 0 => leaves lengths maxLength
  | height + 1 => leaves lengths (maxLength - (height + 1)) ++ joinPairs (level lengths height)

/-- The code whose codewords have these lengths, in the order of their symbols. -/
def ofLengths (lengths : List Nat) : Huffman :=
  (joinPairs (level lengths (maxLength - 1))).headD unused

/-- The share of all bit strings that the codewords begin, in units of the smallest share that a
codeword can have. -/
def share (lengths : List Nat) : Nat :=
  (lengths.filter (· != 0)).foldl (fun total n => total + 1 <<< (maxLength - n)) 0

/-- Whether every bit string begins with exactly one codeword. -/
def isComplete (lengths : List Nat) : Bool := share lengths == 1 <<< maxLength

/-- Whether a code may be used: it is complete, or too small to be. -/
def isUsable (lengths : List Nat) : Bool :=
  isComplete lengths || (lengths.filter (· != 0)).length ≤ 1

/-- Reads one symbol, bit by bit down the tree; it fails where no codeword goes on. -/
def read : Huffman → BitReader Nat
  | unused => failure
  | symbol s => pure s
  | branch zero one => do
    if ← BitReader.bit then one.read else zero.read

end Huffman

end BinaryFormat.Compression
