import BinaryFormat.Decoder
import BinaryFormat.Expr.Printer
import BinaryFormat.Node.Write
import BinaryFormat.Schema.Load
import BinaryFormat.Schema.Write
import BinaryFormat.Toml.Parser
import BinaryFormat.Proofs.Bracket
import BinaryFormat.Proofs.Reading
import BinaryFormat.Proofs.Traversal
import BinaryFormat.Proofs.Rounds
import BinaryFormat.Proofs.Balance
import BinaryFormat.Proofs.Loop
import BinaryFormat.Proofs.Termination
import BinaryFormat.Proofs.Recovery
import BinaryFormat.Proofs.Integers
import BinaryFormat.Proofs.Leaves
import BinaryFormat.Proofs.Accuracy
import BinaryFormat.Proofs.Modes
import BinaryFormat.Proofs.Stacks
import BinaryFormat.Proofs.Trace
import BinaryFormat.Proofs.Tiling
import BinaryFormat.Proofs.Counting
import BinaryFormat.Proofs.Notes
import BinaryFormat.Proofs.Limits
import BinaryFormat.Proofs.Flattening
import BinaryFormat.Proofs.Simulation
import BinaryFormat.Proofs.Calls
import BinaryFormat.Proofs.Lookahead
import BinaryFormat.Proofs.Isolation
import BinaryFormat.Proofs.Bindings
import BinaryFormat.Proofs.Grammar
import BinaryFormat.Proofs.Parsing
import BinaryFormat.Proofs.Sessions
import BinaryFormat.Proofs.Growth
import BinaryFormat.Proofs.Caps
import BinaryFormat.Proofs.Conformity
import BinaryFormat.Proofs.Lexemes
import BinaryFormat.Proofs.Scanning
import BinaryFormat.Proofs.Spelling
import BinaryFormat.Proofs.Rendering
import BinaryFormat.Proofs.Records
import BinaryFormat.Proofs.Loading
import BinaryFormat.Proofs.Extent
import BinaryFormat.Proofs.Restoring
import BinaryFormat.Proofs.Arrays
import BinaryFormat.Proofs.Places
import BinaryFormat.Proofs.Checksums
import BinaryFormat.Proofs.Refusal
import BinaryFormat.Proofs.Redundancy
import BinaryFormat.Proofs.Bitfields
import BinaryFormat.Proofs.Unread
import BinaryFormat.Proofs.Operators
import BinaryFormat.Proofs.Numerals
import BinaryFormat.Proofs.PaddedNumerals
import BinaryFormat.Proofs.Hexadecimal
import BinaryFormat.Proofs.Alignment
import BinaryFormat.Proofs.Equality
import BinaryFormat.Proofs.Nesting
