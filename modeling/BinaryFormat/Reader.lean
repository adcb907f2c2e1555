import BinaryFormat.Binary64
import BinaryFormat.Buffer
import BinaryFormat.Environment
import BinaryFormat.Failure
import BinaryFormat.Scope

/-!
# Reading a buffer

A reader is a buffer with a position, a stack of scopes and the string tables found so far. The scope of
the whole buffer lies under the stack and cannot be left, so it is no member of it: only its bindings
can change. Every read is bounded by the innermost scope.

An operation that cannot be done answers its cause and no reader. There is nothing to undo: whoever
tried it still has the reader from before.
-/

namespace BinaryFormat

/-- A buffer that is being read. -/
structure Reader where
  data : Buffer
  pos : Nat
  /-- The open scopes, innermost first. -/
  scopes : List Scope
  /-- The names bound outside of every scope. -/
  bindings : Table Value
  /-- The byte order where no scope sets one. -/
  order : ByteOrder
  tables : Table (Nat × Nat)
deriving DecidableEq, Repr

namespace Reader

/-- A buffer that nothing was read of yet. -/
def ofBuffer (data : Buffer) (order : ByteOrder) : Reader :=
  { data, pos := 0, scopes := [], bindings := [], order, tables := [] }

/-- The scope of the whole buffer. -/
def rootScope (r : Reader) : Scope :=
  { start := 0, stop := r.data.size, order := none, isOverlay := false, bindings := r.bindings }

/-- The innermost scope. -/
def scope (r : Reader) : Scope := r.scopes.headD r.rootScope

/-- Every scope, innermost first and the whole buffer last. -/
def allScopes (r : Reader) : List Scope := r.scopes ++ [r.rootScope]

/-- The bytes left in the innermost scope. -/
def remaining (r : Reader) : Nat := r.scope.stop - r.pos

/-- Whether the innermost scope holds no more bytes. -/
def isExhausted (r : Reader) : Bool := r.remaining == 0

/-- The byte order in force: the innermost one that a scope sets. -/
def byteOrder (r : Reader) : ByteOrder := (r.allScopes.findSome? Scope.order).getD r.order

/-! ### Scopes -/

/-- Opens a scope of `size` bytes at the position. -/
def enter (r : Reader) (size : Nat) : Except Cause Reader :=
  if r.pos + size ≤ r.scope.stop then
    let inner : Scope :=
      { start := r.pos, stop := r.pos + size, order := none, isOverlay := false, bindings := [] }
    .ok { r with scopes := inner :: r.scopes }
  else .error (.scopeTooLong size r.pos r.scope.stop)

/-- Opens a scope that only sets a byte order. -/
def overlay (r : Reader) (order : ByteOrder) : Reader :=
  let inner : Scope :=
    { start := r.scope.start, stop := r.scope.stop, order := some order, isOverlay := true
      bindings := [] }
  { r with scopes := inner :: r.scopes }

/-- Hands bindings to the innermost scope. -/
def adopt (r : Reader) (bindings : Table Value) : Reader :=
  match r.scopes with
  | [] => { r with bindings := r.bindings.merge bindings }
  | s :: rest => { r with scopes := s.adopt bindings :: rest }

/-- Closes the innermost scope: the position moves to its end, or, behind an overlay, stays while the
bindings move outwards. -/
def leave (r : Reader) : Except Cause Reader :=
  match r.scopes with
  | [] => .error .rootScope
  | s :: rest =>
    if s.isOverlay then .ok (({ r with scopes := rest } : Reader).adopt s.bindings)
    else .ok { r with scopes := rest, pos := s.stop }

/-- Drops the scopes opened since there were `depth` of them, without moving. -/
def unwind (r : Reader) (depth : Nat) : Reader :=
  { r with scopes := r.scopes.drop (r.scopes.length - depth) }

/-! ### Bindings -/

/-- Binds a name in the innermost scope. -/
def bind (r : Reader) (name : String) (v : Value) : Reader :=
  match r.scopes with
  | [] => { r with bindings := r.bindings.insert name v }
  | s :: rest => { r with scopes := s.bind name v :: rest }

/-- The value of a name in the innermost scope that binds it. -/
def get? (r : Reader) (name : String) : Option Value :=
  r.allScopes.findSome? fun s => s.bindings.get? name

/-! ### Bytes -/

/-- Reads this many bytes of the scope. A scope ends in the buffer, so the second question is only asked for safety. -/
def read (r : Reader) (n : Nat) : Except Cause (List UInt8 × Reader) :=
  if n ≤ r.remaining then
    if r.pos + n ≤ r.data.size then
      .ok (r.data.window r.pos (r.pos + n), { r with pos := r.pos + n })
    else .error .pastBuffer
  else .error (.readTooLong n r.remaining)

/-- The bytes left in the innermost scope, unread. -/
def unread (r : Reader) : List UInt8 := r.data.window r.pos r.scope.stop

/-- The bytes of a range of the whole buffer, or nothing when it is not wholly inside. -/
def slice (r : Reader) (offset length : Nat) : List UInt8 :=
  if offset + length ≤ r.data.size then r.data.window offset (offset + length) else []

/-- Whether integers of this many bytes exist. -/
def isWidth (width : Nat) : Bool := width == 1 || width == 2 || width == 4 || width == 8

/-- Reads an unsigned integer in the byte order in force. -/
def readUnsigned (r : Reader) (width : Nat) : Except Cause (UInt64 × Reader) :=
  if isWidth width then do
    let (bytes, r') ← r.read width
    pure (UInt64.ofNat (r.byteOrder.value bytes), r')
  else .error (.integerWidth width)

/-- Reads a signed integer in the byte order in force. -/
def readSigned (r : Reader) (width : Nat) : Except Cause (Int64 × Reader) :=
  if isWidth width then do
    let (bytes, r') ← r.read width
    pure (Int64.ofInt (r.byteOrder.signedValue bytes), r')
  else .error (.integerWidth width)

/-- Reads a floating-point number of four bytes, widened to eight. -/
def readBinary32 (r : Reader) : Except Cause (Binary64 × Reader) := do
  let (bytes, r') ← r.read 4
  pure (Binary64.ofBinary32 (UInt32.ofNat (r.byteOrder.value bytes)), r')

/-- Reads a floating-point number of eight bytes. -/
def readBinary64 (r : Reader) : Except Cause (Binary64 × Reader) := do
  let (bytes, r') ← r.read 8
  pure (⟨UInt64.ofNat (r.byteOrder.value bytes)⟩, r')

/-- Reads a text of this many bytes. -/
def readText (r : Reader) (n : Nat) (e : Text.Encoding) : Except Cause (String × Reader) := do
  let (bytes, r') ← r.read n
  pure (Text.decode e bytes, r')

/-- Reads a text up to its NUL byte, which is consumed, or up to the end of the scope. -/
def readTerminated (r : Reader) (e : Text.Encoding) : Except Cause (String × Reader) := do
  let body := r.unread.takeWhile (· != 0)
  let (_, r') ← r.read (min (body.length + 1) r.unread.length)
  pure (Text.decode e body, r')

/-- The distance to a byte sequence in the innermost scope, or to the end of the scope. -/
def distance (r : Reader) (marker : List UInt8) : Nat :=
  (offsetOf? marker r.unread).getD r.unread.length

/-! ### Positions -/

/-- Moves to an offset of the buffer. -/
def seek (r : Reader) (offset : Nat) : Except Cause Reader :=
  if offset ≤ r.data.size then .ok { r with pos := offset }
  else .error (.seekTooFar offset r.data.size)

/-- The bytes between the position and the next multiple. -/
def padding (r : Reader) (alignment : Nat) : Nat :=
  (alignment - r.pos % alignment) % alignment

/-- Moves to the next multiple and answers how far that was. -/
def align (r : Reader) (alignment : Nat) : Except Cause (Nat × Reader) :=
  if alignment ≤ 1 then .ok (0, r)
  else if r.pos + r.padding alignment ≤ r.scope.stop then
    .ok (r.padding alignment, { r with pos := r.pos + r.padding alignment })
  else .error (.alignTooFar alignment (r.pos + r.padding alignment - r.scope.stop))

/-! ### String tables -/

/-- Declares a range of the buffer a string table; the first declaration of a name stands. -/
def addTable (r : Reader) (name : String) (start stop : Nat) : Reader :=
  { r with tables := r.tables.insertIfNew name (start, stop) }

/-- Whether a string table of this name is known. -/
def hasTable (r : Reader) (name : String) : Bool := (r.tables.get? name).isSome

/-- The text at an offset of a string table. -/
def textAt? (r : Reader) (table : String) (offset : Nat) : Option String := do
  let (start, stop) ← r.tables.get? table
  if start + offset < stop then
    let bytes := r.slice (start + offset) (stop - (start + offset))
    some (Text.decode .utf8 (bytes.takeWhile (· != 0)))
  else none

/-- What an expression can see of a reader. -/
def environment (r : Reader) : Environment where
  get? := r.get?
  remaining := r.remaining
  distance := r.distance

end Reader

end BinaryFormat
