import BinaryFormat.ByteOrder
import BinaryFormat.Table
import BinaryFormat.Value

/-!
# Scopes

A scope is a window of the buffer together with the names bound while it was the innermost one. Most
scopes bound what is read inside them. An overlay covers the window of the scope around it and only sets
a byte order, so what is bound inside it has to outlive it.
-/

namespace BinaryFormat

/-- A window of the buffer and the names bound in it. -/
structure Scope where
  start : Nat
  /-- The offset just past the window. -/
  stop : Nat
  /-- The byte order that the scope sets. -/
  order : Option ByteOrder
  /-- Whether the scope only sets a byte order. -/
  isOverlay : Bool
  bindings : Table Value
deriving DecidableEq, Repr

/-- Binds a name in the scope. -/
def Scope.bind (s : Scope) (name : String) (v : Value) : Scope :=
  { s with bindings := s.bindings.insert name v }

/-- Takes over the bindings of a scope inside. -/
def Scope.adopt (s : Scope) (bindings : Table Value) : Scope :=
  { s with bindings := s.bindings.merge bindings }

end BinaryFormat
