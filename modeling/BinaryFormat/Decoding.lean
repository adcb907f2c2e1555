import BinaryFormat.Expr.Eval
import BinaryFormat.Run

/-!
# Decoding steps

A step takes a run onwards and yields something, or it fails, and then the run is left as it was when the
failure arose: whoever recovers from the failure decides what to keep of it. A third ending is that the
step has not come to an end within the rounds it was given.
-/

namespace BinaryFormat

/-- How a step ends. -/
inductive Outcome (α : Type) where
  | done (a : α) (run : Run)
  | failed (f : Failure) (run : Run)
  | unfinished

/-- A step of a decode. -/
def Decoding (α : Type) := Run → Outcome α

namespace Decoding

variable {α β : Type}

/-- Goes on behind a step that yields something. -/
def bind (x : Decoding α) (f : α → Decoding β) : Decoding β := fun run =>
  match x run with
  | .done a run => f a run
  | .failed e run => .failed e run
  | .unfinished => .unfinished

/-- Steps are taken one after the other, up to the first that fails or comes to no end. -/
instance : Monad Decoding where
  pure a := fun run => .done a run
  bind := bind

/-- Yields the run as it is. -/
def run : Decoding Run := fun run => .done run run

/-- Changes the run. -/
def modify (f : Run → Run) : Decoding Unit := fun run => .done () (f run)

/-- Fails for a cause; where it failed is for the field around to say. -/
def fail (c : Cause) : Decoding α := fun run => .failed ⟨c, none⟩ run

/-- Fails with a failure that arose before. -/
def rethrow (f : Failure) : Decoding α := fun run => .failed f run

/-- Comes to no end. -/
def unfinished : Decoding α := fun _ => .unfinished

/-- Yields what a step yields, or its failure. -/
def attempt (x : Decoding α) : Decoding (Except Failure α) := fun run =>
  match x run with
  | .done a run => .done (.ok a) run
  | .failed f run => .done (.error f) run
  | .unfinished => .unfinished

/-! ### Reading -/

/-- Yields the position. -/
def pos : Decoding Nat := fun run => .done run.pos run

/-- Reads in the buffer. -/
def read (f : Reader → Except Cause (α × Reader)) : Decoding α := fun run =>
  match f run.reader with
  | .ok (a, reader) => .done a { run with reader }
  | .error c => .failed ⟨c, none⟩ run

/-- Moves in the buffer, or opens or closes a scope. -/
def move (f : Reader → Except Cause Reader) : Decoding Unit := fun run =>
  match f run.reader with
  | .ok reader => .done () { run with reader }
  | .error c => .failed ⟨c, none⟩ run

/-- Changes the reader. -/
def modifyReader (f : Reader → Reader) : Decoding Unit :=
  modify fun run => { run with reader := f run.reader }

/-- Moves to an offset that was reached before. -/
def jump (offset : Nat) : Decoding Unit := modifyReader fun r => { r with pos := offset }

/-- Binds a name in the innermost scope. -/
def bindName (name : String) (v : Value) : Decoding Unit := modifyReader (·.bind name v)

/-! ### Expressions -/

/-- The value of an expression; evaluating one changes nothing. -/
def eval (e : Expression) : Decoding Value := fun run =>
  match e.tree.eval run.reader.environment with
  | .ok v => .done v run
  | .error c => .failed ⟨.evaluation c, none⟩ run

/-- Whether an expression holds. -/
def holds (e : Expression) : Decoding Bool := do pure (← eval e).toBool

/-- The integer that a value stands for. -/
def integer (v : Value) : Decoding Int64 := fun run =>
  match v.toInt with
  | .ok n => .done n run
  | .error c => .failed ⟨.evaluation c, none⟩ run

/-- The value of an expression that is a size, an offset or a count. -/
def evalNat (role : String) (e : Expression) : Decoding Nat := do
  let n ← integer (← eval e)
  if n < 0 then fail (.negative role e.source n) else pure n.toInt.toNat

/-! ### Places -/

/-- Takes a step inside a field or element, and says where it arose of a failure that has no place
yet. -/
def within (segment : String) (type : FieldType) (x : Decoding α) : Decoding α := fun run =>
  match x { run with path := segment :: run.path } with
  | .done a inner => .done a { inner with path := run.path }
  | .failed f inner =>
    .failed (f.locate ({ inner with path := segment :: run.path }.place type))
      { inner with path := run.path }
  | .unfinished => .unfinished

end Decoding

end BinaryFormat
