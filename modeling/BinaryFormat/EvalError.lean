import BinaryFormat.Expr

/-!
# Why an expression has no value

Each error names its cause. Its class decides what becomes of the field that evaluated the expression:
a call that no data could make valid is a fault of the schema, everything else a fault of the data.
-/

namespace BinaryFormat

namespace EvalError

/-- The classes of errors. -/
inductive Kind where
  | unknownVariable | typeMismatch | divisionByZero | invalidBase | unknownFunction | arity
deriving DecidableEq, Repr

/-- Whether the schema is at fault, whatever the data. -/
def Kind.isSchemaFault : Kind → Bool
  | invalidBase | unknownFunction | arity => true
  | unknownVariable | typeMismatch | divisionByZero => false

end EvalError

/-- Why an expression has no value. -/
inductive EvalError where
  | unknownVariable (name : String)
  /-- A text that is no decimal numeral stands for an integer. -/
  | notNumeric (text : String)
  /-- A text has no byte at this position. -/
  | indexOutOfRange (index : Int64) (name : String) (length : Nat)
  | notIndexable (typeName name : String)
  | divisionByZero (dividend : Int64) (op : BinaryOp)
  /-- A shift amount is not below 64, or negative. -/
  | shiftOutOfRange (amount : Int64)
  /-- A marker holds a number that is no byte. -/
  | markerByteOutOfRange (byte : Int64)
  /-- A numeral is asked for in a base that is not supported. -/
  | invalidBase (base : Int64)
  | unknownFunction (name : String)
  /-- A builtin is called with a wrong number of arguments. -/
  | arity (function expected : String) (given : Nat)
  /-- An error in the words of the caller. -/
  | stated (kind : EvalError.Kind) (message : String)
deriving DecidableEq, Repr

namespace EvalError

/-- The class of an error. A text that is no integer and a position outside of a text are of one class. -/
def kind : EvalError → Kind
  | unknownVariable _ => .unknownVariable
  | notNumeric _ | indexOutOfRange .. | notIndexable .. | shiftOutOfRange _
  | markerByteOutOfRange _ => .typeMismatch
  | divisionByZero .. => .divisionByZero
  | invalidBase _ => .invalidBase
  | unknownFunction _ => .unknownFunction
  | arity .. => .arity
  | stated k _ => k

/-- The wording of an error. -/
def message : EvalError → String
  | unknownVariable name => "unknown variable '" ++ name ++ "'"
  | notNumeric text => "cannot convert text '" ++ text ++ "' to integer"
  | indexOutOfRange index name length =>
    "index " ++ toString index.toInt ++ " out of range for '" ++ name ++ "' (length " ++
      toString length ++ ")"
  | notIndexable typeName name => "cannot index " ++ typeName ++ " value '" ++ name ++ "'"
  | divisionByZero dividend op =>
    "division by zero (" ++ toString dividend.toInt ++ " " ++ op.symbol.text ++ " 0)"
  | shiftOutOfRange amount => "shift amount " ++ toString amount.toInt ++ " out of range"
  | markerByteOutOfRange byte =>
    "until_marker byte " ++ toString byte.toInt ++ " out of range 0..=255"
  | invalidBase base => "parse_int base must be 2, 8, 10 or 16, got " ++ toString base.toInt
  | unknownFunction name => "unknown function '" ++ name ++ "'"
  | arity function expected given =>
    function ++ " expects " ++ expected ++ " argument(s), got " ++ toString given
  | stated _ message => message

/-- The report of an error outside of a decode. -/
def report (e : EvalError) : String := "eval error: " ++ e.message

end EvalError

end BinaryFormat
