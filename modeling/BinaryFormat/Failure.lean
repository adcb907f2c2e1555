import BinaryFormat.EvalError
import BinaryFormat.Schema.FieldType
import BinaryFormat.Value

/-!
# Decoding failures

A failure is a cause and, once it has left the field it arose in, the place of that field. The class of
the cause decides whether decoding may go on behind the field: damaged data can be skipped, a broken
schema, an exhausted limit or a cancelled run cannot.
-/

namespace BinaryFormat

namespace Failure

/-- The classes of failures. -/
inductive Kind where
  /-- The schema cannot be followed, whatever the data. -/
  | schema
  /-- A read, a seek or a scope reaches past its bounds. -/
  | bounds
  /-- An expression has no value, or none that fits. -/
  | expression
  /-- The bytes cannot be interpreted. -/
  | data
  | limit
  | cancelled
deriving DecidableEq, Repr

namespace Kind

/-- How a class is named in a report. -/
def text : Kind → String
  | schema => "schema error"
  | bounds => "bounds error"
  | expression => "expression error"
  | data => "data error"
  | limit => "limit exceeded"
  | cancelled => "cancelled"

/-- Whether decoding may go on behind a field that failed. -/
def isRecoverable : Kind → Bool
  | bounds | expression | data => true
  | schema | limit | cancelled => false

end Kind

end Failure

/-- Why decoding failed. -/
inductive Cause where
  | unknownStruct (name : String)
  | unknownEnum (name : String)
  | unknownFlags (name : String)
  /-- A field declares no size and its type has none. -/
  | missingSize (field : String) (type : FieldType)
  /-- The scope of the whole buffer cannot be left. -/
  | rootScope
  /-- No integer has this many bytes. -/
  | integerWidth (width : Nat)
  | missingStruct (field : String)
  /-- A switch field has no cases to choose from. -/
  | missingSwitch (field : String)
  | missingValue (field : String)
  /-- No case fits the value and there is no fallback. -/
  | noCase (value : Value)
  /-- A bitfield is not 1, 2 or 4 bytes long. -/
  | bitfieldSize (field : String) (size : Nat)
  /-- A bit range is reversed or reaches past 64 bits. -/
  | bitRange (part : String) (high low : Nat)
  | unknownCompression (name : String)
  /-- A scope would end behind the scope around it. -/
  | scopeTooLong (size start outerStop : Nat)
  /-- A read would go past the end of the scope. -/
  | readTooLong (length remaining : Nat)
  /-- A read would go past the end of the buffer. -/
  | pastBuffer
  /-- An offset lies behind the end of the buffer. -/
  | seekTooFar (target size : Nat)
  /-- The next multiple lies behind the end of the scope. -/
  | alignTooFar (alignment excess : Nat)
  | evaluation (e : EvalError)
  | negative (role source : String) (value : Int64)
  /-- A compressed stream is damaged or cut off. -/
  | corrupt (algorithm : String)
  | tooManyNodes (max : Nat)
  | tooManyElements (count max : Nat)
  | tooDeep (max : Nat)
  | cancelled
  /-- A failure in the words of the caller. -/
  | stated (kind : Failure.Kind) (message : String)
deriving DecidableEq, Repr

namespace Cause

/-- The class of a cause. An expression fails by its own error, whose class may put the schema at fault. -/
def kind : Cause → Failure.Kind
  | unknownStruct _ | unknownEnum _ | unknownFlags _ | missingSize .. | rootScope | integerWidth _
  | missingStruct _ | missingSwitch _ | missingValue _ | noCase _ | bitfieldSize .. | bitRange ..
  | unknownCompression _ => .schema
  | scopeTooLong .. | readTooLong .. | pastBuffer | seekTooFar .. | alignTooFar .. => .bounds
  | evaluation e => if e.kind.isSchemaFault then .schema else .expression
  | negative .. => .expression
  | corrupt _ => .data
  | tooManyNodes _ | tooManyElements .. | tooDeep _ => .limit
  | cancelled => .cancelled
  | stated k _ => k

/-- The wording of a cause. That of a damaged stream is cut short: the words of the decompressor itself, which would
follow behind a colon, are left out, as no decompressor here says what is damaged. -/
def message : Cause → String
  | unknownStruct name => "unknown struct '" ++ name ++ "'"
  | unknownEnum name => "unknown enum '" ++ name ++ "'"
  | unknownFlags name => "unknown flags '" ++ name ++ "'"
  | missingSize field type => "field '" ++ field ++ "' of type " ++ type.name ++ " needs a size"
  | rootScope => "cannot pop the root scope"
  | integerWidth width => "unsupported integer width " ++ toString width
  | missingStruct field => "struct field '" ++ field ++ "' names no struct"
  | missingSwitch field => "switch field '" ++ field ++ "' has no switch spec"
  | missingValue field => "virtual field '" ++ field ++ "' has no value expression"
  | noCase value =>
    "no switch case matches " ++ value.typeName ++ " '" ++ value.display ++
      "' and no default is declared"
  | bitfieldSize field size =>
    "bitfield '" ++ field ++ "' must be 1, 2 or 4 bytes, got " ++ toString size
  | bitRange part high low =>
    "bit range [" ++ toString high ++ ":" ++ toString low ++ "] of '" ++ part ++ "' is invalid"
  | unknownCompression name => "unknown compression '" ++ name ++ "'"
  | scopeTooLong size start outerStop =>
    "scope of " ++ toString size ++ " bytes at " ++ Numeral.hex start ++
      " exceeds enclosing scope ending at " ++ Numeral.hex outerStop
  | readTooLong length remaining =>
    "read of " ++ toString length ++ " bytes exceeds scope (" ++ toString remaining ++ " remaining)"
  | pastBuffer => "read past end of buffer"
  | seekTooFar target size =>
    "seek to " ++ Numeral.hex target ++ " beyond buffer of " ++ toString size ++ " bytes"
  | alignTooFar alignment excess =>
    "alignment to " ++ toString alignment ++ " needs " ++ toString excess ++ " bytes past scope end"
  | evaluation e => e.message
  | negative role source value =>
    role ++ " '" ++ source ++ "' evaluated to negative value " ++ toString value.toInt
  | corrupt algorithm => algorithm ++ " stream is corrupt"
  | tooManyNodes max => "total node limit exceeded (max " ++ toString max ++ ")"
  | tooManyElements count max =>
    "array element limit exceeded (" ++ toString count ++ " > max " ++ toString max ++ ")"
  | tooDeep max => "nesting depth exceeded (max " ++ toString max ++ ")"
  | cancelled => "decode cancelled"
  | stated _ message => message

end Cause

/-- The field in which a failure arose. -/
structure Place where
  offset : Nat
  path : String
  type : FieldType
deriving DecidableEq, Repr

/-- A failed decode. -/
structure Failure where
  cause : Cause
  /-- Where it failed, unless it failed outside of every field. -/
  place : Option Place := none
deriving DecidableEq, Repr

namespace Failure

/-- The class of a failure. -/
def kind (f : Failure) : Kind := f.cause.kind

/-- The wording of a failure, without its place. -/
def message (f : Failure) : String := f.cause.message

/-- Whether decoding may go on behind the field that failed. -/
def isRecoverable (f : Failure) : Bool := f.kind.isRecoverable

/-- Says where a failure arose, unless a field further inside has said so. -/
def locate (f : Failure) (p : Place) : Failure :=
  { f with place := some (f.place.getD p) }

/-- The report of a failure: its class, its place where it has one, and its wording. -/
def report (f : Failure) : String :=
  match f.place with
  | some p =>
    f.kind.text ++ " at offset " ++ Numeral.hex p.offset ++ " in '" ++ p.path ++ "' (" ++
      p.type.name ++ "): " ++ f.message
  | none => f.kind.text ++ ": " ++ f.message

end Failure

end BinaryFormat
