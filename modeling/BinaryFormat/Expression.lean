import BinaryFormat.Expr.Parser
import BinaryFormat.Text.Blank
import BinaryFormat.Token.Scan

/-!
# Expressions of a schema

A schema keeps an expression as the text it was given, braces and padding included, and evaluates the
tree of that text. The tree is determined by the text, and the structure says so: an `Expression`
cannot be built around a tree that its text does not have.
-/

namespace BinaryFormat

/-- Why a text is no expression. -/
inductive SyntaxError where
  /-- A literal has no reading: an escape would cut a character in two. -/
  | unreadable
  | lexical (faults : List Token.Fault)
  | unexpected (u : Parser.Unexpected)
deriving DecidableEq, Repr

/-- The report of a syntax error, one line per fault. -/
def SyntaxError.report : SyntaxError → String
  | unreadable => "an escape splits a character"
  | lexical faults => "\n".intercalate (faults.map Token.Fault.report)
  | unexpected u => u.report

/-- The text inside one pair of enclosing braces, or the whole text without its outer blanks; and the
offset of its first byte. -/
def stripBraces (source : List Char) : List Char × Nat :=
  let trimmed := Text.trim source
  let lead := Text.byteLength (source.takeWhile Text.isBlank)
  match trimmed with
  | '{' :: r => if r.getLast? = some '}' then (r.dropLast, lead + 1) else (trimmed, lead)
  | _ => (trimmed, lead)

/-- The tree of a text without braces or padding. -/
def Expr.ofText (cs : List Char) : Except SyntaxError Expr :=
  match Token.scan? 0 cs with
  | none => .error .unreadable
  | some s => if s.faults = [] then (ofTokens s.tokens).mapError .unexpected else .error (.lexical s.faults)

/-- The tree of a text as it stands in a schema. -/
def Expr.ofSource (source : String) : Except SyntaxError Expr := ofText (stripBraces source.toList).1

/-- A text together with its tree. -/
structure Expression where
  /-- The text as it was given. -/
  source : String
  tree : Expr
  tree_eq : Expr.ofSource source = .ok tree

/-- The expression of a text as it stands in a schema. -/
def Expression.ofSource (source : String) : Except SyntaxError Expression :=
  match h : Expr.ofSource source with
  | .ok tree => .ok ⟨source, tree, h⟩
  | .error e => .error e

theorem Expression.ofSource_source (e : Expression) : Expression.ofSource e.source = .ok e := by
  obtain ⟨source, tree, h⟩ := e
  unfold Expression.ofSource
  split
  · rename_i t ht; cases h.symm.trans ht; rfl
  · rename_i _ ht; cases h.symm.trans ht

theorem Expression.source_of_ofSource {source : String} {e : Expression}
    (h : Expression.ofSource source = .ok e) : e.source = source := by
  unfold Expression.ofSource at h
  split at h
  · cases h; rfl
  · contradiction

end BinaryFormat
