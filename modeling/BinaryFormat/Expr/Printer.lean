import BinaryFormat.Expr
import BinaryFormat.Text.Escape

/-!
# Writing an expression

The written form puts every operator in parentheses of its own, so it shows how the expression was
grouped, whatever the source text left to the binding of operators.
-/

namespace BinaryFormat.Expr

mutual

/-- The fully parenthesized form. -/
def render : Expr → List Char
  | int n _ => Numeral.decimal n.toInt
  | text s _ => Text.quote s.toList
  | ident n _ => n.toList
  | index n i _ => n.toList ++ '[' :: i.render ++ [']']
  | call n args _ => n.toList ++ '(' :: renderArgs args ++ [')']
  | unary .neg e _ => '(' :: '-' :: e.render ++ [')']
  | unary .not e _ => "(not ".toList ++ e.render ++ [')']
  | binary op l r _ =>
    '(' :: l.render ++ ' ' :: op.symbol.text.toList ++ ' ' :: r.render ++ [')']
  | ternary c t e _ =>
    '(' :: c.render ++ " ? ".toList ++ t.render ++ " : ".toList ++ e.render ++ [')']

/-- Arguments, separated by a comma and a space. -/
def renderArgs : List Expr → List Char
  | [] => []
  | [e] => e.render
  | e :: es => e.render ++ ", ".toList ++ renderArgs es

end

end BinaryFormat.Expr
