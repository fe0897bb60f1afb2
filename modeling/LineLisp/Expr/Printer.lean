import LineLisp.Expr.Basic
import LineLisp.Numeral

/-!
# The text of an expression

A fixnum is written in decimal, a symbol by its own text, and a list as its items between
parentheses with one space between two of them.
-/

namespace LineLisp.Expr

mutual

def render : Expr → String
  | .num n => n.render
  | .sym name => name
  | .list items => "(" ++ renderItems items ++ ")"

def renderItems : List Expr → String
  | [] => ""
  | [e] => e.render
  | e :: e' :: es => e.render ++ " " ++ renderItems (e' :: es)

end

end LineLisp.Expr
