/-!
# Read errors

Why a source is not one expression, with the byte offset at which this shows.
-/

namespace LineLisp

inductive ReadError where
  /-- The source ends where an expression or a closing parenthesis is due. -/
  | endOfInput
  /-- A closing parenthesis stands where an expression is due. -/
  | unopened (offset : Nat)
  /-- Something follows the expression; `text` is the first token of it. -/
  | trailing (text : String) (offset : Nat)
  /-- A numeral is no fixnum. -/
  | tooLarge (numeral : String) (offset : Nat)
deriving DecidableEq

def ReadError.message : ReadError → String
  | .endOfInput => "unexpected end of input"
  | .unopened offset => "unexpected token ')' at position " ++ offset.repr
  | .trailing text offset =>
    "extra tokens after expression, starting with '" ++ text ++ "' at position " ++ offset.repr
  | .tooLarge numeral offset =>
    "integer literal '" ++ numeral ++ "' at position " ++ offset.repr ++ " is too large"

end LineLisp
