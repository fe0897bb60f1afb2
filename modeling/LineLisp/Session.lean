import LineLisp.Eval
import LineLisp.Expr.Reader

/-!
# Sessions

A session evaluates one source text after the other in an environment that lasts. A text that cannot
be read leaves the environment as it is; one that fails while it is evaluated keeps the definitions
made before.
-/

namespace LineLisp

/-- Why a source text has no value. -/
inductive Error where
  | read (e : ReadError)
  | eval (e : EvalError)
deriving DecidableEq

def Error.message : Error → String
  | .read e => "parse error: " ++ e.message
  | .eval e => e.message

abbrev Session := Env

/-- Reads the source as one expression and evaluates it. -/
def Session.eval (source : String) : EStateM Error Session Value :=
  match Expr.parse source with
  | .error e => throw (.read e)
  | .ok e => e.eval.adaptExcept .eval

end LineLisp
