import LineLisp.EvalError
import Std.Data.ExtTreeMap

/-!
# Environments

An environment binds names to values and keeps them in the order of their code points. Two
environments with the same bindings are equal, however they came about.

`EvalM` is the effect of evaluation: it may change the environment and may fail, and what it changed
before it failed stays changed.
-/

namespace LineLisp

abbrev Env := Std.ExtTreeMap String Value

namespace Env

/-- The value bound to a name. -/
def lookup (env : Env) (name : String) : Except EvalError Value :=
  match env[name]? with
  | some v => .ok v
  | none => .error (.undefinedSymbol name)

/-- The bindings in increasing order of their names. -/
def bindings (env : Env) : List (String × Value) := env.toList

end Env

abbrev EvalM := EStateM EvalError Env

end LineLisp
