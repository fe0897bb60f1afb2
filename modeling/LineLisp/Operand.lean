import LineLisp.Env

/-!
# Operands

An operator sees an operand in two ways: as the expression that stands in the source, and as the
effect of evaluating it. An operator runs the effects it needs, in the order it needs them, and no
others.
-/

namespace LineLisp

namespace Value

/-- The fixnum that an operator expects. -/
def integer (operator : String) : Value → Except EvalError Fixnum
  | .int n => .ok n
  | .bool _ => .error (.kind operator .integer .boolean)

/-- The truth value that an operator expects. -/
def boolean (operator : String) : Value → Except EvalError Bool
  | .bool b => .ok b
  | .int _ => .error (.kind operator .boolean .integer)

end Value

structure Operand where
  source : Expr
  value : EvalM Value

namespace Operand

/-- Evaluates an operand that has to be a fixnum. -/
def integer (operator : String) (x : Operand) : EvalM Fixnum := do
  ofExcept ((← x.value).integer operator)

/-- Evaluates an operand that has to be a truth value. -/
def boolean (operator : String) (x : Operand) : EvalM Bool := do
  ofExcept ((← x.value).boolean operator)

variable {α : Type}

/-- The first operand and the others. -/
def first (operator : String) : List α → Except EvalError (α × List α)
  | [] => .error (.arity operator (.atLeast 1) 0)
  | x :: xs => .ok (x, xs)

/-- The two operands of an operator that takes two. -/
def pair (operator : String) : List α → Except EvalError (α × α)
  | [x, y] => .ok (x, y)
  | xs => .error (.arity operator (.exactly 2) xs.length)

/-- The three operands of an operator that takes three. -/
def triple (operator : String) : List α → Except EvalError (α × α × α)
  | [x, y, z] => .ok (x, y, z)
  | xs => .error (.arity operator (.exactly 3) xs.length)

end Operand

end LineLisp
