import LineLisp.Arity
import LineLisp.Expr.Printer
import LineLisp.Value

/-!
# Evaluation errors

Why an expression has no value. An error that an operator raises names it as it stands in the
source.
-/

namespace LineLisp

/-- What makes a list that cannot be evaluated. -/
inductive Malformed where
  | emptyList
  | headNotSymbol
  /-- The target of a definition is not a symbol. -/
  | targetNotSymbol (target : Expr)
  /-- The target of a definition is a constant. -/
  | constantTarget (name : String)
deriving DecidableEq

def Malformed.reason : Malformed → String
  | .emptyList => "cannot evaluate empty list"
  | .headNotSymbol => "first element must be an operator"
  | .targetNotSymbol target =>
    "define expects a symbol as its first operand, found " ++ target.shape.render ++
      " '" ++ target.render ++ "'"
  | .constantTarget name => "cannot redefine constant '" ++ name ++ "'"

inductive EvalError where
  | undefinedSymbol (name : String)
  | unknownOperator (name : String)
  | arity (operator : String) (expected : Arity) (actual : Nat)
  | kind (operator : String) (expected actual : Kind)
  | divisionByZero
  | moduloByZero
  | malformed (cause : Malformed)
  | overflow (operator : String)
deriving DecidableEq

def EvalError.message : EvalError → String
  | .undefinedSymbol name => "undefined symbol '" ++ name ++ "'"
  | .unknownOperator name => "unknown operator '" ++ name ++ "'"
  | .arity operator expected actual =>
    "operator '" ++ operator ++ "' expects " ++ expected.render ++ " operand(s), but got " ++
      actual.repr
  | .kind operator expected actual =>
    "operator '" ++ operator ++ "' expects " ++ expected.render ++ ", but got " ++ actual.render
  | .divisionByZero => "division by zero"
  | .moduloByZero => "modulo by zero"
  | .malformed cause => "invalid expression: " ++ cause.reason
  | .overflow operator => "integer overflow in operator '" ++ operator ++ "'"

end LineLisp
