import LineLisp.Operand

/-!
# Operators

The language has ten operators. Each has a name, an arity and a meaning on operands. An application
first looks up the name, then counts the operands, and only then runs the meaning, which evaluates
operands from left to right.

Sums, differences, products and quotients are accumulated over the operands. Every intermediate
result has to be a fixnum, so an application can overflow although its exact result would fit, and
an operand after the overflow is not evaluated.
-/

namespace LineLisp

inductive Operator where
  | add
  | sub
  | mul
  | div
  | mod
  | define
  | cond
  | gt
  | lt
  | eq
deriving DecidableEq

namespace Operator

/-- The operators in the order in which they are listed. -/
def all : List Operator :=
  [.add, .sub, .mul, .div, .mod, .define, .cond, .gt, .lt, .eq]

def name : Operator → String
  | .add => "+"
  | .sub => "-"
  | .mul => "*"
  | .div => "/"
  | .mod => "%"
  | .define => "define"
  | .cond => "if"
  | .gt => ">"
  | .lt => "<"
  | .eq => "="

def ofName? (name : String) : Option Operator :=
  all.find? fun op => op.name = name

theorem ofName?_name (op : Operator) : ofName? op.name = some op := by
  cases op <;> decide

theorem ofName?_eq_some_iff {text : String} {op : Operator} :
    ofName? text = some op ↔ op.name = text := by
  constructor
  · intro h
    simpa using List.find?_some h
  · rintro rfl
    exact ofName?_name op

def arity : Operator → Arity
  | .add | .mul => .atLeast 0
  | .sub | .div => .atLeast 1
  | .mod | .define | .gt | .lt | .eq => .exactly 2
  | .cond => .exactly 3

/-- The result of an arithmetic operation, or an overflow of the operator. -/
def fit (operator : String) : Option Fixnum → Except EvalError Fixnum
  | some a => .ok a
  | none => .error (.overflow operator)

/-- Combines a starting fixnum with one operand after the other. -/
def accumulate (operator : String) (combine : Fixnum → Fixnum → Except EvalError Fixnum)
    (start : Fixnum) (xs : List Operand) : EvalM Value := do
  let total ← xs.foldlM (fun acc x => do ofExcept (combine acc (← x.integer operator))) start
  return .int total

def sum : List Operand → EvalM Value :=
  accumulate "+" (fun a b => fit "+" (a.add? b)) .zero

def product : List Operand → EvalM Value :=
  accumulate "*" (fun a b => fit "*" (a.mul? b)) .one

/-- Negates a single operand, and subtracts the others from the first of several. -/
def difference (xs : List Operand) : EvalM Value := do
  let (x, rest) ← ofExcept (Operand.first "-" xs)
  let a ← x.integer "-"
  if rest.isEmpty then
    return .int (← ofExcept (fit "-" a.neg?))
  else
    accumulate "-" (fun a b => fit "-" (a.sub? b)) a rest

/-- Divides the first operand by the others. -/
def quotient (xs : List Operand) : EvalM Value := do
  let (x, rest) ← ofExcept (Operand.first "/" xs)
  let a ← x.integer "/"
  accumulate "/" (fun a b => if b.toInt = 0 then .error .divisionByZero else fit "/" (a.div? b))
    a rest

def remainder (xs : List Operand) : EvalM Value := do
  let (x, y) ← ofExcept (Operand.pair "%" xs)
  let a ← x.integer "%"
  let b ← y.integer "%"
  if b.toInt = 0 then throw .moduloByZero else return .int (a.rem b)

/-- Compares two fixnums. -/
def compare (operator : String) (holds : Int → Int → Bool) (xs : List Operand) : EvalM Value := do
  let (x, y) ← ofExcept (Operand.pair operator xs)
  let a ← x.integer operator
  let b ← y.integer operator
  return .bool (holds a.toInt b.toInt)

/-- Compares two values; those of different kinds differ. -/
def equal (xs : List Operand) : EvalM Value := do
  let (x, y) ← ofExcept (Operand.pair "=" xs)
  let a ← x.value
  let b ← y.value
  return .bool (a = b)

/-- The name that a definition may bind. -/
def target (e : Expr) : Except EvalError String :=
  match e.symbol? with
  | none => .error (.malformed (.targetNotSymbol e))
  | some name =>
    if (Value.constant? name).isSome then .error (.malformed (.constantTarget name))
    else .ok name

/-- Binds the first operand, which is not evaluated, to the value of the second. -/
def definition (xs : List Operand) : EvalM Value := do
  let (x, y) ← ofExcept (Operand.pair "define" xs)
  let name ← ofExcept (target x.source)
  let v ← y.value
  modify (·.insert name v)
  return v

/-- Evaluates the second or the third operand, as the first one decides. -/
def branch (xs : List Operand) : EvalM Value := do
  let (condition, yes, no) ← ofExcept (Operand.triple "if" xs)
  if ← condition.boolean "if" then yes.value else no.value

/-- What an operator does with its operands, whatever their number. -/
def run : Operator → List Operand → EvalM Value
  | .add => sum
  | .sub => difference
  | .mul => product
  | .div => quotient
  | .mod => remainder
  | .define => definition
  | .cond => branch
  | .gt => compare ">" fun a b => a > b
  | .lt => compare "<" fun a b => a < b
  | .eq => equal

/-- Applies the operator of the given name. -/
def apply (name : String) (xs : List Operand) : EvalM Value :=
  match ofName? name with
  | none => throw (.unknownOperator name)
  | some op =>
    if op.arity.admits xs.length then op.run xs
    else throw (.arity name op.arity xs.length)

end Operator

end LineLisp
