import LineLisp.Eval

/-!
# The language over all integers

The language once more, with an integer of any size wherever the evaluator has a fixnum. Names,
arities, the order of evaluation and the errors are the same, except that nothing overflows.

A run also lists its accumulators: the partial sums, differences, products and quotients, and the
negations, in the order in which they are computed. They are what a fixnum could be too small for.
-/

namespace LineLisp.Exact

inductive Value where
  | int (n : Int)
  | bool (b : Bool)
deriving DecidableEq

abbrev Env := Std.ExtTreeMap String Value

/-- An intermediate result of the operator that is named. -/
structure Accumulator where
  operator : String
  value : Int
deriving DecidableEq

/-- Whether the integer is one of 64 bits. -/
def Accumulator.Fits (a : Accumulator) : Prop :=
  -0x8000000000000000 ≤ a.value ∧ a.value < 0x8000000000000000

instance (a : Accumulator) : Decidable a.Fits := inferInstanceAs (Decidable (_ ∧ _))

/-- What an evaluation gave, the bindings it left, and the accumulators it computed on the way. -/
structure Run (α : Type) where
  result : Except EvalError α
  env : Env
  accumulators : List Accumulator

def EvalM (α : Type) : Type := Env → Run α

namespace EvalM

variable {α β : Type}

/-- Goes on with the value of the first run, if it has one, and keeps the accumulators of both. -/
protected def bind (x : EvalM α) (f : α → EvalM β) : EvalM β := fun env =>
  match x env with
  | ⟨.ok a, env', earlier⟩ =>
    let later := f a env'
    ⟨later.result, later.env, earlier ++ later.accumulators⟩
  | ⟨.error e, env', earlier⟩ => ⟨.error e, env', earlier⟩

instance : Monad EvalM where
  pure a := fun env => ⟨.ok a, env, []⟩
  bind := EvalM.bind

def lift (result : Except EvalError α) : EvalM α := fun env => ⟨result, env, []⟩

def fail (e : EvalError) : EvalM α := lift (.error e)

/-- Gives the accumulator of an operator and lists it. -/
def record (operator : String) : Except EvalError Int → EvalM Int
  | .ok n => fun env => ⟨.ok n, env, [⟨operator, n⟩]⟩
  | .error e => fail e

def define (name : String) (v : Value) : EvalM Unit := fun env => ⟨.ok (), env.insert name v, []⟩

def lookup (name : String) : EvalM Value := fun env =>
  match env[name]? with
  | some v => ⟨.ok v, env, []⟩
  | none => ⟨.error (.undefinedSymbol name), env, []⟩

end EvalM

open EvalM

structure Operand where
  source : Expr
  value : EvalM Value

namespace Operand

def integer (operator : String) (x : Operand) : EvalM Int := do
  match ← x.value with
  | .int n => pure n
  | .bool _ => fail (.kind operator .integer .boolean)

def boolean (operator : String) (x : Operand) : EvalM Bool := do
  match ← x.value with
  | .bool b => pure b
  | .int _ => fail (.kind operator .boolean .integer)

end Operand

/-- Combines a starting integer with one operand after the other. -/
def accumulate (operator : String) (combine : Int → Int → Except EvalError Int) :
    Int → List Operand → EvalM Value
  | total, [] => pure (.int total)
  | total, x :: xs => do
    let n ← x.integer operator
    let total ← record operator (combine total n)
    accumulate operator combine total xs

def compare (operator : String) (holds : Int → Int → Bool) (x y : Operand) : EvalM Value := do
  let a ← x.integer operator
  let b ← y.integer operator
  return .bool (holds a b)

/-- What an operator does with operands of a number that its arity admits. -/
def run : Operator → List Operand → EvalM Value
  | .add, xs => accumulate "+" (fun a b => .ok (a + b)) 0 xs
  | .sub, [x] => do
    let a ← x.integer "-"
    let n ← record "-" (.ok (-a))
    return .int n
  | .sub, x :: xs => do
    let a ← x.integer "-"
    accumulate "-" (fun a b => .ok (a - b)) a xs
  | .mul, xs => accumulate "*" (fun a b => .ok (a * b)) 1 xs
  | .div, x :: xs => do
    let a ← x.integer "/"
    accumulate "/" (fun a b => if b = 0 then .error .divisionByZero else .ok (a.tdiv b)) a xs
  | .mod, [x, y] => do
    let a ← x.integer "%"
    let b ← y.integer "%"
    if b = 0 then fail .moduloByZero else return .int (a.tmod b)
  | .define, [x, y] => do
    let name ← lift (Operator.target x.source)
    let v ← y.value
    define name v
    return v
  | .cond, [x, y, z] => do
    if ← x.boolean "if" then y.value else z.value
  | .gt, [x, y] => compare ">" (fun a b => a > b) x y
  | .lt, [x, y] => compare "<" (fun a b => a < b) x y
  | .eq, [x, y] => do
    let a ← x.value
    let b ← y.value
    return .bool (a = b)
  | op, xs => fail (.arity op.name op.arity xs.length)

def apply (name : String) (xs : List Operand) : EvalM Value :=
  match Operator.ofName? name with
  | none => fail (.unknownOperator name)
  | some op =>
    if op.arity.admits xs.length then run op xs else fail (.arity name op.arity xs.length)

def symbolValue (name : String) : EvalM Value :=
  if name = "true" then pure (.bool true)
  else if name = "false" then pure (.bool false)
  else lookup name

mutual

def eval : Expr → EvalM Value
  | .num n => pure (.int n.toInt)
  | .sym name => symbolValue name
  | .list [] => fail (.malformed .emptyList)
  | .list (.sym name :: items) => apply name (operands items)
  | .list (.num _ :: _) | .list (.list _ :: _) => fail (.malformed .headNotSymbol)

def operands : List Expr → List Operand
  | [] => []
  | e :: es => ⟨e, eval e⟩ :: operands es

end

@[simp] theorem length_operands (items : List Expr) : (operands items).length = items.length := by
  induction items with
  | nil => rfl
  | cons e es ih => simp [operands, ih]

end LineLisp.Exact
