import LineLisp.Operator

/-!
# Evaluation

A number is its own value, a symbol is a constant or a bound name, and a list applies the operator
that its first item names to the others.
-/

namespace LineLisp

/-- The value of a symbol; a constant comes before any binding. -/
def symbolValue (name : String) : EvalM Value := do
  match Value.constant? name with
  | some v => return v
  | none => ofExcept ((← get).lookup name)

mutual

def Expr.eval : Expr → EvalM Value
  | .num n => pure (.int n)
  | .sym name => symbolValue name
  | .list [] => throw (.malformed .emptyList)
  | .list (.sym name :: items) => Operator.apply name (operands items)
  | .list (.num _ :: _) | .list (.list _ :: _) => throw (.malformed .headNotSymbol)

/-- The items after the head of a list, as its operator sees them. -/
def operands : List Expr → List Operand
  | [] => []
  | e :: es => ⟨e, e.eval⟩ :: operands es

end

theorem operands_eq_map (items : List Expr) :
    operands items = items.map fun e => ⟨e, e.eval⟩ := by
  induction items with
  | nil => rfl
  | cons e es ih => simp [operands, ih]

end LineLisp
