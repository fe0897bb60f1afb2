import LineLisp.Fixnum

/-!
# Expressions

An expression is a fixnum, a symbol or a list of expressions. A symbol may have any text; only what
is read from a source is limited to atoms.

## Main definitions

- `Expr`: the type, with decidable equality.
- `Expr.induction`: induction in which the items of a list satisfy the hypothesis.
- `Expr.symbol?` and `Expr.shape`: what an operator may ask of an operand it does not evaluate.
-/

namespace LineLisp

inductive Expr where
  | num (n : Fixnum)
  | sym (name : String)
  | list (items : List Expr)

namespace Expr

instance : Inhabited Expr := ⟨.list []⟩

mutual

def decEq : (a b : Expr) → Decidable (a = b)
  | .num m, .num n =>
    if h : m = n then isTrue (congrArg num h) else isFalse (mt num.inj h)
  | .sym s, .sym t =>
    if h : s = t then isTrue (congrArg sym h) else isFalse (mt sym.inj h)
  | .list as, .list bs =>
    match decEqItems as bs with
    | isTrue h => isTrue (congrArg list h)
    | isFalse h => isFalse (mt list.inj h)
  | .num _, .sym _ | .num _, .list _ | .sym _, .num _ | .sym _, .list _
  | .list _, .num _ | .list _, .sym _ => isFalse nofun

def decEqItems : (as bs : List Expr) → Decidable (as = bs)
  | [], [] => isTrue rfl
  | [], _ :: _ | _ :: _, [] => isFalse nofun
  | a :: as, b :: bs =>
    match decEq a b, decEqItems as bs with
    | isTrue h, isTrue hs => isTrue (h ▸ hs ▸ rfl)
    | isFalse h, _ => isFalse fun e => h (List.cons.inj e).1
    | _, isFalse hs => isFalse fun e => hs (List.cons.inj e).2

end

instance : DecidableEq Expr := decEq

/-- Induction on expressions: a list satisfies a property if its items do. -/
@[induction_eliminator]
theorem induction {motive : Expr → Prop} (num : ∀ n, motive (.num n))
    (sym : ∀ name, motive (.sym name))
    (list : ∀ items, (∀ e ∈ items, motive e) → motive (.list items)) (e : Expr) : motive e :=
  @Expr.rec motive (fun items => ∀ e ∈ items, motive e) num sym list nofun
    (fun _ _ head tail => List.forall_mem_cons.2 ⟨head, tail⟩) e

/-- The name of a symbol. -/
def symbol? : Expr → Option String
  | .sym name => some name
  | _ => none

inductive Shape where
  | number
  | symbol
  | list
deriving DecidableEq

def Shape.render : Shape → String
  | .number => "number"
  | .symbol => "symbol"
  | .list => "list"

def shape : Expr → Shape
  | .num _ => .number
  | .sym _ => .symbol
  | .list _ => .list

end Expr

end LineLisp
