/-!
# Arities

How many operands an operator takes.
-/

namespace LineLisp

inductive Arity where
  | exactly (n : Nat)
  | atLeast (n : Nat)
deriving DecidableEq

namespace Arity

def admits : Arity → Nat → Bool
  | .exactly n, count => count == n
  | .atLeast n, count => n ≤ count

def render : Arity → String
  | .exactly n => "exactly " ++ n.repr
  | .atLeast n => "at least " ++ n.repr

end Arity

end LineLisp
