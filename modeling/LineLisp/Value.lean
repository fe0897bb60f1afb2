import LineLisp.Numeral

/-!
# Values

An expression evaluates to a fixnum or a truth value. Two names stand for the truth values and can
not be given another meaning.
-/

namespace LineLisp

inductive Kind where
  | integer
  | boolean
deriving DecidableEq

def Kind.render : Kind → String
  | .integer => "integer"
  | .boolean => "boolean"

inductive Value where
  | int (n : Fixnum)
  | bool (b : Bool)
deriving DecidableEq

namespace Value

def kind : Value → Kind
  | .int _ => .integer
  | .bool _ => .boolean

def render : Value → String
  | .int n => n.render
  | .bool true => "true"
  | .bool false => "false"

/-- The value of a name that is a constant of the language. -/
def constant? (name : String) : Option Value :=
  if name = "true" then some (.bool true)
  else if name = "false" then some (.bool false)
  else none

theorem constant?_render_bool (b : Bool) : constant? (render (.bool b)) = some (.bool b) := by
  cases b <;> decide

theorem isSome_constant?_iff {name : String} :
    (constant? name).isSome ↔ name = "true" ∨ name = "false" := by
  grind [constant?]

theorem constant?_eq_none_iff {name : String} :
    constant? name = none ↔ name ≠ "true" ∧ name ≠ "false" := by
  rw [← Option.not_isSome_iff_eq_none, isSome_constant?_iff, not_or]

end Value

end LineLisp
