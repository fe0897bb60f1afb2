import LineLisp.Eval
import Mathlib.Data.List.Basic

/-!
# Applications by cases

An operator runs only on operands of a number that its arity admits. So there are eleven kinds of
application, one for each operator and two for the difference, and each of them has an equation that
says which operands it evaluates, in which order, and what it does with their values.
-/

namespace LineLisp

@[simp] theorem length_operands (items : List Expr) : (operands items).length = items.length := by
  simp [operands_eq_map]

namespace Operator

/-- The operand lists on which an operator runs. -/
inductive Admitted {α : Type} : Operator → List α → Prop where
  | add (xs : List α) : Admitted .add xs
  | neg (x : α) : Admitted .sub [x]
  | sub (x y : α) (ys : List α) : Admitted .sub (x :: y :: ys)
  | mul (xs : List α) : Admitted .mul xs
  | div (x : α) (xs : List α) : Admitted .div (x :: xs)
  | mod (x y : α) : Admitted .mod [x, y]
  | define (x y : α) : Admitted .define [x, y]
  | cond (x y z : α) : Admitted .cond [x, y, z]
  | gt (x y : α) : Admitted .gt [x, y]
  | lt (x y : α) : Admitted .lt [x, y]
  | eq (x y : α) : Admitted .eq [x, y]

theorem admits_iff {α : Type} {op : Operator} {xs : List α} :
    op.arity.admits xs.length ↔ op.Admitted xs := by
  constructor
  · intro h
    cases op <;> simp only [arity, Arity.admits, beq_iff_eq, decide_eq_true_eq] at h
    case add => exact .add xs
    case mul => exact .mul xs
    case sub =>
      match xs, h with
      | [x], _ => exact .neg x
      | x :: y :: ys, _ => exact .sub x y ys
    case div =>
      match xs, h with
      | x :: xs, _ => exact .div x xs
    case cond =>
      obtain ⟨x, y, z, rfl⟩ := List.length_eq_three.1 h
      exact .cond x y z
    all_goals
      obtain ⟨x, y, rfl⟩ := List.length_eq_two.1 h
      constructor
  · rintro (_ | _) <;> simp [arity, Arity.admits]

/-! ## The steps of an application -/

variable (operator : String) (combine : Fixnum → Fixnum → Except EvalError Fixnum) (a : Fixnum)
  (x y z : Operand) (xs : List Operand)

theorem accumulate_nil : accumulate operator combine a [] = pure (.int a) := rfl

theorem accumulate_cons : accumulate operator combine a (x :: xs) = (do
    let n ← x.integer operator
    let total ← ofExcept (combine a n)
    accumulate operator combine total xs) := by
  simp [accumulate, List.foldlM_cons, bind_assoc]

theorem difference_singleton : difference [x] = (do
    let a ← x.integer "-"
    let n ← ofExcept (fit "-" a.neg?)
    pure (.int n)) := rfl

theorem difference_cons_cons : difference (x :: y :: xs) = (do
    let a ← x.integer "-"
    accumulate "-" (fun a b => fit "-" (a.sub? b)) a (y :: xs)) := rfl

theorem quotient_cons : quotient (x :: xs) = (do
    let a ← x.integer "/"
    accumulate "/" (fun a b => if b.toInt = 0 then .error .divisionByZero else fit "/" (a.div? b))
      a xs) := rfl

theorem remainder_pair : remainder [x, y] = (do
    let a ← x.integer "%"
    let b ← y.integer "%"
    if b.toInt = 0 then throw .moduloByZero else pure (.int (a.rem b))) := rfl

theorem compare_pair (holds : Int → Int → Bool) : compare operator holds [x, y] = (do
    let a ← x.integer operator
    let b ← y.integer operator
    pure (.bool (holds a.toInt b.toInt))) := rfl

theorem equal_pair : equal [x, y] = (do
    let a ← x.value
    let b ← y.value
    pure (.bool (a = b))) := rfl

theorem definition_pair : definition [x, y] = (do
    let name ← ofExcept (target x.source)
    let v ← y.value
    modify (·.insert name v)
    pure v) := rfl

theorem branch_triple : branch [x, y, z] = (do
    if ← x.boolean "if" then y.value else z.value) := rfl

end Operator

end LineLisp
