import LineLisp.Proofs.Unevaluated

/-!
# Nested applications

Sums, differences, products and quotients are accumulated from left to right. So the first operands
can stand in an application of their own, in place of which the outer one has its value. Nothing
changes by that: the operands are evaluated in the same order, every accumulator is the same, and an
error of the inner application names the same operator.

A difference has to keep at least two operands inside and one outside, since a single operand is
negated.
-/

namespace LineLisp

theorem operands_append (items items' : List Expr) :
    operands (items ++ items') = operands items ++ operands items' := by
  simp only [operands_eq_map, List.map_append]

namespace Operator

variable (operator : String) (combine : Fixnum → Fixnum → Except EvalError Fixnum) (source : Expr)

/-- What the first operands come to is the start for the others. -/
theorem accumulate_append (start : Fixnum) (xs ys : List Operand) :
    accumulate operator combine start (xs ++ ys) = (do
      let total ← Operand.integer operator ⟨source, accumulate operator combine start xs⟩
      accumulate operator combine total ys) := by
  induction xs generalizing start with
  | nil => rfl
  | cons x xs ih => simp only [List.cons_append, accumulate_cons, ih, Operand.integer, bind_assoc]

/-- Accumulating from a neutral start, the first operands can be nested. -/
theorem accumulate_nested {start : Fixnum} (hstart : ∀ n, combine start n = .ok n)
    (xs ys : List Operand) :
    accumulate operator combine start (⟨source, accumulate operator combine start xs⟩ :: ys) =
      accumulate operator combine start (xs ++ ys) := by
  rw [accumulate_cons, accumulate_append operator combine source]
  simp only [hstart]
  rfl

/-- Accumulating from the first operand, it can be nested together with others. -/
theorem integer_accumulate_nested (x : Operand) (xs ys : List Operand) :
    (do let a ← Operand.integer operator
          ⟨source, do accumulate operator combine (← x.integer operator) xs⟩
        accumulate operator combine a ys) = (do
      let a ← x.integer operator
      accumulate operator combine a (xs ++ ys)) := by
  simp only [accumulate_append operator combine source, Operand.integer, bind_assoc]

theorem sum_nested (xs ys : List Operand) :
    sum (⟨source, sum xs⟩ :: ys) = sum (xs ++ ys) :=
  accumulate_nested "+" _ source (fun n => by simp [fit, Fixnum.add?]) xs ys

theorem product_nested (xs ys : List Operand) :
    product (⟨source, product xs⟩ :: ys) = product (xs ++ ys) :=
  accumulate_nested "*" _ source (fun n => by simp [fit, Fixnum.mul?]) xs ys

theorem quotient_nested (x : Operand) (xs ys : List Operand) :
    quotient (⟨source, quotient (x :: xs)⟩ :: ys) = quotient (x :: (xs ++ ys)) :=
  integer_accumulate_nested "/" _ source x xs ys

theorem difference_nested (x x' y : Operand) (xs ys : List Operand) :
    difference (⟨source, difference (x :: x' :: xs)⟩ :: y :: ys) =
      difference (x :: x' :: (xs ++ y :: ys)) :=
  integer_accumulate_nested "-" _ source x (x' :: xs) (y :: ys)

variable {op : Operator} {inner outer : Nat}

/-- So many operands can stand in an application of their own before the others. -/
def Nestable (op : Operator) (inner outer : Nat) : Prop :=
  op = .add ∨ op = .mul ∨ (op = .div ∧ 1 ≤ inner) ∨ (op = .sub ∧ 2 ≤ inner ∧ 1 ≤ outer)

instance : Decidable (op.Nestable inner outer) := inferInstanceAs (Decidable (_ ∨ _))

theorem Nestable.admits (h : op.Nestable inner outer) :
    op.arity.admits inner ∧ op.arity.admits (inner + outer) ∧ op.arity.admits (outer + 1) := by
  obtain rfl | rfl | ⟨rfl, _⟩ | ⟨rfl, _, _⟩ := h <;> grind [arity, Arity.admits]

theorem Nestable.run_nested {xs ys : List Operand} (h : op.Nestable xs.length ys.length) :
    op.run (⟨source, op.run xs⟩ :: ys) = op.run (xs ++ ys) := by
  obtain rfl | rfl | ⟨rfl, hxs⟩ | ⟨rfl, hxs, hys⟩ := h
  · exact sum_nested source xs ys
  · exact product_nested source xs ys
  · obtain ⟨x, xs, rfl⟩ := List.exists_cons_of_length_pos hxs
    exact quotient_nested source x xs ys
  · obtain ⟨y, ys, rfl⟩ := List.exists_cons_of_length_pos hys
    obtain _ | ⟨x, _ | ⟨x', xs⟩⟩ := xs
    · simp at hxs
    · simp at hxs
    · exact difference_nested source x x' y xs ys

end Operator

open Operator

/-- The first operands of a sum or a product can be nested, those of a quotient if there is at least
one of them, and those of a difference if there are at least two of them and one more. The value or
the error and the environment stay the same. -/
theorem eval_nested_left {op : Operator} {xs ys : List Expr}
    (h : op.Nestable xs.length ys.length) (env : Env) :
    (Expr.list (.sym op.name :: (xs ++ ys))).eval.run env =
      (Expr.list (.sym op.name :: .list (.sym op.name :: xs) :: ys)).eval.run env := by
  obtain ⟨hinner, hall, houter⟩ := h.admits
  generalize hnested : Expr.list (.sym op.name :: xs) = inner
  have hevalInner : inner.eval = op.run (operands xs) := by
    rw [← hnested]
    exact eval_apply_of_admits hinner
  calc (Expr.list (.sym op.name :: (xs ++ ys))).eval.run env
      = (op.run (operands xs ++ operands ys)).run env := by
        rw [eval_apply_of_admits (by rwa [List.length_append]), operands_append]
    _ = (op.run (⟨inner, inner.eval⟩ :: operands ys)).run env := by
        rw [hevalInner, Nestable.run_nested inner (by simpa using h)]
    _ = (Expr.list (.sym op.name :: inner :: ys)).eval.run env := by
        rw [eval_apply_of_admits (by rwa [List.length_cons]), operands]

/-- In `(- 1 (define x 1) x)` the first two operands can be nested, and so they can in `(/ 1 0 x)`,
where the inner application already divides by zero. -/
theorem eval_nested_left_definition :
    let definition : Expr := .list [.sym "define", .sym "x", .num .one]
    (Expr.list [.sym "-", .num .one, definition, .sym "x"]).eval.run ∅ =
      (Expr.list [.sym "-", .list [.sym "-", .num .one, definition], .sym "x"]).eval.run ∅ ∧
    (Expr.list [.sym "/", .num .one, .num .zero, .sym "x"]).eval.run ∅ =
      (Expr.list [.sym "/", .list [.sym "/", .num .one, .num .zero], .sym "x"]).eval.run ∅ := by
  intro definition
  have hdifference := @eval_nested_left .sub [.num .one, definition] [.sym "x"] (by decide) ∅
  have hquotient := @eval_nested_left .div [.num .one, .num .zero] [.sym "x"] (by decide) ∅
  exact ⟨hdifference, hquotient⟩

/-- A single operand of a difference would be negated inside. -/
example : (Expr.list [.sym "-", .num .one, .num .one]).eval.run ∅ = .ok (.int .zero) ∅ ∧
    (Expr.list [.sym "-", .list [.sym "-", .num .one], .num .one]).eval.run ∅ =
      .ok (.int ⟨-2, by decide, by decide⟩) ∅ :=
  ⟨rfl, rfl⟩

end LineLisp
