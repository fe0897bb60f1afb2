import LineLisp.Proofs.Outcomes
import LineLisp.Proofs.Scan
import Mathlib.Data.List.Induction

/-!
# Operands that are not evaluated

An application that is refused for its head or for the number of its operands does not look at them.
An eager operator stops at the first operand that fails or is rejected. A branch that is not taken
is left alone, and so is the body of a definition whose target is rejected. In all these places any
other expression could stand.
-/

namespace LineLisp

namespace Operator

/-- An eager operator with `count` operands accepts those in `before`, and the next one is the first
to fail: it has no value, or its value is rejected. -/
inductive FailsAt (count : Nat) (op : Operator) (env : Env) (before : List Expr) (x : Expr)
    (err : EvalError) (env' : Env) : Prop
  | evaluation {seen : List Value} {env₁ : Env}
    (hbefore : (op.scan count [] before).run env = .ok seen env₁)
    (hx : x.eval.run env₁ = .error err env')
  | rejection {seen : List Value} {env₁ : Env} {v : Value}
    (hbefore : (op.scan count [] before).run env = .ok seen env₁)
    (hx : x.eval.run env₁ = .ok v env') (hv : op.objection? count seen v = some err)

variable {count : Nat} {op : Operator} {env env' : Env} {err : EvalError} {items : List Expr}

/-- A scan stops at the operand that fails, whatever comes after it. -/
theorem FailsAt.scan_eq_error {before : List Expr} {x : Expr}
    (h : op.FailsAt count env before x err env') (after : List Expr) :
    (op.scan count [] (before ++ x :: after)).run env = .error err env' := by
  rw [scan_append, EStateM.run_bind]
  cases h with
  | evaluation hbefore hx => simp only [hbefore, scan, EStateM.run_bind, hx]
  | rejection hbefore hx hv =>
    simp only [hbefore, scan, EStateM.run_bind, hx, hv]
    rfl

/-- A scan that fails has an operand at which it stops. -/
theorem exists_failsAt_of_scan (h : (op.scan count [] items).run env = .error err env') :
    ∃ before x after, items = before ++ x :: after ∧ op.FailsAt count env before x err env' := by
  -- From the right end, since the last operand is reached only if the others were accepted.
  induction items using List.reverseRecOn with
  | nil => cases h
  | append_singleton before x ih =>
    rw [scan_append, EStateM.run_bind] at h
    cases hbefore : (op.scan count [] before).run env with
    | error err₁ env₁ =>
      simp only [hbefore] at h
      cases h
      obtain ⟨before', y, after, rfl, hfails⟩ := ih hbefore
      exact ⟨before', y, after ++ [x], by simp, hfails⟩
    | ok seen env₁ =>
      simp only [hbefore, scan, EStateM.run_bind] at h
      cases hx : x.eval.run env₁ with
      | error err₁ env₂ =>
        simp only [hx] at h
        cases h
        exact ⟨before, x, [], rfl, .evaluation hbefore hx⟩
      | ok v env₂ =>
        simp only [hx] at h
        cases hv : op.objection? count seen v with
        | none =>
          rw [hv] at h
          cases h
        | some err₁ =>
          rw [hv] at h
          cases h
          exact ⟨before, x, [], rfl, .rejection hbefore hx hv⟩

end Operator

open Operator

/-- An operator runs on operands of a number that it takes. -/
theorem eval_apply_of_admits {op : Operator} {items : List Expr}
    (h : op.arity.admits items.length) :
    (Expr.list (.sym op.name :: items)).eval = op.run (operands items) := by
  rw [Expr.eval, Operator.apply, ofName?_name, length_operands]
  exact if_pos h

/-- An eager operator fails where the scan of its operands does. -/
theorem eval_eager_error_iff {op : Operator} (hop : op ∈ eager) {items : List Expr}
    (h : op.arity.admits items.length) {env env' : Env} {err : EvalError} :
    (Expr.list (.sym op.name :: items)).eval.run env = .error err env' ↔
      (op.scan items.length [] items).run env = .error err env' := by
  rw [eval_apply_of_admits h, run_eq_scan hop (admits_iff.1 h), EStateM.run_bind]
  cases (op.scan items.length [] items).run env with
  | ok vs env₁ => simp
  | error err₁ env₁ => simp

/-! ## Applications -/

/-- No operator of this name takes this number of operands. -/
theorem exists_eval_refused {name : String} {n : Nat}
    (h : ∀ op : Operator, op.name = name → op.arity.admits n = false) :
    ∃ err, ∀ items : List Expr, items.length = n → ∀ env : Env,
      (Expr.list (.sym name :: items)).eval.run env = .error err env := by
  cases hname : ofName? name with
  | none =>
    refine ⟨.unknownOperator name, fun items _ env => ?_⟩
    rw [Expr.eval, Operator.apply, hname]
    rfl
  | some op =>
    refine ⟨.arity name op.arity n, fun items hlength env => ?_⟩
    have hadmits := h op (ofName?_eq_some_iff.1 hname)
    simp only [Expr.eval, Operator.apply, hname, length_operands, hlength, hadmits]
    rfl

theorem eval_branch (condition yes no : Expr) (env : Env) :
    (Expr.list [.sym "if", condition, yes, no]).eval.run env =
      match condition.eval.run env with
      | .ok (.bool true) env' => yes.eval.run env'
      | .ok (.bool false) env' => no.eval.run env'
      | .ok (.int _) env' => .error (.kind "if" .boolean .integer) env'
      | .error err env' => .error err env' := by
  change (branch (operands [condition, yes, no])).run env = _
  simp only [operands, branch_triple, Operand.boolean, bind_assoc, EStateM.run_bind]
  cases condition.eval.run env with
  | error err env' => rfl
  | ok v env' => rcases v with n | (_ | _) <;> rfl

theorem eval_define_of_target {target : Expr} {err : EvalError}
    (h : Operator.target target = .error err) (body : Expr) (env : Env) :
    (Expr.list [.sym "define", target, body]).eval.run env = .error err env := by
  change (definition (operands [target, body])).run env = _
  simp only [operands, definition_pair, h]
  rfl

/-- A target that is no symbol, or a constant, is rejected. -/
theorem exists_target_eq_error {target : Expr}
    (h : ∀ name, target = .sym name → name = "true" ∨ name = "false") :
    ∃ err, Operator.target target = .error err := by
  cases htarget : Operator.target target with
  | error err => exact ⟨err, rfl⟩
  | ok name =>
    obtain ⟨rfl, hconstant⟩ := eq_sym_of_target htarget
    have hname := Value.constant?_eq_none_iff.1 hconstant
    grind

/-- What is not evaluated has no influence. A refused application depends on the number of its
operands only. An eager operator fails if and only if it stops at an operand, and then those after
it can be exchanged. So can the branch that is not taken, both of them if the condition has no truth
value, and the body of a definition whose target is rejected. -/
theorem eval_congr_unevaluated :
    (∀ (name : String) (n : Nat), (∀ op : Operator, op.name = name → op.arity.admits n = false) →
      ∃ err, ∀ items : List Expr, items.length = n → ∀ env : Env,
        (Expr.list (.sym name :: items)).eval.run env = .error err env) ∧
    (∀ op ∈ eager, ∀ (items : List Expr) (env : Env) (err : EvalError) (env' : Env),
      op.arity.admits items.length →
      ((Expr.list (.sym op.name :: items)).eval.run env = .error err env' ↔
        ∃ before x after, items = before ++ x :: after ∧
          op.FailsAt items.length env before x err env') ∧
      ∀ before x after, items = before ++ x :: after →
        op.FailsAt items.length env before x err env' →
        ∀ after' : List Expr, after'.length = after.length →
          (Expr.list (.sym op.name :: (before ++ x :: after'))).eval.run env = .error err env') ∧
    (∀ (condition yes no : Expr) (env : Env),
      (∀ env' no', condition.eval.run env = .ok (.bool true) env' →
        (Expr.list [.sym "if", condition, yes, no']).eval.run env =
          (Expr.list [.sym "if", condition, yes, no]).eval.run env) ∧
      (∀ env' yes', condition.eval.run env = .ok (.bool false) env' →
        (Expr.list [.sym "if", condition, yes', no]).eval.run env =
          (Expr.list [.sym "if", condition, yes, no]).eval.run env) ∧
      ((∀ b env', condition.eval.run env ≠ .ok (.bool b) env') → ∀ yes' no',
        (Expr.list [.sym "if", condition, yes', no']).eval.run env =
          (Expr.list [.sym "if", condition, yes, no]).eval.run env)) ∧
    ∀ target : Expr, (∀ name, target = .sym name → name = "true" ∨ name = "false") →
      ∃ err, ∀ (body : Expr) (env : Env),
        (Expr.list [.sym "define", target, body]).eval.run env = .error err env := by
  refine ⟨fun name n => exists_eval_refused, fun op hop items env err env' hadmits => ?_,
    fun condition yes no env => ?_, fun target htarget => ?_⟩
  · constructor
    · rw [eval_eager_error_iff hop hadmits]
      constructor
      · exact exists_failsAt_of_scan
      · rintro ⟨before, x, after, hitems, hfails⟩
        rw [hitems] at hfails ⊢
        exact hfails.scan_eq_error after
    · rintro before x after rfl hfails after' hlength
      have hlength' : (before ++ x :: after').length = (before ++ x :: after).length := by
        simp [hlength]
      rw [eval_eager_error_iff hop (hlength' ▸ hadmits), hlength']
      exact hfails.scan_eq_error after'
  · simp only [eval_branch]
    refine ⟨fun env' no' h => ?_, fun env' yes' h => ?_, fun h yes' no' => ?_⟩
    · rw [h]
    · rw [h]
    · cases hcondition : condition.eval.run env with
      | error err env' => rfl
      | ok v env' =>
        cases v with
        | int n => rfl
        | bool b => exact absurd hcondition (h b env')
  · obtain ⟨err, herr⟩ := exists_target_eq_error htarget
    exact ⟨err, eval_define_of_target herr⟩

/-- In `(+ 1 true y)` the symbol `y` can be exchanged for `(define x 1)`, as it can in
`(if false y 1)` and in `(if true 1 y)`, where it is the branch that is not taken. -/
theorem eval_congr_unevaluated_symbol :
    let y : Expr := .sym "y"
    let definition : Expr := .list [.sym "define", .sym "x", .num .one]
    (∃ err, ∀ items : List Expr, items.length = 1 → ∀ env : Env,
      (Expr.list (.sym "%" :: items)).eval.run env = .error err env) ∧
    (∀ last ∈ [y, definition], (Expr.list [.sym "+", .num .one, .sym "true", last]).eval.run ∅ =
      .error (.kind "+" .integer .boolean) ∅) ∧
    (Expr.list [.sym "if", .sym "false", definition, .num .one]).eval.run ∅ =
      (Expr.list [.sym "if", .sym "false", y, .num .one]).eval.run ∅ ∧
    (Expr.list [.sym "if", .sym "true", .num .one, definition]).eval.run ∅ =
      (Expr.list [.sym "if", .sym "true", .num .one, y]).eval.run ∅ ∧
    (Expr.list [.sym "if", y, definition, definition]).eval.run ∅ =
      (Expr.list [.sym "if", y, .num .one, .num .one]).eval.run ∅ ∧
    ∃ err, ∀ (body : Expr) (env : Env),
      (Expr.list [.sym "define", .sym "true", body]).eval.run env = .error err env := by
  intro y definition
  obtain ⟨hrefused, heager, hbranch, hdefine⟩ := eval_congr_unevaluated
  have hcount : ∀ op : Operator, op.name = "%" → op.arity.admits 1 = false := by
    intro op
    cases op <;> decide
  have hfails : Operator.add.FailsAt 3 ∅ [.num .one] (.sym "true")
      (.kind "+" .integer .boolean) ∅ :=
    .rejection (v := .bool true) rfl rfl rfl
  refine ⟨hrefused "%" 1 hcount, fun last _ => ?_, ?_, ?_, ?_, hdefine (.sym "true") (by grind)⟩
  · exact (heager .add (by decide) [.num .one, .sym "true", y] ∅ _ ∅ rfl).2 [.num .one]
      (.sym "true") [y] rfl hfails [last] rfl
  · exact (hbranch (.sym "false") y (.num .one) ∅).2.1 ∅ definition rfl
  · exact (hbranch (.sym "true") (.num .one) y ∅).1 ∅ definition rfl
  · exact (hbranch y (.num .one) (.num .one) ∅).2.2 (fun b env' h => nomatch h) definition
      definition

end LineLisp
