import LineLisp.Proofs.Names
import LineLisp.Proofs.Writes

/-!
# Where errors come from

An error of an evaluation has its reason in the expression: a symbol without a value, or a list that
raises it. What the error says about operators, operands and kinds is what is found there.
-/

namespace LineLisp

open LineLisp.Expr (Occurs Raises)

/-- The expression applies the name to the operands, at any depth. -/
def Expr.Applies (e : Expr) (name : String) (operands : List Expr) : Prop :=
  Occurs (.list (.sym name :: operands)) e

/-- What in an expression accounts for an error. The environments are the one in which it was
evaluated and the one that it left. -/
def EvalError.JustifiedBy (e : Expr) (env env' : Env) : EvalError → Prop
  | .undefinedSymbol name =>
    Occurs (.sym name) e ∧ name ≠ "true" ∧ name ≠ "false" ∧ name ∉ env ∧ name ∉ env'
  | .unknownOperator name =>
    name ∉ Operator.all.map Operator.name ∧ ∃ operands, e.Applies name operands
  | .arity operator expected actual =>
    ∃ op : Operator, op.name = operator ∧ op.arity = expected ∧ expected.admits actual = false ∧
      ∃ operands, operands.length = actual ∧ e.Applies operator operands
  | .kind operator expected actual =>
    (operator = "if" ∧ expected = .boolean ∧ actual = .integer ∨
      operator ∈ ["+", "-", "*", "/", "%", ">", "<"] ∧ expected = .integer ∧ actual = .boolean) ∧
    ∃ operands, e.Applies operator operands
  | .divisionByZero => ∃ operands, 2 ≤ operands.length ∧ e.Applies "/" operands
  | .moduloByZero => ∃ operands, operands.length = 2 ∧ e.Applies "%" operands
  | .overflow operator =>
    operator ∈ ["+", "-", "*", "/"] ∧ ∃ operands, e.Applies operator operands
  | .malformed .emptyList => Occurs (.list []) e
  | .malformed .headNotSymbol =>
    ∃ head items, head.symbol? = none ∧ Occurs (.list (head :: items)) e
  | .malformed (.targetNotSymbol target) =>
    target.symbol? = none ∧ ∃ body, e.Applies "define" [target, body]
  | .malformed (.constantTarget name) =>
    (name = "true" ∨ name = "false") ∧ ∃ body, e.Applies "define" [.sym name, body]

theorem symbolValue_error {name : String} {env env' : Env} {err : EvalError}
    (h : (symbolValue name).run env = .error err env') :
    err = .undefinedSymbol name ∧ Value.constant? name = none ∧ name ∉ env' := by
  rw [symbolValue_run] at h
  split at h
  · cases h
  · cases h
  · next hconstant hget =>
    obtain ⟨rfl, rfl⟩ := EStateM.Result.error.inj h
    exact ⟨rfl, hconstant, by simpa using hget⟩

/-- An error is raised by a list in the expression, or it is that of a symbol in it. -/
theorem eval_error_cases {e : Expr} {env env' : Env} {err : EvalError}
    (h : e.eval.run env = .error err env') :
    (∃ items, Occurs (.list items) e ∧ Raises items err) ∨
      ∃ name, Occurs (.sym name) e ∧ err = .undefinedSymbol name ∧
        Value.constant? name = none ∧ name ∉ env' := by
  induction e generalizing env with
  | num n => cases h
  | sym name => exact .inr ⟨name, .self, symbolValue_error h⟩
  | list items ih =>
    have houtcome := eval_list_outcome items env
    rw [h] at houtcome
    obtain ⟨hends⟩ := houtcome
    cases hends with
    | raised _ _ herr => exact .inl ⟨items, .self, herr⟩
    | failed _ he hsub =>
      have hmem := hsub.subset (List.mem_append_right _ (List.mem_singleton_self _))
      obtain ⟨items', hoccurs, herr⟩ | ⟨name, hoccurs, herr⟩ := ih _ hmem he
      · exact .inl ⟨items', .item hmem hoccurs, herr⟩
      · exact .inr ⟨name, .item hmem hoccurs, herr⟩

theorem Operator.notMem_names {name : String} (h : ofName? name = none) :
    name ∉ all.map Operator.name := by
  intro hmem
  obtain ⟨op, -, rfl⟩ := List.mem_map.1 hmem
  simp [ofName?_name] at h

/-- What a list raises is justified wherever the list stands. -/
theorem Expr.Raises.justifiedBy {items : List Expr} {err : EvalError} (h : Raises items err)
    {e : Expr} (hoccurs : Occurs (.list items) e) (env env' : Env) :
    err.JustifiedBy e env env' := by
  cases h with
  | emptyList => exact hoccurs
  | @headNotSymbol head items h => exact ⟨head, items, h, hoccurs⟩
  | @unknownOperator name items h => exact ⟨Operator.notMem_names h, items, hoccurs⟩
  | @arity op items h => exact ⟨op, rfl, rfl, by simpa using h, items, rfl, hoccurs⟩
  | @overflow op items h =>
    refine ⟨?_, items, hoccurs⟩
    exact List.mem_map_of_mem (f := Operator.name) h
  | @notInteger op items h =>
    refine ⟨.inr ⟨?_, rfl, rfl⟩, items, hoccurs⟩
    exact List.mem_map_of_mem (f := Operator.name) h
  | @notBoolean items => exact ⟨.inl ⟨rfl, rfl, rfl⟩, items, hoccurs⟩
  | @divisionByZero x y items => exact ⟨x :: y :: items, by simp, hoccurs⟩
  | @moduloByZero x y => exact ⟨[x, y], rfl, hoccurs⟩
  | @targetNotSymbol target body h => exact ⟨h, body, hoccurs⟩
  | @constantTarget name body h => exact ⟨Value.isSome_constant?_iff.1 h, body, hoccurs⟩

/-- Every error of an evaluation is justified by a part of the expression. A symbol that is
undefined was unbound at the beginning and is unbound at the end. -/
theorem eval_error_justified {e : Expr} {env env' : Env} {err : EvalError}
    (h : e.eval.run env = .error err env') : err.JustifiedBy e env env' := by
  obtain ⟨items, hoccurs, herr⟩ | ⟨name, hoccurs, rfl, hconstant, hunbound⟩ := eval_error_cases h
  · exact herr.justifiedBy hoccurs env env'
  · obtain ⟨htrue, hfalse⟩ := Value.constant?_eq_none_iff.1 hconstant
    have hstart : name ∉ env := by
      intro hbound
      have hend := (eval_leads e env).mem hbound
      rw [h] at hend
      exact hunbound hend
    exact ⟨hoccurs, htrue, hfalse, hstart, hunbound⟩

/-- In `(+ (define x 1) y)` the symbol `y` is undefined, also after `x` has been bound. -/
theorem eval_error_justified_after_definition :
    (EvalError.undefinedSymbol "y").JustifiedBy
      (.list [.sym "+", .list [.sym "define", .sym "x", .num .one], .sym "y"])
      ∅ ((∅ : Env).insert "x" (.int .one)) :=
  eval_error_justified rfl

end LineLisp
