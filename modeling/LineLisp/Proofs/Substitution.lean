import LineLisp.Proofs.Correspondence
import LineLisp.Proofs.Writes

/-!
# Substitution

A symbol that is bound to a value can be replaced by the literal of this value wherever it would be
looked up, as long as no definition binds it anew. The expression with the literals does not need
the binding any more.
-/

namespace LineLisp

namespace Expr

mutual

/-- Replaces a symbol by the literal of a value, but neither in the head of a list nor in the first
operand of a definition. -/
def subst (x : String) (v : Value) : Expr → Expr
  | .num n => .num n
  | .sym name => if name = x then v.literal else .sym name
  | .list [] => .list []
  | .list (.sym "define" :: target :: items) =>
    .list (.sym "define" :: target :: substIn x v items)
  | .list (head :: items) => .list (head :: substIn x v items)

def substIn (x : String) (v : Value) : List Expr → List Expr
  | [] => []
  | e :: es => subst x v e :: substIn x v es

end

theorem substIn_eq_map (x : String) (v : Value) (items : List Expr) :
    substIn x v items = items.map (subst x v) := by
  induction items with
  | nil => rfl
  | cons e es ih => rw [substIn, ih, List.map_cons]

theorem subst_define (x : String) (v : Value) (target : Expr) (items : List Expr) :
    subst x v (.list (.sym "define" :: target :: items)) =
      .list (.sym "define" :: target :: items.map (subst x v)) := by
  rw [subst, substIn_eq_map]

theorem subst_operands (x : String) (v : Value) {head : Expr} {items : List Expr}
    (h : head = .sym "define" → items = []) :
    subst x v (.list (head :: items)) = .list (head :: items.map (subst x v)) := by
  rw [subst, substIn_eq_map]
  rintro target rest rfl rfl
  exact List.cons_ne_nil _ _ (h rfl)

theorem mem_targets_list {x : String} {e : Expr} {items : List Expr} (he : e ∈ items)
    (hx : x ∈ e.targets) : x ∈ (Expr.list items).targets := by
  obtain ⟨d, hd, rfl⟩ := List.mem_map.1 hx
  refine List.mem_map_of_mem ?_
  rw [definitions_list]
  exact List.mem_append_left _ (List.mem_flatMap.2 ⟨e, he, hd⟩)

theorem mem_targets_define (x : String) (body : Expr) :
    x ∈ targets (.list [.sym "define", .sym x, body]) := by
  simp [targets, definitions_list, definition?]

end Expr

theorem Env.insert_comm {x y : String} (h : x ≠ y) (env : Env) (v w : Value) :
    (env.insert x v).insert y w = (env.insert y w).insert x v := by
  apply Std.ExtTreeMap.ext_getElem?
  intro name
  grind

theorem Env.insert_eq_self {env : Env} {x : String} {v : Value} (h : env[x]? = some v) :
    env.insert x v = env := by
  apply Std.ExtTreeMap.ext_getElem?
  intro name
  grind

namespace Correspondence

/-- An environment with a binding goes with one that may lack it, as long as the name is not bound
anew. -/
def substituting (x : String) (v : Value) (old : Option Value) : Correspondence Env Env where
  States env env' := env = env'.insert x v ∧ env'[x]? = old
  Names name name' := name = name' ∧ name ≠ x
  Errors := Eq
  insert := by
    rintro _ env name _ ⟨rfl, rfl⟩ ⟨rfl, hname⟩ w
    refine ⟨env.insert_comm hname.symm v w, ?_⟩
    change (env.insert name w)[x]? = env[x]?
    simp [Std.ExtTreeMap.getElem?_insert, hname]
  errors_of_nameless _ := rfl

variable {x : String} {v : Value} {old : Option Value}

theorem Evals.sym_literal (hx : Value.constant? x = none) :
    (substituting x v old).Evals (.sym x) v.literal := by
  rintro _ env ⟨rfl, hold⟩
  rw [Expr.evalIn_eq_eval, Expr.evalIn_eq_eval, Expr.eval, symbolValue_run, Value.eval_literal, hx,
    Std.ExtTreeMap.getElem?_insert_self]
  exact .value ⟨rfl, hold⟩

theorem Targets.substituting {target body : Expr}
    (h : x ∉ Expr.targets (.list [.sym "define", target, body])) :
    (substituting x v old).Targets target target := by
  refine .self (fun name htarget => ⟨rfl, ?_⟩) rfl
  obtain ⟨rfl, -⟩ := Operator.eq_sym_of_target htarget
  rintro rfl
  exact h (Expr.mem_targets_define name body)

/-- Evaluation with the binding goes together with evaluation after the substitution. -/
theorem Evals.subst (hx : Value.constant? x = none) {e : Expr} (h : x ∉ e.targets) :
    (substituting x v old).Evals e (e.subst x v) := by
  induction e with
  | num n =>
    rw [Expr.subst]
    exact .num n
  | sym name =>
    rw [Expr.subst]
    split
    · next hname =>
      subst hname
      exact .sym_literal hx
    · next hname =>
      refine .sym rfl ?_ rfl
      rintro _ env ⟨rfl, -⟩
      change env[name]? = (env.insert x v)[name]?
      simp [Std.ExtTreeMap.getElem?_insert, Ne.symm hname]
  | list items ih =>
    have hitems : ∀ e ∈ items, (substituting x v old).Evals e (e.subst x v) :=
      fun e he => ih e he fun hmem => h (Expr.mem_targets_list he hmem)
    cases items using Expr.items_cases with
    | nil =>
      rw [Expr.subst]
      exact .nil
    | define target items =>
      rw [Expr.subst_define]
      refine .define (fun hlength => ?_) (forall₂_evals_map fun e he => hitems e (by simp [he]))
      -- only a definition with one body binds its target
      obtain ⟨body, rfl⟩ := List.length_eq_one_iff.1 hlength
      exact .substituting h
    | operands head items hhead =>
      rw [Expr.subst_operands x v hhead]
      exact .operands rfl hhead (forall₂_evals_map fun e he => hitems e (by simp [he]))

end Correspondence

/-- Evaluation with a binding of the symbol, beside evaluation after the substitution. -/
theorem eval_together_subst {x : String} (hx : Value.constant? x = none) {e : Expr}
    (h : x ∉ e.targets) (v : Value) (env : Env) :
    (Correspondence.substituting x v env[x]?).Together (e.eval.run (env.insert x v))
      ((e.subst x v).eval.run env) :=
  Correspondence.evals_iff.1 (.subst hx h) _ _ ⟨rfl, rfl⟩

/-- Let no definition in an expression bind a name that is no constant. Where the name is bound to a
value, the expression evaluates as it does with the literal of the value in its place. With the
literal it gives the same value or error when the name is not bound to it, and it leaves the same
bindings of all other names. -/
theorem eval_subst {x : String} (hx : x ≠ "true" ∧ x ≠ "false") {e : Expr} (h : x ∉ e.targets)
    (v : Value) :
    (∀ env : Env, env[x]? = some v → (e.subst x v).eval.run env = e.eval.run env) ∧
    ∀ env : Env,
      ((e.subst x v).eval.run env).toExcept = (e.eval.run (env.insert x v)).toExcept ∧
      (e.eval.run (env.insert x v)).state = ((e.subst x v).eval.run env).state.insert x v := by
  have hconstant : Value.constant? x = none := Value.constant?_eq_none_iff.2 hx
  constructor
  · intro env henv
    have htogether := eval_together_subst hconstant h v env
    rw [Env.insert_eq_self henv, henv] at htogether
    -- the binding is still there at the end, so the final environments do not differ
    refine (htogether.eq_of_states (fun _ _ hstates => ?_) rfl).symm
    rw [hstates.1, Env.insert_eq_self hstates.2]
  · intro env
    have htogether := eval_together_subst hconstant h v env
    exact ⟨(htogether.toExcept_eq rfl).symm, htogether.states.1⟩

/-- In `(+ + (define y +))` the symbol `+` is replaced by the literal of its value, but not where it
names the operator. -/
theorem eval_subst_operator_name :
    let e : Expr := .list [.sym "+", .sym "+", .list [.sym "define", .sym "y", .sym "+"]]
    let env : Env := (∅ : Env).insert "+" (.int .one)
    e.subst "+" (.int .one) =
        .list [.sym "+", .num .one, .list [.sym "define", .sym "y", .num .one]] ∧
      (e.subst "+" (.int .one)).eval.run env = e.eval.run env ∧
      ((e.subst "+" (.int .one)).eval.run ∅).toExcept = (e.eval.run env).toExcept := by
  intro e env
  obtain ⟨hbound, hunbound⟩ := eval_subst (x := "+") (by decide) (e := e) (by decide) (.int .one)
  exact ⟨by decide, hbound env (by decide), (hunbound ∅).1⟩

end LineLisp
