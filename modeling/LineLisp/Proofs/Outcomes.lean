import LineLisp.Proofs.Application

/-!
# What an evaluation can come to

A symbol has a value or it is undefined, and its evaluation changes nothing. A list evaluates some
of its items, each at most once and from left to right, until one of them fails or the list has seen
enough. Then it has a value, or it raises an error of its own. Only a definition changes the
environment itself, after its body has a value. What evaluations write and why they fail is derived
from these outcomes, by induction on the expression.
-/

/-- The state that a computation leaves, whether it fails or not. -/
def EStateM.Result.state {ε σ α : Type} : EStateM.Result ε σ α → σ
  | .ok _ s | .error _ s => s

@[simp] theorem EStateM.Result.state_ok {ε σ α : Type} (a : α) (s : σ) :
    (.ok a s : EStateM.Result ε σ α).state = s := rfl

@[simp] theorem EStateM.Result.state_error {ε σ α : Type} (e : ε) (s : σ) :
    (.error e s : EStateM.Result ε σ α).state = s := rfl

/-- The value or the error of a computation, whatever state it leaves. -/
def EStateM.Result.toExcept {ε σ α : Type} : EStateM.Result ε σ α → Except ε α
  | .ok a _ => .ok a
  | .error e _ => .error e

@[simp] theorem EStateM.state_run_adaptExcept {ε ε' σ α : Type} (x : EStateM ε σ α) (f : ε → ε')
    (s : σ) : ((x.adaptExcept f).run s).state = (x.run s).state := by
  simp only [EStateM.adaptExcept, EStateM.run]
  cases x s <;> rfl

namespace LineLisp

theorem symbolValue_run (name : String) (env : Env) :
    (symbolValue name).run env =
      match Value.constant? name, env[name]? with
      | some v, _ | none, some v => .ok v env
      | none, none => .error (.undefinedSymbol name) env := by
  unfold symbolValue
  cases Value.constant? name with
  | some v => rfl
  | none =>
    change (ofExcept (env.lookup name) : EvalM Value).run env = _
    unfold Env.lookup
    cases env[name]? <;> rfl

/-- The expression that stands for a value. -/
def Value.literal : Value → Expr
  | .int n => .num n
  | .bool b => .sym (render (.bool b))

theorem Value.eval_literal (v : Value) (env : Env) : v.literal.eval.run env = .ok v env := by
  cases v with
  | int n => rfl
  | bool b => rw [literal, Expr.eval, symbolValue_run, constant?_render_bool]

/-! ## Chains -/

/-- The expressions have values one after the other, and evaluating them leads from the first
environment to the second. -/
inductive Chain : Env → List Expr → Env → Prop
  | nil (env : Env) : Chain env [] env
  | cons {env env' env'' : Env} {e : Expr} {es : List Expr} {v : Value}
    (head : e.eval.run env = .ok v env') (tail : Chain env' es env'') : Chain env (e :: es) env''

theorem Chain.append {env env' env'' : Env} {es es' : List Expr} (h : Chain env es env')
    (h' : Chain env' es' env'') : Chain env (es ++ es') env'' := by
  induction h with
  | nil => exact h'
  | cons head _ ih => exact .cons head (ih h')

/-! ## Computations that evaluate items -/

/-- How a computation can end that evaluates some of the items, in their order, and otherwise only
fails. -/
inductive Ends {α : Type} (raises : EvalError → Prop) (items : List Expr) (env : Env) :
    EStateM.Result EvalError Env α → Prop
  | value {evaluated : List Expr} {env' : Env} {a : α} (chain : Chain env evaluated env')
    (h : evaluated.Sublist items) : Ends raises items env (.ok a env')
  /-- The computation itself fails. -/
  | raised {evaluated : List Expr} {env' : Env} {err : EvalError}
    (chain : Chain env evaluated env') (h : evaluated.Sublist items) (herr : raises err) :
    Ends raises items env (.error err env')
  /-- The last item that is evaluated fails. -/
  | failed {evaluated : List Expr} {e : Expr} {env' env'' : Env} {err : EvalError}
    (chain : Chain env evaluated env') (he : e.eval.run env' = .error err env'')
    (h : (evaluated ++ [e]).Sublist items) : Ends raises items env (.error err env'')

def Evaluates {α : Type} (raises : EvalError → Prop) (items : List Expr) (x : EvalM α) : Prop :=
  ∀ env, Ends raises items env (x.run env)

namespace Evaluates

variable {α β : Type} {raises : EvalError → Prop} {items items' : List Expr}

theorem pure (a : α) : Evaluates raises [] (pure a) :=
  fun env => .value (.nil env) (.refl [])

theorem throw {err : EvalError} (h : raises err) :
    Evaluates raises [] (throw err : EvalM α) :=
  fun env => .raised (.nil env) (.refl []) h

theorem ofExcept {result : Except EvalError α} (h : ∀ err, result = .error err → raises err) :
    Evaluates raises [] (ofExcept result : EvalM α) := by
  cases result with
  | ok a => exact pure a
  | error err => exact throw (h err rfl)

theorem eval (e : Expr) : Evaluates raises [e] e.eval := by
  intro env
  cases h : e.eval.run env with
  | ok v env' => exact .value (.cons h (.nil env')) (.refl [e])
  | error err env' => exact .failed (.nil env) h (.refl [e])

theorem mono {x : EvalM α} (hx : Evaluates raises items x) (h : items.Sublist items') :
    Evaluates raises items' x := by
  intro env
  have hends := hx env
  generalize x.run env = result at hends
  cases hends with
  | value chain hsub => exact .value chain (hsub.trans h)
  | raised chain hsub herr => exact .raised chain (hsub.trans h) herr
  | failed chain he hsub => exact .failed chain he (hsub.trans h)

theorem bind {x : EvalM α} {f : α → EvalM β} (hx : Evaluates raises items x)
    (hf : ∀ a, Evaluates raises items' (f a)) : Evaluates raises (items ++ items') (x >>= f) := by
  intro env
  have hfirst := hx env
  rw [EStateM.run_bind]
  generalize x.run env = result at hfirst
  cases hfirst with
  | @value evaluated env' a chain hsub =>
    have hsecond := hf a env'
    dsimp only
    generalize (f a).run env' = result at hsecond
    cases hsecond with
    | value chain' hsub' => exact .value (chain.append chain') (hsub.append hsub')
    | raised chain' hsub' herr => exact .raised (chain.append chain') (hsub.append hsub') herr
    | failed chain' he hsub' =>
      refine .failed (chain.append chain') he ?_
      rw [List.append_assoc]
      exact hsub.append hsub'
  | raised chain hsub herr => exact .raised chain (hsub.trans (List.sublist_append_left ..)) herr
  | failed chain he hsub => exact .failed chain he (hsub.trans (List.sublist_append_left ..))

/-- One item comes first, and what is made of its value evaluates the others. -/
theorem cons {e : Expr} {x : EvalM α} {f : α → EvalM β} (hx : Evaluates raises [e] x)
    (hf : ∀ a, Evaluates raises items (f a)) : Evaluates raises (e :: items) (x >>= f) :=
  bind hx hf

/-- An item whose value has to be an integer. -/
theorem integer {operator : String} (h : raises (.kind operator .integer .boolean)) (e : Expr) :
    Evaluates raises [e] (Operand.integer operator ⟨e, e.eval⟩) := by
  refine bind (eval e) fun v => ofExcept fun err herr => ?_
  cases v with
  | int n => simp [Value.integer] at herr
  | bool b =>
    obtain rfl := Except.error.inj herr
    exact h

/-- An item whose value has to be a truth value. -/
theorem boolean {operator : String} (h : raises (.kind operator .boolean .integer)) (e : Expr) :
    Evaluates raises [e] (Operand.boolean operator ⟨e, e.eval⟩) := by
  refine bind (eval e) fun v => ofExcept fun err herr => ?_
  cases v with
  | int n =>
    obtain rfl := Except.error.inj herr
    exact h
  | bool b => simp [Value.boolean] at herr

/-- Items that go into an accumulator, one after the other. -/
theorem accumulate {operator : String} {combine : Fixnum → Fixnum → Except EvalError Fixnum}
    (hkind : raises (.kind operator .integer .boolean))
    (hcombine : ∀ a b err, combine a b = .error err → raises err) (items : List Expr)
    (start : Fixnum) :
    Evaluates raises items (Operator.accumulate operator combine start (operands items)) := by
  induction items generalizing start with
  | nil => exact pure _
  | cons e items ih =>
    rw [operands, Operator.accumulate_cons]
    exact cons (integer hkind e) fun n => bind (ofExcept (hcombine start n)) ih

theorem compare {operator : String} (hkind : raises (.kind operator .integer .boolean))
    (holds : Int → Int → Bool) (x y : Expr) :
    Evaluates raises [x, y] (Operator.compare operator holds (operands [x, y])) := by
  simp only [operands, Operator.compare_pair]
  exact cons (integer hkind x) fun a => cons (integer hkind y) fun b => pure _

end Evaluates

theorem Operator.eq_overflow_of_fit {operator : String} {result : Option Fixnum} {err : EvalError}
    (h : fit operator result = .error err) : err = .overflow operator := by
  cases result with
  | some a => simp [fit] at h
  | none => exact (Except.error.inj h).symm

/-! ## The errors of a list -/

/-- The errors that a list raises itself. All others are those of its items. -/
inductive Expr.Raises : List Expr → EvalError → Prop
  | emptyList : Raises [] (.malformed .emptyList)
  | headNotSymbol {head : Expr} {items : List Expr} (h : head.symbol? = none) :
    Raises (head :: items) (.malformed .headNotSymbol)
  | unknownOperator {name : String} {items : List Expr} (h : Operator.ofName? name = none) :
    Raises (.sym name :: items) (.unknownOperator name)
  | arity {op : Operator} {items : List Expr} (h : ¬ op.arity.admits items.length) :
    Raises (.sym op.name :: items) (.arity op.name op.arity items.length)
  | overflow {op : Operator} {items : List Expr} (h : op ∈ [.add, .sub, .mul, .div]) :
    Raises (.sym op.name :: items) (.overflow op.name)
  | notInteger {op : Operator} {items : List Expr}
    (h : op ∈ [.add, .sub, .mul, .div, .mod, .gt, .lt]) :
    Raises (.sym op.name :: items) (.kind op.name .integer .boolean)
  | notBoolean {items : List Expr} : Raises (.sym "if" :: items) (.kind "if" .boolean .integer)
  | divisionByZero {x y : Expr} {items : List Expr} :
    Raises (.sym "/" :: x :: y :: items) .divisionByZero
  | moduloByZero {x y : Expr} : Raises [.sym "%", x, y] .moduloByZero
  | targetNotSymbol {target body : Expr} (h : target.symbol? = none) :
    Raises [.sym "define", target, body] (.malformed (.targetNotSymbol target))
  | constantTarget {name : String} {body : Expr} (h : (Value.constant? name).isSome) :
    Raises [.sym "define", .sym name, body] (.malformed (.constantTarget name))

open LineLisp.Expr (Raises)

/-- Every operator but `define` leaves the environment to its operands. -/
theorem Operator.Admitted.evaluates {op : Operator} {items : List Expr} (hop : op.Admitted items)
    (hdefine : op ≠ .define) :
    Evaluates (Raises (.sym op.name :: items)) items (op.run (operands items)) := by
  have hkind (h : op ∈ [.add, .sub, .mul, .div, .mod, .gt, .lt]) :=
    @Raises.notInteger op items h
  have hfit (h : op ∈ [.add, .sub, .mul, .div]) (result : Option Fixnum) (err : EvalError)
      (herr : fit op.name result = .error err) : Raises (.sym op.name :: items) err := by
    rw [eq_overflow_of_fit herr]
    exact .overflow h
  cases hop with
  | add => exact .accumulate (hkind (by decide)) (fun _ _ => hfit (by decide) _) items .zero
  | mul => exact .accumulate (hkind (by decide)) (fun _ _ => hfit (by decide) _) items .one
  | neg x =>
    simp only [run, operands, difference_singleton]
    refine .cons (.integer (hkind (by decide)) x) fun a => ?_
    exact .bind (.ofExcept (hfit (by decide) _)) fun n => .pure _
  | sub x y ys =>
    simp only [run, operands, difference_cons_cons]
    refine .cons (.integer (hkind (by decide)) x) fun a => ?_
    exact .accumulate (hkind (by decide)) (fun _ _ => hfit (by decide) _) (y :: ys) a
  | div x xs =>
    simp only [run, operands, quotient_cons]
    refine .cons (.integer (hkind (by decide)) x) fun a => ?_
    -- a quotient of one operand has no divisor that could be zero
    cases xs with
    | nil => exact .pure _
    | cons y ys =>
      refine .accumulate (hkind (by decide)) (fun a b err herr => ?_) (y :: ys) a
      split at herr
      · obtain rfl := Except.error.inj herr
        exact .divisionByZero
      · exact hfit (by decide) _ err herr
  | mod x y =>
    simp only [run, operands, remainder_pair]
    refine .cons (.integer (hkind (by decide)) x) fun a => ?_
    refine .cons (.integer (hkind (by decide)) y) fun b => ?_
    split
    · exact .throw .moduloByZero
    · exact .pure _
  | define => exact absurd rfl hdefine
  | cond x y z =>
    simp only [run, operands, branch_triple]
    refine .cons (.boolean .notBoolean x) fun b => ?_
    cases b with
    | true => exact (Evaluates.eval y).mono (by simp)
    | false => exact (Evaluates.eval z).mono (by simp)
  | gt x y => exact .compare (hkind (by decide)) (fun a b => a > b) x y
  | lt x y => exact .compare (hkind (by decide)) (fun a b => a < b) x y
  | eq x y =>
    simp only [run, operands, equal_pair]
    refine .cons (.eval x) fun v => ?_
    exact .cons (.eval y) fun w => .pure _

/-! ## Outcomes -/

/-- How the evaluation of a list can end. -/
inductive Outcome (items : List Expr) (env : Env) : EStateM.Result EvalError Env Value → Prop
  | ends {result : EStateM.Result EvalError Env Value} (h : Ends (Raises items) items env result) :
    Outcome items env result
  /-- A definition whose body has a value binds its target to it. -/
  | bound {name : String} {body : Expr} {v : Value} {env' : Env}
    (hitems : items = [.sym "define", .sym name, body]) (hname : Value.constant? name = none)
    (hbody : body.eval.run env = .ok v env') : Outcome items env (.ok v (env'.insert name v))

theorem Outcome.raised {items : List Expr} {err : EvalError} (h : Raises items err) (env : Env) :
    Outcome items env (.error err env) :=
  .ends (.raised (.nil env) (List.nil_sublist items) h)

theorem Operator.eq_sym_of_target {e : Expr} {name : String} (h : target e = .ok name) :
    e = .sym name ∧ Value.constant? name = none := by
  cases e with
  | num n => simp [target, Expr.symbol?] at h
  | list items => simp [target, Expr.symbol?] at h
  | sym text =>
    cases hconstant : Value.constant? text with
    | some v => simp [target, Expr.symbol?, hconstant] at h
    | none =>
      obtain rfl : text = name := by simpa [target, Expr.symbol?, hconstant] using h
      exact ⟨rfl, hconstant⟩

theorem Expr.Raises.of_target {target body : Expr} {err : EvalError}
    (h : Operator.target target = .error err) : Raises [.sym "define", target, body] err := by
  cases target with
  | num n =>
    obtain rfl := Except.error.inj h
    exact .targetNotSymbol rfl
  | list items =>
    obtain rfl := Except.error.inj h
    exact .targetNotSymbol rfl
  | sym name =>
    by_cases hconstant : (Value.constant? name).isSome
    · obtain rfl : .malformed (.constantTarget name) = err := by
        simpa [Operator.target, symbol?, hconstant] using h
      exact .constantTarget hconstant
    · simp [Operator.target, symbol?, hconstant] at h

theorem definition_outcome (target body : Expr) (env : Env) :
    Outcome [.sym "define", target, body] env
      ((Operator.definition (operands [target, body])).run env) := by
  simp only [operands, Operator.definition_pair]
  cases htarget : Operator.target target with
  | error err => exact .raised (.of_target htarget) env
  | ok name =>
    obtain ⟨rfl, hname⟩ := Operator.eq_sym_of_target htarget
    change Outcome _ _ (EStateM.run (body.eval >>= _) env)
    rw [EStateM.run_bind]
    cases hbody : body.eval.run env with
    | ok v env' => exact .bound rfl hname hbody
    | error err env' =>
      have hsub : [body].Sublist [.sym "define", .sym name, body] := by simp
      exact .ends (.failed (.nil env) hbody hsub)

/-- Every evaluation of a list ends in one of these ways. -/
theorem eval_list_outcome (items : List Expr) (env : Env) :
    Outcome items env ((Expr.list items).eval.run env) := by
  match items with
  | [] => exact .raised .emptyList env
  | .num _ :: _ => exact .raised (.headNotSymbol rfl) env
  | .list _ :: _ => exact .raised (.headNotSymbol rfl) env
  | .sym name :: items =>
    change Outcome _ env ((Operator.apply name (operands items)).run env)
    unfold Operator.apply
    rw [length_operands]
    cases hname : Operator.ofName? name with
    | none => exact .raised (.unknownOperator hname) env
    | some op =>
      obtain rfl := Operator.ofName?_eq_some_iff.1 hname
      dsimp only
      split
      · next hadmits =>
        have hop := Operator.admits_iff.1 hadmits
        by_cases hdefine : op = .define
        · subst hdefine
          cases hop with
          | define target body => exact definition_outcome target body env
        · exact .ends ((hop.evaluates hdefine).mono (List.sublist_cons_self ..) env)
      · next hadmits => exact .raised (.arity hadmits) env

end LineLisp
