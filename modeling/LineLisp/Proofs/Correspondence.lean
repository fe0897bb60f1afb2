import LineLisp.Proofs.Outcomes
import LineLisp.Proofs.Strategy

/-!
# Evaluations side by side

Evaluation uses its environment only to look up symbols and to bind the targets of definitions. So
it can be written over anything that offers the two, and over environments it is the evaluation that
we know. Two such evaluations stay together as long as their states, their targets and their symbols
correspond: every other operator sees nothing but values.

## Main definitions

- `Store`: what can keep bindings, and `Expr.evalIn`: evaluation over a store.
- `Correspondence`: which states, names and errors of two evaluations go together.
- `Correspondence.Simulates`: two computations that stay together.
-/

namespace LineLisp

/-- A place that keeps bindings. -/
class Store (σ : Type) where
  find? : σ → String → Option Value
  insert : σ → String → Value → σ

instance : Store Env where
  find? env name := env[name]?
  insert env name v := env.insert name v

namespace Expr

/-- A list is empty, a use of `define` with a target, or a head before operands. -/
theorem items_cases {motive : List Expr → Prop} (items : List Expr) (nil : motive [])
    (define : ∀ target items, motive (.sym "define" :: target :: items))
    (operands : ∀ head items, (head = .sym "define" → items = []) → motive (head :: items)) :
    motive items := by
  match items with
  | [] => exact nil
  | head :: items =>
    by_cases h : head = .sym "define" → items = []
    · exact operands head items h
    · push Not at h
      obtain ⟨rfl, hne⟩ := h
      obtain ⟨target, items, rfl⟩ := List.exists_cons_of_ne_nil hne
      exact define target items

variable {σ : Type} [Store σ]

/-- The value of a symbol in a store; a constant comes before any binding. -/
def symbolIn (name : String) : EStateM EvalError σ Value := fun s =>
  match Value.constant? name, Store.find? s name with
  | some v, _ | none, some v => .ok v s
  | none, none => .error (.undefinedSymbol name) s

mutual

/-- Evaluation over a store. -/
def evalIn : Expr → EStateM EvalError σ Value
  | .num n => pure (.int n)
  | .sym name => symbolIn name
  | .list [] => throw (.malformed .emptyList)
  | .list [.sym "define", target, body] => do
    let name ← ofExcept (Operator.target target)
    let v ← evalIn body
    modify (Store.insert · name v)
    return v
  | .list (.sym name :: items) => (Strategy.apply name (evalItemsIn items)).run
  | .list (.num _ :: _) | .list (.list _ :: _) => throw (.malformed .headNotSymbol)

def evalItemsIn : List Expr → List (EStateM EvalError σ Value)
  | [] => []
  | e :: es => evalIn e :: evalItemsIn es

end

theorem evalItemsIn_eq_map (items : List Expr) :
    (evalItemsIn items : List (EStateM EvalError σ Value)) = items.map evalIn := by
  induction items with
  | nil => rfl
  | cons e es ih => rw [evalItemsIn, ih, List.map_cons]

theorem evalIn_apply {name : String} {items : List Expr} (h : name = "define" → items.length ≠ 2) :
    (evalIn (.list (.sym name :: items)) : EStateM EvalError σ Value) =
      (Strategy.apply name (items.map evalIn)).run := by
  rw [evalIn, evalItemsIn_eq_map]
  rintro target body rfl rfl
  exact h rfl rfl

theorem evalIn_define (target body : Expr) :
    (evalIn (.list [.sym "define", target, body]) : EStateM EvalError σ Value) = (do
      let name ← ofExcept (Operator.target target)
      let v ← evalIn body
      modify (Store.insert · name v)
      pure v) := by
  rw [evalIn]

theorem evalIn_define_of_length_ne {items : List Expr} (h : items.length ≠ 2) :
    (evalIn (.list (.sym "define" :: items)) : EStateM EvalError σ Value) =
      throw (.arity "define" (.exactly 2) items.length) := by
  have hstrategy : Strategy.apply "define" (items.map (evalIn (σ := σ))) =
      .done (.error (.arity "define" (.exactly 2) items.length)) := by
    rw [Strategy.apply, show Operator.ofName? "define" = some .define from rfl]
    simp [Strategy.ofOperator, Operator.name, Operator.arity]
  rw [evalIn_apply fun _ => h, hstrategy]
  rfl

theorem symbol?_eq_some_iff {e : Expr} {name : String} : e.symbol? = some name ↔ e = .sym name := by
  cases e <;> simp [symbol?]

theorem evalIn_head {head : Expr} {items : List Expr} (h : head.symbol? = none) :
    (evalIn (.list (head :: items)) : EStateM EvalError σ Value) =
      throw (.malformed .headNotSymbol) := by
  cases head with
  | num n => rw [evalIn]
  | sym name => simp [symbol?] at h
  | list items => rw [evalIn]

/-- Over environments it is the evaluation of the language. -/
theorem evalIn_eq_eval (e : Expr) : (e.evalIn : EvalM Value) = e.eval := by
  induction e with
  | num n => rw [evalIn, eval]
  | sym name =>
    rw [evalIn, eval]
    funext env
    exact (symbolValue_run name env).symm
  | list items ih =>
    cases items with
    | nil => rw [evalIn, eval]
    | cons head items =>
      cases head with
      | num n => rw [evalIn, eval]
      | list _ => rw [evalIn, eval]
      | sym name =>
        have hvalues : items.map evalIn = (operands items).map Operand.value := by
          rw [operands_eq_map, List.map_map]
          exact List.map_congr_left fun e he => ih e (by simp [he])
        by_cases h : name = "define" → items.length ≠ 2
        · rw [evalIn_apply h, eval, Operator.apply_eq_run (by simpa using h), hvalues]
        · push Not at h
          obtain ⟨rfl, hlength⟩ := h
          obtain ⟨target, body, rfl⟩ := List.length_eq_two.1 hlength
          rw [evalIn_define, ih body (by simp)]
          rfl

end Expr

/-! ## Correspondences -/

/-- What two evaluations have in common: the states that go together, the names that may be bound
together, and the errors that mean the same. -/
structure Correspondence (σ τ : Type) [Store σ] [Store τ] where
  States : σ → τ → Prop
  Names : String → String → Prop
  Errors : EvalError → EvalError → Prop
  insert : ∀ {s t name name'}, States s t → Names name name' →
    ∀ v, States (Store.insert s name v) (Store.insert t name' v)
  errors_of_nameless : ∀ {err}, err.Nameless → Errors err err

namespace Correspondence

variable {σ τ : Type} [Store σ] [Store τ] (R : Correspondence σ τ) {α β : Type}

/-- Both computations have ended, with the same value or with errors that mean the same. -/
inductive Together : EStateM.Result EvalError σ α → EStateM.Result EvalError τ α → Prop
  | value {a : α} {s : σ} {t : τ} (h : R.States s t) : Together (.ok a s) (.ok a t)
  | error {err err' : EvalError} {s : σ} {t : τ} (herr : R.Errors err err') (h : R.States s t) :
    Together (.error err s) (.error err' t)

/-- From states that go together the computations end together. -/
def Simulates (x : EStateM EvalError σ α) (y : EStateM EvalError τ α) : Prop :=
  ∀ s t, R.States s t → R.Together (x.run s) (y.run t)

/-- The evaluations of two expressions go together. -/
def Evals (e e' : Expr) : Prop := R.Simulates e.evalIn e'.evalIn

/-- Two targets can be bound together, or are rejected for the same reason. -/
def Targets (e e' : Expr) : Prop :=
  match Operator.target e, Operator.target e' with
  | .ok name, .ok name' => R.Names name name'
  | .error err, .error err' => R.Errors err err'
  | _, _ => False

variable {R}

theorem Together.states {x : EStateM.Result EvalError σ α} {y : EStateM.Result EvalError τ α}
    (h : R.Together x y) : R.States x.state y.state := by
  cases h <;> assumption

theorem Together.toExcept_eq {x : EStateM.Result EvalError σ α} {y : EStateM.Result EvalError τ α}
    (h : R.Together x y) (herrors : R.Errors = Eq) : x.toExcept = y.toExcept := by
  cases h with
  | value => rfl
  | error herr =>
    rw [herrors] at herr
    rw [herr]
    rfl

/-- Where only equal states go together, computations that end together have one end. -/
theorem Together.eq_of_states {R : Correspondence σ σ} {x y : EStateM.Result EvalError σ α}
    (h : R.Together x y) (hstates : ∀ s t, R.States s t → s = t) (herrors : R.Errors = Eq) :
    x = y := by
  cases h with
  | value hst => rw [hstates _ _ hst]
  | error herr hst =>
    rw [herrors] at herr
    rw [herr, hstates _ _ hst]

theorem Targets.self {e : Expr} (hnames : ∀ name, Operator.target e = .ok name → R.Names name name)
    (herrors : R.Errors = Eq) : R.Targets e e := by
  unfold Targets
  cases h : Operator.target e with
  | ok name => exact hnames name h
  | error err => simp only [herrors]

namespace Simulates

theorem pure (a : α) : R.Simulates (pure a) (pure a) := fun _ _ h => .value h

theorem throw {err err' : EvalError} (herr : R.Errors err err') :
    R.Simulates (throw err : EStateM EvalError σ α) (throw err') := fun _ _ h => .error herr h

theorem bind {x : EStateM EvalError σ α} {y : EStateM EvalError τ α}
    {f : α → EStateM EvalError σ β} {g : α → EStateM EvalError τ β} (h : R.Simulates x y)
    (hf : ∀ a, R.Simulates (f a) (g a)) : R.Simulates (x >>= f) (y >>= g) := by
  intro s t hst
  have hfirst := h s t hst
  rw [EStateM.run_bind, EStateM.run_bind]
  -- what follows depends on the ends of `x` and `y` only, not on how they were reached
  generalize x.run s = result at hfirst
  generalize y.run t = result' at hfirst
  cases hfirst with
  | value h => exact hf _ _ _ h
  | error herr h => exact .error herr h

theorem insert {name name' : String} (hname : R.Names name name') (v : Value) :
    R.Simulates (modify (Store.insert · name v)) (modify (Store.insert · name' v)) :=
  fun _ _ h => .value (R.insert h hname v)

/-- Strategies that ask for operands that go together are carried out together. -/
theorem run {s : Strategy (EStateM EvalError σ Value) α}
    {t : Strategy (EStateM EvalError τ Value) α} (h : s.Parallel R.Simulates t) :
    R.Simulates s.run t.run := by
  induction h with
  | value a => exact pure a
  | error herr => exact throw (R.errors_of_nameless herr)
  | ask hxy _ ih => exact bind hxy ih

end Simulates

/-! ## Expressions -/

theorem evals_iff {R : Correspondence Env Env} {e e' : Expr} :
    R.Evals e e' ↔
      ∀ env env', R.States env env' → R.Together (e.eval.run env) (e'.eval.run env') := by
  simp only [Evals, Simulates, Expr.evalIn_eq_eval]

theorem forall₂_evals_map {f : Expr → Expr} {items : List Expr}
    (h : ∀ e ∈ items, R.Evals e (f e)) : List.Forall₂ R.Evals items (items.map f) :=
  List.forall₂_map_right_iff.2 (List.forall₂_same.2 h)

theorem Evals.num (n : Fixnum) : R.Evals (.num n) (.num n) := by
  unfold Evals
  simp only [Expr.evalIn]
  exact .pure _

theorem Evals.sym {name name' : String} (hconstant : Value.constant? name' = Value.constant? name)
    (hfind : ∀ s t, R.States s t → Store.find? t name' = Store.find? s name)
    (herr : R.Errors (.undefinedSymbol name) (.undefinedSymbol name')) :
    R.Evals (.sym name) (.sym name') := by
  intro s t hst
  simp only [Expr.evalIn, EStateM.run, Expr.symbolIn, hconstant, hfind s t hst]
  split
  · exact .value hst
  · exact .value hst
  · exact .error herr hst

theorem Evals.nil : R.Evals (.list []) (.list []) := by
  unfold Evals
  simp only [Expr.evalIn]
  exact .throw (R.errors_of_nameless trivial)

/-- An application goes together with another one if their operands do. -/
theorem Evals.operands {head head' : Expr} {items items' : List Expr}
    (hhead : head'.symbol? = head.symbol?) (hdefine : head = .sym "define" → items = [])
    (h : List.Forall₂ R.Evals items items') :
    R.Evals (.list (head :: items)) (.list (head' :: items')) := by
  unfold Evals
  cases hsymbol : head.symbol? with
  | none =>
    rw [Expr.evalIn_head hsymbol, Expr.evalIn_head (hhead.trans hsymbol)]
    exact .throw (R.errors_of_nameless trivial)
  | some name =>
    obtain rfl := Expr.symbol?_eq_some_iff.1 hsymbol
    obtain rfl := Expr.symbol?_eq_some_iff.1 (hhead.trans hsymbol)
    have hlength : name = "define" → items.length ≠ 2 := by
      rintro rfl
      simp [hdefine rfl]
    rw [Expr.evalIn_apply hlength, Expr.evalIn_apply (h.length_eq ▸ hlength)]
    refine .run (Strategy.parallel_apply (by simpa using hlength) ?_)
    rw [List.forall₂_map_left_iff, List.forall₂_map_right_iff]
    exact h

/-- A definition goes together with another one if their targets and their bodies do. -/
theorem Evals.define {target target' : Expr} {items items' : List Expr}
    (htarget : items.length = 1 → R.Targets target target')
    (h : List.Forall₂ R.Evals items items') :
    R.Evals (.list (.sym "define" :: target :: items))
      (.list (.sym "define" :: target' :: items')) := by
  unfold Evals
  by_cases hlength : items.length = 1
  · obtain ⟨body, rfl⟩ := List.length_eq_one_iff.1 hlength
    obtain _ | ⟨hbody, _ | _⟩ := h
    have htargets := htarget rfl
    unfold Targets at htargets
    rw [Expr.evalIn_define, Expr.evalIn_define]
    split at htargets
    · next name name' hname hname' =>
      rw [hname, hname']
      change R.Simulates (body.evalIn >>= _) (Expr.evalIn _ >>= _)
      exact .bind hbody fun v => .bind (.insert htargets v) fun _ => .pure v
    · next err err' herr herr' =>
      rw [herr, herr']
      exact .throw htargets
    · exact htargets.elim
  · -- with another number of operands the target is not even looked at
    have hlength' := h.length_eq ▸ hlength
    rw [Expr.evalIn_define_of_length_ne (by simpa using hlength),
      Expr.evalIn_define_of_length_ne (by simpa using hlength'), List.length_cons, List.length_cons,
      h.length_eq]
    exact .throw (R.errors_of_nameless trivial)

end Correspondence

end LineLisp
