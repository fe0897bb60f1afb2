import LineLisp.Proofs.Correspondence
import Mathlib.Logic.Equiv.Basic

/-!
# Renaming

The names of variables carry no meaning. If all symbols but the heads of lists are renamed, and the
bindings with them, an evaluation takes the same course under the new names. Only the two constants
have to keep their names. Operators do not count, since they are told by the heads of lists, so a
variable may as well be given the name of one.
-/

namespace LineLisp

/-- An injective map of names that keeps the constants. -/
structure Renaming where
  toFun : String → String
  injective : Function.Injective toFun
  map_true : toFun "true" = "true"
  map_false : toFun "false" = "false"

namespace Renaming

instance : CoeFun Renaming fun _ => String → String := ⟨toFun⟩

/-- Exchanges two names that are no constants. -/
def swap (a b : String) (ha : Value.constant? a = none) (hb : Value.constant? b = none) :
    Renaming where
  toFun := Equiv.swap a b
  injective := (Equiv.swap a b).injective
  map_true := by
    rw [Value.constant?_eq_none_iff] at ha hb
    exact Equiv.swap_apply_of_ne_of_ne ha.1.symm hb.1.symm
  map_false := by
    rw [Value.constant?_eq_none_iff] at ha hb
    exact Equiv.swap_apply_of_ne_of_ne ha.2.symm hb.2.symm

variable (r : Renaming)

theorem map_eq_true_iff {name : String} : r name = "true" ↔ name = "true" :=
  ⟨fun h => r.injective (h.trans r.map_true.symm), fun h => h ▸ r.map_true⟩

theorem map_eq_false_iff {name : String} : r name = "false" ↔ name = "false" :=
  ⟨fun h => r.injective (h.trans r.map_false.symm), fun h => h ▸ r.map_false⟩

theorem constant?_map (name : String) : Value.constant? (r name) = Value.constant? name := by
  simp only [Value.constant?, map_eq_true_iff, map_eq_false_iff]

end Renaming

namespace Expr

mutual

/-- Renames the symbols of an expression, except those that are the head of a list. -/
def rename (r : Renaming) : Expr → Expr
  | .num n => .num n
  | .sym name => .sym (r name)
  | .list [] => .list []
  | .list (.sym name :: items) => .list (.sym name :: renameIn r items)
  | .list (head :: items) => .list (rename r head :: renameIn r items)

def renameIn (r : Renaming) : List Expr → List Expr
  | [] => []
  | e :: es => rename r e :: renameIn r es

end

variable (r : Renaming)

theorem renameIn_eq_map (items : List Expr) : renameIn r items = items.map (rename r) := by
  induction items with
  | nil => rfl
  | cons e es ih => rw [renameIn, ih, List.map_cons]

theorem rename_apply (name : String) (items : List Expr) :
    rename r (.list (.sym name :: items)) = .list (.sym name :: items.map (rename r)) := by
  rw [rename, renameIn_eq_map]

theorem symbol?_rename_list (items : List Expr) : (rename r (.list items)).symbol? = none := by
  match items with
  | [] | .num _ :: _ | .sym _ :: _ | .list _ :: _ => rfl

/-- The head of a list stays the symbol that it is, or no symbol. -/
theorem exists_rename_list (head : Expr) (items : List Expr) :
    ∃ head' : Expr, head'.symbol? = head.symbol? ∧
      rename r (.list (head :: items)) = .list (head' :: items.map (rename r)) := by
  rw [← renameIn_eq_map]
  cases head with
  | num n => exact ⟨.num n, rfl, rfl⟩
  | sym name => exact ⟨.sym name, rfl, rfl⟩
  | list items' => exact ⟨rename r (.list items'), symbol?_rename_list r items', rfl⟩

end Expr

/-- The renaming of what makes a list malformed; the text of the reason may change. -/
def Malformed.rename (r : Renaming) : Malformed → Malformed
  | .targetNotSymbol target => .targetNotSymbol (target.rename r)
  | .constantTarget name => .constantTarget (r name)
  | cause => cause

/-- The renaming of an error: a variable stands in it only if it is undefined or if the list is
malformed. -/
def EvalError.rename (r : Renaming) : EvalError → EvalError
  | .undefinedSymbol name => .undefinedSymbol (r name)
  | .malformed cause => .malformed (cause.rename r)
  | err => err

theorem EvalError.Nameless.rename_eq {err : EvalError} (h : err.Nameless) (r : Renaming) :
    err.rename r = err := by
  cases err with
  | undefinedSymbol name => exact h.elim
  | malformed cause =>
    cases cause with
    | targetNotSymbol target => exact h.elim
    | constantTarget name => exact h.elim
    | emptyList | headNotSymbol => rfl
  | unknownOperator | arity | kind | divisionByZero | moduloByZero | overflow => rfl

/-! ## Environments -/

namespace Env

/-- The same bindings under new names. -/
def rename (r : Renaming) (env : Env) : Env :=
  .ofList (env.toList.map fun (name, v) => (r name, v))

variable (r : Renaming)

theorem distinct_keys_rename (env : Env) :
    (env.toList.map fun (name, v) => (r name, v)).Pairwise fun a b => ¬ compare a.1 b.1 = .eq := by
  rw [List.pairwise_map]
  refine Std.ExtTreeMap.distinct_keys_toList.imp fun {a b} hne heq => hne ?_
  have hname : a.1 = b.1 := r.injective (Std.LawfulEqCmp.eq_of_compare heq)
  rw [hname]
  exact Std.ReflCmp.compare_self

theorem getElem?_rename_eq_some_iff {env : Env} {name : String} {v : Value} :
    (env.rename r)[name]? = some v ↔ ∃ old, r old = name ∧ env[old]? = some v := by
  have hbound {old : String} {w : Value} (h : env[old]? = some w) :
      (env.rename r)[r old]? = some w :=
    Std.ExtTreeMap.getElem?_ofList_of_mem Std.ReflCmp.compare_self (distinct_keys_rename r env)
      (List.mem_map.2 ⟨(old, w), Std.ExtTreeMap.mem_toList_iff_getElem?_eq_some.2 h, rfl⟩)
  constructor
  · intro h
    have hmem : name ∈ env.rename r := by
      rw [Std.ExtTreeMap.mem_iff_isSome_getElem?, h]
      rfl
    rw [rename, Std.ExtTreeMap.mem_ofList, List.map_map, List.contains_iff_mem] at hmem
    obtain ⟨⟨old, w⟩, hold, rfl⟩ := List.mem_map.1 hmem
    have hw : env[old]? = some w := Std.ExtTreeMap.mem_toList_iff_getElem?_eq_some.1 hold
    exact ⟨old, rfl, hw.trans ((hbound hw).symm.trans h)⟩
  · rintro ⟨old, rfl, h⟩
    exact hbound h

theorem getElem?_rename (env : Env) (name : String) : (env.rename r)[r name]? = env[name]? := by
  ext v
  rw [getElem?_rename_eq_some_iff]
  constructor
  · rintro ⟨old, hold, hv⟩
    rwa [← r.injective hold]
  · exact fun hv => ⟨name, rfl, hv⟩

theorem rename_insert (env : Env) (name : String) (v : Value) :
    Env.rename r (env.insert name v) = (env.rename r).insert (r name) v := by
  apply Std.ExtTreeMap.ext_getElem?
  intro other
  ext w
  rw [getElem?_rename_eq_some_iff, Std.ExtTreeMap.getElem?_insert]
  by_cases hother : r name = other
  · subst hother
    simp [r.injective.eq_iff]
  · have hne {old : String} (hold : r old = other) : name ≠ old := fun h => hother (h ▸ hold)
    rw [if_neg (by simpa using hother), getElem?_rename_eq_some_iff]
    refine exists_congr fun old => and_congr_right fun hold => ?_
    rw [Std.ExtTreeMap.getElem?_insert, if_neg (by simpa using hne hold)]

end Env

namespace Correspondence

/-- Evaluation under the old names and under the new ones. -/
def renamed (r : Renaming) : Correspondence Env Env where
  States env env' := env' = env.rename r
  Names name name' := name' = r name
  Errors err err' := err' = err.rename r
  insert := by
    rintro env _ name _ rfl rfl v
    exact (Env.rename_insert r env name v).symm
  errors_of_nameless h := (h.rename_eq r).symm

variable {r : Renaming}

theorem Targets.rename (target : Expr) : (renamed r).Targets target (target.rename r) := by
  cases target with
  | num n => exact rfl
  | sym name =>
    rw [Expr.rename]
    unfold Targets Operator.target
    simp only [Expr.symbol?, r.constant?_map]
    cases Value.constant? name <;> rfl
  | list items =>
    unfold Targets Operator.target
    rw [Expr.symbol?_rename_list]
    rfl

/-- Evaluation goes together with evaluation under the new names. -/
theorem Evals.rename (e : Expr) : (renamed r).Evals e (e.rename r) := by
  induction e with
  | num n =>
    rw [Expr.rename]
    exact .num n
  | sym name =>
    rw [Expr.rename]
    refine .sym (r.constant?_map name) ?_ rfl
    rintro env _ rfl
    exact Env.getElem?_rename r env name
  | list items ih =>
    cases items using Expr.items_cases with
    | nil =>
      rw [Expr.rename]
      exact .nil
    | define target items =>
      rw [Expr.rename_apply, List.map_cons]
      exact .define (fun _ => .rename target) (forall₂_evals_map fun e he => ih e (by simp [he]))
    | operands head items h =>
      obtain ⟨head', hhead, hrename⟩ := Expr.exists_rename_list r head items
      rw [hrename]
      exact .operands hhead h (forall₂_evals_map fun e he => ih e (by simp [he]))

end Correspondence

/-- What an evaluation came to, under the new names. -/
def Renaming.result (r : Renaming) :
    EStateM.Result EvalError Env Value → EStateM.Result EvalError Env Value
  | .ok v env => .ok v (env.rename r)
  | .error err env => .error (err.rename r) (env.rename r)

/-- Evaluation commutes with renaming: under the new names an expression has the same value, or the
same error up to the names in it, and leaves the same bindings under their new names. -/
theorem eval_rename (r : Renaming) (e : Expr) (env : Env) :
    (e.rename r).eval.run (env.rename r) = r.result (e.eval.run env) := by
  have htogether : (Correspondence.renamed r).Together (e.eval.run env)
      ((e.rename r).eval.run (env.rename r)) :=
    Correspondence.evals_iff.1 (.rename e) _ _ rfl
  generalize e.eval.run env = result at htogether
  generalize (e.rename r).eval.run (env.rename r) = result' at htogether
  cases htogether with
  | value hstates =>
    rw [hstates]
    rfl
  | error herr hstates =>
    rw [herr, hstates]
    rfl

/-- In `(define x (* x x))` the variable can be given the name of the operator, which makes it
`(define * (* * *))`. -/
theorem eval_rename_operator_name :
    let r : Renaming := .swap "x" "*" (by decide) (by decide)
    let e : Expr := .list [.sym "define", .sym "x", .list [.sym "*", .sym "x", .sym "x"]]
    let env : Env := (∅ : Env).insert "x" (.int .one)
    e.rename r = .list [.sym "define", .sym "*", .list [.sym "*", .sym "*", .sym "*"]] ∧
      (e.rename r).eval.run (env.rename r) =
        .ok (.int .one) (Env.rename r (e.eval.run env).state) := by
  intro r e env
  exact ⟨by decide, eval_rename r e env⟩

end LineLisp
