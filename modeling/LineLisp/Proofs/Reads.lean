import LineLisp.Proofs.Correspondence

/-!
# What evaluation reads

An evaluation looks up symbols where a value is asked for, and nowhere else: the head of a list
names an operator whatever it is bound to, and the target of a definition is not evaluated.
Environments that agree on the symbols in the other places cannot be told apart. The evaluations
have the same value or error, and they make the same bindings in the same order.

The bindings that an evaluation makes are listed by a journal, which is a store that writes down
what is inserted into it.
-/

namespace LineLisp

namespace Expr

mutual

/-- The symbols that an evaluation may look up. The head of a list and the target of a definition
are not among them. -/
def reads : Expr → List String
  | .num _ => []
  | .sym name => [name]
  | .list [] => []
  | .list (.sym "define" :: _ :: items) => readsIn items
  | .list (_ :: items) => readsIn items

def readsIn : List Expr → List String
  | [] => []
  | e :: es => reads e ++ readsIn es

end

theorem readsIn_eq_flatMap (items : List Expr) : readsIn items = items.flatMap reads := by
  induction items with
  | nil => rfl
  | cons e es ih => rw [readsIn, ih, List.flatMap_cons]

theorem reads_define (target : Expr) (items : List Expr) :
    reads (.list (.sym "define" :: target :: items)) = items.flatMap reads := by
  rw [reads, readsIn_eq_flatMap]

theorem reads_operands {head : Expr} {items : List Expr} (h : head = .sym "define" → items = []) :
    reads (.list (head :: items)) = items.flatMap reads := by
  rw [reads, readsIn_eq_flatMap]
  rintro target rest rfl rfl
  exact List.cons_ne_nil _ _ (h rfl)

example : reads (.list [.sym "+", .sym "x", .list [.sym "define", .sym "y", .sym "+"]]) =
    ["x", "+"] := by decide

end Expr

/-- Two evaluations of an expression go together if they look up the same. -/
theorem Correspondence.Evals.self {σ τ : Type} [Store σ] [Store τ] {R : Correspondence σ τ}
    (hnames : R.Names = Eq) (herrors : R.Errors = Eq) {e : Expr}
    (hreads : ∀ name ∈ e.reads, ∀ s t, R.States s t → Store.find? t name = Store.find? s name) :
    R.Evals e e := by
  induction e with
  | num n => exact .num n
  | sym name => exact .sym rfl (hreads name (by simp [Expr.reads])) (by rw [herrors])
  | list items ih =>
    cases items using Expr.items_cases with
    | nil => exact .nil
    | define target items =>
      have htarget : R.Targets target target := .self (fun name _ => by rw [hnames]) herrors
      refine .define (fun _ => htarget) (List.forall₂_same.2 fun e he => ?_)
      refine ih e (by simp [he]) fun name hname => hreads name ?_
      rw [Expr.reads_define]
      exact List.mem_flatMap.2 ⟨e, he, hname⟩
    | operands head items h =>
      refine .operands rfl h (List.forall₂_same.2 fun e he => ?_)
      refine ih e (by simp [he]) fun name hname => hreads name ?_
      rw [Expr.reads_operands h]
      exact List.mem_flatMap.2 ⟨e, he, hname⟩

/-! ## Journals -/

/-- An environment with the bindings that were made in it, the first one first. -/
structure Journal where
  env : Env
  log : List (String × Value)

namespace Journal

instance : Store Journal where
  find? j name := j.env[name]?
  insert j name v := ⟨j.env.insert name v, j.log ++ [(name, v)]⟩

/-- A journal goes with the environment that it keeps, and its log leads there from the start. -/
def keeping (start : Env) : Correspondence Journal Env where
  States j env := j.env = env ∧ env = start.insertMany j.log
  Names := Eq
  Errors := Eq
  insert := by
    rintro j _ name _ ⟨rfl, hlog⟩ rfl v
    refine ⟨rfl, ?_⟩
    change j.env.insert name v = start.insertMany (j.log ++ [(name, v)])
    rw [Std.ExtTreeMap.insertMany_append, Std.ExtTreeMap.insertMany_list_singleton, ← hlog]
  errors_of_nameless _ := rfl

/-- Journals go together that have the same log and agree on some names. -/
def agreeing (names : List String) : Correspondence Journal Journal where
  States j j' := j.log = j'.log ∧ ∀ name ∈ names, j'.env[name]? = j.env[name]?
  Names := Eq
  Errors := Eq
  insert := by
    rintro j j' name _ ⟨hlog, hnames⟩ rfl v
    refine ⟨congrArg (· ++ [(name, v)]) hlog, fun other hother => ?_⟩
    change (j'.env.insert name v)[other]? = (j.env.insert name v)[other]?
    simp only [Std.ExtTreeMap.getElem?_insert, hnames other hother]
  errors_of_nameless _ := rfl

end Journal

/-- The bindings that an evaluation makes, in the order in which it makes them. -/
def Expr.writes (e : Expr) (env : Env) : List (String × Value) :=
  (e.evalIn.run (⟨env, []⟩ : Journal)).state.log

/-- An evaluation with a journal is the evaluation, and writes down the bindings that it makes. -/
theorem eval_together_journal (e : Expr) (env : Env) :
    (Journal.keeping env).Together (e.evalIn.run (⟨env, []⟩ : Journal)) (e.eval.run env) := by
  rw [← Expr.evalIn_eq_eval]
  refine Correspondence.Evals.self rfl rfl (fun name _ j env h => ?_) _ _ ⟨rfl, ?_⟩
  · change env[name]? = j.env[name]?
    rw [h.1]
  · exact Std.ExtTreeMap.insertMany_nil.symm

theorem eval_state_eq_insertMany (e : Expr) (env : Env) :
    (e.eval.run env).state = env.insertMany (e.writes env) :=
  (eval_together_journal e env).states.2

/-- Bindings that are made in some order leave a name as it was, or give it a value that does not
depend on what was there. -/
theorem Env.getElem?_insertMany_cases (writes : List (String × Value)) (name : String) :
    (∃ v, (name, v) ∈ writes ∧ ∀ env : Env, (env.insertMany writes)[name]? = some v) ∨
      ∀ env : Env, (env.insertMany writes)[name]? = env[name]? := by
  induction writes with
  | nil => exact .inr fun env => by rw [Std.ExtTreeMap.insertMany_nil]
  | cons w writes ih =>
    obtain ⟨other, v⟩ := w
    simp only [Std.ExtTreeMap.insertMany_cons]
    obtain ⟨u, hmem, hvalue⟩ | hsame := ih
    · exact .inl ⟨u, List.mem_cons_of_mem _ hmem, fun env => hvalue _⟩
    · by_cases hname : other = name
      · subst hname
        exact .inl ⟨v, List.mem_cons_self, fun env => by rw [hsame]; simp⟩
      · refine .inr fun env => ?_
        rw [hsame, Std.ExtTreeMap.getElem?_insert]
        simp [hname]

/-- Journals of evaluations from environments that agree on what may be looked up. -/
theorem eval_together_of_agree {e : Expr} {env env' : Env}
    (h : ∀ name ∈ e.reads, env[name]? = env'[name]?) :
    (Journal.agreeing e.reads).Together (e.evalIn.run (⟨env, []⟩ : Journal))
      (e.evalIn.run (⟨env', []⟩ : Journal)) := by
  have hevals : (Journal.agreeing e.reads).Evals e e :=
    .self rfl rfl fun name hname _ _ hst => hst.2 name hname
  exact hevals _ _ ⟨rfl, fun name hname => (h name hname).symm⟩

theorem toExcept_eq_of_agree {e : Expr} {env env' : Env}
    (h : ∀ name ∈ e.reads, env[name]? = env'[name]?) :
    (e.eval.run env).toExcept = (e.eval.run env').toExcept :=
  calc (e.eval.run env).toExcept
      = (e.evalIn.run (⟨env, []⟩ : Journal)).toExcept :=
        ((eval_together_journal e env).toExcept_eq rfl).symm
    _ = (e.evalIn.run (⟨env', []⟩ : Journal)).toExcept := (eval_together_of_agree h).toExcept_eq rfl
    _ = (e.eval.run env').toExcept := (eval_together_journal e env').toExcept_eq rfl

/-- An evaluation depends on nothing but the symbols that it may look up. In environments that agree
on them it has the same value or error and makes the same bindings in the same order, so a name has
the same new value in both or keeps what it had in each. A name that is not among these symbols can
be bound to anything and no result changes. -/
theorem eval_congr_reads (e : Expr) :
    (∀ env env' : Env, (∀ name ∈ e.reads, env[name]? = env'[name]?) →
      (e.eval.run env).toExcept = (e.eval.run env').toExcept ∧
      e.writes env = e.writes env' ∧
      (e.eval.run env).state = env.insertMany (e.writes env) ∧
      (e.eval.run env').state = env'.insertMany (e.writes env') ∧
      ∀ name,
        (∃ v, (name, v) ∈ e.writes env ∧ (e.eval.run env).state[name]? = some v ∧
          (e.eval.run env').state[name]? = some v) ∨
        ((e.eval.run env).state[name]? = env[name]? ∧
          (e.eval.run env').state[name]? = env'[name]?)) ∧
    ∀ (env : Env) (name : String) (v : Value), name ∉ e.reads →
      (e.eval.run (env.insert name v)).toExcept = (e.eval.run env).toExcept := by
  constructor
  · intro env env' h
    have hwrites : e.writes env = e.writes env' := (eval_together_of_agree h).states.1
    refine ⟨toExcept_eq_of_agree h, hwrites, eval_state_eq_insertMany e env,
      eval_state_eq_insertMany e env', fun name => ?_⟩
    rw [eval_state_eq_insertMany, eval_state_eq_insertMany, ← hwrites]
    obtain ⟨v, hmem, hvalue⟩ | hsame := Env.getElem?_insertMany_cases (e.writes env) name
    · exact .inl ⟨v, hmem, hvalue env, hvalue env'⟩
    · exact .inr ⟨hsame env, hsame env'⟩
  · intro env name v hname
    refine toExcept_eq_of_agree fun other hother => ?_
    have hne : name ≠ other := fun h => hname (h ▸ hother)
    rw [Std.ExtTreeMap.getElem?_insert]
    simp [hne]

/-- In `(+ x (define y x))` neither `+` nor `y` is looked up. -/
theorem eval_congr_reads_bound_operator :
    let e : Expr := .list [.sym "+", .sym "x", .list [.sym "define", .sym "y", .sym "x"]]
    let env : Env := (∅ : Env).insert "x" (.int .one)
    let env' : Env := (env.insert "+" (.bool true)).insert "y" (.int .zero)
    (e.eval.run env).toExcept = (e.eval.run env').toExcept ∧ e.writes env = e.writes env' ∧
      e.writes env = [("y", .int .one)] ∧
      (e.eval.run (env.insert "define" (.bool true))).toExcept = (e.eval.run env).toExcept := by
  intro e env env'
  obtain ⟨hagree, hunread⟩ := eval_congr_reads e
  obtain ⟨hresult, hwrites, -⟩ := hagree env env' (by decide)
  exact ⟨hresult, hwrites, rfl, hunread env "define" (.bool true) (by decide)⟩

end LineLisp
