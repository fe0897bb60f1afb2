import LineLisp.Proofs.Outcomes
import Mathlib.Data.List.Flatten

/-!
# What evaluation writes

The definitions in an expression are listed in the order in which they end: those in the items of a
list come before the list itself. An evaluation lets some of them take effect, in this order and
each at most once, whether it fails or not, and changes the environment in no other way.
-/

namespace LineLisp

/-- A list of the form `(define name body)`. -/
structure Definition where
  name : String
  body : Expr
deriving DecidableEq

namespace Expr

/-- The definition that the items of a list are. -/
def definition? : List Expr → Option Definition
  | [.sym "define", .sym name, body] => some ⟨name, body⟩
  | _ => none

mutual

/-- The definitions in an expression at any depth, a list after its items. -/
def definitions : Expr → List Definition
  | .num _ | .sym _ => []
  | .list items => definitionsIn items ++ (definition? items).toList

def definitionsIn : List Expr → List Definition
  | [] => []
  | e :: es => definitions e ++ definitionsIn es

end

theorem definitionsIn_eq_flatMap (items : List Expr) :
    definitionsIn items = items.flatMap definitions := by
  induction items with
  | nil => rfl
  | cons e es ih => rw [definitionsIn, ih, List.flatMap_cons]

theorem definitions_list (items : List Expr) :
    (Expr.list items).definitions = items.flatMap definitions ++ (definition? items).toList := by
  rw [definitions, definitionsIn_eq_flatMap]

/-- The names that the definitions in an expression bind. -/
def targets (e : Expr) : List String := e.definitions.map (·.name)

example : targets (.list [.sym "define", .sym "x", .list [.sym "define", .sym "y", .num .one]]) =
    ["y", "x"] := by decide

end Expr

/-! ## Writes -/

/-- A definition that takes effect, with the value that it binds. -/
structure Write where
  definition : Definition
  value : Value
deriving DecidableEq

namespace Env

def write (env : Env) (w : Write) : Env := env.insert w.definition.name w.value

/-- The environment after the writes, the first of which is made first. -/
def writeAll (env : Env) (writes : List Write) : Env := writes.foldl write env

theorem writeAll_append (env : Env) (writes writes' : List Write) :
    env.writeAll (writes ++ writes') = (env.writeAll writes).writeAll writes' :=
  List.foldl_append

theorem getElem?_write_of_ne {env : Env} {w : Write} {name : String}
    (h : w.definition.name ≠ name) : (env.write w)[name]? = env[name]? := by
  simp [write, Std.ExtTreeMap.getElem?_insert, h]

theorem mem_writeAll_iff {env : Env} {name : String} {writes : List Write} :
    name ∈ env.writeAll writes ↔ name ∈ env ∨ name ∈ writes.map (·.definition.name) := by
  induction writes generalizing env with
  | nil => simp [writeAll]
  | cons w writes ih =>
    have hwrite : name ∈ env.write w ↔ w.definition.name = name ∨ name ∈ env := by
      simp [write, Std.ExtTreeMap.mem_insert]
    change name ∈ (env.write w).writeAll writes ↔ _
    rw [ih, hwrite, List.map_cons, List.mem_cons]
    grind

theorem getElem?_writeAll_of_notMem {name : String} {writes : List Write}
    (h : name ∉ writes.map (·.definition.name)) (env : Env) :
    (env.writeAll writes)[name]? = env[name]? := by
  induction writes generalizing env with
  | nil => rfl
  | cons w writes ih =>
    rw [List.map_cons, List.mem_cons, not_or] at h
    calc ((env.write w).writeAll writes)[name]?
        = (env.write w)[name]? := ih h.2 _
      _ = env[name]? := getElem?_write_of_ne (Ne.symm h.1)

end Env

/-- The writes come about one after the other, starting from the environment. Each binds a name that
is no constant to what its body evaluates to. The body is evaluated after some of the earlier
writes, and makes the rest of them. -/
inductive Written (env : Env) : List Write → Prop
  | nil : Written env []
  | snoc {before inner : List Write} {w : Write} (h : Written env (before ++ inner))
    (hname : Value.constant? w.definition.name = none)
    (hbody : w.definition.body.eval.run (env.writeAll before) =
      .ok w.value (env.writeAll (before ++ inner))) :
    Written env (before ++ inner ++ [w])

theorem Written.append {env : Env} {writes writes' : List Write} (h : Written env writes)
    (h' : Written (env.writeAll writes) writes') : Written env (writes ++ writes') := by
  induction h' with
  | nil => rwa [List.append_nil]
  | @snoc before inner w _ hname hbody ih =>
    simp only [← Env.writeAll_append, ← List.append_assoc] at ih hbody ⊢
    exact ih.snoc hname hbody

theorem Written.constant?_eq_none {env : Env} {writes : List Write} (h : Written env writes) :
    ∀ w ∈ writes, Value.constant? w.definition.name = none := by
  induction h with
  | nil => simp
  | snoc _ hname _ ih =>
    intro w hw
    obtain hw | hw := List.mem_append.1 hw
    · exact ih w hw
    · obtain rfl := List.mem_singleton.1 hw
      exact hname

/-! ## Definitions that lead from one environment to another -/

/-- Some of the definitions take effect, in their order, and nothing else does. -/
def Leads (env : Env) (definitions : List Definition) (env' : Env) : Prop :=
  ∃ writes, Written env writes ∧ (writes.map (·.definition)).Sublist definitions ∧
    env' = env.writeAll writes

namespace Leads

variable {env env' env'' : Env} {ds ds' : List Definition}

theorem refl (env : Env) (ds : List Definition) : Leads env ds env :=
  ⟨[], .nil, List.nil_sublist ds, rfl⟩

theorem trans (h : Leads env ds env') (h' : Leads env' ds' env'') :
    Leads env (ds ++ ds') env'' := by
  obtain ⟨writes, hwritten, hsub, rfl⟩ := h
  obtain ⟨writes', hwritten', hsub', rfl⟩ := h'
  refine ⟨writes ++ writes', hwritten.append hwritten', ?_, (env.writeAll_append ..).symm⟩
  rw [List.map_append]
  exact hsub.append hsub'

theorem mono (h : Leads env ds env') (hds : ds.Sublist ds') : Leads env ds' env' := by
  obtain ⟨writes, hwritten, hsub, henv⟩ := h
  exact ⟨writes, hwritten, hsub.trans hds, henv⟩

theorem mem (h : Leads env ds env') {name : String} (hname : name ∈ env) : name ∈ env' := by
  obtain ⟨writes, -, -, rfl⟩ := h
  exact Env.mem_writeAll_iff.2 (.inl hname)

/-- A definition whose body has a value comes after the definitions in its body. -/
theorem define {d : Definition} {v : Value} (h : Leads env ds env')
    (hname : Value.constant? d.name = none) (hbody : d.body.eval.run env = .ok v env') :
    Leads env (ds ++ [d]) (env'.insert d.name v) := by
  obtain ⟨writes, hwritten, hsub, rfl⟩ := h
  have hlast : Written env ([] ++ writes ++ [⟨d, v⟩]) := hwritten.snoc hname hbody
  refine ⟨writes ++ [⟨d, v⟩], hlast, ?_, ?_⟩
  · rw [List.map_append]
    exact hsub.append (.refl [d])
  · rw [Env.writeAll_append]
    rfl

end Leads

theorem Chain.leads {env env' : Env} {es : List Expr} (h : Chain env es env')
    (hes : ∀ e ∈ es, ∀ env, Leads env e.definitions (e.eval.run env).state) :
    Leads env (es.flatMap Expr.definitions) env' := by
  induction h with
  | nil env => exact .refl env []
  | @cons env env' env'' e es v head _ ih =>
    rw [List.forall_mem_cons] at hes
    have hhead := hes.1 env
    rw [head] at hhead
    rw [List.flatMap_cons]
    exact hhead.trans (ih hes.2)

/-- What evaluates items changes the environment by their definitions only. -/
theorem Ends.leads {α : Type} {raises : EvalError → Prop} {items : List Expr} {env : Env}
    {result : EStateM.Result EvalError Env α} (h : Ends raises items env result)
    (hitems : ∀ e ∈ items, ∀ env, Leads env e.definitions (e.eval.run env).state) :
    Leads env (items.flatMap Expr.definitions) result.state := by
  cases h with
  | value chain hsub =>
    exact (chain.leads fun e he => hitems e (hsub.subset he)).mono (hsub.flatMap _)
  | raised chain hsub =>
    exact (chain.leads fun e he => hitems e (hsub.subset he)).mono (hsub.flatMap _)
  | @failed evaluated e env' env'' err chain he hsub =>
    have hlast := hitems e (hsub.subset (by simp)) env'
    rw [he] at hlast
    have hchain := chain.leads fun e he => hitems e (hsub.subset (by simp [he]))
    refine (hchain.trans hlast).mono ?_
    simpa using hsub.flatMap Expr.definitions

theorem symbolValue_state (name : String) (env : Env) :
    ((symbolValue name).run env).state = env := by
  rw [symbolValue_run]
  split <;> rfl

theorem eval_leads (e : Expr) : ∀ env, Leads env e.definitions (e.eval.run env).state := by
  induction e with
  | num n => exact fun env => .refl env _
  | sym name =>
    intro env
    rw [Expr.eval, symbolValue_state]
    exact .refl env _
  | list items ih =>
    intro env
    rw [Expr.definitions_list]
    have houtcome := eval_list_outcome items env
    generalize (Expr.list items).eval.run env = result at houtcome
    cases houtcome with
    | ends h => exact (h.leads ih).mono (List.sublist_append_left ..)
    | @bound name body v env' hitems hname hbody =>
      subst hitems
      have hleads := ih body (by simp) env
      rw [hbody] at hleads
      simpa [Expr.definitions, Expr.definition?] using
        hleads.define (d := ⟨name, body⟩) hname hbody

/-- Whether an evaluation fails or not, it leaves what definitions of the expression have written,
in the order in which they end and each at most once. None of them binds a constant, and each binds
the value of its body. So no binding is lost, a name that is not a target keeps its value, and
without definitions nothing changes. -/
theorem eval_writes_definitions (e : Expr) (env : Env) :
    (∃ writes : List Write, (e.eval.run env).state = env.writeAll writes ∧
      (writes.map (·.definition.name)).Sublist e.targets ∧
      (∀ w ∈ writes, w.definition.name ≠ "true" ∧ w.definition.name ≠ "false") ∧
      (writes.map (·.definition)).Sublist e.definitions ∧ Written env writes) ∧
    (∀ name ∈ env, name ∈ (e.eval.run env).state) ∧
    (∀ name ∉ e.targets, (e.eval.run env).state[name]? = env[name]?) ∧
    (e.targets = [] → (e.eval.run env).state = env) := by
  obtain ⟨writes, hwritten, hsub, hstate⟩ := eval_leads e env
  have htargets : (writes.map (·.definition.name)).Sublist e.targets := by
    simpa [Expr.targets, Function.comp_def] using hsub.map (·.name)
  refine ⟨⟨writes, hstate, htargets, fun w hw => ?_, hsub, hwritten⟩,
    fun name => (eval_leads e env).mem, ?_, ?_⟩
  · exact Value.constant?_eq_none_iff.1 (hwritten.constant?_eq_none w hw)
  · intro name hname
    rw [hstate]
    exact Env.getElem?_writeAll_of_notMem (fun h => hname (htargets.subset h)) env
  · intro hnone
    rw [hnone, List.sublist_nil, List.map_eq_nil_iff] at htargets
    rw [hstate, htargets]
    rfl

end LineLisp
