import LineLisp.Proofs.Application
import LineLisp.Proofs.Exact

/-!
# Overflow is the only difference to exact arithmetic

Evaluation with fixnums is compared with the evaluation of the same expression over all integers.
`Tracks` holds the two together, step by step, as long as every accumulator fits. The first one that
does not fit ends the evaluation with an overflow of its operator, whatever the exact run does
afterwards.
-/

namespace LineLisp

def Value.exact : Value → Exact.Value
  | .int n => .int n.toInt
  | .bool b => .bool b

theorem Value.exact_inj {v w : Value} : v.exact = w.exact ↔ v = w := by
  cases v <;> cases w <;> simp [exact, Fixnum.ext_iff]

def Env.exact (env : Env) : Exact.Env := env.map fun _ v => v.exact

@[simp] theorem Env.getElem?_exact (env : Env) (name : String) :
    env.exact[name]? = env[name]?.map Value.exact :=
  Std.ExtTreeMap.getElem?_map

@[simp] theorem Env.exact_insert (env : Env) (name : String) (v : Value) :
    Env.exact (env.insert name v) = env.exact.insert name v.exact := by
  apply Std.ExtTreeMap.ext_getElem?
  intro k
  simp only [getElem?_exact, Std.ExtTreeMap.getElem?_insert]
  split <;> rfl

/-- The operators that compute accumulators. -/
def accumulating : List String := ["+", "-", "*", "/"]

variable {α β γ δ : Type}

/-- How a computation over fixnums can end beside one over all integers. Either both end alike and
every accumulator fits, or the first accumulator that does not fit is the overflow. -/
inductive Tracked (embed : α → β) : EStateM.Result EvalError Env α → Exact.Run β → Prop where
  | value {a : α} {env : Env} {accs : List Exact.Accumulator} :
      (∀ b ∈ accs, b.Fits) → Tracked embed (.ok a env) ⟨.ok (embed a), env.exact, accs⟩
  | failure {e : EvalError} {env : Env} {accs : List Exact.Accumulator} :
      (∀ operator, e ≠ .overflow operator) → (∀ b ∈ accs, b.Fits) →
      Tracked embed (.error e env) ⟨.error e, env.exact, accs⟩
  | overflow {env : Env} {r : Exact.Run β} {a : Exact.Accumulator}
      (earlier later : List Exact.Accumulator) : r.accumulators = earlier ++ a :: later →
      (∀ b ∈ earlier, b.Fits) → ¬ a.Fits → a.operator ∈ accumulating →
      Tracked embed (.error (.overflow a.operator) env) r

/-- The computation over fixnums follows the one over all integers, from the same bindings. -/
def Tracks (embed : α → β) (x : EvalM α) (y : Exact.EvalM β) : Prop :=
  ∀ env : Env, Tracked embed (x.run env) (y env.exact)

/-- Accumulators that fit may come first. -/
theorem Tracked.prepend {embed : α → β} {s : EStateM.Result EvalError Env α} {r : Exact.Run β}
    (h : Tracked embed s r) {accs : List Exact.Accumulator} (hfit : ∀ b ∈ accs, b.Fits) :
    Tracked embed s ⟨r.result, r.env, accs ++ r.accumulators⟩ := by
  cases h with
  | value h => exact .value (by grind)
  | failure he h => exact .failure he (by grind)
  | overflow earlier later hr h ha hop =>
    exact .overflow (accs ++ earlier) later (by simp [hr]) (by grind) ha hop

theorem Tracked.mem_accumulating {embed : α → β} {operator : String} {env : Env} {r : Exact.Run β}
    (h : Tracked embed (.error (.overflow operator) env) r) : operator ∈ accumulating := by
  generalize hs : EStateM.Result.error (EvalError.overflow operator) env = s at h
  cases h with
  | value => simp at hs
  | failure he => exact absurd (EStateM.Result.error.inj hs).1.symm (he operator)
  | overflow earlier later hr hfit ha hop =>
    obtain ⟨⟨rfl⟩, -⟩ := EStateM.Result.error.inj hs
    exact hop

namespace Tracks

variable {embed : α → β} {embed' : γ → δ}

theorem pure (embed : α → β) (a : α) : Tracks embed (pure a) (pure (embed a)) :=
  fun _ => .value (by simp)

theorem fail {e : EvalError} (he : ∀ operator, e ≠ .overflow operator := by simp) :
    Tracks embed (throw e) (Exact.EvalM.fail e) :=
  fun _ => .failure he (by simp)

theorem bind {x : EvalM α} {y : Exact.EvalM β} {f : α → EvalM γ} {g : β → Exact.EvalM δ}
    (hx : Tracks embed x y) (hf : ∀ a, Tracks embed' (f a) (g (embed a))) :
    Tracks embed' (x >>= f) (y >>= g) := by
  intro env
  have h := hx env
  rw [EStateM.run_bind]
  change Tracked embed' _ (Exact.EvalM.bind y g env.exact)
  unfold Exact.EvalM.bind
  generalize x.run env = s at h
  generalize y env.exact = r at h
  cases h with
  | value hfit => exact (hf _ _).prepend hfit
  | failure he hfit => exact .failure he hfit
  | overflow earlier later hr hfit ha hop =>
    obtain ⟨result, env', accs⟩ := r
    -- the exact run may go on after the overflow, but it keeps the accumulators it has
    cases result with
    | ok b => exact .overflow earlier _ (by simp [show accs = _ from hr]; rfl) hfit ha hop
    | error e => exact .overflow earlier later hr hfit ha hop

/-- An accumulator that fits is the same in both computations, and one that does not is the
overflow. -/
theorem record {operator : String} (hop : operator ∈ accumulating) (result : Except EvalError Int)
    (hresult : ∀ e, result = .error e → ∀ operator, e ≠ .overflow operator) :
    Tracks Fixnum.toInt (ofExcept (result.bind fun n => Operator.fit operator (Fixnum.ofInt? n)))
      (Exact.EvalM.record operator result) := by
  cases result with
  | error e => exact fail (hresult e rfl)
  | ok n =>
    intro env
    cases h : Fixnum.ofInt? n with
    | some a =>
      obtain rfl := Fixnum.ofInt?_eq_some_iff.1 h
      simp only [Except.bind, h]
      refine .value fun b hb => ?_
      obtain rfl := List.mem_singleton.1 hb
      exact ⟨a.min_le, a.lt_max⟩
    | none =>
      have hn := Fixnum.ofInt?_eq_none_iff.1 h
      simp only [Except.bind, h]
      refine .overflow (a := ⟨operator, n⟩) [] [] rfl (by simp) ?_ hop
      rintro ⟨hmin, hmax⟩
      dsimp only at hmin hmax
      omega

end Tracks

/-! ## Operators -/

/-- Both evaluations of the expression go together. -/
def Followed (e : Expr) : Prop := Tracks Value.exact e.eval (Exact.eval e)

theorem Followed.integer {e : Expr} (h : Followed e) (operator : String) :
    Tracks Fixnum.toInt (Operand.integer operator ⟨e, e.eval⟩)
      (Exact.Operand.integer operator ⟨e, Exact.eval e⟩) := by
  refine Tracks.bind h fun v => ?_
  cases v with
  | int n => exact .pure _ n
  | bool b => exact .fail

theorem Followed.boolean {e : Expr} (h : Followed e) (operator : String) :
    Tracks id (Operand.boolean operator ⟨e, e.eval⟩)
      (Exact.Operand.boolean operator ⟨e, Exact.eval e⟩) := by
  refine Tracks.bind h fun v => ?_
  cases v with
  | int n => exact .fail
  | bool b => exact .pure _ b

/-- One after the other, the operands go into accumulators that follow the exact ones. -/
theorem accumulate_tracks {operator : String} (hop : operator ∈ accumulating)
    {combine : Fixnum → Fixnum → Except EvalError Fixnum}
    (combine' : Int → Int → Except EvalError Int)
    (hcombine : ∀ a b, combine a b =
      (combine' a.toInt b.toInt).bind fun n => Operator.fit operator (Fixnum.ofInt? n))
    (herror : ∀ m n e, combine' m n = .error e → ∀ operator, e ≠ .overflow operator)
    {items : List Expr} (hitems : ∀ e ∈ items, Followed e) (start : Fixnum) :
    Tracks Value.exact (Operator.accumulate operator combine start (operands items))
      (Exact.accumulate operator combine' start.toInt (Exact.operands items)) := by
  induction items generalizing start with
  | nil =>
    rw [operands, Operator.accumulate_nil]
    exact .pure Value.exact (.int start)
  | cons e items ih =>
    rw [operands, Operator.accumulate_cons]
    refine .bind ((hitems e (by simp)).integer operator) fun n => ?_
    refine .bind ?_ fun total => ih (fun e he => hitems e (by simp [he])) total
    rw [hcombine]
    exact .record hop _ (herror _ _)

theorem negation_tracks {x : Expr} (hx : Followed x) :
    Tracks Value.exact (Operator.difference (operands [x]))
      (Exact.run .sub (Exact.operands [x])) := by
  simp only [operands, Operator.difference_singleton]
  refine .bind (hx.integer "-") fun a => ?_
  refine .bind (.record (by simp [accumulating]) (.ok (-a.toInt)) (by simp)) fun n => ?_
  exact .pure Value.exact (.int n)

theorem difference_tracks {x y : Expr} {ys : List Expr} (hx : Followed x)
    (hys : ∀ e ∈ y :: ys, Followed e) :
    Tracks Value.exact (Operator.difference (operands (x :: y :: ys)))
      (Exact.run .sub (Exact.operands (x :: y :: ys))) := by
  simp only [operands, Operator.difference_cons_cons]
  refine .bind (hx.integer "-") fun a => ?_
  exact accumulate_tracks (by simp [accumulating]) (fun a b => .ok (a - b)) (fun _ _ => rfl)
    (by simp) hys a

theorem quotient_tracks {x : Expr} {xs : List Expr} (hx : Followed x)
    (hxs : ∀ e ∈ xs, Followed e) :
    Tracks Value.exact (Operator.quotient (operands (x :: xs)))
      (Exact.run .div (Exact.operands (x :: xs))) := by
  rw [operands, Operator.quotient_cons]
  refine .bind (hx.integer "/") fun a => ?_
  refine accumulate_tracks (by simp [accumulating]) _ (fun a b => ?_) (fun m n e h => ?_) hxs a
  · by_cases hb : b.toInt = 0
    · simp [hb, Except.bind]
    · simp [hb, Except.bind, Fixnum.div?]
  · by_cases hn : n = 0
    · obtain rfl : .divisionByZero = e := by simpa [hn] using h
      simp
    · simp [hn] at h

theorem remainder_tracks {x y : Expr} (hx : Followed x) (hy : Followed y) :
    Tracks Value.exact (Operator.remainder (operands [x, y]))
      (Exact.run .mod (Exact.operands [x, y])) := by
  simp only [operands, Operator.remainder_pair]
  refine .bind (hx.integer "%") fun a => .bind (hy.integer "%") fun b => ?_
  by_cases hb : b.toInt = 0
  · simp only [hb, if_true]
    exact .fail
  · simp only [hb, if_false]
    exact .pure Value.exact (.int (a.rem b))

theorem compare_tracks {x y : Expr} (hx : Followed x) (hy : Followed y) (operator : String)
    (holds : Int → Int → Bool) :
    Tracks Value.exact (Operator.compare operator holds (operands [x, y]))
      (Exact.compare operator holds ⟨x, Exact.eval x⟩ ⟨y, Exact.eval y⟩) := by
  simp only [operands, Operator.compare_pair]
  refine .bind (hx.integer operator) fun a => .bind (hy.integer operator) fun b => ?_
  exact .pure Value.exact (.bool (holds a.toInt b.toInt))

theorem equal_tracks {x y : Expr} (hx : Followed x) (hy : Followed y) :
    Tracks Value.exact (Operator.equal (operands [x, y]))
      (Exact.run .eq (Exact.operands [x, y])) := by
  simp only [operands, Operator.equal_pair]
  refine .bind hx fun v => .bind hy fun w => ?_
  simp only [Value.exact_inj]
  exact .pure Value.exact (.bool (decide (v = w)))

theorem definition_tracks {x y : Expr} (hy : Followed y) :
    Tracks Value.exact (Operator.definition (operands [x, y]))
      (Exact.run .define (Exact.operands [x, y])) := by
  simp only [operands, Operator.definition_pair]
  have htarget : Tracks id (ofExcept (Operator.target x))
      (Exact.EvalM.lift (Operator.target x)) := by
    unfold Operator.target
    split
    · exact .fail
    · split
      · exact .fail
      · exact .pure _ _
  refine .bind htarget fun name => .bind hy fun v => ?_
  intro env
  have h : Tracked Value.exact (.ok v (env.insert name v))
      ⟨.ok v.exact, Env.exact (env.insert name v), []⟩ := .value (by simp)
  rw [Env.exact_insert] at h
  exact h

theorem branch_tracks {x y z : Expr} (hx : Followed x) (hy : Followed y) (hz : Followed z) :
    Tracks Value.exact (Operator.branch (operands [x, y, z]))
      (Exact.run .cond (Exact.operands [x, y, z])) := by
  simp only [operands, Operator.branch_triple]
  refine .bind (hx.boolean "if") fun b => ?_
  cases b with
  | true => exact hy
  | false => exact hz

/-- An operator on fixnums follows the same operator on all integers. -/
theorem run_tracks {op : Operator} {items : List Expr} (hop : op.Admitted items)
    (hitems : ∀ e ∈ items, Followed e) :
    Tracks Value.exact (op.run (operands items)) (Exact.run op (Exact.operands items)) := by
  cases hop with
  | add =>
    exact accumulate_tracks (by simp [accumulating]) (fun a b => .ok (a + b)) (fun _ _ => rfl)
      (by simp) hitems .zero
  | mul =>
    exact accumulate_tracks (by simp [accumulating]) (fun a b => .ok (a * b)) (fun _ _ => rfl)
      (by simp) hitems .one
  | neg x => exact negation_tracks (hitems x (by simp))
  | sub x y ys => exact difference_tracks (hitems x (by simp)) fun e he => hitems e (by simp [he])
  | div x xs => exact quotient_tracks (hitems x (by simp)) fun e he => hitems e (by simp [he])
  | mod x y => exact remainder_tracks (hitems x (by simp)) (hitems y (by simp))
  | define x y => exact definition_tracks (hitems y (by simp))
  | cond x y z =>
    exact branch_tracks (hitems x (by simp)) (hitems y (by simp)) (hitems z (by simp))
  | gt x y => exact compare_tracks (hitems x (by simp)) (hitems y (by simp)) ">" fun a b => a > b
  | lt x y => exact compare_tracks (hitems x (by simp)) (hitems y (by simp)) "<" fun a b => a < b
  | eq x y => exact equal_tracks (hitems x (by simp)) (hitems y (by simp))

/-! ## Expressions -/

theorem symbolValue_tracks (name : String) :
    Tracks Value.exact (symbolValue name) (Exact.symbolValue name) := by
  unfold symbolValue Exact.symbolValue Value.constant?
  by_cases htrue : name = "true"
  · simp only [htrue, if_true]
    exact .pure Value.exact (.bool true)
  by_cases hfalse : name = "false"
  · simp only [hfalse, if_true]
    exact .pure Value.exact (.bool false)
  simp only [htrue, hfalse, if_false]
  intro env
  have hget : env.exact[name]? = env[name]?.map Value.exact := env.getElem?_exact name
  change Tracked _ ((ofExcept (env.lookup name) : EvalM Value).run env)
    (Exact.EvalM.lookup name env.exact)
  unfold Env.lookup Exact.EvalM.lookup
  rw [hget]
  cases env[name]? with
  | some v => exact .value (by simp)
  | none => exact .failure (by simp) (by simp)

/-- Evaluation with fixnums follows evaluation over all integers. -/
theorem eval_tracks (e : Expr) : Followed e := by
  induction e with
  | num n => exact .pure Value.exact (.int n)
  | sym name => exact symbolValue_tracks name
  | list items ih =>
    match items with
    | [] => exact .fail
    | .num _ :: _ => exact .fail
    | .list _ :: _ => exact .fail
    | .sym name :: items =>
      have hitems : ∀ e ∈ items, Followed e := fun e he => ih e (by simp [he])
      change Tracks _ (Operator.apply name (operands items))
        (Exact.apply name (Exact.operands items))
      unfold Operator.apply Exact.apply
      rw [length_operands, Exact.length_operands]
      cases Operator.ofName? name with
      | none => exact .fail
      | some op =>
        dsimp only
        split
        · next h => exact run_tracks (Operator.admits_iff.1 h) hitems
        · exact .fail

/-- The value or error of an evaluation and the bindings it leaves, over all integers. -/
def outcome : EStateM.Result EvalError Env Value → Except EvalError Exact.Value × Exact.Env
  | .ok v env => (.ok v.exact, env.exact)
  | .error e env => (.error e, env.exact)

/-- An evaluation overflows exactly if the exact one has an accumulator that does not fit, and then
in the operator of the first one. -/
theorem eval_overflow_iff (e : Expr) (env : Env) (operator : String) :
    (∃ env', e.eval.run env = .error (.overflow operator) env') ↔
      ((Exact.eval e env.exact).accumulators.find? fun a => ¬ a.Fits).map (·.operator) =
        some operator := by
  have h := eval_tracks e env
  generalize e.eval.run env = s at h
  generalize Exact.eval e env.exact = r at h
  cases h with
  | value hfit =>
    rw [List.find?_eq_none.2 (by simpa using hfit)]
    simp
  | failure he hfit =>
    rw [List.find?_eq_none.2 (by simpa using hfit)]
    simp [he]
  | @overflow env' _ a earlier later hr hfit ha _ =>
    have hearlier : earlier.find? (fun b => ¬ b.Fits) = none :=
      List.find?_eq_none.2 (by simpa using hfit)
    rw [hr, List.find?_append, hearlier]
    simp [ha]

/-- No evaluation wraps silently: it overflows, or its value or error and the bindings it leaves are
the exact ones. It overflows only in an operator of which the exact evaluation has an accumulator
that does not fit. -/
theorem eval_overflow_or_exact (e : Expr) (env : Env) :
    ((∃ operator env', e.eval.run env = .error (.overflow operator) env') ∨
      outcome (e.eval.run env) =
        ((Exact.eval e env.exact).result, (Exact.eval e env.exact).env)) ∧
    ∀ operator env', e.eval.run env = .error (.overflow operator) env' →
      operator ∈ accumulating ∧
        ∃ a ∈ (Exact.eval e env.exact).accumulators, a.operator = operator ∧ ¬ a.Fits := by
  have h := eval_tracks e env
  constructor
  · generalize e.eval.run env = s at h
    generalize Exact.eval e env.exact = r at h
    cases h with
    | value => exact .inr rfl
    | failure => exact .inr rfl
    | @overflow env' _ a => exact .inl ⟨a.operator, env', rfl⟩
  · intro operator env' hrun
    rw [hrun] at h
    obtain ⟨a, hfind, rfl⟩ :=
      Option.map_eq_some_iff.1 ((eval_overflow_iff e env operator).1 ⟨env', hrun⟩)
    have hfits : ¬ a.Fits := by simpa using List.find?_some hfind
    exact ⟨h.mem_accumulating, a, List.mem_of_find?_eq_some hfind, rfl, hfits⟩

end LineLisp
