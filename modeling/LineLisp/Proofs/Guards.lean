import LineLisp.Proofs.Provenance

/-!
# Operators that count their operands themselves

An application counts the operands before the operator runs, and the operator counts them once more
when it takes them apart. Both come to the same end: an operator that is run without the first check
refuses the same numbers of operands, with the same error and before it evaluates any of them.
-/

namespace LineLisp

namespace Operand

variable {α : Type} (operator : String) {xs : List α}

theorem first_of_not_admits (h : ¬ (Arity.atLeast 1).admits xs.length) :
    first operator xs = .error (.arity operator (.atLeast 1) xs.length) := by
  cases xs with
  | nil => rfl
  | cons x xs => simp [Arity.admits] at h

theorem pair_of_not_admits (h : ¬ (Arity.exactly 2).admits xs.length) :
    pair operator xs = .error (.arity operator (.exactly 2) xs.length) := by
  unfold pair
  split
  · simp [Arity.admits] at h
  · rfl

theorem triple_of_not_admits (h : ¬ (Arity.exactly 3).admits xs.length) :
    triple operator xs = .error (.arity operator (.exactly 3) xs.length) := by
  unfold triple
  split
  · simp [Arity.admits] at h
  · rfl

end Operand

namespace Operator

/-! ## Guards -/

/-- The handler refuses operands of a number that the arity does not admit, whatever they are. -/
def Guarded (operator : String) (arity : Arity) (handler : List Operand → EvalM Value) : Prop :=
  ∀ xs : List Operand, ¬ arity.admits xs.length →
    handler xs = throw (.arity operator arity xs.length)

namespace Guarded

theorem atLeast_zero (operator : String) (handler : List Operand → EvalM Value) :
    Guarded operator (.atLeast 0) handler := by
  intro xs h
  simp [Arity.admits] at h

/-- A handler that first takes the operands apart, where this fails. -/
theorem bind {α : Type} {operator : String} {arity : Arity}
    {split : List Operand → Except EvalError α}
    (hsplit : ∀ xs, ¬ arity.admits xs.length → split xs = .error (.arity operator arity xs.length))
    (next : α → EvalM Value) : Guarded operator arity fun xs => ofExcept (split xs) >>= next := by
  intro xs h
  dsimp only
  rw [hsplit xs h]
  rfl

variable (operator : String)

theorem first (next : Operand × List Operand → EvalM Value) :
    Guarded operator (.atLeast 1) fun xs => ofExcept (Operand.first operator xs) >>= next :=
  bind (fun _ => Operand.first_of_not_admits operator) next

theorem pair (next : Operand × Operand → EvalM Value) :
    Guarded operator (.exactly 2) fun xs => ofExcept (Operand.pair operator xs) >>= next :=
  bind (fun _ => Operand.pair_of_not_admits operator) next

theorem triple (next : Operand × Operand × Operand → EvalM Value) :
    Guarded operator (.exactly 3) fun xs => ofExcept (Operand.triple operator xs) >>= next :=
  bind (fun _ => Operand.triple_of_not_admits operator) next

theorem compare (holds : Int → Int → Bool) :
    Guarded operator (.exactly 2) (compare operator holds) :=
  pair operator _

end Guarded

/-- Every operator is guarded by its own name and arity. -/
theorem guarded_run (op : Operator) : Guarded op.name op.arity op.run := by
  cases op with
  | add => exact .atLeast_zero "+" sum
  | mul => exact .atLeast_zero "*" product
  | sub => exact .first "-" _
  | div => exact .first "/" _
  | mod => exact .pair "%" _
  | define => exact .pair "define" _
  | cond => exact .triple "if" _
  | gt => exact .compare ">" fun a b => a > b
  | lt => exact .compare "<" fun a b => a < b
  | eq => exact .pair "=" _

/-- The check of an application changes nothing. -/
theorem run_eq_apply (op : Operator) (xs : List Operand) : op.run xs = apply op.name xs := by
  unfold apply
  rw [ofName?_name]
  dsimp only
  split
  · rfl
  · next hadmits => exact op.guarded_run xs hadmits

/-! ## Numbers of operands that are admitted -/

theorem not_admits_of_raises {op : Operator} {items : List Expr} {operator : String}
    {expected : Arity} {actual : Nat}
    (h : Expr.Raises (.sym op.name :: items) (.arity operator expected actual)) :
    ¬ op.arity.admits items.length := by
  generalize hlist : Expr.sym op.name :: items = list at h
  cases h with
  | @arity op' items' h =>
    obtain ⟨hhead, rfl⟩ := List.cons.inj hlist
    have hname : op.name = op'.name := Expr.sym.inj hhead
    obtain rfl : op' = op := by
      simpa [ofName?_name] using ofName?_eq_some_iff.2 hname
    exact h

/-- Where the operator admits the number of operands, an arity error is that of an operand. -/
theorem exists_item_of_arity {op : Operator} {items : List Expr} {env env' : Env}
    {operator : String} {expected : Arity} {actual : Nat} (hadmits : op.arity.admits items.length)
    (h : (op.run (operands items)).run env = .error (.arity operator expected actual) env') :
    ∃ e ∈ items, ∃ env₁, e.eval.run env₁ = .error (.arity operator expected actual) env' := by
  have houtcome := eval_list_outcome (.sym op.name :: items) env
  rw [Expr.eval, ← run_eq_apply, h] at houtcome
  obtain ⟨hends⟩ := houtcome
  cases hends with
  | raised _ _ herr => exact absurd hadmits (not_admits_of_raises herr)
  | @failed _ e env₁ _ _ _ he hsub =>
    have hmem := hsub.subset (List.mem_append_right _ (List.mem_singleton_self e))
    obtain rfl | hmem := List.mem_cons.1 hmem
    · -- a symbol can be undefined, but has no operands
      obtain ⟨herr, -⟩ := symbolValue_error he
      cases herr
    · exact ⟨e, hmem, env₁, he⟩

/-- An operator that is run without the check of an application gives what the application gives
and leaves the same environment. A number of operands that its arity does not admit is the same
error in both, and changes nothing. It refuses no other number: an arity error is then that of an
operand. -/
theorem run_agrees_with_apply (op : Operator) (items : List Expr) (env : Env) :
    (op.run (operands items)).run env = (apply op.name (operands items)).run env ∧
    (¬ op.arity.admits items.length →
      (op.run (operands items)).run env = .error (.arity op.name op.arity items.length) env ∧
      (apply op.name (operands items)).run env =
        .error (.arity op.name op.arity items.length) env) ∧
    (op.arity.admits items.length → ∀ operator expected actual env',
      (op.run (operands items)).run env = .error (.arity operator expected actual) env' →
        ∃ e ∈ items, ∃ env₁,
          e.eval.run env₁ = .error (.arity operator expected actual) env') := by
  have hsame := op.run_eq_apply (operands items)
  refine ⟨by rw [hsame], fun h => ?_, fun h _ _ _ _ => exists_item_of_arity h⟩
  have hrefused := op.guarded_run (operands items) (by rwa [length_operands])
  rw [length_operands] at hrefused
  rw [← hsame, hrefused]
  exact ⟨rfl, rfl⟩

end Operator

end LineLisp
