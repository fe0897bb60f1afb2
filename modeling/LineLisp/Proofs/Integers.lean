import LineLisp.Proofs.Nesting
import LineLisp.Proofs.Writes
import Mathlib.Data.List.Perm.Basic

/-!
# Operands that are integers

Where all operands have integers as values, an accumulating operator is an operation on these
integers. It goes on as long as the exact accumulator is a fixnum and the next operand is not
refused, and otherwise it stops and leaves what the operands so far have written.

Operands without definitions have their values in any order.
-/

namespace LineLisp

/-- The environment after the expressions have been evaluated one after the other. -/
def Env.after (env : Env) (es : List Expr) : Env :=
  es.foldl (fun env e => (e.eval.run env).state) env

/-- Whether the integer is from `-2^63` to `2^63 - 1`, and so a fixnum. -/
def InRange (n : Int) : Prop := -0x8000000000000000 ≤ n ∧ n < 0x8000000000000000

instance (n : Int) : Decidable (InRange n) := inferInstanceAs (Decidable (_ ∧ _))

theorem Fixnum.inRange (a : Fixnum) : InRange a.toInt := ⟨a.min_le, a.lt_max⟩

theorem inRange_iff {n : Int} : InRange n ↔ ∃ a : Fixnum, a.toInt = n :=
  ⟨fun h => ⟨⟨n, h.1, h.2⟩, rfl⟩, fun ⟨a, ha⟩ => ha ▸ a.inRange⟩

theorem Operator.fit_of_toInt (operator : String) {n : Int} {a : Fixnum} (h : a.toInt = n) :
    fit operator (Fixnum.ofInt? n) = .ok a := by
  rw [Fixnum.ofInt?_eq_some_iff.2 h]
  rfl

theorem Operator.fit_of_not_inRange (operator : String) {n : Int} (h : ¬ InRange n) :
    fit operator (Fixnum.ofInt? n) = .error (.overflow operator) := by
  rw [Fixnum.ofInt?_eq_none_iff.2 (by unfold InRange at h; omega)]
  rfl

/-- Evaluated one after the other, the expressions have these integers as values. -/
inductive HaveIntegers : Env → List Expr → List Int → Prop
  | nil (env : Env) : HaveIntegers env [] []
  | cons {env env' : Env} {e : Expr} {es : List Expr} {n : Fixnum} {ns : List Int}
    (head : e.eval.run env = .ok (.int n) env') (tail : HaveIntegers env' es ns) :
    HaveIntegers env (e :: es) (n.toInt :: ns)

variable {env env' : Env} {e : Expr} {es : List Expr} {ns : List Int}

theorem Env.after_cons {v : Value} (h : e.eval.run env = .ok v env') :
    env.after (e :: es) = env'.after es := by
  simp [after, h]

/-- The expressions split where their integers do. -/
theorem HaveIntegers.exists_split {before after : List Int} {n : Int}
    (h : HaveIntegers env es (before ++ n :: after)) :
    ∃ (xs ys : List Expr) (e : Expr) (b : Fixnum), es = xs ++ e :: ys ∧
      HaveIntegers env xs before ∧ b.toInt = n ∧
      e.eval.run (env.after xs) = .ok (.int b) (env.after (es.take (before.length + 1))) := by
  induction before generalizing env es with
  | nil =>
    cases h with
    | @cons _ env' e ys b _ head tail =>
      refine ⟨[], ys, e, b, rfl, .nil env, rfl, ?_⟩
      simp [Env.after, head]
  | cons m before ih =>
    cases h with
    | @cons _ env' x es b _ head tail =>
      obtain ⟨xs, ys, e, c, rfl, hxs, hc, he⟩ := ih tail
      refine ⟨x :: xs, ys, e, c, rfl, .cons head hxs, hc, ?_⟩
      rw [List.length_cons, List.take_succ_cons, Env.after_cons head, Env.after_cons head]
      exact he

/-! ## Accumulators -/

section

open Operator

variable (operator : String) {combine : Fixnum → Fixnum → Except EvalError Fixnum}

theorem accumulate_run_cons {n : Fixnum} (h : e.eval.run env = .ok (.int n) env') (start : Fixnum)
    (es : List Expr) :
    (accumulate operator combine start (operands (e :: es))).run env =
      match combine start n with
      | .ok total => (accumulate operator combine total (operands es)).run env'
      | .error err => .error err env' := by
  simp only [operands, accumulate_cons, Operand.integer, bind_assoc, EStateM.run_bind, h]
  change EStateM.run (ofExcept (combine start n) >>= _) env' = _
  cases combine start n <;> rfl

/-- If every exact accumulator is a fixnum and no operand is refused, the last of them is the value
and all operands have been evaluated. -/
theorem HaveIntegers.accumulate_eq_ok (h : HaveIntegers env es ns) (f : Int → Int → Int)
    (hcombine : ∀ a b c : Fixnum, b.toInt ∈ ns → c.toInt = f a.toInt b.toInt → combine a b = .ok c)
    (start : Fixnum) (hrange : ∀ k, InRange ((ns.take k).foldl f start.toInt)) :
    ∃ total : Fixnum, total.toInt = ns.foldl f start.toInt ∧
      (accumulate operator combine start (operands es)).run env =
        .ok (.int total) (env.after es) := by
  -- Each operand makes the accumulator of the first prefix the start for the others.
  induction h generalizing start with
  | nil env => exact ⟨start, rfl, rfl⟩
  | @cons env env' e es n ns head tail ih =>
    obtain ⟨next, hnext⟩ := inRange_iff.1 (hrange 1)
    have hnext : next.toInt = f start.toInt n.toInt := hnext
    have hstep : combine start n = .ok next := hcombine start n next (by simp) hnext
    obtain ⟨total, htotal, hrun⟩ := ih (fun a b c hb => hcombine a b c (by simp [hb])) next
      fun k => by simpa [hnext] using hrange (k + 1)
    refine ⟨total, by simpa [hnext] using htotal, ?_⟩
    rw [accumulate_run_cons operator head, hstep, Env.after_cons head]
    exact hrun

/-- Where an operand is refused by what has been accumulated before it, no other operand is
evaluated. -/
theorem HaveIntegers.accumulate_eq_error {before after : List Int} {n : Int}
    (h : HaveIntegers env es (before ++ n :: after)) (f : Int → Int → Int)
    (hcombine : ∀ a b c : Fixnum, b.toInt ∈ before → c.toInt = f a.toInt b.toInt →
      combine a b = .ok c)
    (start : Fixnum) (hrange : ∀ k, InRange ((before.take k).foldl f start.toInt))
    {err : EvalError} (hstop : ∀ a b : Fixnum, a.toInt = before.foldl f start.toInt → b.toInt = n →
      combine a b = .error err) :
    (accumulate operator combine start (operands es)).run env =
      .error err (env.after (es.take (before.length + 1))) := by
  obtain ⟨xs, ys, e, b, hes, hxs, hb, he⟩ := h.exists_split
  obtain ⟨total, htotal, hrun⟩ := hxs.accumulate_eq_ok operator f hcombine start hrange
  have hinteger : (Operand.integer operator
      ⟨e, accumulate operator combine start (operands xs)⟩).run env =
        .ok total (env.after xs) := by
    rw [Operand.integer, EStateM.run_bind, hrun]
    rfl
  -- The operands before the refused one are accumulated on their own.
  generalize env.after (es.take (before.length + 1)) = env' at he ⊢
  rw [hes, operands_append, accumulate_append operator combine e, EStateM.run_bind, hinteger]
  dsimp only
  rw [accumulate_run_cons operator he, hstop total b htotal hb]

end

/-! ## Operands without definitions -/

theorem eval_state_of_targets (h : e.targets = []) (env : Env) : (e.eval.run env).state = env := by
  obtain ⟨writes, -, hsub, hstate⟩ := eval_leads e env
  have hnone : e.definitions = [] := List.map_eq_nil_iff.1 h
  rw [hnone, List.sublist_nil, List.map_eq_nil_iff] at hsub
  rw [hstate, hsub]
  rfl

theorem Env.after_of_targets (h : ∀ e ∈ es, e.targets = []) (env : Env) : env.after es = env := by
  induction es with
  | nil => rfl
  | cons e es ih =>
    rw [List.forall_mem_cons] at h
    change ((e.eval.run env).state).after es = env
    rw [eval_state_of_targets h.1]
    exact ih h.2

/-- Without definitions each expression has its integer in the first environment. -/
theorem haveIntegers_iff_forall₂ (h : ∀ e ∈ es, e.targets = []) :
    HaveIntegers env es ns ↔
      List.Forall₂ (fun e n => ∃ a : Fixnum, a.toInt = n ∧ e.eval.run env = .ok (.int a) env)
        es ns := by
  induction es generalizing ns with
  | nil =>
    constructor
    · rintro ⟨⟩
      exact .nil
    · rintro ⟨⟩
      exact .nil env
  | cons e es ih =>
    rw [List.forall_mem_cons] at h
    constructor
    · rintro (_ | ⟨head, tail⟩)
      have hstate := eval_state_of_targets h.1 env
      rw [head, EStateM.Result.state_ok] at hstate
      subst hstate
      exact .cons ⟨_, rfl, head⟩ ((ih h.2).1 tail)
    · rintro (_ | ⟨⟨a, rfl, head⟩, tail⟩)
      exact .cons head ((ih h.2).2 tail)

/-- Without definitions the expressions have their integers in any order. -/
theorem HaveIntegers.perm (h : HaveIntegers env es ns) (hfree : ∀ e ∈ es, e.targets = [])
    {es' : List Expr} (hperm : es'.Perm es) : ∃ ns', HaveIntegers env es' ns' ∧ ns'.Perm ns := by
  obtain ⟨ns', hvalues, hns⟩ := List.perm_comp_forall₂ hperm ((haveIntegers_iff_forall₂ hfree).1 h)
  exact ⟨ns', (haveIntegers_iff_forall₂ fun e he => hfree e (hperm.mem_iff.1 he)).2 hvalues, hns⟩

end LineLisp
