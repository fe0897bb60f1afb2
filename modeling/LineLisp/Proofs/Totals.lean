import LineLisp.Proofs.Integers
import Mathlib.Algebra.BigOperators.Group.List.Basic
import Mathlib.Algebra.Order.Ring.Int
import Mathlib.Data.Nat.Find

/-!
# Sums and products

A sum of integers is the sum of mathematics as long as every prefix of the operands has a sum that
is a fixnum. The first prefix that has none is an overflow, although the operands after it might
bring the sum back. These are not evaluated. The same goes for products.

So the order of operands decides whether there is an overflow, but not what the value is.
-/

namespace LineLisp

open Operator

/-- The operators that take any number of operands, with their meaning over all integers. -/
inductive Variadic : Operator → (List Int → Int) → Prop
  | sum : Variadic .add List.sum
  | product : Variadic .mul List.prod

namespace Variadic

variable {op : Operator} {meaning : List Int → Int}

/-- The operator accumulates the results of an exact operation, which has to fit. -/
theorem exists_accumulate (hop : Variadic op meaning) :
    ∃ (f : Int → Int → Int) (start : Fixnum), (∀ ns, meaning ns = ns.foldl f start.toInt) ∧
      ∀ es, (Expr.list (.sym op.name :: es)).eval =
        accumulate op.name (fun a b => fit op.name (Fixnum.ofInt? (f a.toInt b.toInt))) start
          (operands es) := by
  cases hop with
  | sum =>
    refine ⟨(· + ·), .zero, fun ns => List.sum_eq_foldl, fun es => ?_⟩
    exact eval_apply_of_admits (admits_iff.2 (.add es))
  | product =>
    refine ⟨(· * ·), .one, fun ns => List.prod_eq_foldl, fun es => ?_⟩
    exact eval_apply_of_admits (admits_iff.2 (.mul es))

theorem meaning_perm (hop : Variadic op meaning) {ns ns' : List Int} (h : ns.Perm ns') :
    meaning ns = meaning ns' := by
  cases hop with
  | sum => exact h.sum_eq
  | product => exact h.prod_eq

variable (hop : Variadic op meaning) {env : Env} {es : List Expr} {ns : List Int}
  (h : HaveIntegers env es ns)
include hop h

/-- With every prefix in range the value is the exact one. -/
theorem eval_eq_ok (hrange : ∀ k, InRange (meaning (ns.take k))) :
    ∃ total : Fixnum, total.toInt = meaning ns ∧
      (Expr.list (.sym op.name :: es)).eval.run env = .ok (.int total) (env.after es) := by
  obtain ⟨f, start, hmeaning, heval⟩ := hop.exists_accumulate
  simp only [hmeaning] at hrange ⊢
  rw [heval]
  exact h.accumulate_eq_ok op.name f (fun a b c _ hc => fit_of_toInt op.name hc) start hrange

/-- The first prefix that is not in range is an overflow at its last operand. -/
theorem eval_eq_overflow {k : Nat} (hbefore : ∀ j < k, InRange (meaning (ns.take j)))
    (hk : ¬ InRange (meaning (ns.take k))) :
    (Expr.list (.sym op.name :: es)).eval.run env =
      .error (.overflow op.name) (env.after (es.take k)) := by
  obtain ⟨f, start, hmeaning, heval⟩ := hop.exists_accumulate
  simp only [hmeaning] at hbefore hk
  rw [heval]
  cases k with
  | zero => exact absurd start.inRange hk
  | succ j =>
    have hj : j < ns.length := by
      by_contra hle
      have hall (i : Nat) (hi : j ≤ i) : ns.take i = ns := List.take_of_length_le (by omega)
      rw [hall (j + 1) (by omega), ← hall j le_rfl] at hk
      exact hk (hbefore j (by omega))
    obtain ⟨before, n, after, rfl, rfl⟩ :
        ∃ before n after, ns = before ++ n :: after ∧ before.length = j :=
      ⟨ns.take j, ns[j], ns.drop (j + 1), by simp, by simp [hj.le]⟩
    have hlast : ¬ InRange (f (before.foldl f start.toInt) n) := by
      simpa [List.take_length_add_append 1] using hk
    refine h.accumulate_eq_error op.name f (fun a b c _ hc => fit_of_toInt op.name hc) start ?_ ?_
    · intro i
      have hprefix := hbefore (min i before.length) (by omega)
      rwa [List.take_append_of_le_length (by omega), ← List.take_take, List.take_length] at hprefix
    · intro a b ha hb
      rw [ha, hb]
      exact fit_of_not_inRange op.name hlast

/-- The application is exact, or it overflows at some operand. -/
theorem eval_exact_or_overflow :
    (∃ total : Fixnum, total.toInt = meaning ns ∧
      (Expr.list (.sym op.name :: es)).eval.run env = .ok (.int total) (env.after es)) ∨
    ∃ k, (Expr.list (.sym op.name :: es)).eval.run env =
      .error (.overflow op.name) (env.after (es.take k)) := by
  by_cases hrange : ∀ k, InRange (meaning (ns.take k))
  · exact .inl (hop.eval_eq_ok h hrange)
  · push Not at hrange
    refine .inr ⟨Nat.find hrange, hop.eval_eq_overflow h (fun j hj => ?_) (Nat.find_spec hrange)⟩
    exact not_not.1 (Nat.find_min hrange hj)

end Variadic

/-- A sum of operands that are integers has the exact sum as its value if every prefix of them has a
sum in range. Otherwise it overflows, and leaves the environment as it is after the last operand of
the first prefix that has none. If the operands contain no definitions, they can be permuted, and
there is the exact sum or an overflow again. The same holds of products. -/
theorem eval_sum_or_product {op : Operator} {meaning : List Int → Int}
    (hop : Variadic op meaning) {env : Env} {es : List Expr} {ns : List Int}
    (h : HaveIntegers env es ns) :
    ((∀ k, InRange (meaning (ns.take k))) → ∃ total : Fixnum, total.toInt = meaning ns ∧
      (Expr.list (.sym op.name :: es)).eval.run env = .ok (.int total) (env.after es)) ∧
    (∀ k, (∀ j < k, InRange (meaning (ns.take j))) → ¬ InRange (meaning (ns.take k)) →
      (Expr.list (.sym op.name :: es)).eval.run env =
        .error (.overflow op.name) (env.after (es.take k))) ∧
    ((∀ e ∈ es, e.targets = []) → ∀ es' : List Expr, es'.Perm es →
      (∃ total : Fixnum, total.toInt = meaning ns ∧
        (Expr.list (.sym op.name :: es')).eval.run env = .ok (.int total) env) ∨
      (Expr.list (.sym op.name :: es')).eval.run env = .error (.overflow op.name) env) := by
  refine ⟨hop.eval_eq_ok h, fun k => hop.eval_eq_overflow h, fun hfree es' hperm => ?_⟩
  obtain ⟨ns', h', hns⟩ := h.perm hfree hperm
  have hfree' : ∀ e ∈ es', e.targets = [] := fun e he => hfree e (hperm.mem_iff.1 he)
  rw [← hop.meaning_perm hns]
  obtain hvalue | ⟨k, hoverflow⟩ := hop.eval_exact_or_overflow h'
  · rw [Env.after_of_targets hfree'] at hvalue
    exact .inl hvalue
  · rw [Env.after_of_targets fun e he => hfree' e (List.mem_of_mem_take he)] at hoverflow
    exact .inr hoverflow

/-- After the greatest fixnum, `(define x 1)` overflows a sum, so that `(define y 1)` is not
evaluated. The product of zero and two great numbers is zero in this order, and zero or an overflow
in every other. -/
theorem eval_sum_or_product_greatest :
    let greatest : Fixnum := ⟨0x7FFFFFFFFFFFFFFF, by decide, by decide⟩
    let define (name : String) : Expr := .list [.sym "define", .sym name, .num .one]
    (Expr.list [.sym "+", .num greatest, define "x", define "y"]).eval.run ∅ =
      .error (.overflow "+") ((∅ : Env).insert "x" (.int .one)) ∧
    (∃ total : Fixnum, total.toInt = 0 ∧
      (Expr.list [.sym "*", .num .zero, .num greatest, .num greatest]).eval.run ∅ =
        .ok (.int total) ∅) ∧
    ((∃ total : Fixnum, total.toInt = 0 ∧
      (Expr.list [.sym "*", .num greatest, .num greatest, .num .zero]).eval.run ∅ =
        .ok (.int total) ∅) ∨
      (Expr.list [.sym "*", .num greatest, .num greatest, .num .zero]).eval.run ∅ =
        .error (.overflow "*") ∅) := by
  intro greatest define
  have hsum : HaveIntegers ∅ [.num greatest, define "x", define "y"]
      [greatest.toInt, Fixnum.one.toInt, Fixnum.one.toInt] :=
    .cons rfl (.cons rfl (.cons rfl (.nil _)))
  have hproduct : HaveIntegers ∅ [.num .zero, .num greatest, .num greatest]
      [Fixnum.zero.toInt, greatest.toInt, greatest.toInt] :=
    .cons rfl (.cons rfl (.cons rfl (.nil _)))
  refine ⟨?_, ?_, ?_⟩
  · exact (eval_sum_or_product .sum hsum).2.1 2 (by decide) (by decide)
  · refine (eval_sum_or_product .product hproduct).1 fun k => ?_
    rcases k with _ | _ | _ | k <;> simp [InRange]
  · have hperm : ([.num greatest, .num greatest] ++ [.num .zero] : List Expr).Perm
        ([.num .zero] ++ [.num greatest, .num greatest]) := List.perm_append_comm
    refine (eval_sum_or_product .product hproduct).2.2 ?_ _ hperm
    simp [Expr.targets, Expr.definitions]

end LineLisp
