import LineLisp.Proofs.Application

/-!
# Operators as scans

All operators but `define` and `if` evaluate their operands from left to right. After each of them
they look at its value, beside the values before it, and go on or reject it. So they differ only in
what they reject and in what they make of the values in the end, and both can be said of the exact
sums, differences, products and quotients.

## Main definitions

- `Operator.eager`: the operators that evaluate all of their operands.
- `Operator.total`: what an operator has accumulated so far, as an exact integer.
- `Operator.objection?`: why an operator rejects the value of an operand.
- `Operator.scan`: the evaluation of operands up to the first that fails or is rejected.
-/

namespace LineLisp

/-- The integers among values. -/
def Value.integers (vs : List Value) : List Int :=
  vs.filterMap fun
    | .int n => some n.toInt
    | .bool _ => none

namespace Operator

/-- The operators that evaluate all of their operands. -/
def eager : List Operator := [.add, .sub, .mul, .div, .mod, .gt, .lt, .eq]

/-- What an operator with `count` operands has accumulated from the integers so far. It is not
limited to fixnums. -/
def total (count : Nat) : Operator → List Int → Int
  | .add, ns => ns.foldl (· + ·) 0
  | .sub, n :: ns => if count = 1 then -n else ns.foldl (· - ·) n
  | .mul, ns => ns.foldl (· * ·) 1
  | .div, n :: ns => ns.foldl Int.tdiv n
  | _, _ => 0

/-- Why an operator with `count` operands rejects the value of an operand, after the values of the
operands before it: the value is of the wrong kind, it is a zero that divides, or the accumulated
integer is no fixnum. -/
def objection? (count : Nat) (op : Operator) (seen : List Value) : Value → Option EvalError
  | .bool _ => if op = .eq then none else some (.kind op.name .integer .boolean)
  | .int n =>
    if n.toInt = 0 ∧ seen ≠ [] ∧ op = .div then some .divisionByZero
    else if n.toInt = 0 ∧ seen ≠ [] ∧ op = .mod then some .moduloByZero
    else if (Fixnum.ofInt? (op.total count (Value.integers (seen ++ [.int n])))).isSome then none
    else some (.overflow op.name)

theorem objection?_eq_none {count : Nat} {op : Operator} {seen : List Value} {n b : Fixnum}
    (hzero : n.toInt = 0 → seen ≠ [] → op ≠ .div ∧ op ≠ .mod)
    (htotal : op.total count (Value.integers (seen ++ [.int n])) = b.toInt) :
    op.objection? count seen (.int n) = none := by
  grind [objection?, Fixnum.ofInt?_toInt]

/-- An operator that only compares its operands accepts every integer. -/
theorem objection?_of_mem_comparing (op : Operator) (h : op ∈ [.gt, .lt, .eq]) (count : Nat)
    (seen : List Value) (n : Fixnum) : op.objection? count seen (.int n) = none := by
  simp only [List.mem_cons, List.not_mem_nil, or_false] at h
  rcases h with rfl | rfl | rfl <;> exact objection?_eq_none (b := .zero) (by simp) rfl

/-- Evaluates operands from left to right, up to the first that fails or is rejected, and returns
the values behind those that were seen before. -/
def scan (count : Nat) (op : Operator) : List Value → List Expr → EvalM (List Value)
  | seen, [] => pure seen
  | seen, e :: es => do
    let v ← e.eval
    match op.objection? count seen v with
    | some err => throw err
    | none => scan count op (seen ++ [v]) es

/-- What an operator with `count` operands makes of their values. -/
def result (count : Nat) : Operator → List Value → Value
  | .mod, [.int a, .int b] => .int (a.rem b)
  | .gt, [.int a, .int b] => .bool (a.toInt > b.toInt)
  | .lt, [.int a, .int b] => .bool (a.toInt < b.toInt)
  | .eq, [v, w] => .bool (v = w)
  | op, vs => .int ((Fixnum.ofInt? (op.total count (Value.integers vs))).getD .zero)

theorem scan_append (count : Nat) (op : Operator) (seen : List Value) (es es' : List Expr) :
    op.scan count seen (es ++ es') = (do
      let seen ← op.scan count seen es
      op.scan count seen es') := by
  induction es generalizing seen with
  | nil => simp [scan]
  | cons e es ih =>
    simp only [List.cons_append, scan, bind_assoc]
    congr! 2 with v
    cases op.objection? count seen v with
    | some err => rfl
    | none => exact ih (seen ++ [v])

/-! ## Accumulators -/

/-- How an operator goes on from an accumulated fixnum. -/
def combine : Operator → Fixnum → Fixnum → Except EvalError Fixnum
  | .add, a, b => fit "+" (a.add? b)
  | .sub, a, b => fit "-" (a.sub? b)
  | .mul, a, b => fit "*" (a.mul? b)
  | .div, a, b => if b.toInt = 0 then .error .divisionByZero else fit "/" (a.div? b)
  | _, a, _ => .ok a

/-- The operator has accumulated the fixnum from the values so far. A difference and a quotient
start from the first of several operands. -/
inductive Accumulated (count : Nat) : Operator → List Value → Fixnum → Prop
  | add {seen : List Value} {a : Fixnum} (h : (Value.integers seen).foldl (· + ·) 0 = a.toInt) :
    Accumulated count .add seen a
  | sub {seen : List Value} {a : Fixnum} (first : Int) (ns : List Int) (hcount : count ≠ 1)
    (hseen : Value.integers seen = first :: ns) (h : ns.foldl (· - ·) first = a.toInt) :
    Accumulated count .sub seen a
  | mul {seen : List Value} {a : Fixnum} (h : (Value.integers seen).foldl (· * ·) 1 = a.toInt) :
    Accumulated count .mul seen a
  | div {seen : List Value} {a : Fixnum} (first : Int) (ns : List Int)
    (hseen : Value.integers seen = first :: ns) (h : ns.foldl Int.tdiv first = a.toInt) :
    Accumulated count .div seen a

theorem integers_concat (seen : List Value) (n : Fixnum) :
    Value.integers (seen ++ [.int n]) = Value.integers seen ++ [n.toInt] := by
  simp [Value.integers]

namespace Accumulated

variable {count : Nat} {op : Operator} {seen : List Value} {a : Fixnum}

theorem result_eq (h : Accumulated count op seen a) : op.result count seen = .int a := by
  cases h with
  | add h => simp [result, total, h]
  | sub first ns hcount hseen h => simp [result, total, hseen, hcount, h]
  | mul h => simp [result, total, h]
  | div first ns hseen h => simp [result, total, hseen, h]

theorem ne_eq (h : Accumulated count op seen a) : op ≠ .eq := by
  rintro rfl
  cases h

/-- An integer whose exact total is known is accumulated or overflows. -/
theorem step_of_total {n : Fixnum} (next : Int)
    (hobjection : op.objection? count seen (.int n) =
      if (Fixnum.ofInt? next).isSome then none else some (.overflow op.name))
    (hcombine : op.combine a n = fit op.name (Fixnum.ofInt? next))
    (hnext : ∀ b : Fixnum, b.toInt = next → Accumulated count op (seen ++ [.int n]) b) :
    (∃ b, op.objection? count seen (.int n) = none ∧ op.combine a n = .ok b ∧
      Accumulated count op (seen ++ [.int n]) b) ∨
    ∃ err, op.objection? count seen (.int n) = some err ∧ op.combine a n = .error err := by
  cases hfit : Fixnum.ofInt? next with
  | some b =>
    rw [hfit] at hobjection hcombine
    exact .inl ⟨b, hobjection, hcombine, hnext b (Fixnum.ofInt?_eq_some_iff.1 hfit)⟩
  | none =>
    rw [hfit] at hobjection hcombine
    exact .inr ⟨_, hobjection, hcombine⟩

/-- The next integer is accumulated, unless it is rejected. -/
theorem step (h : Accumulated count op seen a) (n : Fixnum) :
    (∃ b, op.objection? count seen (.int n) = none ∧ op.combine a n = .ok b ∧
      Accumulated count op (seen ++ [.int n]) b) ∨
    ∃ err, op.objection? count seen (.int n) = some err ∧ op.combine a n = .error err := by
  have hconcat := integers_concat seen n
  cases h with
  | add h =>
    refine step_of_total (a.toInt + n.toInt) ?_ rfl fun b hb => .add ?_
    · simp [objection?, total, hconcat, h]
    · simp [hconcat, h, hb]
  | sub first ns hcount hseen h =>
    refine step_of_total (a.toInt - n.toInt) ?_ rfl fun b hb =>
      .sub first (ns ++ [n.toInt]) hcount ?_ ?_
    · simp [objection?, total, hconcat, hseen, hcount, h]
    · simp [hconcat, hseen]
    · simp [h, hb]
  | mul h =>
    refine step_of_total (a.toInt * n.toInt) ?_ rfl fun b hb => .mul ?_
    · simp [objection?, total, hconcat, h]
    · simp [hconcat, h, hb]
  | div first ns hseen h =>
    have hne : seen ≠ [] := by
      rintro rfl
      simp [Value.integers] at hseen
    by_cases hn : n.toInt = 0
    · exact .inr ⟨.divisionByZero, by simp [objection?, hn, hne], by simp [combine, hn]⟩
    · refine step_of_total (a.toInt.tdiv n.toInt) ?_ ?_ fun b hb =>
        .div first (ns ++ [n.toInt]) ?_ ?_
      · simp [objection?, total, hconcat, hseen, hn, h]
      · simp [combine, hn, name, Fixnum.div?]
      · simp [hconcat, hseen]
      · simp [h, hb]

end Accumulated

/-! ## Applications -/

section

variable {count : Nat} {seen : List Value} {e : Expr} {items : List Expr}

/-- An operand that has to be an integer is the next one of a scan. -/
theorem integer_bind_eq_scan (op : Operator) (hop : op ≠ .eq) {f : Fixnum → EvalM Value}
    {g : List Value → EvalM Value}
    (hf : ∀ n, f n = match op.objection? count seen (.int n) with
      | some err => throw err
      | none => op.scan count (seen ++ [.int n]) items >>= g) :
    Operand.integer op.name ⟨e, e.eval⟩ >>= f = op.scan count seen (e :: items) >>= g := by
  simp only [Operand.integer, scan, bind_assoc]
  congr! 2 with v
  cases v with
  | bool b =>
    simp only [Value.integer, objection?, if_neg hop]
    rfl
  | int n =>
    change f n = _
    rw [hf]
    cases op.objection? count seen (.int n) <;> rfl

/-- Accumulating operands is a scan of them. -/
theorem Accumulated.accumulate_eq_scan {op : Operator} {a : Fixnum}
    (h : Accumulated count op seen a) (items : List Expr) :
    accumulate op.name op.combine a (operands items) =
      op.scan count seen items >>= fun vs => pure (op.result count vs) := by
  induction items generalizing seen a with
  | nil => rw [operands, accumulate_nil, scan, pure_bind, h.result_eq]
  | cons e items ih =>
    rw [operands, accumulate_cons]
    refine integer_bind_eq_scan op h.ne_eq fun n => ?_
    obtain ⟨b, hobjection, hcombine, hnext⟩ | ⟨err, hobjection, hcombine⟩ := h.step n
    · rw [hobjection, hcombine]
      exact ih hnext
    · rw [hobjection, hcombine]
      rfl

/-- Where the first operand is only a start, it is not rejected. -/
theorem first_eq_scan (op : Operator) (h : ∀ a, Accumulated count op [.int a] a)
    (hstart : ∀ a, op.objection? count [] (.int a) = none) (e : Expr) (items : List Expr) :
    (Operand.integer op.name ⟨e, e.eval⟩ >>= fun a =>
      accumulate op.name op.combine a (operands items)) =
      op.scan count [] (e :: items) >>= fun vs => pure (op.result count vs) := by
  refine integer_bind_eq_scan op (h .zero).ne_eq fun a => ?_
  rw [hstart]
  exact (h a).accumulate_eq_scan items

/-- Two integers of which only the second may be rejected. -/
theorem pair_eq_scan (op : Operator) (hop : op ≠ .eq)
    (hfirst : ∀ a, op.objection? 2 [] (.int a) = none) {f : Fixnum → Fixnum → EvalM Value}
    (hf : ∀ a b, f a b = match op.objection? 2 [.int a] (.int b) with
      | some err => throw err
      | none => pure (op.result 2 [.int a, .int b])) (x y : Expr) :
    (do let a ← Operand.integer op.name ⟨x, x.eval⟩
        let b ← Operand.integer op.name ⟨y, y.eval⟩
        f a b) = op.scan 2 [] [x, y] >>= fun vs => pure (op.result 2 vs) := by
  refine integer_bind_eq_scan op hop fun a => ?_
  rw [hfirst]
  exact integer_bind_eq_scan op hop (hf a)

end

/-- An operator that evaluates all of its operands scans them, and makes its result of their
values. -/
theorem run_eq_scan {op : Operator} (hop : op ∈ eager) {items : List Expr}
    (h : op.Admitted items) : op.run (operands items) = (do
      let vs ← op.scan items.length [] items
      return op.result items.length vs) := by
  cases h with
  | add => exact Accumulated.accumulate_eq_scan (.add rfl) items
  | mul => exact Accumulated.accumulate_eq_scan (.mul rfl) items
  | neg x =>
    -- A single operand is negated at once, so it is the only first operand that may overflow.
    refine integer_bind_eq_scan .sub (by decide) fun a => ?_
    have htotal : total 1 .sub (Value.integers [.int a]) = -a.toInt := rfl
    cases hfit : Fixnum.ofInt? (-a.toInt) <;>
      simp [objection?, scan, result, htotal, Fixnum.neg?, hfit, fit] <;> rfl
  | sub x y ys =>
    have hcount : (x :: y :: ys).length ≠ 1 := by simp
    refine first_eq_scan .sub (fun a => ?_) (fun a => ?_) x (y :: ys)
    · exact .sub a.toInt [] hcount rfl (by simp)
    · exact objection?_eq_none (b := a) (by simp) (by simp [total, Value.integers])
  | div x xs =>
    refine first_eq_scan .div (fun a => ?_) (fun a => ?_) x xs
    · exact .div a.toInt [] rfl rfl
    · exact objection?_eq_none (b := a) (by simp) rfl
  | mod x y =>
    refine pair_eq_scan .mod (by decide) (fun a => ?_) (fun a b => ?_) x y
    · exact objection?_eq_none (b := .zero) (by simp) rfl
    · by_cases hb : b.toInt = 0
      · simp [objection?, hb]
      · rw [objection?_eq_none (b := .zero) (by simp [hb]) rfl, if_neg hb]
        rfl
  | define => simp [eager] at hop
  | cond => simp [eager] at hop
  | gt x y =>
    have hnone := objection?_of_mem_comparing .gt (by decide) 2
    exact pair_eq_scan .gt (by decide) (hnone []) (fun a b => by rw [hnone]; rfl) x y
  | lt x y =>
    have hnone := objection?_of_mem_comparing .lt (by decide) 2
    exact pair_eq_scan .lt (by decide) (hnone []) (fun a b => by rw [hnone]; rfl) x y
  | eq x y =>
    have hnone (seen : List Value) (v : Value) : objection? 2 .eq seen v = none := by
      cases v with
      | bool b => rfl
      | int n => exact objection?_of_mem_comparing .eq (by decide) 2 seen n
    simp [run, operands, equal_pair, scan, hnone, result]

end Operator

end LineLisp
