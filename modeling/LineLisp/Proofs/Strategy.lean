import LineLisp.Proofs.Application
import Mathlib.Data.List.Forall2

/-!
# Operators as strategies

Every operator but `define` evaluates some of its operands and makes a value of what it gets. What
it asks for next depends on nothing but the values that it has been given. So it is a strategy, and
it can be carried out wherever operands can be evaluated, whatever keeps the bindings.
-/

namespace LineLisp

/-- A computation over operands that are not known yet. It asks for the value of an operand and goes
on with the answer, until it comes to an end. -/
inductive Strategy (ι α : Type) where
  | done (result : Except EvalError α)
  | ask (operand : ι) (next : Value → Strategy ι α)

namespace Strategy

variable {ι κ α β σ : Type}

protected def bind : Strategy ι α → (α → Strategy ι β) → Strategy ι β
  | done (.ok a), f => f a
  | done (.error err), _ => done (.error err)
  | ask x next, f => ask x fun v => (next v).bind f

instance : Monad (Strategy ι) where
  pure a := done (.ok a)
  bind := Strategy.bind

/-- Carries out a strategy whose operands are computations. -/
def run : Strategy (EStateM EvalError σ Value) α → EStateM EvalError σ α
  | done result => ofExcept result
  | ask x next => do run (next (← x))

@[simp] theorem run_pure (a : α) :
    (pure a : Strategy (EStateM EvalError σ Value) α).run = pure a := rfl

@[simp] theorem run_done (result : Except EvalError α) :
    (done result : Strategy (EStateM EvalError σ Value) α).run = ofExcept result := rfl

@[simp] theorem run_ask (x : EStateM EvalError σ Value)
    (next : Value → Strategy (EStateM EvalError σ Value) α) :
    (ask x next).run = x >>= fun v => (next v).run := rfl

@[simp] theorem run_bind (s : Strategy (EStateM EvalError σ Value) α)
    (f : α → Strategy (EStateM EvalError σ Value) β) :
    (s >>= f).run = s.run >>= fun a => (f a).run := by
  induction s with
  | done result => cases result <;> rfl
  | ask x next ih =>
    calc (ask x next >>= f).run
        = x >>= fun v => (next v >>= f).run := rfl
      _ = x >>= fun v => (next v).run >>= fun a => (f a).run := by simp only [ih]
      _ = (ask x next).run >>= fun a => (f a).run := by rw [run_ask, bind_assoc]

def integer (operator : String) (x : ι) : Strategy ι Fixnum :=
  ask x fun v => done (v.integer operator)

def boolean (operator : String) (x : ι) : Strategy ι Bool :=
  ask x fun v => done (v.boolean operator)

def accumulate (operator : String) (combine : Fixnum → Fixnum → Except EvalError Fixnum) :
    Fixnum → List ι → Strategy ι Value
  | total, [] => pure (.int total)
  | total, x :: xs => do
    let n ← integer operator x
    let total ← done (combine total n)
    accumulate operator combine total xs

def compare (operator : String) (holds : Int → Int → Bool) (x y : ι) : Strategy ι Value := do
  let a ← integer operator x
  let b ← integer operator y
  return .bool (holds a.toInt b.toInt)

/-- The strategy of an operator. A definition has one only for a wrong number of operands. -/
def ofOperator : Operator → List ι → Strategy ι Value
  | .add, xs => accumulate "+" (fun a b => Operator.fit "+" (a.add? b)) .zero xs
  | .sub, [x] => do
    let a ← integer "-" x
    let n ← done (Operator.fit "-" a.neg?)
    return .int n
  | .sub, x :: xs => do
    let a ← integer "-" x
    accumulate "-" (fun a b => Operator.fit "-" (a.sub? b)) a xs
  | .mul, xs => accumulate "*" (fun a b => Operator.fit "*" (a.mul? b)) .one xs
  | .div, x :: xs => do
    let a ← integer "/" x
    accumulate "/" (fun a b =>
      if b.toInt = 0 then .error .divisionByZero else Operator.fit "/" (a.div? b)) a xs
  | .mod, [x, y] => do
    let a ← integer "%" x
    let b ← integer "%" y
    done (if b.toInt = 0 then .error .moduloByZero else .ok (.int (a.rem b)))
  | .cond, [x, y, z] => do
    if ← boolean "if" x then ask y pure else ask z pure
  | .gt, [x, y] => compare ">" (fun a b => a > b) x y
  | .lt, [x, y] => compare "<" (fun a b => a < b) x y
  | .eq, [x, y] => ask x fun a => ask y fun b => pure (.bool (a = b))
  | op, xs => done (.error (.arity op.name op.arity xs.length))

theorem ofOperator_of_not_admits {op : Operator} {xs : List ι}
    (h : ¬ op.arity.admits xs.length) :
    ofOperator op xs = done (.error (.arity op.name op.arity xs.length)) := by
  unfold ofOperator
  split
  case h_11 => rfl
  -- in all other cases the arity admits the operands
  all_goals simp [Operator.arity, Arity.admits] at h

/-- The strategy of an application. -/
def apply (name : String) (xs : List ι) : Strategy ι Value :=
  match Operator.ofName? name with
  | none => done (.error (.unknownOperator name))
  | some op => ofOperator op xs

/-! ## Applications carry out strategies -/

theorem run_integer (operator : String) (x : Operand) :
    (integer operator x.value).run = x.integer operator := rfl

theorem run_boolean (operator : String) (x : Operand) :
    (boolean operator x.value).run = x.boolean operator := rfl

theorem run_accumulate (operator : String) (combine : Fixnum → Fixnum → Except EvalError Fixnum)
    (start : Fixnum) (xs : List Operand) :
    (accumulate operator combine start (xs.map Operand.value)).run =
      Operator.accumulate operator combine start xs := by
  induction xs generalizing start with
  | nil => rfl
  | cons x xs ih =>
    simp only [List.map_cons, accumulate, run_bind, run_done, run_integer, ih,
      Operator.accumulate_cons]

theorem run_compare (operator : String) (holds : Int → Int → Bool) (x y : Operand) :
    (compare operator holds x.value y.value).run = Operator.compare operator holds [x, y] := by
  simp only [compare, run_bind, run_pure, run_integer, Operator.compare_pair]

theorem run_ofOperator {op : Operator} {xs : List Operand} (h : op.Admitted xs)
    (hdefine : op ≠ .define) : (ofOperator op (xs.map Operand.value)).run = op.run xs := by
  cases h with
  | add => exact run_accumulate ..
  | mul => exact run_accumulate ..
  | neg x =>
    simp only [List.map_cons, List.map_nil, ofOperator, run_bind, run_done, run_pure, run_integer,
      Operator.run, Operator.difference_singleton]
  | sub x y ys =>
    simp only [List.map_cons, ofOperator, run_bind, run_integer, Operator.run,
      Operator.difference_cons_cons, ← run_accumulate]
  | div x xs =>
    simp only [List.map_cons, ofOperator, run_bind, run_integer, run_accumulate, Operator.run,
      Operator.quotient_cons]
  | mod x y =>
    simp only [List.map_cons, List.map_nil, ofOperator, run_bind, run_integer, run_done,
      Operator.run, Operator.remainder_pair]
    congr! 5 with a b
    split <;> rfl
  | define => exact absurd rfl hdefine
  | cond x y z =>
    simp only [List.map_cons, List.map_nil, ofOperator, run_bind, run_boolean, Operator.run,
      Operator.branch_triple]
    congr! 2 with b
    cases b <;> simp
  | gt x y => exact run_compare ">" (fun a b => a > b) x y
  | lt x y => exact run_compare "<" (fun a b => a < b) x y
  | eq x y => rfl

end Strategy

theorem Operator.ne_define_of_admits {op : Operator} {n : Nat} (h : op.name = "define" → n ≠ 2)
    (hadmits : op.arity.admits n) : op ≠ .define := by
  rintro rfl
  exact h rfl (by simpa [arity, Arity.admits] using hadmits)

/-- An application carries out its strategy, unless it is a definition. -/
theorem Operator.apply_eq_run {name : String} {xs : List Operand}
    (h : name = "define" → xs.length ≠ 2) :
    apply name xs = (Strategy.apply name (xs.map Operand.value)).run := by
  unfold apply Strategy.apply
  cases hname : ofName? name with
  | none => rfl
  | some op =>
    obtain rfl := ofName?_eq_some_iff.1 hname
    dsimp only
    split
    · next hadmits =>
      have hdefine : op ≠ .define := ne_define_of_admits h hadmits
      exact (Strategy.run_ofOperator (admits_iff.1 hadmits) hdefine).symm
    · next hadmits =>
      rw [Strategy.ofOperator_of_not_admits (by rwa [List.length_map]), List.length_map]
      rfl

/-! ## Strategies on related operands -/

/-- Neither a variable nor a part of the source stands in the error. -/
def EvalError.Nameless : EvalError → Prop
  | .undefinedSymbol _ | .malformed (.targetNotSymbol _) | .malformed (.constantTarget _) => False
  | _ => True

namespace Strategy

variable {ι κ α β : Type}

/-- The strategies ask for related operands, one after the other, and come to the same end. -/
inductive Parallel (r : ι → κ → Prop) : Strategy ι α → Strategy κ α → Prop
  | value (a : α) : Parallel r (done (.ok a)) (done (.ok a))
  | error {err : EvalError} (h : err.Nameless) :
    Parallel r (done (.error err)) (done (.error err))
  | ask {x : ι} {y : κ} {f : Value → Strategy ι α} {g : Value → Strategy κ α} (h : r x y)
    (next : ∀ v, Parallel r (f v) (g v)) : Parallel r (ask x f) (ask y g)

namespace Parallel

variable {r : ι → κ → Prop} {x : ι} {y : κ} {xs : List ι} {ys : List κ}

theorem bind {s : Strategy ι α} {t : Strategy κ α} {f : α → Strategy ι β} {g : α → Strategy κ β}
    (h : Parallel r s t) (hf : ∀ a, Parallel r (f a) (g a)) : Parallel r (s >>= f) (t >>= g) := by
  induction h with
  | value a => exact hf a
  | error herr => exact .error herr
  | ask hxy _ ih => exact .ask hxy ih

theorem fit (operator : String) (result : Option Fixnum) :
    Parallel r (done (Operator.fit operator result)) (done (Operator.fit operator result)) := by
  cases result with
  | some n => exact .value n
  | none => exact .error trivial

theorem integer (operator : String) (h : r x y) :
    Parallel r (integer operator x) (integer operator y) := by
  refine .ask h fun v => ?_
  cases v with
  | int n => exact .value n
  | bool b => exact .error trivial

theorem boolean (operator : String) (h : r x y) :
    Parallel r (boolean operator x) (boolean operator y) := by
  refine .ask h fun v => ?_
  cases v with
  | int n => exact .error trivial
  | bool b => exact .value b

theorem accumulate (operator : String) {combine : Fixnum → Fixnum → Except EvalError Fixnum}
    (hcombine : ∀ a b, Parallel r (done (combine a b)) (done (combine a b)))
    (h : List.Forall₂ r xs ys) (start : Fixnum) :
    Parallel r (accumulate operator combine start xs) (accumulate operator combine start ys) := by
  induction h generalizing start with
  | nil => exact .value _
  | cons hxy _ ih => exact bind (integer operator hxy) fun n => bind (hcombine start n) ih

theorem compare {x' : ι} {y' : κ} (operator : String) (holds : Int → Int → Bool) (h : r x y)
    (h' : r x' y') : Parallel r (compare operator holds x x') (compare operator holds y y') :=
  bind (integer operator h) fun _ => bind (integer operator h') fun _ => .value _

/-- An operator cannot tell related operands apart. -/
theorem ofOperator {op : Operator} (hop : op.Admitted xs) (hdefine : op ≠ .define)
    (h : List.Forall₂ r xs ys) : Parallel r (ofOperator op xs) (ofOperator op ys) := by
  cases hop with
  | add => exact accumulate "+" (fun _ _ => fit "+" _) h .zero
  | mul => exact accumulate "*" (fun _ _ => fit "*" _) h .one
  | neg x =>
    obtain _ | ⟨hx, _ | _⟩ := h
    exact bind (integer "-" hx) fun a => bind (fit "-" _) fun n => .value _
  | sub x x' xs =>
    obtain _ | ⟨hx, _ | ⟨hx', hxs⟩⟩ := h
    exact bind (integer "-" hx) fun a => accumulate "-" (fun _ _ => fit "-" _) (.cons hx' hxs) a
  | div x xs =>
    obtain _ | ⟨hx, hxs⟩ := h
    refine bind (integer "/" hx) fun a => accumulate "/" (fun a b => ?_) hxs a
    split
    · exact .error trivial
    · exact fit "/" _
  | mod x x' =>
    obtain _ | ⟨hx, _ | ⟨hx', _ | _⟩⟩ := h
    refine bind (integer "%" hx) fun a => bind (integer "%" hx') fun b => ?_
    split
    · exact .error trivial
    · exact .value _
  | define => exact absurd rfl hdefine
  | cond x x' x'' =>
    obtain _ | ⟨hx, _ | ⟨hx', _ | ⟨hx'', _ | _⟩⟩⟩ := h
    refine bind (boolean "if" hx) fun b => ?_
    cases b with
    | true => exact .ask hx' .value
    | false => exact .ask hx'' .value
  | gt x x' =>
    obtain _ | ⟨hx, _ | ⟨hx', _ | _⟩⟩ := h
    exact compare ">" (fun a b => a > b) hx hx'
  | lt x x' =>
    obtain _ | ⟨hx, _ | ⟨hx', _ | _⟩⟩ := h
    exact compare "<" (fun a b => a < b) hx hx'
  | eq x x' =>
    obtain _ | ⟨hx, _ | ⟨hx', _ | _⟩⟩ := h
    exact .ask hx fun a => .ask hx' fun b => .value _

end Parallel

/-- An application goes the same way on operands that are related, unless it is a definition. -/
theorem parallel_apply {r : ι → κ → Prop} {name : String} {xs : List ι} {ys : List κ}
    (hdefine : name = "define" → xs.length ≠ 2) (h : List.Forall₂ r xs ys) :
    Parallel r (apply name xs) (apply name ys) := by
  unfold apply
  cases hname : Operator.ofName? name with
  | none => exact .error trivial
  | some op =>
    obtain rfl := Operator.ofName?_eq_some_iff.1 hname
    dsimp only
    by_cases hadmits : op.arity.admits xs.length
    · have hop : op ≠ .define := Operator.ne_define_of_admits hdefine hadmits
      exact .ofOperator (Operator.admits_iff.1 hadmits) hop h
    · -- both applications complain of the same number of operands
      rw [ofOperator_of_not_admits hadmits, ofOperator_of_not_admits (h.length_eq ▸ hadmits),
        h.length_eq]
      exact .error trivial

end Strategy

end LineLisp
