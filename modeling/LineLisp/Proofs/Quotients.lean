import LineLisp.Proofs.Integers
import Mathlib.Algebra.BigOperators.Group.List.Basic
import Mathlib.Data.Rat.Floor

/-!
# Quotients

Dividing by one integer after the other, and truncating each time, is the same as one division by
the product of all, which may be of any size. So a quotient of integers is the truncated quotient of
mathematics, unless a divisor is zero or an intermediate quotient is no fixnum. The latter can
happen in one way only: the least fixnum is divided by `-1`, after divisions by `1` that have left
it as it is.
-/

namespace LineLisp

open Operator

/-! ## Truncated division -/

/-- The rational number rounded toward zero. -/
def truncated (q : ℚ) : Int := if 0 ≤ q then ⌊q⌋ else ⌈q⌉

theorem truncated_neg (q : ℚ) : truncated (-q) = -truncated q := by
  unfold truncated
  obtain hq | rfl | hq := lt_trichotomy q 0
  · rw [if_pos (by linarith), if_neg (by linarith), Int.floor_neg]
  · simp
  · rw [if_neg (by linarith), if_pos (by linarith), Int.ceil_neg]

theorem truncated_div (a b : Int) : truncated (a / b) = a.tdiv b := by
  have hnat (m n : Nat) : truncated ((m : ℚ) / n) = (m : Int).tdiv n := by
    rw [truncated, if_pos (by positivity), Rat.floor_natCast_div_natCast,
      Int.natCast_tdiv_eq_ediv]
  -- The signs of dividend and divisor pass to the quotient on both sides.
  obtain ⟨m, rfl | rfl⟩ := a.eq_nat_or_neg <;> obtain ⟨n, rfl | rfl⟩ := b.eq_nat_or_neg <;>
    simp only [Int.cast_neg, Int.cast_natCast, neg_div, div_neg, truncated_neg, Int.neg_tdiv,
      Int.tdiv_neg, hnat]

theorem tdiv_tdiv (a b c : Int) : (a.tdiv b).tdiv c = a.tdiv (b * c) := by
  have hnat (l m n : Nat) : ((l : Int).tdiv m).tdiv n = (l : Int).tdiv (m * n) := by
    rw [← Int.natCast_mul, ← Int.ofNat_tdiv, ← Int.ofNat_tdiv, ← Int.ofNat_tdiv,
      Nat.div_div_eq_div_mul]
  obtain ⟨l, rfl | rfl⟩ := a.eq_nat_or_neg <;> obtain ⟨m, rfl | rfl⟩ := b.eq_nat_or_neg <;>
    obtain ⟨n, rfl | rfl⟩ := c.eq_nat_or_neg <;>
    simp only [Int.neg_tdiv, Int.tdiv_neg, neg_mul, mul_neg, neg_neg, hnat]

/-- Divisions one after the other are one division by the product. -/
theorem foldl_tdiv (a : Int) (bs : List Int) : bs.foldl Int.tdiv a = a.tdiv bs.prod := by
  induction bs generalizing a with
  | nil => simp
  | cons b bs ih => rw [List.foldl_cons, ih, tdiv_tdiv, List.prod_cons]

/-- Only the least fixnum divided by `-1` is no fixnum. -/
theorem inRange_tdiv_iff {a b : Int} (ha : InRange a) :
    InRange (a.tdiv b) ↔ ¬ (a = -0x8000000000000000 ∧ b = -1) := by
  have habs : (a.tdiv b).natAbs = a.natAbs / b.natAbs := Int.natAbs_tdiv a b
  unfold InRange at ha ⊢
  constructor
  · rintro ⟨-, hlt⟩ ⟨rfl, rfl⟩
    exact absurd hlt (by decide)
  · intro h
    obtain hb | rfl | rfl : b.natAbs ≠ 1 ∨ b = 1 ∨ b = -1 := by omega
    · have hle : a.natAbs / b.natAbs ≤ a.natAbs / 2 := by
        obtain hzero | hb : b.natAbs = 0 ∨ 2 ≤ b.natAbs := by omega
        · simp [hzero]
        · exact Nat.div_le_div_left hb (by decide)
      omega
    · rw [Int.tdiv_one]
      exact ha
    · rw [Int.tdiv_neg, Int.tdiv_one]
      omega

/-! ## Overflow -/

/-- The least fixnum, which is `-2^63`, is divided by `1` for `k` times and then by `-1`. -/
def OverflowsAt (a : Int) (bs : List Int) (k : Nat) : Prop :=
  a = -0x8000000000000000 ∧ ∃ rest, bs = List.replicate k 1 ++ -1 :: rest

theorem OverflowsAt.append {a : Int} {bs : List Int} {k : Nat} (h : OverflowsAt a bs k)
    (bs' : List Int) : OverflowsAt a (bs ++ bs') k := by
  obtain ⟨ha, rest, rfl⟩ := h
  exact ⟨ha, rest ++ bs', by simp⟩

/-- Integers with the product `-1` start with ones and `-1`. -/
theorem exists_eq_replicate_of_prod {bs : List Int} (h : bs.prod = -1) :
    ∃ k rest, bs = List.replicate k 1 ++ -1 :: rest := by
  induction bs with
  | nil => simp at h
  | cons b bs ih =>
    rw [List.prod_cons] at h
    obtain rfl | rfl := Int.eq_one_or_neg_one_of_mul_eq_neg_one h
    · obtain ⟨k, rest, rfl⟩ := ih (by simpa using h)
      exact ⟨k + 1, rest, rfl⟩
    · exact ⟨0, bs, rfl⟩

/-- Without an overflow every intermediate quotient is in range. -/
theorem inRange_foldl_tdiv {a : Fixnum} {bs : List Int} (h : ∀ k, ¬ OverflowsAt a.toInt bs k)
    (k : Nat) : InRange ((bs.take k).foldl Int.tdiv a.toInt) := by
  rw [foldl_tdiv, inRange_tdiv_iff a.inRange]
  rintro ⟨ha, hprod⟩
  obtain ⟨j, rest, hrest⟩ := exists_eq_replicate_of_prod hprod
  have hprefix : OverflowsAt a.toInt (bs.take k) j := ⟨ha, rest, hrest⟩
  exact h j (by simpa using hprefix.append (bs.drop k))

/-! ## Applications -/

section

variable {a b c : Fixnum}

theorem combine_div_eq_ok (hb : b.toInt ≠ 0) (hc : c.toInt = a.toInt.tdiv b.toInt) :
    Operator.div.combine a b = .ok c := by
  rw [combine, if_neg hb]
  exact fit_of_toInt "/" hc

theorem combine_div_eq_zero (hb : b.toInt = 0) :
    Operator.div.combine a b = .error .divisionByZero :=
  if_pos hb

theorem combine_div_eq_overflow (ha : a.toInt = -0x8000000000000000) (hb : b.toInt = -1) :
    Operator.div.combine a b = .error (.overflow "/") := by
  have hrange : ¬ InRange (a.toInt.tdiv b.toInt) := by
    rw [inRange_tdiv_iff a.inRange]
    exact not_not.2 ⟨ha, hb⟩
  rw [combine, if_neg (by omega)]
  exact fit_of_not_inRange "/" hrange

end

variable {env env' : Env} {e : Expr} {es : List Expr} {a : Int} {bs : List Int}

/-- The first operand is the start. -/
theorem eval_quotient_of_first {n : Fixnum} (h : e.eval.run env = .ok (.int n) env') :
    (Expr.list (.sym "/" :: e :: es)).eval.run env =
      (accumulate "/" Operator.div.combine n (operands es)).run env' := by
  have heval : (Expr.list (.sym "/" :: e :: es)).eval = quotient (operands (e :: es)) :=
    eval_apply_of_admits (admits_iff.2 (.div e es))
  rw [heval, operands, quotient_cons, EStateM.run_bind, Operand.integer, EStateM.run_bind, h]
  rfl

theorem eval_quotient_eq_overflow (h : HaveIntegers env (e :: es) (a :: bs)) {k : Nat}
    (hk : OverflowsAt a bs k) :
    (Expr.list (.sym "/" :: e :: es)).eval.run env =
      .error (.overflow "/") (env.after (e :: es.take (k + 1))) := by
  obtain ⟨ha, rest, rfl⟩ := hk
  cases h with
  | @cons _ env' _ _ n _ head tail =>
    have hones (i : Nat) : (List.replicate i 1).foldl Int.tdiv n.toInt = n.toInt := by
      simp [foldl_tdiv]
    rw [eval_quotient_of_first head, Env.after_cons head]
    have hcombine (a b c : Fixnum) (hb : b.toInt ∈ List.replicate k (1 : Int))
        (hc : c.toInt = a.toInt.tdiv b.toInt) : Operator.div.combine a b = .ok c :=
      combine_div_eq_ok (by simp [List.eq_of_mem_replicate hb]) hc
    have hrange (i : Nat) :
        InRange (((List.replicate k (1 : Int)).take i).foldl Int.tdiv n.toInt) := by
      rw [List.take_replicate, hones]
      exact n.inRange
    have hrun := tail.accumulate_eq_error "/" Int.tdiv hcombine n hrange fun a b ha' hb =>
      combine_div_eq_overflow (ha'.trans ((hones k).trans ha)) hb
    rwa [List.length_replicate] at hrun

theorem eval_quotient_eq_zero (h : HaveIntegers env (e :: es) (a :: bs))
    (hno : ∀ k, ¬ OverflowsAt a bs k) (hzero : 0 ∈ bs) :
    (Expr.list (.sym "/" :: e :: es)).eval.run env =
      .error .divisionByZero (env.after (e :: es.take (bs.idxOf 0 + 1))) := by
  obtain ⟨before, after, rfl, hbefore⟩ := List.eq_append_cons_of_mem hzero
  cases h with
  | @cons _ env' _ _ n _ head tail =>
    rw [eval_quotient_of_first head, Env.after_cons head, List.idxOf_append_of_notMem hbefore,
      List.idxOf_cons_self, Nat.add_zero]
    refine tail.accumulate_eq_error "/" Int.tdiv (fun a b c hb hc => ?_) n ?_
      fun a b _ hb => combine_div_eq_zero hb
    · exact combine_div_eq_ok (fun hb' => hbefore (hb' ▸ hb)) hc
    · exact inRange_foldl_tdiv fun k hk => hno k (hk.append _)

theorem eval_quotient_eq_ok (h : HaveIntegers env (e :: es) (a :: bs))
    (hno : ∀ k, ¬ OverflowsAt a bs k) (hzero : 0 ∉ bs) :
    ∃ q : Fixnum, q.toInt = a.tdiv bs.prod ∧
      (Expr.list (.sym "/" :: e :: es)).eval.run env = .ok (.int q) (env.after (e :: es)) := by
  cases h with
  | @cons _ env' _ _ n _ head tail =>
    rw [eval_quotient_of_first head, Env.after_cons head, ← foldl_tdiv]
    refine tail.accumulate_eq_ok "/" Int.tdiv (fun a b c hb hc => ?_) n (inRange_foldl_tdiv hno)
    exact combine_div_eq_ok (fun hb' => hzero (hb' ▸ hb)) hc

/-- Where the dividend is not the least fixnum, divisors without definitions can be permuted. -/
theorem eval_quotient_perm (h : HaveIntegers env (e :: es) (a :: bs))
    (ha : a ≠ -0x8000000000000000) (hfree : ∀ d ∈ es, d.targets = []) {es' : List Expr}
    (hperm : es'.Perm es) :
    (Expr.list (.sym "/" :: e :: es')).eval.run env =
      (Expr.list (.sym "/" :: e :: es)).eval.run env := by
  have hno (cs : List Int) (k : Nat) : ¬ OverflowsAt a cs k := fun hk => ha hk.1
  have hfree' : ∀ d ∈ es', d.targets = [] := fun d hd => hfree d (hperm.mem_iff.1 hd)
  -- Only the dividend may change the environment.
  obtain ⟨env', bs', h', hafter, hbs⟩ : ∃ env' bs', HaveIntegers env (e :: es') (a :: bs') ∧
      (∀ ds : List Expr, (∀ d ∈ ds, d.targets = []) → env.after (e :: ds) = env') ∧
      bs'.Perm bs := by
    cases h with
    | @cons _ env' _ _ n _ head tail =>
      obtain ⟨bs', htail, hbs⟩ := tail.perm hfree hperm
      refine ⟨env', bs', .cons head htail, fun ds hds => ?_, hbs⟩
      rw [Env.after_cons head, Env.after_of_targets hds]
  have htake {ds : List Expr} (hds : ∀ d ∈ ds, d.targets = []) (k : Nat) :
      ∀ d ∈ ds.take k, d.targets = [] := fun d hd => hds d (List.mem_of_mem_take hd)
  by_cases hzero : 0 ∈ bs
  · rw [eval_quotient_eq_zero h (hno bs) hzero,
      eval_quotient_eq_zero h' (hno bs') (hbs.mem_iff.2 hzero), hafter _ (htake hfree _),
      hafter _ (htake hfree' _)]
  · obtain ⟨q, hq, hrun⟩ := eval_quotient_eq_ok h (hno bs) hzero
    obtain ⟨q', hq', hrun'⟩ := eval_quotient_eq_ok h' (hno bs') (mt hbs.mem_iff.1 hzero)
    have hqq : q' = q := Fixnum.ext (by rw [hq, hq', hbs.prod_eq])
    rw [hrun, hrun', hqq, hafter _ hfree, hafter _ hfree']

/-- The end of a quotient of operands that are integers. It is an overflow exactly if the least
fixnum is divided by ones and then by `-1`. If it is not, then it is a division by zero exactly if
some divisor is zero. Either way no operand after the first such divisor has been evaluated. In all
other cases it is the truncated quotient of the first integer and the product of the others. So
divisors without definitions can be permuted, unless the first integer is the least fixnum. -/
theorem eval_quotient_iff (h : HaveIntegers env (e :: es) (a :: bs)) :
    (∀ env', (Expr.list (.sym "/" :: e :: es)).eval.run env = .error (.overflow "/") env' ↔
      ∃ k, OverflowsAt a bs k ∧ env' = env.after (e :: es.take (k + 1))) ∧
    ((∀ k, ¬ OverflowsAt a bs k) →
      (∀ env', (Expr.list (.sym "/" :: e :: es)).eval.run env = .error .divisionByZero env' ↔
        0 ∈ bs ∧ env' = env.after (e :: es.take (bs.idxOf 0 + 1))) ∧
      (0 ∉ bs → ∃ q : Fixnum, q.toInt = truncated ((a : ℚ) / (bs.prod : Int)) ∧
        (Expr.list (.sym "/" :: e :: es)).eval.run env = .ok (.int q) (env.after (e :: es)))) ∧
    (a ≠ -0x8000000000000000 → (∀ d ∈ es, d.targets = []) → ∀ es' : List Expr, es'.Perm es →
      (Expr.list (.sym "/" :: e :: es')).eval.run env =
        (Expr.list (.sym "/" :: e :: es)).eval.run env) := by
  refine ⟨fun env' => ⟨fun hrun => ?_, ?_⟩, fun hno => ⟨fun env' => ⟨fun hrun => ?_, ?_⟩,
    fun hzero => ?_⟩, fun ha hfree es' => eval_quotient_perm h ha hfree⟩
  · by_cases hno : ∀ k, ¬ OverflowsAt a bs k
    · by_cases hzero : 0 ∈ bs
      · simp [eval_quotient_eq_zero h hno hzero] at hrun
      · obtain ⟨q, -, hvalue⟩ := eval_quotient_eq_ok h hno hzero
        simp [hvalue] at hrun
    · push Not at hno
      obtain ⟨k, hk⟩ := hno
      rw [eval_quotient_eq_overflow h hk] at hrun
      exact ⟨k, hk, (EStateM.Result.error.inj hrun).2.symm⟩
  · rintro ⟨k, hk, rfl⟩
    exact eval_quotient_eq_overflow h hk
  · by_cases hzero : 0 ∈ bs
    · rw [eval_quotient_eq_zero h hno hzero] at hrun
      exact ⟨hzero, (EStateM.Result.error.inj hrun).2.symm⟩
    · obtain ⟨q, -, hvalue⟩ := eval_quotient_eq_ok h hno hzero
      simp [hvalue] at hrun
  · rintro ⟨hzero, rfl⟩
    exact eval_quotient_eq_zero h hno hzero
  · rw [truncated_div]
    exact eval_quotient_eq_ok h hno hzero

/-- The least fixnum divided by `1` and `(define x -1)` overflows before `(define y 0)`, and `1`
divided by `(define y 0)` fails before `(define x -1)`. The quotient of `-7` and `2` is `-3`, also
with a `1` on either side of the `2`. -/
theorem eval_quotient_iff_least :
    let least : Fixnum := ⟨-0x8000000000000000, by decide, by decide⟩
    let minusOne : Fixnum := ⟨-1, by decide, by decide⟩
    let minusSeven : Fixnum := ⟨-7, by decide, by decide⟩
    let two : Fixnum := ⟨2, by decide, by decide⟩
    let x : Expr := .list [.sym "define", .sym "x", .num minusOne]
    let y : Expr := .list [.sym "define", .sym "y", .num .zero]
    (Expr.list [.sym "/", .num least, .num .one, x, y]).eval.run ∅ =
      .error (.overflow "/") ((∅ : Env).insert "x" (.int minusOne)) ∧
    (Expr.list [.sym "/", .num .one, y, x]).eval.run ∅ =
      .error .divisionByZero ((∅ : Env).insert "y" (.int .zero)) ∧
    (∃ q : Fixnum, q.toInt = -3 ∧
      (Expr.list [.sym "/", .num minusSeven, .num two, .num .one]).eval.run ∅ = .ok (.int q) ∅) ∧
    (Expr.list [.sym "/", .num minusSeven, .num .one, .num two]).eval.run ∅ =
      (Expr.list [.sym "/", .num minusSeven, .num two, .num .one]).eval.run ∅ := by
  intro least minusOne minusSeven two x y
  have hleast : HaveIntegers ∅ [.num least, .num .one, x, y]
      [least.toInt, Fixnum.one.toInt, minusOne.toInt, Fixnum.zero.toInt] :=
    .cons rfl (.cons rfl (.cons rfl (.cons rfl (.nil _))))
  have hone : HaveIntegers ∅ [.num .one, y, x]
      [Fixnum.one.toInt, Fixnum.zero.toInt, minusOne.toInt] :=
    .cons rfl (.cons rfl (.cons rfl (.nil _)))
  have hseven : HaveIntegers ∅ [.num minusSeven, .num two, .num .one]
      [minusSeven.toInt, two.toInt, Fixnum.one.toInt] :=
    .cons rfl (.cons rfl (.cons rfl (.nil _)))
  refine ⟨?_, ?_, ?_, ?_⟩
  · exact ((eval_quotient_iff hleast).1 _).2 ⟨1, ⟨rfl, [0], rfl⟩, rfl⟩
  · have hno (k : Nat) : ¬ OverflowsAt Fixnum.one.toInt [Fixnum.zero.toInt, minusOne.toInt] k :=
      fun hk => absurd hk.1 (by decide)
    exact (((eval_quotient_iff hone).2.1 hno).1 _).2 ⟨by decide, rfl⟩
  · have hno (k : Nat) : ¬ OverflowsAt minusSeven.toInt [two.toInt, Fixnum.one.toInt] k :=
      fun hk => absurd hk.1 (by decide)
    obtain ⟨q, hq, hrun⟩ := ((eval_quotient_iff hseven).2.1 hno).2 (by decide)
    rw [truncated_div] at hq
    exact ⟨q, hq, hrun⟩
  · refine (eval_quotient_iff hseven).2.2 (by decide) ?_ _ (.swap _ _ _)
    simp [Expr.targets, Expr.definitions]

end LineLisp
