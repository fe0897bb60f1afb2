import LineLisp.Proofs.Reachable
import LineLisp.Proofs.Scripts

/-!
# Replaying a listing

The listing of a session has a line `name = value` for each binding. With `(define name value)` in
the place of each of them it is a script, and this script makes the same bindings in a fresh
session. Both texts are tied to the list of bindings: the first by cutting it into lines and these
at their first ` = `, the second by what its lines evaluate to.
-/

namespace LineLisp

open Text

namespace Listing

/-- The characters before the first ` = ` and those behind it. -/
def splitEquals : List Char → Option (List Char × List Char)
  | [] => none
  | ' ' :: '=' :: ' ' :: cs => some ([], cs)
  | c :: cs => (splitEquals cs).map fun (name, value) => (c :: name, value)

/-- The definition `(define name value)` for a line `name = value`. -/
def definition? (line : List Char) : Option String :=
  (splitEquals line).map fun (name, value) =>
    "(define " ++ String.ofList name ++ " " ++ String.ofList value ++ ")"

/-- The script with a definition for each binding in the listing. The line that stands in a listing
without bindings gives none. -/
def script (listing : String) : String :=
  String.join (((listing.toList.splitOn '\n').filterMap definition?).map (· ++ "\n"))

example : script "(no bindings)\n" = "" := by decide

/-- The line of a listing for a binding. -/
def bindingLine (b : String × Value) : String := b.1 ++ " = " ++ b.2.render

/-- The line of a script that makes a binding. -/
def definitionLine (b : String × Value) : String := "(define " ++ b.1 ++ " " ++ b.2.render ++ ")"

end Listing

open Listing

/-! ## Names and values in a line -/

namespace Listing

variable {b : String × Value} (h : IsName b.1)
include h

theorem newline_notMem_binding : '\n' ∉ b.1.toList ∧ '\n' ∉ b.2.render.toList :=
  ⟨h.wellFormed.notMem (by decide), b.2.wellFormed_render.notMem (by decide)⟩

theorem newline_notMem_bindingLine : '\n' ∉ (bindingLine b).toList := by
  simp [bindingLine, newline_notMem_binding h]

theorem newline_notMem_definitionLine : '\n' ∉ (definitionLine b).toList := by
  simp [definitionLine, newline_notMem_binding h]

omit h in
theorem splitEquals_append {name : List Char} (hname : ' ' ∉ name) (value : List Char) :
    splitEquals (name ++ ' ' :: '=' :: ' ' :: value) = some (name, value) := by
  induction name with
  | nil => rfl
  | cons c name ih =>
    rw [List.mem_cons, not_or] at hname
    rw [List.cons_append, splitEquals, ih hname.2]
    · rfl
    · rintro _ rfl
      exact absurd rfl hname.1

theorem definition?_bindingLine : definition? (bindingLine b).toList = some (definitionLine b) := by
  have hname : ' ' ∉ b.1.toList := h.wellFormed.notMem (by decide)
  have hline : (bindingLine b).toList = b.1.toList ++ ' ' :: '=' :: ' ' :: b.2.render.toList := by
    simp [bindingLine]
  rw [definition?, hline, splitEquals_append hname]
  simp [definitionLine]

end Listing

/-! ## From the listing to the script -/

theorem Session.WellNamed.of_mem_bindings {session : Session} (h : session.WellNamed)
    {b : String × Value} (hb : b ∈ session.bindings) :
    IsName b.1 ∧ Value.constant? b.1 = none := by
  have hget : session[b.1]? = some b.2 := Std.ExtTreeMap.mem_toList_iff_getElem?_eq_some.1 hb
  exact h b.1 (Std.ExtTreeMap.mem_iff_isSome_getElem?.2 (by simp [hget]))

theorem splitOn_newline_join {lines : List String} (h : ∀ line ∈ lines, '\n' ∉ line.toList) :
    (String.join (lines.map (· ++ "\n"))).toList.splitOn '\n' =
      lines.map String.toList ++ [[]] := by
  induction lines with
  | nil => rfl
  | cons line lines ih =>
    rw [List.forall_mem_cons] at h
    calc (String.join ((line :: lines).map (· ++ "\n"))).toList.splitOn '\n'
        = line.toList :: (String.join (lines.map (· ++ "\n"))).toList.splitOn '\n' := by
          rw [toList_join_cons, List.splitOn_append_cons_self_of_not_mem h.1]
      _ = (line :: lines).map String.toList ++ [[]] := by rw [ih h.2]; rfl

theorem Env.listing_eq_join (env : Env) (h : env.isEmpty = false) :
    env.listing = String.join ((env.bindings.map bindingLine).map (· ++ "\n")) := by
  rw [listing, h, List.map_map]
  rfl

/-- The script of the listing of a session has a definition for each binding. -/
theorem Listing.script_listing {session : Session} (h : session.WellNamed) :
    script session.listing =
      String.join ((session.bindings.map definitionLine).map (· ++ "\n")) := by
  by_cases hempty : session.isEmpty
  · obtain rfl := Std.ExtTreeMap.isEmpty_iff.1 hempty
    rfl
  have hnames : ∀ b ∈ session.bindings, IsName b.1 := fun b hb => (h.of_mem_bindings hb).1
  have hlines : ∀ line ∈ session.bindings.map bindingLine, '\n' ∉ line.toList := by
    rw [List.forall_mem_map]
    exact fun b hb => newline_notMem_bindingLine (hnames b hb)
  have hdefinitions : ((session.bindings.map bindingLine).map String.toList).filterMap definition? =
      session.bindings.map definitionLine := by
    rw [List.map_map, List.filterMap_map, ← List.filterMap_eq_map]
    exact List.filterMap_congr fun b hb => definition?_bindingLine (hnames b hb)
  have hlast : [[]].filterMap definition? = [] := rfl
  rw [Env.listing_eq_join session (by simpa using hempty), script, splitOn_newline_join hlines,
    List.filterMap_append, hdefinitions, hlast, List.append_nil]

/-! ## From the script to the session -/

namespace Value

theorem render_literal (v : Value) : v.literal.render = v.render := by
  cases v <;> simp [literal, Expr.render, render]

theorem named_literal (v : Value) : v.literal.Named := by
  cases v with
  | int n => exact Expr.named_num n
  | bool b => exact Expr.named_sym.2 (isName_render_bool b)

end Value

/-- The definition of a binding as an expression. -/
def definingExpr (b : String × Value) : Expr := .list [.sym "define", .sym b.1, b.2.literal]

theorem render_definingExpr (b : String × Value) : (definingExpr b).render = definitionLine b := by
  simp only [definingExpr, definitionLine, Expr.render, Expr.renderItems, Value.render_literal,
    ← String.append_assoc]
  rfl

theorem named_definingExpr {b : String × Value} (h : IsName b.1) : (definingExpr b).Named := by
  have hdefine : IsName "define" := by decide
  rw [definingExpr, Expr.named_list]
  simp [Expr.named_sym, hdefine, h, b.2.named_literal]

theorem eval_definingExpr {b : String × Value} (h : Value.constant? b.1 = none) (env : Env) :
    (definingExpr b).eval.run env = .ok b.2 (env.insert b.1 b.2) := by
  have htarget : Operator.target (.sym b.1) = .ok b.1 := by
    simp [Operator.target, Expr.symbol?, h]
  change (Operator.definition (operands [.sym b.1, b.2.literal])).run env = _
  simp only [operands, Operator.definition_pair, htarget]
  change EStateM.run (b.2.literal.eval >>= _) env = _
  rw [EStateM.run_bind, Value.eval_literal]
  rfl

theorem Session.eval_definitionLine {b : String × Value} (hname : IsName b.1)
    (hconstant : Value.constant? b.1 = none) (session : Session) :
    (Session.eval (definitionLine b)).run session = .ok b.2 (session.insert b.1 b.2) := by
  have hparse : Expr.parse (definitionLine b) = .ok (definingExpr b) := by
    rw [← render_definingExpr]
    exact Expr.parse_render_of_named (named_definingExpr hname)
  have heval := eval_definingExpr hconstant session
  rw [eval_of_parse hparse]
  simp only [EStateM.run, EStateM.adaptExcept] at heval ⊢
  rw [heval]

/-- The definitions have the values that they bind. -/
theorem Session.evalAll_definitionLines {bs : List (String × Value)}
    (h : ∀ b ∈ bs, IsName b.1 ∧ Value.constant? b.1 = none) (session : Session) :
    (Session.evalAll (bs.map definitionLine)).run session =
      .ok (bs.map (·.2)) (session.insertMany bs) := by
  induction bs generalizing session with
  | nil =>
    rw [Std.ExtTreeMap.insertMany_nil]
    rfl
  | cons b bs ih =>
    rw [List.forall_mem_cons] at h
    have heval := Session.eval_definitionLine h.1.1 h.1.2 session
    rw [List.map_cons, evalAll_cons_eq_ok_iff, Std.ExtTreeMap.insertMany_cons]
    exact ⟨b.2, _, _, heval, ih h.2 _, rfl⟩

theorem expressions_definitionLines (bs : List (String × Value)) :
    Script.expressions (bs.map definitionLine) = bs.map definitionLine := by
  rw [Script.expressions, List.filter_eq_self, List.forall_mem_map]
  simp [definitionLine]

theorem trim_definitionLine (b : String × Value) : trim (definitionLine b) = definitionLine b := by
  have hchars : (definitionLine b).toList =
      '(' :: ("define ".toList ++ b.1.toList ++ ' ' :: b.2.render.toList) ++ [')'] := by
    simp [definitionLine]
  have hopening : isBlank '(' = false := by decide
  have hclosing : isBlank ')' = false := by decide
  rw [trim, hchars, List.cons_append, List.dropWhile_cons_of_neg (by simp [hopening]),
    ← List.cons_append, trimRight, List.reverse_concat,
    List.dropWhile_cons_of_neg (by simp [hclosing]), ← List.reverse_concat, List.reverse_reverse,
    ← hchars, String.ofList_toList]

theorem Env.insertMany_bindings (env : Env) : (∅ : Env).insertMany env.bindings = env := by
  rw [← Std.ExtTreeMap.ofList_eq_insertMany_empty]
  apply Std.ExtTreeMap.ext_getElem?
  intro name
  cases hget : env[name]? with
  | some v =>
    exact Std.ExtTreeMap.getElem?_ofList_of_mem Std.ReflCmp.compare_self
      Std.ExtTreeMap.distinct_keys_toList (Std.ExtTreeMap.mem_toList_iff_getElem?_eq_some.2 hget)
  | none =>
    apply Std.ExtTreeMap.getElem?_ofList_of_contains_eq_false
    rw [bindings, Std.ExtTreeMap.map_fst_toList_eq_keys]
    simpa using hget

/-! ## The session that was listed -/

namespace Session

/-- The script of the listing makes the session anew. -/
theorem WellNamed.run_script {session : Session} (h : session.WellNamed) (quiet : Bool) :
    ∃ last output, (Script.run quiet (.ofText (script session.listing))).run {} =
      .ok last { session, output } := by
  have hnames : ∀ b ∈ session.bindings, IsName b.1 ∧ Value.constant? b.1 = none :=
    fun b hb => h.of_mem_bindings hb
  have hnewlines : ∀ line ∈ session.bindings.map definitionLine, '\n' ∉ line.toList := by
    rw [List.forall_mem_map]
    exact fun b hb => newline_notMem_definitionLine (hnames b hb).1
  have hlines : (Input.ofText (script session.listing)).lines =
      session.bindings.map definitionLine := by
    rw [script_listing h, Input.lines_ofText_join hnewlines, List.map_map]
    exact List.map_congr_left fun b _ => trim_definitionLine b
  have heval := Session.evalAll_definitionLines hnames ∅
  rw [← expressions_definitionLines, Env.insertMany_bindings] at heval
  rw [Script.run, hlines]
  exact ⟨_, _, Script.loop_of_evalAll heval quiet 1 .empty⟩

theorem WellNamed.eq_of_listing_eq {session session' : Session} (h : session.WellNamed)
    (h' : session'.WellNamed) (hlisting : session.listing = session'.listing) :
    session = session' := by
  obtain ⟨last, output, hrun⟩ := h.run_script true
  obtain ⟨last', output', hrun'⟩ := h'.run_script true
  rw [hlisting, hrun'] at hrun
  exact congrArg Console.session (EStateM.Result.ok.inj hrun).2.symm

/-- The listing of a reachable session, with a definition in the place of each line, is a script
that runs to its end in a fresh session and leaves the same bindings and the same listing. So
reachable sessions have the same listing only if they have the same bindings. -/
theorem Reachable.replay_listing {session : Session} (h : session.Reachable) :
    (∀ quiet, ∃ last console,
      (Script.run quiet (.ofText (script session.listing))).run {} = .ok last console ∧
        console.session.bindings = session.bindings ∧
        console.session.listing = session.listing) ∧
    ∀ session' : Session, session'.Reachable →
      (session.listing = session'.listing ↔ session.bindings = session'.bindings) := by
  constructor
  · intro quiet
    obtain ⟨last, output, hrun⟩ := h.wellNamed.run_script quiet
    exact ⟨last, _, hrun, rfl, rfl⟩
  · intro session' h'
    constructor
    · intro hlisting
      rw [h.wellNamed.eq_of_listing_eq h'.wellNamed hlisting]
    · intro hbindings
      rw [Std.ExtTreeMap.toList_inj.1 hbindings]

/-- The name `=` is bound to a constant, and the listing is cut at the right place. A session that
came to the binding in another way has the same listing. -/
theorem Reachable.replay_listing_equals_sign :
    Env.listing (Call.leave ∅ (.eval "(define = true)")) = "= = true\n" ∧
    (∃ last console, (Script.run false
        (.ofText (script (Env.listing (Call.leave ∅ (.eval "(define = true)")))))).run {} =
          .ok last console ∧
      console.session.bindings = Env.bindings (Call.leave ∅ (.eval "(define = true)")) ∧
      console.session.listing = Env.listing (Call.leave ∅ (.eval "(define = true)"))) ∧
    (Env.listing (Call.leave ∅ (.eval "(define = true)")) =
        Env.listing (Call.leave ∅ (.eval "(define = (> 2 1))")) ↔
      Env.bindings (Call.leave ∅ (.eval "(define = true)")) =
        Env.bindings (Call.leave ∅ (.eval "(define = (> 2 1))"))) := by
  obtain ⟨hreplay, hsame⟩ := (Reachable.new.call (.eval "(define = true)")).replay_listing
  have hother := hsame _ (Reachable.new.call (.eval "(define = (> 2 1))"))
  exact ⟨by decide +kernel, hreplay false, hother⟩

end Session

end LineLisp
