import LineLisp.Proofs.Lines
import LineLisp.Proofs.RoundTrip
import LineLisp.Proofs.Transcript
import LineLisp.Script

/-!
# Runs of scripts

A script evaluates its lines that are not blank, one after the other, and stops at the first of them
that fails. Only what it writes depends on whether it is quiet: a verbose run writes a line for each
value, and a quiet one a line for the last, if none has failed.
-/

namespace LineLisp

/-! ## Source texts in succession -/

namespace Session

theorem eval_of_parse {source : String} {e : Expr} (h : Expr.parse source = .ok e) :
    Session.eval source = e.eval.adaptExcept .eval := by
  simp only [Session.eval, h]

/-- Evaluates source texts one after the other, up to the first that fails. -/
def evalAll (sources : List String) : EStateM Error Session (List Value) :=
  sources.mapM Session.eval

variable {source : String} {sources : List String} {session session' : Session}

theorem evalAll_nil_eq_ok_iff {vs : List Value} :
    (evalAll []).run session = .ok vs session' ↔ vs = [] ∧ session' = session := by
  simp [evalAll, eq_comm]

theorem evalAll_cons_eq_ok_iff {vs : List Value} :
    (evalAll (source :: sources)).run session = .ok vs session' ↔
      ∃ v session₁ vs', (Session.eval source).run session = .ok v session₁ ∧
        (evalAll sources).run session₁ = .ok vs' session' ∧ vs = v :: vs' := by
  simp only [evalAll, List.mapM_cons, EStateM.run_bind]
  cases (Session.eval source).run session with
  | error e session₁ => simp
  | ok v session₁ =>
    cases hrest : (sources.mapM Session.eval).run session₁ with
    | error e session₂ => simp [hrest]
    | ok vs' session₂ => simp [hrest, eq_comm, and_comm]

theorem evalAll_cons_eq_error_iff {e : Error} :
    (evalAll (source :: sources)).run session = .error e session' ↔
      (Session.eval source).run session = .error e session' ∨
      ∃ v session₁, (Session.eval source).run session = .ok v session₁ ∧
        (evalAll sources).run session₁ = .error e session' := by
  simp only [evalAll, List.mapM_cons, EStateM.run_bind]
  cases (Session.eval source).run session with
  | error e session₁ => simp
  | ok v session₁ => cases hrest : (sources.mapM Session.eval).run session₁ <;> simp [hrest]

end Session

/-! ## What values are written as -/

namespace Value

/-- A line for each value. -/
def printed (vs : List Value) : String := String.join ((vs.map render).map (· ++ "\n"))

@[simp] theorem printed_nil : printed [] = "" := rfl

@[simp] theorem printed_cons (v : Value) (vs : List Value) :
    printed (v :: vs) = v.render ++ "\n" ++ printed vs := by
  simp [printed, String.join_cons]

/-- No value takes more than its line. -/
theorem splitLines_printed (vs : List Value) :
    splitLines (printed vs).toUTF8.data.toList =
      (vs.map fun v => v.render.toUTF8.data.toList, []) := by
  have hlines : ∀ line ∈ vs.map render, '\n' ∉ line.toList := by
    rw [List.forall_mem_map]
    exact fun v _ => v.wellFormed_render.notMem (by decide)
  rw [printed, splitLines_toUTF8_join hlines, List.map_map]
  rfl

end Value

/-! ## Lines of a script -/

namespace Script

/-- The lines that are evaluated: those that are not blank. -/
def expressions (lines : List String) : List String := lines.filter (· ≠ "")

theorem expressions_blank {line : String} (h : line = "") (lines : List String) :
    expressions (line :: lines) = expressions lines := by
  simp [expressions, h]

theorem expressions_cons {line : String} (h : line ≠ "") (lines : List String) :
    expressions (line :: lines) = line :: expressions lines := by
  simp [expressions, h]

variable {quiet : Bool} {fault : Option Fault} {number : Nat} {last : Option Value}
  {line : String} {lines rest : List String} {session session₁ session' : Session}
  {v : Value} {vs : List Value} {e : Error} {result : Except ScriptError (Option Value)}
  {text : String}

theorem yields_evaluate (h : (Session.eval line).run session = .ok v session') :
    Yields (evaluate number line) session (.ok v) "" session' := by
  intro written
  simp only [EStateM.run] at h
  simp [evaluate, EStateM.run, h]

theorem yields_evaluate_error (h : (Session.eval line).run session = .error e session') :
    Yields (evaluate number line) session (.error (.line number e)) "" session' := by
  intro written
  simp only [EStateM.run] at h
  simp [evaluate, EStateM.run, h]

theorem yields_print (v : Value) (session : Session) :
    Yields (print v) session (.ok ()) (Value.printed [v]) session := by
  simpa [print] using (Yields.write (v.render ++ "\n") session).adaptExcept ScriptError.stream

theorem yields_finish (quiet : Bool) (last : Option Value) (session : Session) :
    Yields (finish quiet last) session (.ok last) (if quiet then Value.printed last.toList else "")
      session := by
  cases last with
  | none => cases quiet <;> exact .pure none session
  | some v =>
    cases quiet with
    | false => exact .pure (some v) session
    | true =>
      have hprint := (yields_print v session).bind (f := fun _ => pure (some v)) (.pure _ session)
      simpa [finish] using hprint

theorem loop_nil (quiet : Bool) (number : Nat) (last : Option Value) (session : Session) :
    Yields (loop quiet none number last []) session (.ok last)
      (if quiet then Value.printed last.toList else "") session :=
  yields_finish quiet last session

/-- A line that has a value is done, and its value is written unless the run is quiet. -/
theorem loop_cons (hline : line ≠ "") (heval : (Session.eval line).run session = .ok v session₁)
    (hrest : Yields (loop quiet fault (number + 1) (some v) lines) session₁ result text session') :
    Yields (loop quiet fault number last (line :: lines)) session result
      ((if quiet then "" else Value.printed [v]) ++ text) session' := by
  rw [loop, if_neg hline]
  cases quiet with
  | false => simpa using (yields_evaluate heval).bind ((yields_print v session₁).bind hrest)
  | true => simpa using (yields_evaluate heval).bind hrest

theorem loop_cons_error (hline : line ≠ "")
    (heval : (Session.eval line).run session = .error e session') :
    Yields (loop quiet fault number last (line :: lines)) session (.error (.line number e)) ""
      session' := by
  rw [loop, if_neg hline]
  exact (yields_evaluate_error heval).bind_error _

/-- A script goes on behind lines that have values. -/
theorem loop_append (h : (Session.evalAll (expressions lines)).run session = .ok vs session₁)
    (hrest : Yields (loop quiet fault (number + lines.length) (vs.getLast?.or last) rest) session₁
      result text session') :
    Yields (loop quiet fault number last (lines ++ rest)) session result
      ((if quiet then "" else Value.printed vs) ++ text) session' := by
  induction lines generalizing session vs number last with
  | nil =>
    obtain ⟨rfl, rfl⟩ := Session.evalAll_nil_eq_ok_iff.1 h
    simpa using hrest
  | cons line lines ih =>
    -- Every line counts, but only an expression gives a new last value.
    have hnumber : number + (line :: lines).length = number + 1 + lines.length := by
      rw [List.length_cons]
      omega
    rw [hnumber] at hrest
    by_cases hline : line = ""
    · rw [expressions_blank hline] at h
      rw [List.cons_append, loop, if_pos hline]
      exact ih h hrest
    · rw [expressions_cons hline, Session.evalAll_cons_eq_ok_iff] at h
      obtain ⟨v, session₂, vs', heval, hlines, rfl⟩ := h
      have hlast : (v :: vs').getLast?.or last = vs'.getLast?.or (some v) := by
        simp [List.getLast?_cons]
      rw [hlast] at hrest
      have hloop : Yields (loop quiet fault number last (line :: (lines ++ rest))) session result _
          session' := loop_cons hline heval (ih hlines hrest)
      cases quiet <;> simpa [String.append_assoc] using hloop

/-- All lines have values. -/
theorem loop_of_evalAll (h : (Session.evalAll (expressions lines)).run session = .ok vs session')
    (quiet : Bool) (number : Nat) :
    Yields (loop quiet none number none lines) session (.ok vs.getLast?)
      (if quiet then Value.printed vs.getLast?.toList else Value.printed vs) session' := by
  have hloop := loop_append h
    (loop_nil quiet (number + lines.length) (vs.getLast?.or none) session')
  cases quiet <;> simpa using hloop

/-- The lines up to one that fails have values. -/
theorem loop_of_error (h : (Session.evalAll (expressions lines)).run session = .ok vs session₁)
    (hline : line ≠ "") (heval : (Session.eval line).run session₁ = .error e session')
    (quiet : Bool) (fault : Option Fault) (number : Nat) (last : Option Value)
    (rest : List String) :
    Yields (loop quiet fault number last (lines ++ line :: rest)) session
      (.error (.line (number + lines.length) e)) (if quiet then "" else Value.printed vs)
      session' := by
  simpa using loop_append h (loop_cons_error hline heval)

/-- If some line fails, there is a first one. -/
theorem exists_first_error
    (h : (Session.evalAll (expressions lines)).run session = .error e session') :
    ∃ before line rest vs session₁, lines = before ++ line :: rest ∧
      (Session.evalAll (expressions before)).run session = .ok vs session₁ ∧ line ≠ "" ∧
      (Session.eval line).run session₁ = .error e session' := by
  induction lines generalizing session with
  | nil => cases h
  | cons line lines ih =>
    by_cases hline : line = ""
    · rw [expressions_blank hline] at h
      obtain ⟨before, line', rest, vs, session₁, rfl, hbefore, herror⟩ := ih h
      refine ⟨line :: before, line', rest, vs, session₁, rfl, ?_, herror⟩
      rwa [expressions_blank hline]
    · rw [expressions_cons hline, Session.evalAll_cons_eq_error_iff] at h
      rcases h with herror | ⟨v, session₂, heval, h⟩
      · exact ⟨[], line, lines, [], session, rfl, rfl, hline, herror⟩
      · obtain ⟨before, line', rest, vs, session₁, rfl, hbefore, herror⟩ := ih h
        refine ⟨line :: before, line', rest, v :: vs, session₁, rfl, ?_, herror⟩
        rw [expressions_cons hline, Session.evalAll_cons_eq_ok_iff]
        exact ⟨v, session₂, vs, heval, hbefore, rfl⟩

/-! ## Scripts of bytes -/

theorem run_ofBytes (quiet : Bool) (bytes : List UInt8) :
    run quiet (.ofBytes bytes) = loop quiet none 1 none ((inclusiveLines bytes).map lineText) := by
  rw [run, Input.lines_ofBytes]
  rfl

/-- A line that fails is what a script comes to, whatever stands behind the line. -/
theorem run_lineCut (cut : LineCut)
    (hbefore : (Session.evalAll (expressions ((inclusiveLines cut.before).map lineText))).run
      session = .ok vs session₁)
    (hline : lineText cut.line ≠ "")
    (heval : (Session.eval (lineText cut.line)).run session₁ = .error e session') (quiet : Bool) :
    Yields (run quiet (.ofBytes cut.bytes)) session
      (.error (.line (cut.before.count newline + 1) e)) (if quiet then "" else Value.printed vs)
      session' := by
  have hne : cut.line ≠ [] := by
    intro hnil
    exact hline (by rw [hnil]; rfl)
  have hloop := loop_of_error hbefore hline heval quiet none 1 none
    ((inclusiveLines (cut.after.getD [])).map lineText)
  rw [List.length_map, length_inclusiveLines cut.wholeLines_before, Nat.add_comm] at hloop
  rwa [run_ofBytes, cut.map_lineText_bytes hne]

/-- A quiet run and a verbose run of a script come to the same result and leave the same session.
If no line fails, the verbose run writes a line for each expression and the quiet run the last of
these lines, if there is one. If a line fails, it is the first one to do so, and its number tells
the newlines before it. Then the verbose run has written a line for each expression up to there,
the quiet run nothing, and neither has looked at what stands behind the line. -/
theorem run_quiet_and_verbose (bytes : List UInt8) (session : Session) :
    ∃ result verbose quiet session',
      Yields (run false (.ofBytes bytes)) session result verbose session' ∧
      Yields (run true (.ofBytes bytes)) session result quiet session' ∧
      match result with
      | .ok last =>
        ∃ vs, (Session.evalAll (expressions ((inclusiveLines bytes).map lineText))).run session =
            .ok vs session' ∧
          last = vs.getLast? ∧ verbose = Value.printed vs ∧
          splitLines verbose.toUTF8.data.toList =
            (vs.map fun v => v.render.toUTF8.data.toList, []) ∧
          quiet = Value.printed last.toList
      | .error (.line number e) =>
        quiet = "" ∧ ∃ (cut : LineCut) (vs : List Value) (session₁ : Session),
          cut.bytes = bytes ∧ number = cut.before.count newline + 1 ∧
          (Session.evalAll (expressions ((inclusiveLines cut.before).map lineText))).run session =
            .ok vs session₁ ∧
          lineText cut.line ≠ "" ∧
          (Session.eval (lineText cut.line)).run session₁ = .error e session' ∧
          verbose = Value.printed vs ∧
          ∀ after : Option (List UInt8),
            Yields (run false (.ofBytes { cut with after }.bytes)) session result verbose session' ∧
            Yields (run true (.ofBytes { cut with after }.bytes)) session result quiet session'
      | .error (.stream _) => False := by
  cases h : (Session.evalAll (expressions ((inclusiveLines bytes).map lineText))).run session with
  | ok vs session' =>
    have hrun (quiet : Bool) := loop_of_evalAll h quiet 1
    simp only [← run_ofBytes] at hrun
    exact ⟨_, _, _, session', hrun false, hrun true, vs, rfl, rfl, rfl,
      Value.splitLines_printed vs, rfl⟩
  | error e session' =>
    obtain ⟨before, line, rest, vs, session₁, hlines, hbefore, hline, heval⟩ := exists_first_error h
    obtain ⟨cut, rfl, rfl, rfl⟩ := exists_lineCut hlines
    have hrun (after : Option (List UInt8)) :=
      run_lineCut { cut with after } hbefore hline heval
    exact ⟨_, _, _, session', hrun cut.after false, hrun cut.after true, rfl, cut, vs, session₁,
      rfl, rfl, hbefore, hline, heval, rfl, fun after => ⟨hrun after false, hrun after true⟩⟩

end Script

end LineLisp
