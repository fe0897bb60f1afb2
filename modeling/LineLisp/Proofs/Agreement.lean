import LineLisp.Proofs.Dialogue
import LineLisp.Proofs.Scripts

/-!
# Dialogues and scripts

A line that is no command of the interactive loop means the same to the loop as to a script. With an
empty prompt the loop then writes what a verbose script writes, between the banner and the farewell.
Only at a line that fails do they part: the script ends there, and the loop reports the error and
goes on.
-/

namespace LineLisp.Repl

open Script

/-- The line is blank or an expression: it does not ask to leave, for the bindings or for help. -/
def Plain (line : String) : Prop := line.toLower ≠ "exit" ∧ line ≠ ":env" ∧ line ≠ ":help"

instance (line : String) : Decidable (Plain line) := inferInstanceAs (Decidable (_ ∧ _))

variable {line : String} {lines rest : List String} {session session₁ session₂ session' : Session}
  {vs : List Value} {e : Error} {result : Except Fault Unit} {text : String}

theorem answer_blank (session : Session) : (Command.ofLine "").answer session = ("", session) := by
  have hline : Command.ofLine "" = .nothing := by decide +kernel
  rw [hline, Command.answer]

theorem answer_of_plain (h : Plain line) (hne : line ≠ "") (session : Session) :
    (Command.ofLine line).answer session = session.respond line := by
  obtain ⟨hexit, hbindings, hhelp⟩ := h
  simp [Command.ofLine, hexit, hne, hbindings, hhelp, Command.answer]

/-- Without a prompt, the dialogue over lines that have values shows these values. -/
theorem dialogue_of_evalAll (hplain : ∀ line ∈ lines, Plain line)
    (h : (Session.evalAll (expressions lines)).run session = .ok vs session') :
    dialogue "" session lines = (Value.printed vs, session') := by
  induction lines generalizing session vs with
  | nil =>
    obtain ⟨rfl, rfl⟩ := Session.evalAll_nil_eq_ok_iff.1 h
    rfl
  | cons line lines ih =>
    rw [List.forall_mem_cons] at hplain
    by_cases hline : line = ""
    · rw [expressions_blank hline] at h
      simpa [hline] using dialogue_cons (answer_blank session) (ih hplain.2 h)
    · rw [expressions_cons hline, Session.evalAll_cons_eq_ok_iff] at h
      obtain ⟨v, session₁, vs', heval, hlines, rfl⟩ := h
      have hanswer : (Command.ofLine line).answer session = (v.render ++ "\n", session₁) := by
        rw [answer_of_plain hplain.1 hline, Session.respond, heval]
      simpa using dialogue_cons hanswer (ih hplain.2 hlines)

/-- The first line that fails is answered by its error, and the loop goes on. -/
theorem loop_of_error (hplain : ∀ line ∈ lines, Plain line)
    (h : (Session.evalAll (expressions lines)).run session = .ok vs session₁)
    (hline : Plain line) (hne : line ≠ "")
    (heval : (Session.eval line).run session₁ = .error e session₂)
    (hrest : Yields (loop "" none rest) session₂ result text session') :
    Yields (loop "" none (lines ++ line :: rest)) session result
      (Value.printed vs ++ ("Error: " ++ e.message ++ "\n") ++ text) session' := by
  have hanswer : (Command.ofLine line).answer session₁ =
      ("Error: " ++ e.message ++ "\n", session₂) := by
    rw [answer_of_plain hline hne, Session.respond, heval]
  have hloop := loop_append (fun line hmem => (hplain line hmem).1) (dialogue_of_evalAll hplain h)
    (loop_cons hline.1 hanswer hrest)
  simpa [String.append_assoc] using hloop

/-- Over lines that are no commands, the loop with an empty prompt writes what a verbose script
writes. If no line fails, nothing but the banner and the farewell comes in addition, and both leave
the same session. If a line fails, the loop reports the error of the script, and over the lines up
to this one it leaves the session that the script leaves. -/
theorem run_script_agree {bytes : List UInt8}
    (hplain : ∀ line ∈ inclusiveLines bytes, Plain (lineText line)) (session : Session) :
    ∃ result text session',
      Yields (Script.run false (.ofBytes bytes)) session result text session' ∧
      match result with
      | .ok _ =>
        Yields (run "" (.ofBytes bytes)) session (.ok ()) (banner ++ text ++ farewell) session'
      | .error (.line number e) =>
        (∃ tail session₁, Yields (run "" (.ofBytes bytes)) session (.ok ())
          (banner ++ text ++ ("Error: " ++ e.message ++ "\n") ++ tail) session₁) ∧
        Yields (run "" (.ofBytes (firstLines number bytes))) session (.ok ())
          (banner ++ text ++ ("Error: " ++ e.message ++ "\n") ++ farewell) session'
      | .error (.stream _) => False := by
  have hlines : ∀ text ∈ (inclusiveLines bytes).map lineText, Plain text :=
    List.forall_mem_map.2 hplain
  simp only [Script.run_ofBytes]
  cases h : (Session.evalAll (expressions ((inclusiveLines bytes).map lineText))).run session with
  | ok vs session' =>
    refine ⟨_, _, session', Script.loop_of_evalAll h false 1, ?_⟩
    simpa using run_of_dialogue (fun line hmem => (hplain line hmem).1)
      (dialogue_of_evalAll hlines h)
  | error e session' =>
    obtain ⟨before, line, rest, vs, session₁, hbytes, hbefore, hne, heval⟩ := exists_first_error h
    rw [hbytes] at hlines
    simp only [List.forall_mem_append, List.forall_mem_cons] at hlines
    obtain ⟨hplainBefore, hplainLine, -⟩ := hlines
    have hscript := Script.loop_of_error hbefore hne heval false none 1 none rest
    rw [← hbytes] at hscript
    refine ⟨_, _, session', hscript, ?_, ?_⟩
    · obtain ⟨tail, session₂, htail⟩ := exists_yields_loop "" rest session'
      have hloop := loop_of_error hplainBefore hbefore hplainLine hne heval htail
      rw [← hbytes] at hloop
      refine ⟨tail, session₂, ?_⟩
      simpa [String.append_assoc] using yields_run hloop
    · have hfirst : (inclusiveLines (firstLines (1 + before.length) bytes)).map lineText =
          before ++ [line] := by
        rw [map_lineText_firstLines, hbytes, List.take_append, List.take_of_length_le (by omega)]
        simp
      have hloop := loop_of_error hplainBefore hbefore hplainLine hne heval (loop_nil "" session')
      rw [← hfirst] at hloop
      simpa [String.append_assoc] using yields_run hloop

/-- The script `1`, a blank line that ends in a carriage return, and `x` without a newline fails at
its third line, and so the loop reports that `x` has no value. -/
theorem run_script_agree_undefined :
    let bytes : List UInt8 := [0x31, 0x0A, 0x0D, 0x0A, 0x78]
    let report := "Error: " ++ (EvalError.undefinedSymbol "x").message ++ "\n"
    Yields (Script.run false (.ofBytes bytes)) ∅
      (.error (.line 3 (.eval (.undefinedSymbol "x")))) "1\n" ∅ ∧
    (∃ tail session, Yields (run "" (.ofBytes bytes)) ∅ (.ok ())
      (banner ++ "1\n" ++ report ++ tail) session) ∧
    Yields (run "" (.ofBytes (firstLines 3 bytes))) ∅ (.ok ())
      (banner ++ "1\n" ++ report ++ farewell) ∅ := by
  intro bytes report
  let cut : LineCut := ⟨[0x31, 0x0A, 0x0D, 0x0A], [0x78], none, .inr rfl, by decide⟩
  have hbefore : (Session.evalAll (expressions ((inclusiveLines cut.before).map lineText))).run ∅ =
      .ok [.int .one] ∅ := by
    have hlines : expressions ((inclusiveLines cut.before).map lineText) = ["1"] := by
      decide +kernel
    have hone : (Session.eval "1").run ∅ = .ok (.int .one) ∅ := by
      rw [Session.eval_of_parse (e := .num .one) (by decide +kernel)]
      rfl
    rw [hlines, Session.evalAll_cons_eq_ok_iff]
    exact ⟨_, ∅, [], hone, rfl, rfl⟩
  have hline : lineText cut.line = "x" := by decide +kernel
  have hx : (Session.eval (lineText cut.line)).run ∅ = .error (.eval (.undefinedSymbol "x")) ∅ := by
    rw [hline, Session.eval_of_parse (e := .sym "x") (by decide +kernel)]
    rfl
  have hscript : Yields (Script.run false (.ofBytes bytes)) ∅
      (.error (.line 3 (.eval (.undefinedSymbol "x")))) (Value.printed [.int .one]) ∅ :=
    run_lineCut cut hbefore (by simp [hline]) hx false
  have hplain : ∀ line ∈ inclusiveLines bytes, Plain (lineText line) := by decide +kernel
  obtain ⟨result, text, session', hyields, hagree⟩ := run_script_agree hplain ∅
  obtain ⟨rfl, rfl, rfl⟩ := hyields.unique hscript
  exact ⟨hscript, hagree⟩

end LineLisp.Repl
