import LineLisp.Proofs.Dialogue
import LineLisp.Proofs.Scripts

/-!
# Inputs that fail

An input that fails delivers the lines that a newline has ended, and then its fault in the place of
the next one. So a run over it does what a run over these lines does, up to the point where that one
finds the end of the input. A run that has stopped before never meets the fault.
-/

namespace LineLisp

/-! ## The lines before the fault -/

/-- The bytes up to the last newline. -/
def endedLines (bytes : List UInt8) : List UInt8 :=
  (splitLines bytes).1.flatMap (· ++ [newline])

theorem wholeLines_flatMap (lines : List (List UInt8)) :
    WholeLines (lines.flatMap (· ++ [newline])) := by
  induction lines with
  | nil => exact .inl rfl
  | cons line lines ih => simpa using wholeLines_append_newline_iff.2 ih

theorem splitLines_flatMap {lines : List (List UInt8)} (h : ∀ line ∈ lines, newline ∉ line) :
    splitLines (lines.flatMap (· ++ [newline])) = (lines, []) := by
  induction lines with
  | nil => rfl
  | cons line lines ih =>
    rw [List.forall_mem_cons] at h
    simp [splitLines_append_newline h.1, ih h.2]

/-- No line ends behind the last newline. -/
theorem isPrefix_endedLines {bytes other : List UInt8} (hother : other <+: bytes)
    (h : WholeLines other) : other <+: endedLines bytes := by
  have hrest := (newline_notMem_splitLines bytes).2
  have hjoin : endedLines bytes ++ (splitLines bytes).2 = bytes := join_splitLines bytes
  obtain ⟨tail, htail⟩ := hother
  rcases List.append_eq_append_iff.1 (htail.trans hjoin.symm) with
    ⟨between, hended, -⟩ | ⟨between, rfl, hbetween⟩
  · exact ⟨between, hended.symm⟩
  · -- What stands between would end in a newline, but the rest has none.
    rcases List.eq_nil_or_concat between with rfl | ⟨init, b, rfl⟩
    · simp
    · obtain rfl : b = newline := by simpa [WholeLines, ← List.append_assoc] using h
      simp [hbetween] at hrest

namespace Input

/-- An input that fails behind the bytes. -/
def failing (bytes : List UInt8) (fault : Fault) : Input :=
  { ofBytes bytes with fault := some fault }

theorem lines_failing (bytes : List UInt8) (fault : Fault) :
    (failing bytes fault).lines = (inclusiveLines (endedLines bytes)).map lineText := by
  have hlines := splitLines_flatMap (newline_notMem_splitLines bytes).1
  rw [← lines_ofBytes]
  simp [lines, rawLines, failing, ofBytes, endedLines, hlines]

end Input

/-! ## Runs that meet the fault -/

namespace Repl

variable {prompt : String} {lines : List String} {session session' : Session} {body : String}

theorem loop_nil_failing (prompt : String) (fault : Fault) (session : Session) :
    Yields (loop prompt (some fault) []) session (.error fault) prompt session := by
  have hloop : Yields (loop prompt (some fault) []) session (.error fault) (prompt ++ "") session :=
    (Yields.write prompt session).bind (.throw fault session)
  simpa using hloop

/-- The loop stops where it asks for a line in vain. -/
theorem loop_failing (h : ∀ line ∈ lines, line.toLower ≠ "exit")
    (hdialogue : dialogue prompt session lines = (body, session')) (fault : Fault) :
    Yields (loop prompt (some fault) lines) session (.error fault) (body ++ prompt) session' := by
  simpa using loop_append h hdialogue (loop_nil_failing prompt fault session')

/-- A loop that is left does not come to the end of its input. -/
theorem loop_eq_of_exit (h : ∃ line ∈ lines, line.toLower = "exit") (fault fault' : Option Fault) :
    loop prompt fault lines = loop prompt fault' lines := by
  induction lines with
  | nil => simp at h
  | cons line lines ih =>
    by_cases hline : line.toLower = "exit"
    · rw [loop_cons_of_exit hline, loop_cons_of_exit hline]
    · rw [loop, loop, ih (by simpa [hline] using h)]

theorem run_failing_of_exit {bytes : List UInt8}
    (h : ∃ line ∈ inclusiveLines (endedLines bytes), (lineText line).toLower = "exit")
    (prompt : String) (fault : Fault) :
    run prompt (.failing bytes fault) = run prompt (.ofBytes (endedLines bytes)) := by
  obtain ⟨line, hline, hexit⟩ := h
  have hmem : ∃ text ∈ (inclusiveLines (endedLines bytes)).map lineText, text.toLower = "exit" :=
    ⟨lineText line, List.mem_map_of_mem hline, hexit⟩
  rw [run_ofBytes, run, Input.lines_failing, loop_eq_of_exit hmem]

/-- What is written before the fault lacks only the farewell. -/
theorem exists_run_failing {bytes : List UInt8}
    (h : ∀ line ∈ inclusiveLines (endedLines bytes), (lineText line).toLower ≠ "exit")
    (prompt : String) (fault : Fault) (session : Session) :
    ∃ text session',
      Yields (run prompt (.ofBytes (endedLines bytes))) session (.ok ()) (text ++ farewell)
        session' ∧
      Yields (run prompt (.failing bytes fault)) session (.error fault) text session' := by
  rcases hbody : dialogue prompt session ((inclusiveLines (endedLines bytes)).map lineText) with
    ⟨body, session'⟩
  refine ⟨banner ++ body ++ prompt, session', run_of_dialogue h hbody, ?_⟩
  have hloop := loop_failing (List.forall_mem_map.2 h) hbody fault
  rw [← Input.lines_failing bytes fault] at hloop
  have hrun : Yields (run prompt (.failing bytes fault)) session (.error fault)
      (banner ++ (body ++ prompt)) session' := (Yields.write banner session).bind hloop
  simpa only [String.append_assoc] using hrun

end Repl

namespace Script

theorem loop_nil_failing (quiet : Bool) (fault : Fault) (number : Nat) (last : Option Value)
    (session : Session) :
    Yields (loop quiet (some fault) number last []) session (.error (.stream fault)) "" session :=
  .throw _ session

theorem loop_failing {lines : List String} {session session' : Session} {vs : List Value}
    (h : (Session.evalAll (expressions lines)).run session = .ok vs session') (quiet : Bool)
    (fault : Fault) (number : Nat) (last : Option Value) :
    Yields (loop quiet (some fault) number last lines) session (.error (.stream fault))
      (if quiet then "" else Value.printed vs) session' := by
  simpa using loop_append h (loop_nil_failing quiet fault _ _ session')

end Script

/-- An input that fails delivers the longest beginning of its bytes that is made of lines. If one of
these asks to leave, the loop does what it does over these lines alone. Otherwise it comes to the
fault, with the session and the text of a dialogue over these lines, but without the farewell. A
script ends with the error of the line that fails, if there is one, and otherwise with the fault.
It leaves the session that it leaves over these lines, and has written the same, except that a quiet
run has written nothing. -/
theorem run_failing (bytes : List UInt8) (fault : Fault) :
    (endedLines bytes <+: bytes ∧ WholeLines (endedLines bytes) ∧
      ∀ other, other <+: bytes → WholeLines other → other <+: endedLines bytes) ∧
    ∀ session : Session,
      (∀ prompt : String,
        ((∃ line ∈ inclusiveLines (endedLines bytes), (lineText line).toLower = "exit") →
          Repl.run prompt (.failing bytes fault) = Repl.run prompt (.ofBytes (endedLines bytes)) ∧
          ∃ text session',
            Yields (Repl.run prompt (.failing bytes fault)) session (.ok ()) text session') ∧
        ((∀ line ∈ inclusiveLines (endedLines bytes), (lineText line).toLower ≠ "exit") →
          ∃ text session',
            Yields (Repl.run prompt (.ofBytes (endedLines bytes))) session (.ok ())
              (text ++ Repl.farewell) session' ∧
            Yields (Repl.run prompt (.failing bytes fault)) session (.error fault) text session')) ∧
      ∀ quiet : Bool, ∃ result text session',
        Yields (Script.run quiet (.ofBytes (endedLines bytes))) session result text session' ∧
        match result with
        | .error (.line _ _) =>
          (quiet → text = "") ∧
          Yields (Script.run quiet (.failing bytes fault)) session result text session'
        | .ok _ =>
          Yields (Script.run quiet (.failing bytes fault)) session (.error (.stream fault))
            (if quiet then "" else text) session'
        | .error (.stream _) => False := by
  have hlines := Input.lines_failing bytes fault
  refine ⟨⟨⟨_, join_splitLines bytes⟩, wholeLines_flatMap _, fun other => isPrefix_endedLines⟩,
    fun session => ⟨fun prompt => ⟨fun h => ?_, fun h => ?_⟩, fun quiet => ?_⟩⟩
  · have hrun := Repl.run_failing_of_exit h prompt fault
    obtain ⟨text, session', hloop⟩ :=
      Repl.exists_yields_loop prompt ((inclusiveLines (endedLines bytes)).map lineText) session
    exact ⟨hrun, _, session', hrun ▸ Repl.yields_run hloop⟩
  · exact Repl.exists_run_failing h prompt fault session
  · simp only [Script.run_ofBytes]
    cases h : (Session.evalAll (Script.expressions
        ((inclusiveLines (endedLines bytes)).map lineText))).run session with
    | ok vs session' =>
      have hloop := Script.loop_failing h quiet fault 1 none
      rw [← hlines] at hloop
      refine ⟨_, _, session', Script.loop_of_evalAll h quiet 1, ?_⟩
      cases quiet <;> exact hloop
    | error e session' =>
      obtain ⟨before, line, rest, vs, session₁, hsplit, hbefore, hline, heval⟩ :=
        Script.exists_first_error h
      have hrun (fault : Option Fault) :=
        Script.loop_of_error hbefore hline heval quiet fault 1 none rest
      rw [← hsplit] at hrun
      refine ⟨_, _, session', hrun none, by simp +contextual, ?_⟩
      rw [← hlines] at hrun
      exact hrun (some fault)

/-- Of `1` and a line that is cut off, the loop answers the first one. Behind `exit` it does not
notice that the input fails. -/
theorem run_failing_cut_line :
    (∃ text session',
      Yields (Repl.run "> " (.ofBytes [0x31, 0x0A])) ∅ (.ok ()) (text ++ Repl.farewell) session' ∧
      Yields (Repl.run "> " (.failing [0x31, 0x0A, 0x32] ⟨"reset"⟩)) ∅ (.error ⟨"reset"⟩) text
        session') ∧
    Repl.run "> " (.failing [0x65, 0x78, 0x69, 0x74, 0x0A, 0x32] ⟨"reset"⟩) =
      Repl.run "> " (.ofBytes [0x65, 0x78, 0x69, 0x74, 0x0A]) :=
  ⟨(((run_failing [0x31, 0x0A, 0x32] ⟨"reset"⟩).2 ∅).1 "> ").2 (by decide +kernel),
    ((((run_failing [0x65, 0x78, 0x69, 0x74, 0x0A, 0x32] ⟨"reset"⟩).2 ∅).1 "> ").1
      (by decide +kernel)).1⟩

end LineLisp
