import LineLisp.Proofs.Lines
import LineLisp.Proofs.Transcript
import LineLisp.Repl

/-!
# Dialogues

The interactive loop carries nothing from one line to the next but the session. So a dialogue over
two inputs is the dialogue over the first and, from the session that it leaves, the dialogue over
the second, without the farewell and the banner between them. A line that asks to leave ends it.
-/

namespace LineLisp

theorem Command.ofLine_eq_exit_iff {line : String} :
    ofLine line = .exit ↔ line.toLower = "exit" := by
  grind [ofLine]

namespace Repl

/-- What the loop writes as it answers lines, and the session that they leave. -/
def dialogue (prompt : String) : Session → List String → String × Session
  | session, [] => ("", session)
  | session, line :: lines =>
    let (answer, session) := (Command.ofLine line).answer session
    let (text, session) := dialogue prompt session lines
    (prompt ++ answer ++ text, session)

variable {prompt : String} {fault : Option Fault} {line : String} {lines rest : List String}
  {session session₁ session' : Session} {result : Except Fault Unit} {answer text body : String}

theorem dialogue_cons (hanswer : (Command.ofLine line).answer session = (answer, session₁))
    (hlines : dialogue prompt session₁ lines = (text, session')) :
    dialogue prompt session (line :: lines) = (prompt ++ answer ++ text, session') := by
  simp only [dialogue, hanswer, hlines]

theorem yields_perform {command : Command} (h : command.answer session = (answer, session')) :
    Yields (perform command) session (.ok ()) answer session' := by
  obtain ⟨rfl, rfl⟩ := Prod.mk.inj h
  exact fun _ => rfl

theorem loop_nil (prompt : String) (session : Session) :
    Yields (loop prompt none []) session (.ok ()) (prompt ++ farewell) session :=
  (Yields.write prompt session).bind (.write farewell session)

/-- A line that does not ask to leave is answered, and the loop goes on. -/
theorem loop_cons (h : line.toLower ≠ "exit")
    (hanswer : (Command.ofLine line).answer session = (answer, session₁))
    (hrest : Yields (loop prompt fault lines) session₁ result text session') :
    Yields (loop prompt fault (line :: lines)) session result (prompt ++ answer ++ text)
      session' := by
  have hline : Command.ofLine line ≠ .exit := Command.ofLine_eq_exit_iff.not.2 h
  have hloop := (Yields.write prompt session).bind (f := fun _ => do
    perform (Command.ofLine line)
    loop prompt fault lines) ((yields_perform hanswer).bind hrest)
  rw [← String.append_assoc] at hloop
  simpa [loop, turn, hline] using hloop

theorem loop_cons_of_exit (h : line.toLower = "exit") (lines : List String) :
    loop prompt fault (line :: lines) = (do Console.write prompt; perform .exit) := by
  simp [loop, turn, Command.ofLine_eq_exit_iff.2 h]

/-- Over an input that does not fail, the loop comes to its end. -/
theorem exists_yields_loop (prompt : String) (lines : List String) (session : Session) :
    ∃ text session', Yields (loop prompt none lines) session (.ok ()) text session' := by
  induction lines generalizing session with
  | nil => exact ⟨_, session, loop_nil prompt session⟩
  | cons line lines ih =>
    by_cases h : line.toLower = "exit"
    · rw [loop_cons_of_exit h]
      exact ⟨_, _, (Yields.write prompt session).bind (yields_perform rfl)⟩
    · obtain ⟨text, session', hrest⟩ := ih ((Command.ofLine line).answer session).2
      exact ⟨_, session', loop_cons h rfl hrest⟩

/-- The loop goes on behind lines that do not ask to leave. -/
theorem loop_append (h : ∀ line ∈ lines, line.toLower ≠ "exit")
    (hdialogue : dialogue prompt session lines = (body, session₁))
    (hrest : Yields (loop prompt fault rest) session₁ result text session') :
    Yields (loop prompt fault (lines ++ rest)) session result (body ++ text) session' := by
  induction lines generalizing session body with
  | nil =>
    obtain ⟨rfl, rfl⟩ := Prod.mk.inj hdialogue
    simpa using hrest
  | cons line lines ih =>
    rw [List.forall_mem_cons] at h
    obtain ⟨rfl, hsession⟩ := Prod.mk.inj hdialogue
    have hloop := loop_cons h.1 rfl (ih h.2 (Prod.ext rfl hsession))
    rwa [← String.append_assoc] at hloop

/-- Nothing is read behind a line that asks to leave. -/
theorem loop_append_of_exit (h : ∃ line ∈ lines, line.toLower = "exit") (rest : List String) :
    loop prompt fault (lines ++ rest) = loop prompt fault lines := by
  induction lines with
  | nil => simp at h
  | cons line lines ih =>
    by_cases hline : line.toLower = "exit"
    · rw [List.cons_append, loop_cons_of_exit hline, loop_cons_of_exit hline]
    · have hlines : ∃ line ∈ lines, line.toLower = "exit" := by simpa [hline] using h
      rw [List.cons_append, loop, loop, ih hlines]

/-! ## Dialogues over bytes -/

/-- The loop reads each line with its newline. -/
theorem run_ofBytes (prompt : String) (bytes : List UInt8) :
    run prompt (.ofBytes bytes) = (do
      Console.write banner
      loop prompt none ((inclusiveLines bytes).map lineText)) := by
  rw [run, Input.lines_ofBytes]
  rfl

theorem yields_run {bytes : List UInt8}
    (h : Yields (loop prompt none ((inclusiveLines bytes).map lineText)) session result text
      session') :
    Yields (run prompt (.ofBytes bytes)) session result (banner ++ text) session' := by
  rw [run_ofBytes]
  exact (Yields.write banner session).bind h

/-- A dialogue to the end of the input. -/
theorem run_of_dialogue {bytes : List UInt8}
    (h : ∀ line ∈ inclusiveLines bytes, (lineText line).toLower ≠ "exit")
    (hdialogue : dialogue prompt session ((inclusiveLines bytes).map lineText) =
      (body, session')) :
    Yields (run prompt (.ofBytes bytes)) session (.ok ()) (banner ++ body ++ prompt ++ farewell)
      session' := by
  have hloop := loop_append (List.forall_mem_map.2 h) hdialogue (loop_nil prompt session')
  rw [List.append_nil] at hloop
  simpa only [String.append_assoc] using yields_run hloop

/-- If a line of the first bytes asks to leave, the loop does the same with and without the bytes
that follow. Otherwise what it writes over both is what it writes over the first, up to the last
prompt and the farewell, and then what it writes over the second behind the banner; and it leaves
the session in which the second dialogue ends, begun from where the first one ended. -/
theorem run_append_bytes {first : List UInt8} (hfirst : WholeLines first) (second : List UInt8)
    (prompt : String) (session : Session) :
    ((∃ line ∈ inclusiveLines first, (lineText line).toLower = "exit") →
      run prompt (.ofBytes (first ++ second)) = run prompt (.ofBytes first)) ∧
    ((∀ line ∈ inclusiveLines first, (lineText line).toLower ≠ "exit") →
      ∃ body tail session₁ session₂,
        Yields (run prompt (.ofBytes first)) session (.ok ())
          (banner ++ body ++ prompt ++ farewell) session₁ ∧
        Yields (run prompt (.ofBytes second)) session₁ (.ok ()) (banner ++ tail) session₂ ∧
        Yields (run prompt (.ofBytes (first ++ second))) session (.ok ()) (banner ++ body ++ tail)
          session₂) := by
  have hlines := map_lineText_append hfirst second
  constructor
  · rintro ⟨line, hline, hexit⟩
    have hmem : ∃ text ∈ (inclusiveLines first).map lineText, text.toLower = "exit" :=
      ⟨lineText line, List.mem_map_of_mem hline, hexit⟩
    rw [run_ofBytes, run_ofBytes, hlines, loop_append_of_exit hmem]
  · intro h
    rcases hbody : dialogue prompt session ((inclusiveLines first).map lineText) with
      ⟨body, session₁⟩
    obtain ⟨tail, session₂, htail⟩ :=
      exists_yields_loop prompt ((inclusiveLines second).map lineText) session₁
    refine ⟨body, tail, session₁, session₂, run_of_dialogue h hbody, yields_run htail, ?_⟩
    have hloop := loop_append (List.forall_mem_map.2 h) hbody htail
    rw [← hlines] at hloop
    simpa only [String.append_assoc] using yields_run hloop

/-- ` EXIT` ends the dialogue. A line that ends in a carriage return does not, nor does one that is
cut off within a character. -/
theorem run_append_bytes_exit :
    run "> " (.ofBytes ([0x20, 0x45, 0x58, 0x49, 0x54, 0x0A] ++ [0x31])) =
      run "> " (.ofBytes [0x20, 0x45, 0x58, 0x49, 0x54, 0x0A]) ∧
    ∃ body tail session₁ session₂,
      Yields (run "> " (.ofBytes [0x31, 0x0D, 0x0A, 0xC3, 0x0A])) ∅ (.ok ())
        (banner ++ body ++ "> " ++ farewell) session₁ ∧
      Yields (run "> " (.ofBytes [0x31])) session₁ (.ok ()) (banner ++ tail) session₂ ∧
      Yields (run "> " (.ofBytes ([0x31, 0x0D, 0x0A, 0xC3, 0x0A] ++ [0x31]))) ∅ (.ok ())
        (banner ++ body ++ tail) session₂ :=
  ⟨(run_append_bytes (.inr rfl) [0x31] "> " ∅).1 (by decide +kernel),
    (run_append_bytes (.inr rfl) [0x31] "> " ∅).2 (by decide +kernel)⟩

end Repl

end LineLisp
