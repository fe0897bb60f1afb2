import LineLisp.Proofs.FailingInput
import LineLisp.Proofs.Outcomes
import LineLisp.Proofs.Pieces

/-!
# Outputs that are full

An output with a limit takes the bytes of a run that fit. If they are all of them, the run does not
notice. Otherwise it stops at the first byte that does not fit, and leaves the session in which it
would have written this byte on an output without a limit. Where a run stands at a byte shows by the
lines that it has read: one that fails at the next line ends before this byte, or behind it.
-/

namespace LineLisp

/-! ## A fault in the place of a line -/

namespace Input

/-- The input with a fault in the place of the line behind the first `k`. -/
def failAfter (input : Input) (k : Nat) (fault : Fault) : Input :=
  failing ((input.rawLines.take k).flatMap (· ++ [newline])) fault

theorem newline_notMem_rawLines (input : Input) : ∀ line ∈ input.rawLines, newline ∉ line := by
  obtain ⟨hlines, hrest⟩ := newline_notMem_splitLines input.bytes.data.toList
  unfold rawLines
  grind

theorem lines_failAfter (input : Input) (k : Nat) (fault : Fault) :
    (input.failAfter k fault).lines = input.lines.take k := by
  have htake : ∀ line ∈ input.rawLines.take k, newline ∉ line :=
    fun line hline => input.newline_notMem_rawLines line (List.mem_of_mem_take hline)
  have hraw : (input.failAfter k fault).rawLines = input.rawLines.take k := by
    unfold failAfter
    generalize input.rawLines.take k = lines at htake ⊢
    simp [rawLines, failing, ofBytes, splitLines_flatMap htake]
  rw [lines, lines, hraw, List.map_take]

end Input

/-! ## Where a run stands -/

section StandsIn

variable {ε α : Type} {upTo upTo' : Nat → EStateM ε Console α} {n offset : Nat}
  {session session₁ session' : Session} {result : Except ε α} {before text : String}

/-- The computation does not come to write a byte at the offset. -/
def EndsBefore (x : EStateM ε Console α) (session : Session) (offset : Nat) : Prop :=
  ∃ result text session', Yields x session result text session' ∧ text.utf8ByteSize ≤ offset

/-- The session in which a run over `n` lines writes the byte at the offset, where `upTo k` is the
run that fails at the line behind the first `k`. The session is the one that the lines leave which
have been read by then: the runs that fail at one of them end before the byte, and the run that
fails behind them does not, unless these are all lines. -/
def StandsIn (upTo : Nat → EStateM ε Console α) (n : Nat) (session : Session) (offset : Nat)
    (session' : Session) : Prop :=
  ∃ k ≤ n, (∀ j < k, EndsBefore (upTo j) session offset) ∧
    ∃ result text, Yields (upTo k) session result text session' ∧
      (offset < text.utf8ByteSize ∨ k = n)

namespace StandsIn

/-- The run that writes the byte is not one of those that end before it. -/
theorem le_of_yields {k k' : Nat} (hk : k ≤ n) (h : ∀ j < k, EndsBefore (upTo j) session offset)
    (h' : Yields (upTo k') session result text session')
    (hlast : offset < text.utf8ByteSize ∨ k' = n) : k ≤ k' := by
  apply Nat.le_of_not_lt
  intro hlt
  obtain ⟨result₁, text₁, session₁, h₁, hle⟩ := h k' hlt
  obtain ⟨-, rfl, -⟩ := h'.unique h₁
  omega

/-- A run stands in one session at each byte. -/
theorem unique (h : StandsIn upTo n session offset session₁)
    (h' : StandsIn upTo n session offset session') : session₁ = session' := by
  obtain ⟨k, hk, hends, result, text, hyields, hlast⟩ := h
  obtain ⟨k', hk', hends', result', text', hyields', hlast'⟩ := h'
  have hle : k ≤ k' := le_of_yields hk hends hyields' hlast'
  have hge : k' ≤ k := le_of_yields hk' hends' hyields hlast
  obtain rfl : k = k' := Nat.le_antisymm hle hge
  exact (hyields.unique hyields').2.2

/-- Before the first line. -/
theorem start (h : Yields (upTo 0) session result text session)
    (hoffset : offset < text.utf8ByteSize ∨ n = 0) : StandsIn upTo n session offset session :=
  ⟨0, n.zero_le, nofun, result, text, h, hoffset.imp_right Eq.symm⟩

/-- In the answer to the first line. -/
theorem answer (h₀ : EndsBefore (upTo 0) session offset)
    (h : Yields (upTo 1) session result text session') (hlt : offset < text.utf8ByteSize) :
    StandsIn upTo (n + 1) session offset session' := by
  refine ⟨1, by omega, fun j hj => ?_, result, text, h, .inl hlt⟩
  obtain rfl : j = 0 := by omega
  exact h₀

/-- Behind `d` lines and the text that is written for them. -/
theorem shift {d : Nat} (hbefore : before.utf8ByteSize ≤ offset)
    (hearlier : ∀ j < d, EndsBefore (upTo j) session offset)
    (hstep : ∀ {k result text session'}, Yields (upTo' k) session₁ result text session' →
      Yields (upTo (k + d)) session result (before ++ text) session')
    (h : StandsIn upTo' n session₁ (offset - before.utf8ByteSize) session') :
    StandsIn upTo (n + d) session offset session' := by
  obtain ⟨k, hk, hends, result, text, hyields, hlt⟩ := h
  refine ⟨k + d, by omega, fun j hj => ?_, result, before ++ text, hstep hyields, ?_⟩
  · by_cases hjd : j < d
    · exact hearlier j hjd
    · obtain ⟨i, rfl⟩ := Nat.exists_eq_add_of_le' (Nat.le_of_not_lt hjd)
      obtain ⟨result, text, session₂, hyields, hle⟩ := hends i (by omega)
      refine ⟨result, before ++ text, session₂, hstep hyields, ?_⟩
      rw [String.utf8ByteSize_append]
      omega
  · rw [String.utf8ByteSize_append]
    omega

end StandsIn

/-- Each byte of the pieces is written in the session in which the run stands there. -/
def Located (upTo : Nat → EStateM ε Console α) (n : Nat) (session : Session)
    (pieces : List Piece) : Prop :=
  ∀ offset session', sessionAt pieces offset = some session' →
    StandsIn upTo n session offset session'

namespace Located

variable {pieces pieces' : List Piece}

theorem nil : Located upTo n session [] :=
  nofun

/-- Before the first line the session does not change. -/
theorem start (h : Yields (upTo 0) session result text session)
    (hpieces : ∀ piece ∈ pieces, piece.session = session)
    (hsize : (joined pieces).utf8ByteSize ≤ text.utf8ByteSize ∨ n = 0) :
    Located upTo n session pieces := by
  intro offset session' hoffset
  have hlt := lt_of_sessionAt hoffset
  obtain ⟨piece, hmem, rfl⟩ := exists_mem_of_sessionAt hoffset
  rw [hpieces piece hmem]
  exact .start h (hsize.imp_left (Nat.lt_of_lt_of_le hlt))

/-- A line with its pieces, and those of the lines behind it. -/
theorem append {d : Nat} (h : Located upTo (n + d) session pieces)
    (hearlier : ∀ j < d, EndsBefore (upTo j) session (joined pieces).utf8ByteSize)
    (hstep : ∀ {k result text session'}, Yields (upTo' k) session₁ result text session' →
      Yields (upTo (k + d)) session result (joined pieces ++ text) session')
    (h' : Located upTo' n session₁ pieces') : Located upTo (n + d) session (pieces ++ pieces') := by
  intro offset session' hoffset
  rw [sessionAt_append] at hoffset
  cases hpieces : sessionAt pieces offset with
  | some session₂ => exact h offset session' (by simpa [hpieces] using hoffset)
  | none =>
    have hle := sessionAt_eq_none_iff.1 hpieces
    refine .shift hle (fun j hj => ?_) hstep (h' _ session' (by simpa [hpieces] using hoffset))
    obtain ⟨result, text, session₂, hyields, htext⟩ := hearlier j hj
    exact ⟨result, text, session₂, hyields, htext.trans hle⟩

end Located

end StandsIn

/-! ## The pieces of a dialogue -/

namespace Repl

theorem writes_perform {command : Command} {session session' : Session} {answer : String}
    (h : command.answer session = (answer, session')) :
    Writes id (perform command) session (.ok ()) [⟨answer, session'⟩] session' := by
  obtain ⟨rfl, rfl⟩ := Prod.mk.inj h
  have hwrite := Writes.write (command.answer session).1 (command.answer session).2
  exact ⟨hwrite.fits, hwrite.overruns⟩

theorem exists_yields_loop_singleton {line answer : String} {session session₁ : Session}
    (h : (Command.ofLine line).answer session = (answer, session₁)) (prompt : String)
    (fault : Fault) :
    ∃ result text, Yields (loop prompt (some fault) [line]) session result
      (prompt ++ answer ++ text) session₁ := by
  by_cases hexit : line.toLower = "exit"
  · have hloop := (Yields.write prompt session).bind (f := fun _ => perform .exit)
      (yields_perform (Command.ofLine_eq_exit_iff.2 hexit ▸ h))
    rw [loop_cons_of_exit hexit]
    exact ⟨_, "", by simpa using hloop⟩
  · exact ⟨_, _, loop_cons hexit h (loop_nil_failing prompt fault session₁)⟩

/-- The prompt is written before the line is read, and the answer when the line has taken effect. -/
theorem located_line {line answer : String} {session session₁ : Session}
    (h : (Command.ofLine line).answer session = (answer, session₁)) (prompt : String)
    (fault : Fault) (lines : List String) :
    Located (fun k => loop prompt (some fault) ((line :: lines).take k)) (lines.length + 1) session
      [⟨prompt, session⟩, ⟨answer, session₁⟩] := by
  have hstart := loop_nil_failing prompt fault session
  obtain ⟨result, text, hline⟩ := exists_yields_loop_singleton h prompt fault
  intro offset session' hoffset
  rcases sessionAt_cons_cases hoffset with ⟨hlt, rfl⟩ | ⟨hle, hoffset⟩
  · exact .start hstart (.inl hlt)
  · rcases sessionAt_cons_cases hoffset with ⟨hlt, rfl⟩ | ⟨-, hnone⟩
    · refine .answer ⟨_, _, _, hstart, hle⟩ hline ?_
      simp only [String.utf8ByteSize_append] at hle hlt ⊢
      omega
    · cases hnone

/-- The pieces that the loop writes, and where. -/
theorem exists_writes_loop (prompt : String) (fault : Option Fault) (lines : List String)
    (session : Session) :
    ∃ result pieces session', Writes id (loop prompt fault lines) session result pieces session' ∧
      ∀ fault', Located (fun k => loop prompt (some fault') (lines.take k)) lines.length session
        pieces := by
  induction lines generalizing session with
  | nil =>
    have hprompt := Writes.write prompt session
    have hlocated {pieces : List Piece} (hpieces : ∀ piece ∈ pieces, piece.session = session)
        (fault' : Fault) :
        Located (fun k => loop prompt (some fault') (([] : List String).take k)) 0 session pieces :=
      .start (loop_nil_failing prompt fault' session) hpieces (.inr rfl)
    cases fault with
    | none => exact ⟨_, _, session, hprompt.bind (.write farewell session), hlocated (by simp)⟩
    | some fault => exact ⟨_, _, session, hprompt.bind (.throw fault session), hlocated (by simp)⟩
  | cons line lines ih =>
    have hprompt := Writes.write prompt session
    rcases hanswer : (Command.ofLine line).answer session with ⟨answer, session₁⟩
    have hlocated (fault' : Fault) := located_line hanswer prompt fault' lines
    by_cases hexit : line.toLower = "exit"
    · have hperform := writes_perform (Command.ofLine_eq_exit_iff.2 hexit ▸ hanswer)
      rw [loop_cons_of_exit hexit]
      exact ⟨_, _, session₁, hprompt.bind hperform, hlocated⟩
    · -- The pieces of the other lines stand where they do without this one, but a line further.
      obtain ⟨result, pieces, session', hwrites, hrest⟩ := ih session₁
      have hcommand : Command.ofLine line ≠ .exit := mt Command.ofLine_eq_exit_iff.1 hexit
      refine ⟨result, [⟨prompt, session⟩, ⟨answer, session₁⟩] ++ pieces, session', ?_,
        fun fault' => (hlocated fault').append (fun j hj => ?_) (fun hyields => ?_) (hrest fault')⟩
      · have hperform :=
          (writes_perform hanswer).bind (f := fun _ => loop prompt fault lines) hwrites
        simpa [loop, turn, hcommand] using hprompt.bind (f := fun _ => _) hperform
      · obtain rfl : j = 0 := by omega
        exact ⟨_, _, session, loop_nil_failing prompt fault' session, by simp⟩
      · simpa using loop_cons hexit hanswer hyields

theorem run_failAfter (input : Input) (k : Nat) {prompt text : String} {fault : Fault}
    {session session' : Session} {result : Except Fault Unit}
    (h : Yields (loop prompt (some fault) (input.lines.take k)) session result text session') :
    Yields (run prompt (input.failAfter k fault)) session result (banner ++ text) session' := by
  rw [← Input.lines_failAfter _ _ fault] at h
  exact (Yields.write banner session).bind h

end Repl

/-! ## The pieces of a script -/

namespace Script

variable {line : String} {session session₁ : Session} {v : Value}

theorem writes_evaluate (h : (Session.eval line).run session = .ok v session₁) (number : Nat) :
    Writes ScriptError.stream (evaluate number line) session (.ok v) [] session₁ where
  fits out _ := by
    simp only [EStateM.run] at h
    simp [evaluate, EStateM.run, h]
  overruns _ _ _ h := by cases h

theorem writes_evaluate_error {e : Error} (h : (Session.eval line).run session = .error e session₁)
    (number : Nat) :
    Writes ScriptError.stream (evaluate number line) session (.error (.line number e)) []
      session₁ where
  fits out _ := by
    simp only [EStateM.run] at h
    simp [evaluate, EStateM.run, h]
  overruns _ _ _ h := by cases h

theorem writes_print (v : Value) (session : Session) :
    Writes ScriptError.stream (print v) session (.ok ()) [⟨Value.printed [v], session⟩]
      session := by
  simpa [print] using (Writes.write (v.render ++ "\n") session).adaptExcept ScriptError.stream

theorem exists_writes_finish (quiet : Bool) (last : Option Value) (session : Session) :
    ∃ pieces, Writes ScriptError.stream (finish quiet last) session (.ok last) pieces session ∧
      ∀ piece ∈ pieces, piece.session = session := by
  cases last with
  | none => exact ⟨[], by cases quiet <;> exact .pure none session, by simp⟩
  | some v =>
    cases quiet with
    | false => exact ⟨[], .pure (some v) session, by simp⟩
    | true =>
      have hprint := (writes_print v session).bind (f := fun _ => pure (some v)) (.pure _ session)
      exact ⟨_, by simpa [finish] using hprint, by simp⟩

/-- The pieces for a line that has a value. -/
def linePieces (quiet : Bool) (v : Value) (session : Session) : List Piece :=
  if quiet then [] else [⟨Value.printed [v], session⟩]

theorem joined_linePieces (quiet : Bool) (v : Value) (session : Session) :
    joined (linePieces quiet v session) = if quiet then "" else Value.printed [v] := by
  cases quiet <;> simp [linePieces]

/-- The value of a line is written when the line has taken effect. -/
theorem located_linePieces (hline : line ≠ "")
    (heval : (Session.eval line).run session = .ok v session₁) (quiet : Bool) (fault : Fault)
    (number : Nat) (last : Option Value) (lines : List String) :
    Located (fun k => loop quiet (some fault) number last ((line :: lines).take k))
      (lines.length + 1) session (linePieces quiet v session₁) := by
  intro offset session' hoffset
  have hlt := lt_of_sessionAt hoffset
  obtain ⟨piece, hmem, rfl⟩ := exists_mem_of_sessionAt hoffset
  obtain rfl : piece.session = session₁ := by
    unfold linePieces at hmem
    grind
  refine .answer ⟨_, _, _, loop_nil_failing quiet fault number last session, by simp⟩
    (loop_cons hline heval (loop_nil_failing quiet fault _ _ _)) ?_
  simpa [joined_linePieces] using hlt

theorem exists_writes_loop (quiet : Bool) (fault : Option Fault) (number : Nat)
    (last : Option Value) (lines : List String) (session : Session) :
    ∃ result pieces session',
      Writes ScriptError.stream (loop quiet fault number last lines) session result pieces
        session' ∧
      ∀ fault', Located (fun k => loop quiet (some fault') number last (lines.take k)) lines.length
        session pieces := by
  induction lines generalizing number last session with
  | nil =>
    cases fault with
    | none =>
      obtain ⟨pieces, hwrites, hpieces⟩ := exists_writes_finish quiet last session
      exact ⟨_, pieces, session, hwrites, fun fault' =>
        .start (loop_nil_failing quiet fault' number last session) hpieces (.inr rfl)⟩
    | some fault =>
      exact ⟨_, [], session, .throw _ session, fun fault' => .nil⟩
  | cons line lines ih =>
    have hearlier (fault' : Fault) (pieces : List Piece) (j : Nat) (hj : j < 1) :
        EndsBefore (loop quiet (some fault') number last ((line :: lines).take j)) session
          (joined pieces).utf8ByteSize := by
      obtain rfl : j = 0 := by omega
      exact ⟨_, _, session, loop_nil_failing quiet fault' number last session, by simp⟩
    by_cases hline : line = ""
    · obtain ⟨result, pieces, session', hwrites, hrest⟩ := ih (number + 1) last session
      refine ⟨result, [] ++ pieces, session', by simpa [loop, hline] using hwrites,
        fun fault' => Located.nil.append (hearlier fault' []) (fun hyields => ?_) (hrest fault')⟩
      simpa [loop, hline] using hyields
    · cases heval : (Session.eval line).run session with
      | error e session₁ =>
        refine ⟨.error (.line number e), [], session₁, ?_, fun fault' => .nil⟩
        rw [loop, if_neg hline]
        exact (writes_evaluate_error heval number).bind_error _
      | ok v session₁ =>
        obtain ⟨result, pieces, session', hwrites, hrest⟩ := ih (number + 1) (some v) session₁
        refine ⟨result, linePieces quiet v session₁ ++ pieces, session', ?_, fun fault' =>
          (located_linePieces hline heval quiet fault' number last lines).append
            (hearlier fault' _) (fun hyields => ?_) (hrest fault')⟩
        · rw [loop, if_neg hline]
          cases quiet with
          | false =>
            exact (writes_evaluate heval number).bind ((writes_print v session₁).bind hwrites)
          | true => exact (writes_evaluate heval number).bind hwrites
        · simpa [joined_linePieces] using loop_cons hline heval hyields

end Script

/-! ## Runs on an output with a limit -/

/-- On an output with a limit a run writes what fits of its full text. If all of it does, the run
comes to its full result and session. Otherwise it raises the fault of the output, in the session in
which the full run writes the byte that does not fit. -/
def CutShort {ε α : Type} (raise : Fault → ε) (x : Input → EStateM ε Console α) (input : Input)
    (session : Session) : Prop :=
  ∃ result text session', Yields (x input) session result text session' ∧
    ∀ limit : Limit,
      let final := (x input).run ⟨session, { limit := some limit }⟩
      final.state.output.written = firstBytes (min limit.capacity text.utf8ByteSize) text ∧
      (text.utf8ByteSize ≤ limit.capacity →
        final.toExcept = result ∧ final.state.session = session') ∧
      (limit.capacity < text.utf8ByteSize →
        final.toExcept = .error (raise limit.fault) ∧
        ∀ fault session₁, StandsIn (fun k => x (input.failAfter k fault)) input.lines.length session
          limit.capacity session₁ ↔ session₁ = final.state.session)

theorem CutShort.of_writes {ε α : Type} {raise : Fault → ε} {x : Input → EStateM ε Console α}
    {input : Input} {session session' : Session} {result : Except ε α} {pieces : List Piece}
    (h : Writes raise (x input) session result pieces session')
    (hlocated : ∀ fault, Located (fun k => x (input.failAfter k fault)) input.lines.length session
      pieces) : CutShort raise x input session := by
  refine ⟨result, joined pieces, session', h.yields, fun limit => ?_⟩
  cases hpieces : sessionAt pieces limit.capacity with
  | none =>
    have hle := sessionAt_eq_none_iff.1 hpieces
    have hrun := h.fits { limit := some limit } (by rintro _ ⟨⟩; exact hle)
    have hwritten := firstBytes_of_le (Nat.le_refl (joined pieces).utf8ByteSize)
    rw [hrun, Nat.min_eq_right hle, hwritten]
    cases result <;> simp [Output.add, EStateM.Result.toExcept, Nat.not_lt.2 hle]
  | some session₁ =>
    have hlt := lt_of_sessionAt hpieces
    have hrun := h.overruns .empty limit session₁ hpieces
    rw [hrun, Nat.min_eq_left (Nat.le_of_lt hlt)]
    refine ⟨by simp, fun hle => absurd hlt (Nat.not_lt.2 hle), fun _ => ⟨rfl, fun fault _ => ?_⟩⟩
    have hstands := hlocated fault limit.capacity session₁ hpieces
    exact ⟨fun h => h.unique hstands, fun h => h ▸ hstands⟩

/-- What an output with a limit makes of the loop and of scripts. A script that is cut short ends
with the fault of the output, even if a later line would have failed. -/
theorem run_limited (input : Input) (session : Session) :
    (∀ prompt, CutShort id (Repl.run prompt) input session) ∧
    ∀ quiet, CutShort .stream (Script.run quiet) input session := by
  refine ⟨fun prompt => ?_, fun quiet => ?_⟩
  · obtain ⟨result, pieces, session', hwrites, hlocated⟩ :=
      Repl.exists_writes_loop prompt input.fault input.lines session
    refine .of_writes ((Writes.write Repl.banner session).bind hwrites) fun fault => ?_
    have hbanner := Repl.run_failAfter input 0 (Repl.loop_nil_failing prompt fault session)
    refine Located.append (d := 0) (.start hbanner (by simp) (.inl (by simp))) nofun
      (fun hyields => ?_) (hlocated fault)
    simpa using Repl.run_failAfter input _ hyields
  · obtain ⟨result, pieces, session', hwrites, hlocated⟩ :=
      Script.exists_writes_loop quiet input.fault 1 none input.lines session
    refine .of_writes hwrites fun fault => ?_
    simp only [Script.run, Input.lines_failAfter]
    exact hlocated fault

end LineLisp
