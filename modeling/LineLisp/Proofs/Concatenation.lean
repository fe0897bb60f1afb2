import LineLisp.Proofs.Scripts

/-!
# Scripts in succession

A script that stands behind another one goes on where that one ends. Its lines are counted from
there, and its last value counts unless it has none. If the first script fails, the second one is
never looked at.
-/

namespace LineLisp

theorem Session.evalAll_append {sources sources' : List String}
    {session session₁ session₂ : Session} {vs vs' : List Value}
    (h : (evalAll sources).run session = .ok vs session₁)
    (h' : (evalAll sources').run session₁ = .ok vs' session₂) :
    (evalAll (sources ++ sources')).run session = .ok (vs ++ vs') session₂ := by
  induction sources generalizing session vs with
  | nil =>
    obtain ⟨rfl, rfl⟩ := evalAll_nil_eq_ok_iff.1 h
    exact h'
  | cons source sources ih =>
    obtain ⟨v, session₀, rest, heval, hrest, rfl⟩ := evalAll_cons_eq_ok_iff.1 h
    exact evalAll_cons_eq_ok_iff.2 ⟨v, session₀, rest ++ vs', heval, ih hrest, rfl⟩

theorem Value.printed_append (vs vs' : List Value) :
    printed (vs ++ vs') = printed vs ++ printed vs' := by
  simp [printed]

namespace Script

theorem expressions_append (lines lines' : List String) :
    expressions (lines ++ lines') = expressions lines ++ expressions lines' :=
  List.filter_append ..

/-- If the first bytes fail as a script, they do so with any bytes behind them. Otherwise the second
bytes are run in the session that the first have left. A line of them that fails is counted from the
beginning of the first, and the last value is that of the first if the second have none. A verbose
run writes what the two runs write, and a quiet one the last value. -/
theorem run_concat {first : List UInt8} (hfirst : WholeLines first) (second : List UInt8)
    (session : Session) :
    ∃ result verbose quiet session₁,
      Yields (run false (.ofBytes first)) session result verbose session₁ ∧
      Yields (run true (.ofBytes first)) session result quiet session₁ ∧
      match result with
      | .error (.line _ _) =>
        quiet = "" ∧
        Yields (run false (.ofBytes (first ++ second))) session result verbose session₁ ∧
        Yields (run true (.ofBytes (first ++ second))) session result quiet session₁
      | .ok last =>
        ∃ result' verbose' quiet' session₂,
          Yields (run false (.ofBytes second)) session₁ result' verbose' session₂ ∧
          Yields (run true (.ofBytes second)) session₁ result' quiet' session₂ ∧
          match result' with
          | .error (.line number e) =>
            let result := .error (.line (number + first.count newline) e)
            Yields (run false (.ofBytes (first ++ second))) session result (verbose ++ verbose')
              session₂ ∧
            Yields (run true (.ofBytes (first ++ second))) session result "" session₂
          | .ok last' =>
            let result := .ok (last'.or last)
            Yields (run false (.ofBytes (first ++ second))) session result (verbose ++ verbose')
              session₂ ∧
            Yields (run true (.ofBytes (first ++ second))) session result
              (Value.printed (last'.or last).toList) session₂
          | .error (.stream _) => False
      | .error (.stream _) => False := by
  have hlines := map_lineText_append hfirst second
  simp only [run_ofBytes]
  cases h : (Session.evalAll (expressions ((inclusiveLines first).map lineText))).run session with
  | error e session₁ =>
    obtain ⟨before, line, rest, vs, session₀, hsplit, hbefore, hline, heval⟩ := exists_first_error h
    have hrun (quiet : Bool) (rest : List String) :=
      loop_of_error hbefore hline heval quiet none 1 none rest
    rw [hsplit, List.append_assoc, List.cons_append] at hlines
    simp only [hlines, hsplit]
    exact ⟨_, _, _, session₁, hrun false rest, hrun true rest, rfl, hrun false _, hrun true _⟩
  | ok vs session₁ =>
    refine ⟨_, _, _, session₁, loop_of_evalAll h false 1, loop_of_evalAll h true 1, ?_⟩
    cases h' : (Session.evalAll (expressions ((inclusiveLines second).map lineText))).run session₁
      with
    | ok vs' session₂ =>
      have hboth := Session.evalAll_append h h'
      rw [← expressions_append, ← hlines] at hboth
      have hrun (quiet : Bool) := loop_of_evalAll hboth quiet 1
      rw [List.getLast?_append, Value.printed_append] at hrun
      exact ⟨_, _, _, session₂, loop_of_evalAll h' false 1, loop_of_evalAll h' true 1,
        hrun false, hrun true⟩
    | error e session₂ =>
      obtain ⟨before, line, rest, vs', session₀, hsplit, hbefore, hline, heval⟩ :=
        exists_first_error h'
      have hboth := Session.evalAll_append h hbefore
      rw [← expressions_append] at hboth
      have hsecond (quiet : Bool) := loop_of_error hbefore hline heval quiet none 1 none rest
      have hrun (quiet : Bool) := loop_of_error hboth hline heval quiet none 1 none rest
      -- The number of a line in the second script grows by the lines of the first.
      have hnumber : 1 + ((inclusiveLines first).map lineText ++ before).length =
          1 + before.length + first.count newline := by
        rw [List.length_append, List.length_map, length_inclusiveLines hfirst]
        omega
      rw [hnumber, Value.printed_append] at hrun
      simp only [hlines, hsplit, ← List.append_assoc]
      exact ⟨_, _, _, session₂, hsecond false, hsecond true, hrun false, hrun true⟩

/-- Behind two blank lines, the parenthesis that fails on the first line of a script fails on the
third. -/
theorem run_concat_blank_lines :
    Yields (run false (.ofBytes ([0x0A, 0x20, 0x0A] ++ [0x29]))) ∅
      (.error (.line 3 (.read (.unopened 0)))) "" ∅ := by
  have hwhole : WholeLines [0x0A, 0x20, 0x0A] := .inr rfl
  have hblank : expressions ((inclusiveLines [0x0A, 0x20, 0x0A]).map lineText) = [] := by
    decide +kernel
  have hparse : (Session.eval (lineText [0x29])).run ∅ = .error (.read (.unopened 0)) ∅ := by
    have hline : Expr.parse (lineText [0x29]) = .error (.unopened 0) := by decide +kernel
    rw [Session.eval, hline]
    rfl
  have hfirst : Yields (run false (.ofBytes [0x0A, 0x20, 0x0A])) ∅ (.ok none) "" ∅ := by
    rw [run_ofBytes]
    exact loop_of_evalAll (by rw [hblank]; rfl) false 1
  have hsecond : Yields (run false (.ofBytes [0x29])) ∅ (.error (.line 1 (.read (.unopened 0)))) ""
      ∅ :=
    run_lineCut ⟨[], [0x29], none, .inl rfl, by decide⟩ rfl (by decide +kernel) hparse false
  obtain ⟨result, verbose, quiet, session₁, hverbose, -, hboth⟩ := run_concat hwhole [0x29] ∅
  obtain ⟨rfl, rfl, rfl⟩ := hverbose.unique hfirst
  obtain ⟨result', verbose', quiet', session₂, hverbose', -, hboth'⟩ := hboth
  obtain ⟨rfl, rfl, rfl⟩ := hverbose'.unique hsecond
  exact hboth'.1

end Script

end LineLisp
