import LineLisp.Proofs.Dialogue
import LineLisp.Proofs.Listing
import LineLisp.Proofs.Provenance

/-!
# Answers in one line

What an answer repeats of a source text are its atoms, and expressions as they are written. So an
answer may hold spaces, but no other blank, and takes one line, whatever the source looks like. The
listing of a session takes a line for each binding, since a bound name is an atom too.
-/

namespace LineLisp

open Text

/-- Every blank in the text is a space. -/
def Inline (text : String) : Prop := ∀ c ∈ text.toList, isBlank c → c = ' '

instance (text : String) : Decidable (Inline text) :=
  List.decidableBAll (fun c => isBlank c → c = ' ') text.toList

theorem inline_append {text text' : String} :
    Inline (text ++ text') ↔ Inline text ∧ Inline text' := by
  simp only [Inline, String.toList_append, List.forall_mem_append]

namespace Inline

variable {text : String}

theorem of_wellFormed {l : Lexeme} (h : l.WellFormed) : Inline l.text := by
  cases l with
  | opening => decide
  | closing => decide
  | atom text =>
    intro c hc hblank
    exact absurd hc (h.notMem hblank)

theorem of_numeral {n : Int} (h : Numeral.toInt? text = some n) : Inline text :=
  have hwritten := Numeral.written_iff_exists_denotes.2 ⟨n, Numeral.toInt?_eq_some_iff.1 h⟩
  of_wellFormed hwritten.wellFormed

theorem repr (n : Nat) : Inline n.repr := by
  have hrepr : Numeral.ofInt n = n.repr := by simp [Numeral.ofInt]
  exact of_numeral (hrepr ▸ Numeral.toInt?_ofInt n)

theorem newline_notMem (h : Inline text) : '\n' ∉ text.toList := by
  intro hmem
  exact absurd (h '\n' hmem (by decide)) (by decide)

end Inline

theorem IsName.inline {name : String} (h : IsName name) : Inline name :=
  .of_wellFormed h.wellFormed

theorem Value.inline_render (v : Value) : Inline v.render :=
  .of_wellFormed v.wellFormed_render

/-! ## Expressions that were read -/

namespace Expr

theorem Occurs.trans {e e' e'' : Expr} (h : Occurs e e') (h' : Occurs e' e'') : Occurs e e'' := by
  induction h' with
  | self => exact h
  | item hmem _ ih => exact .item hmem ih

theorem Named.of_occurs {e e' : Expr} (h : e.Named) (hoccurs : Occurs e' e) : e'.Named :=
  fun name hname => h name (hname.trans hoccurs)

theorem inline_renderItems {items : List Expr} (h : ∀ e ∈ items, Inline e.render) :
    Inline (renderItems items) := by
  induction items with
  | nil => decide
  | cons e items ih =>
    rw [List.forall_mem_cons] at h
    cases items with
    | nil => exact h.1
    | cons e' es =>
      rw [renderItems, inline_append, inline_append]
      exact ⟨⟨h.1, by decide⟩, ih h.2⟩

theorem Named.inline_render {e : Expr} (h : e.Named) : Inline e.render := by
  induction e with
  | num n =>
    rw [render]
    exact (Value.int n).inline_render
  | sym name =>
    rw [render]
    exact (named_sym.1 h).inline
  | list items ih =>
    have hitems : ∀ e ∈ items, Inline e.render := fun e he => ih e he (named_list.1 h e he)
    rw [render, inline_append, inline_append]
    exact ⟨⟨by decide, inline_renderItems hitems⟩, by decide⟩

end Expr

/-! ## Errors of the reader -/

/-- The texts of the source that the error repeats. -/
def ReadError.quoted : ReadError → List String
  | .trailing text _ | .tooLarge text _ => [text]
  | .endOfInput | .unopened _ => []

theorem ReadError.inline_message {e : ReadError} (h : ∀ text ∈ e.quoted, Inline text) :
    Inline e.message := by
  unfold ReadError.message
  cases e with
  | endOfInput => decide +kernel
  | unopened offset => exact inline_append.2 ⟨by decide +kernel, .repr offset⟩
  | trailing text offset =>
    simp only [inline_append, and_assoc]
    refine ⟨?_, h text (by simp [quoted]), ?_, .repr offset⟩ <;> decide +kernel
  | tooLarge numeral offset =>
    simp only [inline_append, and_assoc]
    refine ⟨?_, h numeral (by simp [quoted]), ?_, .repr offset, ?_⟩ <;> decide +kernel

namespace Expr

theorem inline_of_ofAtom {text : String} {offset : Nat} {e : ReadError}
    (h : ofAtom text offset = .error e) : ∀ quoted ∈ e.quoted, Inline quoted := by
  unfold ofAtom at h
  split at h
  · cases h
  · next n hnumeral =>
    split at h
    · obtain rfl := Except.error.inj h
      simpa [ReadError.quoted] using Inline.of_numeral hnumeral
    · cases h

theorem inline_of_readOpen {lists : List (List Expr)} {tokens : List Token} {e : ReadError}
    (h : (readOpen lists tokens).1 = .error e) : ∀ quoted ∈ e.quoted, Inline quoted := by
  fun_induction readOpen lists tokens with
  | case1 | case3 =>
    obtain rfl := Except.error.inj h
    simp [ReadError.quoted]
  | case6 _ _ _ _ _ hatom =>
    obtain rfl := Except.error.inj h
    exact inline_of_ofAtom hatom
  | case4 | case7 => cases h
  | case2 _ _ _ ih | case5 _ _ _ _ _ ih | case8 _ _ _ _ _ _ _ ih => exact ih h

theorem inline_of_parse {source : String} {e : ReadError} (h : parse source = .error e) :
    Inline e.message := by
  apply ReadError.inline_message
  unfold parse at h
  split at h
  · next fault _ hread =>
    obtain rfl := Except.error.inj h
    exact inline_of_readOpen (congrArg Prod.fst hread)
  · cases h
  · next e' t rest hread =>
    obtain rfl := Except.error.inj h
    obtain ⟨used, htokens, -⟩ := exists_derives_of_readOpen .nil hread
    have hmem : t.lexeme ∈ (tokenize source).map (·.lexeme) := by simp [htokens]
    simpa [ReadError.quoted] using Inline.of_wellFormed (wellFormed_of_mem_tokenize hmem)

end Expr

/-! ## Errors of the evaluation -/

/-- The texts of the source that the error repeats. -/
def EvalError.quoted : EvalError → List String
  | .undefinedSymbol name | .unknownOperator name | .malformed (.constantTarget name)
  | .arity name _ _ | .kind name _ _ | .overflow name => [name]
  | .malformed (.targetNotSymbol target) => [target.render]
  | .malformed .emptyList | .malformed .headNotSymbol | .divisionByZero | .moduloByZero => []

theorem Kind.inline_render (kind : Kind) : Inline kind.render := by
  cases kind <;> decide

theorem Arity.inline_render (arity : Arity) : Inline arity.render := by
  cases arity <;> exact inline_append.2 ⟨by decide, .repr _⟩

theorem Expr.Shape.inline_render (shape : Shape) : Inline shape.render := by
  cases shape <;> decide

theorem Malformed.inline_reason {cause : Malformed}
    (h : ∀ text ∈ (EvalError.malformed cause).quoted, Inline text) : Inline cause.reason := by
  unfold Malformed.reason
  cases cause with
  | emptyList | headNotSymbol => decide +kernel
  | targetNotSymbol target =>
    simp only [inline_append, and_assoc]
    refine ⟨?_, target.shape.inline_render, ?_, h _ (by simp [EvalError.quoted]), ?_⟩ <;>
      decide +kernel
  | constantTarget name =>
    simp only [inline_append, and_assoc]
    refine ⟨?_, h name (by simp [EvalError.quoted]), ?_⟩ <;> decide +kernel

theorem EvalError.inline_message {e : EvalError} (h : ∀ text ∈ e.quoted, Inline text) :
    Inline e.message := by
  unfold EvalError.message
  cases e with
  | divisionByZero | moduloByZero => decide +kernel
  | malformed cause => exact inline_append.2 ⟨by decide +kernel, Malformed.inline_reason h⟩
  | undefinedSymbol name | unknownOperator name | overflow name =>
    simp only [inline_append, and_assoc]
    refine ⟨?_, h name (by simp [quoted]), ?_⟩ <;> decide +kernel
  | arity operator expected actual =>
    simp only [inline_append, and_assoc]
    refine ⟨?_, h operator (by simp [quoted]), ?_, expected.inline_render, ?_, .repr actual⟩ <;>
      decide +kernel
  | kind operator expected actual =>
    simp only [inline_append, and_assoc]
    refine ⟨?_, h operator (by simp [quoted]), ?_, expected.inline_render, ?_,
      actual.inline_render⟩ <;> decide +kernel

namespace Expr

/-- What a list repeats of its items when it fails. -/
theorem Raises.inline_quoted {items : List Expr} {err : EvalError} (h : Raises items err)
    (hnamed : ∀ e ∈ items, e.Named) : ∀ text ∈ err.quoted, Inline text := by
  have hname : ∀ name, sym name ∈ items → Inline name :=
    fun name hmem => (named_sym.1 (hnamed _ hmem)).inline
  cases h with
  | emptyList | headNotSymbol | divisionByZero | moduloByZero => simp [EvalError.quoted]
  | unknownOperator | arity | overflow | notInteger | notBoolean | constantTarget =>
    simpa [EvalError.quoted] using hname _ (by simp)
  | @targetNotSymbol target =>
    simpa [EvalError.quoted] using (hnamed target (by simp)).inline_render

theorem Named.inline_of_eval {e : Expr} (h : e.Named) {env env' : Env} {err : EvalError}
    (heval : e.eval.run env = .error err env') : Inline err.message := by
  apply EvalError.inline_message
  rcases eval_error_cases heval with ⟨items, hoccurs, hraises⟩ | ⟨name, hoccurs, rfl, -⟩
  · exact hraises.inline_quoted (named_list.1 (h.of_occurs hoccurs))
  · simpa [EvalError.quoted] using (h name hoccurs).inline

end Expr

/-! ## Answers of a session -/

theorem Error.inline_message_read {e : ReadError} (h : Inline e.message) :
    Inline (Error.read e).message :=
  inline_append.2 ⟨by decide +kernel, h⟩

/-- The value or the error of a source text is written inline. -/
theorem Session.inline_eval (source : String) (session : Session) :
    match (Session.eval source).run session with
    | .ok v _ => Inline v.render
    | .error e _ => Inline e.message := by
  unfold Session.eval
  cases hparse : Expr.parse source with
  | error fault => exact Error.inline_message_read (Expr.inline_of_parse hparse)
  | ok e =>
    simp only [EStateM.run, EStateM.adaptExcept]
    cases heval : e.eval session with
    | ok v session' => exact v.inline_render
    | error err session' => exact (Expr.named_of_parse hparse).inline_of_eval heval

/-- How many newline bytes the text is written with. -/
def newlines (text : String) : Nat := text.toUTF8.data.toList.count newline

theorem newlines_append (text text' : String) :
    newlines (text ++ text') = newlines text + newlines text' := by
  simp [newlines]

theorem newlines_eq_zero {text : String} (h : '\n' ∉ text.toList) : newlines text = 0 :=
  List.count_eq_zero_of_not_mem (newline_notMem_toUTF8 h)

theorem newlines_line {text : String} (h : '\n' ∉ text.toList) : newlines (text ++ "\n") = 1 := by
  rw [newlines_append, newlines_eq_zero h]
  rfl

theorem newlines_join {lines : List String} (h : ∀ line ∈ lines, '\n' ∉ line.toList) :
    newlines (String.join (lines.map (· ++ "\n"))) = lines.length := by
  induction lines with
  | nil => rfl
  | cons line lines ih =>
    rw [List.forall_mem_cons] at h
    rw [List.map_cons, String.join_cons, newlines_append, newlines_line h.1, ih h.2,
      List.length_cons, Nat.add_comm]

theorem Session.newlines_respond (session : Session) (source : String) :
    newlines (session.respond source).1 = 1 := by
  have hinline := inline_eval source session
  unfold respond
  cases hrun : (Session.eval source).run session with
  | ok v session' =>
    rw [hrun] at hinline
    exact newlines_line hinline.newline_notMem
  | error e session' =>
    rw [hrun] at hinline
    exact newlines_line (inline_append.2 ⟨by decide, hinline⟩).newline_notMem

theorem Session.WellNamed.newlines_listing {session : Session} (h : session.WellNamed) :
    newlines session.listing = max 1 session.bindings.length := by
  by_cases hempty : session.isEmpty
  · obtain rfl := Std.ExtTreeMap.isEmpty_iff.1 hempty
    decide +kernel
  · have hlines : ∀ line ∈ session.bindings.map Listing.bindingLine, '\n' ∉ line.toList := by
      rw [List.forall_mem_map]
      exact fun b hb => Listing.newline_notMem_bindingLine (h.of_mem_bindings hb).1
    have hlength : session.bindings.length ≠ 0 := by
      rw [Ne, ← List.isEmpty_iff_length_eq_zero, Env.bindings, Std.ExtTreeMap.isEmpty_toList]
      exact hempty
    rw [Env.listing_eq_join session (by simpa using hempty), newlines_join hlines, List.length_map]
    omega

theorem Command.ofLine_of_notMem {line : String} (hexit : line.toLower ≠ "exit")
    (h : line ∉ ["", ":env", ":help"]) : ofLine line = .evaluate line := by
  simp only [List.mem_cons, List.not_mem_nil, or_false, not_or] at h
  obtain ⟨hempty, henv, hhelp⟩ := h
  rw [ofLine, if_neg hexit, if_neg hempty, if_neg henv, if_neg hhelp]

/-! ## What a line adds to a dialogue -/

namespace Repl

variable {prompt : String} {session session' : Session}

theorem leave_of_run {input : Input} {result : Except Fault Unit} {text : String}
    (hrun : Yields (run prompt input) session result text session') :
    Call.leave session (.interact prompt input {}) = session' := by
  change ((run prompt input).run ⟨session, ⟨.empty, none⟩⟩).state.session = session'
  rw [hrun .empty]
  cases result <;> rfl

theorem reachable_of_run {input : Input} {result : Except Fault Unit} {text : String}
    (hrun : Yields (run prompt input) session result text session') (h : session.Reachable) :
    session'.Reachable :=
  leave_of_run hrun ▸ h.call _

/-- Between what is written for the lines before it and for those behind it, a line adds the prompt
and its answer. -/
theorem exists_run_around {bytes line : List UInt8} {k : Nat}
    (hline : (inclusiveLines bytes)[k]? = some line)
    (h : ∀ earlier ∈ (inclusiveLines bytes).take (k + 1), (lineText earlier).toLower ≠ "exit")
    (prompt : String) (session : Session) :
    ∃ body tail session₁ session₃,
      let (answer, session₂) := (Command.ofLine (lineText line)).answer session₁
      Yields (run prompt (.ofBytes (firstLines k bytes))) session (.ok ())
        (banner ++ body ++ (prompt ++ farewell)) session₁ ∧
      Yields (run prompt (.ofBytes (firstLines (k + 1) bytes))) session (.ok ())
        (banner ++ body ++ (prompt ++ answer) ++ (prompt ++ farewell)) session₂ ∧
      Yields (run prompt (.ofBytes bytes)) session (.ok ())
        (banner ++ body ++ (prompt ++ answer) ++ tail) session₃ := by
  let lines := (inclusiveLines bytes).map lineText
  have htake : lines.take (k + 1) = lines.take k ++ [lineText line] := by
    simp [lines, List.take_add_one, hline]
  have hplain : ∀ text ∈ lines.take (k + 1), text.toLower ≠ "exit" := by
    simp only [lines, ← List.map_take, List.forall_mem_map]
    exact h
  rw [htake, List.forall_mem_append, List.forall_mem_singleton] at hplain
  obtain ⟨hbefore, hexit⟩ := hplain
  rcases hbody : dialogue prompt session (lines.take k) with ⟨body, session₁⟩
  rcases hanswer : (Command.ofLine (lineText line)).answer session₁ with ⟨answer, session₂⟩
  have hloop {rest : List String} {text : String} {session' : Session}
      (hrest : Yields (loop prompt none rest) session₂ (.ok ()) text session') :=
    loop_append hbefore hbody (loop_cons hexit hanswer hrest)
  obtain ⟨tail, session₃, htail⟩ := exists_yields_loop prompt (lines.drop (k + 1)) session₂
  refine ⟨body, tail, session₁, session₃, ?_⟩
  rw [hanswer]
  refine ⟨?_, ?_, ?_⟩
  · have hrun := loop_append hbefore hbody (loop_nil prompt session₁)
    rw [List.append_nil, ← map_lineText_firstLines] at hrun
    simpa only [String.append_assoc] using yields_run hrun
  · have hrun := hloop (loop_nil prompt session₂)
    rw [← htake, ← map_lineText_firstLines] at hrun
    simpa only [String.append_assoc] using yields_run hrun
  · have hrun := hloop htail
    rw [← List.singleton_append, ← List.append_assoc, ← htake, List.take_append_drop] at hrun
    simpa only [String.append_assoc] using yields_run hrun

/-- The value or the error of any source text, in any session, has no blanks but spaces. So each
line of an input that a dialogue evaluates, which is any but a blank one and a command, adds one
newline to what is written, if the prompt has none. Each line that asks for the bindings of a
reachable session adds a newline for each of them, or one if there are none. -/
theorem newlines_of_line :
    (∀ (source : String) (session : Session),
      match (Session.eval source).run session with
      | .ok v _ => Inline v.render
      | .error e _ => Inline e.message) ∧
    ∀ (bytes : List UInt8) (prompt : String) (session : Session) (k : Nat) (line : List UInt8),
      '\n' ∉ prompt.toList → (inclusiveLines bytes)[k]? = some line →
      (∀ earlier ∈ (inclusiveLines bytes).take (k + 1), (lineText earlier).toLower ≠ "exit") →
      ∃ body answer tail session₁ session₂ session₃,
        Yields (run prompt (.ofBytes (firstLines k bytes))) session (.ok ())
          (banner ++ body ++ (prompt ++ farewell)) session₁ ∧
        Yields (run prompt (.ofBytes (firstLines (k + 1) bytes))) session (.ok ())
          (banner ++ body ++ (prompt ++ answer) ++ (prompt ++ farewell)) session₂ ∧
        Yields (run prompt (.ofBytes bytes)) session (.ok ())
          (banner ++ body ++ (prompt ++ answer) ++ tail) session₃ ∧
        (session.Reachable → session₁.Reachable) ∧
        (lineText line ∉ ["", ":env", ":help"] → newlines (prompt ++ answer) = 1) ∧
        (lineText line = ":env" → session₁.Reachable →
          newlines (prompt ++ answer) = max 1 session₁.bindings.length) := by
  refine ⟨Session.inline_eval, ?_⟩
  intro bytes prompt session k line hprompt hline h
  obtain ⟨body, tail, session₁, session₃, hfirst, hsecond, hall⟩ :=
    exists_run_around hline h prompt session
  refine ⟨body, _, tail, session₁, _, session₃, hfirst, hsecond, hall, reachable_of_run hfirst,
    fun htext => ?_, fun htext hreachable => ?_⟩
  · have hmem : line ∈ (inclusiveLines bytes).take (k + 1) :=
      List.mem_iff_getElem?.2 ⟨k, by rw [List.getElem?_take_of_lt (by omega), hline]⟩
    rw [newlines_append, newlines_eq_zero hprompt, Nat.zero_add,
      Command.ofLine_of_notMem (h line hmem) htext]
    exact session₁.newlines_respond (lineText line)
  · have henv : Command.ofLine ":env" = .bindings := by decide +kernel
    rw [newlines_append, newlines_eq_zero hprompt, Nat.zero_add, htext, henv]
    exact hreachable.wellNamed.newlines_listing

/-- The first of two definitions has a tab within it, and the third line asks for the bindings. -/
theorem newlines_of_line_tab :
    let bytes := "(define\ta 1)\n(define b 2)\n:env\n".toUTF8.data.toList
    (∃ body answer session,
      Yields (run "> " (.ofBytes (firstLines 1 bytes))) ∅ (.ok ())
        (banner ++ body ++ ("> " ++ answer) ++ ("> " ++ farewell)) session ∧
      newlines ("> " ++ answer) = 1) ∧
    ∃ body answer session₁ session₂,
      Yields (run "> " (.ofBytes (firstLines 2 bytes))) ∅ (.ok ())
        (banner ++ body ++ ("> " ++ farewell)) session₁ ∧
      session₁.bindings.map Prod.fst = ["a", "b"] ∧
      Yields (run "> " (.ofBytes (firstLines 3 bytes))) ∅ (.ok ())
        (banner ++ body ++ ("> " ++ answer) ++ ("> " ++ farewell)) session₂ ∧
      newlines ("> " ++ answer) = 2 := by
  intro bytes
  constructor
  · obtain ⟨body, answer, tail, session₁, session₂, session₃, -, hrun, -, -, hcount, -⟩ :=
      newlines_of_line.2 bytes "> " ∅ 0 "(define\ta 1)\n".toUTF8.data.toList (by decide)
        (by decide +kernel) (by decide +kernel)
    exact ⟨body, answer, session₂, hrun, hcount (by decide +kernel)⟩
  · obtain ⟨body, answer, tail, session₁, session₂, session₃, hbefore, hrun, -, hreachable, -,
        hcount⟩ :=
      newlines_of_line.2 bytes "> " ∅ 2 ":env\n".toUTF8.data.toList (by decide)
        (by decide +kernel) (by decide +kernel)
    have hnames : session₁.bindings.map Prod.fst = ["a", "b"] := by
      rw [← leave_of_run hbefore]
      decide +kernel
    have hlength : session₁.bindings.length = 2 := by
      rw [← List.length_map Prod.fst, hnames]
      rfl
    have henv := hcount (by decide +kernel) (hreachable .new)
    rw [hlength] at henv
    exact ⟨body, answer, session₁, session₂, hbefore, hnames, hrun, henv⟩

end Repl

end LineLisp
