import LineLisp.Expr.Reader
import LineLisp.Proofs.Numerals
import Mathlib.Data.List.Basic

/-!
# The grammar of expressions

An expression is a numeral that fits, an atom that is no numeral, or any number of expressions
between parentheses, as `Expr.Derives` says. The reader consumes the shortest beginning of its
tokens that is an expression, and every expression is such a beginning, so the grammar is
unambiguous.
-/

namespace LineLisp.Expr

/-- The lexemes are an expression. A numeral that does not fit is none. -/
inductive Derives : List Lexeme → Expr → Prop
  | num {text : String} {a : Fixnum} (h : Numeral.Denotes text a.toInt) :
    Derives [.atom text] (.num a)
  | sym {text : String} (h : ¬ Numeral.Written text) : Derives [.atom text] (.sym text)
  | list {parts : List (List Lexeme × Expr)} (h : ∀ p ∈ parts, Derives p.1 p.2) :
    Derives (.opening :: (parts.flatMap (·.1) ++ [.closing])) (.list (parts.map (·.2)))

theorem ofAtom_eq_ok_iff {text : String} {offset : Nat} {e : Expr} :
    ofAtom text offset = .ok e ↔ Derives [.atom text] e := by
  constructor
  · intro h
    unfold ofAtom at h
    split at h
    · next hnone =>
      obtain rfl := Except.ok.inj h
      exact .sym (Numeral.toInt?_eq_none_iff.1 hnone)
    · next n hsome =>
      split at h
      · simp at h
      · next a hfits =>
        obtain rfl := Except.ok.inj h
        obtain rfl := Fixnum.ofInt?_eq_some_iff.1 hfits
        exact .num (Numeral.toInt?_eq_some_iff.1 hsome)
  · intro h
    cases h with
    | num h => simp [ofAtom, Numeral.toInt?_eq_some_iff.2 h]
    | sym h => simp [ofAtom, Numeral.toInt?_eq_none_iff.2 h]

/-! ## One complete expression -/

/-- Where the reader goes once an expression is complete: it is the result, or an item of the
innermost list. -/
def resume (e : Expr) : List (List Expr) → List Token → Except ReadError Expr × List Token
  | [], ts => (.ok e, ts)
  | items :: lists, ts => readOpen ((e :: items) :: lists) ts

theorem readOpen_closing (items : List Expr) (lists : List (List Expr)) (offset : Nat)
    (ts : List Token) :
    readOpen (items :: lists) (⟨.closing, offset⟩ :: ts) =
      resume (.list items.reverse) lists ts := by
  cases lists <;> rw [readOpen, resume]

theorem readOpen_atom {text : String} {offset : Nat} {e : Expr} (h : ofAtom text offset = .ok e)
    (lists : List (List Expr)) (ts : List Token) :
    readOpen lists (⟨.atom text, offset⟩ :: ts) = resume e lists ts := by
  cases lists <;> simp only [readOpen, h, resume]

/-! ## What the grammar derives is read -/

/-- Expressions one after the other become items of the innermost list, the last on top. -/
theorem readOpen_parts {parts : List (List Lexeme × Expr)}
    (h : ∀ p ∈ parts, ∀ tokens : List Token, tokens.map (·.lexeme) = p.1 →
      ∀ lists rest, readOpen lists (tokens ++ rest) = resume p.2 lists rest)
    {tokens : List Token} (htokens : tokens.map (·.lexeme) = parts.flatMap (·.1))
    (items : List Expr) (lists : List (List Expr)) (rest : List Token) :
    readOpen (items :: lists) (tokens ++ rest) =
      readOpen (((parts.map (·.2)).reverse ++ items) :: lists) rest := by
  induction parts generalizing tokens items with
  | nil =>
    obtain rfl : tokens = [] := by simpa using htokens
    rfl
  | cons p parts ih =>
    rw [List.forall_mem_cons] at h
    rw [List.flatMap_cons] at htokens
    obtain ⟨first, others, rfl, hfirst, hothers⟩ := List.map_eq_append_iff.1 htokens
    rw [List.append_assoc, h.1 first hfirst, resume, ih h.2 hothers]
    simp

theorem Derives.readOpen {lexemes : List Lexeme} {e : Expr} (h : Derives lexemes e) :
    ∀ tokens : List Token, tokens.map (·.lexeme) = lexemes →
      ∀ lists rest, readOpen lists (tokens ++ rest) = resume e lists rest := by
  induction h with
  | @num text a h =>
    rintro tokens htokens lists rest
    obtain ⟨⟨_, offset⟩, rfl, rfl⟩ := List.map_eq_singleton_iff.1 htokens
    exact readOpen_atom (ofAtom_eq_ok_iff.2 (.num h)) lists rest
  | @sym text h =>
    rintro tokens htokens lists rest
    obtain ⟨⟨_, offset⟩, rfl, rfl⟩ := List.map_eq_singleton_iff.1 htokens
    exact readOpen_atom (ofAtom_eq_ok_iff.2 (.sym h)) lists rest
  | @list parts _ ih =>
    rintro tokens htokens lists rest
    obtain ⟨⟨_, start⟩, tokens, rfl, rfl, hafter⟩ := List.map_eq_cons_iff.1 htokens
    obtain ⟨inner, closing, rfl, hinner, hclosing⟩ := List.map_eq_append_iff.1 hafter
    obtain ⟨⟨_, stop⟩, rfl, rfl⟩ := List.map_eq_singleton_iff.1 hclosing
    calc Expr.readOpen lists (⟨.opening, start⟩ :: (inner ++ [⟨.closing, stop⟩]) ++ rest)
        = Expr.readOpen ([] :: lists) (inner ++ ⟨.closing, stop⟩ :: rest) := by
          rw [List.cons_append, List.append_assoc, Expr.readOpen, List.singleton_append]
      _ = Expr.readOpen ((parts.map (·.2)).reverse :: lists) (⟨.closing, stop⟩ :: rest) := by
          rw [readOpen_parts ih hinner, List.append_nil]
      _ = resume (.list (parts.map (·.2))) lists rest := by
          rw [readOpen_closing, List.reverse_reverse]

/-! ## What is read the grammar derives -/

/-- The lexemes consumed while these lists are open: for each list an opening parenthesis and then
what its items derive from. -/
inductive Opened : List (List Expr) → List Lexeme → Prop
  | nil : Opened [] []
  | cons {lists : List (List Expr)} {consumed : List Lexeme} {parts : List (List Lexeme × Expr)}
    (outer : Opened lists consumed) (h : ∀ p ∈ parts, Derives p.1 p.2) :
    Opened ((parts.map (·.2)).reverse :: lists) (consumed ++ .opening :: parts.flatMap (·.1))

theorem Opened.opening {lists : List (List Expr)} {consumed : List Lexeme}
    (h : Opened lists consumed) : Opened ([] :: lists) (consumed ++ [.opening]) :=
  @Opened.cons lists consumed [] h (by simp)

theorem Opened.item {items : List Expr} {lists : List (List Expr)} {consumed lexemes : List Lexeme}
    {e : Expr} (h : Opened (items :: lists) consumed) (he : Derives lexemes e) :
    Opened ((e :: items) :: lists) (consumed ++ lexemes) := by
  obtain _ | @⟨_, before, parts, outer, hparts⟩ := h
  have hparts' : ∀ p ∈ parts ++ [(lexemes, e)], Derives p.1 p.2 := by
    simpa [or_imp, forall_and] using And.intro hparts he
  simpa using outer.cons hparts'

/-- A closing parenthesis completes the innermost list. -/
theorem Opened.closing {items : List Expr} {lists : List (List Expr)} {consumed : List Lexeme}
    (h : Opened (items :: lists) consumed) :
    ∃ before lexemes, consumed ++ [.closing] = before ++ lexemes ∧ Opened lists before ∧
      Derives lexemes (.list items.reverse) := by
  obtain _ | @⟨_, before, parts, outer, hparts⟩ := h
  refine ⟨before, .opening :: (parts.flatMap (·.1) ++ [.closing]), by simp, outer, ?_⟩
  rw [List.reverse_reverse]
  exact .list hparts

/-- What was consumed and what is consumed from here on make an expression. -/
theorem exists_derives_of_readOpen {lists : List (List Expr)} {consumed : List Lexeme}
    (hopened : Opened lists consumed) {tokens rest : List Token} {e : Expr}
    (h : readOpen lists tokens = (.ok e, rest)) :
    ∃ used, tokens = used ++ rest ∧ Derives (consumed ++ used.map (·.lexeme)) e := by
  induction tokens generalizing lists consumed with
  | nil => simp [readOpen] at h
  | cons t ts ih =>
    obtain ⟨lexeme, offset⟩ := t
    -- Once an expression is complete, it is the result or the invariant holds of the longer list.
    have hresume : ∀ {lists before lexemes e'}, Opened lists before → Derives lexemes e' →
        resume e' lists ts = (.ok e, rest) →
        ∃ used, ts = used ++ rest ∧ Derives (before ++ lexemes ++ used.map (·.lexeme)) e := by
      intro lists before lexemes e' hopened he' h
      cases lists with
      | nil =>
        obtain ⟨rfl⟩ := hopened
        obtain ⟨rfl, rfl⟩ : e' = e ∧ ts = rest := by simpa [resume] using h
        exact ⟨[], rfl, by simpa using he'⟩
      | cons items lists => exact ih (hopened.item he') h
    cases lexeme with
    | opening =>
      rw [readOpen] at h
      obtain ⟨used, rfl, hused⟩ := ih hopened.opening h
      exact ⟨⟨.opening, offset⟩ :: used, rfl, by simpa using hused⟩
    | closing =>
      cases lists with
      | nil => simp [readOpen] at h
      | cons items lists =>
        obtain ⟨before, lexemes, hconsumed, houter, hlist⟩ := hopened.closing
        rw [readOpen_closing] at h
        obtain ⟨used, rfl, hused⟩ := hresume houter hlist h
        refine ⟨⟨.closing, offset⟩ :: used, rfl, ?_⟩
        rw [← hconsumed] at hused
        simpa using hused
    | atom text =>
      cases hatom : ofAtom text offset with
      | error fault => simp [readOpen, hatom] at h
      | ok e' =>
        rw [readOpen_atom hatom] at h
        obtain ⟨used, rfl, hused⟩ := hresume hopened (ofAtom_eq_ok_iff.1 hatom) h
        exact ⟨⟨.atom text, offset⟩ :: used, rfl, by simpa using hused⟩

/-! ## The reader and the grammar agree -/

theorem read_append_eq_ok_iff (tokens rest : List Token) (e : Expr) :
    read (tokens ++ rest) = (.ok e, rest) ↔ Derives (tokens.map (·.lexeme)) e := by
  constructor
  · intro h
    obtain ⟨used, hused, hderives⟩ := exists_derives_of_readOpen .nil h
    obtain rfl : tokens = used := List.append_cancel_right hused
    exact hderives
  · intro h
    exact h.readOpen tokens rfl [] rest

theorem parse_eq_ok_iff_read {s : String} {e : Expr} :
    parse s = .ok e ↔ read (tokenize s) = (.ok e, []) := by
  unfold parse
  split <;> simp_all

theorem parse_eq_ok_iff {s : String} {e : Expr} :
    parse s = .ok e ↔ Derives ((tokenize s).map (·.lexeme)) e := by
  rw [parse_eq_ok_iff_read, ← read_append_eq_ok_iff _ [], List.append_nil]

/-- No lexemes begin with two different expressions. -/
theorem Derives.unique {lexemes lexemes' rest rest' : List Lexeme} {e e' : Expr}
    (h : Derives lexemes e) (h' : Derives lexemes' e')
    (happend : lexemes ++ rest = lexemes' ++ rest') : lexemes = lexemes' ∧ e = e' := by
  have hsurjective : Function.Surjective (List.map Token.lexeme) :=
    List.map_surjective_iff.2 fun l => ⟨⟨l, 0⟩, rfl⟩
  obtain ⟨tokens, htokens⟩ := hsurjective (lexemes ++ rest)
  obtain ⟨used, unused, rfl, rfl, rfl⟩ := List.map_eq_append_iff.1 htokens
  obtain ⟨used', unused', hsame, rfl, rfl⟩ := List.map_eq_append_iff.1 (htokens.trans happend)
  have hread := (read_append_eq_ok_iff used unused e).2 h
  have hread' := (read_append_eq_ok_iff used' unused' e').2 h'
  rw [← hsame, hread, Prod.mk.injEq, Except.ok.injEq] at hread'
  obtain ⟨rfl, rfl⟩ := hread'
  obtain rfl : used = used' := List.append_cancel_right hsame
  exact ⟨rfl, rfl⟩

/-- A source text is an expression if its lexemes derive it. Among more tokens, the reader consumes
exactly those that derive its expression, and no others would do. -/
theorem parse_eq_ok_iff_derives :
    (∀ (s : String) (e : Expr), parse s = .ok e ↔ Derives ((tokenize s).map (·.lexeme)) e) ∧
    (∀ (tokens rest : List Token) (e : Expr),
      read (tokens ++ rest) = (.ok e, rest) ↔ Derives (tokens.map (·.lexeme)) e) ∧
    ∀ (lexemes lexemes' rest rest' : List Lexeme) (e e' : Expr), Derives lexemes e →
      Derives lexemes' e' → lexemes ++ rest = lexemes' ++ rest' → lexemes = lexemes' ∧ e = e' :=
  ⟨fun _ _ => parse_eq_ok_iff, read_append_eq_ok_iff,
    fun _ _ _ _ _ _ h h' happend => h.unique h' happend⟩

end LineLisp.Expr
