import LineLisp.Expr.Printer
import LineLisp.Proofs.Names
import LineLisp.Value

/-!
# Reading what was written

The text of an expression has lexemes that derive it, if all its symbols have names; and only then,
since nothing else is ever read. So the text of what was read is a normal form of its source.
-/

namespace LineLisp

open Text

/-! ## The lexemes of a text within another one -/

/-- The text contributes the lexemes, whatever stands before it and behind it, as long as no atom
at its end goes on. -/
def Spells (text : String) (lexemes : List Lexeme) : Prop :=
  ∀ (offset : Nat) (cs : List Char), EndsAtom cs →
    (tokensFrom offset (text.toList ++ cs)).map (·.lexeme) =
      lexemes ++ (tokensFrom (offset + text.utf8ByteSize) cs).map (·.lexeme)

namespace Spells

theorem tokenize {text : String} {lexemes : List Lexeme} (h : Spells text lexemes) :
    (tokenize text).map (·.lexeme) = lexemes := by
  simpa [LineLisp.tokenize, tokensFrom] using h 0 [] (by simp [EndsAtom])

theorem lexeme {l : Lexeme} (hl : l.WellFormed) : Spells l.text [l] := by
  intro offset cs hcs
  rw [tokensFrom_lexeme hl fun _ => hcs]
  rfl

theorem atom {text : String} (h : (Lexeme.atom text).WellFormed) : Spells text [.atom text] :=
  lexeme (l := .atom text) h

/-- Texts in succession, if no atom goes on from the first into the second. -/
theorem append {text text' : String} {lexemes lexemes' : List Lexeme} (h : Spells text lexemes)
    (h' : Spells text' lexemes') (hends : ∀ cs, EndsAtom cs → EndsAtom (text'.toList ++ cs)) :
    Spells (text ++ text') (lexemes ++ lexemes') := by
  intro offset cs hcs
  rw [String.toList_append, List.append_assoc, h offset _ (hends cs hcs), h' _ cs hcs,
    String.utf8ByteSize_append, Nat.add_assoc, List.append_assoc]

/-- An opening parenthesis is no atom, so anything may follow it. -/
theorem opening_append {text : String} {lexemes : List Lexeme} (h : Spells text lexemes) :
    Spells ("(" ++ text) (.opening :: lexemes) := by
  intro offset cs hcs
  have hopening : Lexeme.opening.WellFormed := trivial
  rw [String.toList_append, List.append_assoc, String.utf8ByteSize_append, ← Nat.add_assoc]
  change (tokensFrom offset (Lexeme.opening.text.toList ++ _)).map _ = _
  rw [tokensFrom_lexeme hopening fun h => h.elim, List.map_cons, h _ cs hcs]
  rfl

theorem append_closing {text : String} {lexemes : List Lexeme} (h : Spells text lexemes) :
    Spells (text ++ ")") (lexemes ++ [.closing]) := by
  have hclosing : Spells ")" [.closing] := lexeme (l := .closing) trivial
  refine h.append hclosing fun cs _ => ?_
  exact Layout.endsAtom_text_append (l := .closing) (fun h => h.elim) cs

theorem gap_append {gap text : String} {lexemes : List Lexeme} (h : Spells text lexemes)
    (hgap : IsGap gap) : Spells (gap ++ text) lexemes := by
  intro offset cs hcs
  rw [String.toList_append, List.append_assoc, tokensFrom_gap hgap, h _ cs hcs,
    String.utf8ByteSize_append, Nat.add_assoc]

/-- A space keeps two texts apart, whatever the second one begins with. -/
theorem append_space_append {text text' : String} {lexemes lexemes' : List Lexeme}
    (h : Spells text lexemes) (h' : Spells text' lexemes') :
    Spells (text ++ " " ++ text') (lexemes ++ lexemes') := by
  have hspace : IsGap " " := by
    intro c hc
    obtain rfl : c = ' ' := by simpa using hc
    decide
  rw [String.append_assoc]
  refine h.append (h'.gap_append hspace) fun cs _ => ?_
  rw [String.toList_append, List.append_assoc]
  exact Layout.endsAtom_gap_append hspace fun hempty => absurd hempty (by decide)

end Spells

/-! ## Numerals and values are atoms -/

/-- No range of blanks meets the digits. -/
theorem isBlank_digit {c : Char} (hmin : '0' ≤ c) (hmax : c ≤ '9') : isBlank c = false := by
  have hranges : ∀ range ∈ blankRanges, range.2 < 48 ∨ 57 < range.1 := by decide
  have hmin : 48 ≤ c.toNat := hmin
  have hmax : c.toNat ≤ 57 := hmax
  rw [isBlank, List.any_eq_false]
  intro range hrange
  have := hranges range hrange
  simp only [Bool.and_eq_true, decide_eq_true_eq]
  omega

/-- A numeral is an atom. -/
theorem Numeral.Written.wellFormed {text : String} (h : Written text) :
    (Lexeme.atom text).WellFormed := by
  obtain ⟨cs, ⟨hne, hdigit⟩, htext⟩ := h
  have hatom : ∀ c ∈ '-' :: cs, isBlank c = false ∧ c ≠ '(' ∧ c ≠ ')' := by
    refine List.forall_mem_cons.2 ⟨by decide, fun c hc => ?_⟩
    obtain ⟨hmin, hmax⟩ := hdigit c hc
    refine ⟨isBlank_digit hmin hmax, ?_, ?_⟩ <;>
    · rintro rfl
      exact absurd hmin (by decide)
  constructor
  · rintro rfl
    obtain htext | htext := htext
    · exact hne htext.symm
    · simp at htext
  · intro c hc
    refine hatom c ?_
    obtain htext | htext := htext
    · rw [htext] at hc
      exact List.mem_cons_of_mem _ hc
    · rwa [htext] at hc

theorem Fixnum.denotes_render (a : Fixnum) : Numeral.Denotes a.render a.toInt :=
  Numeral.toInt?_eq_some_iff.1 (Numeral.toInt?_ofInt a.toInt)

theorem Value.isName_render_bool (b : Bool) : IsName (render (.bool b)) := by
  cases b <;> decide

theorem Value.wellFormed_render (v : Value) : (Lexeme.atom v.render).WellFormed := by
  cases v with
  | int n => exact (Numeral.written_iff_exists_denotes.2 ⟨_, n.denotes_render⟩).wellFormed
  | bool b => exact (isName_render_bool b).wellFormed

/-! ## The lexemes of the text of an expression -/

namespace Expr

theorem exists_spells_renderItems {items : List Expr}
    (h : ∀ e ∈ items, ∃ lexemes, Derives lexemes e ∧ Spells e.render lexemes) :
    ∃ parts : List (List Lexeme × Expr), (∀ p ∈ parts, Derives p.1 p.2) ∧
      parts.map (·.2) = items ∧ Spells (renderItems items) (parts.flatMap (·.1)) := by
  induction items with
  | nil => exact ⟨[], by simp, rfl, by simp [Spells, renderItems]⟩
  | cons e items ih =>
    rw [List.forall_mem_cons] at h
    obtain ⟨lexemes, hderives, hspells⟩ := h.1
    obtain ⟨parts, hparts, rfl, hspellsParts⟩ := ih h.2
    refine ⟨(lexemes, e) :: parts, List.forall_mem_cons.2 ⟨hderives, hparts⟩, rfl, ?_⟩
    -- The space is only written between two items.
    cases parts with
    | nil => simpa [renderItems] using hspells
    | cons p parts =>
      rw [List.map_cons, renderItems, List.flatMap_cons]
      exact hspells.append_space_append hspellsParts

theorem exists_derives_spells {e : Expr} (h : e.Named) :
    ∃ lexemes, Derives lexemes e ∧ Spells e.render lexemes := by
  induction e with
  | num a =>
    have hdenotes := a.denotes_render
    have hwritten := Numeral.written_iff_exists_denotes.2 ⟨_, hdenotes⟩
    refine ⟨[.atom a.render], .num hdenotes, ?_⟩
    rw [render]
    exact .atom hwritten.wellFormed
  | sym name =>
    obtain ⟨hatom, hwritten⟩ := isName_iff.1 (named_sym.1 h)
    refine ⟨[.atom name], .sym hwritten, ?_⟩
    rw [render]
    exact .atom hatom
  | list items ih =>
    obtain ⟨parts, hparts, rfl, hspells⟩ :=
      exists_spells_renderItems fun e he => ih e he (named_list.1 h e he)
    refine ⟨_, .list hparts, ?_⟩
    rw [render, String.append_assoc]
    exact hspells.append_closing.opening_append

theorem parse_render_of_named {e : Expr} (h : e.Named) : parse e.render = .ok e := by
  obtain ⟨lexemes, hderives, hspells⟩ := exists_derives_spells h
  rw [parse_eq_ok_iff, hspells.tokenize]
  exact hderives

theorem parse_render_of_parse {s : String} {e : Expr} (h : parse s = .ok e) :
    parse e.render = .ok e :=
  parse_render_of_named (named_of_parse h)

/-- An expression is read back from its text if all its symbols have names, and only then. What was
read is so, hence it is determined by its text, and to write what was read is a normal form. -/
theorem parse_render_iff_named :
    (∀ e : Expr, parse e.render = .ok e ↔ ∀ name, Occurs (.sym name) e → IsName name) ∧
    (∀ (s : String) (e : Expr), parse s = .ok e → parse e.render = .ok e) ∧
    (∀ (s s' : String) (e e' : Expr), parse s = .ok e → parse s' = .ok e' →
      (e.render = e'.render ↔ e = e')) ∧
    ∀ s t : String, (parse s).map render = .ok t → (parse t).map render = .ok t := by
  refine ⟨fun e => ⟨named_of_parse, parse_render_of_named⟩, fun s e => parse_render_of_parse,
    ?_, ?_⟩
  · intro s s' e e' h h'
    constructor
    · intro hrender
      have hread := parse_render_of_parse h
      rw [hrender, parse_render_of_parse h'] at hread
      exact (Except.ok.inj hread).symm
    · rintro rfl
      rfl
  · intro s t h
    cases hparse : parse s with
    | error fault => simp [hparse, Except.map] at h
    | ok e =>
      obtain rfl : e.render = t := by simpa [hparse, Except.map] using h
      rw [parse_render_of_parse hparse]
      rfl

end Expr

end LineLisp
