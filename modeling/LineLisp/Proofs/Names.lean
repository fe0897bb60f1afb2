import LineLisp.Proofs.Grammar
import LineLisp.Proofs.Layout

/-!
# Names

A symbol may have any text, but a source can only hold those that are read as one atom and not as a
number. They are the names, and all symbols of an expression that was read have one.
-/

namespace LineLisp

open Text

/-- A text that is not empty, has no blanks and no parentheses and is no numeral. -/
def IsName (text : String) : Prop :=
  text ≠ "" ∧ (∀ c ∈ text.toList, isBlank c = false ∧ c ≠ '(' ∧ c ≠ ')') ∧ ¬ Numeral.Written text

theorem isName_iff {text : String} :
    IsName text ↔ (Lexeme.atom text).WellFormed ∧ ¬ Numeral.Written text :=
  and_assoc.symm

theorem isName_iff_all {text : String} :
    IsName text ↔ text ≠ "" ∧ text.toList.all isAtomChar ∧ isNumeral text = false := by
  have hnumeral : isNumeral text = false ↔ ¬ Numeral.Written text := by
    rw [isNumeral, ← Numeral.toInt?_eq_none_iff, Option.isSome_eq_false_iff,
      Option.isNone_iff_eq_none]
  simp only [IsName, hnumeral, List.all_eq_true, isAtomChar_iff]

theorem IsName.wellFormed {name : String} (h : IsName name) : (Lexeme.atom name).WellFormed :=
  (isName_iff.1 h).1

instance (text : String) : Decidable (IsName text) := decidable_of_iff _ isName_iff_all.symm

/-- No blank stands in an atom. -/
theorem Lexeme.WellFormed.notMem {text : String} (h : (Lexeme.atom text).WellFormed) {c : Char}
    (hc : isBlank c) : c ∉ text.toList := by
  intro hmem
  simp [(h.2 c hmem).1] at hc

theorem wellFormed_of_mem_tokenize {s : String} {l : Lexeme}
    (hl : l ∈ (tokenize s).map (·.lexeme)) : l.WellFormed := by
  obtain ⟨layout, rfl⟩ := exists_layout s
  rw [layout.tokenize_source, Layout.tokens, Layout.map_lexeme_tokensAfter] at hl
  obtain ⟨p, hp, rfl⟩ := List.mem_map.1 hl
  exact layout.lexemes p hp

namespace Expr

/-- The expression is the other one or stands in it, at any depth. -/
inductive Occurs (e : Expr) : Expr → Prop
  | self : Occurs e e
  | item {items : List Expr} {e' : Expr} (hmem : e' ∈ items) (h : Occurs e e') :
    Occurs e (.list items)

/-- Every symbol in the expression, at any depth, has a name. -/
def Named (e : Expr) : Prop := ∀ name, Occurs (.sym name) e → IsName name

theorem named_num (a : Fixnum) : Named (.num a) := by
  intro name h
  cases h

theorem named_sym {name : String} : Named (.sym name) ↔ IsName name := by
  constructor
  · intro h
    exact h name .self
  · rintro hname _ ⟨⟩
    exact hname

theorem named_list {items : List Expr} : Named (.list items) ↔ ∀ e ∈ items, Named e := by
  constructor
  · intro h e he name hname
    exact h name (.item he hname)
  · intro h name hname
    cases hname with
    | item he hname => exact h _ he name hname

/-- What derives from lexemes that a source can have is named. -/
theorem Derives.named {lexemes : List Lexeme} {e : Expr} (h : Derives lexemes e)
    (hlexemes : ∀ l ∈ lexemes, l.WellFormed) : e.Named := by
  induction h with
  | num h => exact named_num _
  | @sym text h => exact named_sym.2 (isName_iff.2 ⟨hlexemes (.atom text) (by simp), h⟩)
  | @list parts _ ih =>
    rw [named_list, List.forall_mem_map]
    intro p hp
    refine ih p hp fun l hl => hlexemes l ?_
    have hmem : l ∈ parts.flatMap (·.1) := List.mem_flatMap.2 ⟨p, hp, hl⟩
    simp [hmem]

theorem named_of_parse {s : String} {e : Expr} (h : parse s = .ok e) : e.Named :=
  (parse_eq_ok_iff.1 h).named fun _ hl => wellFormed_of_mem_tokenize hl

end Expr

end LineLisp
