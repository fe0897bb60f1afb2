import LineLisp.Proofs.Layout
import Mathlib.Data.List.TakeWhile

/-!
# Texts that are put together

The tokens of two texts that are put together are the tokens of each of them, the later ones behind
the bytes of the first text, provided that no atom runs across the cut. In particular, blanks at the
ends of a text have no tokens.
-/

namespace LineLisp

open Text

/-- The token behind `n` more bytes. -/
def Token.shift (n : Nat) (t : Token) : Token := { t with offset := n + t.offset }

theorem tokensFrom_add (n offset : Nat) (cs : List Char) :
    tokensFrom (n + offset) cs = (tokensFrom offset cs).map (Token.shift n) := by
  fun_induction tokensFrom offset cs with
  | case1 => rw [tokensFrom, List.map_nil]
  | case2 offset c cs hc text ih =>
    rw [tokensFrom, if_pos hc, List.map_cons, ← ih, ← Nat.add_assoc]
    rfl
  | case3 offset cs hc ih =>
    rw [tokensFrom, if_neg hc, if_pos rfl, List.map_cons, ← ih, ← Nat.add_assoc]
    rfl
  | case4 offset cs hc hopening ih =>
    rw [tokensFrom, if_neg hc, if_neg hopening, if_pos rfl, List.map_cons, ← ih, ← Nat.add_assoc]
    rfl
  | case5 offset c cs hc hopening hclosing ih =>
    rw [tokensFrom, if_neg hc, if_neg hopening, if_neg hclosing, Nat.add_assoc, ih]

/-! ## Cuts -/

/-- One of the texts is empty, or a blank or a parenthesis stands beside the cut between them. -/
def CleanCut (s t : String) : Prop :=
  s = "" ∨ t = "" ∨ (∃ c ∈ s.toList.getLast?, isBlank c ∨ c = '(' ∨ c = ')') ∨
    ∃ c ∈ t.toList.head?, isBlank c ∨ c = '(' ∨ c = ')'

theorem not_isAtomChar_iff {c : Char} : ¬ isAtomChar c ↔ isBlank c ∨ c = '(' ∨ c = ')' := by
  grind [isAtomChar_iff]

theorem cleanCut_iff {s t : String} :
    CleanCut s t ↔ (∀ c ∈ s.toList.getLast?, ¬ isAtomChar c) ∨ EndsAtom t.toList := by
  simp only [CleanCut, EndsAtom, not_isAtomChar_iff]
  constructor
  · rintro (rfl | rfl | ⟨c, hc, h⟩ | ⟨c, hc, h⟩)
    · exact .inl (by simp)
    · exact .inr (by simp)
    · exact .inl fun d hd => by rwa [Option.mem_unique hd hc]
    · exact .inr fun d hd => by rwa [Option.mem_unique hd hc]
  · rintro (h | h)
    · cases hs : s.toList.getLast? with
      | none => exact .inl (by simpa using hs)
      | some c => exact .inr (.inr (.inl ⟨c, rfl, h c hs⟩))
    · cases ht : t.toList.head? with
      | none => exact .inr (.inl (by simpa using ht))
      | some c => exact .inr (.inr (.inr ⟨c, rfl, h c ht⟩))

namespace Layout

/-- The last character of an atom belongs to it. -/
theorem exists_getLast_of_isAtom {l : Lexeme} (hl : l.WellFormed) (hatom : l.IsAtom) (s : String) :
    ∃ c ∈ (s ++ l.text).toList.getLast?, isAtomChar c := by
  cases l with
  | opening => exact hatom.elim
  | closing => exact hatom.elim
  | atom text =>
    obtain ⟨hne, htext⟩ := hl
    have hchars : text.toList ≠ [] := by simpa using hne
    refine ⟨text.toList.getLast hchars, ?_, isAtomChar_iff.2 (htext _ (List.getLast_mem hchars))⟩
    rw [Lexeme.text, String.toList_append, List.getLast?_append_of_ne_nil _ hchars]
    exact List.getLast?_eq_some_getLast hchars

/-- The tokens of characters that begin with the text of a layout. -/
theorem tokensFrom_source_append (layout : Layout) {cs : List Char}
    (hcut : (∀ c ∈ layout.source.toList.getLast?, ¬ isAtomChar c) ∨ EndsAtom cs) (offset : Nat) :
    tokensFrom offset (layout.source.toList ++ cs) =
      tokensFrom offset layout.source.toList ++
        tokensFrom (offset + layout.source.utf8ByteSize) cs := by
  obtain ⟨pieces, last, ⟨hgaps, hlast⟩, hlexemes, hapart⟩ := layout
  simp only [source] at hcut ⊢
  induction pieces generalizing offset with
  | nil =>
    have hnil := tokensFrom_gap hlast offset []
    rw [List.append_nil, tokensFrom] at hnil
    rw [write, tokensFrom_gap hlast, hnil, List.nil_append]
  | cons p pieces ih =>
    obtain ⟨gap, l⟩ := p
    rw [List.forall_mem_cons] at hgaps hlexemes
    rw [write] at hcut
    have hends : l.IsAtom → EndsAtom (write pieces last).toList :=
      fun hl => endsAtom_write hl hgaps.2 hlast hapart
    -- Only the last lexeme can run across the cut.
    obtain ⟨hends', hcut'⟩ : (l.IsAtom → EndsAtom ((write pieces last).toList ++ cs)) ∧
        ((∀ c ∈ (write pieces last).toList.getLast?, ¬ isAtomChar c) ∨ EndsAtom cs) := by
      by_cases hempty : (write pieces last).toList = []
      · refine ⟨fun hl => ?_, .inl (by simp [hempty])⟩
        obtain ⟨c, hc, hatom⟩ := exists_getLast_of_isAtom hlexemes.1 hl gap
        rw [String.toList_append, hempty, List.append_nil] at hcut
        rw [hempty, List.nil_append]
        exact hcut.resolve_left fun h => h c hc hatom
      · rw [String.toList_append, List.getLast?_append_of_ne_nil _ hempty] at hcut
        refine ⟨fun hl => ?_, hcut⟩
        unfold EndsAtom
        rw [List.head?_append_of_ne_nil _ hempty]
        exact hends hl
    have ih := ih (offset + gap.utf8ByteSize + l.text.utf8ByteSize) hlexemes.2 hapart.tail hgaps.2
      hcut'
    simp only [write, String.toList_append, List.append_assoc]
    rw [tokensFrom_gap hgaps.1, tokensFrom_gap hgaps.1, tokensFrom_lexeme hlexemes.1 hends',
      tokensFrom_lexeme hlexemes.1 hends, ih, List.cons_append]
    simp [String.utf8ByteSize_append, Nat.add_assoc]

end Layout

theorem tokensFrom_append {s t : String} (h : CleanCut s t) (offset : Nat) :
    tokensFrom offset (s ++ t).toList =
      tokensFrom offset s.toList ++ tokensFrom (offset + s.utf8ByteSize) t.toList := by
  obtain ⟨layout, rfl⟩ := exists_layout s
  rw [String.toList_append, layout.tokensFrom_source_append (cleanCut_iff.1 h)]

/-- The tokens of texts that are put together. -/
theorem tokenize_append {s t : String} (h : CleanCut s t) :
    tokenize (s ++ t) = tokenize s ++ (tokenize t).map (Token.shift s.utf8ByteSize) := by
  rw [tokenize, tokensFrom_append h, Nat.zero_add, ← Nat.add_zero s.utf8ByteSize, tokensFrom_add]
  rfl

/-! ## Blanks -/

theorem tokenize_gap {gap : String} (h : IsGap gap) : tokenize gap = [] := by
  have hgap := tokensFrom_gap h 0 []
  rw [List.append_nil] at hgap
  rw [tokenize, hgap, tokensFrom]

theorem exists_tokensFrom_cons {c : Char} (hc : ¬ isBlank c) (offset : Nat) (cs : List Char) :
    ∃ l ts, tokensFrom offset (c :: cs) = ⟨l, offset⟩ :: ts := by
  by_cases hatom : isAtomChar c
  · rw [tokensFrom, if_pos hatom]
    exact ⟨_, _, rfl⟩
  obtain hblank | rfl | rfl := not_isAtomChar_iff.1 hatom
  · exact absurd hblank hc
  · exact ⟨_, _, tokensFrom_lexeme (l := .opening) trivial (fun h => h.elim) offset⟩
  · exact ⟨_, _, tokensFrom_lexeme (l := .closing) trivial (fun h => h.elim) offset⟩

/-- The blanks that a text begins with. -/
def leadingBlanks (s : String) : String := String.ofList (s.toList.takeWhile isBlank)

theorem isGap_leadingBlanks (s : String) : IsGap (leadingBlanks s) := by
  intro c hc
  rw [leadingBlanks, String.toList_ofList] at hc
  exact List.mem_takeWhile_imp hc

theorem tokensFrom_leadingBlanks (s : String) (offset : Nat) :
    tokensFrom offset s.toList =
      tokensFrom (offset + (leadingBlanks s).utf8ByteSize) (s.toList.dropWhile isBlank) := by
  rw [← tokensFrom_gap (isGap_leadingBlanks s), leadingBlanks, String.toList_ofList,
    List.takeWhile_append_dropWhile]

/-- The first token stands behind the blanks. -/
theorem exists_tokenize_eq_cons {s : String} (h : ¬ IsGap s) :
    ∃ l ts, tokenize s = ⟨l, (leadingBlanks s).utf8ByteSize⟩ :: ts := by
  rw [tokenize, tokensFrom_leadingBlanks, Nat.zero_add]
  cases hrest : s.toList.dropWhile isBlank with
  | nil => exact absurd (List.dropWhile_eq_nil_iff.1 hrest) h
  | cons c cs =>
    have hc : ¬ isBlank c := by
      have := List.head?_dropWhile_not isBlank s.toList
      simpa [hrest] using this
    exact exists_tokensFrom_cons hc _ cs

/-- Only blanks have no tokens. -/
theorem tokenize_eq_nil_iff {s : String} : tokenize s = [] ↔ IsGap s := by
  refine ⟨fun h => ?_, tokenize_gap⟩
  by_contra hgap
  obtain ⟨l, ts, hcons⟩ := exists_tokenize_eq_cons hgap
  simp [hcons] at h

end LineLisp
