import LineLisp.Token
import Mathlib.Data.List.Chain

/-!
# Layouts of a token sequence

A layout writes lexemes one after the other with a gap of blanks before each of them and one at the
end. The gap between two atoms must not be empty, since they would be read as one. Every text has a
layout, and the tokens of a text are those of its layouts, at the offsets where they stand.

## Main definitions

- `Layout`: lexemes and gaps, with `Layout.source` and `Layout.tokens`.
- `Token.StandsIn`: a token is found in a text at its offset and cannot be extended there.
-/

namespace LineLisp

open Text

/-! ## The tokens of a text that begins with a gap or a lexeme -/

/-- Whether the lexeme is one that the next characters could extend. -/
def Lexeme.IsAtom : Lexeme → Prop
  | .atom _ => True
  | .opening | .closing => False

/-- An atom has a text, in which there are neither blanks nor parentheses. -/
def Lexeme.WellFormed : Lexeme → Prop
  | .atom text => text ≠ "" ∧ ∀ c ∈ text.toList, isBlank c = false ∧ c ≠ '(' ∧ c ≠ ')'
  | .opening | .closing => True

theorem isAtomChar_iff {c : Char} :
    isAtomChar c ↔ isBlank c = false ∧ c ≠ '(' ∧ c ≠ ')' := by
  simp [isAtomChar, and_assoc]

theorem not_isAtomChar_of_isBlank {c : Char} (h : isBlank c) : ¬ isAtomChar c := by
  simp [isAtomChar, h]

/-- A gap consists of blanks. -/
def IsGap (gap : String) : Prop := ∀ c ∈ gap.toList, isBlank c

/-- No atom goes on into these characters. -/
def EndsAtom (cs : List Char) : Prop := ∀ c ∈ cs.head?, ¬ isAtomChar c

theorem tokensFrom_blank {c : Char} (hc : isBlank c) (offset : Nat) (cs : List Char) :
    tokensFrom offset (c :: cs) = tokensFrom (offset + c.utf8Size) cs := by
  have hopening : c ≠ '(' := by rintro rfl; revert hc; decide
  have hclosing : c ≠ ')' := by rintro rfl; revert hc; decide
  rw [tokensFrom]
  simp [not_isAtomChar_of_isBlank hc, hopening, hclosing]

theorem tokensFrom_gap {gap : String} (hgap : IsGap gap) (offset : Nat) (cs : List Char) :
    tokensFrom offset (gap.toList ++ cs) = tokensFrom (offset + gap.utf8ByteSize) cs := by
  unfold IsGap at hgap
  rw [← String.ofList_toList (s := gap)]
  generalize gap.toList = blanks at hgap
  induction blanks generalizing offset with
  | nil => simp
  | cons c blanks ih =>
    rw [List.forall_mem_cons] at hgap
    rw [String.toList_ofList] at ih ⊢
    rw [List.cons_append, tokensFrom_blank hgap.1, ih _ hgap.2, String.ofList_cons,
      String.utf8ByteSize_append, String.utf8ByteSize_singleton, Nat.add_assoc]

theorem exists_toList_eq_cons {s : String} (h : s ≠ "") : ∃ c cs, s.toList = c :: cs :=
  List.exists_cons_of_ne_nil (by simpa using h)

theorem takeWhile_isAtomChar {text cs : List Char} (htext : ∀ c ∈ text, isAtomChar c)
    (hcs : EndsAtom cs) :
    (text ++ cs).takeWhile isAtomChar = text ∧ (text ++ cs).dropWhile isAtomChar = cs := by
  rw [List.takeWhile_append_of_pos htext, List.dropWhile_append_of_pos htext]
  cases cs with
  | nil => simp
  | cons c cs =>
    have hc : ¬ isAtomChar c := hcs c rfl
    simp [hc]

theorem tokensFrom_lexeme {l : Lexeme} (hl : l.WellFormed) {cs : List Char}
    (hcs : l.IsAtom → EndsAtom cs) (offset : Nat) :
    tokensFrom offset (l.text.toList ++ cs) =
      ⟨l, offset⟩ :: tokensFrom (offset + l.text.utf8ByteSize) cs := by
  cases l with
  | opening =>
    change tokensFrom offset ('(' :: cs) = _
    rw [tokensFrom]
    rfl
  | closing =>
    change tokensFrom offset (')' :: cs) = _
    rw [tokensFrom]
    rfl
  | atom text =>
    obtain ⟨hne, htext⟩ := hl
    obtain ⟨c, rest, hrest⟩ := exists_toList_eq_cons hne
    simp only [hrest, ← isAtomChar_iff, List.forall_mem_cons] at htext
    obtain ⟨htake, hdrop⟩ := takeWhile_isAtomChar htext.2 (hcs trivial)
    have hofList : String.ofList (c :: rest) = text := by rw [← hrest, String.ofList_toList]
    rw [Lexeme.text, hrest, List.cons_append, tokensFrom]
    simp only [htext.1, if_true, htake, hdrop, hofList]

/-! ## Layouts -/

/-- Lexemes, each after a gap, and a last gap. -/
structure Layout where
  pieces : List (String × Lexeme)
  last : String
  gaps : (∀ p ∈ pieces, IsGap p.1) ∧ IsGap last
  lexemes : ∀ p ∈ pieces, p.2.WellFormed
  /-- Two atoms in succession have a gap between them. -/
  apart : pieces.IsChain fun p q => p.2.IsAtom → q.2.IsAtom → q.1 ≠ ""

namespace Layout

/-- The text of gaps and lexemes in the order in which they stand. -/
def write : List (String × Lexeme) → String → String
  | [], last => last
  | (gap, l) :: pieces, last => gap ++ l.text ++ write pieces last

/-- The tokens of the pieces, with the number of bytes before them. -/
def tokensAfter (before : String) : List (String × Lexeme) → List Token
  | [] => []
  | (gap, l) :: pieces =>
    ⟨l, (before ++ gap).utf8ByteSize⟩ :: tokensAfter (before ++ gap ++ l.text) pieces

def source (layout : Layout) : String := write layout.pieces layout.last

def tokens (layout : Layout) : List Token := tokensAfter "" layout.pieces

theorem write_append (pieces pieces' : List (String × Lexeme)) (gap : String) (l : Lexeme)
    (last : String) :
    write (pieces ++ (gap, l) :: pieces') last =
      write pieces gap ++ l.text ++ write pieces' last := by
  induction pieces with
  | nil => rfl
  | cons p pieces ih => simp [write, ih, String.append_assoc]

/-- A gap ends an atom unless it is empty. -/
theorem endsAtom_gap_append {gap : String} (hgap : IsGap gap) {cs : List Char}
    (hcs : gap = "" → EndsAtom cs) : EndsAtom (gap.toList ++ cs) := by
  by_cases hempty : gap = ""
  · simpa [hempty] using hcs hempty
  · obtain ⟨c, rest, hrest⟩ := exists_toList_eq_cons hempty
    intro d hd
    obtain rfl : c = d := by simpa [hrest] using hd
    exact not_isAtomChar_of_isBlank (hgap c (by simp [hrest]))

theorem endsAtom_text_append {l : Lexeme} (hl : ¬ l.IsAtom) (cs : List Char) :
    EndsAtom (l.text.toList ++ cs) := by
  cases l with
  | opening => rintro _ ⟨⟩; decide
  | closing => rintro _ ⟨⟩; decide
  | atom text => exact absurd trivial hl

/-- After an atom no character follows that belongs to it. -/
theorem endsAtom_write {p : String × Lexeme} (hp : p.2.IsAtom) {pieces : List (String × Lexeme)}
    {last : String} (hgaps : ∀ p ∈ pieces, IsGap p.1) (hlast : IsGap last)
    (hapart : (p :: pieces).IsChain fun p q => p.2.IsAtom → q.2.IsAtom → q.1 ≠ "") :
    EndsAtom (write pieces last).toList := by
  cases pieces with
  | nil =>
    have hnil : EndsAtom [] := by simp [EndsAtom]
    simpa [write] using endsAtom_gap_append hlast fun _ => hnil
  | cons q pieces =>
    obtain ⟨gap, l⟩ := q
    have hgap : gap = "" → ¬ l.IsAtom := fun hempty hl => hapart.rel hp hl hempty
    rw [write, String.toList_append, String.toList_append, List.append_assoc]
    refine endsAtom_gap_append (hgaps (gap, l) (by simp)) fun hempty => ?_
    exact endsAtom_text_append (hgap hempty) _

/-- The tokens of the text of a layout are those that were written. -/
theorem tokensFrom_source (layout : Layout) (before : String) :
    tokensFrom before.utf8ByteSize layout.source.toList = tokensAfter before layout.pieces := by
  obtain ⟨pieces, last, ⟨hgaps, hlast⟩, hlexemes, hapart⟩ := layout
  simp only [source]
  induction pieces generalizing before with
  | nil => simpa [write, tokensFrom, tokensAfter] using tokensFrom_gap hlast before.utf8ByteSize []
  | cons p pieces ih =>
    obtain ⟨gap, l⟩ := p
    rw [List.forall_mem_cons] at hgaps hlexemes
    have ih := ih (before ++ gap ++ l.text) hlexemes.2 hapart.tail hgaps.2
    have hends : l.IsAtom → EndsAtom (write pieces last).toList :=
      fun hl => endsAtom_write hl hgaps.2 hlast hapart
    rw [write, String.toList_append, String.toList_append, List.append_assoc,
      tokensFrom_gap hgaps.1, tokensFrom_lexeme hlexemes.1 hends, tokensAfter, ← ih]
    simp [String.utf8ByteSize_append]

theorem tokenize_source (layout : Layout) : tokenize layout.source = layout.tokens :=
  layout.tokensFrom_source ""

/-! ## Every text has a layout -/

theorem forall_mem_singleton_append {c : Char} {s : String} {motive : Char → Prop} (hc : motive c)
    (hs : ∀ d ∈ s.toList, motive d) : ∀ d ∈ (String.singleton c ++ s).toList, motive d := by
  rw [String.toList_append, String.toList_singleton, List.singleton_append]
  exact List.forall_mem_cons.2 ⟨hc, hs⟩

/-- A blank before a layout goes into its first gap. -/
theorem exists_cons_blank {c : Char} (hc : isBlank c) (layout : Layout) :
    ∃ layout' : Layout, layout'.source.toList = c :: layout.source.toList := by
  obtain ⟨pieces, last, ⟨hgaps, hlast⟩, hlexemes, hapart⟩ := layout
  cases pieces with
  | nil =>
    have hgap : IsGap (String.singleton c ++ last) := forall_mem_singleton_append hc hlast
    exact ⟨⟨[], _, ⟨by simp, hgap⟩, by simp, .nil⟩, by simp [source, write]⟩
  | cons p pieces =>
    rw [List.forall_mem_cons] at hgaps hlexemes
    refine ⟨⟨(String.singleton c ++ p.1, p.2) :: pieces, last, ⟨?_, hlast⟩, ?_, ?_⟩, ?_⟩
    · exact List.forall_mem_cons.2 ⟨forall_mem_singleton_append hc hgaps.1, hgaps.2⟩
    · exact List.forall_mem_cons.2 hlexemes
    · exact hapart.imp_head fun h => by exact h
    · simp [source, write]

/-- A lexeme before a layout is a new piece, unless it is an atom that runs into another one. -/
theorem exists_cons_lexeme {l : Lexeme} (hl : l.WellFormed) (layout : Layout)
    (hends : l.IsAtom → ∀ p ∈ layout.pieces.head?, p.2.IsAtom → p.1 ≠ "") :
    ∃ layout' : Layout, layout'.source.toList = l.text.toList ++ layout.source.toList := by
  obtain ⟨pieces, last, ⟨hgaps, hlast⟩, hlexemes, hapart⟩ := layout
  refine ⟨⟨("", l) :: pieces, last, ⟨?_, hlast⟩, ?_, ?_⟩, by simp [source, write]⟩
  · exact List.forall_mem_cons.2 ⟨by simp [IsGap], hgaps⟩
  · exact List.forall_mem_cons.2 ⟨hl, hlexemes⟩
  · cases pieces with
    | nil => exact .singleton _
    | cons p pieces => exact hapart.cons_cons fun hl hp => hends hl p rfl hp

/-- A character before a layout makes an atom or extends the one that stands at the beginning. -/
theorem exists_cons_atomChar {c : Char} (hc : isBlank c = false ∧ c ≠ '(' ∧ c ≠ ')')
    (layout : Layout) :
    ∃ layout' : Layout, layout'.source.toList = c :: layout.source.toList := by
  by_cases hends : ∀ p ∈ layout.pieces.head?, p.2.IsAtom → p.1 ≠ ""
  · have hatom : (Lexeme.atom (String.singleton c)).WellFormed := by
      refine ⟨String.singleton_ne_empty, fun d hd => ?_⟩
      obtain rfl : d = c := by simpa using hd
      exact hc
    obtain ⟨layout', h⟩ := exists_cons_lexeme hatom layout fun _ => hends
    exact ⟨layout', by simpa [Lexeme.text] using h⟩
  · push Not at hends
    obtain ⟨⟨gap, l⟩, hhead, hl, hgap⟩ := hends
    obtain rfl : gap = "" := hgap
    obtain ⟨pieces, last, ⟨hgaps, hlast⟩, hlexemes, hapart⟩ := layout
    obtain ⟨pieces, rfl⟩ := List.head?_eq_some_iff.1 hhead
    cases l with
    | opening => exact hl.elim
    | closing => exact hl.elim
    | atom text =>
      rw [List.forall_mem_cons] at hgaps hlexemes
      refine ⟨⟨("", .atom (String.singleton c ++ text)) :: pieces, last, ⟨?_, hlast⟩, ?_, ?_⟩, ?_⟩
      · exact List.forall_mem_cons.2 hgaps
      · have htext := forall_mem_singleton_append hc hlexemes.1.2
        exact List.forall_mem_cons.2 ⟨⟨by simp, htext⟩, hlexemes.2⟩
      · exact hapart.imp_head fun h => by exact h
      · simp [source, write, Lexeme.text]

end Layout

theorem exists_layout (s : String) : ∃ layout : Layout, layout.source = s := by
  suffices h : ∀ cs : List Char, ∃ layout : Layout, layout.source.toList = cs by
    obtain ⟨layout, h⟩ := h s.toList
    exact ⟨layout, String.toList_inj.1 h⟩
  intro cs
  induction cs with
  | nil => exact ⟨⟨[], "", ⟨by simp, by simp [IsGap]⟩, by simp, .nil⟩, rfl⟩
  | cons c cs ih =>
    obtain ⟨layout, rfl⟩ := ih
    by_cases hblank : isBlank c
    · exact layout.exists_cons_blank hblank
    by_cases hopening : c = '('
    · subst hopening
      exact layout.exists_cons_lexeme (l := .opening) trivial fun h => h.elim
    by_cases hclosing : c = ')'
    · subst hclosing
      exact layout.exists_cons_lexeme (l := .closing) trivial fun h => h.elim
    · exact layout.exists_cons_atomChar ⟨by simpa using hblank, hopening, hclosing⟩

/-! ## What the tokens say about the text -/

/-- The text of the token is found after the bytes it counts, and if the token is an atom, no
character next to it belongs to it too. -/
def Token.StandsIn (t : Token) (s : String) : Prop :=
  ∃ before after, s = before ++ t.lexeme.text ++ after ∧ t.offset = before.utf8ByteSize ∧
    (t.lexeme.IsAtom → (∀ c ∈ before.toList.getLast?, ¬ isAtomChar c) ∧
      ∀ c ∈ after.toList.head?, ¬ isAtomChar c)

namespace Layout

theorem map_lexeme_tokensAfter (before : String) (pieces : List (String × Lexeme)) :
    (tokensAfter before pieces).map (·.lexeme) = pieces.map (·.2) := by
  induction pieces generalizing before with
  | nil => rfl
  | cons p pieces ih => simp [tokensAfter, ih]

theorem exists_of_mem_tokensAfter {before : String} {pieces : List (String × Lexeme)} {t : Token}
    (ht : t ∈ tokensAfter before pieces) :
    ∃ earlier gap later, pieces = earlier ++ (gap, t.lexeme) :: later ∧
      t.offset = (before ++ write earlier gap).utf8ByteSize := by
  induction pieces generalizing before with
  | nil => simp [tokensAfter] at ht
  | cons p pieces ih =>
    obtain ⟨gap, l⟩ := p
    rw [tokensAfter, List.mem_cons] at ht
    obtain rfl | ht := ht
    · exact ⟨[], gap, pieces, rfl, rfl⟩
    · obtain ⟨earlier, gap', later, rfl, hoffset⟩ := ih ht
      refine ⟨(gap, l) :: earlier, gap', later, rfl, ?_⟩
      simp only [hoffset, write, String.append_assoc]

/-- What follows starts at least where the text before it ends. -/
theorem le_offset_of_mem_tokensAfter {before : String} {pieces : List (String × Lexeme)} {t : Token}
    (ht : t ∈ tokensAfter before pieces) : before.utf8ByteSize ≤ t.offset := by
  obtain ⟨earlier, gap, later, -, hoffset⟩ := exists_of_mem_tokensAfter ht
  rw [hoffset, String.utf8ByteSize_append]
  exact Nat.le_add_right _ _

theorem text_ne_empty {l : Lexeme} (hl : l.WellFormed) : l.text ≠ "" := by
  cases l with
  | opening => decide
  | closing => decide
  | atom text => exact hl.1

theorem pairwise_offset_tokensAfter {before : String} {pieces : List (String × Lexeme)}
    (hlexemes : ∀ p ∈ pieces, p.2.WellFormed) :
    (tokensAfter before pieces).Pairwise (·.offset < ·.offset) := by
  induction pieces generalizing before with
  | nil => exact .nil
  | cons p pieces ih =>
    obtain ⟨gap, l⟩ := p
    rw [List.forall_mem_cons] at hlexemes
    refine .cons (fun t ht => ?_) (ih hlexemes.2)
    have hle := le_offset_of_mem_tokensAfter ht
    have hpos : l.text.utf8ByteSize ≠ 0 := by
      rw [ne_eq, String.utf8ByteSize_eq_zero_iff]
      exact text_ne_empty hlexemes.1
    rw [String.utf8ByteSize_append] at hle
    show (before ++ gap).utf8ByteSize < t.offset
    omega

theorem write_eq_append (pieces : List (String × Lexeme)) (last : String) :
    write pieces last = write pieces "" ++ last := by
  induction pieces with
  | nil => simp [write]
  | cons p pieces ih => simp only [write, String.append_assoc, ← ih]

/-- Before an atom no character stands that belongs to it. -/
theorem not_isAtomChar_getLast_write {earlier later : List (String × Lexeme)} {gap : String}
    {l : Lexeme} (hl : l.IsAtom) (hgap : IsGap gap)
    (hapart : (earlier ++ (gap, l) :: later).IsChain fun p q =>
      p.2.IsAtom → q.2.IsAtom → q.1 ≠ "") :
    ∀ c ∈ (write earlier gap).toList.getLast?, ¬ isAtomChar c := by
  intro c hc
  by_cases hempty : gap = ""
  · obtain rfl | ⟨earlier, ⟨gap', l'⟩, rfl⟩ := List.eq_nil_or_concat earlier
    · simp [write, hempty] at hc
    · rw [List.concat_eq_append] at hapart hc
      rw [List.append_assoc, List.singleton_append, List.isChain_append_cons_cons] at hapart
      have hl' : ¬ l'.IsAtom := fun hl' => hapart.2.1 hl' hl hempty
      rw [write_append, hempty] at hc
      cases l' with
      | opening =>
        obtain rfl : '(' = c := by simpa [write, Lexeme.text] using hc
        decide
      | closing =>
        obtain rfl : ')' = c := by simpa [write, Lexeme.text] using hc
        decide
      | atom text => exact absurd trivial hl'
  · rw [write_eq_append, String.toList_append,
      List.getLast?_append_of_ne_nil _ (by simpa using hempty)] at hc
    exact not_isAtomChar_of_isBlank (hgap c (List.mem_of_getLast? hc))

theorem standsIn_source {layout : Layout} {t : Token} (ht : t ∈ layout.tokens) :
    t.StandsIn layout.source := by
  obtain ⟨earlier, gap, later, hpieces, hoffset⟩ := exists_of_mem_tokensAfter ht
  obtain ⟨pieces, last, ⟨hgaps, hlast⟩, hlexemes, hapart⟩ := layout
  obtain rfl : pieces = _ := hpieces
  refine ⟨write earlier gap, write later last, write_append .., by simpa using hoffset, ?_⟩
  intro hl
  refine ⟨not_isAtomChar_getLast_write hl (hgaps (gap, t.lexeme) (by simp)) hapart, ?_⟩
  exact endsAtom_write (p := (gap, t.lexeme)) hl (fun p hp => hgaps p (by simp [hp])) hlast
    hapart.right_of_append

theorem filter_text {l : Lexeme} (hl : l.WellFormed) :
    l.text.toList.filter (! isBlank ·) = l.text.toList := by
  cases l with
  | opening => decide
  | closing => decide
  | atom text =>
    rw [List.filter_eq_self]
    intro c hc
    simp [(hl.2 c hc).1]

theorem filter_gap {gap : String} (hgap : IsGap gap) : gap.toList.filter (! isBlank ·) = [] := by
  rw [List.filter_eq_nil_iff]
  intro c hc
  simp [hgap c hc]

theorem filter_write {pieces : List (String × Lexeme)} {last : String}
    (hgaps : ∀ p ∈ pieces, IsGap p.1) (hlast : IsGap last)
    (hlexemes : ∀ p ∈ pieces, p.2.WellFormed) :
    (write pieces last).toList.filter (! isBlank ·) = pieces.flatMap (·.2.text.toList) := by
  induction pieces with
  | nil => simpa [write] using filter_gap hlast
  | cons p pieces ih =>
    rw [List.forall_mem_cons] at hgaps hlexemes
    simp only [write, String.toList_append, List.filter_append, filter_gap hgaps.1,
      filter_text hlexemes.1, List.nil_append, ih hgaps.2 hlexemes.2, List.flatMap_cons]

/-- The texts of the tokens are all that is not blank. -/
theorem join_text_tokens (layout : Layout) :
    String.join (layout.tokens.map (·.lexeme.text)) =
      String.ofList (layout.source.toList.filter (! isBlank ·)) := by
  have hmap : layout.tokens.map (·.lexeme.text) = layout.pieces.map (·.2.text) := by
    have h := congrArg (List.map Lexeme.text) (map_lexeme_tokensAfter "" layout.pieces)
    rw [List.map_map, List.map_map] at h
    exact h
  apply String.toList_inj.1
  rw [hmap, String.toList_join, List.flatMap_map, String.toList_ofList, source,
    filter_write layout.gaps.1 layout.gaps.2 layout.lexemes]

end Layout

/-- The tokens of a text are those of its layouts. So nothing but blanks is lost, the offsets grow,
each token stands at its offset and is as long as it can be, and a text with other gaps between the
same lexemes has the same lexemes. -/
theorem tokenize_eq_iff_layout (s : String) (ts : List Token) :
    (tokenize s = ts ↔ ∃ layout : Layout, layout.source = s ∧ layout.tokens = ts) ∧
    String.join ((tokenize s).map (·.lexeme.text)) =
      String.ofList (s.toList.filter (! isBlank ·)) ∧
    (tokenize s).Pairwise (·.offset < ·.offset) ∧
    (∀ t ∈ tokenize s, t.StandsIn s) ∧
    ∀ layout : Layout, (tokenize layout.source).map (·.lexeme) = layout.pieces.map (·.2) := by
  obtain ⟨layout, rfl⟩ := exists_layout s
  rw [layout.tokenize_source]
  refine ⟨⟨fun h => ⟨layout, rfl, h⟩, ?_⟩, layout.join_text_tokens,
    Layout.pairwise_offset_tokensAfter layout.lexemes, fun t ht => Layout.standsIn_source ht, ?_⟩
  · rintro ⟨layout', hsource, rfl⟩
    rw [← layout.tokenize_source, ← layout'.tokenize_source, hsource]
  · intro layout'
    rw [layout'.tokenize_source]
    exact Layout.map_lexeme_tokensAfter "" layout'.pieces

end LineLisp
