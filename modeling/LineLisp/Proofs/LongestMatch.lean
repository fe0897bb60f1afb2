import LineLisp.Proofs.Layout
import Mathlib.Data.Nat.Find

/-!
# Longest matches

A lexer has patterns. Wherever it stands in a text, it takes the longest beginning of what is left
that a pattern matches, and goes on behind it. One pattern is that of blanks, which are skipped. A
character at which none matches would be an error and dropped, but every character is matched alone.
`Lexed` says so of any text, and cutting the text at parentheses and behind atoms gives the same
tokens.
-/

namespace LineLisp

open Text

inductive Pattern where
  | blanks
  | opening
  | closing
  | atom

namespace Pattern

/-- The characters as a whole have the form of the pattern. -/
def Matches : Pattern → List Char → Prop
  | .blanks, cs => cs ≠ [] ∧ ∀ c ∈ cs, isBlank c
  | .opening, cs => cs = ['(']
  | .closing, cs => cs = [')']
  | .atom, cs => cs ≠ [] ∧ ∀ c ∈ cs, isBlank c = false ∧ c ≠ '(' ∧ c ≠ ')'

/-- What characters that the pattern matches are taken for. -/
def lexeme? : Pattern → List Char → Option Lexeme
  | .blanks, _ => none
  | .opening, _ => some .opening
  | .closing, _ => some .closing
  | .atom, cs => some (.atom (String.ofList cs))

end Pattern

/-- The pattern matches the characters, and none matches them with more of what follows. -/
structure LongestMatch (p : Pattern) (cs rest : List Char) : Prop where
  isMatch : p.Matches cs
  longest : ∀ (q : Pattern) (cs' : List Char), q.Matches cs' → cs' <+: cs ++ rest →
    cs'.length ≤ cs.length

/-- The tokens of the characters, the first of which stands at the given offset, by longest
matches. -/
inductive Lexed : Nat → List Char → List Token → Prop
  | nil (offset : Nat) : Lexed offset [] []
  | matched {offset : Nat} {p : Pattern} {cs rest : List Char} {ts : List Token}
    (h : LongestMatch p cs rest)
    (hrest : Lexed (offset + (String.ofList cs).utf8ByteSize) rest ts) :
    Lexed offset (cs ++ rest) (((p.lexeme? cs).map (⟨·, offset⟩)).toList ++ ts)
  | unmatched {offset : Nat} {c : Char} {rest : List Char} {ts : List Token}
    (h : ∀ (p : Pattern) (cs : List Char), p.Matches cs → ¬ cs <+: c :: rest)
    (hrest : Lexed (offset + c.utf8Size) rest ts) : Lexed offset (c :: rest) ts

/-! ## There is always a longest match -/

/-- Every character is matched alone. -/
theorem Pattern.exists_matches_singleton (c : Char) : ∃ p : Pattern, p.Matches [c] := by
  by_cases hblank : isBlank c
  · exact ⟨.blanks, by simp [Matches, hblank]⟩
  · by_cases hopening : c = '('
    · exact ⟨.opening, by simp [Matches, hopening]⟩
    · by_cases hclosing : c = ')'
      · exact ⟨.closing, by simp [Matches, hclosing]⟩
      · exact ⟨.atom, by simp [Matches, hblank, hopening, hclosing]⟩

theorem exists_longestMatch (c : Char) (cs : List Char) :
    ∃ p text rest, text ≠ [] ∧ text ++ rest = c :: cs ∧ LongestMatch p text rest := by
  classical
  let IsLength (n : Nat) : Prop :=
    ∃ (p : Pattern) (text : List Char), p.Matches text ∧ text <+: c :: cs ∧ text.length = n
  obtain ⟨p, hp⟩ := Pattern.exists_matches_singleton c
  have hone : IsLength 1 := ⟨p, [c], hp, ⟨cs, rfl⟩, rfl⟩
  -- The lengths of matches are bounded, and the greatest one belongs to the match that we want.
  have hpos : 1 ≤ Nat.findGreatest IsLength (c :: cs).length :=
    Nat.le_findGreatest (by simp) hone
  have hgreatest : IsLength (Nat.findGreatest IsLength (c :: cs).length) :=
    Nat.findGreatest_spec (by simp) hone
  obtain ⟨p, text, hmatch, ⟨rest, hrest⟩, hlength⟩ := hgreatest
  refine ⟨p, text, rest, ?_, hrest, hmatch, fun q text' hq htext' => ?_⟩
  · rw [← List.length_pos_iff]
    omega
  · rw [hrest] at htext'
    rw [hlength]
    exact Nat.le_findGreatest htext'.length_le ⟨q, text', hq, htext', rfl⟩

theorem exists_lexed (offset : Nat) (cs : List Char) : ∃ ts, Lexed offset cs ts := by
  induction hn : cs.length using Nat.strong_induction_on generalizing offset cs with
  | _ n ih =>
    cases cs with
    | nil => exact ⟨[], .nil offset⟩
    | cons c cs =>
      obtain ⟨p, text, rest, hne, htext, hmatch⟩ := exists_longestMatch c cs
      have hshorter : rest.length < n := by
        have hpos := List.length_pos_iff.2 hne
        rw [← hn, ← htext, List.length_append]
        omega
      obtain ⟨ts, hrest⟩ := ih _ hshorter _ rest rfl
      rw [← htext]
      exact ⟨_, .matched hmatch hrest⟩

/-! ## Longest matches are the tokens -/

namespace LongestMatch

variable {text rest : List Char}

/-- An atom does not go on behind its longest match. -/
theorem endsAtom (h : LongestMatch .atom text rest) : EndsAtom rest := by
  intro c hc hatom
  obtain ⟨rest, rfl⟩ := List.head?_eq_some_iff.1 hc
  have hmatch : Pattern.atom.Matches (text ++ [c]) := by
    refine ⟨by simp, fun d hd => ?_⟩
    rcases List.mem_append.1 hd with hd | hd
    · exact h.isMatch.2 d hd
    · obtain rfl := List.mem_singleton.1 hd
      exact isAtomChar_iff.1 hatom
  have hlength := h.longest .atom _ hmatch ⟨rest, by simp⟩
  simp only [List.length_append, List.length_singleton] at hlength
  omega

theorem tokensFrom_eq {p : Pattern} (h : LongestMatch p text rest) (offset : Nat) :
    tokensFrom offset (text ++ rest) = ((p.lexeme? text).map (⟨·, offset⟩)).toList ++
      tokensFrom (offset + (String.ofList text).utf8ByteSize) rest := by
  cases p with
  | blanks =>
    have hgap : IsGap (String.ofList text) := by simpa [IsGap] using h.isMatch.2
    simpa [Pattern.lexeme?] using tokensFrom_gap hgap offset rest
  | opening =>
    obtain rfl := h.isMatch
    exact tokensFrom_lexeme (l := .opening) trivial False.elim offset
  | closing =>
    obtain rfl := h.isMatch
    exact tokensFrom_lexeme (l := .closing) trivial False.elim offset
  | atom =>
    have hatom : (Lexeme.atom (String.ofList text)).WellFormed := by
      simpa [Lexeme.WellFormed, Pattern.Matches] using h.isMatch
    simpa [Lexeme.text, Pattern.lexeme?] using
      tokensFrom_lexeme hatom (fun _ => h.endsAtom) offset

end LongestMatch

/-- The tokens of a text are its longest matches. -/
theorem tokensFrom_eq_iff_lexed {offset : Nat} {cs : List Char} {ts : List Token} :
    tokensFrom offset cs = ts ↔ Lexed offset cs ts := by
  have hlexed {ts : List Token} (h : Lexed offset cs ts) : tokensFrom offset cs = ts := by
    induction h with
    | nil offset => rw [tokensFrom]
    | matched hmatch _ ih => rw [hmatch.tokensFrom_eq, ih]
    | @unmatched offset c rest ts hnone _ _ =>
      obtain ⟨p, hp⟩ := Pattern.exists_matches_singleton c
      exact absurd ⟨rest, rfl⟩ (hnone p [c] hp)
  refine ⟨?_, hlexed⟩
  rintro rfl
  obtain ⟨ts, hts⟩ := exists_lexed offset cs
  rwa [hlexed hts]

end LineLisp
