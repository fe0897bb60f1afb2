import LineLisp.Numeral
import Mathlib.Data.List.Induction
import Mathlib.Data.Nat.Digits.Defs

/-!
# What numerals denote

A numeral has the form `-?[0-9]+` and stands for the integer that its digits give in positional
notation. The texts that have an integer are the numerals, and it is the one they stand for.
-/

namespace LineLisp.Numeral

/-- At least one character, each of them from `0` to `9`. -/
def IsDigits (cs : List Char) : Prop := cs ≠ [] ∧ ∀ c ∈ cs, '0' ≤ c ∧ c ≤ '9'

/-- The text has the form `-?[0-9]+`. -/
def Written (text : String) : Prop :=
  ∃ cs, IsDigits cs ∧ (text.toList = cs ∨ text.toList = '-' :: cs)

/-- The number that digits stand for, the last of which counts the units. -/
def positional (cs : List Char) : Nat :=
  Nat.ofDigits 10 (cs.reverse.map fun c => c.toNat - '0'.toNat)

/-- The text is a numeral that stands for the integer. -/
def Denotes (text : String) (n : Int) : Prop :=
  ∃ cs, IsDigits cs ∧
    (text.toList = cs ∧ n = positional cs ∨ text.toList = '-' :: cs ∧ n = -positional cs)

theorem written_iff_exists_denotes {text : String} : Written text ↔ ∃ n, Denotes text n := by
  constructor
  · rintro ⟨cs, hcs, h | h⟩
    · exact ⟨positional cs, cs, hcs, .inl ⟨h, rfl⟩⟩
    · exact ⟨-positional cs, cs, hcs, .inr ⟨h, rfl⟩⟩
  · rintro ⟨n, cs, hcs, ⟨h, -⟩ | ⟨h, -⟩⟩
    · exact ⟨cs, hcs, .inl h⟩
    · exact ⟨cs, hcs, .inr h⟩

theorem ofDigitChars_eq_positional (cs : List Char) : Nat.ofDigitChars 10 cs 0 = positional cs := by
  induction cs using List.reverseRecOn with
  | nil => rfl
  | append_singleton cs c ih =>
    rw [Nat.ofDigitChars_append, Nat.ofDigitChars_cons, Nat.ofDigitChars_nil, ih]
    simp [positional, Nat.ofDigits_cons, Nat.add_comm]

theorem all_isDigit_iff {cs : List Char} :
    cs.all Char.isDigit ↔ ∀ c ∈ cs, '0' ≤ c ∧ c ≤ '9' := by
  simp [Char.isDigit, Char.le_def]

theorem digits?_eq_some_iff {cs : List Char} {n : Nat} :
    digits? cs = some n ↔ IsDigits cs ∧ n = positional cs := by
  unfold digits? IsDigits
  rw [← ofDigitChars_eq_positional, ← all_isDigit_iff]
  split <;> grind

theorem not_isDigits_minus (cs : List Char) : ¬ IsDigits ('-' :: cs) := by
  rintro ⟨-, hdigit⟩
  exact absurd (hdigit '-' (by simp)) (by decide)

theorem toInt?_eq_some_iff {text : String} {n : Int} : toInt? text = some n ↔ Denotes text n := by
  unfold toInt? Denotes
  generalize text.toList = cs
  fun_cases ofChars? cs with
  | case1 cs =>
    -- The sign is no digit, so the digits are what follows it.
    have hminus := not_isDigits_minus cs
    simp only [Option.map_eq_some_iff, digits?_eq_some_iff]
    constructor
    · rintro ⟨_, ⟨hcs, rfl⟩, rfl⟩
      exact ⟨cs, hcs, .inr ⟨rfl, rfl⟩⟩
    · rintro ⟨digits, hdigits, ⟨rfl, -⟩ | ⟨h, rfl⟩⟩
      · exact absurd hdigits hminus
      · obtain rfl : cs = digits := (List.cons.inj h).2
        exact ⟨_, ⟨hdigits, rfl⟩, rfl⟩
  | case2 cs hminus =>
    simp only [Option.map_eq_some_iff, digits?_eq_some_iff]
    constructor
    · rintro ⟨_, ⟨hcs, rfl⟩, rfl⟩
      exact ⟨cs, hcs, .inl ⟨rfl, rfl⟩⟩
    · rintro ⟨digits, hdigits, ⟨rfl, rfl⟩ | ⟨h, -⟩⟩
      · exact ⟨_, ⟨hdigits, rfl⟩, rfl⟩
      · exact absurd h (hminus digits)

theorem toInt?_eq_none_iff {text : String} : toInt? text = none ↔ ¬ Written text := by
  rw [written_iff_exists_denotes, Option.eq_none_iff_forall_ne_some]
  simp only [ne_eq, toInt?_eq_some_iff, not_exists]

end LineLisp.Numeral
