import LineLisp.Proofs.Cuts
import LineLisp.Proofs.Depth
import LineLisp.Session
import Mathlib.Data.List.DropRight

/-!
# Trimming

The reader does not see the blanks at the ends of a text. Only the offsets in its errors tell how
many bytes the blanks in front take. So a text and the same text trimmed have the same value, or the
same error but for these offsets.
-/

namespace LineLisp

open Text

/-- The error behind `n` more bytes. -/
def ReadError.shift (n : Nat) : ReadError → ReadError
  | .endOfInput => .endOfInput
  | .unopened offset => .unopened (n + offset)
  | .trailing text offset => .trailing text (n + offset)
  | .tooLarge numeral offset => .tooLarge numeral (n + offset)

@[inherit_doc ReadError.shift]
def Error.shift (n : Nat) : Error → Error
  | .read e => .read (e.shift n)
  | .eval e => .eval e

/-! ## The tokens of a trimmed text -/

theorem cleanCut_of_isGap_left {gap : String} (h : IsGap gap) (s : String) : CleanCut gap s :=
  cleanCut_iff.2 (.inl fun c hc => not_isAtomChar_of_isBlank (h c (List.mem_of_getLast? hc)))

theorem cleanCut_of_isGap_right {gap : String} (h : IsGap gap) (s : String) : CleanCut s gap :=
  cleanCut_iff.2 (.inr fun c hc => not_isAtomChar_of_isBlank (h c (List.mem_of_mem_head? hc)))

/-- Trimming takes away blanks only. -/
theorem exists_eq_trim (s : String) :
    ∃ gap, IsGap gap ∧ s = leadingBlanks s ++ trim s ++ gap := by
  let rest := s.toList.dropWhile isBlank
  refine ⟨String.ofList (rest.rtakeWhile isBlank), ?_, ?_⟩
  · intro c hc
    rw [String.toList_ofList] at hc
    exact List.mem_rtakeWhile_imp hc
  · have hrest : trimRight rest ++ rest.rtakeWhile isBlank = rest :=
      List.rdropWhile_append_rtakeWhile
    rw [leadingBlanks, trim, String.append_assoc, ← String.ofList_append, hrest,
      ← String.ofList_append, List.takeWhile_append_dropWhile, String.ofList_toList]

theorem tokenize_trim (s : String) :
    tokenize s = (tokenize (trim s)).map (Token.shift (leadingBlanks s).utf8ByteSize) := by
  obtain ⟨gap, hgap, hs⟩ := exists_eq_trim s
  have hleading := isGap_leadingBlanks s
  nth_rewrite 1 [hs]
  rw [tokenize_append (cleanCut_of_isGap_right hgap _), tokenize_gap hgap,
    tokenize_append (cleanCut_of_isGap_left hleading _), tokenize_gap hleading, List.map_nil,
    List.append_nil, List.nil_append]

theorem trim_ne_empty {s : String} (h : ¬ IsGap s) : trim s ≠ "" := by
  intro hempty
  refine h (tokenize_eq_nil_iff.1 ?_)
  rw [tokenize_trim, hempty, tokenize_gap (by simp [IsGap]), List.map_nil]

/-! ## The reader -/

namespace Expr

theorem ofAtom_add (text : String) (n offset : Nat) :
    ofAtom text (n + offset) = (ofAtom text offset).mapError (ReadError.shift n) := by
  unfold ofAtom
  cases Numeral.toInt? text with
  | none => rfl
  | some m => cases hfits : Fixnum.ofInt? m <;> simp [hfits, Except.mapError, ReadError.shift]

/-- The reader passes offsets on. -/
theorem readOpen_shift (n : Nat) (lists : List (List Expr)) (ts : List Token) :
    readOpen lists (ts.map (Token.shift n)) =
      ((readOpen lists ts).1.mapError (ReadError.shift n),
        (readOpen lists ts).2.map (Token.shift n)) := by
  fun_induction readOpen lists ts with
  | case1 lists => simp [readOpen, Except.mapError, ReadError.shift]
  | case2 lists offset ts ih => simpa [readOpen, Token.shift] using ih
  | case3 offset ts => simp [readOpen, Token.shift, Except.mapError, ReadError.shift]
  | case4 items offset ts => simp [readOpen, Token.shift, Except.mapError]
  | case5 items outer lists offset ts ih => simpa [readOpen, Token.shift] using ih
  | case6 lists text offset ts e hatom =>
    simp [readOpen, Token.shift, ofAtom_add, hatom, Except.mapError]
  | case7 text offset ts e hatom =>
    simp [readOpen, Token.shift, ofAtom_add, hatom, Except.mapError]
  | case8 text offset ts e items lists hatom ih =>
    simpa [readOpen, Token.shift, ofAtom_add, hatom, Except.mapError] using ih

theorem parse_trim (s : String) :
    parse s = (parse (trim s)).mapError (ReadError.shift (leadingBlanks s).utf8ByteSize) := by
  rcases htrim : read (tokenize (trim s)) with ⟨result, rest⟩
  have hread := readOpen_shift (leadingBlanks s).utf8ByteSize [] (tokenize (trim s))
  rw [← tokenize_trim, ← read, ← read, htrim] at hread
  cases result with
  | error e =>
    rw [parse_of_read_error htrim]
    exact parse_of_read_error hread
  | ok e =>
    rw [parse_of_read_ok htrim, parse_of_read_ok hread]
    cases rest <;> rfl

end Expr

/-- Trimming changes nothing but the offset at which an error shows. -/
theorem Session.eval_trim (s : String) (session : Session) :
    (Session.eval s).run session =
      match (Session.eval (trim s)).run session with
      | .ok v session' => .ok v session'
      | .error e session' => .error (e.shift (leadingBlanks s).utf8ByteSize) session' := by
  unfold Session.eval
  rw [Expr.parse_trim]
  cases Expr.parse (trim s) with
  | error e => rfl
  | ok e =>
    simp only [Except.mapError, EStateM.run, EStateM.adaptExcept]
    cases e.eval session <;> rfl

/-- A text that cannot be read leaves the session as it is. -/
theorem Session.eq_of_eval_read {s : String} {session session' : Session} {e : ReadError}
    (h : (Session.eval s).run session = .error (.read e) session') : session' = session := by
  unfold Session.eval at h
  cases hparse : Expr.parse s with
  | error e' =>
    rw [hparse] at h
    exact (EStateM.Result.error.inj h).2.symm
  | ok expr =>
    -- what is read fails with an error of the evaluation only
    rw [hparse] at h
    simp only [EStateM.run, EStateM.adaptExcept] at h
    cases hrun : expr.eval session <;> rw [hrun] at h <;> cases h

/-- Trimming is neutral. A text and the same text trimmed have the same value or the same error of
the evaluation, and leave the same session. If one of them cannot be read, then neither can the
other, both leave the session as it is, and the offset for the text is the one for the trimmed text
and the bytes of the leading blanks. -/
theorem Session.trim_neutral (s : String) (session : Session) :
    match (Session.eval s).run session, (Session.eval (trim s)).run session with
    | .ok v session₁, .ok w session₂ => v = w ∧ session₁ = session₂
    | .error (.eval e) session₁, .error (.eval e') session₂ => e = e' ∧ session₁ = session₂
    | .error (.read e) session₁, .error (.read e') session₂ =>
      e = e'.shift (leadingBlanks s).utf8ByteSize ∧ session₁ = session ∧ session₂ = session
    | _, _ => False := by
  rw [Session.eval_trim]
  cases htrim : (Session.eval (trim s)).run session with
  | ok v session' => exact ⟨rfl, rfl⟩
  | error e session' =>
    cases e with
    | eval e => exact ⟨rfl, rfl⟩
    | read e =>
      have hsession := Session.eq_of_eval_read htrim
      exact ⟨rfl, hsession, hsession⟩

/-- An ideographic space takes three bytes. -/
example : Expr.parse "\u3000 1 2 " = .error (.trailing "2" 6) ∧
    Expr.parse (trim "\u3000 1 2 ") = .error (.trailing "2" 2) := by
  decide +kernel

end LineLisp
