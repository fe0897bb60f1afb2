import LineLisp.Proofs.Cuts
import LineLisp.Proofs.Depth

/-!
# Texts that go on

A text that ends too early can be completed: it is blank, or it lacks as many closing parentheses as
it has more opening ones. Any other fault stays whatever follows, and what follows an expression is
itself a fault unless it is blank.
-/

namespace LineLisp

open Text

/-! ## Counting parentheses -/

/-- The lexeme is the parenthesis that the character is. -/
inductive Lexeme.Parenthesis : Lexeme → Char → Prop
  | opening : Parenthesis .opening '('
  | closing : Parenthesis .closing ')'

namespace Lexeme.Parenthesis

variable {l l' : Lexeme} {c : Char} (h : Parenthesis l c)
include h

theorem isBlank_eq_false : isBlank c = false := by
  cases h <;> decide

/-- No other lexeme has the parenthesis in its text. -/
theorem count_text (hl' : l'.WellFormed) : l'.text.toList.count c = if l' = l then 1 else 0 := by
  cases l' with
  | opening => cases h <;> decide
  | closing => cases h <;> decide
  | atom text =>
    have hnotMem : c ∉ text.toList := by
      intro hmem
      have hc := hl'.2 c hmem
      cases h <;> simp at hc
    cases h <;> simp [Lexeme.text, List.count_eq_zero_of_not_mem hnotMem]

theorem count_gap {gap : String} (hgap : IsGap gap) : gap.toList.count c = 0 := by
  rw [List.count_eq_zero]
  intro hmem
  simpa [hgap c hmem] using h.isBlank_eq_false

theorem count_write {pieces : List (String × Lexeme)} {last : String}
    (hgaps : ∀ p ∈ pieces, IsGap p.1) (hlast : IsGap last)
    (hlexemes : ∀ p ∈ pieces, p.2.WellFormed) :
    (Layout.write pieces last).toList.count c = pieces.countP (·.2 = l) := by
  induction pieces with
  | nil => simpa [Layout.write] using h.count_gap hlast
  | cons p pieces ih =>
    rw [List.forall_mem_cons] at hgaps hlexemes
    have hrest := ih hgaps.2 hlexemes.2
    simp only [Layout.write, String.toList_append, List.count_append, h.count_gap hgaps.1,
      h.count_text hlexemes.1, hrest, List.countP_cons, decide_eq_true_eq]
    omega

/-- The parentheses of a text are those of its tokens. -/
theorem countP_tokenize (s : String) : (tokenize s).countP (·.lexeme = l) = s.toList.count c := by
  obtain ⟨layout, rfl⟩ := exists_layout s
  have hlexemes := congrArg (List.countP (· = l)) (Layout.map_lexeme_tokensAfter "" layout.pieces)
  rw [List.countP_map, List.countP_map] at hlexemes
  rw [Layout.source, h.count_write layout.gaps.1 layout.gaps.2 layout.lexemes]
  exact (congrArg _ layout.tokenize_source).trans hlexemes

end Lexeme.Parenthesis

theorem openings_tokenize (s : String) : openings (tokenize s) = s.toList.count '(' :=
  Lexeme.Parenthesis.opening.countP_tokenize s

theorem closings_tokenize (s : String) : closings (tokenize s) = s.toList.count ')' :=
  Lexeme.Parenthesis.closing.countP_tokenize s

/-! ## Closing parentheses behind a text -/

/-- Closing parentheses at this offset and the following ones. -/
def closingsAt (offset : Nat) : Nat → List Token
  | 0 => []
  | m + 1 => ⟨.closing, offset⟩ :: closingsAt (offset + 1) m

theorem tokensFrom_replicate (offset m : Nat) :
    tokensFrom offset (List.replicate m ')') = closingsAt offset m := by
  induction m generalizing offset with
  | zero => rw [List.replicate_zero, tokensFrom, closingsAt]
  | succ m ih =>
    have hclosing : tokensFrom offset (')' :: List.replicate m ')') =
        ⟨.closing, offset⟩ :: tokensFrom (offset + 1) (List.replicate m ')') :=
      tokensFrom_lexeme (l := .closing) trivial (fun h => h.elim) offset
    rw [List.replicate_succ, hclosing, ih, closingsAt]

theorem closingsAt_add (offset m n : Nat) :
    closingsAt offset (m + n) = closingsAt offset m ++ closingsAt (offset + m) n := by
  induction m generalizing offset with
  | zero => simp [closingsAt]
  | succ m ih =>
    have hnumber : m + 1 + n = m + n + 1 := by omega
    have hoffset : offset + 1 + m = offset + (m + 1) := by omega
    rw [hnumber, closingsAt, ih, hoffset, closingsAt, List.cons_append]

/-- The text with closing parentheses behind it. -/
def closed (s : String) (m : Nat) : String := s ++ String.ofList (List.replicate m ')')

theorem tokenize_closed (s : String) (m : Nat) :
    tokenize (closed s m) = tokenize s ++ closingsAt s.utf8ByteSize m := by
  have hcut : CleanCut s (String.ofList (List.replicate m ')')) := by
    rw [cleanCut_iff, String.toList_ofList]
    refine .inr fun c hc => ?_
    obtain rfl : c = ')' := List.eq_of_mem_replicate (List.mem_of_mem_head? hc)
    decide
  rw [tokenize, closed, tokensFrom_append hcut, Nat.zero_add, String.toList_ofList,
    tokensFrom_replicate]
  rfl

namespace Expr

variable {ts rest : List Token} {lists : List (List Expr)}

/-! ## What stopped the reader -/

/-- What stopped the reader stops it with more tokens too, and these are left. -/
theorem read_append {result : Except ReadError Expr} (h : read ts = (result, rest))
    (hresult : result ≠ .error .endOfInput) (more : List Token) :
    read (ts ++ more) = (result, rest ++ more) := by
  obtain ⟨_, -, hread⟩ | ⟨before, t, after, _, _, rfl, hbefore, hstop, hread⟩ := read_cases ts
  · rw [h] at hread
    exact absurd (Prod.mk.inj hread).1 hresult
  · obtain ⟨rfl, rfl⟩ := Prod.mk.inj (h.symm.trans hread)
    calc read (before ++ t :: rest ++ more)
        = readOpen [] (before ++ t :: (rest ++ more)) := by
          rw [read, List.append_assoc, List.cons_append]
      _ = (result, rest ++ more) := by rw [hbefore.readOpen, hstop.readOpen]

theorem read_tokenize_append {s t : String} {result : Except ReadError Expr}
    (h : read (tokenize s) = (result, rest)) (hresult : result ≠ .error .endOfInput)
    (hcut : CleanCut s t) :
    read (tokenize (s ++ t)) =
      (result, rest ++ (tokenize t).map (Token.shift s.utf8ByteSize)) := by
  rw [tokenize_append hcut, read_append h hresult]

/-- A fault other than an early end stays, whatever follows. -/
theorem parse_append_of_error {s t : String} {e : ReadError} (h : parse s = .error e)
    (hend : e ≠ .endOfInput) (hcut : CleanCut s t) : parse (s ++ t) = .error e := by
  rcases hread : read (tokenize s) with ⟨result, rest⟩
  cases result with
  | error e' =>
    obtain rfl : e' = e := by simpa [parse_of_read_error hread] using h
    exact parse_of_read_error (read_tokenize_append hread (by simpa using hend) hcut)
  | ok e' =>
    rw [parse_of_read_ok hread] at h
    cases rest with
    | nil => simp at h
    | cons token rest =>
      exact (parse_of_read_ok (read_tokenize_append hread (by simp) hcut)).trans h

/-- Behind an expression only blanks may follow. -/
theorem parse_append_of_ok {s t : String} {e : Expr} (h : parse s = .ok e) (hcut : CleanCut s t) :
    parse (s ++ t) = match (tokenize t).head? with
      | none => .ok e
      | some token => .error (.trailing token.lexeme.text (s.utf8ByteSize + token.offset)) := by
  have hread := read_tokenize_append (parse_eq_ok_iff_read.1 h) (by simp) hcut
  rw [parse_of_read_ok hread]
  cases tokenize t <;> rfl

/-! ## Closing what is open -/

/-- The reader goes on while there are fewer closing parentheses than open lists. -/
theorem exists_reads_closingsAt (offset : Nat) {m : Nat} (h : m < lists.length) :
    ∃ lists', Reads lists (closingsAt offset m) lists' ∧ lists'.length + m = lists.length := by
  induction m generalizing offset lists with
  | zero => exact ⟨lists, .nil lists, rfl⟩
  | succ m ih =>
    match lists with
    | [] | [_] => simp at h
    | items :: outer :: lists =>
      have hless : m < ((.list items.reverse :: outer) :: lists).length := by simpa using h
      obtain ⟨lists', hreads, hlength⟩ := ih (offset + 1) hless
      refine ⟨lists', .cons (.closing items outer lists offset) hreads, ?_⟩
      simp only [List.length_cons] at hlength ⊢
      omega

/-- As many closing parentheses as open lists make an expression. -/
theorem exists_read_closingsAt (h : Reads [] ts lists) (hne : lists ≠ []) (offset : Nat) :
    ∃ e, ∀ n, read (ts ++ closingsAt offset (lists.length + n)) =
      (.ok e, closingsAt (offset + lists.length) n) := by
  obtain ⟨k, hk⟩ := Nat.exists_eq_add_one.2 (List.length_pos_of_ne_nil hne)
  have hless : k < lists.length := by omega
  obtain ⟨lists', hreads, hlength⟩ := exists_reads_closingsAt offset hless
  have hone : lists'.length = 1 := by omega
  obtain ⟨items, rfl⟩ := List.length_eq_one_iff.1 hone
  refine ⟨.list items.reverse, fun n => ?_⟩
  have hsplit : closingsAt offset (lists.length + n) =
      closingsAt offset k ++ ⟨.closing, offset + k⟩ :: closingsAt (offset + lists.length) n := by
    rw [hk, Nat.add_assoc, closingsAt_add, Nat.add_comm 1 n, closingsAt, Nat.add_assoc]
  rw [read, hsplit, h.readOpen, hreads.readOpen, (Stop.closing items (offset + k)).readOpen]

/-- A text ends too early if the reader goes through all of its tokens. -/
theorem parse_eq_endOfInput_iff {s : String} :
    parse s = .error .endOfInput ↔ ∃ lists, Reads [] (tokenize s) lists := by
  constructor
  · intro h
    obtain ⟨lists, hreads, -⟩ | ⟨before, t, after, lists, result, -, -, hstop, hread⟩ :=
      read_cases (tokenize s)
    · exact ⟨lists, hreads⟩
    · cases result with
      | error e =>
        rw [parse_of_read_error hread] at h
        cases hstop <;> simp at h
      | ok e =>
        rw [parse_of_read_ok hread] at h
        cases after <;> simp at h
  · rintro ⟨lists, hreads⟩
    exact parse_of_read_error hreads.read_eq

/-- A text that ends too early lacks as many closing parentheses as it has more opening ones: fewer
of them leave it as it is, and of more of them the first is one too many. -/
theorem exists_parse_closed {s : String} (h : parse s = .error .endOfInput) (hs : ¬ IsGap s) :
    ∃ d e, 1 ≤ d ∧ s.toList.count '(' = s.toList.count ')' + d ∧ ∀ m,
      parse (closed s m) =
        if m < d then .error .endOfInput
        else if m = d then .ok e
        else .error (.trailing ")" (s.utf8ByteSize + d)) := by
  obtain ⟨lists, hreads⟩ := parse_eq_endOfInput_iff.1 h
  have hne : lists ≠ [] := hreads.ne_nil (tokenize_eq_nil_iff.not.2 hs)
  obtain ⟨e, hclosed⟩ := exists_read_closingsAt hreads hne s.utf8ByteSize
  refine ⟨lists.length, e, List.length_pos_of_ne_nil hne, ?_, fun m => ?_⟩
  · have hlength := hreads.length_add
    rw [openings_tokenize, closings_tokenize, List.length_nil] at hlength
    omega
  by_cases hm : m < lists.length
  · obtain ⟨lists', hreads', -⟩ := exists_reads_closingsAt s.utf8ByteSize hm
    rw [if_pos hm, parse_eq_endOfInput_iff, tokenize_closed]
    exact ⟨lists', hreads.append hreads'⟩
  · obtain ⟨n, rfl⟩ := Nat.exists_eq_add_of_le (Nat.le_of_not_lt hm)
    have hread := hclosed n
    rw [← tokenize_closed] at hread
    rw [parse_of_read_ok hread]
    cases n <;> simp [closingsAt, Lexeme.text]

theorem parse_append_of_isGap {s t : String} {e : Expr} (h : parse s = .ok e) (ht : IsGap t)
    (hcut : CleanCut s t) : parse (s ++ t) = .ok e := by
  rw [parse_append_of_ok h hcut, tokenize_gap ht]
  rfl

theorem parse_append_of_not_isGap {s t : String} {e : Expr} (h : parse s = .ok e) (ht : ¬ IsGap t)
    (hcut : CleanCut s t) : ∃ token ∈ (tokenize t).head?, parse (s ++ t) = .error (.trailing
      token.lexeme.text (s.utf8ByteSize + (leadingBlanks t).utf8ByteSize)) := by
  obtain ⟨l, ts, htokens⟩ := exists_tokenize_eq_cons ht
  rw [parse_append_of_ok h hcut, htokens]
  exact ⟨_, rfl, rfl⟩

/-- A text ends too early just if it is blank or some number of closing parentheses completes it,
and this is the number of opening parentheses less the closing ones. With fewer of them it still
ends too early, and with more of them the next one is left over. Any other fault stays whatever
follows, unless an atom goes on across the cut, and behind an expression everything but a blank is
left over. -/
theorem parse_extended (s : String) :
    (parse s = .error .endOfInput ↔
      IsGap s ∨ ∃ d e, 1 ≤ d ∧ s.toList.count '(' = s.toList.count ')' + d ∧ ∀ m,
        parse (closed s m) =
          if m < d then .error .endOfInput
          else if m = d then .ok e
          else .error (.trailing ")" (s.utf8ByteSize + d))) ∧
    ∀ t, CleanCut s t →
      (∀ e, parse s = .error e → e ≠ .endOfInput → parse (s ++ t) = .error e) ∧
      ∀ e, parse s = .ok e →
        (IsGap t → parse (s ++ t) = .ok e) ∧
        (¬ IsGap t → ∃ token ∈ (tokenize t).head?, parse (s ++ t) = .error (.trailing
          token.lexeme.text (s.utf8ByteSize + (leadingBlanks t).utf8ByteSize))) := by
  refine ⟨⟨fun h => ?_, ?_⟩, fun t hcut => ⟨fun e h hend => parse_append_of_error h hend hcut,
    fun e h => ⟨fun ht => parse_append_of_isGap h ht hcut,
      fun ht => parse_append_of_not_isGap h ht hcut⟩⟩⟩
  · by_cases hs : IsGap s
    · exact .inl hs
    · exact .inr (exists_parse_closed h hs)
  · rintro (hs | ⟨d, e, hd, -, hclosed⟩)
    · rw [parse_eq_endOfInput_iff, tokenize_gap hs]
      exact ⟨[], .nil []⟩
    · have hzero : closed s 0 = s := by simp [closed]
      have hpos : 0 < d := hd
      rw [← hzero, hclosed, if_pos hpos]

/-- `(+ (é` lacks two parentheses. What follows a numeral that does not fit is not looked at, and of
what follows `x` the parenthesis behind a blank of three bytes is left over. -/
theorem parse_extended_unclosed :
    (∃ e, ∀ m, parse (closed "(+ (é" m) =
      if m < 2 then .error .endOfInput
      else if m = 2 then .ok e
      else .error (.trailing ")" 8)) ∧
    parse ("(9223372036854775808" ++ "))") = .error (.tooLarge "9223372036854775808" 1) ∧
    parse ("x" ++ "\u3000(y") = .error (.trailing "(" 4) := by
  refine ⟨?_, ?_, ?_⟩
  · obtain hgap | ⟨d, e, -, hcount, hclosed⟩ := (parse_extended "(+ (é").1.1 (by decide +kernel)
    · exact absurd (hgap '(' (by decide)) (by decide)
    · obtain rfl : d = 2 := by simpa using hcount.symm
      exact ⟨e, hclosed⟩
  · have hcut : CleanCut "(9223372036854775808" "))" := .inr (.inr (.inr ⟨')', rfl, by decide⟩))
    exact ((parse_extended _).2 _ hcut).1 _ (by decide +kernel) (by decide)
  · have hcut : CleanCut "x" "\u3000(y" := .inr (.inr (.inr ⟨'\u3000', rfl, by decide⟩))
    have hnot : ¬ IsGap "\u3000(y" := fun h => absurd (h '(' (by decide)) (by decide)
    obtain ⟨token, htoken, hparse⟩ :=
      (((parse_extended _).2 _ hcut).2 (.sym "x") (by decide +kernel)).2 hnot
    have hfirst : (tokenize "\u3000(y").head? = some ⟨.opening, 3⟩ := by decide +kernel
    obtain rfl := Option.mem_unique htoken hfirst
    exact hparse

end Expr

end LineLisp
