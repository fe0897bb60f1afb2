import LineLisp.Proofs.Grammar
import Mathlib.Logic.Function.Iterate

/-!
# Depth

While it reads, the reader has lists open, and their number is the number of opening parentheses
that no closing one has met. So where it stops can be foretold by `Expr.scan`, which knows nothing
of lists: it counts parentheses and looks for numerals that do not fit.
-/

namespace LineLisp

/-- The lexeme is a numeral that stands for no fixnum. -/
def Lexeme.Oversized : Lexeme → Prop
  | .atom text =>
    ∃ n, Numeral.Denotes text n ∧ (n < -0x8000000000000000 ∨ 0x8000000000000000 ≤ n)
  | .opening | .closing => False

def openings (ts : List Token) : Nat := ts.countP (·.lexeme = .opening)

def closings (ts : List Token) : Nat := ts.countP (·.lexeme = .closing)

namespace Expr

theorem ofAtom_eq_error_iff {text : String} {offset : Nat} {e : ReadError} :
    ofAtom text offset = .error e ↔ (Lexeme.atom text).Oversized ∧ e = .tooLarge text offset := by
  simp only [Lexeme.Oversized, ← Numeral.toInt?_eq_some_iff, ← Fixnum.ofInt?_eq_none_iff, ofAtom]
  cases Numeral.toInt? text with
  | none => simp
  | some n => cases hfits : Fixnum.ofInt? n <;> simp [hfits, eq_comm]

instance : DecidablePred Lexeme.Oversized
  | .atom text =>
    decidable_of_iff (ofAtom text 0 = .error (.tooLarge text 0))
      (by simp [ofAtom_eq_error_iff])
  | .opening | .closing => inferInstanceAs (Decidable False)

/-! ## Tokens and open lists -/

/-- A token that leaves lists open. -/
inductive Step : List (List Expr) → Token → List (List Expr) → Prop
  | opening (lists : List (List Expr)) (offset : Nat) : Step lists ⟨.opening, offset⟩ ([] :: lists)
  | closing (items outer : List Expr) (lists : List (List Expr)) (offset : Nat) :
    Step (items :: outer :: lists) ⟨.closing, offset⟩ ((.list items.reverse :: outer) :: lists)
  | atom (items : List Expr) (lists : List (List Expr)) {text : String} {offset : Nat} {e : Expr}
    (h : ofAtom text offset = .ok e) :
    Step (items :: lists) ⟨.atom text, offset⟩ ((e :: items) :: lists)

/-- A token that ends the reading. -/
inductive Stop : List (List Expr) → Token → Except ReadError Expr → Prop
  | unopened (offset : Nat) : Stop [] ⟨.closing, offset⟩ (.error (.unopened offset))
  | tooLarge (lists : List (List Expr)) {text : String} (offset : Nat)
    (h : (Lexeme.atom text).Oversized) :
    Stop lists ⟨.atom text, offset⟩ (.error (.tooLarge text offset))
  | atom {text : String} {offset : Nat} {e : Expr} (h : ofAtom text offset = .ok e) :
    Stop [] ⟨.atom text, offset⟩ (.ok e)
  | closing (items : List Expr) (offset : Nat) :
    Stop [items] ⟨.closing, offset⟩ (.ok (.list items.reverse))

/-- The tokens lead from some open lists to others. -/
inductive Reads : List (List Expr) → List Token → List (List Expr) → Prop
  | nil (lists : List (List Expr)) : Reads lists [] lists
  | cons {lists lists' lists'' : List (List Expr)} {t : Token} {ts : List Token}
    (h : Step lists t lists') (hs : Reads lists' ts lists'') : Reads lists (t :: ts) lists''

variable {lists lists' : List (List Expr)} {t : Token} {ts : List Token}
  {result : Except ReadError Expr}

theorem step_or_stop (lists : List (List Expr)) (t : Token) :
    (∃ lists', Step lists t lists') ∨ ∃ result, Stop lists t result := by
  obtain ⟨lexeme, offset⟩ := t
  cases lexeme with
  | opening => exact .inl ⟨_, .opening lists offset⟩
  | closing =>
    match lists with
    | [] => exact .inr ⟨_, .unopened offset⟩
    | [items] => exact .inr ⟨_, .closing items offset⟩
    | items :: outer :: lists => exact .inl ⟨_, .closing items outer lists offset⟩
  | atom text =>
    cases hatom : ofAtom text offset with
    | error e =>
      obtain ⟨hsize, rfl⟩ := ofAtom_eq_error_iff.1 hatom
      exact .inr ⟨_, .tooLarge lists offset hsize⟩
    | ok e =>
      cases lists with
      | nil => exact .inr ⟨_, .atom hatom⟩
      | cons items lists => exact .inl ⟨_, .atom items lists hatom⟩

theorem Step.readOpen (h : Step lists t lists') (ts : List Token) :
    readOpen lists (t :: ts) = readOpen lists' ts := by
  cases h with
  | opening lists offset => rw [Expr.readOpen]
  | closing items outer lists offset => rw [readOpen_closing, resume]
  | atom items lists hatom => rw [readOpen_atom hatom, resume]

theorem Stop.readOpen (h : Stop lists t result) (ts : List Token) :
    readOpen lists (t :: ts) = (result, ts) := by
  cases h with
  | unopened offset => rw [Expr.readOpen]
  | tooLarge lists offset hsize => simp [Expr.readOpen, ofAtom_eq_error_iff.2 ⟨hsize, rfl⟩]
  | atom hatom => rw [readOpen_atom hatom, resume]
  | closing items offset => rw [readOpen_closing, resume]

theorem Reads.readOpen (h : Reads lists ts lists') (rest : List Token) :
    readOpen lists (ts ++ rest) = readOpen lists' rest := by
  induction h with
  | nil => rfl
  | cons hstep _ ih => rw [List.cons_append, hstep.readOpen, ih]

theorem Reads.read_eq (h : Reads [] ts lists) : read ts = (.error .endOfInput, []) := by
  have hread := h.readOpen []
  rw [List.append_nil] at hread
  rw [read, hread, Expr.readOpen]

theorem Reads.append {lists'' : List (List Expr)} {ts' : List Token} (h : Reads lists ts lists')
    (h' : Reads lists' ts' lists'') : Reads lists (ts ++ ts') lists'' := by
  induction h with
  | nil => exact h'
  | cons hstep _ ih => exact .cons hstep (ih h')

/-- The reader goes through all tokens, or one of them stops it. -/
theorem exists_reads (lists : List (List Expr)) (ts : List Token) :
    (∃ lists', Reads lists ts lists') ∨
      ∃ before t after lists' result, ts = before ++ t :: after ∧ Reads lists before lists' ∧
        Stop lists' t result := by
  induction ts generalizing lists with
  | nil => exact .inl ⟨lists, .nil lists⟩
  | cons t ts ih =>
    obtain ⟨lists₁, hstep⟩ | ⟨result, hstop⟩ := step_or_stop lists t
    · obtain ⟨lists', hts⟩ | ⟨before, t', after, lists', result, rfl, hbefore, hstop⟩ := ih lists₁
      · exact .inl ⟨lists', .cons hstep hts⟩
      · exact .inr ⟨t :: before, t', after, lists', result, rfl, .cons hstep hbefore, hstop⟩
    · exact .inr ⟨[], t, ts, lists, result, rfl, .nil lists, hstop⟩

/-! ## How many lists are open -/

theorem not_oversized_of_ofAtom {text : String} {offset : Nat} {e : Expr}
    (h : ofAtom text offset = .ok e) : ¬ (Lexeme.atom text).Oversized := by
  intro hsize
  simp [ofAtom_eq_error_iff.2 ⟨hsize, rfl⟩] at h

theorem Step.length_add (h : Step lists t lists') :
    lists'.length + closings [t] = lists.length + openings [t] := by
  cases h <;> simp [openings, closings]

theorem Step.ne_nil (h : Step lists t lists') : lists' ≠ [] := by
  cases h <;> simp

theorem Step.not_oversized (h : Step lists t lists') : ¬ t.lexeme.Oversized := by
  cases h with
  | atom items lists hatom => exact not_oversized_of_ofAtom hatom
  | opening | closing => exact id

theorem Stop.not_oversized {e : Expr} (h : Stop lists t (.ok e)) : ¬ t.lexeme.Oversized := by
  cases h with
  | atom hatom => exact not_oversized_of_ofAtom hatom
  | closing => exact id

theorem Stop.length_add {e : Expr} (h : Stop lists t (.ok e)) :
    closings [t] = lists.length + openings [t] := by
  cases h <;> simp [openings, closings]

namespace Reads

/-- The lists that are open are as many as the parentheses that are. -/
theorem length_add (h : Reads lists ts lists') :
    lists'.length + closings ts = lists.length + openings ts := by
  induction h with
  | nil => rfl
  | cons hstep _ ih =>
    have := hstep.length_add
    simp only [openings, closings, List.countP_cons, List.countP_nil] at this ih ⊢
    omega

theorem ne_nil (h : Reads lists ts lists') (hne : ts ≠ []) : lists' ≠ [] := by
  induction h with
  | nil => exact absurd rfl hne
  | cons hstep hs ih =>
    cases hs with
    | nil => exact hstep.ne_nil
    | cons => exact ih (by simp)

theorem eq_nil (h : Reads lists ts []) : ts = [] := by
  by_contra hne
  exact h.ne_nil hne rfl

theorem not_oversized (h : Reads lists ts lists') : ∀ t ∈ ts, ¬ t.lexeme.Oversized := by
  induction h with
  | nil => simp
  | cons hstep _ ih => exact List.forall_mem_cons.2 ⟨hstep.not_oversized, ih⟩

theorem take (h : Reads lists ts lists') (k : Nat) : ∃ lists₁, Reads lists (ts.take k) lists₁ := by
  induction h generalizing k with
  | nil lists => exact ⟨lists, by simpa using .nil lists⟩
  | cons hstep _ ih =>
    cases k with
    | zero => exact ⟨_, .nil _⟩
    | succ k =>
      obtain ⟨lists₁, hs⟩ := ih k
      exact ⟨lists₁, .cons hstep hs⟩

/-- While the reader goes on, not every parenthesis is closed. -/
theorem closings_lt (h : Reads [] ts lists) {k : Nat} (hmin : 1 ≤ k) (hmax : k ≤ ts.length) :
    closings (ts.take k) < openings (ts.take k) := by
  obtain ⟨lists₁, hs⟩ := h.take k
  have hne : ts.take k ≠ [] := by
    rw [← List.length_pos_iff, List.length_take]
    omega
  have hpos := List.length_pos_of_ne_nil (hs.ne_nil hne)
  have hlength := hs.length_add
  simp at hlength
  omega

end Reads

/-! ## The scan -/

/-- The least positive number of tokens that have as many opening as closing parentheses. -/
def balance? (ts : List Token) : Option Nat :=
  (List.range' 1 ts.length).find? fun k => openings (ts.take k) = closings (ts.take k)

/-- The scan for a balance. A numeral that does not fit is looked for among the tokens up to the
balance, or among all of them if there is none. -/
def scanBalance (ts : List Token) : Option ReadError × Nat :=
  let looked := ts.take ((balance? ts).getD ts.length)
  match looked.find? (·.lexeme.Oversized), balance? ts with
  | some t, _ => (some (.tooLarge t.lexeme.text t.offset), looked.findIdx (·.lexeme.Oversized) + 1)
  | none, none => (some .endOfInput, ts.length)
  | none, some k => (none, k)

/-- The fault that the reader meets, if there is one, and the number of tokens that it consumes. -/
def scan : List Token → Option ReadError × Nat
  | [] => (some .endOfInput, 0)
  | ⟨.closing, offset⟩ :: _ => (some (.unopened offset), 1)
  | ts => scanBalance ts

theorem balance?_eq_some_iff {k : Nat} :
    balance? ts = some k ↔ (1 ≤ k ∧ k ≤ ts.length) ∧ openings (ts.take k) = closings (ts.take k) ∧
      ∀ j, 1 ≤ j → j < k → openings (ts.take j) ≠ closings (ts.take j) := by
  rw [balance?, List.find?_range'_eq_some]
  grind

theorem balance?_eq_none_iff :
    balance? ts = none ↔
      ∀ k, 1 ≤ k → k ≤ ts.length → openings (ts.take k) ≠ closings (ts.take k) := by
  rw [balance?, List.find?_range'_eq_none]
  grind

/-- As long as the reader goes on, there is no balance. -/
theorem Reads.ne_balance (h : Reads [] ts lists) (rest : List Token) {k : Nat} (hmin : 1 ≤ k)
    (hmax : k ≤ ts.length) : openings ((ts ++ rest).take k) ≠ closings ((ts ++ rest).take k) := by
  rw [List.take_append_of_le_length hmax]
  exact (h.closings_lt hmin hmax).ne'

theorem Reads.lt_balance (h : Reads [] ts lists) {rest : List Token} {k : Nat}
    (hk : balance? (ts ++ rest) = some k) : ts.length < k := by
  obtain ⟨⟨hmin, -⟩, hbalance, -⟩ := balance?_eq_some_iff.1 hk
  by_contra hle
  exact h.ne_balance rest hmin (by omega) hbalance

theorem take_length_add_one (ts : List Token) (t : Token) (after : List Token) :
    (ts ++ t :: after).take (ts.length + 1) = ts ++ [t] := by
  rw [List.take_length_add_append]
  rfl

/-- An expression ends at the first balance. -/
theorem Reads.balance?_eq (h : Reads [] ts lists) {e : Expr} (hstop : Stop lists t (.ok e))
    (after : List Token) : balance? (ts ++ t :: after) = some (ts.length + 1) := by
  have htake := take_length_add_one ts t after
  have hlists := h.length_add
  have hdepth := hstop.length_add
  rw [balance?_eq_some_iff, htake]
  refine ⟨by simp, ?_, fun j hmin hmax => h.ne_balance _ hmin (by omega)⟩
  simp only [openings, closings, List.countP_append, List.length_nil] at hlists hdepth ⊢
  omega

/-- The first token of an expression that goes on is a parenthesis. -/
theorem Reads.exists_opening (h : Reads [] ts lists) (hne : ts ≠ []) :
    ∃ offset ts', ts = ⟨.opening, offset⟩ :: ts' := by
  obtain _ | @⟨_, _, _, _, ts, hstep, -⟩ := h
  · exact absurd rfl hne
  · obtain ⟨_, offset⟩ := hstep
    exact ⟨offset, ts, rfl⟩

theorem scan_of_reads (h : Reads [] ts lists) : scan ts = (some .endOfInput, ts.length) := by
  by_cases hne : ts = []
  · rw [hne]
    rfl
  obtain ⟨offset, ts', hts⟩ := h.exists_opening hne
  have hscan : scan ts = scanBalance ts := by rw [hts]; rfl
  have hbalance : balance? ts = none :=
    balance?_eq_none_iff.2 fun k hmin hmax => (h.closings_lt hmin hmax).ne'
  have hsizes : ts.find? (·.lexeme.Oversized) = none := by simpa using h.not_oversized
  simp [hscan, scanBalance, hbalance, hsizes]

theorem scan_eq_scanBalance (h : Reads [] ts lists) (ht : lists = [] → t.lexeme ≠ .closing)
    (after : List Token) : scan (ts ++ t :: after) = scanBalance (ts ++ t :: after) := by
  by_cases hne : ts = []
  · subst hne
    obtain ⟨⟩ := h
    obtain ⟨lexeme, offset⟩ := t
    cases lexeme with
    | opening => rfl
    | closing => exact absurd rfl (ht rfl)
    | atom text => rfl
  · obtain ⟨offset, ts', rfl⟩ := h.exists_opening hne
    rfl

theorem scan_of_ok (h : Reads [] ts lists) {e : Expr} (hstop : Stop lists t (.ok e))
    (after : List Token) : scan (ts ++ t :: after) = (none, ts.length + 1) := by
  have ht : lists = [] → t.lexeme ≠ .closing := by
    cases hstop <;> simp
  have hsizes : (ts ++ [t]).find? (·.lexeme.Oversized) = none := by
    simpa [hstop.not_oversized] using h.not_oversized
  rw [scan_eq_scanBalance h ht, scanBalance, h.balance?_eq hstop]
  simp [take_length_add_one, hsizes]

theorem scan_of_oversized (h : Reads [] ts lists) (ht : t.lexeme.Oversized) (after : List Token) :
    scan (ts ++ t :: after) = (some (.tooLarge t.lexeme.text t.offset), ts.length + 1) := by
  have hsizes : ∀ t ∈ ts, ¬ t.lexeme.Oversized := h.not_oversized
  have hclosing : t.lexeme ≠ .closing := by
    intro hclosing
    rw [hclosing] at ht
    exact ht
  -- The tokens up to the balance include this one.
  obtain ⟨after', hlooked⟩ : ∃ after', (ts ++ t :: after).take
      ((balance? (ts ++ t :: after)).getD (ts ++ t :: after).length) = ts ++ t :: after' := by
    cases hbalance : balance? (ts ++ t :: after) with
    | none => exact ⟨after, by rw [Option.getD_none, List.take_length]⟩
    | some k =>
      obtain ⟨n, rfl⟩ := Nat.exists_eq_add_of_lt (h.lt_balance hbalance)
      exact ⟨after.take n, by simp [Nat.add_assoc, List.take_length_add_append]⟩
  have hfind : (ts ++ t :: after').find? (·.lexeme.Oversized) = some t := by
    have hnone : ts.find? (·.lexeme.Oversized) = none := by simpa using hsizes
    simp [hnone, ht]
  have hindex : (ts ++ t :: after').findIdx (·.lexeme.Oversized) = ts.length := by
    have hlength : ts.findIdx (·.lexeme.Oversized) = ts.length := by simpa using hsizes
    simp [List.findIdx_append, List.findIdx_cons, hlength, ht]
  rw [scan_eq_scanBalance h fun _ => hclosing, scanBalance, hlooked]
  simp [hfind, hindex]

/-! ## The reader and the scan -/

/-- The reader reports the end of the input, or what the token that stopped it says. -/
theorem read_cases (ts : List Token) :
    (∃ lists, Reads [] ts lists ∧ read ts = (.error .endOfInput, [])) ∨
      ∃ before t after lists result, ts = before ++ t :: after ∧ Reads [] before lists ∧
        Stop lists t result ∧ read ts = (result, after) := by
  obtain ⟨lists, hts⟩ | ⟨before, t, after, lists, result, rfl, hbefore, hstop⟩ := exists_reads [] ts
  · exact .inl ⟨lists, hts, hts.read_eq⟩
  · have hread := hbefore.readOpen (t :: after)
    exact .inr ⟨before, t, after, lists, result, rfl, hbefore, hstop,
      hread.trans (hstop.readOpen after)⟩

theorem read_of_scan (ts : List Token) :
    (scan ts).2 ≤ ts.length ∧
    match (scan ts).1 with
    | some e => read ts = (.error e, ts.drop (scan ts).2)
    | none => ∃ e, read ts = (.ok e, ts.drop (scan ts).2) := by
  obtain ⟨lists, hts, hread⟩ | ⟨before, t, after, lists, result, rfl, hbefore, hstop, hread⟩ :=
    read_cases ts
  · simp [scan_of_reads hts, hread]
  have hdrop : (before ++ t :: after).drop (before.length + 1) = after := by
    rw [List.drop_length_add_append]
    rfl
  cases hstop with
  | unopened offset =>
    obtain rfl := hbefore.eq_nil
    exact ⟨by simp [scan], hread⟩
  | tooLarge lists offset hsize =>
    rw [scan_of_oversized hbefore hsize after, hdrop]
    exact ⟨by simp, hread⟩
  | atom hatom =>
    rw [scan_of_ok hbefore (.atom hatom) after, hdrop]
    exact ⟨by simp, _, hread⟩
  | closing items offset =>
    rw [scan_of_ok hbefore (.closing items offset) after, hdrop]
    exact ⟨by simp, _, hread⟩

theorem read_eq_unopened_iff {offset : Nat} {rest : List Token} :
    read ts = (.error (.unopened offset), rest) ↔ ts = ⟨.closing, offset⟩ :: rest := by
  constructor
  · intro h
    obtain ⟨lists, -, hread⟩ | ⟨before, t, after, lists, result, rfl, hbefore, hstop, hread⟩ :=
      read_cases ts
    · simp [hread] at h
    · obtain ⟨rfl, rfl⟩ := Prod.mk.inj (hread.symm.trans h)
      cases hstop
      rw [hbefore.eq_nil]
      rfl
  · rintro rfl
    rw [read, readOpen]

theorem length_read_le (ts : List Token) : (read ts).2.length ≤ ts.length - 1 := by
  obtain ⟨lists, -, hread⟩ | ⟨before, t, after, lists, result, rfl, -, -, hread⟩ := read_cases ts
  · simp [hread]
  · simp [hread]

/-- Reading one expression after the other comes to an end. -/
theorem iterate_read {n : Nat} (h : ts.length ≤ n) : (fun ts => (read ts).2)^[n] ts = [] := by
  induction n generalizing ts with
  | zero => simpa using h
  | succ n ih =>
    have hread := length_read_le ts
    rw [Function.iterate_succ_apply]
    exact ih (by omega)

theorem parse_of_read_error {source : String} {e : ReadError} {rest : List Token}
    (h : read (tokenize source) = (.error e, rest)) : parse source = .error e := by
  simp only [parse, h]

theorem parse_of_read_ok {source : String} {e : Expr} {rest : List Token}
    (h : read (tokenize source) = (.ok e, rest)) :
    parse source = match rest.head? with
      | none => .ok e
      | some t => .error (.trailing t.lexeme.text t.offset) := by
  cases rest <;> simp [parse, h]

theorem parse_of_scan (source : String) :
    match scan (tokenize source) with
    | (some e, _) => parse source = .error e
    | (none, k) =>
      match (tokenize source)[k]? with
      | some t => parse source = .error (.trailing t.lexeme.text t.offset)
      | none => ∃ e, parse source = .ok e := by
  have hread := (read_of_scan (tokenize source)).2
  generalize scan (tokenize source) = outcome at hread
  obtain ⟨_ | e, k⟩ := outcome
  · obtain ⟨e, hread⟩ := hread
    have hparse := parse_of_read_ok hread
    simp only [List.head?_drop] at hparse ⊢
    cases ht : (tokenize source)[k]? with
    | none =>
      rw [ht] at hparse
      exact ⟨e, hparse⟩
    | some t =>
      rw [ht] at hparse
      exact hparse
  · exact parse_of_read_error hread

/-- What the reader does is told by a scan that counts parentheses: its fault, if there is one, and
how many tokens it consumes. So a closing parenthesis is refused only where it is the first token,
every call consumes something, and a text is faulty for the same reason as its tokens, or for the
token behind the first balance. -/
theorem read_eq_scan :
    (∀ ts : List Token, (scan ts).2 ≤ ts.length ∧
      match (scan ts).1 with
      | some e => read ts = (.error e, ts.drop (scan ts).2)
      | none => ∃ e, read ts = (.ok e, ts.drop (scan ts).2)) ∧
    (∀ (ts : List Token) (offset : Nat) (rest : List Token),
      read ts = (.error (.unopened offset), rest) ↔ ts = ⟨.closing, offset⟩ :: rest) ∧
    (∀ ts : List Token, (read ts).2.length ≤ ts.length - 1 ∧
      (fun ts => (read ts).2)^[ts.length] ts = []) ∧
    ∀ source : String,
      match scan (tokenize source) with
      | (some e, _) => parse source = .error e
      | (none, k) =>
        match (tokenize source)[k]? with
        | some t => parse source = .error (.trailing t.lexeme.text t.offset)
        | none => ∃ e, parse source = .ok e :=
  ⟨read_of_scan, fun _ _ _ => read_eq_unopened_iff,
    fun ts => ⟨length_read_le ts, iterate_read (Nat.le_refl _)⟩, parse_of_scan⟩

end Expr

end LineLisp
