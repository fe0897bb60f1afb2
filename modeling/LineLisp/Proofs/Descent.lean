import LineLisp.Proofs.Grammar

/-!
# Recursive descent

The grammar suggests a reader that descends into a list for its items and comes back with the list.
An item is read by the same reader, so the lists that are open are not seen: they are in the
recursion. `Descends` and `DescendsItems` say what such a reader does with any tokens, what it comes
to as well as how many tokens it consumes, and the reader with a stack does the same.
-/

namespace LineLisp.Expr

mutual

/-- Reading one expression of the tokens comes to the result and leaves the rest. -/
inductive Descends : List Token → Except ReadError Expr → List Token → Prop
  | opening {offset : Nat} {ts rest : List Token} {result : Except ReadError Expr}
    (h : DescendsItems [] ts result rest) : Descends (⟨.opening, offset⟩ :: ts) result rest
  | closing (offset : Nat) (ts : List Token) :
    Descends (⟨.closing, offset⟩ :: ts) (.error (.unopened offset)) ts
  | atom (text : String) (offset : Nat) (ts : List Token) :
    Descends (⟨.atom text, offset⟩ :: ts) (ofAtom text offset) ts
  | nil : Descends [] (.error .endOfInput) []

/-- Reading the other items of a list, behind those given, and the parenthesis that closes it. The
parenthesis is noticed before it is taken for an item. -/
inductive DescendsItems :
    List Expr → List Token → Except ReadError Expr → List Token → Prop
  | closing (items : List Expr) (offset : Nat) (ts : List Token) :
    DescendsItems items (⟨.closing, offset⟩ :: ts) (.ok (.list items)) ts
  | item {items : List Expr} {t : Token} {ts ts' rest : List Token} {e : Expr}
    {result : Except ReadError Expr} (ht : t.lexeme ≠ .closing)
    (h : Descends (t :: ts) (.ok e) ts') (hs : DescendsItems (items ++ [e]) ts' result rest) :
    DescendsItems items (t :: ts) result rest
  | error {items : List Expr} {t : Token} {ts rest : List Token} {e : ReadError}
    (ht : t.lexeme ≠ .closing) (h : Descends (t :: ts) (.error e) rest) :
    DescendsItems items (t :: ts) (.error e) rest
  | nil (items : List Expr) : DescendsItems items [] (.error .endOfInput) []

end

/-- Where the reader goes from the result of a descent: a fault ends the reading. -/
def deliver : Except ReadError Expr → List (List Expr) → List Token →
    Except ReadError Expr × List Token
  | .ok e, lists, ts => resume e lists ts
  | .error e, _, ts => (.error e, ts)

theorem readOpen_atom_eq_deliver (text : String) (offset : Nat) (lists : List (List Expr))
    (ts : List Token) :
    readOpen lists (⟨.atom text, offset⟩ :: ts) = deliver (ofAtom text offset) lists ts := by
  cases h : ofAtom text offset with
  | ok e => exact readOpen_atom h lists ts
  | error e => simp only [readOpen, h, deliver]

/-! ## A descent is what the stack does above the lists that are open -/

mutual

/-- Within open lists an expression does not begin with a closing parenthesis, which would be
theirs. -/
theorem Descends.readOpen_eq {ts rest : List Token} {result : Except ReadError Expr} :
    Descends ts result rest → ∀ lists : List (List Expr),
      lists = [] ∨ (∀ t ∈ ts.head?, t.lexeme ≠ .closing) →
      readOpen lists ts = deliver result lists rest
  | .opening h, lists, _ => by
    rw [readOpen]
    exact h.readOpen_eq lists
  | .closing offset ts, lists, hlists => by
    obtain rfl | hclosing := hlists
    · rw [readOpen, deliver]
    · exact absurd rfl (hclosing _ rfl)
  | .atom text offset ts, lists, _ => readOpen_atom_eq_deliver text offset lists ts
  | .nil, lists, _ => by rw [readOpen, deliver]

theorem DescendsItems.readOpen_eq {items : List Expr} {ts rest : List Token}
    {result : Except ReadError Expr} :
    DescendsItems items ts result rest → ∀ lists : List (List Expr),
      readOpen (items.reverse :: lists) ts = deliver result lists rest
  | .closing items offset ts, lists => by
    rw [readOpen_closing, List.reverse_reverse, deliver]
  | .item ht h hs, lists => by
    have hitems := hs.readOpen_eq lists
    rw [List.reverse_append, List.reverse_singleton, List.singleton_append] at hitems
    rw [h.readOpen_eq (_ :: lists) (.inr (by simpa using ht)), deliver, resume, hitems]
  | .error ht h, lists => by
    rw [h.readOpen_eq (_ :: lists) (.inr (by simpa using ht)), deliver, deliver]
  | .nil items, lists => by rw [readOpen, deliver]

end

/-! ## A descent comes to an end on any tokens -/

mutual

theorem Descends.length_le {ts rest : List Token} {result : Except ReadError Expr} :
    Descends ts result rest → rest.length ≤ ts.length - 1
  | .opening h => h.length_le
  | .closing _ _ | .atom _ _ _ | .nil => le_rfl

theorem DescendsItems.length_le {items : List Expr} {ts rest : List Token}
    {result : Except ReadError Expr} : DescendsItems items ts result rest → rest.length ≤ ts.length
  | .closing _ _ ts => Nat.le_succ ts.length
  | .item _ h hs => hs.length_le.trans (h.length_le.trans (Nat.sub_le _ 1))
  | .error _ h => h.length_le.trans (Nat.sub_le _ 1)
  | .nil _ => le_rfl

end

/-- The items of a list are fewer tokens than the list, and an item takes at least one of the tokens
that are left. -/
theorem exists_descends (n : Nat) :
    (∀ ts : List Token, ts.length < n → ∃ result rest, Descends ts result rest) ∧
    ∀ (items : List Expr) (ts : List Token), ts.length < n →
      ∃ result rest, DescendsItems items ts result rest := by
  induction n with
  | zero => simp
  | succ n ih =>
    have hexpr : ∀ ts : List Token, ts.length < n + 1 → ∃ result rest, Descends ts result rest := by
      intro ts hts
      rcases ts with _ | ⟨⟨_ | _ | text, offset⟩, ts⟩
      · exact ⟨_, _, .nil⟩
      · obtain ⟨result, rest, hitems⟩ := ih.2 [] ts (Nat.lt_of_succ_lt_succ hts)
        exact ⟨result, rest, .opening hitems⟩
      · exact ⟨_, _, .closing offset ts⟩
      · exact ⟨_, _, .atom text offset ts⟩
    refine ⟨hexpr, fun items ts hts => ?_⟩
    rcases ts with _ | ⟨t, ts⟩
    · exact ⟨_, _, .nil items⟩
    · by_cases ht : t.lexeme = .closing
      · obtain ⟨lexeme, offset⟩ := t
        obtain rfl := ht
        exact ⟨_, _, .closing items offset ts⟩
      · obtain ⟨e | e, ts', hitem⟩ := hexpr (t :: ts) hts
        · exact ⟨_, ts', .error ht hitem⟩
        · obtain ⟨result, rest, hitems⟩ :=
            ih.2 (items ++ [e]) ts' (hitem.length_le.trans_lt (Nat.lt_of_succ_lt_succ hts))
          exact ⟨result, rest, .item ht hitem hitems⟩

/-- The reader does what recursive descent does. -/
theorem read_eq_iff_descends {ts rest : List Token} {result : Except ReadError Expr} :
    read ts = (result, rest) ↔ Descends ts result rest := by
  have hread {result : Except ReadError Expr} {rest : List Token} (h : Descends ts result rest) :
      read ts = (result, rest) := by
    rw [read, h.readOpen_eq [] (.inl rfl)]
    cases result <;> rfl
  refine ⟨fun h => ?_, hread⟩
  obtain ⟨result', rest', hdescends⟩ :=
    (exists_descends (ts.length + 1)).1 ts (Nat.lt_succ_self _)
  obtain ⟨rfl, rfl⟩ := Prod.mk.inj (h.symm.trans (hread hdescends))
  exact hdescends

end LineLisp.Expr
