import LineLisp.Expr.Basic
import LineLisp.Numeral
import LineLisp.ReadError
import LineLisp.Token

/-!
# Reading expressions

The reader consumes tokens until one expression is complete or a fault is met. The lists that are
open at a token form a stack, the innermost on top, and each of them holds the items read so far,
the latest first. So the depth of a source costs no recursion, and every token is looked at once.

`Expr.read` gives the tokens that were not consumed as well. A fault consumes the token that shows
it.
-/

namespace LineLisp.Expr

/-- A numeral is a number, which has to fit; any other atom is a symbol. -/
def ofAtom (text : String) (offset : Nat) : Except ReadError Expr :=
  match Numeral.toInt? text with
  | none => .ok (.sym text)
  | some n =>
    match Fixnum.ofInt? n with
    | none => .error (.tooLarge text offset)
    | some a => .ok (.num a)

/-- Reads on inside the lists that are open. -/
def readOpen : List (List Expr) → List Token → Except ReadError Expr × List Token
  | _, [] => (.error .endOfInput, [])
  | lists, ⟨.opening, _⟩ :: ts => readOpen ([] :: lists) ts
  | [], ⟨.closing, offset⟩ :: ts => (.error (.unopened offset), ts)
  | [items], ⟨.closing, _⟩ :: ts => (.ok (.list items.reverse), ts)
  | items :: outer :: lists, ⟨.closing, _⟩ :: ts =>
    readOpen ((.list items.reverse :: outer) :: lists) ts
  | lists, ⟨.atom text, offset⟩ :: ts =>
    match ofAtom text offset, lists with
    | .error e, _ => (.error e, ts)
    | .ok e, [] => (.ok e, ts)
    | .ok e, items :: lists => readOpen ((e :: items) :: lists) ts

/-- Reads the first expression, and returns the tokens after what it consumed. -/
def read (tokens : List Token) : Except ReadError Expr × List Token :=
  readOpen [] tokens

/-- The expression that the source is, with nothing after it. -/
def parse (source : String) : Except ReadError Expr :=
  match read (tokenize source) with
  | (.error e, _) => .error e
  | (.ok e, []) => .ok e
  | (.ok _, t :: _) => .error (.trailing t.lexeme.text t.offset)

end LineLisp.Expr
