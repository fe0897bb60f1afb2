import LineLisp.Text.Blank

/-!
# Tokens

A source text is cut into parentheses and atoms. Blanks separate atoms and are dropped; an atom is a
longest run of characters that are neither blank nor a parenthesis. Each token keeps the number of
bytes that stand before it in the UTF-8 form of the source.
-/

namespace LineLisp

open Text

inductive Lexeme where
  | opening
  | closing
  | atom (text : String)
deriving DecidableEq

def Lexeme.text : Lexeme → String
  | .opening => "("
  | .closing => ")"
  | .atom text => text

/-- A lexeme with its byte offset in the source. -/
structure Token where
  lexeme : Lexeme
  offset : Nat
deriving DecidableEq

/-- Whether the character can stand in an atom. -/
def isAtomChar (c : Char) : Bool :=
  !isBlank c && c != '(' && c != ')'

/-- The tokens of the characters, the first of which stands at the given offset. -/
def tokensFrom (offset : Nat) : List Char → List Token
  | [] => []
  | c :: cs =>
    if isAtomChar c then
      let text := String.ofList (c :: cs.takeWhile isAtomChar)
      ⟨.atom text, offset⟩ ::
        tokensFrom (offset + text.utf8ByteSize) (cs.dropWhile isAtomChar)
    else if c = '(' then ⟨.opening, offset⟩ :: tokensFrom (offset + c.utf8Size) cs
    else if c = ')' then ⟨.closing, offset⟩ :: tokensFrom (offset + c.utf8Size) cs
    else tokensFrom (offset + c.utf8Size) cs
termination_by cs => cs.length
decreasing_by
  · exact Nat.lt_succ_of_le (List.dropWhile_suffix isAtomChar).length_le
  all_goals exact Nat.lt_succ_self _

def tokenize (source : String) : List Token :=
  tokensFrom 0 source.toList

end LineLisp
