import LineLisp.Fixnum

/-!
# Numerals

A numeral is an optional minus sign followed by at least one of the digits `0` to `9`. Leading zeros
are allowed, a plus sign is not. Writing gives the shortest numeral.
-/

namespace LineLisp

namespace Numeral

/-- The number that a nonempty run of digits stands for. -/
def digits? (cs : List Char) : Option Nat :=
  if cs ≠ [] ∧ cs.all Char.isDigit then some (Nat.ofDigitChars 10 cs 0) else none

/-- The integer that a numeral stands for, of any size. -/
def ofChars? : List Char → Option Int
  | '-' :: cs => (digits? cs).map fun (n : Nat) => -(n : Int)
  | cs => (digits? cs).map fun (n : Nat) => (n : Int)

def toInt? (text : String) : Option Int := ofChars? text.toList

/-- The numeral of an integer, without leading zeros. -/
def ofInt (n : Int) : String :=
  if n < 0 then "-" ++ n.natAbs.repr else n.natAbs.repr

theorem digits?_toDigits (n : Nat) : digits? (Nat.toDigits 10 n) = some n := by
  have hdigit : (Nat.toDigits 10 n).all Char.isDigit := by
    rw [List.all_eq_true]
    exact fun c hc => Nat.isDigit_of_mem_toDigits (by decide) (by decide) hc
  simp [digits?, hdigit, Nat.toDigits_ne_nil, Nat.ofDigitChars_ten_toDigits]

theorem ofChars?_of_digits? {cs : List Char} {n : Nat} (h : digits? cs = some n) :
    ofChars? cs = some (n : Int) := by
  unfold ofChars?
  split
  · simp [digits?] at h
  · simp [h]

/-- What is written for an integer reads back as that integer. -/
theorem toInt?_ofInt (n : Int) : toInt? (ofInt n) = some n := by
  unfold toInt? ofInt
  split
  · rw [String.toList_append, Nat.toList_repr, show "-".toList = ['-'] from rfl,
      List.singleton_append, ofChars?, digits?_toDigits, Option.map_some]
    exact congrArg some (by omega)
  · rw [Nat.toList_repr, ofChars?_of_digits? (digits?_toDigits _)]
    exact congrArg some (by omega)

end Numeral

/-- Whether the text is a numeral, whatever its size. -/
def isNumeral (text : String) : Bool := (Numeral.toInt? text).isSome

/-- The decimal text of a fixnum. -/
def Fixnum.render (a : Fixnum) : String := Numeral.ofInt a.toInt

end LineLisp
