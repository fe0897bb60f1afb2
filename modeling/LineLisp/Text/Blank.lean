/-!
# Blank characters

The characters that separate atoms and that are trimmed from a line are those with the Unicode
White_Space property. The property is a short list of ranges of code points.
-/

namespace LineLisp.Text

/-- The ranges of code points with the White_Space property, in increasing order, ends included. -/
def blankRanges : List (Nat × Nat) :=
  [(0x0009, 0x000D), (0x0020, 0x0020), (0x0085, 0x0085), (0x00A0, 0x00A0), (0x1680, 0x1680),
   (0x2000, 0x200A), (0x2028, 0x2029), (0x202F, 0x202F), (0x205F, 0x205F), (0x3000, 0x3000)]

def isBlank (c : Char) : Bool :=
  blankRanges.any fun range => range.1 ≤ c.toNat && c.toNat ≤ range.2

/-- The characters without the blanks at their end. -/
def trimRight (cs : List Char) : List Char :=
  (cs.reverse.dropWhile isBlank).reverse

/-- The text without the blanks at its two ends. -/
def trim (s : String) : String :=
  String.ofList (trimRight (s.toList.dropWhile isBlank))

end LineLisp.Text
