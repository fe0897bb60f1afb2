import LineLisp.Proofs.Correspondence

/-!
# Contexts

A part of an expression can be exchanged for another one that always evaluates alike, and the whole
still evaluates alike. The part has to stand where a value is asked for: an operator sees an operand
through its value only, but the head of a list and the target of a definition are taken as they are
written. A `Context` has its hole in such a place.
-/

namespace LineLisp

namespace Correspondence

end Correspondence

end LineLisp
