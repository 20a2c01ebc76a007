/-!
# Sets of code points

A set of characters is a list of closed intervals of code points. Membership is
a plain search, so the order of the intervals does not matter.
-/
namespace LexicalLisp.Text

/-- Closed intervals `(first, last)` of code points. -/
abbrev CodePoints := List (Nat × Nat)

def CodePoints.has (set : CodePoints) (c : Char) : Bool :=
  set.any fun (first, last) => first ≤ c.toNat && c.toNat ≤ last

end LexicalLisp.Text
