/-!
# Limits

How deep expressions may be nested in source text and how deep evaluation may go.
Both limits count from zero: the first depth that is refused is the limit itself.
-/
namespace LexicalLisp

/-- Expressions are read at depths below this. -/
def maxNesting : Nat := 32

/-- Expressions are evaluated at depths below this. -/
def maxDepth : Nat := 64

end LexicalLisp
