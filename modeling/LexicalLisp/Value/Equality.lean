import LexicalLisp.Value.Basic

/-!
# Equality of values

Lists and operator applications are compared by their parts, builtins by the name
they are registered under, and functions by their handle. `unspecified` equals
nothing, so a list that holds it does not equal itself.
-/
namespace LexicalLisp.Value

mutual

def same : Value → Value → Bool
  | .number a, .number b => a == b
  | .symbol a, .symbol b => a == b
  | .string a, .string b => a == b
  | .bool a, .bool b => a == b
  | .list a, .list b => sameAll a b
  | .op o a, .op o' b => o == o' && sameAll a b
  | .builtin a _, .builtin b _ => a == b
  | .function f, .function g => f == g
  | _, _ => false

/-- Equality of two sequences, element by element. -/
def sameAll : List Value → List Value → Bool
  | [], [] => true
  | a :: as, b :: bs => same a b && sameAll as bs
  | _, _ => false

end

end LexicalLisp.Value
