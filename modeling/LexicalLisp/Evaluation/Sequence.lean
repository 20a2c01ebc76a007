import LexicalLisp.Store.Definition

/-!
# Evaluating several expressions

Expressions are evaluated from the left, and the first error ends it all. Arguments
keep every result; a body keeps the last.
-/
namespace LexicalLisp

/-- Evaluates an expression in an environment. -/
abbrev Evaluator := Value → EnvRef → Action Value

/-- The values of all expressions. -/
def evalEach (eval : Evaluator) : List Value → EnvRef → Action (List Value)
  | [], _ => return []
  | expr :: rest, env => do
    let v ← eval expr env
    let vs ← evalEach eval rest env
    return v :: vs

/-- The value of the last expression; an empty body has the empty list. -/
def evalBody (eval : Evaluator) : List Value → EnvRef → Action Value
  | [], _ => return .nil
  | [last], env => eval last env
  | expr :: next :: rest, env => do
    let _ ← eval expr env
    evalBody eval (next :: rest) env

end LexicalLisp
