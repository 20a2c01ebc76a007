import LexicalLisp.Evaluation.Sequence
import LexicalLisp.Value.Equality

/-!
# Let

A `let` is a list of bindings and a body. It is a value of its own, so it can be
kept and run many times. The initializers are all evaluated in the environment
around the `let`: no binding of the list is visible to another.
-/
namespace LexicalLisp

structure Let where
  bindings : List Value
  body : List Value

namespace Let

/-- The arguments of a `let` form. The bindings are looked at only when it runs. -/
def ofArgs : List Value → Except Error Let
  | [] => .error (.malformed .noBindings)
  | .list bindings :: body => .ok ⟨bindings, body⟩
  | v :: _ => .error (.malformed (.notBindings v))

/-- The symbol and the initializer of one binding. -/
def parts : Value → Except Error (Symbol × Value)
  | .list [.symbol s, init] => .ok (s, init)
  | v => .error (.malformed (.notBinding v))

/-- The frame with one more variable for each binding. -/
def bindAll (eval : Evaluator) (env : EnvRef) : List Value → Frame → Action Frame
  | [], f => return f
  | binding :: rest, f => do
    let (s, init) ← Action.ofExcept (parts binding)
    let v ← eval init env
    let g ← Action.ofExcept (f.declare s v)
    bindAll eval env rest g

/-- The constructed scope, whose body is not evaluated yet. -/
def construct (eval : Evaluator) (l : Let) (env : EnvRef) : Action EnvRef := do
  let frame ← bindAll eval env l.bindings {}
  Environment.create ⟨frame, .scope l.body none⟩

/-- Evaluates the body in a new scope inside `env`. -/
def run (eval : Evaluator) (l : Let) (env : EnvRef) : Action Value := do
  let frame ← bindAll eval env l.bindings {}
  let scope ← Environment.create ⟨frame, .scope l.body (some env)⟩
  evalBody eval l.body scope

def same (l m : Let) : Bool :=
  Value.sameAll l.bindings m.bindings && Value.sameAll l.body m.body

end Let
end LexicalLisp
