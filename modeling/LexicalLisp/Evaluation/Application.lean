import LexicalLisp.Evaluation.Sequence
import LexicalLisp.Primitive

/-!
# Application

A builtin is applied by running its code. A function is applied by choosing the
overload for the number of arguments and evaluating its body in a new scope,
which binds the parameters and lies inside the environment of the definition.
-/
namespace LexicalLisp

/-- The functions of the host, by name. They are taken to be pure in their argument values: on the
same values each has the same result at all times, and it neither sees the store nor changes it. -/
abbrev Host := String → List Value → Except Error Value

/-- What the code of a builtin gives on argument values. -/
abbrev Runner := Code → List Value → Except Error Value

def Code.run (host : Host) : Runner
  | .primitive p => p.run
  | .host name => host name

/-- A frame that binds each parameter to its argument. -/
def Frame.declareAll (f : Frame) : List Symbol → List Value → Except Error Frame
  | p :: ps, v :: vs => do
    let g ← f.declare p v
    g.declareAll ps vs
  | _, _ => .ok f

/-- Applies the function; `eval` evaluates the expressions of its body. -/
def FunctionRef.call (eval : Evaluator) (f : FunctionRef) (args : List Value) : Action Value := do
  match (← get).closures[f.index]? with
  | none => throw (.evaluation (.noOverload f.name args.length []) [])
  | some closure =>
    let o ← Action.ofExcept (f.select closure.overloads args.length)
    let frame ← Action.ofExcept (Frame.declareAll {} o.params args)
    let scope ← Environment.create ⟨frame, .scope o.body (some closure.home)⟩
    Action.noting (.inFunction f.name) (evalBody eval o.body scope)

def apply (run : Runner) (eval : Evaluator) : Value → List Value → Action Value
  | .builtin _ code, args => Action.ofExcept (run code args)
  | .function f, args => f.call eval args
  | v, _ => throw (.type (.notApplicable v) [])

end LexicalLisp
