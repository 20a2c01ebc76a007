import LexicalLisp.Evaluation.Application
import LexicalLisp.Evaluation.Form

/-!
# Evaluation

`step` evaluates one expression, given evaluators for the levels below it: the
parts of a form, the head of a list and the arguments of a primitive lie one level
deeper, the arguments of a list and the bodies of functions two levels deeper.
`evalWithin` closes the recursion over the number of levels that are left.

An operator application of a primitive is an ordinary application as soon as the
primitive's name means anything else in the environment.
-/
namespace LexicalLisp

/-- What shadows the primitive in the environment, if anything does. -/
def Store.shadowing? (s : Store) (p : Primitive) (env : EnvRef) : Option Value :=
  match s.lookup? p.name env with
  | some v => if v.isBuiltin p.name then none else some v
  | none => none

/-- Applies a primitive that nothing shadows; its argument count is checked first. -/
def evalPrimitive (run : Runner) (next : Evaluator) (p : Primitive) (args : List Value)
    (env : EnvRef) : Action Value := do
  match p.arity.refusal? args.length with
  | some expected => throw (.arity expected args.length (some (.op (.primitive p) args)))
  | none =>
    let vs ← evalEach next args env
    Action.ofExcept (run (.primitive p) vs)

/-- Evaluates a list: its head first, then its arguments. -/
def evalList (run : Runner) (next afterNext : Evaluator) (elements : List Value) (env : EnvRef) :
    Action Value := do
  match elements with
  | [] => throw (.evaluation .emptyApplication [])
  | head :: args =>
    let f ← next head env
    let vs ← evalEach afterNext args env
    apply run afterNext f vs

/-- Evaluates one expression; what is no symbol, operator application or list stands for itself. -/
def step (run : Runner) (next afterNext : Evaluator) (expr : Value) (env : EnvRef) :
    Action Value := do
  match expr with
  | .symbol s =>
    match (← get).lookup? s.name env with
    | some v => return v
    | none => throw (.unboundVariable s.name)
  | .op (.primitive p) args =>
    match (← get).shadowing? p env with
    | some f =>
      let vs ← evalEach afterNext args env
      Action.noting (.evaluating expr) (apply run afterNext f vs)
    | none => evalPrimitive run next p args env
  | .op (.form form) args => form.run next args env
  | .list elements =>
    Action.noting (.evaluating expr) (evalList run next afterNext elements env)
  | _ => return expr

section Equations

variable (run : Runner) (next afterNext : Evaluator) (env : EnvRef)

@[simp] theorem step_number (n : Int64) :
    step run next afterNext (.number n) env = pure (.number n) := rfl

@[simp] theorem step_string (s : String) :
    step run next afterNext (.string s) env = pure (.string s) := rfl

@[simp] theorem step_bool (b : Bool) :
    step run next afterNext (.bool b) env = pure (.bool b) := rfl

@[simp] theorem step_builtin (id : String) (code : Code) :
    step run next afterNext (.builtin id code) env = pure (.builtin id code) := rfl

@[simp] theorem step_function (f : FunctionRef) :
    step run next afterNext (.function f) env = pure (.function f) := rfl

@[simp] theorem step_unspecified :
    step run next afterNext .unspecified env = pure .unspecified := rfl

@[simp] theorem step_form (form : SpecialForm) (args : List Value) :
    step run next afterNext (.op (.form form) args) env = form.run next args env := rfl

@[simp] theorem step_list (elements : List Value) :
    step run next afterNext (.list elements) env =
      Action.noting (.evaluating (.list elements)) (evalList run next afterNext elements env) :=
  rfl

end Equations

/-- Evaluates with this many levels left. -/
def evalWithin (run : Runner) : (levels : Nat) → Evaluator
  | 0 => fun _ _ => throw (.evaluation .depthExceeded [])
  | 1 => step run (evalWithin run 0) (evalWithin run 0)
  | levels + 2 => step run (evalWithin run (levels + 1)) (evalWithin run levels)

theorem evalWithin_succ (run : Runner) (levels : Nat) :
    evalWithin run (levels + 1) =
      step run (evalWithin run levels) (evalWithin run (levels - 1)) := by
  cases levels <;> rfl

/-- Evaluates at this depth. -/
def evalAt (host : Host) (depth : Nat) : Evaluator :=
  evalWithin (Code.run host) (maxDepth - depth)

/-- Above the limit the evaluators of the levels below are those of the depths below. -/
theorem evalAt_of_lt {host : Host} {depth : Nat} (h : depth < maxDepth) :
    evalAt host depth =
      step (Code.run host) (evalAt host (depth + 1)) (evalAt host (depth + 2)) := by
  obtain ⟨levels, hlevels⟩ : ∃ n, maxDepth - depth = n + 1 := ⟨maxDepth - depth - 1, by omega⟩
  have hnext : maxDepth - (depth + 1) = levels := by omega
  have hafterNext : maxDepth - (depth + 2) = levels - 1 := by omega
  simp only [evalAt, hlevels, hnext, hafterNext]
  exact evalWithin_succ _ levels

/-- Evaluates an expression at the outermost level. -/
def eval (host : Host) : Evaluator := evalAt host 0

/-- Activates a constructed scope inside `parent` and evaluates its body. -/
def EnvRef.enter (host : Host) (scope parent : EnvRef) : Action Value := do
  scope.activate parent
  evalBody (evalAt host 1) ((← get).body scope) scope

end LexicalLisp
