import LexicalLisp.Evaluation.Let

/-!
# Special forms

A special form receives its arguments unevaluated, and `eval` evaluates those it
needs one level deeper. Each form checks the count of its arguments by itself.
-/
namespace LexicalLisp.SpecialForm

def refuseCount (expected : Nat) (args : List Value) : Action Value :=
  throw (.arity expected args.length none)

def runQuote : List Value → Action Value
  | [v] => return v
  | args => refuseCount 1 args

/-- Declares a variable in the environment of the form. -/
def runDefine (eval : Evaluator) (args : List Value) (env : EnvRef) : Action Value := do
  match args with
  | [.symbol s, init] =>
    let v ← eval init env
    let slot ← Action.ofExcept (Slot.ofSymbol s v)
    env.define s.name slot
    return .unspecified
  | [_, _] => throw (.type (.targetNotSymbol .define) [])
  | _ => refuseCount 2 args

/-- Assigns to the nearest variable of the name; the symbol's kind plays no part. -/
def runAssign (eval : Evaluator) (args : List Value) (env : EnvRef) : Action Value := do
  match args with
  | [.symbol s, expr] =>
    let v ← eval expr env
    env.assign s.name v
    return .unspecified
  | [_, _] => throw (.type (.targetNotSymbol .assign) [])
  | _ => refuseCount 2 args

def runCond (eval : Evaluator) (args : List Value) (env : EnvRef) : Action Value := do
  match args with
  | [condition, yes, no] =>
    match ← eval condition env with
    | .bool true => eval yes env
    | .bool false => eval no env
    | _ => throw (.type .conditionNotBoolean [])
  | _ => refuseCount 3 args

/-- The symbols in a list, which must hold nothing else. -/
def symbols : List Value → Except Error (List Symbol)
  | [] => .ok []
  | .symbol s :: rest => (symbols rest).map (s :: ·)
  | _ :: _ => .error (.type .parameterNotSymbol [])

def parameters : Value → Except Error (List Symbol)
  | .list elements => symbols elements
  | _ => .error (.type .parametersNotList [])

/-- The overload that a parameter list and a body denote. -/
def implementation (params : Value) (body : List Value) : Except Error Overload := do
  let ps ← parameters params
  Overload.ofParams ps body

def runLambda (args : List Value) (env : EnvRef) : Action Value := do
  match args with
  | params :: first :: rest =>
    let o ← Action.ofExcept (implementation params (first :: rest))
    let f ← FunctionRef.create "lambda" o env
    return .function f
  | _ => refuseCount 2 args

def runDefun (args : List Value) (env : EnvRef) : Action Value := do
  match args with
  | .symbol s :: params :: first :: rest =>
    let o ← Action.ofExcept (implementation params (first :: rest))
    env.defun s.name o
    return .unspecified
  | _ :: _ :: _ :: _ => throw (.type (.targetNotSymbol .defun) [])
  | _ => refuseCount 3 args

def runLet (eval : Evaluator) (args : List Value) (env : EnvRef) : Action Value := do
  let l ← Action.ofExcept (Let.ofArgs args)
  l.run eval env

/-- Whether the expression cannot have a truth value, which shows without evaluating it. -/
def isPlainlyNotBoolean : Value → Bool
  | .number _ | .string _ | .unspecified => true
  | _ => false

/-- Evaluates up to the first operand that has the value `deciding`. -/
def firstDeciding (eval : Evaluator) (form : SpecialForm) (deciding : Bool) :
    List Value → EnvRef → Action Value
  | [], _ => return .bool !deciding
  | expr :: rest, env => do
    match ← eval expr env with
    | .bool b => if b = deciding then return .bool b else firstDeciding eval form deciding rest env
    | _ => throw (.type (.operandNotBoolean form) [])

/-- A conjunction is decided by a false operand, a disjunction by a true one. An operand
that is plainly no truth value is refused even where evaluation would not reach it. -/
def runJunction (eval : Evaluator) (form : SpecialForm) (deciding : Bool) (args : List Value)
    (env : EnvRef) : Action Value :=
  if args.isEmpty then refuseCount 1 args
  else if args.any isPlainlyNotBoolean then throw (.type (.operandNotBoolean form) [])
  else firstDeciding eval form deciding args env

/-- Evaluates the form on these arguments. -/
def run (eval : Evaluator) (form : SpecialForm) (args : List Value) (env : EnvRef) :
    Action Value :=
  match form with
  | quote => runQuote args
  | conj => runJunction eval .conj false args env
  | disj => runJunction eval .disj true args env
  | cond => runCond eval args env
  | sequence => evalBody eval args env
  | define => runDefine eval args env
  | assign => runAssign eval args env
  | lambda => runLambda args env
  | defun => runDefun args env
  | letIn => runLet eval args env

end LexicalLisp.SpecialForm
