import LexicalLisp.Error
import LexicalLisp.Value.Equality

/-!
# Primitives

A primitive is a function of its argument values. Each one checks the count and
the types of its arguments by itself, so it behaves alike wherever it is called
from. Arithmetic is exact: a partial result that does not fit is an error.
-/
namespace LexicalLisp.Primitive

def refuseCount (expected : Nat) (args : List Value) : Except Error Value :=
  .error (.arity expected args.length none)

/-- The numbers in the arguments, all of which must be numbers. -/
def numbers (p : Primitive) : List Value → Except Error (List Int64)
  | [] => .ok []
  | .number n :: rest => (numbers p rest).map (n :: ·)
  | v :: _ => .error (.type (.notNumber p v) [])

/-- The strings in the arguments, all of which must be strings. -/
def strings : List Value → Except Error (List String)
  | [] => .ok []
  | .string s :: rest => (strings rest).map (s :: ·)
  | v :: _ => .error (.type (.notString v) [])

/-- The result of an operation, if it fits. -/
def exact (operation : Operation) (n : Int) : Except Error Int64 :=
  match Numeral.fit? n with
  | some m => .ok m
  | none => .error (.evaluation (.overflow operation) [])

/-- Combines from the left; every partial result must fit. -/
def accumulate (operation : Operation) (combine : Int → Int → Int) :
    Int64 → List Int64 → Except Error Int64
  | n, [] => .ok n
  | n, m :: ms => do
    let k ← exact operation (combine n.toInt m.toInt)
    accumulate operation combine k ms

/-- Whether the relation holds between every two neighbours. -/
def chained (r : Int64 → Int64 → Bool) : List Int64 → Bool
  | a :: b :: rest => r a b && chained r (b :: rest)
  | _ => true

def compareAll (p : Primitive) (r : Int64 → Int64 → Bool) (args : List Value) :
    Except Error Value :=
  if args.length < 2 then refuseCount 2 args
  else do
    let ns ← numbers p args
    return .bool (chained r ns)

/-- The element that wins every comparison, taken from the left. -/
def extremum (p : Primitive) (better : Int64 → Int64 → Bool) (args : List Value) :
    Except Error Value := do
  match ← numbers p args with
  | [] => refuseCount 1 []
  | n :: ns => return .number (ns.foldl (fun a b => if better b a then b else a) n)

def runAdd (args : List Value) : Except Error Value := do
  let ns ← numbers .add args
  let n ← accumulate .addition (· + ·) 0 ns
  return .number n

def runSub (args : List Value) : Except Error Value := do
  match ← numbers .sub args with
  | [] => refuseCount 1 []
  | [n] =>
    let m ← exact .negation (-n.toInt)
    return .number m
  | n :: ns =>
    let m ← accumulate .subtraction (· - ·) n ns
    return .number m

def runMul (args : List Value) : Except Error Value := do
  match ← numbers .mul args with
  | [] => refuseCount 1 []
  | ns =>
    let n ← accumulate .multiplication (· * ·) 1 ns
    return .number n

def runCar : List Value → Except Error Value
  | [.list []] => .error (.evaluation (.emptyList .car) [])
  | [.list (v :: _)] => .ok v
  | [v] => .error (.type (.notList .car v) [])
  | args => refuseCount 1 args

def runCdr : List Value → Except Error Value
  | [.list []] => .error (.evaluation (.emptyList .cdr) [])
  | [.list (_ :: vs)] => .ok (.list vs)
  | [v] => .error (.type (.notList .cdr v) [])
  | args => refuseCount 1 args

/-- There are no improper lists. -/
def runCons : List Value → Except Error Value
  | [v, .list vs] => .ok (.list (v :: vs))
  | [_, _] => .error (.type .improperTail [])
  | args => refuseCount 2 args

def runIsNull : List Value → Except Error Value
  | [v] => .ok (.bool v.isNil)
  | args => refuseCount 1 args

def runNot : List Value → Except Error Value
  | [.bool b] => .ok (.bool !b)
  | [_] => .error (.type .negatedNonBoolean [])
  | args => refuseCount 1 args

/-- Whether `equal?` answers on these two: both must be plain data of one type. -/
def comparable : Value → Value → Bool
  | .bool _, .bool _ => true
  | .number _, .number _ => true
  | .string _, .string _ => true
  | .symbol _, .symbol _ => true
  | .list _, .list _ => true
  | _, _ => false

def runEqual : List Value → Except Error Value
  | [a, b] =>
    if comparable a b then .ok (.bool (a.same b)) else .error (.type (.incomparable a b) [])
  | args => refuseCount 2 args

def runStringAppend (args : List Value) : Except Error Value := do
  let parts ← strings args
  return .string (String.join parts)

/-- A value inside the text of a raised error: strings appear without quotes. -/
def spoken : Value → String
  | .string s => s
  | v => v.render

def runError (args : List Value) : Except Error Value :=
  let text := if args.isEmpty then "Error" else " ".intercalate (args.map spoken)
  .error (.evaluation (.raised text) [])

/-- The result of the primitive on these values. -/
def run : Primitive → List Value → Except Error Value
  | add => runAdd
  | sub => runSub
  | mul => runMul
  | gt => compareAll .gt fun a b => a > b
  | ge => compareAll .ge fun a b => a ≥ b
  | lt => compareAll .lt fun a b => a < b
  | le => compareAll .le fun a b => a ≤ b
  | numEq => compareAll .numEq fun a b => a == b
  | equal => runEqual
  | not => runNot
  | car => runCar
  | cdr => runCdr
  | cons => runCons
  | list => fun args => .ok (.list args)
  | isNull => runIsNull
  | stringAppend => runStringAppend
  | max => extremum .max fun a b => a > b
  | min => extremum .min fun a b => a < b
  | error => runError

theorem eq_nil_of_refused {n : Nat} {vs : List Value}
    (h : (Arity.atLeast 1).refusal? vs.length = some n) : vs = [] ∧ n = 1 := by
  cases vs with
  | nil => exact ⟨rfl, (Option.some.inj h).symm⟩
  | cons v vs => simp [Arity.refusal?] at h

/-- A primitive refuses the argument counts that its arity refuses, whatever the arguments. -/
theorem run_of_refused {p : Primitive} {vs : List Value} {n : Nat}
    (h : p.arity.refusal? vs.length = some n) : p.run vs = .error (.arity n vs.length none) := by
  cases p with
  | add | list | stringAppend | error => cases h
  | sub | mul | max | min =>
    obtain ⟨rfl, rfl⟩ := eq_nil_of_refused h
    rfl
  | gt | ge | lt | le | numEq =>
    by_cases hl : vs.length < 2
    · simp only [arity, Arity.refusal?, if_pos hl, Option.some.injEq] at h
      subst h
      simp only [run, compareAll, if_pos hl, refuseCount]
    · simp [arity, Arity.refusal?, hl] at h
  | equal | cons =>
    match vs, h with
    | [], h | [_], h | _ :: _ :: _ :: _, h => cases h; simp [run, runEqual, runCons, refuseCount]
    | [_, _], h => cases h
  | not | car | cdr | isNull =>
    match vs, h with
    | [], h | _ :: _ :: _, h =>
      cases h
      simp [run, runNot, runCar, runCdr, runIsNull, refuseCount]
    | [_], h => cases h

end LexicalLisp.Primitive
