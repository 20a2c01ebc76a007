/-!
# Operators

The names that the language itself gives a meaning: primitives, which receive
values, and special forms, which receive expressions. Each has one name and one
arity. Only a primitive's name is bound in the global environment, so only a
primitive can be shadowed.
-/
namespace LexicalLisp

/-- The argument counts that an operator takes. -/
inductive Arity where
  | exactly (n : Nat)
  | atLeast (n : Nat)
  | any
  deriving DecidableEq

namespace Arity

/-- The count that was wanted, when `given` arguments are refused. -/
def refusal? : Arity → Nat → Option Nat
  | exactly n, given => if given = n then none else some n
  | atLeast n, given => if given < n then some n else none
  | any, _ => none

def admits (a : Arity) (given : Nat) : Bool := (a.refusal? given).isNone

end Arity

inductive Primitive where
  | add
  | sub
  | mul
  | gt
  | ge
  | lt
  | le
  | numEq
  | equal
  | not
  | car
  | cdr
  | cons
  | list
  | isNull
  | stringAppend
  | max
  | min
  | error
  deriving DecidableEq

namespace Primitive

def name : Primitive → String
  | add => "+"
  | sub => "-"
  | mul => "*"
  | gt => ">"
  | ge => ">="
  | lt => "<"
  | le => "<="
  | numEq => "="
  | equal => "equal?"
  | not => "not"
  | car => "car"
  | cdr => "cdr"
  | cons => "cons"
  | list => "list"
  | isNull => "null?"
  | stringAppend => "string-append"
  | max => "max"
  | min => "min"
  | error => "error"

def arity : Primitive → Arity
  | add | list | stringAppend | error => .any
  | sub | mul | max | min => .atLeast 1
  | gt | ge | lt | le | numEq => .atLeast 2
  | equal | cons => .exactly 2
  | not | car | cdr | isNull => .exactly 1

def all : List Primitive :=
  [add, sub, mul, gt, ge, lt, le, numEq, equal, not, car, cdr, cons, list, isNull, stringAppend,
    max, min, error]

end Primitive

inductive SpecialForm where
  | quote
  | conj
  | disj
  | cond
  | sequence
  | define
  | assign
  | lambda
  | defun
  | letIn
  deriving DecidableEq

namespace SpecialForm

def name : SpecialForm → String
  | quote => "quote"
  | conj => "and"
  | disj => "or"
  | cond => "if"
  | sequence => "begin"
  | define => "define"
  | assign => "set!"
  | lambda => "lambda"
  | defun => "defun"
  | letIn => "let"

/-- An empty `let` passes here, so that the form itself can name what it lacks. -/
def arity : SpecialForm → Arity
  | quote => .exactly 1
  | conj | disj => .atLeast 1
  | cond => .exactly 3
  | sequence | letIn => .any
  | define | assign => .exactly 2
  | lambda => .atLeast 2
  | defun => .atLeast 3

def all : List SpecialForm :=
  [quote, conj, disj, cond, sequence, define, assign, lambda, defun, letIn]

end SpecialForm

inductive Operator where
  | primitive (p : Primitive)
  | form (f : SpecialForm)
  deriving DecidableEq

namespace Operator

def name : Operator → String
  | primitive p => p.name
  | form f => f.name

def arity : Operator → Arity
  | primitive p => p.arity
  | form f => f.arity

def isForm : Operator → Bool
  | primitive _ => false
  | form _ => true

def all : List Operator := SpecialForm.all.map form ++ Primitive.all.map primitive

/-- The operator of that name. -/
def ofName? (name : String) : Option Operator := all.find? (·.name == name)

theorem ofName?_name (o : Operator) : ofName? o.name = some o := by
  rcases o with p | f
  · cases p <;> rfl
  · cases f <;> rfl

theorem name_injective {o o' : Operator} (h : o.name = o'.name) : o = o' := by
  simpa [ofName?_name] using congrArg ofName? h

end Operator

theorem Primitive.name_injective {p q : Primitive} (h : p.name = q.name) : p = q :=
  Operator.primitive.inj (Operator.name_injective h)

end LexicalLisp
