import LexicalLisp.Operator
import LexicalLisp.Symbol

/-!
# Values

Programs and the data they compute are one type. An application whose head names
an operator is an `op`; every other application is a plain `list`. A function
value is a handle: the overloads it stands for live in the store, and two
function values are equal when they are the same handle.
-/
namespace LexicalLisp

/-- A handle on the overloads that the store keeps at `index`. -/
structure FunctionRef where
  name : String
  index : Nat
  deriving DecidableEq

/-- What a builtin runs: a primitive of the language, or a function of the host. -/
inductive Code where
  | primitive (p : Primitive)
  | host (name : String)
  deriving DecidableEq

inductive Value where
  | number (n : Int64)
  | symbol (s : Symbol)
  | string (s : String)
  | bool (b : Bool)
  | list (elements : List Value)
  /-- An operator applied to argument expressions. -/
  | op (operator : Operator) (args : List Value)
  /-- A callable that the host registered under the name `id`. -/
  | builtin (id : String) (code : Code)
  | function (f : FunctionRef)
  /-- The result of a definition; it equals nothing, itself included. -/
  | unspecified

namespace Value

/-- The empty list. -/
def nil : Value := .list []

def isNil : Value → Bool
  | .list [] => true
  | _ => false

/-- The type of a value, as messages name it. -/
def typeName : Value → String
  | .number _ => "int"
  | .symbol _ => "symbol"
  | .string _ => "string"
  | .bool _ => "bool"
  | .list _ => "list"
  | .op _ _ => "expression"
  | .builtin _ _ | .function _ => "fn"
  | .unspecified => "unspecified"

/-- Whether the value is the builtin registered under `id`. -/
def isBuiltin (id : String) : Value → Bool
  | .builtin id' _ => id' == id
  | _ => false

mutual

/-- The plain form of an expression: each operator application becomes the list
of the operator's name and its arguments. -/
def plain : Value → Value
  | .list elements => .list (plainAll elements)
  | .op o args => .list (.symbol ⟨o.name, .any⟩ :: plainAll args)
  | v => v

def plainAll : List Value → List Value
  | [] => []
  | v :: vs => plain v :: plainAll vs

end

theorem plainAll_eq_map (vs : List Value) : plainAll vs = vs.map plain := by
  induction vs with
  | nil => rfl
  | cons v vs ih => simp [plainAll, ih]

end Value

/-- Whether a variable of this kind may hold the value. -/
def Kind.admits : Kind → Value → Bool
  | .any, _ => true
  | .int, .number _ => true
  | .bool, .bool _ => true
  | .string, .string _ => true
  | .list, .list _ => true
  | .fn, .builtin _ _ => true
  | .fn, .function _ => true
  | _, _ => false

end LexicalLisp
