import LexicalLisp.Limits
import LexicalLisp.Value.Text

/-!
# Errors

An error is a cause. Evaluation and type errors also carry a trail: the
expressions and functions that were being evaluated around the failure, innermost
first. `Error.message` is the one place where causes are worded.
-/
namespace LexicalLisp

/-- Why a source text denotes no program. Positions count bytes of UTF-8. -/
inductive SourceFault where
  | expectedCharacter (position : Nat)
  | unexpectedToken (position : Nat)
  | tooDeep
  | invalid (snippet : String)
  | endOfInput
  | leftover (rest : String)
  deriving DecidableEq

namespace SourceFault

def message : SourceFault → String
  | expectedCharacter position => s!"Expected character at position {position}"
  | unexpectedToken position => s!"Unexpected token at position {position}"
  | tooDeep => s!"Expression too deeply nested (max depth: {maxNesting})"
  | invalid snippet => s!"Invalid syntax near '{snippet}'"
  | endOfInput => "Unexpected end of input"
  | leftover rest => s!"Unexpected remaining input: '{rest}'"

end SourceFault

/-- The arithmetic whose exact result may not fit. -/
inductive Operation where
  | addition
  | subtraction
  | negation
  | multiplication
  deriving DecidableEq

def Operation.name : Operation → String
  | .addition => "addition"
  | .subtraction => "subtraction"
  | .negation => "negation"
  | .multiplication => "multiplication"

inductive EvaluationFault where
  | depthExceeded
  | emptyApplication
  | overflow (operation : Operation)
  | emptyList (accessor : Primitive)
  /-- The program or a host function raised an error of its own. -/
  | raised (text : String)
  | overloadExists (function : String) (arity : Nat)
  | noOverload (function : String) (given : Nat) (available : List Nat)
  | alreadyActive

namespace EvaluationFault

def message : EvaluationFault → String
  | depthExceeded => s!"Evaluation depth limit exceeded (max: {maxDepth})"
  | emptyApplication => "Cannot evaluate empty list"
  | overflow operation => s!"Integer overflow in {operation.name}"
  | emptyList accessor => s!"{accessor.name} of empty list"
  | raised text => text
  | overloadExists function arity =>
    s!"function {function} already has an overload taking {arity} arguments"
  | noOverload function given available =>
    let list := ", ".intercalate (available.map toString)
    s!"no overload of {function} takes {given} arguments (available: [{list}])"
  | alreadyActive => "scope is already active"

end EvaluationFault

inductive TypeFault where
  | notApplicable (value : Value)
  | notNumber (operator : Primitive) (value : Value)
  | notList (accessor : Primitive) (value : Value)
  | notString (value : Value)
  | improperTail
  | negatedNonBoolean
  | incomparable (first second : Value)
  | conditionNotBoolean
  | operandNotBoolean (form : SpecialForm)
  | targetNotSymbol (form : SpecialForm)
  | parametersNotList
  | parameterNotSymbol
  /-- The slot's kind does not admit the value; `owner` is the variable it belongs to. -/
  | slot (owner : Option String) (kind : Kind) (value : Value)

namespace TypeFault

def message : TypeFault → String
  | notApplicable value => s!"Cannot apply non-function: {value}"
  | notNumber operator value =>
    s!"{operator.name} requires numbers, got {value.typeName} {value}"
  | notList accessor value =>
    s!"{accessor.name} requires a list, got {value.typeName} {value}"
  | notString value => s!"string-append requires strings, got {value.typeName} {value}"
  | improperTail => "cons requires a list as second argument"
  | negatedNonBoolean => "not requires a boolean argument"
  | incomparable first second =>
    "equal? requires arguments of the same comparable type, got "
      ++ s!"{first.typeName} and {second.typeName}"
  | conditionNotBoolean => "if condition must be a boolean"
  | operandNotBoolean form => s!"'{form.name}' requires boolean arguments (no truthiness)"
  | targetNotSymbol form => s!"{form.name} requires a symbol"
  | parametersNotList => "Lambda parameters must be a list"
  | parameterNotSymbol => "Lambda parameters must be symbols"
  | slot owner kind value =>
    let fault := s!"cannot store {value.typeName} value {value} in a slot of kind {kind.name}"
    match owner with
    | none => fault
    | some name => s!"{name}: {fault}"

end TypeFault

/-- Why the arguments of `let` have the wrong shape. -/
inductive ShapeFault where
  | noBindings
  | notBindings (value : Value)
  | notBinding (value : Value)

namespace ShapeFault

def message : ShapeFault → String
  | noBindings => "let args error: expect a binding list but got an empty let form (let)"
  | notBindings value => s!"let args error: expect a binding list but got {value}"
  | notBinding value => s!"let binding error: expect (name value) but got {value}"

end ShapeFault

/-- What a name is bound to. -/
inductive Nature where
  | slot
  | function
  deriving DecidableEq

def Nature.name : Nature → String
  | .slot => "variable"
  | .function => "function"

/-- One line of a trail. -/
inductive Note where
  | evaluating (expr : Value)
  | inFunction (name : String)

def Note.message : Note → String
  | .evaluating expr => s!"\n  Context: while evaluating: {expr}"
  | .inFunction name => s!"\n  In function: {name}"

/-- The notes of a trail in order, each on a line of its own. -/
def Note.trailMessage (trail : List Note) : String := String.join (trail.map Note.message)

inductive Error where
  | source (fault : SourceFault)
  | evaluation (fault : EvaluationFault) (trail : List Note)
  | type (fault : TypeFault) (trail : List Note)
  | unboundVariable (name : String)
  /-- `expression` is the application that was refused before its arguments were evaluated. -/
  | arity (expected given : Nat) (expression : Option Value)
  | malformed (fault : ShapeFault)
  | duplicateName (name : String)
  | kindConflict (name : String) (bound : Nature)

namespace Error

/-- Adds a line to the trail. The errors without one say themselves where they arose. -/
def note (line : Note) : Error → Error
  | evaluation fault trail => evaluation fault (trail ++ [line])
  | type fault trail => type fault (trail ++ [line])
  | e => e

def message : Error → String
  | source fault => "ParseError: " ++ fault.message
  | evaluation fault trail => "EvaluationError: " ++ fault.message ++ Note.trailMessage trail
  | type fault trail => "Type error: " ++ fault.message ++ Note.trailMessage trail
  | unboundVariable name => s!"Unbound variable: {name}"
  | arity expected given none =>
    s!"ArityError: function expected {expected} arguments but got {given}"
  | arity expected given (some expression) =>
    s!"ArityError: expression {expression}: expected {expected} arguments, got {given}"
  | malformed fault => "Malformed arguments: " ++ fault.message
  | duplicateName name => s!"Duplicate name: local name {name} already exists"
  | kindConflict name bound => s!"Kind conflict: {name} is defined as a {bound.name}"

end Error

/-- The kinds of errors that a host tells apart. -/
inductive ErrorKind where
  | source
  | evaluation
  | type
  | unboundVariable
  | arity
  | malformed
  | duplicateName
  | kindConflict
  deriving DecidableEq

namespace Error

def kind : Error → ErrorKind
  | source _ => .source
  | evaluation _ _ => .evaluation
  | type _ _ => .type
  | unboundVariable _ => .unboundVariable
  | arity _ _ _ => .arity
  | malformed _ => .malformed
  | duplicateName _ => .duplicateName
  | kindConflict _ _ => .kindConflict

@[simp] theorem kind_note (line : Note) (e : Error) : (e.note line).kind = e.kind := by
  cases e <;> rfl

end Error

/-- Where a sequence of checks succeeds, each of them does. -/
theorem exists_of_bind_eq_ok {ε α β : Type} {x : Except ε α} {f : α → Except ε β} {b : β}
    (h : x >>= f = .ok b) : ∃ a, x = .ok a ∧ f a = .ok b := by
  cases x with
  | error e => cases h
  | ok a => exact ⟨a, rfl, h⟩

end LexicalLisp
