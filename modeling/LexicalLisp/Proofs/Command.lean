import LexicalLisp.Evaluation.Eval
import LexicalLisp.Proofs.After

/-!
# Commands

What a host does to a store, one command after another. A command that fails leaves the store
as it was at that moment, and the next command goes on from there.
-/
namespace LexicalLisp

inductive Command where
  | createRoot
  | createGlobal
  | createScope (body : List Value)
  | define (e : EnvRef) (name : String) (kind : Kind) (value : Value)
  | assign (e : EnvRef) (name : String) (value : Value)
  | defun (e : EnvRef) (name : String) (params : List Symbol) (body : List Value)
  | register (e : EnvRef) (name : String) (code : Code)
  | createFunction (name : String) (params : List Symbol) (body : List Value) (home : EnvRef)
  | overload (f : FunctionRef) (params : List Symbol) (body : List Value)
  /-- Constructs the scope of a `let`, given its arguments. -/
  | letScope (args : List Value) (e : EnvRef)
  | runLet (l : Let) (e : EnvRef)
  /-- Activates a constructed scope and evaluates its body. -/
  | enter (scope parent : EnvRef)
  | evaluate (depth : Nat) (expr : Value) (e : EnvRef)
  | evaluateBody (body : List Value) (e : EnvRef)
  /-- Runs a special form on arguments that no reader has checked. -/
  | runForm (form : SpecialForm) (depth : Nat) (args : List Value) (e : EnvRef)

namespace Command

/-- Carries the command out; what it answers does not matter to the store. -/
def perform (host : Host) : Command → Action Unit
  | createRoot => discard Environment.createRoot
  | createGlobal => discard Environment.createGlobal
  | createScope body => discard (Environment.create { role := .scope body none })
  | define e name kind value => do
    let slot ← Action.ofExcept (Slot.ofValue kind none value)
    e.define name slot
  | assign e name value => e.assign name value
  | defun e name params body => do
    let o ← Action.ofExcept (Overload.ofParams params body)
    e.defun name o
  | register e name code => e.register name code
  | createFunction name params body home => do
    let o ← Action.ofExcept (Overload.ofParams params body)
    discard (FunctionRef.create name o home)
  | overload f params body => do
    let o ← Action.ofExcept (Overload.ofParams params body)
    f.overload o
  | letScope args e => do
    let l ← Action.ofExcept (Let.ofArgs args)
    discard (l.construct (evalAt host 1) e)
  | runLet l e => discard (l.run (evalAt host 1) e)
  | enter scope parent => discard (scope.enter host parent)
  | evaluate depth expr e => discard (evalAt host depth expr e)
  | evaluateBody body e => discard (evalBody (evalAt host 1) body e)
  | runForm form depth args e => discard (form.run (evalAt host (depth + 1)) args e)

end Command

/-- A store that some commands lead to from an empty one. -/
inductive Store.Reachable (host : Host) : Store → Prop where
  | empty : Reachable host {}
  | perform {s : Store} (c : Command) (h : Reachable host s) :
    Reachable host ((c.perform host).after s)

/-- What holds at first and is kept by every command holds of every store that is reached. -/
theorem Store.Reachable.invariant {host : Host} {P : Store → Prop} (hempty : P {})
    (hperform : ∀ c s, P s → P ((Command.perform host c).after s)) {s : Store}
    (h : s.Reachable host) : P s := by
  induction h with
  | empty => exact hempty
  | perform c _ ih => exact hperform c _ ih

end LexicalLisp
