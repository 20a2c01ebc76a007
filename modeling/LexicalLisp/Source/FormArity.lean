import LexicalLisp.Error

/-!
# Argument counts of special forms

Special forms cannot be shadowed, so their argument counts are checked before
anything is evaluated: in every part of an expression, outermost and leftmost
first. Primitives can be shadowed, and their counts are left to evaluation.
-/
namespace LexicalLisp.Value

mutual

/-- Fails at the first special form with an argument count it does not take. -/
def checkForms : Value → Except Error Unit
  | .op o args =>
    match if o.isForm then o.arity.refusal? args.length else none with
    | some expected => .error (.arity expected args.length (some (.op o args)))
    | none => checkFormsAll args
  | .list elements => checkFormsAll elements
  | _ => .ok ()

def checkFormsAll : List Value → Except Error Unit
  | [] => .ok ()
  | v :: vs => do
    checkForms v
    checkFormsAll vs

end

end LexicalLisp.Value
