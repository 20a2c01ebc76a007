import LexicalLisp.Source.Expression
import LexicalLisp.Source.FormArity

/-!
# Programs

A program is a sequence of expressions with layout around them. `readExpression`
wants exactly one, `readProgram` takes any number. Both check each expression's
special forms as soon as it is read, and both place a failure in the whole text.
-/
namespace LexicalLisp.Source

/-- The number of bytes that a text takes in UTF-8. -/
def byteCount : List Char → Nat
  | [] => 0
  | c :: rest => c.utf8Size + byteCount rest

/-- The fault that a failure is in the text `input`. The position counts bytes, and the
snippet is found by leaving out as many characters. -/
def Failure.fault (input : List Char) (f : Failure) : SourceFault :=
  let position := byteCount input - byteCount f.rest
  match f.missing with
  | .character => .expectedCharacter position
  | .token => .unexpectedToken position
  | .level => .tooDeep
  | .lexeme =>
    if position < byteCount input then
      .invalid (String.ofList ((input.drop position).take 10))
    else .endOfInput

/-- The only expression of a text. -/
def readExpression (text : String) : Except Error Value :=
  match expression maxNesting .code text.toList with
  | .error f => .error (.source (f.fault text.toList))
  | .ok (v, rest) =>
    match skipLayout rest with
    | [] => do
      v.checkForms
      return v
    | leftover => .error (.source (.leftover (String.ofList leftover)))

/-- The expressions of `s`, which ends the text `input`. -/
def expressions (input s : List Char) : Except Error (List Value) :=
  match skipLayout s with
  | [] => .ok []
  | t =>
    match expression maxNesting .code t with
    | .error f => .error (.source (f.fault input))
    | .ok (v, rest) => do
      v.checkForms
      if rest.length < s.length then
        let vs ← expressions input rest
        return v :: vs
      else return [v]
termination_by s.length

/-- The expressions of a text, in order. -/
def readProgram (text : String) : Except Error (List Value) :=
  expressions text.toList text.toList

end LexicalLisp.Source
