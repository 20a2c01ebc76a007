import LexicalLisp.Numeral
import LexicalLisp.Text.Literal
import LexicalLisp.Value.Basic

/-!
# Written form of values

Numbers, symbols, strings, truth values, lists and operator applications are
written as source text that denotes them. An operator application is written as
the list it stands for. The other values have a form in angle brackets, which no
source text denotes.
-/
namespace LexicalLisp.Value

/-- The form of a value that no source text denotes. -/
def unreadable (description : String) : List Char := '#' :: '<' :: description.toList ++ ['>']

mutual

/-- The characters of the written form. -/
def text : Value → List Char
  | .number n => Numeral.decimal n
  | .symbol s => s.text
  | .string s => '"' :: Text.Literal.encode s.toList ++ ['"']
  | .bool true => ['#', 't']
  | .bool false => ['#', 'f']
  | .list [] => ['(', ')']
  | .list (v :: vs) => '(' :: text v ++ textTail vs
  | .op o args => '(' :: o.name.toList ++ textTail args
  | .builtin id _ => unreadable ("builtin-function:" ++ id)
  | .function f => unreadable ("function:" ++ f.name)
  | .unspecified => unreadable "unspecified"

/-- Further elements, a blank before each, and the closing parenthesis. -/
def textTail : List Value → List Char
  | [] => [')']
  | v :: vs => ' ' :: text v ++ textTail vs

end

def render (v : Value) : String := String.ofList v.text

instance : ToString Value := ⟨render⟩

mutual

/-- An operator application is written as its plain form is. -/
theorem text_plain : ∀ v : Value, v.plain.text = v.text
  | .list [] => rfl
  | .list (v :: vs) => by simp only [plain, plainAll, text, text_plain v, textTail_plainAll vs]
  | .op o args => by simp only [plain, text, Symbol.text, textTail_plainAll args]
  | .number _ | .symbol _ | .string _ | .bool _ | .builtin _ _ | .function _ | .unspecified => by
    simp only [plain]

theorem textTail_plainAll : ∀ vs : List Value, textTail (plainAll vs) = textTail vs
  | [] => rfl
  | v :: vs => by simp only [plainAll, textTail, text_plain v, textTail_plainAll vs]

end

end LexicalLisp.Value
