import LexicalLisp.Source.Reader
import LexicalLisp.Value.Text

/-!
# Lexemes

The expressions without parts: numbers in either base, truth values, strings and
symbols. A number that does not fit is refused whole, and so is a word that is no
symbol: neither is read as something shorter.
-/
namespace LexicalLisp.Source

/-- The text without a minus sign at its front, and whether there was one. -/
def sign : List Char → Bool × List Char
  | '-' :: rest => (true, rest)
  | s => (false, s)

def decimal : Reader Value := fun s =>
  let (negative, unsigned) := sign s
  let digits := unsigned.takeWhile Char.isDigit
  let rest := unsigned.dropWhile Char.isDigit
  if digits.isEmpty then .error ⟨.lexeme, unsigned⟩
  else
    match Numeral.ofDecimal? negative digits with
    | some n => .ok (.number n, rest)
    | none => .error ⟨.lexeme, rest⟩

/-- Hexadecimal digits after `#x` or `#X`; they take no sign. -/
def hexadecimal : Reader Value
  | '#' :: x :: digitsAndRest =>
    if x = 'x' ∨ x = 'X' then
      let digits := digitsAndRest.takeWhile Numeral.isHexDigit
      let rest := digitsAndRest.dropWhile Numeral.isHexDigit
      if digits.isEmpty then .error ⟨.lexeme, digitsAndRest⟩
      else
        match Numeral.ofHexadecimal? digits with
        | some n => .ok (.number n, rest)
        | none => .error ⟨.lexeme, rest⟩
    else .error ⟨.character, x :: digitsAndRest⟩
  | ['#'] => .error ⟨.character, []⟩
  | s => .error ⟨.character, s⟩

def number : Reader Value := hexadecimal.or decimal

def boolean : Reader Value
  | '#' :: 't' :: rest => .ok (.bool true, rest)
  | '#' :: 'f' :: rest => .ok (.bool false, rest)
  | s => .error ⟨.token, s⟩

def string : Reader Value
  | '"' :: rest =>
    match Text.Literal.decode rest with
    | .ok (s, after) => .ok (.string (String.ofList s), after)
    | .error stopped => .error ⟨.character, stopped⟩
  | s => .error ⟨.character, s⟩

/-- The characters of a word: a name, a colon and a kind. -/
def isWordChar (c : Char) : Bool := Symbol.isNameChar c || c == ':'

/-- The longest word, which must be a symbol. -/
def symbol : Reader Value := fun s =>
  let word := s.takeWhile isWordChar
  if word.isEmpty then .error ⟨.lexeme, s⟩
  else
    match Symbol.ofWord? word with
    | some a => .ok (.symbol a, s.dropWhile isWordChar)
    | none => .error ⟨.lexeme, s⟩

end LexicalLisp.Source
