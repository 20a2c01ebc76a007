import LexicalLisp.Text.Unprintable

/-!
# Quoted names

Diagnostic text shows a name between quotes. Quotes and backslashes take a
backslash, the four commonest controls have a letter, and every other character
without a glyph of its own appears as its code point in hexadecimal.
-/
namespace LexicalLisp.Text

/-- One character of a quoted name. -/
def quotedChar (c : Char) : List Char :=
  match c with
  | '"' => ['\\', '"']
  | '\\' => ['\\', '\\']
  | '\x00' => ['\\', '0']
  | '\t' => ['\\', 't']
  | '\r' => ['\\', 'r']
  | '\n' => ['\\', 'n']
  | c =>
    if isUnprintable c then
      ['\\', 'u', '\x7b'] ++ Nat.toDigits 16 c.toNat ++ ['\x7d']
    else [c]

def quoted (name : String) : String :=
  String.ofList ('"' :: name.toList.flatMap quotedChar ++ ['"'])

end LexicalLisp.Text
