/-!
# String literals

Between its quotes a literal holds every character as itself, except a quote, a
backslash, a line feed, a tab and a carriage return, which are written with a
backslash and one letter. Reading stops at the first quote that no backslash
precedes, and refuses every other letter after a backslash.
-/
namespace LexicalLisp.Text.Literal

/-- The letter that stands for `c` after a backslash. -/
def letter? : Char → Option Char
  | '"' => some '"'
  | '\\' => some '\\'
  | '\n' => some 'n'
  | '\t' => some 't'
  | '\r' => some 'r'
  | _ => none

/-- The character that a letter after a backslash stands for. -/
def denoted? : Char → Option Char
  | '"' => some '"'
  | '\\' => some '\\'
  | 'n' => some '\n'
  | 't' => some '\t'
  | 'r' => some '\r'
  | _ => none

def encodeChar (c : Char) : List Char :=
  match letter? c with
  | some l => ['\\', l]
  | none => [c]

/-- The text between the quotes. -/
def encode (s : List Char) : List Char := s.flatMap encodeChar

/-- Reads up to the closing quote: the characters meant and the text after it,
or else the text at which reading had to stop. -/
def decode : List Char → Except (List Char) (List Char × List Char)
  | [] => .error []
  | '"' :: rest => .ok ([], rest)
  | ['\\'] => .error ['\\']
  | '\\' :: l :: rest =>
    match denoted? l with
    | none => .error ('\\' :: l :: rest)
    | some c => (decode rest).map fun (s, after) => (c :: s, after)
  | c :: rest => (decode rest).map fun (s, after) => (c :: s, after)

@[simp] theorem encode_nil : encode [] = [] := rfl

@[simp] theorem encode_cons (c : Char) (s : List Char) :
    encode (c :: s) = encodeChar c ++ encode s := by simp [encode]

/-- A character that is no quote and no backslash stands for itself. -/
theorem decode_cons {c : Char} (hquote : c ≠ '"') (hslash : c ≠ '\\') (s : List Char) :
    decode (c :: s) = (decode s).map fun (t, after) => (c :: t, after) :=
  decode.eq_5 c s hquote (fun h _ => hslash h) (fun _ _ h _ => hslash h)

end LexicalLisp.Text.Literal
