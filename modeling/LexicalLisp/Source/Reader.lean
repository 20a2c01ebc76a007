/-!
# Readers

A reader takes a value from the front of a text and leaves the rest. One that
fails says what it missed and where it stood. Of several alternatives the first
that succeeds decides; if none does, the failure is that of the last one.
-/
namespace LexicalLisp.Source

/-- What a reader missed. -/
inductive Missing where
  | character
  | token
  | lexeme
  /-- The expression is nested deeper than the limit. -/
  | level
  deriving DecidableEq

structure Failure where
  missing : Missing
  rest : List Char
  deriving DecidableEq

abbrev Reader (α : Type) := List Char → Except Failure (α × List Char)

namespace Reader

/-- The first alternative, or else the second with its own failure. -/
def or {α : Type} (first second : Reader α) : Reader α := fun s =>
  match first s with
  | .ok r => .ok r
  | .error _ => second s

theorem or_eq_of_ok {α : Type} {first second : Reader α} {s : List Char} {r : α × List Char}
    (h : first s = .ok r) : first.or second s = .ok r := by simp [or, h]

theorem or_eq_of_error {α : Type} {first second : Reader α} {s : List Char} {e : Failure}
    (h : first s = .error e) : first.or second s = second s := by simp [or, h]

end Reader

/-- Takes exactly this character. -/
def char (c : Char) : Reader Unit
  | [] => .error ⟨.character, []⟩
  | x :: rest => if x = c then .ok ((), rest) else .error ⟨.character, x :: rest⟩

end LexicalLisp.Source
