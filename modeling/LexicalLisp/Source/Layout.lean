/-!
# Layout

Blanks and comments separate expressions and mean nothing else. A comment runs
from a semicolon to the end of its line, or of the text.
-/
namespace LexicalLisp.Source

def isBlank (c : Char) : Bool := c == ' ' || c == '\t' || c == '\r' || c == '\n'

/-- Drops layout from the front of a text that stands inside a comment or outside. -/
def skipFrom (inComment : Bool) : List Char → List Char
  | [] => []
  | c :: rest =>
    if inComment then skipFrom (c != '\n') rest
    else if isBlank c then skipFrom false rest
    else if c == ';' then skipFrom true rest
    else c :: rest

/-- The text without the layout at its front. -/
def skipLayout (s : List Char) : List Char := skipFrom false s

def startsWithLayout : List Char → Bool
  | [] => false
  | c :: _ => isBlank c || c == ';'

/-- The text after a separator: layout that is not empty. -/
def separator? (s : List Char) : Option (List Char) :=
  if startsWithLayout s then some (skipLayout s) else none

@[simp] theorem skipLayout_nil : skipLayout [] = [] := rfl

theorem skipFrom_suffix (inComment : Bool) (s : List Char) : skipFrom inComment s <:+ s := by
  induction s generalizing inComment with
  | nil => exact List.suffix_rfl
  | cons c rest ih =>
    rw [skipFrom]
    split
    · exact (ih _).trans (List.suffix_cons c rest)
    · split
      · exact (ih _).trans (List.suffix_cons c rest)
      · split
        · exact (ih _).trans (List.suffix_cons c rest)
        · exact List.suffix_rfl

theorem skipLayout_suffix (s : List Char) : skipLayout s <:+ s := skipFrom_suffix false s

theorem startsWithLayout_skipFrom (inComment : Bool) (s : List Char) :
    startsWithLayout (skipFrom inComment s) = false := by
  induction s generalizing inComment with
  | nil => rfl
  | cons c rest ih =>
    rw [skipFrom]
    split
    · exact ih _
    · split
      · exact ih _
      · split
        · exact ih _
        · simp_all [startsWithLayout]

theorem startsWithLayout_skipLayout (s : List Char) :
    startsWithLayout (skipLayout s) = false := startsWithLayout_skipFrom false s

end LexicalLisp.Source
