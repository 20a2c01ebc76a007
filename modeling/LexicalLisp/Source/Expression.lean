import LexicalLisp.Limits
import LexicalLisp.Source.Layout
import LexicalLisp.Source.Lexeme

/-!
# Expressions

An expression is read either as code or as data. In code, a list whose head is
the untyped name of an operator becomes an application of that operator; in data
it stays a list. What stands under a quote is data.

Names to be bound are no applications: the pairs of a `let`, and the parameters
of a `lambda` or a `defun`, become plain lists again.
-/
namespace LexicalLisp.Source

inductive Mode where
  | code
  | data
  deriving DecidableEq

/-- What a quote in front of `x` denotes. -/
def quotationOf (mode : Mode) (x : Value) : Value :=
  match mode with
  | .code => .op (.form .quote) [x]
  | .data => .list [.symbol ⟨"quote", .any⟩, x]

/-- A binding `(name init)` whose name is an operator's. -/
def restorePair : Value → Value
  | .op o args => .list (.symbol ⟨o.name, .any⟩ :: args)
  | v => v

/-- The arguments of an operator, the names that it binds being plain again. -/
def restoreNames : Operator → List Value → List Value
  | .form .letIn, .list bindings :: body => .list (bindings.map restorePair) :: body
  | .form .lambda, params :: body => params.plain :: body
  | .form .defun, name :: params :: body => name :: params.plain :: body
  | _, args => args

/-- What a list of these elements denotes. -/
def applicationOf : Mode → List Value → Value
  | .code, .symbol ⟨name, .any⟩ :: args =>
    match Operator.ofName? name with
    | some o => .op o (restoreNames o args)
    | none => .list (.symbol ⟨name, .any⟩ :: args)
  | _, elements => .list elements

/-- A quote mark and the datum that follows it. -/
def quotation (datum : Reader Value) (mode : Mode) : Reader Value
  | '\'' :: rest => do
    let (x, after) ← datum rest
    return (quotationOf mode x, after)
  | s => .error ⟨.character, s⟩

/-- The text after the word `quote` and a separator. -/
def quoteHead? : List Char → Option (List Char)
  | 'q' :: 'u' :: 'o' :: 't' :: 'e' :: rest => separator? rest
  | _ => none

/-- The elements that follow a separator each. The first that cannot be read ends them, and
its separator is left in the text. An element that takes nothing from the text is the last. -/
def furtherElements (element : Reader Value) (s : List Char) : List Value × List Char :=
  match separator? s with
  | none => ([], s)
  | some t =>
    match element t with
    | .error _ => ([], s)
    | .ok (x, rest) =>
      if rest.length < s.length then
        let (xs, after) := furtherElements element rest
        (x :: xs, after)
      else ([x], rest)
termination_by s.length

/-- As many elements as can be read, with a separator between any two. -/
def elements (element : Reader Value) (s : List Char) : List Value × List Char :=
  match element s with
  | .error _ => ([], s)
  | .ok (x, rest) =>
    let (xs, after) := furtherElements element rest
    (x :: xs, after)

/-- A list in parentheses. If its head is the word `quote`, one datum must follow. -/
def list (datum element : Reader Value) (mode : Mode) : Reader Value
  | '(' :: inside =>
    let s := skipLayout inside
    match quoteHead? s with
    | some t => do
      let (x, rest) ← datum t
      let ((), after) ← char ')' (skipLayout rest)
      return (quotationOf mode x, after)
    | none => do
      let (xs, rest) := elements element s
      let ((), after) ← char ')' (skipLayout rest)
      return (applicationOf mode xs, after)
  | s => .error ⟨.character, s⟩

/-- Reads one expression with layout before it, nested at most `levels` deep. -/
def expression : Nat → Mode → Reader Value
  | 0, _ => fun s => .error ⟨.level, s⟩
  | levels + 1, mode => fun s =>
    let alternatives :=
      (quotation (expression levels .data) mode).or <|
        (list (expression levels .data) (expression levels mode) mode).or <|
          number.or <| boolean.or <| string.or symbol
    alternatives (skipLayout s)

end LexicalLisp.Source
