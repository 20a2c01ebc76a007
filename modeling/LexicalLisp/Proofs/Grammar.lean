import Mathlib
import LexicalLisp.Limits
import LexicalLisp.Numeral
import LexicalLisp.Value.Text

/-!
# The grammar of expressions

Which texts are expressions, and the data that they denote, without a word on how to read them.
Every phrase relates a text to what its front denotes and to the text that is left, so several
derivations may take different fronts of one text. Nothing is said on what follows a lexeme: that
comes from what the phrase around it demands next.
-/
namespace LexicalLisp.Source.Grammar

/-- Any number of blanks and comments. A comment runs up to a line feed or to the end of the
text. -/
inductive Layout : List Char → List Char → Prop
  | none (s : List Char) : Layout s s
  | blank {c : Char} {s rest : List Char} (hc : c ∈ [' ', '\t', '\r', '\n'])
      (h : Layout s rest) : Layout (c :: s) rest
  | comment {line s rest : List Char} (hline : '\n' ∉ line) (hend : ∀ c ∈ s.head?, c = '\n')
      (h : Layout s rest) : Layout (';' :: (line ++ s)) rest

/-- Layout that is not empty. -/
def Separator (s rest : List Char) : Prop := Layout s rest ∧ s ≠ rest

/-- The number that digits denote in a base. -/
def numeral (base : Nat) (digits : List Char) : Nat :=
  Nat.ofDigits base (digits.reverse.map Numeral.hexDigitValue)

/-- How the characters of a string are written between its quotes. -/
inductive Literal : List Char → List Char → Prop
  | nil : Literal [] []
  | plain {c : Char} {w s : List Char} (hquote : c ≠ '"') (hslash : c ≠ '\\') (h : Literal w s) :
      Literal (c :: w) (c :: s)
  | escape {l c : Char} {w s : List Char}
      (hl : (l, c) ∈ [('n', '\n'), ('t', '\t'), ('r', '\r'), ('\\', '\\'), ('"', '"')])
      (h : Literal w s) : Literal ('\\' :: l :: w) (c :: s)

/-- The expressions without parts, each as the whole text. A number must fit. -/
inductive Lexeme : List Char → Value → Prop
  | decimal {digits : List Char} {n : Int64} (hne : digits ≠ [])
      (hdigits : ∀ c ∈ digits, c.isDigit = true) (hn : n.toInt = numeral 10 digits) :
      Lexeme digits (.number n)
  | negative {digits : List Char} {n : Int64} (hne : digits ≠ [])
      (hdigits : ∀ c ∈ digits, c.isDigit = true) (hn : n.toInt = -(numeral 10 digits : Int)) :
      Lexeme ('-' :: digits) (.number n)
  | hexadecimal {x : Char} {digits : List Char} {n : Int64} (hx : x = 'x' ∨ x = 'X')
      (hne : digits ≠ []) (hdigits : ∀ c ∈ digits, Numeral.isHexDigit c = true)
      (hn : n.toInt = numeral 16 digits) : Lexeme ('#' :: x :: digits) (.number n)
  | boolTrue : Lexeme ['#', 't'] (.bool true)
  | boolFalse : Lexeme ['#', 'f'] (.bool false)
  | string {w s : List Char} (h : Literal w s) :
      Lexeme ('"' :: (w ++ ['"'])) (.string (String.ofList s))
  | symbol {name : List Char} (h : Symbol.isName name = true) :
      Lexeme name (.symbol ⟨String.ofList name, .any⟩)
  | typed {name : List Char} (h : Symbol.isName name = true) (k : Kind) :
      Lexeme (name ++ ':' :: k.name.toList) (.symbol ⟨String.ofList name, k⟩)

/-- A text, what its front denotes, and the text that is left. -/
abbrev Phrase := List Char → Value → List Char → Prop

section Lists

variable (E : Phrase)

/-- Expressions with a separator in front of each. -/
inductive Further : List Char → List Value → List Char → Prop
  | nil (s : List Char) : Further s [] s
  | cons {s t u rest : List Char} {x : Value} {xs : List Value} (hsep : Separator s t)
      (hx : E t x u) (hxs : Further u xs rest) : Further s (x :: xs) rest

/-- Expressions with separators between them. -/
inductive Elements : List Char → List Value → List Char → Prop
  | nil (s : List Char) : Elements s [] s
  | cons {s t rest : List Char} {x : Value} {xs : List Value} (hx : E s x t)
      (hxs : Further E t xs rest) : Elements s (x :: xs) rest

/-- The word `quote` with a separator behind it. -/
def QuoteHead (s t : List Char) : Prop := ∃ word, s = "quote".toList ++ word ∧ Separator word t

/-- An expression without the layout before it, whose parts are of the phrase `E`. The layout
that opens a list is all the layout there is, and it shows whether the list is a quotation. -/
inductive Form : Phrase
  | mark {s rest : List Char} {x : Value} (hx : E s x rest) :
      Form ('\'' :: s) (.list [.symbol ⟨"quote", .any⟩, x]) rest
  | quotation {inside s t u rest : List Char} {x : Value} (hopen : Layout inside s)
      (hquote : QuoteHead s t) (hx : E t x u) (hclose : Layout u (')' :: rest)) :
      Form ('(' :: inside) (.list [.symbol ⟨"quote", .any⟩, x]) rest
  | list {inside s t rest : List Char} {xs : List Value} (hopen : Layout inside s)
      (hall : ∀ u, ¬ Separator s u) (hquote : ∀ u, ¬ QuoteHead s u) (hxs : Elements E s xs t)
      (hclose : Layout t (')' :: rest)) : Form ('(' :: inside) (.list xs) rest
  | lexeme {w : List Char} {x : Value} (h : Lexeme w x) (rest : List Char) : Form (w ++ rest) x rest

end Lists

/-- An expression with layout before it, nested in at most so many levels. -/
def Expr : (levels : Nat) → Phrase
  | 0 => fun _ _ _ => False
  | levels + 1 => fun s x rest => ∃ t, Layout s t ∧ Form (Expr levels) t x rest

/-- The whole text is one expression with layout around it. -/
def Denotes (text : String) (x : Value) : Prop :=
  ∃ rest, Expr maxNesting text.toList x rest ∧ Layout rest []

/-! ### A derivation takes something from the text -/

theorem Layout.length_le {s rest : List Char} (h : Layout s rest) : rest.length ≤ s.length := by
  induction h with
  | none => omega
  | blank _ _ ih =>
    simp only [List.length_cons]
    omega
  | comment _ _ _ ih =>
    simp only [List.length_cons, List.length_append]
    omega

theorem QuoteHead.length_le {s t : List Char} (h : QuoteHead s t) : t.length ≤ s.length := by
  obtain ⟨word, rfl, hsep⟩ := h
  have hword := hsep.1.length_le
  rw [List.length_append]
  omega

theorem Lexeme.ne_nil {w : List Char} {x : Value} (h : Lexeme w x) : w ≠ [] := by
  cases h with
  | decimal hne _ _ => exact hne
  | symbol hname =>
    rintro rfl
    cases hname
  | typed _ _ => simp
  | _ => exact List.cons_ne_nil _ _

section Lengths

variable {E : Phrase} (hE : ∀ s x rest, E s x rest → rest.length ≤ s.length)
include hE

theorem Further.length_le {s rest : List Char} {xs : List Value} (h : Further E s xs rest) :
    rest.length ≤ s.length := by
  induction h with
  | nil => omega
  | @cons s t u rest x xs hsep hx _ ih =>
    have hlayout := hsep.1.length_le
    have hhead := hE t x u hx
    omega

theorem Elements.length_le {s rest : List Char} {xs : List Value} (h : Elements E s xs rest) :
    rest.length ≤ s.length := by
  cases h with
  | nil => omega
  | cons hx hxs =>
    have hhead := hE _ _ _ hx
    have htail := hxs.length_le hE
    omega

theorem Form.length_lt {s rest : List Char} {x : Value} (h : Form E s x rest) :
    rest.length < s.length := by
  cases h with
  | mark hx =>
    have hdatum := hE _ _ _ hx
    simp only [List.length_cons]
    omega
  | quotation hopen hquote hx hclose =>
    have hinside := hopen.length_le
    have hhead := hquote.length_le
    have hdatum := hE _ _ _ hx
    have hend := hclose.length_le
    simp only [List.length_cons] at hend ⊢
    omega
  | list hopen _ _ hxs hclose =>
    have hinside := hopen.length_le
    have helements := hxs.length_le hE
    have hend := hclose.length_le
    simp only [List.length_cons] at hend ⊢
    omega
  | lexeme hw _ =>
    have hpos := List.length_pos_of_ne_nil hw.ne_nil
    rw [List.length_append]
    omega

end Lengths

theorem Expr.length_lt {levels : Nat} {s rest : List Char} {x : Value} (h : Expr levels s x rest) :
    rest.length < s.length := by
  induction levels generalizing s x rest with
  | zero => cases h
  | succ levels ih =>
    obtain ⟨t, hlayout, hform⟩ := h
    have hopen := hlayout.length_le
    have hlt := hform.length_lt fun s x rest hx => Nat.le_of_lt (ih hx)
    omega

end LexicalLisp.Source.Grammar
