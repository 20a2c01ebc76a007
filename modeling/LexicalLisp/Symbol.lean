import LexicalLisp.Text.Alphanumeric

/-!
# Symbols and slot kinds

A symbol is a name with a declared kind, written `name` or `name:kind`. The kind
decides what a variable of that name may hold, and `any` stands for no
declaration. Names are kept apart from numbers: none starts with a digit, nor
with a minus sign and a digit.
-/
namespace LexicalLisp

/-- What a variable may hold. -/
inductive Kind where
  | any
  | int
  | bool
  | string
  | list
  | fn
  deriving DecidableEq

namespace Kind

def name : Kind → String
  | any => "any"
  | int => "int"
  | bool => "bool"
  | string => "string"
  | list => "list"
  | fn => "fn"

def ofName? : String → Option Kind
  | "any" => some any
  | "int" => some int
  | "bool" => some bool
  | "string" => some string
  | "list" => some list
  | "fn" => some fn
  | _ => none

theorem ofName?_name (k : Kind) : ofName? k.name = some k := by cases k <;> rfl

theorem eq_name_of_ofName? {text : String} {k : Kind} (h : ofName? text = some k) :
    text = k.name := by
  unfold ofName? at h
  split at h
  case h_7 => cases h
  all_goals
    cases h
    rfl

/-- A text that names no kind. -/
structure Unknown where
  text : String

def Unknown.message (u : Unknown) : String := s!"unknown slot kind '{u.text}'"

/-- The kind of that name. -/
def read (text : String) : Except Unknown Kind :=
  match ofName? text with
  | some k => .ok k
  | none => .error ⟨text⟩

end Kind

structure Symbol where
  name : String
  kind : Kind := .any
  deriving DecidableEq

namespace Symbol

/-- The characters besides letters and numbers that a name may hold. -/
def specialChars : List Char := ['+', '-', '*', '/', '<', '>', '=', '!', '?', '_', '$']

def isNameChar (c : Char) : Bool := Text.isAlphanumeric c || specialChars.contains c

/-- A name holds name characters only, at least one, and does not start as a number does. -/
def isName : List Char → Bool
  | [] => false
  | c :: rest =>
    !c.isDigit && !(c == '-' && rest.head?.any Char.isDigit) && (c :: rest).all isNameChar

/-- The symbol that a word denotes: its first colon separates name and kind. -/
def ofWord? (word : List Char) : Option Symbol :=
  let name := word.takeWhile (· != ':')
  match word.dropWhile (· != ':') with
  | [] => if isName name then some ⟨String.ofList name, .any⟩ else none
  | _ :: kind =>
    match Kind.ofName? (String.ofList kind) with
    | some k => if isName name then some ⟨String.ofList name, k⟩ else none
    | none => none

/-- A word is the name of its symbol, followed by the kind if there is a colon. -/
theorem eq_of_ofWord? {word : List Char} {a : Symbol} (h : ofWord? word = some a) :
    (word = a.name.toList ∧ a.kind = .any) ∨ word = a.name.toList ++ ':' :: a.kind.name.toList := by
  have hword := List.takeWhile_append_dropWhile (p := (· != ':')) (l := word)
  simp only [ofWord?] at h
  split at h
  case h_1 hnil =>
    split at h
    case isTrue =>
      cases h
      rw [hnil, List.append_nil] at hword
      exact Or.inl ⟨by rw [String.toList_ofList, hword], rfl⟩
    case isFalse => cases h
  case h_2 c kind hcons =>
    have hcolon : c = ':' := by
      have hhead := List.head?_dropWhile_not (· != ':') word
      rw [hcons] at hhead
      simpa using hhead
    split at h
    case h_1 k hk =>
      split at h
      case isTrue =>
        cases h
        have hkind : kind = k.name.toList := by
          rw [← Kind.eq_name_of_ofName? hk, String.toList_ofList]
        rw [hcons, hcolon, hkind] at hword
        exact Or.inr (by rw [String.toList_ofList, hword])
      case isFalse => cases h
    case h_2 => cases h

/-- The written form; a kind of `any` is left out. -/
def text (s : Symbol) : List Char :=
  match s.kind with
  | .any => s.name.toList
  | k => s.name.toList ++ ':' :: k.name.toList

def render (s : Symbol) : String := String.ofList s.text

end Symbol
end LexicalLisp
