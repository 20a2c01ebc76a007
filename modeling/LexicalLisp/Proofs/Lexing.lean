import LexicalLisp.Proofs.Reading

/-!
# Written lexemes are read back

A number, a string or a symbol that stands written at the front of a text is read from there and
nothing else is taken, provided that no word goes on behind it. The readers that are tried before
refuse it, since a written lexeme shows by its first character what it is.
-/
namespace LexicalLisp

/-- A run of characters ends where the first other character stands. -/
theorem takeWhile_append {p : Char → Bool} {s : List Char} (hs : ∀ c ∈ s, p c = true)
    (rest : List Char) (hrest : ∀ c ∈ rest.head?, p c = false) :
    (s ++ rest).takeWhile p = s ∧ (s ++ rest).dropWhile p = rest := by
  rw [List.takeWhile_append_of_pos hs, List.dropWhile_append_of_pos hs]
  cases rest with
  | nil => simp
  | cons c rest => simp [hrest c rfl]

/-! ### Names -/

namespace Symbol

theorem isNameChar_of_isDigit {c : Char} (h : c.isDigit = true) : isNameChar c = true := by
  have hascii : c.toNat < 0x80 := by
    simp only [Char.isDigit, ge_iff_le, Bool.and_eq_true, decide_eq_true_eq] at h
    exact Nat.lt_of_le_of_lt (UInt32.le_iff_toNat_le.1 h.2) (by decide)
  simp [isNameChar, Text.isAlphanumeric_of_ascii hascii, Char.isAlphanum, h]

theorem ne_of_isNameChar {c x : Char} (h : isNameChar c = true) (hx : isNameChar x = false) :
    c ≠ x := by
  rintro rfl
  rw [h] at hx
  cases hx

/-- A name has name characters only, and it starts with no digit, even after a minus sign. -/
theorem isName_cons_iff {c : Char} {rest : List Char} :
    isName (c :: rest) = true ↔ c.isDigit = false ∧
      (c = '-' → ∀ d ∈ rest.head?, d.isDigit = false) ∧
      ∀ x ∈ c :: rest, isNameChar x = true := by
  cases rest with
  | nil => simp [isName]
  | cons d rest => by_cases hc : c = '-' <;> simp [isName, hc]

theorem exists_cons_of_isName {name : List Char} (h : isName name = true) :
    ∃ c rest, name = c :: rest := by
  cases name with
  | nil => cases h
  | cons c rest => exact ⟨c, rest, rfl⟩

theorem isNameChar_of_isName {name : List Char} (h : isName name = true) :
    ∀ c ∈ name, isNameChar c = true := by
  obtain ⟨c, rest, rfl⟩ := exists_cons_of_isName h
  exact (isName_cons_iff.1 h).2.2

/-- The written form of a symbol is its name, followed by nothing or by a colon and a kind. -/
theorem text_eq (a : Symbol) :
    (a.kind = .any ∧ a.text = a.name.toList) ∨
      (a.kind ≠ .any ∧ a.text = a.name.toList ++ ':' :: a.kind.name.toList) := by
  obtain ⟨name, kind⟩ := a
  cases kind <;> simp [text]

theorem isName_of_ofWord? {word : List Char} {a : Symbol} (h : ofWord? word = some a) :
    isName a.name.toList = true := by
  simp only [ofWord?] at h
  split at h
  case h_1 =>
    split at h
    case isTrue hname =>
      cases h
      rwa [String.toList_ofList]
    case isFalse => cases h
  case h_2 =>
    split at h
    case h_1 k _ =>
      split at h
      case isTrue hname =>
        cases h
        rwa [String.toList_ofList]
      case isFalse => cases h
    case h_2 => cases h

section Words

variable {name : List Char} (h : isName name = true)
include h

theorem ne_colon_of_isName : ∀ c ∈ name, (c != ':') = true := by
  intro c hc
  simpa using ne_of_isNameChar (isNameChar_of_isName h c hc) (x := ':') (by decide)

theorem ofWord?_name : ofWord? name = some ⟨String.ofList name, .any⟩ := by
  obtain ⟨htake, hdrop⟩ := takeWhile_append (ne_colon_of_isName h) [] (by simp)
  rw [List.append_nil] at htake hdrop
  simp [ofWord?, htake, hdrop, h]

theorem ofWord?_typed (k : Kind) :
    ofWord? (name ++ ':' :: k.name.toList) = some ⟨String.ofList name, k⟩ := by
  obtain ⟨htake, hdrop⟩ := takeWhile_append (ne_colon_of_isName h) (':' :: k.name.toList) (by simp)
  simp [ofWord?, htake, hdrop, h, Kind.ofName?_name]

end Words

/-- The word that a symbol is written as denotes that symbol. -/
theorem ofWord?_text {a : Symbol} (h : isName a.name.toList = true) : ofWord? a.text = some a := by
  obtain ⟨name, kind⟩ := a
  rcases text_eq ⟨name, kind⟩ with ⟨rfl, htext⟩ | ⟨-, htext⟩
  · rw [htext, ofWord?_name h, String.ofList_toList]
  · rw [htext, ofWord?_typed h, String.ofList_toList]

end Symbol

namespace Source

/-! ### Where a lexeme ends -/

section Words

variable {name : List Char} (h : Symbol.isName name = true)
include h

theorem isWordChar_of_isName : ∀ c ∈ name, isWordChar c = true := by
  intro c hc
  simp [isWordChar, Symbol.isNameChar_of_isName h c hc]

theorem isWordChar_of_typed (k : Kind) :
    ∀ c ∈ name ++ ':' :: k.name.toList, isWordChar c = true := by
  have hkind : (':' :: k.name.toList).all isWordChar = true := by
    cases k <;> decide
  intro c hc
  rcases List.mem_append.1 hc with hc | hc
  · exact isWordChar_of_isName h c hc
  · exact List.all_eq_true.1 hkind c hc

end Words

theorem isWordChar_of_mem_text {a : Symbol} (h : Symbol.isName a.name.toList = true) :
    ∀ c ∈ a.text, isWordChar c = true := by
  rcases a.text_eq with ⟨-, htext⟩ | ⟨-, htext⟩
  · rw [htext]
    exact isWordChar_of_isName h
  · rw [htext]
    exact isWordChar_of_typed h a.kind

/-- No word goes on at the front of the text. -/
def EndsWord (s : List Char) : Prop := ∀ c ∈ s.head?, isWordChar c = false

theorem endsWord_nil : EndsWord [] := by
  intro c hc
  cases hc

theorem endsWord_cons {c : Char} {s : List Char} (h : isWordChar c = false) :
    EndsWord (c :: s) := by
  intro x hx
  cases hx
  exact h

theorem isDigit_of_endsWord {s : List Char} (h : EndsWord s) :
    ∀ c ∈ s.head?, c.isDigit = false := by
  intro c hc
  have hword := h c hc
  cases hd : c.isDigit with
  | false => rfl
  | true => simp [isWordChar, Symbol.isNameChar_of_isDigit hd] at hword

/-! ### Numbers -/

theorem sign_of_head {s : List Char} (h : ∀ c ∈ s.head?, c ≠ '-') : sign s = (false, s) := by
  unfold sign
  split
  · exact absurd rfl (h '-' rfl)
  · rfl

theorem decimal_of_digits {negative : Bool} {s digits rest : List Char} {n : Int64}
    (hs : sign s = (negative, digits ++ rest)) (hne : digits ≠ [])
    (hdigits : ∀ c ∈ digits, c.isDigit = true) (hrest : EndsWord rest)
    (hn : Numeral.ofDecimal? negative digits = some n) : decimal s = .ok (.number n, rest) := by
  obtain ⟨htake, hdrop⟩ := takeWhile_append hdigits rest (isDigit_of_endsWord hrest)
  simp [decimal, hs, htake, hdrop, hne, hn]

theorem decimal_append (n : Int64) {rest : List Char} (hrest : EndsWord rest) :
    decimal (Numeral.decimal n ++ rest) = .ok (.number n, rest) := by
  have hdigits : ∀ c ∈ Nat.toDigits 10 n.toInt.natAbs, c.isDigit = true := fun c hc =>
    Nat.isDigit_of_mem_toDigits (by decide) (by decide) hc
  have hvalue : Nat.ofDigitChars 10 (Nat.toDigits 10 n.toInt.natAbs) 0 = n.toInt.natAbs :=
    Nat.ofDigitChars_toDigits (by decide) (by decide)
  unfold Numeral.decimal
  split
  case isTrue hneg =>
    have habs : -(n.toInt.natAbs : Int) = n.toInt := by omega
    refine decimal_of_digits rfl Nat.toDigits_ne_nil hdigits hrest ?_
    simp only [Numeral.ofDecimal?, hvalue, if_true, habs, Numeral.fit?_toInt]
  case isFalse hneg =>
    have habs : (n.toInt.natAbs : Int) = n.toInt := by omega
    have hhead : ∀ c ∈ (Nat.toDigits 10 n.toInt.natAbs ++ rest).head?, c ≠ '-' := by
      rintro c hc rfl
      obtain ⟨d, ds, hds⟩ := List.exists_cons_of_ne_nil (Nat.toDigits_ne_nil (b := 10)
        (n := n.toInt.natAbs))
      rw [hds] at hc
      cases hc
      exact absurd (hdigits '-' (hds ▸ List.mem_cons_self)) (by decide)
    refine decimal_of_digits (sign_of_head hhead) Nat.toDigits_ne_nil hdigits hrest ?_
    simp only [Numeral.ofDecimal?, hvalue, Bool.false_eq_true, if_false, habs, Numeral.fit?_toInt]

theorem exists_decimal_eq_cons (n : Int64) :
    ∃ c s, Numeral.decimal n = c :: s ∧ (c = '-' ∨ c.isDigit = true) := by
  unfold Numeral.decimal
  split
  · exact ⟨'-', _, rfl, Or.inl rfl⟩
  · obtain ⟨c, s, hcons⟩ := List.exists_cons_of_ne_nil (Nat.toDigits_ne_nil (b := 10)
      (n := n.toInt.natAbs))
    have hmem : c ∈ Nat.toDigits 10 n.toInt.natAbs := hcons ▸ List.mem_cons_self
    have hdigit := Nat.isDigit_of_mem_toDigits (by decide) (by decide) hmem
    exact ⟨c, s, hcons, Or.inr hdigit⟩

/-- What a number starts with may stand in a name. -/
theorem isNameChar_of_decimal {c : Char} (h : c = '-' ∨ c.isDigit = true) :
    Symbol.isNameChar c = true := by
  rcases h with rfl | h
  · decide
  · exact Symbol.isNameChar_of_isDigit h

/-! ### Strings -/

theorem denoted?_of_letter? {c l : Char} (h : Text.Literal.letter? c = some l) :
    Text.Literal.denoted? l = some c := by
  unfold Text.Literal.letter? at h
  split at h <;> simp_all [Text.Literal.denoted?] <;> subst h <;> rfl

theorem decode_encode (s rest : List Char) :
    Text.Literal.decode (Text.Literal.encode s ++ '"' :: rest) = .ok (s, rest) := by
  induction s with
  | nil => rfl
  | cons c s ih =>
    rw [Text.Literal.encode_cons, List.append_assoc, Text.Literal.encodeChar]
    cases hl : Text.Literal.letter? c with
    | some l =>
      have hc := denoted?_of_letter? hl
      simp [Text.Literal.decode, hc, ih, Except.map]
    | none =>
      have hquote : c ≠ '"' := by rintro rfl; cases hl
      have hescape : c ≠ '\\' := by rintro rfl; cases hl
      simp only [List.cons_append, List.nil_append]
      rw [Text.Literal.decode_cons hquote hescape, ih]
      rfl

theorem string_append (s : String) (rest : List Char) :
    string ('"' :: Text.Literal.encode s.toList ++ '"' :: rest) = .ok (.string s, rest) := by
  simp [string, decode_encode]

/-! ### Symbols -/

/-- A symbol starts as a name does. -/
theorem exists_text_eq_cons {a : Symbol} (h : Symbol.isName a.name.toList = true) :
    ∃ c s, a.text = c :: s ∧ Symbol.isNameChar c = true ∧ c.isDigit = false ∧
      (c = '-' → ∀ d ∈ s.head?, d.isDigit = false) := by
  obtain ⟨c, name, hname⟩ := Symbol.exists_cons_of_isName h
  rw [hname] at h
  obtain ⟨hdigit, hsign, hchars⟩ := Symbol.isName_cons_iff.1 h
  have hc := hchars c List.mem_cons_self
  rcases a.text_eq with ⟨-, htext⟩ | ⟨-, htext⟩
  · exact ⟨c, name, by rw [htext, hname], hc, hdigit, hsign⟩
  · refine ⟨c, name ++ ':' :: a.kind.name.toList, by rw [htext, hname]; rfl, hc, hdigit, ?_⟩
    intro hminus d hd
    cases name with
    | nil =>
      cases hd
      decide
    | cons x name => exact hsign hminus d hd

theorem symbol_of_word {word rest : List Char} {a : Symbol}
    (hword : ∀ c ∈ word, isWordChar c = true) (ha : Symbol.ofWord? word = some a)
    (hrest : EndsWord rest) : symbol (word ++ rest) = .ok (.symbol a, rest) := by
  obtain ⟨htake, hdrop⟩ := takeWhile_append hword rest hrest
  have hne : word ≠ [] := by
    rintro rfl
    cases ha
  simp [symbol, htake, hdrop, hne, ha]

theorem symbol_append {a : Symbol} (h : Symbol.isName a.name.toList = true) {rest : List Char}
    (hrest : EndsWord rest) : symbol (a.text ++ rest) = .ok (.symbol a, rest) :=
  symbol_of_word (isWordChar_of_mem_text h) (Symbol.ofWord?_text h) hrest

/-! ### Which reader takes a lexeme -/

theorem startsWithLayout_of_isNameChar {c : Char} (h : Symbol.isNameChar c = true)
    (s : List Char) : startsWithLayout (c :: s) = false := by
  have hne := fun x => Symbol.ne_of_isNameChar h (x := x)
  simp [startsWithLayout, isBlank, hne ' ' (by decide), hne '\t' (by decide),
    hne '\r' (by decide), hne '\n' (by decide), hne ';' (by decide)]

/-- Without layout at its front the text goes to the first reader that takes it. -/
theorem expression_succ {s : List Char} (h : startsWithLayout s = false) (levels : Nat)
    (mode : Mode) :
    expression (levels + 1) mode s =
      ((quotation (expression levels .data) mode).or <|
        (list (expression levels .data) (expression levels mode) mode).or <|
          number.or <| boolean.or <| string.or symbol) s := by
  simp only [expression, skipLayout_eq_self h]

section Refused

variable {c : Char} {s : List Char}

theorem quotation_of_ne (h : c ≠ '\'') (datum : Reader Value) (mode : Mode) :
    quotation datum mode (c :: s) = .error ⟨.character, c :: s⟩ := by
  simp [quotation, h]

theorem list_of_ne (h : c ≠ '(') (datum element : Reader Value) (mode : Mode) :
    list datum element mode (c :: s) = .error ⟨.character, c :: s⟩ := by
  simp [list, h]

theorem hexadecimal_of_ne (h : c ≠ '#') :
    hexadecimal (c :: s) = .error ⟨.character, c :: s⟩ := by
  simp [hexadecimal, h]

theorem boolean_of_ne (h : c ≠ '#') : boolean (c :: s) = .error ⟨.token, c :: s⟩ := by
  simp [boolean, h]

theorem string_of_ne (h : c ≠ '"') : string (c :: s) = .error ⟨.character, c :: s⟩ := by
  simp [string, h]

/-- No number starts here, with a sign or without. -/
theorem decimal_of_no_digit (hc : c.isDigit = false)
    (hs : c = '-' → ∀ d ∈ s.head?, d.isDigit = false) : ∃ e, decimal (c :: s) = .error e := by
  by_cases hsign : c = '-'
  · subst hsign
    cases s with
    | nil => exact ⟨_, rfl⟩
    | cons d s => simp [decimal, sign, hs rfl d rfl]
  · have hhead : ∀ d ∈ (c :: s).head?, d ≠ '-' := by
      intro d hd
      cases hd
      exact hsign
    simp [decimal, sign_of_head hhead, hc]

end Refused

/-! ### Expressions without parts -/

section Expressions

variable {rest : List Char} (levels : Nat) (mode : Mode)

theorem expression_of_isNameChar {c : Char} (hc : Symbol.isNameChar c = true) (s : List Char) :
    expression (levels + 1) mode (c :: s) =
      (decimal.or <| boolean.or <| string.or symbol) (c :: s) := by
  have hne := fun x => Symbol.ne_of_isNameChar hc (x := x)
  rw [expression_succ (startsWithLayout_of_isNameChar hc s),
    Reader.or_eq_of_error (quotation_of_ne (hne '\'' (by decide)) _ _),
    Reader.or_eq_of_error (list_of_ne (hne '(' (by decide)) _ _ _)]
  simp only [number, Reader.or, hexadecimal_of_ne (hne '#' (by decide))]

theorem expression_number (n : Int64) (hrest : EndsWord rest) :
    expression (levels + 1) mode (Numeral.decimal n ++ rest) = .ok (.number n, rest) := by
  obtain ⟨c, ds, hcons, hc⟩ := exists_decimal_eq_cons n
  have hread := decimal_append n hrest
  rw [hcons] at hread ⊢
  rw [List.cons_append, expression_of_isNameChar levels mode (isNameChar_of_decimal hc)]
  exact Reader.or_eq_of_ok hread

theorem expression_bool (b : Bool) (rest : List Char) :
    expression (levels + 1) mode ((Value.bool b).text ++ rest) = .ok (.bool b, rest) := by
  cases b
  · rw [expression_succ rfl]
    rfl
  · rw [expression_succ rfl]
    rfl

/-- What starts with a quote is a string or nothing. -/
theorem expression_of_quote {s : List Char} {r : Value × List Char}
    (h : string ('"' :: s) = .ok r) :
    expression (levels + 1) mode ('"' :: s) = .ok r := by
  rw [expression_succ rfl, Reader.or_eq_of_error (quotation_of_ne (by decide) _ _),
    Reader.or_eq_of_error (list_of_ne (by decide) _ _ _)]
  obtain ⟨e, hdecimal⟩ := decimal_of_no_digit (c := '"') (s := s) (by decide)
    (fun h => absurd h (by decide))
  simp only [number, Reader.or, hexadecimal_of_ne (show '"' ≠ '#' by decide), hdecimal,
    boolean_of_ne (show '"' ≠ '#' by decide), h]

theorem expression_string (s : String) (rest : List Char) :
    expression (levels + 1) mode ((Value.string s).text ++ rest) = .ok (.string s, rest) := by
  have hread := string_append s rest
  simp only [Value.text, List.cons_append, List.append_assoc, List.nil_append] at hread ⊢
  exact expression_of_quote levels mode hread

/-- What starts with a name, and goes on with no digit, is a symbol or nothing. -/
theorem expression_of_name {name : List Char} (h : Symbol.isName name = true) {tail : List Char}
    (htail : ∀ d ∈ tail.head?, d.isDigit = false) :
    expression (levels + 1) mode (name ++ tail) = symbol (name ++ tail) := by
  obtain ⟨c, name, rfl⟩ := Symbol.exists_cons_of_isName h
  obtain ⟨hdigit, hsign, hchars⟩ := Symbol.isName_cons_iff.1 h
  have hc := hchars c List.mem_cons_self
  have hsign' : c = '-' → ∀ d ∈ (name ++ tail).head?, d.isDigit = false := by
    intro hminus d hd
    cases name with
    | nil => exact htail d hd
    | cons x name => exact hsign hminus d hd
  obtain ⟨e, hdecimal⟩ := decimal_of_no_digit hdigit hsign'
  rw [List.cons_append, expression_of_isNameChar levels mode hc, Reader.or_eq_of_error hdecimal,
    Reader.or_eq_of_error (boolean_of_ne (Symbol.ne_of_isNameChar hc (by decide))),
    Reader.or_eq_of_error (string_of_ne (Symbol.ne_of_isNameChar hc (by decide)))]

theorem isDigit_of_colon (s : List Char) : ∀ d ∈ (':' :: s).head?, d.isDigit = false := by
  intro d hd
  cases hd
  decide

theorem expression_symbol {a : Symbol} (h : Symbol.isName a.name.toList = true)
    (hrest : EndsWord rest) :
    expression (levels + 1) mode (a.text ++ rest) = .ok (.symbol a, rest) := by
  have hread := symbol_append h hrest
  rcases a.text_eq with ⟨-, htext⟩ | ⟨-, htext⟩
  · rw [htext] at hread ⊢
    rw [expression_of_name levels mode h (isDigit_of_endsWord hrest), hread]
  · rw [htext, List.append_assoc, List.cons_append] at hread ⊢
    rw [expression_of_name levels mode h (isDigit_of_colon _), hread]

end Expressions

end Source
end LexicalLisp
