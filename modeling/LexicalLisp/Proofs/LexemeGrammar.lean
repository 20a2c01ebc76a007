import Mathlib
import LexicalLisp.Proofs.Continuation
import LexicalLisp.Proofs.Grammar

/-!
# Layout and lexemes are recognized

The reader skips layout as far as it goes. A derivation may have taken less, and then the same is
left to skip. A lexeme that is read is one that the grammar has, and every lexeme of the grammar is
read where no word goes on behind it.
-/
namespace LexicalLisp.Source

open Grammar

/-! ### Layout -/

theorem isBlank_iff {c : Char} : isBlank c = true ↔ c ∈ [' ', '\t', '\r', '\n'] := by
  simp [isBlank, or_assoc]

theorem skipFrom_cons_of_ne {c : Char} (hc : c ≠ '\n') (s : List Char) :
    skipFrom true (c :: s) = skipFrom true s := by
  rw [skipFrom, if_pos rfl, bne_iff_ne.2 hc]

/-- What is skipped is layout, and so is what is skipped of a comment that has begun. -/
theorem layout_skipFrom (s : List Char) : Layout s (skipFrom false s) ∧
    ∀ line, '\n' ∉ line → Layout (';' :: (line ++ s)) (skipFrom true s) := by
  induction s with
  | nil => exact ⟨.none [], fun line hline => .comment hline (by simp) (.none [])⟩
  | cons c s ih =>
    obtain ⟨houtside, hinside⟩ := ih
    have hskip : Layout (c :: s) (skipFrom false (c :: s)) := by
      by_cases hblank : isBlank c = true
      · simp only [skipFrom, hblank, Bool.false_eq_true, if_false, if_true]
        exact .blank (isBlank_iff.1 hblank) houtside
      by_cases hmark : c = ';'
      · subst hmark
        exact hinside [] List.not_mem_nil
      · simp only [skipFrom, hblank, Bool.false_eq_true, if_false, beq_iff_eq, hmark]
        exact .none _
    refine ⟨hskip, fun line hline => ?_⟩
    by_cases hend : c = '\n'
    · subst hend
      exact .comment hline (by simp) (.blank (by decide) houtside)
    · have hgoes := skipFrom_cons_of_ne hend s
      have hcomment := hinside (line ++ [c]) (by simp [hline, Ne.symm hend])
      rwa [List.append_assoc, List.singleton_append, ← hgoes] at hcomment

theorem layout_skipLayout (s : List Char) : Layout s (skipLayout s) := (layout_skipFrom s).1

theorem skipFrom_line {line s : List Char} (hline : '\n' ∉ line) (hend : ∀ c ∈ s.head?, c = '\n') :
    skipFrom true (line ++ s) = skipLayout s := by
  induction line with
  | nil =>
    cases s with
    | nil => rfl
    | cons c s =>
      rw [hend c rfl]
      rfl
  | cons c line ih =>
    rw [List.mem_cons, not_or] at hline
    rw [List.cons_append, skipFrom_cons_of_ne (Ne.symm hline.1)]
    exact ih hline.2

/-- Whatever layout a derivation has taken, what is left to skip is the same. -/
theorem skipLayout_of_layout {s rest : List Char} (h : Layout s rest) :
    skipLayout s = skipLayout rest := by
  induction h with
  | none => rfl
  | blank hc _ ih =>
    rw [← ih]
    simp [skipLayout, skipFrom, isBlank_iff.2 hc]
  | comment hline hend _ ih =>
    rw [← ih]
    exact skipFrom_line hline hend

theorem startsWithLayout_of_separator {s t : List Char} (h : Separator s t) :
    startsWithLayout s = true := by
  obtain ⟨hlayout, hne⟩ := h
  cases hlayout with
  | none => exact absurd rfl hne
  | blank hc _ => simp [startsWithLayout, isBlank_iff.2 hc]
  | comment _ _ _ => rfl

theorem separator_skipLayout {s : List Char} (h : startsWithLayout s = true) :
    Separator s (skipLayout s) := by
  refine ⟨layout_skipLayout s, fun heq => ?_⟩
  have hstart := startsWithLayout_skipLayout s
  rw [← heq, h] at hstart
  cases hstart

theorem separator?_of_separator {s t : List Char} (h : Separator s t) :
    separator? s = some (skipLayout t) := by
  rw [separator?, if_pos (startsWithLayout_of_separator h), skipLayout_of_layout h.1]

theorem separator_of_separator? {s t : List Char} (h : separator? s = some t) : Separator s t := by
  rw [separator?] at h
  split at h
  case isTrue hstart =>
    cases h
    exact separator_skipLayout hstart
  case isFalse => cases h

theorem quoteHead?_of_quoteHead {s t : List Char} (h : QuoteHead s t) :
    quoteHead? s = some (skipLayout t) := by
  obtain ⟨word, rfl, hsep⟩ := h
  exact separator?_of_separator hsep

theorem quoteHead_of_quoteHead? {s t : List Char} (h : quoteHead? s = some t) : QuoteHead s t := by
  obtain ⟨word, rfl, -⟩ := quoteHead?_eq_some h
  exact ⟨word, rfl, separator_of_separator? h⟩

theorem endsWord_of_separator {s t : List Char} (h : Separator s t) : EndsWord s :=
  endsWord_of_startsWithLayout (startsWithLayout_of_separator h)

theorem endsWord_of_layout {s t : List Char} (h : Layout s t) (ht : EndsWord t) : EndsWord s := by
  by_cases hst : s = t
  · exact hst ▸ ht
  · exact endsWord_of_separator ⟨h, hst⟩

theorem endsWord_of_close {s rest : List Char} (h : Layout s (')' :: rest)) : EndsWord s :=
  endsWord_of_layout h (endsWord_cons (by decide))

/-! ### Numbers -/

theorem foldl_eq_numeral (base : Nat) (digits : List Char) :
    digits.foldl (fun n c => base * n + Numeral.hexDigitValue c) 0 = numeral base digits := by
  induction digits using List.reverseRecOn with
  | nil => rfl
  | append_singleton digits c ih =>
    rw [List.foldl_append, List.foldl_cons, List.foldl_nil, ih, numeral, numeral,
      List.reverse_append, List.reverse_singleton, List.singleton_append, List.map_cons,
      Nat.ofDigits_cons]
    exact Nat.add_comm _ _

theorem ofDigitChars_eq_numeral {digits : List Char} (h : ∀ c ∈ digits, c.isDigit = true) :
    Nat.ofDigitChars 10 digits 0 = numeral 10 digits := by
  rw [← foldl_eq_numeral, Nat.ofDigitChars_eq_foldl]
  refine List.foldl_ext _ _ 0 fun n c hc => ?_
  simp only [Numeral.hexDigitValue, h c hc, if_true]

theorem ofDecimal?_eq_some_iff {digits : List Char} (h : ∀ c ∈ digits, c.isDigit = true)
    {negative : Bool} {n : Int64} : Numeral.ofDecimal? negative digits = some n ↔
      n.toInt = if negative then -(numeral 10 digits : Int) else numeral 10 digits := by
  rw [Numeral.ofDecimal?, Numeral.fit?_eq_some_iff, ofDigitChars_eq_numeral h]

theorem ofHexadecimal?_eq_some_iff {digits : List Char} {n : Int64} :
    Numeral.ofHexadecimal? digits = some n ↔ n.toInt = numeral 16 digits := by
  rw [Numeral.ofHexadecimal?, Numeral.fit?_eq_some_iff, foldl_eq_numeral]

/-! ### Lexemes -/

/-- What the reader takes is derived by the phrase. -/
def Reader.Derives (r : Reader Value) (E : Phrase) : Prop :=
  ∀ s x rest, r s = .ok (x, rest) → E s x rest

theorem Reader.Derives.or {first second : Reader Value} {E : Phrase} (h : first.Derives E)
    (h' : second.Derives E) : (first.or second).Derives E := by
  intro s x rest hr
  rcases Reader.or_eq_ok hr with hr | hr
  · exact h s x rest hr
  · exact h' s x rest hr

/-- The front of the text is a lexeme. -/
def LexemePhrase : Phrase := fun s x rest => ∃ w, s = w ++ rest ∧ Lexeme w x

theorem mem_takeWhile {p : Char → Bool} {s : List Char} : ∀ c ∈ s.takeWhile p, p c = true :=
  fun _ hc => List.mem_takeWhile_imp hc

theorem sign_cases (s : List Char) :
    (∃ u, s = '-' :: u ∧ sign s = (true, u)) ∨ sign s = (false, s) := by
  unfold sign
  split
  case h_1 u => exact Or.inl ⟨u, rfl, rfl⟩
  case h_2 => exact Or.inr rfl

theorem decimal_derives : decimal.Derives LexemePhrase := by
  intro s x rest h
  simp only [decimal] at h
  split at h
  case isTrue => cases h
  case isFalse hne =>
    have hdigits := mem_takeWhile (p := Char.isDigit) (s := (sign s).2)
    have hunsigned := List.takeWhile_append_dropWhile (p := Char.isDigit) (l := (sign s).2)
    rw [List.isEmpty_iff] at hne
    split at h
    case h_2 => cases h
    case h_1 n hn =>
      cases h
      rw [ofDecimal?_eq_some_iff hdigits] at hn
      rcases sign_cases s with ⟨u, rfl, hsign⟩ | hsign
      · rw [hsign] at hn hne hdigits hunsigned ⊢
        exact ⟨_, by rw [List.cons_append, hunsigned], .negative hne hdigits hn⟩
      · rw [hsign] at hn hne hdigits hunsigned ⊢
        exact ⟨_, hunsigned.symm, .decimal hne hdigits hn⟩

theorem hexadecimal_derives : hexadecimal.Derives LexemePhrase := by
  intro s x rest h
  unfold hexadecimal at h
  split at h
  case h_1 mark s =>
    split at h
    case isFalse => cases h
    case isTrue hmark =>
      have hdigits := mem_takeWhile (p := Numeral.isHexDigit) (s := s)
      have hs := List.takeWhile_append_dropWhile (p := Numeral.isHexDigit) (l := s)
      simp only at h
      split at h
      case isTrue => cases h
      case isFalse hne =>
        rw [List.isEmpty_iff] at hne
        split at h
        case h_2 => cases h
        case h_1 n hn =>
          cases h
          rw [ofHexadecimal?_eq_some_iff] at hn
          exact ⟨_, by rw [List.cons_append, List.cons_append, hs],
            .hexadecimal hmark hne hdigits hn⟩
  all_goals cases h

theorem boolean_derives : boolean.Derives LexemePhrase := by
  intro s x rest h
  unfold boolean at h
  split at h
  case h_1 =>
    cases h
    exact ⟨_, rfl, .boolTrue⟩
  case h_2 =>
    cases h
    exact ⟨_, rfl, .boolFalse⟩
  case h_3 => cases h

theorem denoted?_eq_some_iff {l c : Char} : Text.Literal.denoted? l = some c ↔
    (l, c) ∈ [('n', '\n'), ('t', '\t'), ('r', '\r'), ('\\', '\\'), ('"', '"')] := by
  unfold Text.Literal.denoted?
  split <;> simp_all [eq_comm]

/-- Up to the closing quote there stand the written characters of a string. -/
theorem decode_eq_ok_iff {s t rest : List Char} :
    Text.Literal.decode s = .ok (t, rest) ↔ ∃ w, s = w ++ '"' :: rest ∧ Literal w t := by
  constructor
  · intro h
    refine decode_induction
      (motive := fun s t rest => ∃ w, s = w ++ '"' :: rest ∧ Literal w t) ?_ ?_ ?_ h
    · exact fun rest => ⟨[], rfl, .nil⟩
    · rintro l c _ t rest hl ⟨w, rfl, hw⟩
      exact ⟨'\\' :: l :: w, rfl, .escape (denoted?_eq_some_iff.1 hl) hw⟩
    · rintro c _ t rest hquote hslash ⟨w, rfl, hw⟩
      exact ⟨c :: w, rfl, .plain hquote hslash hw⟩
  · rintro ⟨w, rfl, hw⟩
    induction hw with
    | nil => rfl
    | plain hquote hslash _ ih =>
      rw [List.cons_append, Text.Literal.decode_cons hquote hslash, ih]
      rfl
    | escape hl _ ih =>
      simp only [List.cons_append, Text.Literal.decode, denoted?_eq_some_iff.2 hl, ih]
      rfl

/-- A string is read from a quote up to the one that closes the literal. -/
theorem string_eq_ok_iff {s rest : List Char} {v : Value} :
    string s = .ok (v, rest) ↔
      ∃ w t, Literal w t ∧ s = '"' :: (w ++ '"' :: rest) ∧ v = .string (String.ofList t) := by
  constructor
  · intro h
    unfold string at h
    split at h
    case h_2 => cases h
    case h_1 s =>
      split at h
      case h_2 => cases h
      case h_1 t after hdecode =>
        cases h
        obtain ⟨w, rfl, hw⟩ := decode_eq_ok_iff.1 hdecode
        exact ⟨w, t, hw, rfl, rfl⟩
  · rintro ⟨w, t, hw, rfl, rfl⟩
    simp only [string, decode_eq_ok_iff.2 ⟨w, rfl, hw⟩]

theorem string_derives : string.Derives LexemePhrase := by
  intro s x rest h
  obtain ⟨w, t, hw, rfl, rfl⟩ := string_eq_ok_iff.1 h
  exact ⟨'"' :: (w ++ ['"']), by simp, .string hw⟩

/-- The words that denote symbols are names, and names with a kind. -/
theorem lexeme_of_ofWord? {word : List Char} {a : Symbol} (h : Symbol.ofWord? word = some a) :
    Lexeme word (.symbol a) := by
  have hname := Symbol.isName_of_ofWord? h
  obtain ⟨name, kind⟩ := a
  rcases Symbol.eq_of_ofWord? h with ⟨rfl, hkind⟩ | rfl
  · cases hkind
    have hlexeme := Lexeme.symbol hname
    rwa [String.ofList_toList] at hlexeme
  · have hlexeme := Lexeme.typed hname kind
    rwa [String.ofList_toList] at hlexeme

theorem symbol_derives : symbol.Derives LexemePhrase := by
  intro s x rest h
  obtain ⟨a, rfl, ha, rfl⟩ := symbol_eq_ok h
  exact ⟨_, List.takeWhile_append_dropWhile.symm, lexeme_of_ofWord? ha⟩

/-- A lexeme is taken where no word goes on. -/
theorem expression_lexeme (levels : Nat) (mode : Mode) {w rest : List Char} {x : Value}
    (h : Lexeme w x) (hrest : EndsWord rest) :
    expression (levels + 1) mode (w ++ rest) = .ok (x, rest) := by
  cases h with
  | @decimal digits n hne hdigits hn =>
    obtain ⟨c, ds, rfl⟩ := List.exists_cons_of_ne_nil hne
    have hc := hdigits c List.mem_cons_self
    have hhead : ∀ d ∈ (c :: ds ++ rest).head?, d ≠ '-' := by
      rintro d hd rfl
      cases hd
      exact absurd hc (by decide)
    rw [List.cons_append, expression_of_isNameChar levels mode (isNameChar_of_decimal (.inr hc))]
    exact Reader.or_eq_of_ok (decimal_of_digits (sign_of_head hhead) hne hdigits hrest
      ((ofDecimal?_eq_some_iff hdigits).2 hn))
  | @negative digits n hne hdigits hn =>
    rw [List.cons_append, expression_of_isNameChar levels mode (isNameChar_of_decimal (.inl rfl))]
    exact Reader.or_eq_of_ok (decimal_of_digits rfl hne hdigits hrest
      ((ofDecimal?_eq_some_iff hdigits).2 hn))
  | @hexadecimal mark digits n hmark hne hdigits hn =>
    have hend : ∀ c ∈ rest.head?, Numeral.isHexDigit c = false := by
      intro c hc
      have hword := hrest c hc
      rw [Bool.eq_false_iff] at hword ⊢
      exact fun hdigit => hword (isWordChar_of_isHexDigit hdigit)
    obtain ⟨htake, hdrop⟩ := takeWhile_append hdigits rest hend
    have hread : hexadecimal ('#' :: mark :: digits ++ rest) = .ok (.number n, rest) := by
      simp [hexadecimal, hmark, htake, hdrop, hne, ofHexadecimal?_eq_some_iff.2 hn]
    rw [List.cons_append, expression_succ rfl,
      Reader.or_eq_of_error (quotation_of_ne (by decide) _ _),
      Reader.or_eq_of_error (list_of_ne (by decide) _ _ _)]
    exact Reader.or_eq_of_ok (Reader.or_eq_of_ok hread)
  | boolTrue => exact expression_bool levels mode true rest
  | boolFalse => exact expression_bool levels mode false rest
  | @string w s hw =>
    have hdecode : Text.Literal.decode (w ++ '"' :: rest) = .ok (s, rest) :=
      decode_eq_ok_iff.2 ⟨w, rfl, hw⟩
    rw [List.cons_append, List.append_assoc, List.singleton_append]
    exact expression_of_quote levels mode (by simp only [string, hdecode])
  | symbol hname =>
    rw [expression_of_name levels mode hname (isDigit_of_endsWord hrest)]
    exact symbol_of_word (isWordChar_of_isName hname) (Symbol.ofWord?_name hname) hrest
  | @typed name hname k =>
    have hread := symbol_of_word (isWordChar_of_typed hname k) (Symbol.ofWord?_typed hname k) hrest
    rw [List.append_assoc, List.cons_append] at hread ⊢
    rw [expression_of_name levels mode hname (isDigit_of_colon _), hread]

end LexicalLisp.Source
