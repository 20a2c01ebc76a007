import LexicalLisp.Proofs.Zone

/-!
# String literals

A printed string is read back whatever it holds and whatever follows it. A literal goes wrong in
three ways only: the text ends before the closing quote, it ends behind a backslash, or behind a
backslash there stands a letter that denotes nothing. Then nothing is read, not even the characters
that were good.
-/
namespace LexicalLisp.Source

open Grammar

/-- What cannot stand in a literal: the end of the text, a backslash as its last character, and a
backslash with a letter that denotes no character. -/
inductive Broken : List Char → Prop
  | unclosed : Broken []
  | backslash : Broken ['\\']
  | escape {l : Char} (h : l ∉ ['n', 't', 'r', '\\', '"']) (rest : List Char) :
      Broken ('\\' :: l :: rest)

theorem denoted?_eq_none_iff {l : Char} :
    Text.Literal.denoted? l = none ↔ l ∉ ['n', 't', 'r', '\\', '"'] := by
  unfold Text.Literal.denoted?
  split <;> simp_all

theorem decode_of_broken {s : List Char} (h : Broken s) : Text.Literal.decode s = .error s := by
  cases h with
  | unclosed => rfl
  | backslash => rfl
  | escape h rest => simp only [Text.Literal.decode, denoted?_eq_none_iff.2 h]

theorem decode_cons_eq_error {c : Char} {s stopped : List Char}
    (h : (Text.Literal.decode s).map (fun (u, after) => (c :: u, after)) = .error stopped) :
    Text.Literal.decode s = .error stopped := by
  cases hd : Text.Literal.decode s with
  | error x =>
    rw [hd] at h
    cases h
    rfl
  | ok r =>
    rw [hd] at h
    cases h

/-- Reading a literal fails just where it goes wrong. -/
theorem decode_eq_error_iff {s stopped : List Char} :
    Text.Literal.decode s = .error stopped ↔
      ∃ w t, Literal w t ∧ Broken stopped ∧ s = w ++ stopped := by
  constructor
  · intro h
    induction s using Text.Literal.decode.induct with
    | case1 =>
      cases h
      exact ⟨[], [], .nil, .unclosed, rfl⟩
    | case2 => cases h
    | case3 =>
      cases h
      exact ⟨[], [], .nil, .backslash, rfl⟩
    | case4 l rest hl =>
      simp only [Text.Literal.decode, hl] at h
      cases h
      exact ⟨[], [], .nil, .escape (denoted?_eq_none_iff.1 hl) rest, rfl⟩
    | case5 l rest c hl ih =>
      simp only [Text.Literal.decode, hl] at h
      obtain ⟨w, t, hw, hbroken, rfl⟩ := ih (decode_cons_eq_error h)
      exact ⟨'\\' :: l :: w, c :: t, .escape (denoted?_eq_some_iff.1 hl) hw, hbroken, rfl⟩
    | case6 c rest hquote hend hescape ih =>
      have hslash := ne_backslash hend hescape
      rw [Text.Literal.decode_cons hquote hslash] at h
      obtain ⟨w, t, hw, hbroken, rfl⟩ := ih (decode_cons_eq_error h)
      exact ⟨c :: w, c :: t, .plain hquote hslash hw, hbroken, rfl⟩
  · rintro ⟨w, t, hw, hbroken, rfl⟩
    induction hw with
    | nil => exact decode_of_broken hbroken
    | plain hquote hslash _ ih =>
      rw [List.cons_append, Text.Literal.decode_cons hquote hslash, ih]
      rfl
    | escape hl _ ih =>
      simp only [List.cons_append, Text.Literal.decode, denoted?_eq_some_iff.2 hl, ih]
      rfl

/-- Behind a quote nothing is read just where the literal goes wrong. -/
theorem string_eq_error_iff {s : List Char} {f : Failure} :
    string ('"' :: s) = .error f ↔
      ∃ w t stopped, Literal w t ∧ Broken stopped ∧ s = w ++ stopped ∧
        f = ⟨.character, stopped⟩ := by
  constructor
  · intro h
    simp only [string] at h
    split at h
    case h_1 => cases h
    case h_2 stopped hdecode =>
      cases h
      obtain ⟨w, t, hw, hbroken, rfl⟩ := decode_eq_error_iff.1 hdecode
      exact ⟨w, t, stopped, hw, hbroken, rfl, rfl⟩
  · rintro ⟨w, t, stopped, hw, hbroken, rfl, rfl⟩
    simp only [string, decode_eq_error_iff.2 ⟨w, t, hw, hbroken, rfl⟩]

/-- Behind a quote an expression is a string or nothing. -/
theorem expression_quote {levels : Nat} {mode : Mode} {s : List Char} {x : Value × List Char}
    (h : expression levels mode ('"' :: s) = .ok x) : string ('"' :: s) = .ok x := by
  cases levels with
  | zero => cases h
  | succ levels =>
    rw [expression_succ rfl, Reader.or_eq_of_error (quotation_of_ne (by decide) _ _),
      Reader.or_eq_of_error (list_of_ne (by decide) _ _ _)] at h
    exact (lexeme_quote s).1 h

theorem string_render_append (s rest : String) :
    string ((Value.string s).render ++ rest).toList = .ok (.string s, rest.toList) := by
  rw [String.toList_append, Value.render, String.toList_ofList, Value.text, List.append_assoc]
  exact string_append s rest.toList

/-- The printed form of a string is read as the string, and exactly what follows it is left. So what
has been read once can be printed and read again. A literal that is not closed, that ends with a
lone backslash or that holds an unknown escape is refused where it goes wrong, by the reader of
strings and by that of expressions, and no other literal is refused. -/
theorem printed_strings_are_read_back :
    (∀ s rest : String,
      string ((Value.string s).render ++ rest).toList = .ok (.string s, rest.toList)) ∧
    (∀ input v after, string input = .ok (v, after) →
      ∃ s w, v = .string s ∧ Literal w s.toList ∧ input = '"' :: (w ++ '"' :: after) ∧
        ∀ rest : String, string (v.render ++ rest).toList = .ok (v, rest.toList)) ∧
    (∀ w t stopped, Literal w t → Broken stopped →
      string ('"' :: (w ++ stopped)) = .error ⟨.character, stopped⟩ ∧
      ∀ levels mode x, expression levels mode ('"' :: (w ++ stopped)) ≠ .ok x) ∧
    ∀ s f, string ('"' :: s) = .error f → ∃ w t stopped, Literal w t ∧ Broken stopped ∧
      s = w ++ stopped ∧ f = ⟨.character, stopped⟩ := by
  refine ⟨string_render_append, ?_, ?_, fun s f => string_eq_error_iff.1⟩
  · intro input v after h
    obtain ⟨w, t, hw, hinput, rfl⟩ := string_eq_ok_iff.1 h
    exact ⟨String.ofList t, w, rfl, by rwa [String.toList_ofList], hinput, string_render_append _⟩
  · intro w t stopped hw hbroken
    have herror := string_eq_error_iff.2 ⟨w, t, stopped, hw, hbroken, rfl, rfl⟩
    refine ⟨herror, fun levels mode x h => ?_⟩
    rw [expression_quote h] at herror
    cases herror

/-- Quotes and backslashes at both ends, and a quote that is escaped where the text ends. -/
theorem printed_strings_are_read_back_of_escapes :
    string ((Value.string "\"\\").render ++ "\\\"").toList =
      .ok (.string "\"\\", "\\\"".toList) ∧
    (∃ s w, Value.string "\t" = .string s ∧ Literal w s.toList ∧
      ['"', '\t', '"', '('] = '"' :: (w ++ ['"', '(']) ∧
      ∀ rest : String, string ((Value.string "\t").render ++ rest).toList =
        .ok (.string "\t", rest.toList)) ∧
    (string ['"', 'a', '\\', '"'] = .error ⟨.character, []⟩ ∧
      ∀ levels mode x, expression levels mode ['"', 'a', '\\', '"'] ≠ .ok x) ∧
    (string ['"', 'a', '\\'] = .error ⟨.character, ['\\']⟩ ∧
      ∀ levels mode x, expression levels mode ['"', 'a', '\\'] ≠ .ok x) ∧
    string ['"', 'a', '\\', 'q', '"'] = .error ⟨.character, ['\\', 'q', '"']⟩ ∧
      ∀ levels mode x, expression levels mode ['"', 'a', '\\', 'q', '"'] ≠ .ok x := by
  obtain ⟨hprinted, hread, hbroken, -⟩ := printed_strings_are_read_back
  have ha : Literal ['a'] ['a'] := .plain (by decide) (by decide) .nil
  have hquote : Literal ['a', '\\', '"'] ['a', '"'] :=
    .plain (by decide) (by decide) (.escape (by decide) .nil)
  exact ⟨hprinted _ _, hread _ _ ['('] rfl, hbroken _ _ _ hquote .unclosed,
    hbroken _ _ _ ha .backslash, hbroken _ _ _ ha (.escape (by decide) ['"'])⟩

end LexicalLisp.Source
