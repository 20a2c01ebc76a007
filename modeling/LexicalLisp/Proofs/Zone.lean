import LexicalLisp.Proofs.LexemeGrammar

/-!
# Where a position in a text stands

Whether a parenthesis counts depends on what stands before it: within a string literal or a comment
it is a character like any other. A scan of the text from its start tells, and it agrees with the
reader: layout that is skipped and a lexeme that is read both begin and end outside.
-/
namespace LexicalLisp.Source

inductive Zone where
  | outside
  | comment
  | literal
  /-- Within a literal, behind a backslash. -/
  | escape
  deriving DecidableEq

namespace Zone

/-- The zone behind one more character. -/
def next : Zone → Char → Zone
  | outside, c => if c = '"' then literal else if c = ';' then comment else outside
  | comment, c => if c = '\n' then outside else comment
  | literal, c => if c = '"' then outside else if c = '\\' then escape else literal
  | escape, _ => literal

/-- The zone behind these characters. -/
def after (r : Zone) (s : List Char) : Zone := s.foldl next r

@[simp] theorem after_nil (r : Zone) : r.after [] = r := rfl

@[simp] theorem after_cons (r : Zone) (c : Char) (s : List Char) :
    r.after (c :: s) = (r.next c).after s := rfl

theorem after_append (r : Zone) (s t : List Char) : r.after (s ++ t) = (r.after s).after t :=
  List.foldl_append

/-- Characters that begin no literal and no comment. -/
theorem after_of_plain {s : List Char} (h : ∀ c ∈ s, c ≠ '"' ∧ c ≠ ';') :
    outside.after s = outside := by
  induction s with
  | nil => rfl
  | cons c s ih =>
    obtain ⟨hquote, hmark⟩ := h c List.mem_cons_self
    rw [after_cons, next, if_neg hquote, if_neg hmark]
    exact ih fun d hd => h d (List.mem_cons_of_mem c hd)

theorem next_literal {c : Char} (hquote : c ≠ '"') (hslash : c ≠ '\\') :
    literal.next c = literal := by simp [next, hquote, hslash]

end Zone

/-- The text `t` is what is left of `s` behind characters that end outside. -/
def Leaves (s t : List Char) : Prop := ∃ c, s = c ++ t ∧ Zone.outside.after c = .outside

theorem leaves_refl (s : List Char) : Leaves s s := ⟨[], rfl, rfl⟩

theorem Leaves.trans {s t u : List Char} (h : Leaves s t) (h' : Leaves t u) : Leaves s u := by
  obtain ⟨c, rfl, hc⟩ := h
  obtain ⟨d, rfl, hd⟩ := h'
  exact ⟨c ++ d, by simp, by rw [Zone.after_append, hc, hd]⟩

theorem leaves_cons {c : Char} (h : Zone.outside.next c = .outside) (s : List Char) :
    Leaves (c :: s) s := ⟨[c], rfl, h⟩

/-- What ends outside ends outside from there on. -/
theorem Leaves.outside {s t : List Char} (h : Leaves s t)
    (hs : Zone.outside.after s = .outside) : Zone.outside.after t = .outside := by
  obtain ⟨c, rfl, hc⟩ := h
  rwa [Zone.after_append, hc] at hs

/-! ### Layout -/

/-- Blanks, and comments with the line feed that ends them. -/
inductive Filler : List Char → Prop
  | nil : Filler []
  | blank {c : Char} {g : List Char} (hc : isBlank c = true) (h : Filler g) : Filler (c :: g)
  | comment {line g : List Char} (hline : '\n' ∉ line) (h : Filler g) :
    Filler (';' :: (line ++ '\n' :: g))

theorem Filler.layout {g : List Char} (h : Filler g) (t : List Char) :
    Grammar.Layout (g ++ t) t := by
  induction h with
  | nil => exact .none t
  | blank hc _ ih => exact .blank (isBlank_iff.1 hc) ih
  | comment hline _ ih =>
    rw [List.cons_append, List.append_assoc]
    exact .comment hline (by simp) (.blank (by simp) ih)

theorem Filler.skipLayout {g : List Char} (h : Filler g) (t : List Char) :
    skipLayout (g ++ t) = skipLayout t := skipLayout_of_layout (h.layout t)

theorem Filler.startsWithLayout {g : List Char} (h : Filler g) (hne : g ≠ []) (t : List Char) :
    startsWithLayout (g ++ t) = true := by
  cases h with
  | nil => exact absurd rfl hne
  | blank hc => simp [Source.startsWithLayout, hc]
  | comment => rfl

/-- The zone in which skipping begins. -/
def Zone.ofComment (inComment : Bool) : Zone := if inComment then .comment else .outside

theorem Zone.next_ofComment (c : Char) : (ofComment true).next c = ofComment (c != '\n') := by
  by_cases hc : c = '\n'
  · simp [ofComment, next, hc]
  · simp [ofComment, next, hc]

theorem Zone.next_of_isBlank {c : Char} (hc : isBlank c = true) :
    outside.next c = outside := by
  rw [isBlank_iff] at hc
  fin_cases hc <;> rfl

/-- What is skipped ends outside, unless it is all there is. -/
theorem leaves_skipFrom {inComment : Bool} {s : List Char} (h : skipFrom inComment s ≠ []) :
    ∃ c, s = c ++ skipFrom inComment s ∧ (Zone.ofComment inComment).after c = .outside := by
  induction s generalizing inComment with
  | nil => exact absurd rfl h
  | cons c s ih =>
    -- the character is skipped, and skipping goes on behind it
    have hgoes : ∀ b, skipFrom inComment (c :: s) = skipFrom b s →
        (Zone.ofComment inComment).next c = .ofComment b →
        ∃ d, c :: s = d ++ skipFrom inComment (c :: s) ∧
          (Zone.ofComment inComment).after d = .outside := by
      intro b hskip hnext
      rw [hskip] at h ⊢
      obtain ⟨d, hd, hzone⟩ := ih h
      refine ⟨c :: d, ?_, by rw [Zone.after_cons, hnext, hzone]⟩
      rw [List.cons_append, ← hd]
    cases inComment with
    | true => exact hgoes _ (by simp [skipFrom]) (Zone.next_ofComment c)
    | false =>
      by_cases hblank : isBlank c = true
      · exact hgoes false (by simp [skipFrom, hblank]) (Zone.next_of_isBlank hblank)
      by_cases hmark : c = ';'
      · subst hmark
        exact hgoes true (by simp [skipFrom, hblank]) rfl
      · refine ⟨[], ?_, rfl⟩
        simp [skipFrom, hblank, hmark]

/-- Layout that ends outside can be left out. -/
theorem skipFrom_append_of_outside {inComment : Bool} {s : List Char}
    (h : skipFrom inComment s = []) (hs : (Zone.ofComment inComment).after s = .outside)
    (t : List Char) :
    skipFrom inComment (s ++ t) = skipLayout t := by
  induction s generalizing inComment with
  | nil =>
    cases inComment with
    | true => cases hs
    | false => rfl
  | cons c s ih =>
    rw [Zone.after_cons] at hs
    cases inComment with
    | true =>
      rw [Zone.next_ofComment] at hs
      simp only [skipFrom, if_true, List.cons_append] at h ⊢
      exact ih h hs
    | false =>
      by_cases hblank : isBlank c = true
      · rw [show (Zone.ofComment false).next c = .ofComment false from
          Zone.next_of_isBlank hblank] at hs
        simp only [skipFrom, hblank, if_true, Bool.false_eq_true, if_false, List.cons_append] at h ⊢
        exact ih h hs
      by_cases hmark : c = ';'
      · subst hmark
        simp only [skipFrom, hblank, Bool.false_eq_true, if_false, List.cons_append] at h ⊢
        exact ih h hs
      · simp [skipFrom, hblank, hmark] at h

/-- Characters that end outside are layout, or skipping ends among them. -/
theorem skipLayout_within {a : List Char} (ha : Zone.outside.after a = .outside) :
    (∀ t, skipLayout (a ++ t) = skipLayout t) ∨
      skipLayout a ≠ [] ∧ Leaves a (skipLayout a) ∧
        ∀ t, skipLayout (a ++ t) = skipLayout a ++ t := by
  by_cases h : skipLayout a = []
  · exact Or.inl (skipFrom_append_of_outside h ha)
  · exact Or.inr ⟨h, leaves_skipFrom h, fun t => skipLayout_append t h⟩

/-! ### Lexemes -/

/-- The expressions without parts. -/
def lexeme : Reader Value := number.or <| boolean.or <| string.or symbol

/-- What begins with no layout, no quote mark and no parenthesis is a lexeme. -/
theorem expression_eq_lexeme {c : Char} {s : List Char}
    (hlayout : startsWithLayout (c :: s) = false) (hmark : c ≠ '\'') (hopen : c ≠ '(')
    (levels : Nat) (mode : Mode) :
    expression (levels + 1) mode (c :: s) = lexeme (c :: s) := by
  rw [expression_succ hlayout, Reader.or_eq_of_error (quotation_of_ne hmark _ _),
    Reader.or_eq_of_error (list_of_ne hopen _ _ _)]
  rfl

theorem lexeme_leavesSuffix : lexeme.LeavesSuffix := by
  have hhexadecimal : hexadecimal.LeavesSuffix := fun _ _ _ h => (hexadecimal_eq_ok h).2
  have hdecimal : decimal.LeavesSuffix := fun _ _ _ h => (decimal_eq_ok h).2
  have hboolean : boolean.LeavesSuffix := fun _ _ _ h => (boolean_eq_ok h).2
  have hstring : string.LeavesSuffix := fun _ _ _ h => (string_eq_ok h).2
  exact (hhexadecimal.or hdecimal).or (hboolean.or (hstring.or symbol_leavesSuffix))

/-- The written characters of a string end within the literal, and no front of them ends
outside. -/
theorem after_of_literal {w t : List Char} (h : Grammar.Literal w t) :
    Zone.literal.after w = .literal ∧ ∀ a, a <+: w → Zone.literal.after a ≠ .outside := by
  induction h with
  | nil =>
    refine ⟨rfl, fun a ha => ?_⟩
    rw [List.prefix_nil.1 ha]
    decide
  | plain hquote hslash _ ih =>
    have hnext := Zone.next_literal hquote hslash
    refine ⟨by rw [Zone.after_cons, hnext, ih.1], fun a ha => ?_⟩
    rcases List.prefix_cons_iff.1 ha with rfl | ⟨d, rfl, hd⟩
    · decide
    · rw [Zone.after_cons, hnext]
      exact ih.2 d hd
  | @escape l c w s _ _ ih =>
    refine ⟨ih.1, fun a ha => ?_⟩
    rcases List.prefix_cons_iff.1 ha with rfl | ⟨d, rfl, hd⟩
    · decide
    rcases List.prefix_cons_iff.1 hd with rfl | ⟨front, rfl, hfront⟩
    · decide
    · exact ih.2 front hfront

/-- A literal whose quote is among these characters is read from them, and ends outside. -/
theorem decode_within {a t u rest : List Char} (ha : Zone.literal.after a = .outside)
    (h : Text.Literal.decode (a ++ t) = .ok (u, rest)) :
    ∃ d r, a = d ++ r ∧ Zone.literal.after d = .outside ∧ rest = r ++ t ∧
      Text.Literal.decode a = .ok (u, r) := by
  obtain ⟨w, hw, hliteral⟩ := decode_eq_ok_iff.1 h
  obtain ⟨hafter, hfront⟩ := after_of_literal hliteral
  rcases List.append_eq_append_iff.1 hw with ⟨d, rfl, -⟩ | ⟨d, rfl, hd⟩
  · exact absurd ha (hfront a (List.prefix_append a d))
  cases d with
  | nil => exact absurd ha (hfront _ (by simp))
  | cons c r =>
    rw [List.cons_append] at hd
    cases hd
    refine ⟨w ++ ['"'], r, by simp, ?_, rfl, decode_eq_ok_iff.2 ⟨w, rfl, hliteral⟩⟩
    rw [Zone.after_append, hafter]
    rfl

theorem or_followed {α : Type} {first second : Reader α} {s t : List Char}
    (hfirst : first (s ++ t) = followed t (first s))
    (hsecond : second (s ++ t) = followed t (second s)) :
    (first.or second) (s ++ t) = followed t ((first.or second) s) := by
  simp only [Reader.or, hfirst, hsecond]
  cases first s <;> rfl

/-- A lexeme that is no literal is not changed by what follows it, if that is no word. -/
theorem lexeme_followed {c : Char} {s t : List Char} (hc : c ≠ '"') (ht : EndsWord t) :
    lexeme (c :: s ++ t) = followed t (lexeme (c :: s)) := by
  have hne : c :: s ≠ [] := List.cons_ne_nil c s
  have hstring : string (c :: s ++ t) = followed t (string (c :: s)) := by
    rw [List.cons_append, string_of_ne hc, string_of_ne hc]
    rfl
  exact or_followed (number_followed ht hne)
    (or_followed (boolean_followed ht hne) (or_followed hstring (symbol_followed ht _)))

/-- Behind a quote nothing but a literal is read. -/
theorem lexeme_quote (s : List Char) {r : Value × List Char} :
    lexeme ('"' :: s) = .ok r ↔ string ('"' :: s) = .ok r := by
  obtain ⟨e, he⟩ := decimal_of_no_digit (c := '"') (s := s) (by decide)
    (fun h => absurd h (by decide))
  have hlexeme : lexeme ('"' :: s) = (string.or symbol) ('"' :: s) := by
    simp [lexeme, number, Reader.or, hexadecimal_of_ne, boolean_of_ne, he]
  have hsymbol : symbol ('"' :: s) ≠ .ok r := by
    simp [symbol, show isWordChar '"' = false by decide]
  rw [hlexeme]
  constructor
  · intro h
    exact (Reader.or_eq_ok h).resolve_right hsymbol
  · exact Reader.or_eq_of_ok

/-- Nothing of the word goes on behind the characters, of which the first is `c`. -/
def EndsLexeme (c : Char) (a t : List Char) : Prop :=
  c = '"' ∨ EndsWord (a.dropWhile isWordChar ++ t)

/-- A lexeme that begins among characters that end outside ends among them. What follows them has
no part in it. -/
theorem lexeme_within {c : Char} {a t rest : List Char} {v : Value}
    (ha : Zone.outside.after (c :: a) = .outside) (hc : c ≠ ';') (hends : EndsLexeme c a t)
    (h : lexeme (c :: (a ++ t)) = .ok (v, rest)) :
    ∃ r, Leaves (c :: a) r ∧ rest = r ++ t ∧
      ∀ u, EndsLexeme c a u → lexeme (c :: (a ++ u)) = .ok (v, r ++ u) := by
  by_cases hquote : c = '"'
  · subst hquote
    rw [lexeme_quote] at h
    simp only [string] at h
    cases hd : Text.Literal.decode (a ++ t) with
    | error e =>
      rw [hd] at h
      cases h
    | ok p =>
      obtain ⟨w, after⟩ := p
      rw [hd] at h
      cases h
      obtain ⟨d, r, hdr, hzone, hrest, hr⟩ := decode_within ha hd
      refine ⟨r, ⟨'"' :: d, by rw [hdr, List.cons_append], hzone⟩, hrest, fun u _ => ?_⟩
      rw [lexeme_quote]
      simp only [string, decode_continues u hr]
  · -- the word ends among the characters, and it is read alone
    have hsplit : ∀ u, c :: (a ++ u) =
        c :: a.takeWhile isWordChar ++ (a.dropWhile isWordChar ++ u) := by
      intro u
      rw [List.cons_append, ← List.append_assoc, List.takeWhile_append_dropWhile]
    have hword := lexeme_followed (s := a.takeWhile isWordChar) hquote
      (hends.resolve_left hquote)
    rw [← hsplit, h] at hword
    cases hr : lexeme (c :: a.takeWhile isWordChar) with
    | error e =>
      rw [hr] at hword
      cases hword
    | ok p =>
      obtain ⟨w, r⟩ := p
      rw [hr] at hword
      cases hword
      obtain ⟨d, hd⟩ := lexeme_leavesSuffix _ _ _ hr
      have hplain : ∀ x ∈ c :: a.takeWhile isWordChar, x ≠ '"' ∧ x ≠ ';' := by
        intro x hx
        rcases List.mem_cons.1 hx with rfl | hx
        · exact ⟨hquote, hc⟩
        · have hword := List.mem_takeWhile_imp hx
          constructor
          · rintro rfl
            exact absurd hword (by decide)
          · rintro rfl
            exact absurd hword (by decide)
      refine ⟨r ++ a.dropWhile isWordChar, ⟨d, ?_, ?_⟩, by simp, fun u hu => ?_⟩
      · rw [← List.append_assoc, hd, List.cons_append, List.takeWhile_append_dropWhile]
      · refine Zone.after_of_plain fun x hx => hplain x ?_
        rw [← hd]
        exact List.mem_append_left r hx
      · rw [hsplit, lexeme_followed hquote (hu.resolve_left hquote), hr, List.append_assoc]
        rfl

end LexicalLisp.Source
