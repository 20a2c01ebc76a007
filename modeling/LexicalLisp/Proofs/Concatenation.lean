import Mathlib
import LexicalLisp.Proofs.Recognition

/-!
# Programs are read one after the other

A program with another one behind it, on a new line, is read as the expressions of both. Each
expression takes something from the text and is read alike whatever follows, and what the first
program leaves is layout: the line feed ends a comment in it. Only the place that an error gives
depends on the text in front of it.
-/
namespace LexicalLisp.Source

/-! ### The expressions of a program -/

theorem length_lt_of_expression {levels : Nat} {mode : Mode} {s rest : List Char} {v : Value}
    (h : expression levels mode s = .ok (v, rest)) : rest.length < s.length :=
  (expression_derives levels s v.plain rest ((expression_erases levels mode).ok h)).length_lt

theorem expression_maxNesting_skipLayout (mode : Mode) (s : List Char) :
    expression maxNesting mode (skipLayout s) = expression maxNesting mode s :=
  expression_skipLayout 31 mode s

section Expressions

variable {input s t rest : List Char} {v : Value}

theorem expressions_of_layout (input : List Char) (h : skipLayout s = []) :
    expressions input s = .ok [] := by
  rw [expressions, h]

theorem skipLayout_ne_nil {r : Value × List Char} (h : expression maxNesting .code s = .ok r) :
    skipLayout s ≠ [] := by
  intro hskip
  rw [← expression_maxNesting_skipLayout, hskip] at h
  exact expression_nil _ .code r h

theorem expressions_of_ok (input : List Char) (h : expression maxNesting .code s = .ok (v, rest)) :
    expressions input s = (do
      v.checkForms
      let vs ← expressions input rest
      return v :: vs) := by
  have hlt := length_lt_of_expression h
  rw [expressions]
  split
  case h_1 hskip => exact absurd hskip (skipLayout_ne_nil h)
  case h_2 => simp only [expression_maxNesting_skipLayout, h, if_pos hlt]

theorem expressions_of_error (input : List Char) (hne : skipLayout s ≠ []) {f : Failure}
    (h : expression maxNesting .code s = .error f) :
    expressions input s = .error (.source (f.fault input)) := by
  rw [expressions]
  split
  case h_1 hskip => exact absurd hskip hne
  case h_2 => simp only [expression_maxNesting_skipLayout, h]

/-- A program is layout, or an expression and a program behind it. -/
theorem expressions_eq_ok {vs : List Value} (h : expressions input s = .ok vs) :
    (skipLayout s = [] ∧ vs = []) ∨
      ∃ v rest us, expression maxNesting .code s = .ok (v, rest) ∧ v.checkForms = .ok () ∧
        expressions input rest = .ok us ∧ vs = v :: us := by
  by_cases hnil : skipLayout s = []
  · rw [expressions_of_layout input hnil] at h
    cases h
    exact Or.inl ⟨hnil, rfl⟩
  cases hread : expression maxNesting .code s with
  | error f =>
    rw [expressions_of_error input hnil hread] at h
    cases h
  | ok r =>
    rw [expressions_of_ok input hread] at h
    obtain ⟨⟨⟩, hcheck, h⟩ := exists_of_bind_eq_ok h
    obtain ⟨us, hus, h⟩ := exists_of_bind_eq_ok h
    cases h
    exact Or.inr ⟨r.1, r.2, us, rfl, hcheck, hus, rfl⟩

/-- Layout in front of a program makes no difference. -/
theorem expressions_of_skipLayout (input : List Char) (h : skipLayout s = skipLayout t) :
    expressions input s = expressions input t := by
  have hread : expression maxNesting .code s = expression maxNesting .code t := by
    rw [← expression_maxNesting_skipLayout, h, expression_maxNesting_skipLayout]
  by_cases hnil : skipLayout s = []
  · rw [expressions_of_layout input hnil, expressions_of_layout input (h ▸ hnil)]
  cases hs : expression maxNesting .code s with
  | error f =>
    rw [expressions_of_error input hnil hs, expressions_of_error input (h ▸ hnil) (hread ▸ hs)]
  | ok r =>
    have ht := hread ▸ hs
    rw [expressions_of_ok input hs, expressions_of_ok input ht]

end Expressions

/-! ### One program behind another -/

theorem skipFrom_append_line {inComment : Bool} {s : List Char} (h : skipFrom inComment s = [])
    (t : List Char) : skipFrom inComment (s ++ '\n' :: t) = skipLayout t := by
  induction s generalizing inComment with
  | nil => cases inComment <;> rfl
  | cons c s ih =>
    rw [skipFrom] at h
    rw [List.cons_append, skipFrom]
    by_cases hcomment : inComment = true
    · rw [if_pos hcomment] at h ⊢
      exact ih h
    rw [if_neg hcomment] at h ⊢
    by_cases hblank : isBlank c = true
    · rw [if_pos hblank] at h ⊢
      exact ih h
    rw [if_neg hblank] at h ⊢
    by_cases hmark : (c == ';') = true
    · rw [if_pos hmark] at h ⊢
      exact ih h
    · rw [if_neg hmark] at h
      cases h

/-- A line feed ends every layout that a program may leave, comments too. -/
theorem skipLayout_append_line {s : List Char} (h : skipLayout s = []) (t : List Char) :
    skipLayout (s ++ '\n' :: t) = skipLayout t := skipFrom_append_line h t

/-- Behind a program that can be read, the expressions are those of the program and of what
follows on a new line. -/
theorem expressions_append {input s : List Char} {xs : List Value}
    (h : expressions input s = .ok xs) (input' t : List Char) :
    expressions input' (s ++ '\n' :: t) = (expressions input' t).map (xs ++ ·) := by
  have hline : EndsWord ('\n' :: t) := endsWord_cons (by decide)
  induction s using expressions.induct generalizing xs with
  | case1 s hskip =>
    rw [expressions_of_layout input hskip] at h
    cases h
    rw [expressions_of_skipLayout input' (skipLayout_append_line hskip t)]
    cases expressions input' t <;> rfl
  | case2 s f hne hread =>
    rw [expression_maxNesting_skipLayout] at hread
    rw [expressions_of_error input hne hread] at h
    cases h
  | case3 s v rest hne hread ih =>
    rw [expression_maxNesting_skipLayout] at hread
    have hlt := length_lt_of_expression hread
    have hread' := expression_continues hline (Nat.le_refl _) .code s v rest hread
    rw [expressions_of_ok input hread] at h
    obtain ⟨u, hcheck, h⟩ := exists_of_bind_eq_ok h
    obtain ⟨vs, hvs, h⟩ := exists_of_bind_eq_ok h
    cases h
    rw [expressions_of_ok input' hread', hcheck, ih hlt hvs]
    cases expressions input' t <;> rfl

/-! ### The place of an error -/

/-- The outcomes are the same but for the place where a text is at fault. -/
def SameButPlace {α : Type} : Except Error α → Except Error α → Prop
  | .ok x, .ok y => x = y
  | .error e, .error e' => e = e' ∨ e.kind = .source ∧ e'.kind = .source
  | _, _ => False

theorem SameButPlace.map {α β : Type} {x y : Except Error α} (h : SameButPlace x y) (f : α → β) :
    SameButPlace (x.map f) (y.map f) := by
  cases x with
  | error e =>
    cases y with
    | error e' => exact h
    | ok b => cases h
  | ok a =>
    cases y with
    | error e' => cases h
    | ok b =>
      cases h
      rfl

/-- Of the whole text nothing but the place of a fault is taken. -/
theorem expressions_sameButPlace (input input' s : List Char) :
    SameButPlace (expressions input s) (expressions input' s) := by
  induction s using expressions.induct with
  | case1 s hskip =>
    rw [expressions_of_layout input hskip, expressions_of_layout input' hskip]
    rfl
  | case2 s f hne hread =>
    rw [expression_maxNesting_skipLayout] at hread
    rw [expressions_of_error input hne hread, expressions_of_error input' hne hread]
    exact Or.inr ⟨rfl, rfl⟩
  | case3 s v rest hne hread ih =>
    rw [expression_maxNesting_skipLayout] at hread
    have hrest := (ih (length_lt_of_expression hread)).map (v :: ·)
    rw [expressions_of_ok input hread, expressions_of_ok input' hread]
    cases v.checkForms with
    | error e => exact Or.inl rfl
    | ok u => exact hrest

/-! ### Programs -/

/-- A text is one expression just if it is a program of one expression. -/
theorem readExpression_eq_ok_iff {text : String} {v : Value} :
    readExpression text = .ok v ↔ readProgram text = .ok [v] := by
  constructor
  · intro h
    obtain ⟨hcheck, rest, hread, hrest⟩ := expression_of_readExpression h
    rw [readProgram, expressions_of_ok _ hread, hcheck, expressions_of_layout _ hrest]
    rfl
  · intro h
    rcases expressions_eq_ok h with ⟨-, hvs⟩ | ⟨w, rest, us, hread, hcheck, hus, hvs⟩
    · cases hvs
    cases hvs
    have hrest : skipLayout rest = [] := by
      rcases expressions_eq_ok hus with ⟨hrest, -⟩ | ⟨_, _, _, -, -, -, hvs⟩
      · exact hrest
      · cases hvs
    simp only [readExpression, hread, hrest, hcheck]
    rfl

theorem readProgram_append_line {a : String} {xs : List Value} (h : readProgram a = .ok xs)
    (b : String) :
    SameButPlace ((readProgram b).map (xs ++ ·)) (readProgram (a ++ "\n" ++ b)) := by
  have htext : (a ++ "\n" ++ b).toList = a.toList ++ '\n' :: b.toList := by simp
  rw [readProgram, readProgram, htext, expressions_append h]
  exact (expressions_sameButPlace _ _ b.toList).map (xs ++ ·)

/-- Behind a program that can be read and a line feed, another program is read as it is alone: its
expressions follow those of the first, or it fails with an error of the same kind, and with the
same error if that is an argument count. A single expression is a program of one expression. -/
theorem programs_concatenate :
    (∀ a b xs, readProgram a = .ok xs →
      (∀ ys, readProgram b = .ok ys → readProgram (a ++ "\n" ++ b) = .ok (xs ++ ys)) ∧
      ∀ e, readProgram b = .error e → ∃ e', readProgram (a ++ "\n" ++ b) = .error e' ∧
        e'.kind = e.kind ∧ (e.kind = .arity → e' = e)) ∧
    ∀ text v, readExpression text = .ok v ↔ readProgram text = .ok [v] := by
  refine ⟨fun a b xs h => ?_, fun text v => readExpression_eq_ok_iff⟩
  have hsame := readProgram_append_line h b
  constructor
  · intro ys hb
    rw [hb] at hsame
    cases hab : readProgram (a ++ "\n" ++ b) with
    | error e =>
      rw [hab] at hsame
      cases hsame
    | ok zs =>
      rw [hab] at hsame
      rw [← show xs ++ ys = zs from hsame]
  · intro e hb
    rw [hb] at hsame
    cases hab : readProgram (a ++ "\n" ++ b) with
    | ok zs =>
      rw [hab] at hsame
      cases hsame
    | error e' =>
      rw [hab] at hsame
      rcases hsame with rfl | ⟨hkind, hkind'⟩
      · exact ⟨e, rfl, rfl, fun _ => rfl⟩
      · refine ⟨e', rfl, hkind'.trans hkind.symm, fun harity => ?_⟩
        rw [hkind] at harity
        cases harity

/-- A comment at the end of the first program does not swallow the second. -/
theorem programs_concatenate_after_comment :
    readProgram ("f 'x ;(" ++ "\n" ++ "2") =
        .ok ([.symbol ⟨"f", .any⟩, .op (.form .quote) [.symbol ⟨"x", .any⟩]] ++ [.number 2]) ∧
      readProgram ("f 'x ;(" ++ "\n" ++ "(if)") =
        .error (.arity 3 0 (some (.op (.form .cond) []))) := by
  have hfirst : readProgram "f 'x ;(" =
      .ok [.symbol ⟨"f", .any⟩, .op (.form .quote) [.symbol ⟨"x", .any⟩]] := by cbv
  have hsecond : readProgram "2" = .ok [.number 2] := by cbv
  have hrefused : readProgram "(if)" = .error (.arity 3 0 (some (.op (.form .cond) []))) := by cbv
  refine ⟨(programs_concatenate.1 _ _ _ hfirst).1 _ hsecond, ?_⟩
  obtain ⟨e, he, -, heq⟩ := (programs_concatenate.1 _ _ _ hfirst).2 _ hrefused
  rw [he, heq rfl]

end LexicalLisp.Source
