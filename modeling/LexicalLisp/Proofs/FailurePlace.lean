import Mathlib
import LexicalLisp.Proofs.Concatenation

/-!
# Where a failure is reported

Of the alternatives for an expression the last is a symbol, and if all fail, its failure is that of
the expression. It stands in front of the whole expression. So whatever is missing further inside,
down to the nesting limit, is reported in front of the outermost expression, as a syntax error or as
the end of the text.
-/
namespace LexicalLisp.Source

/-! ### The failure of an expression -/

theorem Reader.or_eq_error {α : Type} {first second : Reader α} {s : List Char} {f : Failure}
    (h : first.or second s = .error f) : second s = .error f := by
  unfold Reader.or at h
  split at h
  case h_1 => cases h
  case h_2 => exact h

theorem symbol_eq_error {s : List Char} {f : Failure} (h : symbol s = .error f) :
    f = ⟨.lexeme, s⟩ := by
  simp only [symbol] at h
  split at h
  case isTrue =>
    cases h
    rfl
  case isFalse =>
    split at h
    case h_1 => cases h
    case h_2 =>
      cases h
      rfl

/-- Five alternatives come before the symbol, and none of them has a say in the failure. -/
theorem expression_eq_error {levels : Nat} {mode : Mode} {s : List Char} {f : Failure}
    (h : expression (levels + 1) mode s = .error f) : f = ⟨.lexeme, skipLayout s⟩ := by
  rw [expression] at h
  exact symbol_eq_error
    (Reader.or_eq_error (Reader.or_eq_error (Reader.or_eq_error
      (Reader.or_eq_error (Reader.or_eq_error h)))))

/-! ### The place in the text -/

theorem byteCount_append (s t : List Char) : byteCount (s ++ t) = byteCount s + byteCount t := by
  induction s with
  | nil => simp [byteCount]
  | cons c s ih => rw [List.cons_append, byteCount, byteCount, ih, Nat.add_assoc]

theorem byteCount_pos {s : List Char} (h : s ≠ []) : 0 < byteCount s := by
  cases s with
  | nil => exact absurd rfl h
  | cons c s =>
    have hpos := c.utf8Size_pos
    rw [byteCount]
    omega

theorem byteCount_eq_length {s : List Char} (h : ∀ c ∈ s, c.utf8Size = 1) :
    byteCount s = s.length := by
  induction s with
  | nil => rfl
  | cons c s ih =>
    obtain ⟨hc, hs⟩ := List.forall_mem_cons.1 h
    rw [byteCount, hc, ih hs, List.length_cons, Nat.add_comm]

/-- What is shown of a text where `before` has been left out: ten characters at most, after as many
characters as `before` takes bytes. -/
def snippet (before rest : List Char) : String :=
  String.ofList (((before ++ rest).drop (byteCount before)).take 10)

/-- Behind characters of one byte each, what is shown begins where the failure stands. -/
theorem snippet_of_bytes {before : List Char} (h : ∀ c ∈ before, c.utf8Size = 1)
    (rest : List Char) : snippet before rest = String.ofList (rest.take 10) := by
  rw [snippet, byteCount_eq_length h, List.drop_left]

theorem fault_of_nil (input : List Char) :
    Failure.fault input ⟨.lexeme, []⟩ = .endOfInput := by
  simp [Failure.fault, byteCount]

theorem fault_of_ne_nil (before : List Char) {rest : List Char} (h : rest ≠ []) :
    Failure.fault (before ++ rest) ⟨.lexeme, rest⟩ = .invalid (snippet before rest) := by
  have hpos := byteCount_pos h
  have hcount := byteCount_append before rest
  have hposition : byteCount (before ++ rest) - byteCount rest = byteCount before := by omega
  simp only [Failure.fault, hposition]
  rw [if_pos (by omega), snippet]

/-- A failure in front of an expression is an error at the place where the expression begins. -/
theorem fault_of_suffix {input s : List Char} (hsuffix : s <:+ input) (hne : skipLayout s ≠ []) :
    ∃ before, input = before ++ skipLayout s ∧
      Failure.fault input ⟨.lexeme, skipLayout s⟩ = .invalid (snippet before (skipLayout s)) := by
  obtain ⟨before, hinput⟩ := (skipLayout_suffix s).trans hsuffix
  refine ⟨before, hinput.symm, ?_⟩
  rw [← hinput]
  exact fault_of_ne_nil before hne

/-! ### The failure of a text -/

theorem readExpression_of_error {text : String} {f : Failure}
    (h : expression maxNesting .code text.toList = .error f) :
    readExpression text = .error (.source (f.fault text.toList)) := by
  rw [readExpression, h]

/-- A text has an error of the source where its expression cannot be read or does not end it. -/
theorem readExpression_eq_fault {text : String} {fault : SourceFault}
    (h : readExpression text = .error (.source fault)) :
    (∃ f, expression maxNesting .code text.toList = .error f) ∨ ∃ rest, fault = .leftover rest := by
  cases hread : expression maxNesting .code text.toList with
  | error f => exact Or.inl ⟨f, rfl⟩
  | ok r =>
    refine Or.inr ?_
    simp only [readExpression, hread] at h
    split at h
    case h_1 =>
      cases hcheck : r.1.checkForms with
      | ok u =>
        rw [hcheck] at h
        cases h
      | error e =>
        rw [hcheck] at h
        cases h
        cases Value.kind_of_checkForms hcheck
    case h_2 =>
      cases h
      exact ⟨_, rfl⟩

/-- Of the expressions of `s`, read one after the other, the one at the front of `t` cannot be
read. -/
inductive FailsAt (t : List Char) (f : Failure) : List Char → Prop
  | here (hne : skipLayout t ≠ []) (hread : expression maxNesting .code t = .error f) :
      FailsAt t f t
  | later {s rest : List Char} {v : Value} (hread : expression maxNesting .code s = .ok (v, rest))
      (hcheck : v.checkForms = .ok ()) (h : FailsAt t f rest) : FailsAt t f s

section Program

variable {s t : List Char} {f : Failure}

theorem FailsAt.suffix (h : FailsAt t f s) : t <:+ s := by
  induction h with
  | here => exact List.suffix_rfl
  | later hread _ _ ih => exact ih.trans (expression_leavesSuffix _ _ _ _ _ hread)

theorem FailsAt.failure (h : FailsAt t f s) :
    skipLayout t ≠ [] ∧ expression maxNesting .code t = .error f := by
  induction h with
  | here hne hread => exact ⟨hne, hread⟩
  | later _ _ _ ih => exact ih

theorem FailsAt.expressions_eq (h : FailsAt t f s) (input : List Char) :
    expressions input s = .error (.source (f.fault input)) := by
  induction h with
  | here hne hread => exact expressions_of_error input hne hread
  | later hread hcheck _ ih =>
    rw [expressions_of_ok input hread, hcheck, ih]
    rfl

/-- A program has an error of the source only where one of its expressions cannot be read. -/
theorem failsAt_of_expressions {input : List Char} {fault : SourceFault}
    (h : expressions input s = .error (.source fault)) : ∃ t f, FailsAt t f s := by
  induction s using expressions.induct with
  | case1 s hskip =>
    rw [expressions_of_layout input hskip] at h
    cases h
  | case2 s f hne hread =>
    rw [expression_maxNesting_skipLayout] at hread
    exact ⟨s, f, .here hne hread⟩
  | case3 s v rest hne hread ih =>
    rw [expression_maxNesting_skipLayout] at hread
    rw [expressions_of_ok input hread] at h
    cases hcheck : v.checkForms with
    | error e =>
      rw [hcheck] at h
      cases h
      cases Value.kind_of_checkForms hcheck
    | ok u =>
      rw [hcheck] at h
      cases hrest : expressions input rest with
      | ok vs =>
        rw [hrest] at h
        cases h
      | error e =>
        rw [hrest] at h
        cases h
        obtain ⟨t, f, hfails⟩ := ih (length_lt_of_expression hread) hrest
        exact ⟨t, f, .later hread hcheck hfails⟩

end Program

/-- Where an expression cannot be read, the failure stands in front of it, behind its layout,
whatever is wrong inside. If nothing is left there, the error is the end of the text, and otherwise
a syntax error; in a program something is left. No other failure of the reader is an error. -/
theorem failures_are_placed_at_the_expression :
    (∀ text f, expression maxNesting .code text.toList = .error f →
      f = ⟨.lexeme, skipLayout text.toList⟩ ∧
      (f.rest = [] → readExpression text = .error (.source .endOfInput)) ∧
      (f.rest ≠ [] → ∃ before, text.toList = before ++ f.rest ∧
        readExpression text = .error (.source (.invalid (snippet before f.rest))))) ∧
    (∀ text fault, readExpression text = .error (.source fault) →
      (∃ f, expression maxNesting .code text.toList = .error f) ∨
        ∃ rest, fault = .leftover rest) ∧
    (∀ text t f, FailsAt t f text.toList →
      f = ⟨.lexeme, skipLayout t⟩ ∧
      ∃ before, text.toList = before ++ f.rest ∧
        readProgram text = .error (.source (.invalid (snippet before f.rest)))) ∧
    (∀ text fault, readProgram text = .error (.source fault) →
      ∃ t f, FailsAt t f text.toList) ∧
    SourceFault.endOfInput.message = "Unexpected end of input" ∧
    (∀ shown, (SourceFault.invalid shown).message = "Invalid syntax near '" ++ shown ++ "'") ∧
    ∀ before rest, (∀ c ∈ before, c.utf8Size = 1) →
      snippet before rest = String.ofList (rest.take 10) := by
  refine ⟨?_, ?_, ?_, ?_, rfl, fun _ => rfl, fun _ rest h => snippet_of_bytes h rest⟩
  · intro text f h
    have hf := expression_eq_error h
    have hread := readExpression_of_error h
    subst hf
    refine ⟨rfl, fun hnil => ?_, fun hne => ?_⟩
    · rw [hread, show skipLayout text.toList = [] from hnil, fault_of_nil]
    · obtain ⟨before, hbefore, hfault⟩ := fault_of_suffix List.suffix_rfl hne
      exact ⟨before, hbefore, by rw [hread, hfault]⟩
  · intro text fault h
    exact readExpression_eq_fault h
  · intro text t f h
    obtain ⟨hne, hread⟩ := h.failure
    have hf := expression_eq_error hread
    have hprogram := h.expressions_eq text.toList
    subst hf
    obtain ⟨before, hbefore, hfault⟩ := fault_of_suffix h.suffix hne
    exact ⟨rfl, before, hbefore, by rw [readProgram, hprogram, hfault]⟩
  · intro text fault h
    exact failsAt_of_expressions h

/-- A comment alone is the end of the text, a quotation beyond the nesting limit is shown from its
first quote mark on, and a bad escape from the parenthesis of the expression that it stands in. -/
theorem failures_are_placed_at_the_expression_of_bad_escape :
    readExpression " ; (" = .error (.source .endOfInput) ∧
    readExpression "''''''''''''''''''''''''''''''''a" = .error (.source (.invalid "''''''''''")) ∧
    readProgram "x ;(\n (car \"\\q\")" = .error (.source (.invalid "(car \"\\q\")")) := by
  obtain ⟨hexpression, -, hprogram, -⟩ := failures_are_placed_at_the_expression
  refine ⟨?_, ?_, ?_⟩
  · have hread : expression maxNesting .code " ; (".toList = .error ⟨.lexeme, []⟩ := by cbv
    exact (hexpression _ _ hread).2.1 rfl
  · have hread : expression maxNesting .code "''''''''''''''''''''''''''''''''a".toList =
        .error ⟨.lexeme, "''''''''''''''''''''''''''''''''a".toList⟩ := by cbv
    obtain ⟨before, hbefore, herror⟩ := (hexpression _ _ hread).2.2 (by simp)
    rw [List.self_eq_append_left.1 hbefore] at herror
    exact herror
  · have hfirst : expression maxNesting .code "x ;(\n (car \"\\q\")".toList =
        .ok (.symbol ⟨"x", .any⟩, " ;(\n (car \"\\q\")".toList) := by cbv
    have hsecond : expression maxNesting .code " ;(\n (car \"\\q\")".toList =
        .error ⟨.lexeme, "(car \"\\q\")".toList⟩ := by cbv
    have hne : skipLayout " ;(\n (car \"\\q\")".toList ≠ [] := by
      cbv
      exact List.cons_ne_nil _ _
    obtain ⟨-, before, hbefore, herror⟩ := hprogram _ _ _ (.later hfirst rfl (.here hne hsecond))
    have hsplit : "x ;(\n (car \"\\q\")".toList = "x ;(\n ".toList ++ "(car \"\\q\")".toList := rfl
    rw [List.append_cancel_right (hbefore.symm.trans hsplit)] at herror
    exact herror

end LexicalLisp.Source
