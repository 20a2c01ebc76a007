import LexicalLisp.Proofs.FailurePlace

/-!
# What a syntax error shows of the text

A syntax error shows ten characters of the text at most. Its place is counted in bytes, and as many
characters are left out before what is shown. So behind characters of one byte each the offending
text itself is shown. Every further byte in front of it moves what is shown one character on, up to
the end of the text, where nothing is shown at all.
-/
namespace LexicalLisp

/-! ### Which error a message belongs to -/

/-- The text begins with this character. -/
def BeginsWith (c : Char) (text : String) : Prop := text.toList.head? = some c

theorem BeginsWith.intro (c : Char) (text : String) (h : text.toList.head? = some c) :
    BeginsWith c text := h

theorem BeginsWith.append {c : Char} {a : String} (h : BeginsWith c a) (b : String) :
    BeginsWith c (a ++ b) := by
  unfold BeginsWith at h ⊢
  rw [String.toList_append, List.head?_append, h]
  rfl

theorem BeginsWith.unique {c d : Char} {text : String} (h : BeginsWith c text)
    (h' : BeginsWith d text) : c = d :=
  Option.some.inj (h.symm.trans h')

/-- No two kinds of errors have messages that begin alike. -/
def ErrorKind.initial : ErrorKind → Char
  | .source => 'P'
  | .evaluation => 'E'
  | .type => 'T'
  | .unboundVariable => 'U'
  | .arity => 'A'
  | .malformed => 'M'
  | .duplicateName => 'D'
  | .kindConflict => 'K'

theorem ErrorKind.initial_injective {k k' : ErrorKind} (h : k.initial = k'.initial) : k = k' := by
  cases k <;> cases k' <;> first | rfl | exact absurd h (by decide)

theorem Error.beginsWith_message (e : Error) : BeginsWith e.kind.initial e.message := by
  cases e with
  | source fault => exact (BeginsWith.intro 'P' "ParseError: " rfl).append _
  | evaluation fault trail =>
    exact ((BeginsWith.intro 'E' "EvaluationError: " rfl).append _).append _
  | type fault trail => exact ((BeginsWith.intro 'T' "Type error: " rfl).append _).append _
  | unboundVariable name => exact (BeginsWith.intro 'U' "Unbound variable: " rfl).append name
  | arity expected given expression =>
    cases expression with
    | none =>
      have h := BeginsWith.intro 'A' "ArityError: function expected " rfl
      exact ((h.append _).append _).append _
    | some expression =>
      have h := BeginsWith.intro 'A' "ArityError: expression " rfl
      exact ((((h.append _).append _).append _).append _).append _
  | malformed fault => exact (BeginsWith.intro 'M' "Malformed arguments: " rfl).append _
  | duplicateName name =>
    exact ((BeginsWith.intro 'D' "Duplicate name: local name " rfl).append name).append _
  | kindConflict name bound =>
    exact (((BeginsWith.intro 'K' "Kind conflict: " rfl).append name).append _).append _

/-- Of the faults of a text only a syntax error has a message that begins like this. -/
theorem SourceFault.eq_invalid_of_message {fault : SourceFault} {shown : String}
    (h : fault.message = "Invalid syntax near '" ++ shown ++ "'") : fault = .invalid shown := by
  have hinvalid := ((BeginsWith.intro 'I' "Invalid syntax near '" rfl).append shown).append "'"
  rw [← h] at hinvalid
  cases fault with
  | invalid text =>
    have htext := (String.append_right_inj _).1 ((String.append_left_inj _).1 h)
    exact congrArg invalid htext
  | expectedCharacter position =>
    have h := (BeginsWith.intro 'E' "Expected character at position " rfl).append
      (toString position)
    exact absurd (h.unique hinvalid) (by decide)
  | unexpectedToken position =>
    have h := (BeginsWith.intro 'U' "Unexpected token at position " rfl).append (toString position)
    exact absurd (h.unique hinvalid) (by decide)
  | tooDeep =>
    have h := ((BeginsWith.intro 'E' "Expression too deeply nested (max depth: " rfl).append
      (toString maxNesting)).append ")"
    exact absurd (h.unique hinvalid) (by decide)
  | endOfInput => exact absurd ((BeginsWith.intro 'U' _ rfl).unique hinvalid) (by decide)
  | leftover rest =>
    have h := ((BeginsWith.intro 'U' "Unexpected remaining input: '" rfl).append rest).append "'"
    exact absurd (h.unique hinvalid) (by decide)

/-- A message tells a syntax error from every other error. -/
theorem Error.message_eq_invalid_iff {e : Error} {shown : String} :
    e.message = "ParseError: Invalid syntax near '" ++ shown ++ "'" ↔
      e = .source (.invalid shown) := by
  have hsplit : "ParseError: Invalid syntax near '" ++ shown ++ "'" =
      "ParseError: " ++ (SourceFault.invalid shown).message := by
    have hopen : "ParseError: Invalid syntax near '" = "ParseError: " ++ "Invalid syntax near '" :=
      rfl
    rw [hopen, String.append_assoc, String.append_assoc]
    exact congrArg ("ParseError: " ++ ·) String.append_assoc.symm
  rw [hsplit]
  constructor
  · intro h
    have hletter : BeginsWith ErrorKind.source.initial e.message := by
      rw [h]
      exact (BeginsWith.intro 'P' _ rfl).append _
    have hkind := ErrorKind.initial_injective (e.beginsWith_message.unique hletter)
    cases e with
    | source fault =>
      have hfault : fault = .invalid shown :=
        SourceFault.eq_invalid_of_message ((String.append_right_inj _).1 h)
      rw [hfault]
    | _ => cases hkind
  · rintro rfl
    rfl

namespace Source

/-! ### What is shown, and where it begins -/

/-- The bytes of a text beyond one for each of its characters. -/
def surplus : List Char → Nat
  | [] => 0
  | c :: s => c.utf8Size - 1 + surplus s

theorem byteCount_eq_add_surplus (s : List Char) : byteCount s = s.length + surplus s := by
  induction s with
  | nil => rfl
  | cons c s ih =>
    have hpos := c.utf8Size_pos
    rw [byteCount, surplus, List.length_cons, ih]
    omega

theorem surplus_eq_zero_iff {s : List Char} : surplus s = 0 ↔ ∀ c ∈ s, c.utf8Size = 1 := by
  induction s with
  | nil => simp [surplus]
  | cons c s ih =>
    have hpos := c.utf8Size_pos
    rw [surplus, List.forall_mem_cons, ← ih]
    omega

/-- The first characters of a text, ten at most. -/
def opening (s : List Char) : String := String.ofList (s.take (min 10 s.length))

/-- The first ten characters of the text stand in it once more, `shift` characters later. -/
def Recurs (shift : Nat) (s : List Char) : Prop :=
  shift + 10 ≤ s.length ∧ ∀ i < 10, s[i + shift]? = s[i]?

/-- What is shown begins as many characters behind the failure as there are surplus bytes before
it. -/
theorem snippet_eq_opening_drop (before rest : List Char) :
    snippet before rest = opening (rest.drop (surplus before)) := by
  rw [snippet, byteCount_eq_add_surplus, List.drop_length_add_append, opening,
    ← List.take_eq_take_min]

theorem opening_ne_empty {s : List Char} (h : s ≠ []) : opening s ≠ "" := by
  have hpos := List.length_pos_of_ne_nil h
  intro hempty
  have hlist := congrArg (fun t => t.toList.length) hempty
  simp only [opening, String.toList_ofList, List.length_take, String.toList_empty,
    List.length_nil] at hlist
  omega

theorem opening_drop_eq_empty_iff {shift : Nat} {s : List Char} :
    opening (s.drop shift) = "" ↔ s.length ≤ shift := by
  by_cases hnil : s.drop shift = []
  · have hlength := List.drop_eq_nil_iff.1 hnil
    simp only [hnil, hlength, iff_true]
    rfl
  · have hlength : ¬ s.length ≤ shift := fun h => hnil (List.drop_eq_nil_iff.2 h)
    simp only [opening_ne_empty hnil, hlength]

/-- A text opens alike at two places just if its first ten characters recur. -/
theorem opening_drop_eq_iff {shift : Nat} {s : List Char} (hne : s ≠ []) :
    opening (s.drop shift) = opening s ↔ shift = 0 ∨ Recurs shift s := by
  have hpos := List.length_pos_of_ne_nil hne
  simp only [opening, String.ofList_inj, ← List.take_eq_take_min]
  constructor
  · intro h
    by_cases hshift : shift = 0
    · exact Or.inl hshift
    · have hlength := congrArg List.length h
      simp only [List.length_take, List.length_drop] at hlength
      refine Or.inr ⟨by omega, fun i hi => ?_⟩
      have hi' := congrArg (fun t => t[i]?) h
      simpa only [List.getElem?_take, hi, if_true, List.getElem?_drop, Nat.add_comm shift] using hi'
  · rintro (rfl | ⟨-, hrecurs⟩)
    · rw [List.drop_zero]
    · refine List.ext_getElem? fun i => ?_
      rw [List.getElem?_take, List.getElem?_take, List.getElem?_drop]
      split
      case isTrue hi => rw [Nat.add_comm, hrecurs i hi]
      case isFalse => rfl

/-! ### Syntax errors -/

/-- Reading fails with a syntax error, and this text is shown. -/
def ShowsOnFailure {α : Type} (outcome : Except Error α) (shown : String) : Prop :=
  ∃ e, outcome = .error e ∧ e.message = "ParseError: Invalid syntax near '" ++ shown ++ "'"

theorem showsOnFailure_iff {α : Type} {outcome : Except Error α} {shown : String} :
    ShowsOnFailure outcome shown ↔ outcome = .error (.source (.invalid shown)) := by
  constructor
  · rintro ⟨e, rfl, hmessage⟩
    rw [Error.message_eq_invalid_iff.1 hmessage]
  · exact fun h => ⟨_, h, Error.message_eq_invalid_iff.2 rfl⟩

/-- A failure in front of an expression shows the text from there on, moved by the surplus. -/
theorem snippet_of_fault {input s : List Char} {shown : String} (hsuffix : s <:+ input)
    (h : Failure.fault input ⟨.lexeme, skipLayout s⟩ = .invalid shown) :
    ∃ before, input = before ++ skipLayout s ∧ skipLayout s ≠ [] ∧
      shown = snippet before (skipLayout s) := by
  by_cases hnil : skipLayout s = []
  · rw [hnil, fault_of_nil] at h
    cases h
  · obtain ⟨before, hbefore, hfault⟩ := fault_of_suffix hsuffix hnil
    rw [hfault] at h
    cases h
    exact ⟨before, hbefore, hnil, rfl⟩

/-- If a text is no expression for what it begins with, it is no program for the same reason. -/
theorem showsOnFailure_readProgram {text shown : String}
    (h : ShowsOnFailure (readExpression text) shown) : ShowsOnFailure (readProgram text) shown := by
  have herror := showsOnFailure_iff.1 h
  rw [showsOnFailure_iff]
  rcases readExpression_eq_fault herror with ⟨f, hread⟩ | ⟨rest, hrest⟩
  · have hf := expression_eq_error hread
    rw [readExpression_of_error hread, hf] at herror
    have hfault := Error.source.inj (Except.error.inj herror)
    obtain ⟨-, -, hne, -⟩ := snippet_of_fault List.suffix_rfl hfault
    rw [readProgram, expressions_of_error text.toList hne hread, hf, hfault]
  · cases hrest

/-- A syntax error is found in front of an expression that cannot be read, and what it shows begins
as many characters later as the text before has surplus bytes. So the first ten characters of the
expression are shown just if the text before has characters of one byte only, or those ten recur at
that distance. Nothing is shown just if no more characters are left than there are surplus bytes,
although some are left. -/
theorem offending_text_is_shown_iff {text shown : String}
    (h : ShowsOnFailure (readExpression text) shown ∨ ShowsOnFailure (readProgram text) shown) :
    ∃ t f before, FailsAt t f text.toList ∧ text.toList = before ++ f.rest ∧
      shown = opening (f.rest.drop (surplus before)) ∧ opening f.rest ≠ "" ∧
      (shown = opening f.rest ↔
        (∀ c ∈ before, c.utf8Size = 1) ∨ Recurs (surplus before) f.rest) ∧
      (shown = "" ↔ f.rest.length ≤ surplus before) := by
  have herror := showsOnFailure_iff.1 (h.elim showsOnFailure_readProgram id)
  obtain ⟨t, f, hfails⟩ := failsAt_of_expressions herror
  have hf := expression_eq_error hfails.failure.2
  rw [readProgram, hfails.expressions_eq, hf] at herror
  obtain ⟨before, hbefore, hne, hshown⟩ :=
    snippet_of_fault hfails.suffix (Error.source.inj (Except.error.inj herror))
  subst hf
  rw [snippet_eq_opening_drop] at hshown
  refine ⟨t, _, before, hfails, hbefore, hshown, opening_ne_empty hne, ?_, ?_⟩
  · rw [hshown, opening_drop_eq_iff hne, surplus_eq_zero_iff]
  · rw [hshown, opening_drop_eq_empty_iff]

/-- Behind a comment in one-byte characters the offending text is shown, whatever it holds itself.
Behind a two-byte character it is shown if it is a long row of parentheses. -/
theorem offending_text_is_shown_of_comment :
    (ShowsOnFailure (readExpression ";\n(\"\u03bb") "(\"\u03bb" ∧
      ∃ t f before, FailsAt t f ";\n(\"\u03bb".toList ∧
        ";\n(\"\u03bb".toList = before ++ f.rest ∧
        "(\"\u03bb" = opening (f.rest.drop (surplus before)) ∧ opening f.rest ≠ "" ∧
        ("(\"\u03bb" = opening f.rest ↔
          (∀ c ∈ before, c.utf8Size = 1) ∨ Recurs (surplus before) f.rest) ∧
        ("(\"\u03bb" = "" ↔ f.rest.length ≤ surplus before)) ∧
    (ShowsOnFailure (readProgram "f ;\u00e9\n(((((((((((") "((((((((((" ∧
      ∃ t f before, FailsAt t f "f ;\u00e9\n(((((((((((".toList ∧
        "f ;\u00e9\n(((((((((((".toList = before ++ f.rest ∧
        "((((((((((" = opening (f.rest.drop (surplus before)) ∧ opening f.rest ≠ "" ∧
        ("((((((((((" = opening f.rest ↔
          (∀ c ∈ before, c.utf8Size = 1) ∨ Recurs (surplus before) f.rest) ∧
        ("((((((((((" = "" ↔ f.rest.length ≤ surplus before)) := by
  have hread : ShowsOnFailure (readExpression ";\n(\"\u03bb") "(\"\u03bb" :=
    showsOnFailure_iff.2 (by cbv)
  have hread' : ShowsOnFailure (readProgram "f ;\u00e9\n(((((((((((") "((((((((((" :=
    showsOnFailure_iff.2 (by cbv)
  exact ⟨⟨hread, offending_text_is_shown_iff (Or.inl hread)⟩,
    hread', offending_text_is_shown_iff (Or.inr hread')⟩

/-- Behind a literal with a two-byte character one character of the offending text is passed over:
a parenthesis alone is not shown at all, and of an open list the parenthesis is missing. -/
theorem two_byte_character_hides_offending_text :
    (FailsAt " (".toList ⟨.lexeme, ['(']⟩ "\"\u00e9\" (".toList ∧
      ShowsOnFailure (readProgram "\"\u00e9\" (") "" ∧ opening ['('] = "(") ∧
    (FailsAt " (if".toList ⟨.lexeme, "(if".toList⟩ "\"\u00e9\" (if".toList ∧
      ShowsOnFailure (readProgram "\"\u00e9\" (if") "if" ∧ opening "(if".toList = "(if") := by
  have hne : ∀ c, skipLayout (' ' :: '(' :: c) ≠ [] := fun c => List.cons_ne_nil _ _
  have hfirst : expression maxNesting .code "\"\u00e9\" (".toList =
      .ok (.string "\u00e9", " (".toList) := by cbv
  have hfirst' : expression maxNesting .code "\"\u00e9\" (if".toList =
      .ok (.string "\u00e9", " (if".toList) := by cbv
  refine ⟨⟨.later hfirst rfl (.here (hne _) (by cbv)), ?_, rfl⟩,
    .later hfirst' rfl (.here (hne _) (by cbv)), ?_, rfl⟩
  · exact showsOnFailure_iff.2 (by cbv)
  · exact showsOnFailure_iff.2 (by cbv)

end Source
end LexicalLisp
