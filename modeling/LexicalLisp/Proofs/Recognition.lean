import Mathlib
import LexicalLisp.Proofs.Erasure
import LexicalLisp.Proofs.LexemeGrammar

/-!
# The reader recognizes the grammar

The reader takes the front of a text for an expression just if the grammar derives it and no word
goes on behind it, and then it gives what the derivation denotes. In a derivation of a whole text no
word ever goes on behind an expression: layout, a closing parenthesis or the end must follow.
-/
namespace LexicalLisp
namespace Source

open Grammar

/-! ### Lists -/

section Derived

variable {E : Phrase} {element : Reader Value} (h : element.Derives E)
include h

theorem further_of_furtherElements (s : List Char) :
    Further E s (furtherElements element s).1 (furtherElements element s).2 := by
  fun_induction furtherElements element s with
  | case1 s hsep => exact .nil s
  | case2 s t hsep e he => exact .nil s
  | case3 s t hsep x rest hx hlt xs after hxs ih =>
    rw [hxs] at ih
    exact .cons (separator_of_separator? hsep) (h t x rest hx) ih
  | case4 s t hsep x rest hx hlt =>
    exact .cons (separator_of_separator? hsep) (h t x rest hx) (.nil rest)

theorem elements_of_elements (s : List Char) :
    Elements E s (elements element s).1 (elements element s).2 := by
  unfold elements
  cases hx : element s with
  | error e => exact .nil s
  | ok r => exact .cons (h s r.1 r.2 hx) (further_of_furtherElements h r.2)

theorem quotation_derives : (quotation element .data).Derives (Form E) := by
  intro s x rest hs
  obtain ⟨t, y, rfl, hy, rfl⟩ := quotation_eq_ok hs
  exact .mark (h t y rest hy)

theorem list_derives : (list element element .data).Derives (Form E) := by
  intro s x rest hs
  obtain ⟨inside, rfl, ⟨t, y, after, hquote, hy, hclose, rfl⟩ | ⟨hquote, hclose, rfl⟩⟩ :=
    list_eq_ok hs
  · have hend := layout_skipLayout after
    rw [hclose] at hend
    exact .quotation (layout_skipLayout inside) (quoteHead_of_quoteHead? hquote)
      (h t y after hy) hend
  · have hend := layout_skipLayout (elements element (skipLayout inside)).2
    rw [hclose] at hend
    refine .list (layout_skipLayout inside) (fun u hsep => ?_) (fun u hhead => ?_)
      (elements_of_elements h _) hend
    · have hstart := startsWithLayout_of_separator hsep
      rw [startsWithLayout_skipLayout] at hstart
      cases hstart
    · rw [quoteHead?_of_quoteHead hhead] at hquote
      cases hquote

end Derived

/-- Whatever is read as data, the grammar derives. -/
theorem expression_derives (levels : Nat) : (expression levels .data).Derives (Expr levels) := by
  induction levels with
  | zero =>
    intro s x rest h
    cases h
  | succ levels ih =>
    have hlexeme : ∀ {r : Reader Value}, r.Derives LexemePhrase → r.Derives (Form (Expr levels)) := by
      intro r hr s x rest h
      obtain ⟨w, rfl, hw⟩ := hr s x rest h
      exact .lexeme hw rest
    have hform := (quotation_derives ih).or <| (list_derives ih).or <|
      (hlexeme (hexadecimal_derives.or decimal_derives)).or <|
        (hlexeme boolean_derives).or <| (hlexeme string_derives).or (hlexeme symbol_derives)
    intro s x rest h
    exact ⟨skipLayout s, layout_skipLayout s, hform _ x rest h⟩

/-- What the phrase derives, the reader takes behind the layout, unless a word goes on there. -/
def Reader.Accepts (r : Reader Value) (E : Phrase) : Prop :=
  ∀ s x rest, E s x rest → EndsWord rest → r (skipLayout s) = .ok (x, rest)

section Accepted

variable {E : Phrase} {s t rest : List Char} {xs : List Value}

theorem endsWord_of_further (h : Further E s xs t) (hclose : Layout t (')' :: rest)) :
    EndsWord s := by
  cases h with
  | nil => exact endsWord_of_close hclose
  | cons hsep _ _ => exact endsWord_of_separator hsep

variable {element : Reader Value} (h : element.Accepts E) (hsuffix : element.LeavesSuffix)
  (hrefuse : ∀ u, ∃ e, element (')' :: u) = .error e)
include h hsuffix hrefuse

theorem furtherElements_of_further (hxs : Further E s xs t) (hclose : Layout t (')' :: rest)) :
    furtherElements element s = (xs, t) := by
  induction hxs with
  | nil s =>
    obtain ⟨e, he⟩ := hrefuse rest
    refine furtherElements_of_error (e := e) ?_
    rw [skipLayout_of_layout hclose]
    exact he
  | @cons s u after t x xs hsep hx hxs ih =>
    have hread := h u x after hx (endsWord_of_further hxs hclose)
    have hsep := separator?_of_separator hsep
    have hlt : after.length < s.length :=
      Nat.lt_of_le_of_lt (hsuffix _ x after hread).length_le (length_lt_of_separator? hsep)
    rw [furtherElements, hsep]
    simp only [hread, if_pos hlt, ih hclose]

theorem elements_of_derivation (hstart : startsWithLayout s = false) (hxs : Elements E s xs t)
    (hclose : Layout t (')' :: rest)) : elements element s = (xs, t) := by
  cases hxs with
  | nil =>
    have hs : s = ')' :: rest := by
      rw [← skipLayout_eq_self hstart, skipLayout_of_layout hclose]
      rfl
    obtain ⟨e, he⟩ := hrefuse rest
    rw [← hs] at he
    simp only [elements, he]
  | cons hx hxs =>
    have hread := h s _ _ hx (endsWord_of_further hxs hclose)
    rw [skipLayout_eq_self hstart] at hread
    simp only [elements, hread, furtherElements_of_further h hsuffix hrefuse hxs hclose]

end Accepted

theorem expression_of_skipLayout {levels : Nat} {mode : Mode} {s : List Char}
    {r : Value × List Char} (h : expression levels mode (skipLayout s) = .ok r) :
    expression levels mode s = .ok r := by
  cases levels with
  | zero => cases h
  | succ levels => rwa [expression_skipLayout] at h

/-- A form is read as such where no word goes on. -/
theorem expression_of_form {levels : Nat} (h : (expression levels .data).Accepts (Expr levels))
    {s rest : List Char} {x : Value} (hs : Form (Expr levels) s x rest) (hrest : EndsWord rest) :
    expression (levels + 1) .data s = .ok (x, rest) := by
  cases hs with
  | @mark s _ x hx =>
    have hread := expression_of_skipLayout (h s x rest hx hrest)
    rw [expression_succ rfl]
    refine Reader.or_eq_of_ok ?_
    simp only [quotation, hread]
    rfl
  | @quotation inside s t u _ x hopen hquote hx hclose =>
    have hskip : skipLayout inside = s := by
      obtain ⟨word, rfl, -⟩ := hquote
      rw [skipLayout_of_layout hopen, skipLayout_quote]
    have hread := h t x u hx (endsWord_of_close hclose)
    exact expression_of_list (list_of_quote _ .data hskip (quoteHead?_of_quoteHead hquote) hread
      (skipLayout_of_layout hclose))
  | @list inside s t _ xs hopen hall hquote hxs hclose =>
    have hstart : startsWithLayout s = false :=
      Bool.eq_false_iff.2 fun hstart => hall _ (separator_skipLayout hstart)
    have hskip : skipLayout inside = s := by
      rw [skipLayout_of_layout hopen, skipLayout_eq_self hstart]
    have hnone : quoteHead? s = none := by
      cases hhead : quoteHead? s with
      | none => rfl
      | some u => exact absurd (quoteHead_of_quoteHead? hhead) (hquote u)
    have hread := elements_of_derivation h (expression_leavesSuffix levels .data)
      (expression_close levels .data) hstart hxs hclose
    refine expression_of_list ?_
    simp only [list, hskip, hnone, hread, skipLayout_of_layout hclose]
    rfl
  | lexeme hw => exact expression_lexeme levels .data hw hrest

/-- Whatever the grammar derives is read as data where no word goes on. -/
theorem expression_accepts (levels : Nat) : (expression levels .data).Accepts (Expr levels) := by
  induction levels with
  | zero =>
    intro s x rest h
    cases h
  | succ levels ih =>
    intro s x rest ⟨t, hlayout, hform⟩ hrest
    rw [skipLayout_of_layout hlayout, expression_skipLayout]
    exact expression_of_form ih hform hrest

/-! ### Whole texts -/

theorem denotes_iff {text : String} {x : Value} :
    Denotes text x ↔ ∃ rest, expression maxNesting .data text.toList = .ok (x, rest) ∧
      skipLayout rest = [] := by
  constructor
  · rintro ⟨rest, hx, hrest⟩
    have hend := endsWord_of_layout hrest endsWord_nil
    exact ⟨rest, expression_of_skipLayout (expression_accepts maxNesting _ x rest hx hend),
      skipLayout_of_layout hrest⟩
  · rintro ⟨rest, hx, hrest⟩
    have hlayout := layout_skipLayout rest
    rw [hrest] at hlayout
    exact ⟨rest, expression_derives maxNesting _ x rest hx, hlayout⟩

/-- A text denotes one datum at most. -/
theorem Grammar.Denotes.unique {text : String} {x y : Value} (hx : Denotes text x)
    (hy : Denotes text y) : x = y := by
  obtain ⟨rest, hx, -⟩ := denotes_iff.1 hx
  obtain ⟨rest', hy, -⟩ := denotes_iff.1 hy
  rw [hx] at hy
  cases hy
  rfl

end Source

mutual

/-- The only failure of the check is an argument count. -/
theorem Value.kind_of_checkForms : ∀ {v : Value} {e : Error}, v.checkForms = .error e →
    e.kind = .arity
  | .op o args, e, h => by
    rw [checkForms] at h
    split at h
    · cases h
      rfl
    · exact kind_of_checkFormsAll h
  | .list vs, e, h => by
    rw [checkForms] at h
    exact kind_of_checkFormsAll h
  | .number _, e, h | .symbol _, e, h | .string _, e, h | .bool _, e, h | .builtin _ _, e, h
  | .function _, e, h | .unspecified, e, h => by cases h

theorem Value.kind_of_checkFormsAll : ∀ {vs : List Value} {e : Error},
    Value.checkFormsAll vs = .error e → e.kind = .arity
  | [], e, h => by cases h
  | v :: vs, e, h => by
    rw [Value.checkFormsAll] at h
    cases hv : v.checkForms with
    | error e' =>
      rw [hv] at h
      cases h
      exact kind_of_checkForms hv
    | ok u =>
      rw [hv] at h
      exact kind_of_checkFormsAll h

end

namespace Source

open Grammar

/-- A text is no source of an expression just if reading stops at a character that counts. -/
theorem ne_source_iff {text : String} :
    (∀ fault, readExpression text ≠ .error (.source fault)) ↔
      ∃ v rest, expression maxNesting .code text.toList = .ok (v, rest) ∧ skipLayout rest = [] := by
  constructor
  · intro h
    unfold readExpression at h
    split at h
    case h_1 => exact absurd rfl (h _)
    case h_2 v rest hread =>
      split at h
      case h_1 hrest => exact ⟨v, rest, hread, hrest⟩
      case h_2 => exact absurd rfl (h _)
  · rintro ⟨v, rest, hread, hrest⟩ fault h
    simp only [readExpression, hread, hrest] at h
    cases hcheck : v.checkForms with
    | ok u =>
      rw [hcheck] at h
      cases h
    | error e =>
      have harity := Value.kind_of_checkForms hcheck
      rw [hcheck] at h
      cases h
      cases harity

/-- The plain form of what a text is read as is what it denotes. -/
theorem denotes_plain {text : String} {v : Value} {rest : List Char}
    (h : expression maxNesting .code text.toList = .ok (v, rest)) (hrest : skipLayout rest = []) :
    Denotes text v.plain :=
  denotes_iff.2 ⟨rest, (expression_erases maxNesting .code).ok h, hrest⟩

/-- A text is refused as no expression just if the grammar derives no datum from it. What is read
is, in plain form, the only datum that the grammar derives. -/
theorem reads_the_grammar (text : String) :
    ((∀ fault, readExpression text ≠ .error (.source fault)) ↔ ∃ x, Denotes text x) ∧
      ∀ v, readExpression text = .ok v → ∀ x, Denotes text x ↔ x = v.plain := by
  refine ⟨ne_source_iff.trans ⟨?_, ?_⟩, fun v h x => ?_⟩
  · rintro ⟨v, rest, hread, hrest⟩
    exact ⟨v.plain, denotes_plain hread hrest⟩
  · rintro ⟨x, hx⟩
    obtain ⟨rest, hread, hrest⟩ := denotes_iff.1 hx
    obtain ⟨v, hv, -⟩ := (expression_erases maxNesting .code).exists_ok hread
    exact ⟨v, rest, hv, hrest⟩
  · obtain ⟨-, rest, hread, hrest⟩ := expression_of_readExpression h
    have hplain := denotes_plain hread hrest
    constructor
    · intro hx
      exact hx.unique hplain
    · rintro rfl
      exact hplain

/-- A comment may end the word `quote`, and then one datum must follow. -/
theorem reads_the_grammar_of_quotation :
    (∀ x, Denotes " (quote;\n(a:int \"\\n\" #xF '-5))" x ↔
      x = .list [.symbol ⟨"quote", .any⟩, .list [.symbol ⟨"a", .int⟩, .string "\n", .number 15,
        .list [.symbol ⟨"quote", .any⟩, .number (-5)]]]) ∧
    ¬ ∃ x, Denotes "( quote 1 2)" x := by
  have hread : readExpression " (quote;\n(a:int \"\\n\" #xF '-5))" =
      .ok (.op (.form .quote) [.list [.symbol ⟨"a", .int⟩, .string "\n", .number 15,
        .list [.symbol ⟨"quote", .any⟩, .number (-5)]]]) := by cbv
  have hrefused : readExpression "( quote 1 2)" =
      .error (.source (.invalid "( quote 1 ")) := by cbv
  refine ⟨(reads_the_grammar _).2 _ hread, fun hx => ?_⟩
  exact (reads_the_grammar _).1.2 hx _ hrefused

end Source
end LexicalLisp
