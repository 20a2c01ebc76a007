import LexicalLisp.Proofs.Reprinting

/-!
# Data behind a quote mark

A datum is made of numbers, truth values, strings, symbols and lists. Behind a quote mark its
written form is read as the quotation of the datum, and evaluating that gives the datum back, as
long as the datum is not nested too deep for the reader and no list in it looks like a quotation of
several values.
-/
namespace LexicalLisp

namespace Value

/-- The value may stand in a datum: a symbol only if its name is one. -/
def isDatumPart : Value → Bool
  | .number _ | .bool _ | .string _ | .list _ => true
  | .symbol a => Symbol.isName a.name.toList
  | _ => false

/-- The value is made of numbers, truth values, strings, symbols with good names, and lists. -/
def isDatum (v : Value) : Bool := v.throughout isDatumPart

mutual

/-- How deep the deepest part of a datum lies; the datum itself lies at depth 0. -/
def nesting : Value → Nat
  | .list elements => nestingAll elements
  | _ => 0

/-- The same of a list's elements, which lie one level below the list. -/
def nestingAll : List Value → Nat
  | [] => 0
  | v :: vs => max (nesting v + 1) (nestingAll vs)

end

/-- The value is a list of three elements or more whose head is the untyped symbol `quote`. -/
def isLongQuote : Value → Bool
  | .list (.symbol a :: _ :: _ :: _) => a == ⟨"quote", .any⟩
  | _ => false

theorem nestingAll_le_iff {vs : List Value} {n : Nat} :
    nestingAll vs ≤ n ↔ ∀ v ∈ vs, v.nesting + 1 ≤ n := by
  induction vs with
  | nil => simp [nestingAll]
  | cons v vs ih => simp [nestingAll, ih]

theorem isDatum_list_iff {vs : List Value} :
    (list vs).isDatum = true ↔ ∀ v ∈ vs, v.isDatum = true := by
  rw [isDatum, throughout_list_iff]
  exact ⟨fun h => h.2, fun h => ⟨rfl, h⟩⟩

/-- A text can denote data within some levels just if the data are nested less deep than that. -/
theorem written_iff {levels : Nat} {v : Value} :
    v.Written (levels + 1) ↔ v.isDatum = true ∧ v.nesting ≤ levels := by
  induction levels generalizing v with
  | zero =>
    cases v with
    | list vs =>
      rw [isDatum_list_iff, nesting, nestingAll_le_iff]
      constructor
      · exact fun h => ⟨fun u hu => (h u hu).elim, fun u hu => (h u hu).elim⟩
      · exact fun h u hu => absurd (h.2 u hu) (Nat.not_succ_le_zero _)
    | symbol a => exact ⟨fun h => ⟨h, Nat.zero_le _⟩, fun h => h.1⟩
    | number | string | bool => exact ⟨fun _ => ⟨rfl, Nat.zero_le _⟩, fun _ => rfl⟩
    | op | builtin | function | unspecified => exact ⟨nofun, fun h => nomatch h.1⟩
  | succ levels ih =>
    cases v with
    | list vs =>
      rw [isDatum_list_iff, nesting, nestingAll_le_iff]
      constructor
      · intro h
        exact ⟨fun u hu => (ih.1 (h u hu)).1, fun u hu => Nat.succ_le_succ (ih.1 (h u hu)).2⟩
      · intro h u hu
        exact ih.2 ⟨h.1 u hu, Nat.le_of_succ_le_succ (h.2 u hu)⟩
    | symbol a => exact ⟨fun h => ⟨h, Nat.zero_le _⟩, fun h => h.1⟩
    | number | string | bool => exact ⟨fun _ => ⟨rfl, Nat.zero_le _⟩, fun _ => rfl⟩
    | op | builtin | function | unspecified => exact ⟨nofun, fun h => nomatch h.1⟩

/-- What is made of data quotes data, so a quotation can only be unreadable for its length. -/
theorem quotesReadably_eq_not_isLongQuote {vs : List Value} (h : ∀ v ∈ vs, v.isData = true) :
    (list vs).quotesReadably = !(list vs).isLongQuote := by
  cases vs with
  | nil => rfl
  | cons v vs =>
    by_cases hv : v = .symbol ⟨"quote", .any⟩
    · subst hv
      rcases vs with - | ⟨u, - | ⟨u', vs⟩⟩
      · rfl
      · simp [quotesReadably, isLongQuote, h u (by simp)]
      · simp [quotesReadably, isLongQuote]
    · have hlong : (list (v :: vs)).isLongQuote = false := by
        unfold isLongQuote
        split
        case h_1 a _ _ _ heq =>
          cases heq
          simpa using fun ha => hv (congrArg symbol ha)
        case h_2 => rfl
      rw [quotesReadably_of_ne hv, hlong]
      rfl

/-- Data can be written and read again just if no list in it is a long quotation. -/
theorem isReadable_iff_of_isData {v : Value} (h : v.isData = true) :
    v.isReadable = true ↔ v.throughout (fun u => !u.isLongQuote) = true := by
  cases v with
  | list vs =>
    have hvs := (throughout_list_iff.1 h).2
    rw [isReadable_list_iff, throughout_list_iff, quotesReadably_eq_not_isLongQuote hvs,
      List.all_eq_true]
    constructor
    · rintro ⟨hlong, hall⟩
      exact ⟨hlong, fun u hu => (isReadable_iff_of_isData (hvs u hu)).1 (hall u hu)⟩
    · rintro ⟨hlong, hall⟩
      exact ⟨hlong, fun u hu => (isReadable_iff_of_isData (hvs u hu)).2 (hall u hu)⟩
  | op => cases h
  | number | symbol | string | bool | builtin | function | unspecified => exact Iff.rfl

mutual

theorem checkForms_of_isData : ∀ {v : Value}, v.isData = true → v.checkForms = .ok ()
  | .list vs, h => by
    rw [checkForms]
    exact checkFormsAll_of_isData (throughout_list_iff.1 h).2
  | .op _ _, h => nomatch h
  | .number _, _ | .symbol _, _ | .string _, _ | .bool _, _ => by rw [checkForms] <;> nofun
  | .builtin _ _, _ | .function _, _ | .unspecified, _ => by rw [checkForms] <;> nofun

theorem checkFormsAll_of_isData :
    ∀ {vs : List Value}, (∀ v ∈ vs, v.isData = true) → checkFormsAll vs = .ok ()
  | [], _ => rfl
  | v :: vs, h => by
    rw [checkFormsAll, checkForms_of_isData (h v List.mem_cons_self),
      checkFormsAll_of_isData fun u hu => h u (List.mem_cons_of_mem v hu)]
    rfl

end

theorem checkForms_quote {v : Value} (h : v.isData = true) :
    (op (.form .quote) [v]).checkForms = .ok () := by
  rw [checkForms]
  exact checkFormsAll_of_isData (by simpa using h)

end Value

namespace Source

/-- Behind a quote mark nothing but a datum is read. -/
theorem expression_mark_eq_ok {levels : Nat} {mode : Mode} {s rest : List Char} {v : Value}
    (h : expression (levels + 1) mode ('\'' :: s) = .ok (v, rest)) :
    ∃ x, expression levels .data s = .ok (x, rest) := by
  obtain ⟨_, x, ⟨⟩, hx, -⟩ := quotation_eq_ok (quotation_of_expression h)
  exact ⟨x, hx⟩

theorem expression_of_mark {levels : Nat} {s rest : List Char} {x : Value}
    (h : expression levels .data s = .ok (x, rest)) :
    expression (levels + 1) .code ('\'' :: s) = .ok (.op (.form .quote) [x], rest) := by
  rw [expression_succ rfl]
  refine Reader.or_eq_of_ok ?_
  simp only [quotation, h]
  rfl

/-- A datum that the reader's limit leaves room for is read from its written form behind a quote
mark, as the quotation of itself, just if no list in it is a quotation of several values.
Evaluating the quotation gives the datum and changes nothing. -/
theorem quoted_text_reads_back_iff (v : Value) (hdatum : v.isDatum = true)
    (hnesting : v.nesting ≤ 30) :
    (readExpression ("'" ++ v.render) = .ok (.op (.form .quote) [v]) ↔
      v.throughout (fun u => !u.isLongQuote) = true) ∧
    ∀ (host : Host) (depth : Nat), depth < maxDepth → ∀ (e : EnvRef) (s : Store),
      (evalAt host depth (.op (.form .quote) [v]) e).run s = .ok v s := by
  have hwritten : v.Written 31 := Value.written_iff.2 ⟨hdatum, hnesting⟩
  have hdata : v.isData = true := hwritten.isData
  have hback := readsBack_of_written hwritten .data
  have htext : "'" ++ v.render = String.ofList ('\'' :: v.text) := by
    simp only [← String.toList_inj, String.toList_append, Value.render, String.toList_ofList]
    rfl
  rw [← Value.isReadable_iff_of_isData hdata, htext]
  refine ⟨⟨fun h => ?_, fun hreadable => ?_⟩, ?_⟩
  · obtain ⟨-, rest, hread, -⟩ := expression_of_readExpression h
    rw [String.toList_ofList] at hread
    obtain ⟨x, hx⟩ := expression_mark_eq_ok hread
    cases hreadable : v.isReadable with
    | true => rfl
    | false =>
      obtain ⟨e, he⟩ := hback.refuse [] endsWord_nil hreadable
      rw [List.append_nil, hx] at he
      cases he
  · have hread := hback.read [] endsWord_nil hreadable
    rw [List.append_nil, reading_data] at hread
    exact readExpression_of_expression (expression_of_mark hread) (Value.checkForms_quote hdata)
  · intro host depth hdepth e s
    obtain ⟨levels, hlevels⟩ : ∃ levels, maxDepth - depth = levels + 1 :=
      ⟨maxDepth - depth - 1, by omega⟩
    rw [evalAt, hlevels, evalWithin_succ]
    rfl

/-- Signs, kinds, escapes and short quotations. -/
theorem quoted_text_reads_back_of_nested_datum :
    let v : Value := .list [.symbol ⟨"-", .fn⟩, .number Int64.minValue, .string "\"\\\n\u03bb",
      .list [.symbol ⟨"quote", .any⟩, .list [.symbol ⟨"quote", .any⟩]], .bool false]
    v.isDatum = true ∧ v.nesting ≤ 30 ∧
      readExpression ("'" ++ v.render) = .ok (.op (.form .quote) [v]) ∧
      ∀ e s, (evalAt (fun _ _ => .ok .unspecified) 0 (.op (.form .quote) [v]) e).run s =
        .ok v s := by
  intro v
  have hdatum : v.isDatum = true := by decide
  have hnesting : v.nesting ≤ 30 := by decide
  have h := quoted_text_reads_back_iff v hdatum hnesting
  exact ⟨hdatum, hnesting, h.1.2 (by decide), h.2 _ 0 (by decide)⟩

end Source
end LexicalLisp
