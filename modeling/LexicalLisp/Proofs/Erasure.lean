import Mathlib
import LexicalLisp.Proofs.Reading

/-!
# Code erases to data

A text can be read as code or as data. Both readings take the same characters, and the plain form
of what is read as code is what is read as data. So compiling operator applications while reading
neither loses nor moves an element, and in particular the names that an operator binds are
restored without loss.
-/
namespace LexicalLisp

namespace Value

mutual

@[simp] theorem plain_plain : ∀ v : Value, v.plain.plain = v.plain
  | .list vs => by simp only [plain, plainAll_plainAll vs]
  | .op o args => by simp only [plain, plainAll, plainAll_plainAll args]
  | .number _ | .symbol _ | .string _ | .bool _ | .builtin _ _ | .function _ | .unspecified => by
    simp only [plain]

theorem plainAll_plainAll : ∀ vs : List Value, plainAll (plainAll vs) = plainAll vs
  | [] => rfl
  | v :: vs => by simp only [plainAll, plain_plain v, plainAll_plainAll vs]

end

@[simp] theorem plain_list (vs : List Value) : (list vs).plain = .list (vs.map plain) := by
  rw [plain, plainAll_eq_map]

@[simp] theorem plain_op (o : Operator) (args : List Value) :
    (op o args).plain = .list (.symbol ⟨o.name, .any⟩ :: args.map plain) := by
  rw [plain, plainAll_eq_map]

@[simp] theorem plain_symbol (s : Symbol) : (symbol s).plain = .symbol s := rfl

theorem plain_of_isConstant {v : Value} (h : v.isConstant = true) : v.plain = v := by
  cases v with
  | number | bool | string => rfl
  | _ => cases h

end Value

theorem Operator.name_of_ofName? {name : String} {o : Operator} (h : ofName? name = some o) :
    o.name = name := by
  have hfind := List.find?_some h
  simpa using hfind

namespace Source

/-! ### What a list or a quotation denotes -/

theorem plain_quotationOf (mode : Mode) (x : Value) :
    (quotationOf mode x).plain = .list [.symbol ⟨"quote", .any⟩, x.plain] := by
  cases mode with
  | code => exact Value.plain_op _ _
  | data => exact Value.plain_list _

@[simp] theorem plain_restorePair (v : Value) : (restorePair v).plain = v.plain := by
  cases v with
  | op o args => simp [restorePair]
  | _ => rfl

/-- The names that an operator binds have the same plain form before and after. -/
theorem plain_restoreNames (o : Operator) (args : List Value) :
    (restoreNames o args).map Value.plain = args.map Value.plain := by
  unfold restoreNames
  split <;> simp [Function.comp_def]

/-- The plain form of an application is the list of its elements' plain forms. -/
theorem plain_applicationOf (mode : Mode) (xs : List Value) :
    (applicationOf mode xs).plain = .list (xs.map Value.plain) := by
  unfold applicationOf
  split
  case h_1 name args =>
    split
    case h_1 o ho =>
      rw [Value.plain_op, plain_restoreNames, Operator.name_of_ofName? ho, List.map_cons,
        Value.plain_symbol]
    case h_2 => exact Value.plain_list _
  case h_2 => exact Value.plain_list _

@[simp] theorem applicationOf_data (xs : List Value) : applicationOf .data xs = .list xs := rfl

/-! ### Readers -/

/-- The second reader takes the same texts as the first and leaves the same rest, and it gives the
plain form of what the first gives. -/
def Reader.Erases (r r' : Reader Value) : Prop :=
  ∀ s, (r' s).toOption = (r s).toOption.map fun (v, rest) => (v.plain, rest)

namespace Reader.Erases

variable {r r' first first' second second' : Reader Value}

theorem ok (h : r.Erases r') {s rest : List Char} {v : Value} (hr : r s = .ok (v, rest)) :
    r' s = .ok (v.plain, rest) := by
  have h := h s
  rw [hr] at h
  cases hr' : r' s with
  | ok p => simpa [hr', Except.toOption] using h
  | error e => simp [hr', Except.toOption] at h

theorem exists_ok (h : r.Erases r') {s rest : List Char} {d : Value} (hr : r' s = .ok (d, rest)) :
    ∃ v, r s = .ok (v, rest) ∧ v.plain = d := by
  have h := h s
  rw [hr] at h
  cases hr' : r s with
  | ok p =>
    obtain ⟨v, rest'⟩ := p
    simp only [hr', Except.toOption, Option.map_some, Option.some.injEq, Prod.mk.injEq] at h
    exact ⟨v, by rw [h.2], h.1.symm⟩
  | error e => simp [hr', Except.toOption] at h

theorem exists_error (h : r.Erases r') {s : List Char} {e : Failure} (hr : r s = .error e) :
    ∃ e', r' s = .error e' := by
  cases hr' : r' s with
  | error e' => exact ⟨e', rfl⟩
  | ok p =>
    obtain ⟨v, hv, -⟩ := h.exists_ok hr'
    rw [hr] at hv
    cases hv

theorem or (h : first.Erases first') (h' : second.Erases second') :
    (first.or second).Erases (first'.or second') := by
  intro s
  cases hr : first s with
  | ok p =>
    rw [or_eq_of_ok hr, or_eq_of_ok (h.ok hr)]
    rfl
  | error e =>
    obtain ⟨e', hr'⟩ := h.exists_error hr
    rw [or_eq_of_error hr, or_eq_of_error hr']
    exact h' s

/-- A reader that only gives plain values. -/
theorem of_plain (h : ∀ s v rest, r s = .ok (v, rest) → v.plain = v) : r.Erases r := by
  intro s
  cases hr : r s with
  | ok p => simp [Except.toOption, h s p.1 p.2 hr]
  | error e => rfl

end Reader.Erases

/-! ### Lexemes -/

theorem number_erases : number.Erases number :=
  .or (.of_plain fun _ _ _ h => Value.plain_of_isConstant (hexadecimal_eq_ok h).1)
    (.of_plain fun _ _ _ h => Value.plain_of_isConstant (decimal_eq_ok h).1)

theorem boolean_erases : boolean.Erases boolean :=
  .of_plain fun _ _ _ h => Value.plain_of_isConstant (boolean_eq_ok h).1

theorem string_erases : string.Erases string :=
  .of_plain fun _ _ _ h => Value.plain_of_isConstant (string_eq_ok h).1

theorem symbol_erases : symbol.Erases symbol := by
  refine .of_plain fun s v rest h => ?_
  obtain ⟨a, rfl, -, -⟩ := symbol_eq_ok h
  rfl

/-! ### Lists and quotations -/

section Elements

variable {datum datum' element element' : Reader Value}

/-- As many elements are read from the text either way, and they end at the same place. -/
theorem furtherElements_of_erases (h : element.Erases element') (s : List Char) :
    furtherElements element' s =
      ((furtherElements element s).1.map Value.plain, (furtherElements element s).2) := by
  fun_induction furtherElements element s with
  | case1 s hs => rw [furtherElements, hs]; rfl
  | case2 s t hs e he =>
    obtain ⟨e', he'⟩ := h.exists_error he
    rw [furtherElements, hs]
    simp only [he', List.map_nil]
  | case3 s t hs x rest he hlt xs after hxs ih =>
    rw [hxs] at ih
    rw [furtherElements, hs]
    simp only [h.ok he, if_pos hlt, ih, List.map_cons]
  | case4 s t hs x rest he hlt =>
    rw [furtherElements, hs]
    simp only [h.ok he, if_neg hlt, List.map_cons, List.map_nil]

theorem elements_of_erases (h : element.Erases element') (s : List Char) :
    elements element' s = ((elements element s).1.map Value.plain, (elements element s).2) := by
  unfold elements
  cases he : element s with
  | error e =>
    obtain ⟨e', he'⟩ := h.exists_error he
    simp only [he', List.map_nil]
  | ok p =>
    obtain ⟨x, rest⟩ := p
    simp only [h.ok he, furtherElements_of_erases h rest, List.map_cons]

theorem quotation_erases (h : datum.Erases datum') (mode : Mode) :
    (quotation datum mode).Erases (quotation datum' .data) := by
  intro s
  unfold quotation
  split
  case h_1 t =>
    cases hr : datum t with
    | error e =>
      obtain ⟨e', hr'⟩ := h.exists_error hr
      rw [hr']
      rfl
    | ok p =>
      rw [h.ok hr]
      exact congrArg (fun v => some (v, p.2)) (plain_quotationOf mode p.1).symm
  case h_2 => rfl

theorem list_erases (h : datum.Erases datum') (h' : element.Erases element') (mode : Mode) :
    (list datum element mode).Erases (list datum' element' .data) := by
  intro s
  unfold list
  split
  case h_2 => rfl
  case h_1 inside =>
    cases hquote : quoteHead? (skipLayout inside) with
    | some t =>
      simp only [hquote]
      cases hr : datum t with
      | error e =>
        obtain ⟨e', hr'⟩ := h.exists_error hr
        rw [hr']
        rfl
      | ok p =>
        rw [h.ok hr]
        simp only [bind, Except.bind]
        cases char ')' (skipLayout p.2) with
        | error e => rfl
        | ok q => exact congrArg (fun v => some (v, q.2)) (plain_quotationOf mode p.1).symm
    | none =>
      simp only [hquote, elements_of_erases h', bind, Except.bind]
      cases char ')' (skipLayout (elements element (skipLayout inside)).2) with
      | error e => rfl
      | ok q => exact congrArg (fun v => some (v, q.2)) (plain_applicationOf mode _).symm

end Elements

/-- Reading as code or as data, the same characters are taken, and what is read as data is the
plain form of the other. -/
theorem expression_erases (levels : Nat) (mode : Mode) :
    (expression levels mode).Erases (expression levels .data) := by
  induction levels generalizing mode with
  | zero => exact fun _ => rfl
  | succ levels ih =>
    intro s
    have halternatives := (quotation_erases (ih .data) mode).or <|
      (list_erases (ih .data) (ih mode) mode).or <|
        number_erases.or <| boolean_erases.or <| string_erases.or symbol_erases
    exact halternatives (skipLayout s)

theorem expression_of_readExpression {text : String} {v : Value}
    (h : readExpression text = .ok v) :
    v.checkForms = .ok () ∧ ∃ rest, expression maxNesting .code text.toList = .ok (v, rest) ∧
      skipLayout rest = [] := by
  unfold readExpression at h
  split at h
  case h_1 => cases h
  case h_2 u rest hread =>
    split at h
    case h_1 hrest =>
      obtain ⟨⟨⟩, hcheck, h⟩ := exists_of_bind_eq_ok h
      cases h
      exact ⟨hcheck, rest, hread, hrest⟩
    case h_2 => cases h

/-- At every depth a text is read as code just if it is read as data, and then the same rest is
left and the plain form of the code is the data. So what a whole text denotes has for its plain
form what the text denotes as data. -/
theorem code_erases_to_data (levels : Nat) (s : List Char) :
    ((expression levels .data s).toOption =
      (expression levels .code s).toOption.map fun (v, rest) => (v.plain, rest)) ∧
    ∀ text v, readExpression text = .ok v →
      ∃ rest, expression maxNesting .data text.toList = .ok (v.plain, rest) ∧
        skipLayout rest = [] := by
  refine ⟨expression_erases levels .code s, fun text v h => ?_⟩
  obtain ⟨-, rest, hread, hrest⟩ := expression_of_readExpression h
  exact ⟨rest, (expression_erases maxNesting .code).ok hread, hrest⟩

theorem code_erases_to_data_of_bound_names :
    ∃ v rest, readExpression "(let ((if '5)) (lambda (list x) (car x)))" = .ok v ∧
      expression maxNesting .data "(let ((if '5)) (lambda (list x) (car x)))".toList =
        .ok (v.plain, rest) ∧
      v.plain = .list [.symbol ⟨"let", .any⟩,
        .list [.list [.symbol ⟨"if", .any⟩, .list [.symbol ⟨"quote", .any⟩, .number 5]]],
        .list [.symbol ⟨"lambda", .any⟩, .list [.symbol ⟨"list", .any⟩, .symbol ⟨"x", .any⟩],
          .list [.symbol ⟨"car", .any⟩, .symbol ⟨"x", .any⟩]]] := by
  have hread : readExpression "(let ((if '5)) (lambda (list x) (car x)))" =
      .ok (.op (.form .letIn) [
        .list [.list [.symbol ⟨"if", .any⟩, .op (.form .quote) [.number 5]]],
        .op (.form .lambda) [.list [.symbol ⟨"list", .any⟩, .symbol ⟨"x", .any⟩],
          .op (.primitive .car) [.symbol ⟨"x", .any⟩]]]) := by cbv
  obtain ⟨rest, hdata, -⟩ := (code_erases_to_data maxNesting []).2 _ _ hread
  exact ⟨_, rest, hread, hdata, rfl⟩

end Source
end LexicalLisp
