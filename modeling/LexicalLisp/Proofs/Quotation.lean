import Mathlib
import LexicalLisp.Proofs.DataFlow
import LexicalLisp.Proofs.Global
import LexicalLisp.Proofs.Reading

/-!
# Quotations in programs

The reader makes data of what stands under a quote mark or after the head `quote`. A head that
is written `quote:any` denotes the same symbol but is not seen as a quotation in time, so its
argument is compiled. That is the only way for compiled code to get under a quotation, and where
it does not happen no compiled code flows into data when the program is evaluated.
-/
namespace LexicalLisp

namespace Value

variable {p : Value → Bool}

/-- The plain form of a value holds lists and symbols in place of operator applications. -/
theorem throughout_plain (hlist : ∀ vs, p (.list vs) = true) (hsymbol : ∀ s, p (.symbol s) = true) :
    ∀ {v : Value}, v.throughout p = true → v.plain.throughout p = true
  | .list vs, h => by
    rw [plain, plainAll_eq_map]
    refine throughout_list_iff.2 ⟨hlist _, fun u hu => ?_⟩
    obtain ⟨w, hw, rfl⟩ := List.mem_map.1 hu
    exact throughout_plain hlist hsymbol ((throughout_list_iff.1 h).2 w hw)
  | .op o vs, h => by
    rw [plain, plainAll_eq_map]
    refine throughout_list_iff.2 ⟨hlist _, fun u hu => ?_⟩
    rcases List.mem_cons.1 hu with rfl | hu
    · exact hsymbol _
    · obtain ⟨w, hw, rfl⟩ := List.mem_map.1 hu
      exact throughout_plain hlist hsymbol ((throughout_op_iff.1 h).2 w hw)
  | .number _, h | .symbol _, h | .string _, h | .bool _, h => h
  | .builtin _ _, h | .function _, h | .unspecified, h => h

end Value

namespace Source

variable {p : Value → Bool}

theorem throughout_restorePair (hlist : ∀ vs, p (.list vs) = true)
    (hsymbol : ∀ s, p (.symbol s) = true) {v : Value} (h : v.throughout p = true) :
    (restorePair v).throughout p = true := by
  cases v with
  | op o args =>
    refine Value.throughout_list_iff.2 ⟨hlist _, fun u hu => ?_⟩
    rcases List.mem_cons.1 hu with rfl | hu
    · exact hsymbol _
    · exact (Value.throughout_op_iff.1 h).2 u hu
  | _ => exact h

theorem throughout_restoreNames (hlist : ∀ vs, p (.list vs) = true)
    (hsymbol : ∀ s, p (.symbol s) = true) (o : Operator) {args : List Value}
    (h : ∀ v ∈ args, v.throughout p = true) : ∀ v ∈ restoreNames o args, v.throughout p = true := by
  have hplain : ∀ v ∈ args, v.plain.throughout p = true := fun v hv =>
    Value.throughout_plain hlist hsymbol (h v hv)
  unfold restoreNames
  split
  case h_1 bindings body =>
    intro v hv
    rcases List.mem_cons.1 hv with rfl | hv
    · refine Value.throughout_list_iff.2 ⟨hlist _, fun u hu => ?_⟩
      obtain ⟨w, hw, rfl⟩ := List.mem_map.1 hu
      have hbindings := (Value.throughout_list_iff.1 (h _ List.mem_cons_self)).2
      exact throughout_restorePair hlist hsymbol (hbindings w hw)
    · exact h v (List.mem_cons_of_mem _ hv)
  case h_2 params body =>
    intro v hv
    rcases List.mem_cons.1 hv with rfl | hv
    · exact hplain params List.mem_cons_self
    · exact h v (List.mem_cons_of_mem _ hv)
  case h_3 name params body =>
    intro v hv
    rcases List.mem_cons.1 hv with rfl | hv
    · exact h _ List.mem_cons_self
    rcases List.mem_cons.1 hv with rfl | hv
    · exact hplain params (by simp)
    · exact h v (by simp [hv])
  case h_4 => exact h

theorem throughout_quotationOf (hsymbol : ∀ s, p (.symbol s) = true) (mode : Mode) {x : Value}
    (h : p (quotationOf mode x) = true) (hx : x.throughout p = true) :
    (quotationOf mode x).throughout p = true := by
  cases mode with
  | code => exact Value.throughout_op_iff.2 ⟨h, by simpa using hx⟩
  | data =>
    refine Value.throughout_list_iff.2 ⟨h, fun u hu => ?_⟩
    rcases List.mem_cons.1 hu with rfl | hu
    · exact hsymbol _
    · rw [List.mem_singleton.1 hu]
      exact hx

/-- An application holds its elements, and it is a list unless its head names an operator. -/
theorem throughout_applicationOf (hlist : ∀ vs, p (.list vs) = true)
    (hsymbol : ∀ s, p (.symbol s) = true) {mode : Mode} {xs : List Value}
    (h : ∀ x ∈ xs, x.throughout p = true)
    (hop : ∀ o args, xs = .symbol ⟨o.name, .any⟩ :: args → p (.op o (restoreNames o args)) = true) :
    (applicationOf mode xs).throughout p = true := by
  unfold applicationOf
  split
  case h_1 name args =>
    split
    case h_1 o ho =>
      have hname : o.name = name := by
        have hfind := List.find?_some ho
        simpa using hfind
      subst hname
      refine Value.throughout_op_iff.2 ⟨hop o args rfl, ?_⟩
      exact throughout_restoreNames hlist hsymbol o fun v hv => h v (List.mem_cons_of_mem _ hv)
    case h_2 => exact Value.throughout_list_iff.2 ⟨hlist _, h⟩
  case h_2 => exact Value.throughout_list_iff.2 ⟨hlist _, h⟩

/-- What holds of constants, symbols, lists and operator applications holds throughout what is
read: there are no other parts in it. -/
theorem throughout_of_expression (hconstant : ∀ v, v.isConstant = true → p v = true)
    (hsymbol : ∀ s, p (.symbol s) = true) (hlist : ∀ vs, p (.list vs) = true)
    (hop : ∀ o args, p (.op o args) = true) {levels : Nat} {mode : Mode} {s rest : List Char}
    {v : Value} (h : expression levels mode s = .ok (v, rest)) : v.throughout p = true := by
  refine expression_induction s (P := fun _ v => v.throughout p = true)
    ?_ ?_ ?_ ?_ List.suffix_rfl h
  · intro mode v hv
    cases v with
    | number | bool | string => exact hconstant _ rfl
    | _ => cases hv
  · exact fun _ a => hsymbol a
  · intro mode x hx
    refine throughout_quotationOf hsymbol mode ?_ hx
    cases mode with
    | code => exact hop _ _
    | data => exact hlist _
  · intro levels mode inside _ _ hxs
    exact throughout_applicationOf hlist hsymbol hxs fun _ _ _ => hop _ _

/-- The reader never reads a builtin. -/
theorem throughout_isNative_of_expression {levels : Nat} {mode : Mode} {s rest : List Char}
    {v : Value} (h : expression levels mode s = .ok (v, rest)) :
    v.throughout Value.isNative = true := by
  refine throughout_of_expression ?_ (fun _ => rfl) (fun _ => rfl) (fun _ _ => rfl) h
  intro v hv
  cases v with
  | number | bool | string => rfl
  | _ => cases hv

/-! ### The head of a quotation -/

theorem symbol_of_expression {levels : Nat} {s rest : List Char} {a : Symbol}
    (h : expression levels .code s = .ok (.symbol a, rest)) :
    symbol (skipLayout s) = .ok (.symbol a, rest) := by
  cases levels with
  | zero => cases h
  | succ levels =>
    rcases expression_eq_ok h with h | h | h | ⟨h, -⟩
    · obtain ⟨t, x, -, -, hv⟩ := quotation_eq_ok h
      cases hv
    · obtain ⟨inside, -, ⟨t, x, after, -, -, -, hv⟩ | ⟨-, -, hv⟩⟩ := list_eq_ok h
      · cases hv
      · unfold applicationOf at hv
        split at hv
        · split at hv <;> cases hv
        · cases hv
    · exact h
    · cases h

/-- The word for the symbol `quote` that does not make its list a quotation. -/
def kindedQuote : List Char := "quote:any".toList

/-- A list that is no quotation has the head `quote` only if the head is written with its kind,
or nothing follows it. -/
theorem eq_nil_of_quote_head {levels : Nat} {s : List Char} {args : List Value}
    (hs : startsWithLayout s = false) (hnone : quoteHead? s = none)
    (h : (elements (expression levels .code) s).1 = .symbol ⟨"quote", .any⟩ :: args) :
    args = [] ∨ kindedQuote <:+: s := by
  unfold elements at h
  cases hread : expression levels .code s with
  | error x => simp [hread] at h
  | ok r =>
    obtain ⟨x, rest⟩ := r
    simp only [hread] at h
    obtain ⟨rfl, hargs⟩ := List.cons.inj h
    have hsymbol := symbol_of_expression hread
    rw [skipLayout_eq_self hs] at hsymbol
    obtain ⟨a, ha, hword, hrest⟩ := symbol_eq_ok hsymbol
    cases ha
    have hsplit := List.takeWhile_append_dropWhile (p := isWordChar) (l := s)
    rw [← hrest] at hsplit
    rcases Symbol.eq_of_ofWord? hword with ⟨hw, -⟩ | hw
    · -- nothing can follow at once, and layout would have made it a quotation
      rw [hw] at hsplit
      have hsep : separator? rest = none := by
        rw [← hsplit] at hnone
        exact hnone
      refine Or.inl ?_
      rw [← hargs, furtherElements, hsep]
    · refine Or.inr ⟨[], rest, ?_⟩
      rw [hw] at hsplit
      exact hsplit

/-- What is read as data is data. Code quotes data only, if the text has no kinded `quote`. -/
def Clean (text : List Char) : Mode → Value → Prop
  | .data, v => v.isData = true
  | .code, v => ¬ kindedQuote <:+: text → v.quotesData = true

theorem clean_of_expression {text : List Char} {levels : Nat} {mode : Mode}
    {s rest : List Char} {v : Value} (hs : s <:+ text)
    (h : expression levels mode s = .ok (v, rest)) : Clean text mode v := by
  refine expression_induction text (P := Clean text) ?_ ?_ ?_ ?_ hs h
  · intro mode v hv
    have hdata : v.isData = true := by
      cases v with
      | number | bool | string => rfl
      | _ => cases hv
    cases mode with
    | data => exact hdata
    | code => exact fun _ => Value.quotesData_of_isData hdata
  · intro mode a
    cases mode with
    | data => rfl
    | code => exact fun _ => rfl
  · intro mode x hx
    cases mode with
    | data => exact throughout_quotationOf (fun _ => rfl) .data rfl hx
    | code =>
      intro _
      have hdata : x.isData = true := hx
      refine throughout_quotationOf (fun _ => rfl) .code ?_
        (Value.quotesData_of_isData hdata)
      simp [quotationOf, Value.quotesOnlyData, hdata]
  · intro levels mode inside hinside hnone hxs
    cases mode with
    | data => exact Value.throughout_list_iff.2 ⟨rfl, hxs⟩
    | code =>
      intro hfree
      have hlayout := startsWithLayout_skipLayout inside
      refine throughout_applicationOf (fun _ => rfl) (fun _ => rfl) (fun x hx => hxs x hx hfree) ?_
      intro o args happly
      cases o with
      | primitive p => rfl
      | form f =>
        cases f with
        | quote =>
          rcases eq_nil_of_quote_head hlayout hnone happly with rfl | hkinded
          · rfl
          · exact absurd (hkinded.trans hinside.isInfix) hfree
        | _ => rfl

end Source

/-! ### Programs -/

/-- The expressions are evaluated one after another, and a failing one does not end it. All
results and all variables are data, and it makes no difference what primitives do with anything
else. -/
def NeverLeaks (host : Host) (root : EnvRef) : List Value → Store → Prop
  | [], _ => True
  | v :: vs, s =>
    (∀ x t, (eval host v root).run s = .ok x t → x.isData = true) ∧
    (∀ e n slot, (((eval host v root).after s).frame e).get? n = some (.slot slot) →
      slot.value.isData = true) ∧
    (∀ run' : Runner,
      (∀ code args, (∀ a ∈ args, a.isData = true) → run' code args = code.run host args) →
        (evalWithin run' maxDepth v root).run s = (eval host v root).run s) ∧
    NeverLeaks host root vs ((eval host v root).after s)

/-- What the reader made of quotations is data, and compiled code never becomes data. -/
structure KeepsCodeFromData (host : Host) (root : EnvRef) (vs : List Value) (s : Store) :
    Prop where
  quotations : ∀ v ∈ vs, v.quotesData = true
  evaluation : NeverLeaks host root vs s

/-- Pure code gives data and leaves a pure store, whatever primitives do with other values. -/
theorem Store.Pure.evaluation (host : Host) (root : EnvRef) {run' : Runner} {v : Value} {s : Store}
    (hs : s.Pure) (hv : v.IsPureCode)
    (hrun : ∀ code args, (∀ a ∈ args, a.isData = true) → run' code args = code.run host args) :
    (∀ x t, (eval host v root).run s = .ok x t → x.isData = true) ∧
    ((eval host v root).after s).Pure ∧
    (evalWithin run' maxDepth v root).run s = (eval host v root).run s := by
  have hev : pureFlow.Evaluators (eval host) (evalWithin run' maxDepth) :=
    (pureFlow.lawful hrun).evalWithin maxDepth
  have h := hev root () v trivial hv s s ⟨rfl, hs⟩
  cases hr : (eval host v root).run s with
  | ok x t =>
    rw [hr] at h
    obtain ⟨w, t', hr', -, ⟨rfl, ht⟩, hx⟩ := h
    refine ⟨fun y u hy => ?_, ?_, hr'⟩
    · cases hy
      exact hx.1
    · rw [Action.after_of_ok hr]
      exact ht
  | error x t =>
    rw [hr] at h
    rcases h with hcut | ⟨_, w, t', hr', rfl, -, rfl, ht⟩
    · exact hcut.elim
    refine ⟨fun y u hy => ?_, ?_, hr'⟩
    · cases hy
    · rw [Action.after_of_error hr]
      exact ht

theorem NeverLeaks.of_pure {host : Host} {root : EnvRef} {vs : List Value} {s : Store}
    (hs : s.Pure) (hvs : ∀ v ∈ vs, v.IsPureCode) : NeverLeaks host root vs s := by
  induction vs generalizing s with
  | nil => trivial
  | cons v vs ih =>
    have hv : v.IsPureCode := hvs v List.mem_cons_self
    have htail : ∀ u ∈ vs, u.IsPureCode := fun u hu => hvs u (List.mem_cons_of_mem v hu)
    obtain ⟨hresult, hafter, -⟩ := hs.evaluation host root hv fun _ _ _ => rfl
    refine ⟨hresult, ?_, ?_, ih hafter htail⟩
    · intro e n slot hslot
      exact (hafter.slot e n slot hslot).1
    · intro run' hrun
      exact (hs.evaluation host root hv hrun).2.2

theorem Store.pure_createGlobal {root : EnvRef} {s : Store}
    (h : Environment.createGlobal.run {} = .ok root s) : s.Pure := by
  have hempty : Store.Pure {} := by
    constructor
    · intro e n slot hslot
      simp [frame] at hslot
    · intro i c hc
      simp at hc
  rw [run_createGlobal] at h
  cases h
  exact hempty.push_environment (Frame.standard_global.variables fun _ => ⟨rfl, rfl⟩)

/-- A program, read from a text and evaluated in a new global environment, keeps compiled code
from data just if every quotation that was read quotes data, and every quotation does unless
`quote:any` stands somewhere in the text. -/
theorem program_keeps_code_from_data_iff (host : Host) (text : String) (vs : List Value)
    (root : EnvRef) (s : Store) (hread : Source.readProgram text = .ok vs)
    (hroot : Environment.createGlobal.run {} = .ok root s) :
    (KeepsCodeFromData host root vs s ↔ ∀ v ∈ vs, v.quotesData = true) ∧
      (¬ Source.kindedQuote <:+: text.toList → KeepsCodeFromData host root vs s) := by
  have hnative : ∀ v ∈ vs, v.throughout Value.isNative = true :=
    Source.readProgram_forall (fun _ _ _ _ h => Source.throughout_isNative_of_expression h) hread
  have hpure : s.Pure := Store.pure_createGlobal hroot
  have hiff : KeepsCodeFromData host root vs s ↔ ∀ v ∈ vs, v.quotesData = true := by
    constructor
    · intro h
      exact h.quotations
    · intro h
      exact ⟨h, NeverLeaks.of_pure hpure fun v hv => ⟨h v hv, hnative v hv⟩⟩
  refine ⟨hiff, ?_⟩
  intro hfree
  have hquotes : ∀ v ∈ vs, v.quotesData = true :=
    Source.readProgram_forall (fun _ _ _ hs h => Source.clean_of_expression hs h hfree) hread
  exact hiff.2 hquotes

theorem program_keeps_code_from_data_of_quote_mark :
    ∃ vs root s, Source.readProgram "(list '(car x))" = .ok vs ∧
      Environment.createGlobal.run {} = .ok root s ∧
      KeepsCodeFromData (fun _ _ => .ok .unspecified) root vs s := by
  have hread : Source.readProgram "(list '(car x))" = .ok [.op (.primitive .list)
      [.op (.form .quote) [.list [.symbol ⟨"car", .any⟩, .symbol ⟨"x", .any⟩]]]] := by cbv
  have hroot := Store.run_createGlobal {}
  refine ⟨_, _, _, hread, hroot, ?_⟩
  refine (program_keeps_code_from_data_iff _ _ _ _ _ hread hroot).1.2 fun v hv => ?_
  rw [List.mem_singleton.1 hv]
  rfl

/-- With its kind written out, the head `quote` lets an application be compiled and evaluation
return it. -/
theorem kinded_quote_returns_code :
    ∃ v root s, Source.readProgram "(quote:any (car x))" = .ok [v] ∧
      Environment.createGlobal.run {} = .ok root s ∧
      (eval (fun _ _ => .ok .unspecified) v root).run s =
        .ok (.op (.primitive .car) [.symbol ⟨"x", .any⟩]) s ∧
      ¬ KeepsCodeFromData (fun _ _ => .ok .unspecified) root [v] s := by
  have hread : Source.readProgram "(quote:any (car x))" =
      .ok [.op (.form .quote) [.op (.primitive .car) [.symbol ⟨"x", .any⟩]]] := by cbv
  refine ⟨_, _, _, hread, Store.run_createGlobal {}, rfl, fun h => ?_⟩
  have hquotes := h.quotations _ List.mem_cons_self
  cases hquotes

end LexicalLisp
