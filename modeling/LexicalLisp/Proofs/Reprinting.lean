import LexicalLisp.Proofs.Equality
import LexicalLisp.Proofs.Quotation
import LexicalLisp.Proofs.WrittenForm

/-!
# Printed expressions are read back

An expression is printed as the plain list that it stands for. From there the same expression is
read, provided that each quotation in it quotes one value at most and that this is data. Any other
quotation can only have been written with the head `quote:any`: compiled code in it is read back as
data, and more than one value is not read back at all.
-/
namespace LexicalLisp

namespace Value

/-! ### Equality of what is read -/

/-- The value is of a sort that a text can denote. -/
def isDenotable : Value → Bool
  | .builtin _ _ | .function _ | .unspecified => false
  | _ => true

theorem same_self (v : Value) (h : v.throughout isDenotable = true) : v.same v = true := by
  refine same_self_iff.2 (throughout_imp (fun u hu => ?_) h)
  cases u with
  | unspecified => cases hu
  | _ => rfl

mutual

/-- Only builtins are the same without being equal. -/
theorem eq_of_same :
    ∀ {v w : Value}, v.throughout isDenotable = true → v.same w = true → v = w
  | .list vs, w, hv, h => by
    cases w with
    | list ws =>
      rw [same] at h
      rw [eq_of_sameAll (throughout_list_iff.1 hv).2 h]
    | _ => cases h
  | .op o args, w, hv, h => by
    cases w with
    | op o' args' =>
      rw [same, Bool.and_eq_true] at h
      rw [eq_of_beq h.1, eq_of_sameAll (throughout_op_iff.1 hv).2 h.2]
    | _ => cases h
  | .number _, w, _, h | .symbol _, w, _, h | .string _, w, _, h | .bool _, w, _, h => by
    cases w <;> first | cases h | rw [eq_of_beq h]

theorem eq_of_sameAll :
    ∀ {vs ws : List Value}, (∀ v ∈ vs, v.throughout isDenotable = true) →
      sameAll vs ws = true → vs = ws
  | [], ws, _, h => by
    cases ws with
    | nil => rfl
    | cons w ws => cases h
  | v :: vs, ws, hvs, h => by
    cases ws with
    | nil => cases h
    | cons w ws =>
      rw [sameAll, Bool.and_eq_true] at h
      rw [eq_of_same (hvs v List.mem_cons_self) h.1,
        eq_of_sameAll (fun u hu => hvs u (List.mem_cons_of_mem v hu)) h.2]

end

/-! ### Plain forms -/

mutual

theorem isData_plain : ∀ v : Value, v.plain.isData = true
  | .list vs => by
    rw [plain]
    exact throughout_list_iff.2 ⟨rfl, isData_plainAll vs⟩
  | .op o args => by
    rw [plain]
    refine throughout_list_iff.2 ⟨rfl, fun u hu => ?_⟩
    rcases List.mem_cons.1 hu with rfl | hu
    · rfl
    · exact isData_plainAll args u hu
  | .number _ | .symbol _ | .string _ | .bool _ | .builtin _ _ | .function _ | .unspecified => rfl

theorem isData_plainAll : ∀ vs : List Value, ∀ v ∈ plainAll vs, v.isData = true
  | [] => fun _ hv => nomatch hv
  | v :: vs => by
    intro u hu
    rcases List.mem_cons.1 hu with rfl | hu
    · exact isData_plain v
    · exact isData_plainAll vs u hu

end

mutual

theorem plain_of_isData : ∀ {v : Value}, v.isData = true → v.plain = v
  | .list vs, h => by rw [plain, plainAll_of_isData (throughout_list_iff.1 h).2]
  | .op _ _, h => nomatch h
  | .number _, _ | .symbol _, _ | .string _, _ | .bool _, _ => rfl
  | .builtin _ _, _ | .function _, _ | .unspecified, _ => rfl

theorem plainAll_of_isData :
    ∀ {vs : List Value}, (∀ v ∈ vs, v.isData = true) → plainAll vs = vs
  | [], _ => rfl
  | v :: vs, h => by
    rw [plainAll, plain_of_isData (h v List.mem_cons_self),
      plainAll_of_isData fun u hu => h u (List.mem_cons_of_mem v hu)]

end

theorem eq_symbol_of_plain {v : Value} {a : Symbol} (h : v.plain = .symbol a) : v = .symbol a := by
  cases v with
  | list vs => rw [plain_list] at h; cases h
  | op o args => rw [plain_op] at h; cases h
  | _ => exact h

end Value

namespace Value

/-! ### Readable values -/

theorem quotesReadably_op_of_ne {o : Operator} (h : o ≠ .form .quote) (args : List Value) :
    (op o args).quotesReadably = true := by
  cases o with
  | primitive p => rfl
  | form f => cases f <;> first | rfl | exact absurd rfl h

/-- An operator application and its plain list quote readably or not, both of them. -/
theorem quotesReadably_list_name (o : Operator) (args : List Value) :
    (list (.symbol ⟨o.name, .any⟩ :: args)).quotesReadably = (op o args).quotesReadably := by
  by_cases ho : o = .form .quote
  · subst ho
    rfl
  · have hname : symbol ⟨o.name, .any⟩ ≠ .symbol ⟨"quote", .any⟩ := by
      intro hsymbol
      exact ho (Operator.name_injective (Symbol.mk.inj (symbol.inj hsymbol)).1)
    rw [quotesReadably_of_ne hname, quotesReadably_op_of_ne ho]

theorem isReadable_list_name (o : Operator) (args : List Value) :
    (list (.symbol ⟨o.name, .any⟩ :: args)).isReadable = (op o args).isReadable := by
  rw [Bool.eq_iff_iff, isReadable_list_iff, isReadable_op_iff, quotesReadably_list_name,
    List.all_cons]
  rfl

theorem quotesReadably_quote_map_plain {args : List Value}
    (h : (op (.form .quote) args).quotesReadably = true) :
    (op (.form .quote) (args.map plain)).quotesReadably = true := by
  simp only [quotesReadably, quoted?, Bool.and_eq_true] at h ⊢
  refine ⟨by simpa using h.1, ?_⟩
  simp [isData_plain]

theorem quotesReadably_plain_list {vs : List Value} (h : (list vs).quotesReadably = true) :
    (list (vs.map plain)).quotesReadably = true := by
  cases vs with
  | nil => rfl
  | cons v vs =>
    by_cases hv : v = .symbol ⟨"quote", .any⟩
    · subst hv
      exact quotesReadably_quote_map_plain h
    · exact quotesReadably_of_ne (fun hplain => hv (eq_symbol_of_plain hplain)) _

theorem quotesReadably_map_plain {o : Operator} {args : List Value}
    (h : (op o args).quotesReadably = true) : (op o (args.map plain)).quotesReadably = true := by
  by_cases ho : o = .form .quote
  · subst ho
    exact quotesReadably_quote_map_plain h
  · exact quotesReadably_op_of_ne ho _

/-- The plain form of a readable value is readable. -/
theorem isReadable_plain : ∀ {v : Value}, v.isReadable = true → v.plain.isReadable = true
  | .list vs, h => by
    obtain ⟨hlist, hvs⟩ := isReadable_list_iff.1 h
    rw [plain_list, isReadable_list_iff]
    refine ⟨quotesReadably_plain_list hlist, List.all_eq_true.2 fun u hu => ?_⟩
    obtain ⟨w, hw, rfl⟩ := List.mem_map.1 hu
    exact isReadable_plain (List.all_eq_true.1 hvs w hw)
  | .op o args, h => by
    obtain ⟨hop, hargs⟩ := isReadable_op_iff.1 h
    rw [plain_op, isReadable_list_name, isReadable_op_iff]
    refine ⟨quotesReadably_map_plain hop, List.all_eq_true.2 fun u hu => ?_⟩
    obtain ⟨w, hw, rfl⟩ := List.mem_map.1 hu
    exact isReadable_plain (List.all_eq_true.1 hargs w hw)
  | .number _, _ | .symbol _, _ | .string _, _ | .bool _, _ => rfl
  | .builtin _ _, _ | .function _, _ | .unspecified, _ => rfl

end Value

namespace Source

open Value (isReadable_list_iff isReadable_op_iff)

/-! ### What a list of these elements denotes -/

/-- A list is an operator application if its head is the name of an operator. -/
theorem applicationOf_code (xs : List Value) :
    (∃ o args, xs = .symbol ⟨Operator.name o, .any⟩ :: args ∧
      applicationOf .code xs = .op o (restoreNames o args)) ∨
    ((∀ o args, xs ≠ .symbol ⟨Operator.name o, .any⟩ :: args) ∧
      applicationOf .code xs = .list xs) := by
  unfold applicationOf
  split
  case h_1 name args _ =>
    cases ho : Operator.ofName? name with
    | some o =>
      refine Or.inl ⟨o, args, ?_, rfl⟩
      rw [Operator.name_of_ofName? ho]
    | none =>
      refine Or.inr ⟨fun o args' heq => ?_, rfl⟩
      obtain ⟨⟨rfl⟩, -⟩ := Symbol.mk.inj (Value.symbol.inj (List.cons.inj heq).1)
      rw [Operator.ofName?_name] at ho
      cases ho
  case h_2 hne =>
    refine Or.inr ⟨fun o args heq => ?_, rfl⟩
    exact hne _ _ rfl heq

theorem eq_symbol_of_reading {mode : Mode} {v : Value} {a : Symbol}
    (h : reading mode v = .symbol a) : v = .symbol a := by
  have hplain := plain_reading mode v
  rw [h] at hplain
  exact Value.eq_symbol_of_plain hplain.symm

/-! ### What is readable -/

theorem isReadable_restorePair (v : Value) : (restorePair v).isReadable = v.isReadable := by
  cases v with
  | op o args => exact Value.isReadable_list_name o args
  | _ => rfl

theorem restorePair_of_isData {v : Value} (h : v.isData = true) : restorePair v = v := by
  cases v with
  | op o args => cases h
  | _ => rfl

theorem quotesReadably_of_head {xs : List Value}
    (h : ∀ args, xs = .symbol ⟨"quote", .any⟩ :: args → args = []) :
    (Value.list xs).quotesReadably = true := by
  cases xs with
  | nil => rfl
  | cons x xs =>
    by_cases hx : x = .symbol ⟨"quote", .any⟩
    · subst hx
      rw [h xs rfl]
      rfl
    · exact Value.quotesReadably_of_ne hx xs

theorem isReadable_list_restorePair {bindings : List Value}
    (h : (Value.list bindings).isReadable = true) :
    (Value.list (bindings.map restorePair)).isReadable = true := by
  obtain ⟨hquotes, hbindings⟩ := isReadable_list_iff.1 h
  rw [isReadable_list_iff, List.all_map]
  refine ⟨?_, by simpa [Function.comp_def, isReadable_restorePair] using hbindings⟩
  cases bindings with
  | nil => rfl
  | cons b bs =>
    by_cases hb : b = .symbol ⟨"quote", .any⟩
    · -- what is quoted is data, and there is nothing to restore in data
      subst hb
      have hdata : ∀ x ∈ bs, restorePair x = x := by
        simp only [Value.quotesReadably, Value.quoted?_quote, Bool.and_eq_true,
          List.all_eq_true] at hquotes
        exact fun x hx => restorePair_of_isData (hquotes.2 x hx)
      rw [List.map_cons, List.map_congr_left hdata, List.map_id']
      exact hquotes
    · refine Value.quotesReadably_of_ne ?_ _
      cases b with
      | op o args =>
        intro h
        cases h
      | _ => exact hb

theorem isReadable_restoreNames (o : Operator) {args : List Value}
    (h : args.all Value.isReadable = true) :
    (restoreNames o args).all Value.isReadable = true := by
  fun_cases restoreNames o args with
  | case1 bindings body =>
    rw [List.all_cons, Bool.and_eq_true] at h ⊢
    exact ⟨isReadable_list_restorePair h.1, h.2⟩
  | case2 params body =>
    rw [List.all_cons, Bool.and_eq_true] at h ⊢
    exact ⟨Value.isReadable_plain h.1, h.2⟩
  | case3 name params body =>
    simp only [List.all_cons, Bool.and_eq_true] at h ⊢
    exact ⟨h.1, Value.isReadable_plain h.2.1, h.2.2⟩
  | case4 => exact h

/-- An application of readable elements is readable, if nothing follows a head `quote`. -/
theorem isReadable_applicationOf {mode : Mode} {xs : List Value}
    (h : xs.all Value.isReadable = true)
    (hquote : ∀ args, xs = .symbol ⟨"quote", .any⟩ :: args → args = []) :
    (applicationOf mode xs).isReadable = true := by
  have hlist : (Value.list xs).isReadable = true :=
    isReadable_list_iff.2 ⟨quotesReadably_of_head hquote, h⟩
  cases mode with
  | data => exact hlist
  | code =>
    rcases applicationOf_code xs with ⟨o, args, rfl, happly⟩ | ⟨-, happly⟩
    · rw [List.all_cons, Bool.and_eq_true] at h
      rw [happly, isReadable_op_iff]
      refine ⟨?_, isReadable_restoreNames o h.2⟩
      by_cases ho : o = .form .quote
      · subst ho
        rw [hquote args rfl]
        rfl
      · exact Value.quotesReadably_op_of_ne ho _
    · rw [happly]
      exact hlist

/-- What readable data denotes is readable. -/
theorem isReadable_reading (mode : Mode) :
    ∀ {v : Value}, v.isReadable = true → (reading mode v).isReadable = true
  | .list xs, h => by
    obtain ⟨hquotes, hxs⟩ := isReadable_list_iff.1 h
    by_cases hx : ∃ x, xs = [.symbol ⟨"quote", .any⟩, x]
    · obtain ⟨x, rfl⟩ := hx
      rw [reading_quotation]
      cases mode with
      | data => exact h
      | code =>
        simp only [List.all_cons, Bool.and_eq_true] at hxs
        exact isReadable_op_iff.2 ⟨hquotes, by simpa using hxs.2.1⟩
    · rw [reading_list (not_exists.1 hx)]
      refine isReadable_applicationOf (List.all_eq_true.2 fun u hu => ?_) fun args hargs => ?_
      · obtain ⟨w, hw, rfl⟩ := List.mem_map.1 hu
        exact isReadable_reading mode (List.all_eq_true.1 hxs w hw)
      · obtain ⟨y, ys, rfl, hy, rfl⟩ := List.map_eq_cons_iff.1 hargs
        obtain rfl := eq_symbol_of_reading hy
        match ys with
        | [] => rfl
        | [x] => exact absurd ⟨x, rfl⟩ hx
        | _ :: _ :: _ => simp [Value.quotesReadably] at hquotes
  | .op _ _, h | .number _, h | .symbol _, h | .string _, h | .bool _, h => by
    simpa only [reading] using h
  | .builtin _ _, h | .function _, h | .unspecified, h => by simpa only [reading] using h

/-! ### Code denotes what its plain form denotes -/

/-- The value is no list that should have become an operator application. -/
def Settled (v : Value) : Prop := ∀ o args, v ≠ .list (.symbol ⟨Operator.name o, .any⟩ :: args)

/-- The plain form of the value denotes the value. -/
def ReadsAsIs (v : Value) : Prop := v.isReadable = true → reading .code v.plain = v

theorem map_reading_plain {xs : List Value} (h : ∀ x ∈ xs, ReadsAsIs x)
    (hreadable : xs.all Value.isReadable = true) :
    xs.map (fun x => reading .code x.plain) = xs := by
  have hid : ∀ x ∈ xs, reading .code x.plain = x := fun x hx =>
    h x hx (List.all_eq_true.1 hreadable x hx)
  rw [List.map_congr_left hid, List.map_id']

theorem isReadable_of_restorePair {bindings : List Value} (hsettled : Settled (.list bindings))
    (h : (Value.list (bindings.map restorePair)).isReadable = true) :
    (Value.list bindings).isReadable = true := by
  obtain ⟨-, hbindings⟩ := isReadable_list_iff.1 h
  rw [List.all_map] at hbindings
  refine isReadable_list_iff.2 ⟨quotesReadably_of_head fun args hargs => ?_, ?_⟩
  · exact absurd (congrArg Value.list hargs) (hsettled (.form .quote) args)
  · simpa [Function.comp_def, isReadable_restorePair] using hbindings

/-- The names that an operator binds come out the same, whether the arguments are those that were
read first or those that their plain forms denote. -/
theorem restoreNames_reading_plain (o : Operator) {args : List Value}
    (hsettled : ∀ v ∈ args, Settled v) (h : ∀ v ∈ args, ReadsAsIs v)
    (hreadable : (restoreNames o args).all Value.isReadable = true) :
    restoreNames o (args.map fun v => reading .code v.plain) = restoreNames o args := by
  fun_cases restoreNames o args with
  | case1 bindings body =>
    simp only [restoreNames, List.all_cons, Bool.and_eq_true] at hreadable
    have hbindings := isReadable_of_restorePair (hsettled _ List.mem_cons_self) hreadable.1
    rw [map_reading_plain h (by simp [hbindings, hreadable.2])]
    rfl
  | case2 params body =>
    simp only [restoreNames, List.all_cons, Bool.and_eq_true] at hreadable
    have hbody := map_reading_plain (fun v hv => h v (List.mem_cons_of_mem _ hv)) hreadable.2
    rw [List.map_cons, hbody]
    simp [restoreNames, plain_reading]
  | case3 name params body =>
    simp only [restoreNames, List.all_cons, Bool.and_eq_true] at hreadable
    have hname := h name List.mem_cons_self hreadable.1
    have hbody := map_reading_plain (fun v hv => h v (by simp [hv])) hreadable.2.2
    rw [List.map_cons, List.map_cons, hname, hbody]
    simp [restoreNames, plain_reading]
  | case4 _ _ hlet hlambda hdefun =>
    rw [restoreNames.eq_4 o args hlet hlambda hdefun] at hreadable
    rw [map_reading_plain h hreadable, restoreNames.eq_4 o args hlet hlambda hdefun]

theorem reading_plain_applicationOf {xs : List Value} (hsettled : ∀ x ∈ xs, Settled x)
    (h : ∀ x ∈ xs, ReadsAsIs x) : ReadsAsIs (applicationOf .code xs) := by
  intro hreadable
  rw [plain_applicationOf]
  rcases applicationOf_code xs with ⟨o, args, rfl, happly⟩ | ⟨hne, happly⟩
  · rw [happly, isReadable_op_iff] at hreadable
    by_cases ho : o = .form .quote
    · subst ho
      have hquotes := hreadable.1
      rw [happly]
      match args with
      | [] => exact reading_list (by simp) .code
      | [x] =>
        have hdata : x.isData = true := by
          simpa [Value.quotesReadably, Value.quoted?, restoreNames] using hquotes
        rw [List.map_cons, List.map_cons, Value.plain_of_isData hdata]
        exact reading_quotation .code x
      | _ :: _ :: _ => simp [Value.quotesReadably, Value.quoted?, restoreNames] at hquotes
    · have hne : ∀ x, Value.symbol ⟨o.name, .any⟩ :: args.map Value.plain ≠
          [.symbol ⟨"quote", .any⟩, x] := by
        intro x heq
        have hname := (Symbol.mk.inj (Value.symbol.inj (List.cons.inj heq).1)).1
        exact ho (Operator.name_injective hname)
      have hargs := restoreNames_reading_plain o (fun v hv => hsettled v (by simp [hv]))
        (fun v hv => h v (by simp [hv])) hreadable.2
      rw [List.map_cons, Value.plain_symbol, reading_list hne, List.map_cons, List.map_map, happly]
      simp only [reading, applicationOf, Operator.ofName?_name, Function.comp_def, hargs]
  · rw [happly] at hreadable ⊢
    have hxs := map_reading_plain h (isReadable_list_iff.1 hreadable).2
    have hquote : ∀ x, xs.map Value.plain ≠ [.symbol ⟨"quote", .any⟩, x] := by
      intro x heq
      obtain ⟨y, ys, rfl, hy, -⟩ := List.map_eq_cons_iff.1 heq
      obtain rfl := Value.eq_symbol_of_plain hy
      exact hne (.form .quote) ys rfl
    rw [reading_list hquote, List.map_map]
    simp only [Function.comp_def, hxs, happly]

/-- What is read as code denotes itself when it is written as its plain form. -/
theorem reading_plain_of_expression {levels : Nat} {s rest : List Char} {v : Value}
    (h : expression levels .code s = .ok (v, rest)) (hreadable : v.isReadable = true) :
    reading .code v.plain = v := by
  refine (expression_induction s
    (P := fun mode v => mode = .code → Settled v ∧ ReadsAsIs v) ?_ ?_ ?_ ?_ List.suffix_rfl h
      rfl).2 hreadable
  · intro mode v hv _
    cases v with
    | number | bool | string => exact ⟨nofun, fun _ => rfl⟩
    | _ => cases hv
  · exact fun _ _ _ => ⟨nofun, fun _ => rfl⟩
  · rintro _ x - rfl
    refine ⟨nofun, fun hquotation => ?_⟩
    have hdata : x.isData = true := by
      simpa [Value.quotesReadably, Value.quoted?] using (isReadable_op_iff.1 hquotation).1
    rw [plain_quotationOf, Value.plain_of_isData hdata]
    exact reading_quotation .code x
  · rintro levels _ inside - - hxs rfl
    refine ⟨fun o args heq => ?_, reading_plain_applicationOf (fun x hx => (hxs x hx rfl).1)
      fun x hx => (hxs x hx rfl).2⟩
    rcases applicationOf_code (elements (expression levels .code) (skipLayout inside)).1 with
      ⟨_, _, -, happly⟩ | ⟨hne, happly⟩
    · rw [happly] at heq
      cases heq
    · rw [happly] at heq
      exact hne o args (Value.list.inj heq)

/-! ### What is read can be written -/

theorem written_of_expression {levels : Nat} {s rest : List Char} {v : Value}
    (h : expression levels .data s = .ok (v, rest)) : v.Written levels := by
  induction levels generalizing s rest v with
  | zero => cases h
  | succ levels ih =>
    have hquotation : ∀ {t after x}, expression levels .data t = .ok (x, after) →
        (quotationOf .data x).Written (levels + 1) := by
      intro t after x hx y hy
      rcases List.mem_cons.1 hy with rfl | hy
      · cases levels with
        | zero => cases hx
        | succ levels => exact rfl
      · rw [List.mem_singleton.1 hy]
        exact ih hx
    rcases expression_eq_ok h with h | h | h | ⟨h, -⟩
    · obtain ⟨t, x, -, hx, rfl⟩ := quotation_eq_ok h
      exact hquotation hx
    · obtain ⟨inside, -, ⟨t, x, after, -, hx, -, rfl⟩ | ⟨-, -, rfl⟩⟩ := list_eq_ok h
      · exact hquotation hx
      · intro x hx
        have hread := (elements_spec (expression_leavesSuffix levels .data) (skipLayout inside)).2
        obtain ⟨t, after, -, hx⟩ := hread x hx
        exact ih hx
    · obtain ⟨a, rfl, hword, -⟩ := symbol_eq_ok h
      exact Symbol.isName_of_ofWord? hword
    · cases v with
      | number | bool | string => exact h
      | _ => cases h

/-! ### Texts without a kinded quote -/

theorem eq_nil_of_quote_head_of_mode {levels : Nat} {mode : Mode} {s : List Char}
    {args : List Value} (hs : startsWithLayout s = false) (hnone : quoteHead? s = none)
    (h : (elements (expression levels mode) s).1 = .symbol ⟨"quote", .any⟩ :: args) :
    args = [] ∨ kindedQuote <:+: s := by
  cases mode with
  | code => exact eq_nil_of_quote_head hs hnone h
  | data =>
    rw [elements_of_erases (expression_erases levels .code)] at h
    obtain ⟨x, xs, hxs, hx, rfl⟩ := List.map_eq_cons_iff.1 h
    obtain rfl := Value.eq_symbol_of_plain hx
    rcases eq_nil_of_quote_head hs hnone hxs with rfl | hkinded
    · exact Or.inl rfl
    · exact Or.inr hkinded

/-- If the text has no kinded `quote`, all that is read from it is readable. -/
theorem isReadable_of_expression {text : List Char} {levels : Nat} {mode : Mode}
    {s rest : List Char} {v : Value} (hs : s <:+ text)
    (h : expression levels mode s = .ok (v, rest)) (hfree : ¬ kindedQuote <:+: text) :
    v.isReadable = true := by
  refine (expression_induction text
    (P := fun mode v => (mode = .data → v.isData = true) ∧ v.isReadable = true)
      ?_ ?_ ?_ ?_ hs h).2
  · intro mode v hv
    cases v with
    | number | bool | string => exact ⟨fun _ => rfl, rfl⟩
    | _ => cases hv
  · exact fun _ _ => ⟨fun _ => rfl, rfl⟩
  · intro mode x ⟨hdata, hx⟩
    refine ⟨?_, throughout_quotationOf (fun _ => rfl) mode ?_ hx⟩
    · rintro rfl
      exact throughout_quotationOf (fun _ => rfl) .data rfl (hdata rfl)
    · cases mode <;> simp [quotationOf, Value.quotesReadably, Value.quoted?, hdata rfl]
  · intro levels mode inside hinside hnone hxs
    refine ⟨?_, isReadable_applicationOf (List.all_eq_true.2 fun x hx => (hxs x hx).2) ?_⟩
    · rintro rfl
      exact Value.throughout_list_iff.2 ⟨rfl, fun x hx => (hxs x hx).1 rfl⟩
    · intro args hargs
      have hlayout := startsWithLayout_skipLayout inside
      rcases eq_nil_of_quote_head_of_mode hlayout hnone hargs with hnil | hkinded
      · exact hnil
      · exact absurd (hkinded.trans hinside.isInfix) hfree

/-! ### Whole texts -/

theorem readExpression_of_expression {s : List Char} {v : Value}
    (h : expression maxNesting .code s = .ok (v, [])) (hcheck : v.checkForms = .ok ()) :
    readExpression (String.ofList s) = .ok v := by
  simp only [readExpression, String.toList_ofList, h, skipLayout_nil, hcheck]
  rfl

/-- What is read from the written form of data is what the data denotes. -/
theorem eq_reading_of_readExpression {d v : Value} (hd : d.Written maxNesting)
    (h : readExpression d.render = .ok v) : d.isReadable = true ∧ v = reading .code d := by
  obtain ⟨-, rest, hread, -⟩ := expression_of_readExpression h
  have hback := readsBack_of_written hd .code
  rw [Value.render, String.toList_ofList, ← List.append_nil d.text] at hread
  cases hreadable : d.isReadable with
  | true =>
    rw [hback.read [] endsWord_nil hreadable] at hread
    cases hread
    exact ⟨rfl, rfl⟩
  | false =>
    obtain ⟨e, he⟩ := hback.refuse [] endsWord_nil hreadable
    rw [he] at hread
    cases hread

theorem readExpression_render {text : String} {v : Value} (h : readExpression text = .ok v)
    (hreadable : v.isReadable = true) : readExpression v.render = .ok v := by
  obtain ⟨hcheck, rest, hread, -⟩ := expression_of_readExpression h
  have hwritten := written_of_expression ((expression_erases maxNesting .code).ok hread)
  have hback := (readsBack_of_written hwritten .code).read [] endsWord_nil
    (Value.isReadable_plain hreadable)
  rw [List.append_nil, Value.text_plain, reading_plain_of_expression hread hreadable] at hback
  exact readExpression_of_expression hback hcheck

theorem isDenotable_of_readExpression {text : String} {v : Value}
    (h : readExpression text = .ok v) : v.throughout Value.isDenotable = true := by
  obtain ⟨-, rest, hread, -⟩ := expression_of_readExpression h
  refine throughout_of_expression ?_ (fun _ => rfl) (fun _ => rfl) (fun _ _ => rfl) hread
  intro u hu
  cases u with
  | number | bool | string => rfl
  | _ => cases hu

/-- An expression that was read and printed is read again as the same value with the same printed
form just if it is readable, and it is unless `quote:any` stands somewhere in the text. -/
theorem reprinting_reads_back_iff (text : String) (v : Value) (h : readExpression text = .ok v) :
    ((∃ w, readExpression v.render = .ok w ∧ w.same v = true ∧ w.render = v.render) ↔
      v.isReadable = true) ∧
    (¬ kindedQuote <:+: text.toList →
      ∃ w, readExpression v.render = .ok w ∧ w.same v = true ∧ w.render = v.render) := by
  obtain ⟨-, rest, hread, -⟩ := expression_of_readExpression h
  have hback : v.isReadable = true →
      ∃ w, readExpression v.render = .ok w ∧ w.same v = true ∧ w.render = v.render :=
    fun hreadable => ⟨v, readExpression_render h hreadable,
      Value.same_self v (isDenotable_of_readExpression h), rfl⟩
  refine ⟨⟨?_, hback⟩, fun hfree => hback (isReadable_of_expression List.suffix_rfl hread hfree)⟩
  rintro ⟨w, hw, hsame, -⟩
  have hwritten := written_of_expression ((expression_erases maxNesting .code).ok hread)
  have hrender : v.plain.render = v.render := by rw [Value.render, Value.text_plain, Value.render]
  have hdenotable := isDenotable_of_readExpression hw
  obtain rfl := Value.eq_of_same hdenotable hsame
  rw [← hrender] at hw
  obtain ⟨hreadable, heq⟩ := eq_reading_of_readExpression hwritten hw
  rw [heq]
  exact isReadable_reading .code hreadable

theorem reprinting_reads_back_of_bound_names :
    ∃ v, readExpression "(let ((if '(a \"b\"))) (list if 'if))" = .ok v ∧
      v.render = "(let ((if (quote (a \"b\")))) (list if (quote if)))" ∧
      ∃ w, readExpression v.render = .ok w ∧ w.same v = true ∧ w.render = v.render := by
  have hread : readExpression "(let ((if '(a \"b\"))) (list if 'if))" =
      .ok (.op (.form .letIn) [
        .list [.list [.symbol ⟨"if", .any⟩,
          .op (.form .quote) [.list [.symbol ⟨"a", .any⟩, .string "b"]]]],
        .op (.primitive .list) [.symbol ⟨"if", .any⟩,
          .op (.form .quote) [.symbol ⟨"if", .any⟩]]]) := by cbv
  exact ⟨_, hread, by cbv, (reprinting_reads_back_iff _ _ hread).1.2 rfl⟩

/-- With its kind written out, the head `quote` lets a list be read that cannot be read again from
its printed form. -/
theorem kinded_quote_is_not_read_back :
    ∃ v e, readExpression "'(quote:any 1 2)" = .ok v ∧ v.render = "(quote (quote 1 2))" ∧
      readExpression v.render = .error e := by
  have hread : readExpression "'(quote:any 1 2)" =
      .ok (.op (.form .quote) [.list [.symbol ⟨"quote", .any⟩, .number 1, .number 2]]) := by cbv
  refine ⟨_, .source (.invalid "(quote (qu"), hread, by cbv, ?_⟩
  cbv

end Source
end LexicalLisp
