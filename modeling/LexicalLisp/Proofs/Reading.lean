import LexicalLisp.Source.Program

/-!
# Reading

A reader leaves a suffix of the text it is given. What holds of constants and symbols, and of
quotations and lists when it holds of what stands in them, holds of every expression that is read.
-/
namespace LexicalLisp

/-- The value is a number, a truth value or a string. -/
def Value.isConstant : Value → Bool
  | .number _ | .bool _ | .string _ => true
  | _ => false

namespace Source

/-- What the reader leaves is a suffix of the text. -/
def Reader.LeavesSuffix {α : Type} (r : Reader α) : Prop :=
  ∀ s x rest, r s = .ok (x, rest) → rest <:+ s

theorem Reader.or_eq_ok {α : Type} {first second : Reader α} {s : List Char} {r : α × List Char}
    (h : first.or second s = .ok r) : first s = .ok r ∨ second s = .ok r := by
  unfold Reader.or at h
  split at h
  case h_1 r' hr =>
    cases h
    exact Or.inl hr
  case h_2 => exact Or.inr h

theorem Reader.LeavesSuffix.or {α : Type} {first second : Reader α} (h : first.LeavesSuffix)
    (h' : second.LeavesSuffix) : (first.or second).LeavesSuffix := by
  intro s x rest hr
  rcases Reader.or_eq_ok hr with hr | hr
  · exact h s x rest hr
  · exact h' s x rest hr

/-! ### Lexemes -/

theorem sign_suffix (s : List Char) : (sign s).2 <:+ s := by
  unfold sign
  split
  · exact List.suffix_cons _ _
  · exact List.suffix_rfl

theorem decimal_eq_ok {s rest : List Char} {v : Value} (h : decimal s = .ok (v, rest)) :
    v.isConstant = true ∧ rest <:+ s := by
  simp only [decimal] at h
  split at h
  case isTrue => cases h
  case isFalse =>
    split at h
    case h_1 n _ =>
      cases h
      exact ⟨rfl, (List.dropWhile_suffix _).trans (sign_suffix s)⟩
    case h_2 => cases h

theorem hexadecimal_eq_ok {s rest : List Char} {v : Value} (h : hexadecimal s = .ok (v, rest)) :
    v.isConstant = true ∧ rest <:+ s := by
  unfold hexadecimal at h
  split at h
  case h_1 x digits =>
    split at h
    case isTrue =>
      simp only at h
      split at h
      case isTrue => cases h
      case isFalse =>
        split at h
        case h_1 n _ =>
          cases h
          refine ⟨rfl, (List.dropWhile_suffix _).trans ?_⟩
          exact (List.suffix_cons x digits).trans (List.suffix_cons '#' _)
        case h_2 => cases h
    case isFalse => cases h
  all_goals cases h

theorem boolean_eq_ok {s rest : List Char} {v : Value} (h : boolean s = .ok (v, rest)) :
    v.isConstant = true ∧ rest <:+ s := by
  unfold boolean at h
  split at h
  case h_3 => cases h
  all_goals
    cases h
    exact ⟨rfl, (List.suffix_cons _ _).trans (List.suffix_cons _ _)⟩

theorem decode_cons_eq_ok {c : Char} {s t rest : List Char}
    (h : (Text.Literal.decode s).map (fun (u, after) => (c :: u, after)) = .ok (t, rest)) :
    ∃ u, Text.Literal.decode s = .ok (u, rest) := by
  cases hd : Text.Literal.decode s with
  | error x => simp [hd, Except.map] at h
  | ok r =>
    obtain ⟨u, after⟩ := r
    simp only [hd, Except.map, Except.ok.injEq, Prod.mk.injEq] at h
    obtain ⟨-, rfl⟩ := h
    exact ⟨u, rfl⟩

/-- A character is no backslash if there is no case for one, neither at the end nor before a
letter. -/
theorem ne_backslash {c : Char} {s : List Char} (hend : c = '\\' → s = [] → False)
    (hescape : ∀ l rest, c = '\\' → s = l :: rest → False) : c ≠ '\\' := by
  intro hc
  cases s with
  | nil => exact hend hc rfl
  | cons l rest => exact hescape l rest hc rfl

/-- Induction over a literal that is read: its quote comes at once, or behind a character that is
written with a letter, or behind one that stands for itself. -/
theorem decode_induction {motive : List Char → List Char → List Char → Prop}
    (quote : ∀ rest, motive ('"' :: rest) [] rest)
    (escape : ∀ l c s t rest, Text.Literal.denoted? l = some c → motive s t rest →
      motive ('\\' :: l :: s) (c :: t) rest)
    (plain : ∀ c s t rest, c ≠ '"' → c ≠ '\\' → motive s t rest → motive (c :: s) (c :: t) rest)
    {s t rest : List Char} (h : Text.Literal.decode s = .ok (t, rest)) : motive s t rest := by
  induction s using Text.Literal.decode.induct generalizing t with
  | case1 => cases h
  | case2 after =>
    cases h
    exact quote rest
  | case3 => cases h
  | case4 l after hl =>
    simp only [Text.Literal.decode, hl] at h
    cases h
  | case5 l after c hl ih =>
    simp only [Text.Literal.decode, hl] at h
    obtain ⟨u, hu⟩ := decode_cons_eq_ok h
    rw [hu] at h
    cases h
    exact escape l c after u rest hl (ih hu)
  | case6 c after hquote hend hescape ih =>
    have hslash := ne_backslash hend hescape
    rw [Text.Literal.decode_cons hquote hslash] at h
    obtain ⟨u, hu⟩ := decode_cons_eq_ok h
    rw [hu] at h
    cases h
    exact plain c after u rest hquote hslash (ih hu)

theorem decode_suffix {s t rest : List Char} (h : Text.Literal.decode s = .ok (t, rest)) :
    rest <:+ s := by
  refine decode_induction (motive := fun s _ rest => rest <:+ s) ?_ ?_ ?_ h
  · exact fun rest => List.suffix_cons _ _
  · intro l c s t rest _ ih
    exact (ih.trans (List.suffix_cons l s)).trans (List.suffix_cons _ _)
  · intro c s t rest _ _ ih
    exact ih.trans (List.suffix_cons c s)

theorem string_eq_ok {s rest : List Char} {v : Value} (h : string s = .ok (v, rest)) :
    v.isConstant = true ∧ rest <:+ s := by
  unfold string at h
  split at h
  case h_1 inside =>
    split at h
    case h_1 t after hd =>
      cases h
      exact ⟨rfl, (decode_suffix hd).trans (List.suffix_cons _ _)⟩
    case h_2 => cases h
  case h_2 => cases h

theorem symbol_eq_ok {s rest : List Char} {v : Value} (h : symbol s = .ok (v, rest)) :
    ∃ a, v = .symbol a ∧ Symbol.ofWord? (s.takeWhile isWordChar) = some a ∧
      rest = s.dropWhile isWordChar := by
  simp only [symbol] at h
  split at h
  case isTrue => cases h
  case isFalse =>
    split at h
    case h_1 a ha =>
      cases h
      exact ⟨a, rfl, ha, rfl⟩
    case h_2 => cases h

theorem symbol_leavesSuffix : symbol.LeavesSuffix := by
  intro s v rest h
  obtain ⟨a, -, -, rfl⟩ := symbol_eq_ok h
  exact List.dropWhile_suffix _

/-! ### Lists -/

theorem skipLayout_eq_self {s : List Char} (h : startsWithLayout s = false) : skipLayout s = s := by
  cases s with
  | nil => rfl
  | cons c rest =>
    simp only [startsWithLayout, Bool.or_eq_false_iff] at h
    simp [skipLayout, skipFrom, h.1, h.2]

theorem skipLayout_skipLayout (s : List Char) : skipLayout (skipLayout s) = skipLayout s :=
  skipLayout_eq_self (startsWithLayout_skipLayout s)

theorem separator?_suffix {s t : List Char} (h : separator? s = some t) : t <:+ s := by
  unfold separator? at h
  split at h
  case isTrue =>
    cases h
    exact skipLayout_suffix s
  case isFalse => cases h

theorem length_lt_of_separator? {s t : List Char} (h : separator? s = some t) :
    t.length < s.length := by
  unfold separator? at h
  split at h
  case isFalse => cases h
  case isTrue hlayout =>
    cases h
    cases s with
    | nil => cases hlayout
    | cons c s =>
      have hskip : skipLayout (c :: s) <:+ s := by
        simp only [startsWithLayout, Bool.or_eq_true] at hlayout
        by_cases hblank : isBlank c = true
        · simp only [skipLayout, skipFrom, hblank, Bool.false_eq_true, if_false, if_true]
          exact skipFrom_suffix false s
        · simp only [skipLayout, skipFrom, hblank, hlayout.resolve_left hblank, Bool.false_eq_true,
            if_false, if_true]
          exact skipFrom_suffix true s
      exact Nat.lt_succ_of_le hskip.length_le

theorem quoteHead?_suffix {s t : List Char} (h : quoteHead? s = some t) : t <:+ s := by
  unfold quoteHead? at h
  split at h
  case h_1 rest =>
    have hrest : rest <:+ ['q', 'u', 'o', 't', 'e'] ++ rest := List.suffix_append _ rest
    exact (separator?_suffix h).trans hrest
  case h_2 => cases h

theorem char_eq_ok {c : Char} {s rest : List Char} {u : Unit} (h : char c s = .ok (u, rest)) :
    s = c :: rest := by
  unfold char at h
  split at h
  case h_1 => cases h
  case h_2 x after =>
    split at h
    case isTrue hx =>
      cases h
      rw [hx]
    case isFalse => cases h

/-- The further elements of a list, each read from a suffix of the text. -/
theorem furtherElements_spec {element : Reader Value} (hr : element.LeavesSuffix)
    (s : List Char) :
    (furtherElements element s).2 <:+ s ∧
      ∀ x ∈ (furtherElements element s).1, ∃ t rest, t <:+ s ∧ element t = .ok (x, rest) := by
  fun_induction furtherElements element s with
  | case1 s hs => exact ⟨List.suffix_rfl, by simp⟩
  | case2 s t hs x he => exact ⟨List.suffix_rfl, by simp⟩
  | case3 s t hs x rest he hlt xs after hxs ih =>
    rw [hxs] at ih
    obtain ⟨hsuffix, hread⟩ := ih
    have ht := separator?_suffix hs
    have hrest := (hr t x rest he).trans ht
    refine ⟨hsuffix.trans hrest, fun y hy => ?_⟩
    rcases List.mem_cons.1 hy with rfl | hy
    · exact ⟨t, rest, ht, he⟩
    · obtain ⟨u, rest', hu, hy⟩ := hread y hy
      exact ⟨u, rest', hu.trans hrest, hy⟩
  | case4 s t hs x rest he hlt =>
    have ht := separator?_suffix hs
    refine ⟨(hr t x rest he).trans ht, fun y hy => ?_⟩
    rw [List.mem_singleton.1 hy]
    exact ⟨t, rest, ht, he⟩

theorem elements_spec {element : Reader Value} (hr : element.LeavesSuffix) (s : List Char) :
    (elements element s).2 <:+ s ∧
      ∀ x ∈ (elements element s).1, ∃ t rest, t <:+ s ∧ element t = .ok (x, rest) := by
  unfold elements
  cases he : element s with
  | error x => exact ⟨List.suffix_rfl, by simp⟩
  | ok r =>
    obtain ⟨x, rest⟩ := r
    have hrest := hr s x rest he
    obtain ⟨hsuffix, hread⟩ := furtherElements_spec hr rest
    refine ⟨hsuffix.trans hrest, fun y hy => ?_⟩
    rcases List.mem_cons.1 hy with rfl | hy
    · exact ⟨s, rest, List.suffix_rfl, he⟩
    · obtain ⟨t, rest', ht, hy⟩ := hread y hy
      exact ⟨t, rest', ht.trans hrest, hy⟩

theorem quotation_eq_ok {datum : Reader Value} {mode : Mode} {s rest : List Char} {v : Value}
    (h : quotation datum mode s = .ok (v, rest)) :
    ∃ t x, s = '\'' :: t ∧ datum t = .ok (x, rest) ∧ v = quotationOf mode x := by
  unfold quotation at h
  split at h
  case h_1 t =>
    obtain ⟨⟨x, after⟩, hx, h⟩ := exists_of_bind_eq_ok h
    cases h
    exact ⟨t, x, rfl, hx, rfl⟩
  case h_2 => cases h

/-- A list is a quotation or an application of its elements. -/
theorem list_eq_ok {datum element : Reader Value} {mode : Mode} {s rest : List Char} {v : Value}
    (h : list datum element mode s = .ok (v, rest)) :
    ∃ inside, s = '(' :: inside ∧
      ((∃ t x after, quoteHead? (skipLayout inside) = some t ∧ datum t = .ok (x, after) ∧
          skipLayout after = ')' :: rest ∧ v = quotationOf mode x) ∨
        (quoteHead? (skipLayout inside) = none ∧
          skipLayout (elements element (skipLayout inside)).2 = ')' :: rest ∧
          v = applicationOf mode (elements element (skipLayout inside)).1)) := by
  unfold list at h
  split at h
  case h_1 inside =>
    refine ⟨inside, rfl, ?_⟩
    simp only at h
    split at h
    case h_1 t ht =>
      obtain ⟨⟨x, after⟩, hx, h⟩ := exists_of_bind_eq_ok h
      obtain ⟨⟨u, rest'⟩, hclose, h⟩ := exists_of_bind_eq_ok h
      cases h
      exact Or.inl ⟨t, x, after, ht, hx, char_eq_ok hclose, rfl⟩
    case h_2 hnone =>
      obtain ⟨⟨u, rest'⟩, hclose, h⟩ := exists_of_bind_eq_ok h
      cases h
      exact Or.inr ⟨hnone, char_eq_ok hclose, rfl⟩
  case h_2 => cases h

theorem expression_eq_ok {levels : Nat} {mode : Mode} {s rest : List Char} {v : Value}
    (h : expression (levels + 1) mode s = .ok (v, rest)) :
    quotation (expression levels .data) mode (skipLayout s) = .ok (v, rest) ∨
      list (expression levels .data) (expression levels mode) mode (skipLayout s) = .ok (v, rest) ∨
      symbol (skipLayout s) = .ok (v, rest) ∨ (v.isConstant = true ∧ rest <:+ skipLayout s) := by
  rcases Reader.or_eq_ok h with h | h
  · exact Or.inl h
  rcases Reader.or_eq_ok h with h | h
  · exact Or.inr (Or.inl h)
  refine Or.inr (Or.inr ?_)
  rcases Reader.or_eq_ok h with h | h
  · rcases Reader.or_eq_ok h with h | h
    · exact Or.inr (hexadecimal_eq_ok h)
    · exact Or.inr (decimal_eq_ok h)
  rcases Reader.or_eq_ok h with h | h
  · exact Or.inr (boolean_eq_ok h)
  rcases Reader.or_eq_ok h with h | h
  · exact Or.inr (string_eq_ok h)
  · exact Or.inl h

theorem expression_skipLayout (levels : Nat) (mode : Mode) (s : List Char) :
    expression (levels + 1) mode (skipLayout s) = expression (levels + 1) mode s := by
  simp only [expression, skipLayout_skipLayout]

theorem suffix_of_skipLayout {c : Char} {s rest : List Char} (h : skipLayout s = c :: rest) :
    rest <:+ s := by
  have hs := skipLayout_suffix s
  rw [h] at hs
  exact (List.suffix_cons c rest).trans hs

theorem expression_leavesSuffix (levels : Nat) (mode : Mode) :
    (expression levels mode).LeavesSuffix := by
  induction levels generalizing mode with
  | zero =>
    intro s v rest h
    cases h
  | succ levels ih =>
    intro s v rest h
    refine List.IsSuffix.trans ?_ (skipLayout_suffix s)
    rcases expression_eq_ok h with h | h | h | ⟨-, h⟩
    · obtain ⟨t, x, ht, hx, -⟩ := quotation_eq_ok h
      rw [ht]
      exact (ih .data t x rest hx).trans (List.suffix_cons _ t)
    · obtain ⟨inside, hs, h⟩ := list_eq_ok h
      rw [hs]
      refine List.IsSuffix.trans ?_ (List.suffix_cons _ inside)
      refine List.IsSuffix.trans ?_ (skipLayout_suffix inside)
      rcases h with ⟨t, x, after, ht, hx, hclose, -⟩ | ⟨-, hclose, -⟩
      · have hafter := (ih .data t x after hx).trans (quoteHead?_suffix ht)
        exact (suffix_of_skipLayout hclose).trans hafter
      · exact (suffix_of_skipLayout hclose).trans (elements_spec (ih mode) _).1
    · exact symbol_leavesSuffix _ v rest h
    · exact h

/-- What holds of constants, of symbols, of quotations of data, and of lists with their elements,
holds of all expressions that are read from the end of a text. -/
theorem expression_induction (text : List Char) {P : Mode → Value → Prop}
    (constant : ∀ mode v, v.isConstant = true → P mode v)
    (symbol : ∀ mode a, P mode (.symbol a))
    (quoted : ∀ mode x, P .data x → P mode (quotationOf mode x))
    (application : ∀ levels mode inside, skipLayout inside <:+ text →
      quoteHead? (skipLayout inside) = none →
      (∀ x ∈ (elements (expression levels mode) (skipLayout inside)).1, P mode x) →
        P mode (applicationOf mode (elements (expression levels mode) (skipLayout inside)).1))
    {levels : Nat} {mode : Mode} {s rest : List Char} {v : Value} (hs : s <:+ text)
    (h : expression levels mode s = .ok (v, rest)) : P mode v := by
  induction levels generalizing mode s rest v with
  | zero => cases h
  | succ levels ih =>
    have hskip := (skipLayout_suffix s).trans hs
    rcases expression_eq_ok h with h | h | h | ⟨h, -⟩
    · obtain ⟨t, x, ht, hx, rfl⟩ := quotation_eq_ok h
      rw [ht] at hskip
      exact quoted mode x (ih ((List.suffix_cons _ t).trans hskip) hx)
    · obtain ⟨inside, ht, h⟩ := list_eq_ok h
      rw [ht] at hskip
      have hinside := (skipLayout_suffix inside).trans ((List.suffix_cons _ inside).trans hskip)
      rcases h with ⟨t, x, after, ht, hx, -, rfl⟩ | ⟨hnone, -, rfl⟩
      · exact quoted mode x (ih ((quoteHead?_suffix ht).trans hinside) hx)
      · refine application levels mode inside hinside hnone fun x hx => ?_
        have hread := (elements_spec (expression_leavesSuffix levels mode) (skipLayout inside)).2
        obtain ⟨t, rest', ht, hx⟩ := hread x hx
        exact ih (ht.trans hinside) hx
    · obtain ⟨a, rfl, -, -⟩ := symbol_eq_ok h
      exact symbol mode a
    · exact constant mode v h

theorem expressions_forall {text input s : List Char} {P : Value → Prop} {vs : List Value}
    (hP : ∀ t rest v, t <:+ text → expression maxNesting .code t = .ok (v, rest) → P v)
    (hs : s <:+ text) (h : expressions input s = .ok vs) : ∀ v ∈ vs, P v := by
  induction s using expressions.induct generalizing vs with
  | case1 s hskip =>
    rw [expressions, hskip] at h
    cases h
    simp
  | case2 s failure hskip hread =>
    rw [expressions] at h
    split at h
    case h_1 hnil => exact absurd hnil hskip
    case h_2 =>
      rw [hread] at h
      cases h
  | case3 s v rest hskip hread ih =>
    have hsuffix := (skipLayout_suffix s).trans hs
    have hv := hP _ rest v hsuffix hread
    have hrest := (expression_leavesSuffix _ _ _ v rest hread).trans hsuffix
    rw [expressions] at h
    split at h
    case h_1 hnil => exact absurd hnil hskip
    case h_2 =>
      rw [hread] at h
      obtain ⟨-, -, h⟩ := exists_of_bind_eq_ok h
      split at h
      case isTrue hlt =>
        obtain ⟨us, hus, h⟩ := exists_of_bind_eq_ok h
        cases h
        intro u hu
        rcases List.mem_cons.1 hu with rfl | hu
        · exact hv
        · exact ih hlt hrest hus u hu
      case isFalse =>
        cases h
        intro u hu
        rw [List.mem_singleton.1 hu]
        exact hv

/-- What holds of every expression of code holds of the expressions of a program. -/
theorem readProgram_forall {text : String} {P : Value → Prop} {vs : List Value}
    (hP : ∀ t rest v, t <:+ text.toList → expression maxNesting .code t = .ok (v, rest) → P v)
    (h : readProgram text = .ok vs) : ∀ v ∈ vs, P v :=
  expressions_forall hP List.suffix_rfl h

end Source
end LexicalLisp
