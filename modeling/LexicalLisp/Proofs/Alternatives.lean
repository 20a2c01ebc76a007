import LexicalLisp.Proofs.FailurePlace

/-!
# The alternatives for an expression exclude each other

The first two characters of a text show which alternative can read it, and no other can. So the
alternatives may be tried in any order: the same texts are read, as the same expressions. A number
that does not fit shows what it is as well, and since it is not read as a number it is not read at
all.
-/
namespace LexicalLisp.Source

open Grammar

/-! ### Several alternatives -/

/-- The first of several alternatives that succeeds. If none does, the failure is that of the
last one. -/
def firstOf {α : Type} : List (Reader α) → Reader α
  | [] => fun s => .error ⟨.lexeme, s⟩
  | [r] => r
  | r :: q :: rs => r.or (firstOf (q :: rs))

/-- No text is read by both. -/
def Reader.Excludes {α : Type} (r q : Reader α) : Prop :=
  ∀ s x y, r s = .ok x → q s ≠ .ok y

/-- The same texts are read by both, and alike. -/
def Reader.SameReads {α : Type} (r q : Reader α) : Prop := ∀ s x, r s = .ok x ↔ q s = .ok x

section FirstOf

variable {α : Type} {rs qs : List (Reader α)} {r q : Reader α} {s : List Char} {x : α × List Char}

theorem firstOf_cons_of_error (h : ∃ f, r s = .error f) (hne : rs ≠ []) :
    firstOf (r :: rs) s = firstOf rs s := by
  obtain ⟨f, hf⟩ := h
  obtain ⟨q, rs, rfl⟩ := List.exists_cons_of_ne_nil hne
  exact Reader.or_eq_of_error hf

theorem firstOf_cons_of_ok (h : r s = .ok x) (rs : List (Reader α)) :
    firstOf (r :: rs) s = .ok x := by
  cases rs with
  | nil => exact h
  | cons q rs => exact Reader.or_eq_of_ok h

theorem exists_of_firstOf (h : firstOf rs s = .ok x) : ∃ r ∈ rs, r s = .ok x := by
  induction rs with
  | nil => cases h
  | cons r rs ih =>
    cases hr : r s with
    | ok y =>
      rw [firstOf_cons_of_ok hr] at h
      exact ⟨r, List.mem_cons_self, hr.trans h⟩
    | error f =>
      by_cases hnil : rs = []
      · subst hnil
        exact ⟨r, List.mem_cons_self, h⟩
      · rw [firstOf_cons_of_error ⟨f, hr⟩ hnil] at h
        obtain ⟨q, hq, hread⟩ := ih h
        exact ⟨q, List.mem_cons_of_mem r hq, hread⟩

/-- If the alternatives exclude each other, the first that reads a text is the only one. -/
theorem firstOf_eq_ok_iff (hrs : rs.Pairwise Reader.Excludes) :
    firstOf rs s = .ok x ↔ ∃ r ∈ rs, r s = .ok x := by
  refine ⟨exists_of_firstOf, ?_⟩
  induction rs with
  | nil => simp
  | cons r rs ih =>
    rw [List.pairwise_cons] at hrs
    rintro ⟨q, hmem, hq⟩
    rcases List.mem_cons.1 hmem with rfl | hmem
    · exact firstOf_cons_of_ok hq rs
    cases hr : r s with
    | ok y => exact absurd hq (hrs.1 q hmem s y x hr)
    | error f =>
      rw [firstOf_cons_of_error ⟨f, hr⟩ (List.ne_nil_of_mem hmem)]
      exact ih hrs.2 ⟨q, hmem, hq⟩

theorem Reader.Excludes.symm (h : r.Excludes q) : q.Excludes r :=
  fun s x y hq hr => h s y x hr hq

/-- Alternatives that exclude each other may be tried in any order. -/
theorem firstOf_perm (hrs : rs.Pairwise Reader.Excludes) (hperm : qs.Perm rs) :
    (firstOf qs).SameReads (firstOf rs) := by
  have hqs : qs.Pairwise Reader.Excludes := hperm.symm.pairwise hrs Reader.Excludes.symm
  intro s x
  rw [firstOf_eq_ok_iff hqs, firstOf_eq_ok_iff hrs]
  exact exists_congr fun r => and_congr_left fun _ => hperm.mem_iff

/-- The failure is that of the last alternative, whatever the order of the others. -/
theorem firstOf_eq_error {f : Failure} (h : firstOf rs s = .error f)
    (hlast : rs.getLast? = some r) : r s = .error f := by
  induction rs with
  | nil => cases hlast
  | cons q rs ih =>
    by_cases hnil : rs = []
    · subst hnil
      cases hlast
      exact h
    · obtain ⟨p, rs, rfl⟩ := List.exists_cons_of_ne_nil hnil
      rw [List.getLast?_cons_cons] at hlast
      exact ih (Reader.or_eq_error h) hlast

end FirstOf

/-! ### What a text shows at its front -/

/-- What the first two characters of a text announce. -/
inductive Front where
  | quoteMark
  | parenthesis
  | hexadecimal
  | decimal
  | truth
  | literal
  | word
  deriving DecidableEq

def Front.of : List Char → Front
  | [] => .word
  | c :: s =>
    if c = '\'' then .quoteMark
    else if c = '(' then .parenthesis
    else if c = '"' then .literal
    else if c = '#' then
      if s.head? = some 'x' ∨ s.head? = some 'X' then .hexadecimal else .truth
    else if c.isDigit ∨ c = '-' ∧ s.head?.any Char.isDigit then .decimal
    else .word

/-- The reader takes only texts with these fronts. -/
def Reader.TakesOnly {α : Type} (r : Reader α) (fronts : List Front) : Prop :=
  ∀ s x, r s = .ok x → Front.of s ∈ fronts

theorem Reader.TakesOnly.excludes {α : Type} {r q : Reader α} {fronts fronts' : List Front}
    (h : r.TakesOnly fronts) (h' : q.TakesOnly fronts') (hdisjoint : fronts.Disjoint fronts') :
    r.Excludes q :=
  fun s x y hr hq => hdisjoint (h s x hr) (h' s y hq)

theorem quotation_takesOnly (datum : Reader Value) (mode : Mode) :
    (quotation datum mode).TakesOnly [.quoteMark] := by
  intro s x h
  obtain ⟨t, _, rfl, -, -⟩ := quotation_eq_ok h
  simp [Front.of]

theorem list_takesOnly (datum element : Reader Value) (mode : Mode) :
    (list datum element mode).TakesOnly [.parenthesis] := by
  intro s x h
  obtain ⟨inside, rfl, -⟩ := list_eq_ok h
  simp [Front.of]

theorem string_takesOnly : string.TakesOnly [.literal] := by
  intro s x h
  unfold string at h
  split at h
  case h_1 => simp [Front.of]
  case h_2 => cases h

theorem boolean_takesOnly : boolean.TakesOnly [.truth] := by
  intro s x h
  unfold boolean at h
  split at h
  case h_3 => cases h
  all_goals simp [Front.of]

theorem hexadecimal_takesOnly : hexadecimal.TakesOnly [.hexadecimal] := by
  intro s x h
  unfold hexadecimal at h
  split at h
  case h_1 mark s =>
    split at h
    case isTrue hmark => simp [Front.of, hmark]
    case isFalse => cases h
  all_goals cases h

/-- What may stand in a name is no mark. -/
theorem front_of_isNameChar {c : Char} (h : Symbol.isNameChar c = true) (s : List Char) :
    Front.of (c :: s) =
      if c.isDigit ∨ c = '-' ∧ s.head?.any Char.isDigit then .decimal else .word := by
  have hne := fun x => Symbol.ne_of_isNameChar h (x := x)
  rw [Front.of, if_neg (hne '\'' (by decide)), if_neg (hne '(' (by decide)),
    if_neg (hne '"' (by decide)), if_neg (hne '#' (by decide))]

/-- Digits announce a decimal number, behind a minus sign or not. -/
theorem front_of_digits {negative : Bool} {s digits rest : List Char}
    (hs : sign s = (negative, digits ++ rest)) (hne : digits ≠ [])
    (hdigits : ∀ c ∈ digits, c.isDigit = true) : Front.of s = .decimal := by
  obtain ⟨d, digits, rfl⟩ := List.exists_cons_of_ne_nil hne
  have hd := hdigits d List.mem_cons_self
  rcases sign_cases s with ⟨u, rfl, hsign⟩ | hsign
  · rw [hsign] at hs
    cases hs
    rw [front_of_isNameChar (by decide), if_pos (Or.inr ⟨rfl, hd⟩)]
  · rw [hsign] at hs
    cases hs
    rw [List.cons_append, front_of_isNameChar (Symbol.isNameChar_of_isDigit hd),
      if_pos (Or.inl hd)]

theorem decimal_takesOnly : decimal.TakesOnly [.decimal] := by
  intro s x h
  simp only [decimal] at h
  split at h
  case isTrue => cases h
  case isFalse hne =>
    rw [List.isEmpty_iff] at hne
    have hunsigned := List.takeWhile_append_dropWhile (p := Char.isDigit) (l := (sign s).2)
    exact List.mem_singleton.2 (front_of_digits (Prod.ext rfl hunsigned.symm) hne mem_takeWhile)

/-- A symbol is a name with something behind it that does not begin with a digit. -/
theorem exists_name_of_symbol {s : List Char} {x : Value × List Char} (h : symbol s = .ok x) :
    ∃ name tail, s = name ++ tail ∧ Symbol.isName name = true ∧
      ∀ d ∈ tail.head?, d.isDigit = false := by
  obtain ⟨v, rest⟩ := x
  obtain ⟨a, -, hword, -⟩ := symbol_eq_ok h
  have hname := Symbol.isName_of_ofWord? hword
  have hs := List.takeWhile_append_dropWhile (p := isWordChar) (l := s)
  have hend : EndsWord (s.dropWhile isWordChar) := by
    intro c hc
    have hhead := List.head?_dropWhile_not isWordChar s
    rw [hc] at hhead
    simpa using hhead
  rcases Symbol.eq_of_ofWord? hword with ⟨hbare, -⟩ | htyped
  · rw [hbare] at hs
    exact ⟨_, _, hs.symm, hname, isDigit_of_endsWord hend⟩
  · rw [htyped, List.append_assoc, List.cons_append] at hs
    exact ⟨_, _, hs.symm, hname, isDigit_of_colon _⟩

theorem symbol_takesOnly : symbol.TakesOnly [.word] := by
  intro s x h
  obtain ⟨name, tail, rfl, hname, htail⟩ := exists_name_of_symbol h
  obtain ⟨c, name, rfl⟩ := Symbol.exists_cons_of_isName hname
  obtain ⟨hdigit, hminus, hchars⟩ := Symbol.isName_cons_iff.1 hname
  rw [List.cons_append, front_of_isNameChar (hchars c List.mem_cons_self), if_neg]
  · exact List.mem_singleton_self _
  have hbehind : c = '-' → ∀ d ∈ (name ++ tail).head?, d.isDigit = false := by
    cases name with
    | nil => exact fun _ => htail
    | cons d name => exact hminus
  rintro (hc | ⟨hc, hnext⟩)
  · rw [hdigit] at hc
    cases hc
  · obtain ⟨d, hd, hnext⟩ := (Option.any_eq_true _ _).1 hnext
    rw [hbehind hc d hd] at hnext
    cases hnext

/-! ### The alternatives of the reader -/

/-- The readers that are tried for an expression, in this order. -/
def alternatives (numeric datum element : Reader Value) (mode : Mode) : List (Reader Value) :=
  [quotation datum mode, list datum element mode, numeric, boolean, string, symbol]

theorem expression_eq_firstOf (levels : Nat) (mode : Mode) (s : List Char) :
    expression (levels + 1) mode s =
      firstOf (alternatives number (expression levels .data) (expression levels mode) mode)
        (skipLayout s) := rfl

theorem number_eq_firstOf : number = firstOf [hexadecimal, decimal] := rfl

/-- Readers exclude each other if no front is taken by two of them. -/
theorem pairwise_excludes {α : Type} {rs : List (Reader α)} {fronts : List (List Front)}
    (h : List.Forall₂ Reader.TakesOnly rs fronts) (hdisjoint : fronts.Pairwise List.Disjoint) :
    rs.Pairwise Reader.Excludes := by
  have hlength := h.length_eq
  rw [List.pairwise_iff_getElem] at hdisjoint ⊢
  intro i j hi hj hij
  have hri := h.get hi (hlength ▸ hi)
  have hrj := h.get hj (hlength ▸ hj)
  exact hri.excludes hrj (hdisjoint i j _ _ hij)

theorem alternatives_takesOnly {numeric : Reader Value}
    (hnumeric : numeric.TakesOnly [.hexadecimal, .decimal]) (datum element : Reader Value)
    (mode : Mode) :
    List.Forall₂ Reader.TakesOnly (alternatives numeric datum element mode)
      [[.quoteMark], [.parenthesis], [.hexadecimal, .decimal], [.truth], [.literal], [.word]] :=
  .cons (quotation_takesOnly datum mode) <| .cons (list_takesOnly datum element mode) <|
    .cons hnumeric <| .cons boolean_takesOnly <| .cons string_takesOnly <|
      .cons symbol_takesOnly .nil

theorem pairwise_alternatives {numeric : Reader Value}
    (hnumeric : numeric.TakesOnly [.hexadecimal, .decimal]) (datum element : Reader Value)
    (mode : Mode) : (alternatives numeric datum element mode).Pairwise Reader.Excludes :=
  pairwise_excludes (alternatives_takesOnly hnumeric datum element mode) (by simp)

theorem pairwise_numeric : [hexadecimal, decimal].Pairwise Reader.Excludes :=
  pairwise_excludes (.cons hexadecimal_takesOnly (.cons decimal_takesOnly .nil)) (by simp)

theorem numeric_takesOnly {rs : List (Reader Value)} (h : rs.Perm [hexadecimal, decimal]) :
    (firstOf rs).TakesOnly [.hexadecimal, .decimal] := by
  intro s x hread
  obtain ⟨r, hr, hread⟩ := exists_of_firstOf hread
  rcases List.mem_pair.1 (h.mem_iff.1 hr) with rfl | rfl
  · exact List.mem_append_left [.decimal] (hexadecimal_takesOnly s x hread)
  · exact List.mem_cons_of_mem _ (decimal_takesOnly s x hread)

theorem number_takesOnly : number.TakesOnly [.hexadecimal, .decimal] :=
  numeric_takesOnly (.refl _)

/-! ### The same parts are read -/

section SameReads

variable {datum datum' element element' r : Reader Value} {mode : Mode} {s : List Char}

theorem Reader.SameReads.symm (h : element.SameReads element') : element'.SameReads element :=
  fun s x => (h s x).symm

theorem Reader.SameReads.trans (h : element.SameReads element') (h' : element'.SameReads r) :
    element.SameReads r :=
  fun s x => (h s x).trans (h' s x)

theorem Reader.SameReads.error {f : Failure} (h : element.SameReads element')
    (hf : element s = .error f) : ∃ f', element' s = .error f' := by
  cases hread : element' s with
  | error f' => exact ⟨f', rfl⟩
  | ok x =>
    rw [(h s x).2 hread] at hf
    cases hf

theorem quotation_of_sameReads (h : datum.SameReads datum') {x : Value × List Char}
    (hread : quotation datum mode s = .ok x) : quotation datum' mode s = .ok x := by
  obtain ⟨v, rest⟩ := x
  obtain ⟨t, y, rfl, hy, rfl⟩ := quotation_eq_ok hread
  simp only [quotation, (h t _).1 hy]
  rfl

theorem quotation_sameReads (h : datum.SameReads datum') (mode : Mode) :
    (quotation datum mode).SameReads (quotation datum' mode) :=
  fun _ _ => ⟨quotation_of_sameReads h, quotation_of_sameReads h.symm⟩

/-- The elements of a list end where one cannot be read, and why it cannot does not matter. -/
theorem furtherElements_of_sameReads (h : element.SameReads element') (s : List Char) :
    furtherElements element s = furtherElements element' s := by
  fun_induction furtherElements element s with
  | case1 s hsep => rw [furtherElements, hsep]
  | case2 s t hsep f hf =>
    obtain ⟨f', hf'⟩ := h.error hf
    rw [furtherElements, hsep]
    simp only [hf']
  | case3 s t hsep x rest hx hlt xs after hxs ih =>
    rw [furtherElements_of_read hsep ((h t _).1 hx) hlt, ← ih, hxs]
  | case4 s t hsep x rest hx hlt =>
    rw [furtherElements, hsep]
    simp only [(h t _).1 hx, if_neg hlt]

theorem elements_of_sameReads (h : element.SameReads element') (s : List Char) :
    elements element s = elements element' s := by
  unfold elements
  cases hread : element s with
  | ok x => simp only [(h s x).1 hread, furtherElements_of_sameReads h]
  | error f =>
    obtain ⟨f', hf'⟩ := h.error hread
    simp only [hf']

theorem list_of_sameReads (hdatum : datum.SameReads datum') (helement : element.SameReads element')
    {x : Value × List Char} (hread : list datum element mode s = .ok x) :
    list datum' element' mode s = .ok x := by
  obtain ⟨v, rest⟩ := x
  obtain ⟨inside, rfl, ⟨t, y, after, hquote, hy, hclose, rfl⟩ | ⟨hquote, hclose, rfl⟩⟩ :=
    list_eq_ok hread
  · exact list_of_quote element' mode rfl hquote ((hdatum t _).1 hy) hclose
  · rw [elements_of_sameReads helement] at hclose ⊢
    exact list_of_elements datum' mode rfl hquote rfl hclose

theorem list_sameReads (hdatum : datum.SameReads datum') (helement : element.SameReads element')
    (mode : Mode) : (list datum element mode).SameReads (list datum' element' mode) :=
  fun _ _ => ⟨list_of_sameReads hdatum helement, list_of_sameReads hdatum.symm helement.symm⟩

/-- What is read depends on what the parts read only. -/
theorem alternatives_sameReads {numeric numeric' : Reader Value}
    (hnumeric : numeric.TakesOnly [.hexadecimal, .decimal])
    (hnumeric' : numeric'.TakesOnly [.hexadecimal, .decimal])
    (hnumber : numeric.SameReads numeric') (hdatum : datum.SameReads datum')
    (helement : element.SameReads element') (mode : Mode) :
    (firstOf (alternatives numeric datum element mode)).SameReads
      (firstOf (alternatives numeric' datum' element' mode)) := by
  intro s x
  rw [firstOf_eq_ok_iff (pairwise_alternatives hnumeric datum element mode),
    firstOf_eq_ok_iff (pairwise_alternatives hnumeric' datum' element' mode)]
  simp only [alternatives, List.mem_cons, List.not_mem_nil, or_false, exists_eq_or_imp,
    exists_eq_left, quotation_sameReads hdatum mode s x, list_sameReads hdatum helement mode s x,
    hnumber s x]

end SameReads

/-! ### Other orders -/

/-- Reads an expression as `expression` does, but tries the alternatives for an expression and
those for a number in the order that `arrange` puts them in. -/
def expressionIn (arrange : List (Reader Value) → List (Reader Value)) : Nat → Mode → Reader Value
  | 0, _ => fun s => .error ⟨.level, s⟩
  | levels + 1, mode => fun s =>
    firstOf (arrange (alternatives (firstOf (arrange [hexadecimal, decimal]))
      (expressionIn arrange levels .data) (expressionIn arrange levels mode) mode)) (skipLayout s)

section Order

variable {arrange : List (Reader Value) → List (Reader Value)}

theorem expressionIn_sameReads (harrange : ∀ rs, (arrange rs).Perm rs) (levels : Nat)
    (mode : Mode) : (expressionIn arrange levels mode).SameReads (expression levels mode) := by
  induction levels generalizing mode with
  | zero => exact fun s x => Iff.rfl
  | succ levels ih =>
    have hnumeric := numeric_takesOnly (harrange [hexadecimal, decimal])
    have hnumber := firstOf_perm pairwise_numeric (harrange [hexadecimal, decimal])
    have hparts :=
      alternatives_sameReads hnumeric number_takesOnly hnumber (ih .data) (ih mode) mode
    have hexclude := pairwise_alternatives hnumeric (expressionIn arrange levels .data)
      (expressionIn arrange levels mode) mode
    exact fun s => ((firstOf_perm hexclude (harrange _)).trans hparts) (skipLayout s)

/-- If the symbol stays last, the failures stay the same as well. -/
theorem expressionIn_eq_expression (harrange : ∀ rs, (arrange rs).Perm rs)
    (hlast : ∀ rs, (arrange rs).getLast? = rs.getLast?) (levels : Nat) (mode : Mode) :
    expressionIn arrange levels mode = expression levels mode := by
  cases levels with
  | zero => rfl
  | succ levels =>
    funext s
    have hsame := expressionIn_sameReads harrange (levels + 1) mode
    cases hread : expressionIn arrange (levels + 1) mode s with
    | ok x => exact ((hsame s x).1 hread).symm
    | error f =>
      obtain ⟨f', hf'⟩ := hsame.error hread
      rw [expressionIn] at hread
      rw [hf', expression_eq_error hf', symbol_eq_error (firstOf_eq_error hread (hlast _))]

end Order

/-! ### Written numbers -/

/-- A number stands written at the front of a text, in either base: all of its digits, and behind
them the rest. -/
inductive WrittenNumber : List Char → Int → List Char → Prop
  | decimal {digits rest : List Char} (hne : digits ≠ [])
      (hdigits : ∀ c ∈ digits, c.isDigit = true) (hend : ∀ c ∈ rest.head?, c.isDigit = false) :
      WrittenNumber (digits ++ rest) (numeral 10 digits) rest
  | negative {digits rest : List Char} (hne : digits ≠ [])
      (hdigits : ∀ c ∈ digits, c.isDigit = true) (hend : ∀ c ∈ rest.head?, c.isDigit = false) :
      WrittenNumber ('-' :: (digits ++ rest)) (-(numeral 10 digits : Int)) rest
  | hexadecimal {mark : Char} {digits rest : List Char} (hmark : mark = 'x' ∨ mark = 'X')
      (hne : digits ≠ []) (hdigits : ∀ c ∈ digits, Numeral.isHexDigit c = true)
      (hend : ∀ c ∈ rest.head?, Numeral.isHexDigit c = false) :
      WrittenNumber ('#' :: mark :: (digits ++ rest)) (numeral 16 digits) rest

section Written

variable {s digits rest : List Char} {x : Value × List Char}

theorem hexadecimal_eq_ok_iff {mark : Char} (hmark : mark = 'x' ∨ mark = 'X') (hne : digits ≠ [])
    (hdigits : ∀ c ∈ digits, Numeral.isHexDigit c = true)
    (hend : ∀ c ∈ rest.head?, Numeral.isHexDigit c = false) :
    hexadecimal ('#' :: mark :: (digits ++ rest)) = .ok x ↔
      ∃ m : Int64, m.toInt = numeral 16 digits ∧ x = (.number m, rest) := by
  obtain ⟨htake, hdrop⟩ := takeWhile_append hdigits rest hend
  simp only [hexadecimal, if_pos hmark, htake, hdrop, List.isEmpty_iff, if_neg hne,
    ← ofHexadecimal?_eq_some_iff]
  cases Numeral.ofHexadecimal? digits with
  | some n => simp [eq_comm]
  | none => simp

theorem decimal_eq_ok_iff {negative : Bool} (hs : sign s = (negative, digits ++ rest))
    (hne : digits ≠ []) (hdigits : ∀ c ∈ digits, c.isDigit = true)
    (hend : ∀ c ∈ rest.head?, c.isDigit = false) :
    decimal s = .ok x ↔ ∃ m : Int64,
      m.toInt = (if negative then -(numeral 10 digits : Int) else numeral 10 digits) ∧
        x = (.number m, rest) := by
  obtain ⟨htake, hdrop⟩ := takeWhile_append hdigits rest hend
  simp only [decimal, hs, htake, hdrop, List.isEmpty_iff, if_neg hne,
    ← ofDecimal?_eq_some_iff hdigits]
  cases Numeral.ofDecimal? negative digits with
  | some n => simp [eq_comm]
  | none => simp

/-- What begins as a decimal number is read as one or not as a number at all. -/
theorem number_eq_ok_iff_of_decimal {negative : Bool} (hs : sign s = (negative, digits ++ rest))
    (hne : digits ≠ []) (hdigits : ∀ c ∈ digits, c.isDigit = true) :
    number s = .ok x ↔ decimal s = .ok x := by
  have hfront := front_of_digits hs hne hdigits
  have hhex : hexadecimal s ≠ .ok x := by
    intro h
    have hmem := hexadecimal_takesOnly s x h
    rw [hfront] at hmem
    cases List.mem_singleton.1 hmem
  simp [number_eq_firstOf, firstOf_eq_ok_iff pairwise_numeric, hhex]

/-- What announces a number is read as a number or not at all. -/
theorem number_of_mem_alternatives {datum element r : Reader Value} {mode : Mode}
    (hfront : Front.of s ∈ [.hexadecimal, .decimal])
    (hr : r ∈ alternatives number datum element mode) (h : r s = .ok x) : number s = .ok x := by
  have hother : ∀ {q : Reader Value} {front : Front}, q.TakesOnly [front] →
      front ∉ [.hexadecimal, .decimal] → q s ≠ .ok x := by
    intro q front hq hne hread
    rw [List.mem_singleton.1 (hq s x hread)] at hfront
    exact hne hfront
  simp only [alternatives, List.mem_cons, List.not_mem_nil, or_false] at hr
  rcases hr with rfl | rfl | rfl | rfl | rfl | rfl
  · exact absurd h (hother (quotation_takesOnly datum mode) (by decide))
  · exact absurd h (hother (list_takesOnly datum element mode) (by decide))
  · exact h
  · exact absurd h (hother boolean_takesOnly (by decide))
  · exact absurd h (hother string_takesOnly (by decide))
  · exact absurd h (hother symbol_takesOnly (by decide))

variable {n : Int}

theorem sign_of_digits (hne : digits ≠ []) (hdigits : ∀ c ∈ digits, c.isDigit = true) :
    sign (digits ++ rest) = (false, digits ++ rest) := by
  obtain ⟨d, digits, rfl⟩ := List.exists_cons_of_ne_nil hne
  refine sign_of_head ?_
  rintro c hc rfl
  cases hc
  exact absurd (hdigits '-' List.mem_cons_self) (by decide)

theorem front_of_written (h : WrittenNumber s n rest) :
    Front.of s ∈ [.hexadecimal, .decimal] := by
  cases h with
  | decimal hne hdigits =>
    simp [front_of_digits (sign_of_digits hne hdigits) hne hdigits]
  | @negative digits _ hne hdigits =>
    have hsign : sign ('-' :: (digits ++ rest)) = (true, digits ++ rest) := rfl
    simp [front_of_digits hsign hne hdigits]
  | hexadecimal hmark => simp [Front.of, hmark]

/-- A number is read whole, if it fits. -/
theorem number_of_written (h : WrittenNumber s n rest) :
    number s = .ok x ↔ ∃ m : Int64, m.toInt = n ∧ x = (.number m, rest) := by
  cases h with
  | @decimal digits _ hne hdigits hend =>
    have hsign : sign (digits ++ rest) = (false, digits ++ rest) := sign_of_digits hne hdigits
    rw [number_eq_ok_iff_of_decimal hsign hne hdigits, decimal_eq_ok_iff hsign hne hdigits hend]
    rfl
  | @negative digits _ hne hdigits hend =>
    have hsign : sign ('-' :: (digits ++ rest)) = (true, digits ++ rest) := rfl
    rw [number_eq_ok_iff_of_decimal hsign hne hdigits, decimal_eq_ok_iff hsign hne hdigits hend]
    rfl
  | @hexadecimal mark digits _ hmark hne hdigits hend =>
    have hdecimal : decimal ('#' :: mark :: (digits ++ rest)) ≠ .ok x := by
      intro h
      have hmem := decimal_takesOnly _ x h
      simp [Front.of, hmark] at hmem
    rw [← hexadecimal_eq_ok_iff hmark hne hdigits hend, number_eq_firstOf,
      firstOf_eq_ok_iff pairwise_numeric]
    simp [hdecimal]

theorem expression_of_written (h : WrittenNumber (skipLayout s) n rest) (levels : Nat)
    (mode : Mode) : expression (levels + 1) mode s = .ok x ↔
      ∃ m : Int64, m.toInt = n ∧ x = (.number m, rest) := by
  have hexclude := pairwise_alternatives number_takesOnly (expression levels .data)
    (expression levels mode) mode
  rw [← number_of_written h, expression_eq_firstOf, firstOf_eq_ok_iff hexclude]
  constructor
  · rintro ⟨r, hr, hread⟩
    exact number_of_mem_alternatives (front_of_written h) hr hread
  · exact fun hread => ⟨number, by simp [alternatives], hread⟩

end Written

/-- Of the alternatives for an expression no two read the same text, whatever the depth and the
mode, and neither do the two for a number. So the order in which they are tried decides neither
which texts are read nor as what; even the failures are the same, as long as the symbol stays the
last. In particular a written number is read whole if it fits, and no alternative takes anything
from it if it does not. -/
theorem alternatives_exclude_each_other :
    (∀ levels mode s, expression (levels + 1) mode s =
      firstOf (alternatives number (expression levels .data) (expression levels mode) mode)
        (skipLayout s)) ∧
    number = firstOf [hexadecimal, decimal] ∧
    (∀ datum element mode, (alternatives number datum element mode).Pairwise Reader.Excludes) ∧
    [hexadecimal, decimal].Pairwise Reader.Excludes ∧
    (∀ arrange : List (Reader Value) → List (Reader Value), (∀ rs, (arrange rs).Perm rs) →
      ∀ levels mode, (expressionIn arrange levels mode).SameReads (expression levels mode) ∧
        ((∀ rs, (arrange rs).getLast? = rs.getLast?) →
          expressionIn arrange levels mode = expression levels mode)) ∧
    ∀ s n rest, WrittenNumber (skipLayout s) n rest →
      (Numeral.Fits n → ∃ m : Int64, m.toInt = n ∧
        ∀ levels mode, expression (levels + 1) mode s = .ok (.number m, rest)) ∧
      (¬ Numeral.Fits n →
        (∀ datum element mode, ∀ r ∈ alternatives number datum element mode,
          ∀ x, r (skipLayout s) ≠ .ok x) ∧
        ∀ levels mode x, expression levels mode s ≠ .ok x) := by
  refine ⟨expression_eq_firstOf, number_eq_firstOf, pairwise_alternatives number_takesOnly,
    pairwise_numeric, fun arrange harrange levels mode =>
      ⟨expressionIn_sameReads harrange levels mode,
        fun hlast => expressionIn_eq_expression harrange hlast levels mode⟩, ?_⟩
  intro s n rest h
  constructor
  · intro hfits
    have hm := Numeral.toInt_ofInt_of_fits hfits
    refine ⟨Int64.ofInt n, hm, fun levels mode => ?_⟩
    exact (expression_of_written h levels mode).2 ⟨_, hm, rfl⟩
  · intro hfits
    have hnumber : ∀ x, number (skipLayout s) ≠ .ok x := by
      intro x hread
      obtain ⟨m, rfl, -⟩ := (number_of_written h).1 hread
      exact hfits (Numeral.fits_toInt m)
    refine ⟨fun datum element mode r hr x hread => ?_, fun levels mode x hread => ?_⟩
    · exact hnumber x (number_of_mem_alternatives (front_of_written h) hr hread)
    · cases levels with
      | zero => cases hread
      | succ levels =>
        rw [expression_of_written h, ← number_of_written h] at hread
        exact hnumber x hread

/-- Backwards, and backwards up to the symbol. The least integer is read whole, and without its
sign it is not read. -/
theorem alternatives_exclude_each_other_of_least_integer :
    (expressionIn List.reverse maxNesting .code).SameReads (expression maxNesting .code) ∧
    expressionIn (fun rs => rs.dropLast.reverse ++ rs.getLast?.toList) maxNesting .code =
      expression maxNesting .code ∧
    (∃ m : Int64, m.toInt = -9223372036854775808 ∧ ∀ levels mode,
      expression (levels + 1) mode " -9223372036854775808)".toList = .ok (.number m, [')'])) ∧
    (∀ levels mode x, expression levels mode " 9223372036854775808:int".toList ≠ .ok x) ∧
    ∀ levels mode x, expression levels mode "#x8000000000000000".toList ≠ .ok x := by
  obtain ⟨-, -, -, -, horder, hnumber⟩ := alternatives_exclude_each_other
  have hperm : ∀ rs : List (Reader Value), (rs.dropLast.reverse ++ rs.getLast?.toList).Perm rs := by
    intro rs
    cases rs using List.reverseRecOn with
    | nil => exact .refl _
    | append_singleton rs r => simpa using (rs.reverse_perm).append_right [r]
  have hlast : ∀ rs : List (Reader Value),
      (rs.dropLast.reverse ++ rs.getLast?.toList).getLast? = rs.getLast? := by
    intro rs
    cases rs using List.reverseRecOn with
    | nil => rfl
    | append_singleton rs r => simp
  have hdigits : ∀ c ∈ "9223372036854775808".toList, c.isDigit = true :=
    List.all_eq_true.1 (by decide)
  have hvalue : numeral 10 "9223372036854775808".toList = 9223372036854775808 := by decide
  have hleast : WrittenNumber (skipLayout " -9223372036854775808)".toList)
      (-9223372036854775808) [')'] := by
    have h := @WrittenNumber.negative _ [')'] (by decide) hdigits (by simp)
    rwa [hvalue] at h
  have hunsigned : WrittenNumber (skipLayout " 9223372036854775808:int".toList)
      9223372036854775808 ":int".toList := by
    have h := @WrittenNumber.decimal _ ":int".toList (by decide) hdigits (by simp)
    rwa [hvalue] at h
  have hhex : WrittenNumber (skipLayout "#x8000000000000000".toList) 9223372036854775808 [] := by
    have h := @WrittenNumber.hexadecimal 'x' "8000000000000000".toList [] (.inl rfl) (by decide)
      (List.all_eq_true.1 (by decide)) (by simp)
    have hvalue : numeral 16 "8000000000000000".toList = 9223372036854775808 := by decide
    rwa [hvalue] at h
  refine ⟨(horder _ List.reverse_perm maxNesting .code).1,
    (horder _ hperm maxNesting .code).2 hlast, ?_, ?_, ?_⟩
  · exact (hnumber _ _ _ hleast).1 (by decide)
  · exact ((hnumber _ _ _ hunsigned).2 (by decide)).2
  · exact ((hnumber _ _ _ hhex).2 (by decide)).2

end LexicalLisp.Source
