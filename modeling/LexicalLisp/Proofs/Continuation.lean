import LexicalLisp.Proofs.WrittenForm

/-!
# What follows is left alone

What is read from the front of a text is read from there too if the text goes on, provided that it
goes on with no word, and if more nesting is allowed. So it makes no difference to an expression
whether it stands alone or within another one.
-/
namespace LexicalLisp.Source

/-- What the first reader takes from the front of a text, the second takes from there if `t`
follows. -/
def Reader.Continues {α : Type} (t : List Char) (r r' : Reader α) : Prop :=
  ∀ s x rest, r s = .ok (x, rest) → r' (s ++ t) = .ok (x, rest ++ t)

/-- The outcome of a reader with more text behind what it left. -/
def followed {α : Type} (t : List Char) : Except Failure (α × List Char) →
    Except Failure (α × List Char)
  | .ok (x, rest) => .ok (x, rest ++ t)
  | .error e => .error ⟨e.missing, e.rest ++ t⟩

variable {t : List Char}

/-- Where the second alternative is taken, the first must still be refused. -/
theorem Reader.Continues.or {α : Type} {first second first' second' : Reader α}
    (h : first.Continues t first') (h' : second.Continues t second')
    (hrefused : ∀ s e x, first s = .error e → second s = .ok x →
      ∃ e', first' (s ++ t) = .error e') :
    (first.or second).Continues t (first'.or second') := by
  intro s x rest hr
  cases hs : first s with
  | ok p =>
    rw [Reader.or_eq_of_ok hs] at hr
    cases hr
    exact Reader.or_eq_of_ok (h s x rest hs)
  | error e =>
    rw [Reader.or_eq_of_error hs] at hr
    obtain ⟨e', he'⟩ := hrefused s e _ hs hr
    rw [Reader.or_eq_of_error he']
    exact h' s x rest hr

section Followed

variable {α : Type} {r second : Reader α}

theorem Reader.Continues.of_followed (h : ∀ s, s ≠ [] → r (s ++ t) = followed t (r s))
    (hnil : ∀ x, r [] ≠ .ok x) : r.Continues t r := by
  intro s x rest hr
  have hs : s ≠ [] := by
    rintro rfl
    exact hnil _ hr
  rw [h s hs, hr]
  rfl

theorem exists_error_of_followed (h : ∀ s, s ≠ [] → r (s ++ t) = followed t (r s))
    (hnil : ∀ x, second [] ≠ .ok x) {s : List Char} {e : Failure} {x : α × List Char}
    (he : r s = .error e) (hx : second s = .ok x) : ∃ e', r (s ++ t) = .error e' := by
  have hs : s ≠ [] := by
    rintro rfl
    exact hnil _ hx
  rw [h s hs, he]
  exact ⟨_, rfl⟩

end Followed

/-! ### Lexemes -/

theorem isWordChar_of_isAlphanum {c : Char} (h : c.isAlphanum = true) : isWordChar c = true := by
  have hascii : c.toNat < 0x80 := by
    simp only [Char.isAlphanum, Char.isAlpha, Char.isUpper, Char.isLower, Char.isDigit,
      Bool.or_eq_true, Bool.and_eq_true, decide_eq_true_eq, ge_iff_le,
      UInt32.le_iff_toNat_le] at h
    rcases h with (h | h) | h
    all_goals exact Nat.lt_of_le_of_lt h.2 (by decide)
  simp [isWordChar, Symbol.isNameChar, Text.isAlphanumeric_of_ascii hascii, h]

theorem isAlphanum_of_isHexDigit {c : Char} (h : Numeral.isHexDigit c = true) :
    c.isAlphanum = true := by
  simp only [Numeral.isHexDigit, Char.isAlphanum, Char.isAlpha, Char.isUpper, Char.isLower,
    Bool.or_eq_true, Bool.and_eq_true, decide_eq_true_eq, Char.le_def] at *
  rcases h with (h | h) | h
  · exact Or.inr h
  · exact Or.inl (Or.inr ⟨h.1, UInt32.le_trans h.2 (by decide)⟩)
  · exact Or.inl (Or.inl ⟨h.1, UInt32.le_trans h.2 (by decide)⟩)
theorem isWordChar_of_isHexDigit {c : Char} (h : Numeral.isHexDigit c = true) :
    isWordChar c = true := isWordChar_of_isAlphanum (isAlphanum_of_isHexDigit h)

theorem isWordChar_of_isDigit {c : Char} (h : c.isDigit = true) : isWordChar c = true :=
  isWordChar_of_isAlphanum (by simp [Char.isAlphanum, h])

theorem decode_continues (t : List Char) {s u rest : List Char}
    (h : Text.Literal.decode s = .ok (u, rest)) :
    Text.Literal.decode (s ++ t) = .ok (u, rest ++ t) := by
  refine decode_induction
    (motive := fun s u rest => Text.Literal.decode (s ++ t) = .ok (u, rest ++ t)) ?_ ?_ ?_ h
  · exact fun rest => rfl
  · intro l c s u rest hl ih
    simp [Text.Literal.decode, hl, ih, Except.map]
  · intro c s u rest hquote hslash ih
    rw [List.cons_append, Text.Literal.decode_cons hquote hslash, ih]
    rfl

theorem string_continues (t : List Char) : string.Continues t string := by
  intro s x rest h
  unfold string at h
  split at h
  case h_1 inside =>
    split at h
    case h_1 u after hd =>
      cases h
      simp only [string, List.cons_append, decode_continues t hd]
    case h_2 => cases h
  case h_2 => cases h

/-- A symbol starts with a character that may stand in words. -/
theorem exists_cons_of_symbol {s : List Char} {r : Value × List Char} (h : symbol s = .ok r) :
    ∃ c s', s = c :: s' ∧ isWordChar c = true := by
  cases s with
  | nil => cases h
  | cons c s =>
    refine ⟨c, s, rfl, ?_⟩
    cases hc : isWordChar c with
    | true => rfl
    | false => simp [symbol, hc] at h

section Lexemes

variable (ht : EndsWord t)
include ht

/-- A run of characters that may stand in words is the same run if no word follows. -/
theorem takeWhile_followed {p : Char → Bool} (hp : ∀ c, p c = true → isWordChar c = true)
    (s : List Char) :
    (s ++ t).takeWhile p = s.takeWhile p ∧ (s ++ t).dropWhile p = s.dropWhile p ++ t := by
  have hend : ∀ c ∈ (s.dropWhile p ++ t).head?, p c = false := by
    intro c hc
    cases hrest : s.dropWhile p with
    | nil =>
      rw [hrest] at hc
      have hword := ht c hc
      rw [Bool.eq_false_iff] at hword ⊢
      exact fun h => hword (hp c h)
    | cons d rest =>
      have hd := List.head?_dropWhile_not p s
      rw [hrest] at hc hd
      cases hc
      simpa using hd
  have hs : s ++ t = s.takeWhile p ++ (s.dropWhile p ++ t) := by
    rw [← List.append_assoc, List.takeWhile_append_dropWhile]
  rw [hs]
  exact takeWhile_append (fun c hc => List.mem_takeWhile_imp hc) _ hend

theorem sign_followed (s : List Char) : sign (s ++ t) = ((sign s).1, (sign s).2 ++ t) := by
  cases s with
  | nil =>
    refine sign_of_head fun c hc => ?_
    rintro rfl
    exact absurd (ht '-' hc) (by decide)
  | cons c s =>
    by_cases hc : c = '-'
    · subst hc
      rfl
    · have hhead : ∀ u d, d ∈ (c :: u).head? → d ≠ '-' := by
        rintro u d ⟨⟩
        exact hc
      rw [List.cons_append, sign_of_head (hhead (s ++ t)), sign_of_head (hhead s)]
      rfl

theorem decimal_followed (s : List Char) : decimal (s ++ t) = followed t (decimal s) := by
  obtain ⟨htake, hdrop⟩ := takeWhile_followed ht (fun _ => isWordChar_of_isDigit) (sign s).2
  simp only [decimal, sign_followed ht, htake, hdrop]
  split
  case isTrue => rfl
  case isFalse =>
    cases Numeral.ofDecimal? (sign s).1 ((sign s).2.takeWhile Char.isDigit) <;> rfl

theorem hexadecimal_followed {s : List Char} (hs : s ≠ []) :
    hexadecimal (s ++ t) = followed t (hexadecimal s) := by
  cases s with
  | nil => exact absurd rfl hs
  | cons c s =>
    by_cases hc : c = '#'
    · subst hc
      cases s with
      | nil =>
        cases t with
        | nil => rfl
        | cons d t =>
          have hd : ¬ (d = 'x' ∨ d = 'X') := by
            rintro (rfl | rfl)
            · exact absurd (ht 'x' rfl) (by decide)
            · exact absurd (ht 'X' rfl) (by decide)
          simp [hexadecimal, hd, followed]
      | cons x s =>
        obtain ⟨htake, hdrop⟩ := takeWhile_followed ht (fun _ => isWordChar_of_isHexDigit) s
        simp only [hexadecimal, List.cons_append, htake, hdrop]
        split
        case isTrue =>
          split
          case isTrue => rfl
          case isFalse =>
            cases Numeral.ofHexadecimal? (s.takeWhile Numeral.isHexDigit) <;> rfl
        case isFalse => rfl
    · rw [List.cons_append, hexadecimal_of_ne hc, hexadecimal_of_ne hc]
      rfl

theorem number_followed {s : List Char} (hs : s ≠ []) :
    number (s ++ t) = followed t (number s) := by
  simp only [number, Reader.or, hexadecimal_followed ht hs]
  cases hexadecimal s with
  | ok p => rfl
  | error e => exact decimal_followed ht s

theorem boolean_followed {s : List Char} (hs : s ≠ []) :
    boolean (s ++ t) = followed t (boolean s) := by
  cases s with
  | nil => exact absurd rfl hs
  | cons c s =>
    by_cases hc : c = '#'
    · subst hc
      cases s with
      | nil =>
        cases t with
        | nil => rfl
        | cons d t =>
          have htrue : d ≠ 't' := by
            rintro rfl
            exact absurd (ht 't' rfl) (by decide)
          have hfalse : d ≠ 'f' := by
            rintro rfl
            exact absurd (ht 'f' rfl) (by decide)
          simp [boolean, htrue, hfalse, followed]
      | cons d s =>
        by_cases htrue : d = 't'
        · subst htrue
          rfl
        · by_cases hfalse : d = 'f'
          · subst hfalse
            rfl
          · simp [boolean, htrue, hfalse, followed]
    · rw [List.cons_append, boolean_of_ne hc, boolean_of_ne hc]
      rfl

theorem symbol_followed (s : List Char) : symbol (s ++ t) = followed t (symbol s) := by
  obtain ⟨htake, hdrop⟩ := takeWhile_followed ht (fun _ h => h) s
  simp only [symbol, htake, hdrop]
  split
  case isTrue => rfl
  case isFalse => cases Symbol.ofWord? (s.takeWhile isWordChar) <;> rfl

/-- Constants and symbols end where no word goes on. -/
theorem lexeme_continues :
    (number.or <| boolean.or <| string.or symbol).Continues t
      (number.or <| boolean.or <| string.or symbol) := by
  have hsymbol : symbol.Continues t symbol :=
    .of_followed (fun _ _ => symbol_followed ht _) nofun
  have hstring : (string.or symbol).Continues t (string.or symbol) := by
    refine (string_continues t).or hsymbol fun s _ x _ hx => ?_
    obtain ⟨c, s, rfl, hc⟩ := exists_cons_of_symbol hx
    have hquote : c ≠ '"' := by
      rintro rfl
      exact absurd hc (by decide)
    exact ⟨_, string_of_ne hquote⟩
  have hboolean : boolean.Continues t boolean :=
    .of_followed (fun _ => boolean_followed ht) nofun
  have hnumber : number.Continues t number :=
    .of_followed (fun _ => number_followed ht) nofun
  refine hnumber.or (hboolean.or hstring fun s _ x he hx => ?_) fun s _ x he hx => ?_
  · exact exists_error_of_followed (fun _ => boolean_followed ht) (by rintro x ⟨⟩) he hx
  · exact exists_error_of_followed (fun _ => number_followed ht) (by rintro x ⟨⟩) he hx

end Lexemes

/-! ### Lists -/

theorem skipFrom_append (t : List Char) {inComment : Bool} {s : List Char}
    (h : skipFrom inComment s ≠ []) :
    skipFrom inComment (s ++ t) = skipFrom inComment s ++ t := by
  induction s generalizing inComment with
  | nil => exact absurd rfl h
  | cons c s ih =>
    rw [skipFrom] at h
    rw [List.cons_append, skipFrom, skipFrom]
    split at h
    case isTrue hcomment => rw [if_pos hcomment, if_pos hcomment, ih h]
    case isFalse hcomment =>
      rw [if_neg hcomment, if_neg hcomment]
      split at h
      case isTrue hblank => rw [if_pos hblank, if_pos hblank, ih h]
      case isFalse hblank =>
        rw [if_neg hblank, if_neg hblank]
        split at h
        case isTrue hmark => rw [if_pos hmark, if_pos hmark, ih h]
        case isFalse hmark => rw [if_neg hmark, if_neg hmark, List.cons_append]

theorem skipLayout_append (t : List Char) {s : List Char} (h : skipLayout s ≠ []) :
    skipLayout (s ++ t) = skipLayout s ++ t := skipFrom_append t h

theorem skipLayout_append_of_cons (t : List Char) {s rest : List Char} {c : Char}
    (h : skipLayout s = c :: rest) : skipLayout (s ++ t) = c :: (rest ++ t) := by
  rw [skipLayout_append t (by rw [h]; nofun), h, List.cons_append]

theorem startsWithLayout_append (t : List Char) {s : List Char} (hs : s ≠ []) :
    startsWithLayout (s ++ t) = startsWithLayout s := by
  cases s with
  | nil => exact absurd rfl hs
  | cons c s => rfl

theorem separator?_append (t : List Char) {s : List Char} (h : skipLayout s ≠ []) :
    separator? (s ++ t) = (separator? s).map (· ++ t) := by
  have hs : s ≠ [] := by
    rintro rfl
    exact h rfl
  rw [separator?, separator?, startsWithLayout_append t hs, skipLayout_append t h]
  split <;> rfl

theorem skipLayout_of_separator? {s u : List Char} (h : separator? s = some u) :
    skipLayout s = u := by
  unfold separator? at h
  split at h
  case isTrue => exact Option.some.inj h
  case isFalse => cases h

/-- Where no element can be read the list ends. -/
theorem furtherElements_of_error {element : Reader Value} {s : List Char} {e : Failure}
    (h : element (skipLayout s) = .error e) : furtherElements element s = ([], s) := by
  rw [furtherElements]
  cases hsep : separator? s with
  | none => rfl
  | some u =>
    rw [skipLayout_of_separator? hsep] at h
    simp only [h]

theorem separator?_append_of_some (t : List Char) {s u : List Char} (h : separator? s = some u)
    (hu : u ≠ []) : separator? (s ++ t) = some (u ++ t) := by
  rw [separator?_append t (by rwa [skipLayout_of_separator? h]), h]
  rfl

theorem quoteHead?_append (t : List Char) {s u : List Char} (h : quoteHead? s = some u)
    (hu : u ≠ []) : quoteHead? (s ++ t) = some (u ++ t) := by
  obtain ⟨rest, rfl, -⟩ := quoteHead?_eq_some h
  rw [List.append_assoc]
  exact separator?_append_of_some t h hu

/-- The word `quote` must be followed, so a text with more than the word shows whether it stands
there. -/
theorem quoteHead?_append_eq_none (t : List Char) {s : List Char} (h : quoteHead? s = none)
    (hclose : ')' ∈ s) : quoteHead? (s ++ t) = none := by
  cases hq : quoteHead? (s ++ t) with
  | none => rfl
  | some u =>
    obtain ⟨rest, htext, hlayout⟩ := quoteHead?_eq_some hq
    have hword : ∀ a, a <+: "quote".toList → ')' ∉ a := fun a ha hmem =>
      absurd (ha.subset hmem) (by decide)
    rcases List.append_eq_append_iff.1 htext with ⟨a, ha, -⟩ | ⟨a, rfl, ha⟩
    · exact absurd hclose (hword s ⟨a, ha.symm⟩)
    · cases a with
      | nil => exact absurd hclose (hword _ ⟨[], by simp⟩)
      | cons c a =>
        rw [ha] at hlayout
        have hsep : quoteHead? ("quote".toList ++ c :: a) = separator? (c :: a) := rfl
        rw [hsep, separator?, if_pos (show startsWithLayout (c :: a) = true from hlayout)] at h
        cases h

section Elements

variable {datum datum' element element' : Reader Value}

/-- The elements of a list that is closed are the same if the text goes on behind the list. -/
theorem furtherElements_append (h : element.Continues t element')
    (hclose : ∀ u, ∃ e, element' (')' :: u) = .error e) (hnil : ∀ x, element [] ≠ .ok x)
    {s rest : List Char} (hs : skipLayout (furtherElements element s).2 = ')' :: rest) :
    furtherElements element' (s ++ t) =
      ((furtherElements element s).1, (furtherElements element s).2 ++ t) := by
  fun_induction furtherElements element s with
  | case1 s hsep =>
    have hskip : skipLayout s ≠ [] := by
      rw [hs]
      exact List.cons_ne_nil _ _
    rw [furtherElements, separator?_append t hskip, hsep]
    rfl
  | case2 s u hsep e he =>
    obtain ⟨e', he'⟩ := hclose (rest ++ t)
    refine furtherElements_of_error (e := e') ?_
    rw [skipLayout_append_of_cons t hs, he']
  | case3 s u hsep x after he hlt xs last hxs ih =>
    have hu : u ≠ [] := by
      rintro rfl
      exact hnil _ he
    rw [hxs] at ih
    have hlt' : (after ++ t).length < (s ++ t).length := by
      rw [List.length_append, List.length_append]
      omega
    rw [furtherElements, separator?_append_of_some t hsep hu]
    simp only [h u x after he, if_pos hlt', ih hs]
  | case4 s u hsep x after he hlt =>
    have hu : u ≠ [] := by
      rintro rfl
      exact hnil _ he
    have hlt' : ¬ (after ++ t).length < (s ++ t).length := by
      rw [List.length_append, List.length_append]
      omega
    rw [furtherElements, separator?_append_of_some t hsep hu]
    simp only [h u x after he, if_neg hlt']

theorem elements_append (h : element.Continues t element')
    (hclose : ∀ u, ∃ e, element' (')' :: u) = .error e) (hnil : ∀ x, element [] ≠ .ok x)
    {s rest : List Char} (hstart : startsWithLayout s = false)
    (hs : skipLayout (elements element s).2 = ')' :: rest) :
    elements element' (s ++ t) = ((elements element s).1, (elements element s).2 ++ t) := by
  unfold elements at hs ⊢
  cases hx : element s with
  | error e =>
    simp only [hx, skipLayout_eq_self hstart] at hs
    obtain ⟨e', he'⟩ := hclose (rest ++ t)
    subst hs
    simp only [List.cons_append, he']
  | ok p =>
    simp only [hx] at hs
    simp only [h s p.1 p.2 hx, furtherElements_append h hclose hnil hs]

theorem quotation_continues (h : datum.Continues t datum') (mode : Mode) :
    (quotation datum mode).Continues t (quotation datum' mode) := by
  intro s v rest hv
  obtain ⟨u, x, rfl, hx, rfl⟩ := quotation_eq_ok hv
  simp only [List.cons_append, quotation, h u x rest hx]
  rfl

theorem list_continues (h : datum.Continues t datum') (h' : element.Continues t element')
    (hdatum : ∀ x, datum [] ≠ .ok x) (hclose : ∀ u, ∃ e, element' (')' :: u) = .error e)
    (hnil : ∀ x, element [] ≠ .ok x) (helement : element.LeavesSuffix) (mode : Mode) :
    (list datum element mode).Continues t (list datum' element' mode) := by
  intro s v rest hv
  obtain ⟨inside, rfl, ⟨u, x, after, hquote, hx, hend, rfl⟩ | ⟨hquote, hend, rfl⟩⟩ :=
    list_eq_ok hv
  · have hu : u ≠ [] := by
      rintro rfl
      exact hdatum _ hx
    have hskip : skipLayout inside ≠ [] := by
      intro hskip
      rw [hskip] at hquote
      cases hquote
    exact list_of_quote element' mode (skipLayout_append t hskip) (quoteHead?_append t hquote hu)
      (h u x after hx) (skipLayout_append_of_cons t hend)
  · have hmem : ')' ∈ skipLayout inside := by
      have hsuffix := (skipLayout_suffix _).trans (elements_spec helement (skipLayout inside)).1
      rw [hend] at hsuffix
      exact hsuffix.subset List.mem_cons_self
    have hskip : skipLayout inside ≠ [] := List.ne_nil_of_mem hmem
    have hxs := elements_append h' hclose hnil (startsWithLayout_skipLayout inside) hend
    simp only [List.cons_append, list, skipLayout_append t hskip,
      quoteHead?_append_eq_none t hquote hmem, hxs, skipLayout_append_of_cons t hend]
    rfl

end Elements

/-! ### Expressions -/

theorem expression_nil (levels : Nat) (mode : Mode) (r : Value × List Char) :
    expression levels mode [] ≠ .ok r := by
  cases levels with
  | zero => nofun
  | succ levels => rintro ⟨⟩

/-- An alternative that starts with a character of its own is refused where another is taken. -/
theorem exists_error_of_first {first second : Reader Value} {c : Char}
    (hfirst : ∀ d s, d ≠ c → ∃ e, first (d :: s) = .error e)
    (hsecond : ∀ s, ∃ e, second (c :: s) = .error e) (hnil : ∃ e, second [] = .error e)
    {s : List Char} {r : Value × List Char} (h : second s = .ok r) :
    ∃ e, first (s ++ t) = .error e := by
  cases s with
  | nil =>
    obtain ⟨e, he⟩ := hnil
    rw [he] at h
    cases h
  | cons d s =>
    refine hfirst d (s ++ t) ?_
    rintro rfl
    obtain ⟨e, he⟩ := hsecond s
    rw [he] at h
    cases h

/-- An expression that can be read is read alike with more text behind it, unless a word goes on,
and with more levels. -/
theorem expression_continues (ht : EndsWord t) {n m : Nat} (hnm : n ≤ m) (mode : Mode) :
    (expression n mode).Continues t (expression m mode) := by
  induction n generalizing m mode with
  | zero =>
    intro s x rest h
    cases h
  | succ n ih =>
    obtain ⟨m, rfl⟩ : ∃ k, m = k + 1 := ⟨m - 1, by omega⟩
    have hdata := ih (Nat.le_of_succ_le_succ hnm) .data
    have hquotation := quotation_continues hdata mode
    have hlist := list_continues hdata (ih (Nat.le_of_succ_le_succ hnm) mode)
      (expression_nil n .data) (expression_close m mode) (expression_nil n mode)
      (expression_leavesSuffix n mode) mode
    -- a text shows by its first character whether it is a quotation, a list or a lexeme
    have halternatives := hquotation.or (hlist.or (lexeme_continues ht) fun s _ x _ hx =>
        exists_error_of_first (fun d s hd => ⟨_, list_of_ne hd _ _ mode⟩)
          (lexeme_of_mark (.inl rfl)) ⟨_, rfl⟩ hx)
      fun s _ x _ hx => exists_error_of_first (fun d s hd => ⟨_, quotation_of_ne hd _ mode⟩)
        (fun s => ?_) ⟨_, rfl⟩ hx
    · intro s x rest hr
      have hskip : skipLayout s ≠ [] := by
        intro hnil
        simp only [expression, hnil] at hr
        cases hr
      simp only [expression, skipLayout_append t hskip]
      exact halternatives (skipLayout s) x rest hr
    · rw [Reader.or_eq_of_error (list_of_ne (by decide) _ _ mode)]
      exact lexeme_of_mark (.inr (.inr rfl)) s

end LexicalLisp.Source
