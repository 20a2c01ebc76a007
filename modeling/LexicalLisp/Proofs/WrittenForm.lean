import LexicalLisp.Proofs.Data
import LexicalLisp.Proofs.Erasure
import LexicalLisp.Proofs.Lexing

/-!
# Written values are read back

The written form of plain data is read as the data, or as the code that it denotes, and what
follows is left. There is one exception: a list whose head is the bare symbol `quote` is taken for
a quotation as soon as something follows the head, and a quotation of two values is refused.
-/
namespace LexicalLisp

namespace Value

/-- The operands of a quotation, be it compiled or a plain list. -/
def quoted? : Value → Option (List Value)
  | .op (.form .quote) args => some args
  | .list (.symbol s :: args) => if s = ⟨"quote", .any⟩ then some args else none
  | _ => none

/-- If the value is a quotation, it quotes one value at most, and that is data. -/
def quotesReadably (v : Value) : Bool :=
  match v.quoted? with
  | some args => args.length ≤ 1 && args.all isData
  | none => true

theorem quoted?_list_eq_some {xs args : List Value} (h : (list xs).quoted? = some args) :
    xs = .symbol ⟨"quote", .any⟩ :: args := by
  unfold quoted? at h
  split at h
  case h_1 hop => cases hop
  case h_2 s args' hlist =>
    split at h
    case isTrue hs =>
      cases h
      rw [list.inj hlist, hs]
    case isFalse => cases h
  case h_3 => cases h

@[simp] theorem quoted?_quote (args : List Value) :
    (list (.symbol ⟨"quote", .any⟩ :: args)).quoted? = some args := rfl

theorem quoted?_list_of_ne {x : Value} (h : x ≠ .symbol ⟨"quote", .any⟩) (xs : List Value) :
    (list (x :: xs)).quoted? = none := by
  cases hq : (list (x :: xs)).quoted? with
  | none => rfl
  | some args => exact absurd (List.cons.inj (quoted?_list_eq_some hq)).1 h

/-- The written form of the value can be read again: each quotation in it quotes one value at most,
and that is data. -/
def isReadable (v : Value) : Bool := v.throughout quotesReadably

theorem isReadable_list_iff {xs : List Value} :
    (list xs).isReadable = true ↔ (list xs).quotesReadably = true ∧ xs.all isReadable = true := by
  rw [isReadable, throughout_list_iff, List.all_eq_true]
  rfl

theorem isReadable_op_iff {o : Operator} {args : List Value} :
    (op o args).isReadable = true ↔
      (op o args).quotesReadably = true ∧ args.all isReadable = true := by
  rw [isReadable, throughout_op_iff, List.all_eq_true]
  rfl

theorem quotesReadably_of_ne {x : Value} (h : x ≠ .symbol ⟨"quote", .any⟩) (xs : List Value) :
    (list (x :: xs)).quotesReadably = true := by
  simp [quotesReadably, quoted?_list_of_ne h]

/-- Data that a text can denote if so many levels of nesting are allowed. -/
def Written : (levels : Nat) → Value → Prop
  | 0, _ => False
  | _ + 1, .symbol a => Symbol.isName a.name.toList = true
  | levels + 1, .list xs => ∀ x ∈ xs, Written levels x
  | _ + 1, v => v.isConstant = true

theorem Written.isData {levels : Nat} {v : Value} (h : v.Written levels) : v.isData = true := by
  induction levels generalizing v with
  | zero => cases h
  | succ levels ih =>
    cases v with
    | number | symbol | string | bool => rfl
    | list xs => exact throughout_list_iff.2 ⟨rfl, fun x hx => ih (h x hx)⟩
    | op | builtin | function | unspecified => cases h

/-- What the written form of a value starts with shows that no list ends there. -/
theorem Written.exists_text_eq_cons {levels : Nat} {v : Value} (h : v.Written levels) :
    ∃ c s, v.text = c :: s ∧ Source.startsWithLayout (c :: s) = false ∧ c ≠ ')' := by
  cases levels with
  | zero => cases h
  | succ levels =>
    cases v with
    | number n =>
      obtain ⟨c, s, hcons, hc⟩ := Source.exists_decimal_eq_cons n
      have hc := Source.isNameChar_of_decimal hc
      exact ⟨c, s, hcons, Source.startsWithLayout_of_isNameChar hc s,
        Symbol.ne_of_isNameChar hc (by decide)⟩
    | symbol a =>
      obtain ⟨c, s, hcons, hc, -⟩ := Source.exists_text_eq_cons h
      exact ⟨c, s, hcons, Source.startsWithLayout_of_isNameChar hc s,
        Symbol.ne_of_isNameChar hc (by decide)⟩
    | string s => exact ⟨'"', _, rfl, rfl, by decide⟩
    | bool b => cases b <;> exact ⟨'#', _, rfl, rfl, by decide⟩
    | list xs => cases xs <;> exact ⟨'(', _, rfl, rfl, by decide⟩
    | op | builtin | function | unspecified => cases h

end Value

namespace Source

mutual

/-- What the written form of plain data denotes. -/
def reading (mode : Mode) : Value → Value
  | .list xs =>
    match (Value.list xs).quoted? with
    | some [x] => quotationOf mode x
    | _ => applicationOf mode (readingAll mode xs)
  | v => v

def readingAll (mode : Mode) : List Value → List Value
  | [] => []
  | v :: vs => reading mode v :: readingAll mode vs

end

theorem readingAll_eq_map (mode : Mode) (vs : List Value) :
    readingAll mode vs = vs.map (reading mode) := by
  induction vs with
  | nil => rfl
  | cons v vs ih => simp [readingAll, ih]

theorem reading_quotation (mode : Mode) (x : Value) :
    reading mode (.list [.symbol ⟨"quote", .any⟩, x]) = quotationOf mode x := by
  simp [reading]

theorem reading_list {xs : List Value} (h : ∀ x, xs ≠ [.symbol ⟨"quote", .any⟩, x]) (mode : Mode) :
    reading mode (.list xs) = applicationOf mode (xs.map (reading mode)) := by
  rw [reading]
  split
  case h_1 x hx => exact absurd (Value.quoted?_list_eq_some hx) (h x)
  case h_2 => rw [readingAll_eq_map]

mutual

/-- Data denotes itself as data. -/
theorem reading_data : ∀ v : Value, reading .data v = v
  | .list xs => by
    by_cases h : ∃ x, xs = [.symbol ⟨"quote", .any⟩, x]
    · obtain ⟨x, rfl⟩ := h
      exact reading_quotation .data x
    · rw [reading_list (not_exists.1 h), ← readingAll_eq_map, readingAll_data xs,
        applicationOf_data]
  | .op _ _ | .number _ | .symbol _ | .string _ | .bool _ | .builtin _ _ | .function _
  | .unspecified => by simp only [reading]

theorem readingAll_data : ∀ vs : List Value, readingAll .data vs = vs
  | [] => rfl
  | v :: vs => by rw [readingAll, reading_data v, readingAll_data vs]

end

mutual

theorem plain_reading (mode : Mode) : ∀ v : Value, (reading mode v).plain = v.plain
  | .list xs => by
    by_cases h : ∃ x, xs = [.symbol ⟨"quote", .any⟩, x]
    · obtain ⟨x, rfl⟩ := h
      rw [reading_quotation, plain_quotationOf, Value.plain_list]
      rfl
    · rw [reading_list (not_exists.1 h), plain_applicationOf, ← readingAll_eq_map,
        map_plain_readingAll mode xs, Value.plain_list]
  | .op _ _ | .number _ | .symbol _ | .string _ | .bool _ | .builtin _ _ | .function _
  | .unspecified => by simp only [reading]

theorem map_plain_readingAll (mode : Mode) :
    ∀ vs : List Value, (readingAll mode vs).map Value.plain = vs.map Value.plain
  | [] => rfl
  | v :: vs => by
    rw [readingAll, List.map_cons, List.map_cons, plain_reading mode v,
      map_plain_readingAll mode vs]

end

/-! ### The head of a list -/

theorem endsWord_of_startsWithLayout {s : List Char} (h : startsWithLayout s = true) :
    EndsWord s := by
  cases s with
  | nil => cases h
  | cons c s =>
    refine endsWord_cons ?_
    simp only [startsWithLayout, isBlank, Bool.or_eq_true, beq_iff_eq] at h
    rcases h with (((rfl | rfl) | rfl) | rfl) | rfl <;> decide

theorem quoteHead?_of_ne {c : Char} (h : c ≠ 'q') (s : List Char) :
    quoteHead? (c :: s) = none := by
  simp [quoteHead?, h]

theorem quoteHead?_eq_some {s t : List Char} (h : quoteHead? s = some t) :
    ∃ rest, s = "quote".toList ++ rest ∧ startsWithLayout rest = true := by
  unfold quoteHead? at h
  split at h
  case h_1 rest =>
    refine ⟨rest, rfl, ?_⟩
    unfold separator? at h
    split at h
    case isTrue hlayout => exact hlayout
    case isFalse => cases h
  case h_2 => cases h

/-- Of all symbols only the bare `quote` is seen as the head of a quotation. -/
theorem quoteHead?_symbol {a : Symbol} (ha : Symbol.isName a.name.toList = true)
    (hne : a ≠ ⟨"quote", .any⟩) {rest : List Char} (hrest : EndsWord rest) :
    quoteHead? (a.text ++ rest) = none := by
  cases hq : quoteHead? (a.text ++ rest) with
  | none => rfl
  | some t =>
    obtain ⟨after, htext, hafter⟩ := quoteHead?_eq_some hq
    -- the longest word is the symbol, and it is `quote`
    have hword := (takeWhile_append (isWordChar_of_mem_text ha) rest hrest).1
    have hall : "quote".toList.all isWordChar = true := by decide
    have hquote := (takeWhile_append (List.all_eq_true.1 hall) after
      (endsWord_of_startsWithLayout hafter)).1
    rw [htext, hquote] at hword
    have hsymbol := Symbol.ofWord?_text ha
    rw [← hword] at hsymbol
    exact absurd (Option.some.inj hsymbol).symm hne

theorem quoteHead?_text {levels : Nat} {v : Value} (hv : v.Written levels)
    (hne : v ≠ .symbol ⟨"quote", .any⟩) {rest : List Char} (hrest : EndsWord rest) :
    quoteHead? (v.text ++ rest) = none := by
  cases levels with
  | zero => cases hv
  | succ levels =>
    cases v with
    | number n =>
      obtain ⟨c, s, hcons, hc⟩ := exists_decimal_eq_cons n
      rw [Value.text, hcons]
      refine quoteHead?_of_ne ?_ _
      rintro rfl
      exact absurd hc (by decide)
    | symbol a => exact quoteHead?_symbol hv (fun h => hne (by rw [h])) hrest
    | string s => exact quoteHead?_of_ne (by decide) _
    | bool b => cases b <;> exact quoteHead?_of_ne (by decide) _
    | list xs => cases xs <;> exact quoteHead?_of_ne (by decide) _
    | op | builtin | function | unspecified => cases hv

/-! ### Elements of a list -/

theorem endsWord_textTail (xs : List Value) (rest : List Char) :
    EndsWord (Value.textTail xs ++ rest) := by
  cases xs with
  | nil => exact endsWord_cons (by decide)
  | cons x xs => exact endsWord_cons (by decide)

/-- Whatever follows, the reader reads the written form of good values, and it refuses that of
the others. -/
structure ReadsBack (r : Reader Value) (good : Value → Bool) (f : Value → Value) (v : Value) :
    Prop where
  start : ∃ c s, v.text = c :: s ∧ startsWithLayout (c :: s) = false ∧ c ≠ ')'
  read : ∀ rest, EndsWord rest → good v = true → r (v.text ++ rest) = .ok (f v, rest)
  refuse : ∀ rest, EndsWord rest → good v = false → ∃ e, r (v.text ++ rest) = .error e

section Elements

variable {r : Reader Value} {good : Value → Bool} {f : Value → Value} {xs : List Value}

theorem ReadsBack.skipLayout {v : Value} (h : ReadsBack r good f v) (s : List Char) :
    skipLayout (v.text ++ s) = v.text ++ s := by
  obtain ⟨c, t, hcons, hlayout, -⟩ := h.start
  rw [hcons]
  exact skipLayout_eq_self hlayout

theorem ReadsBack.ne_close {v : Value} (h : ReadsBack r good f v) (s t : List Char) :
    v.text ++ s ≠ ')' :: t := by
  obtain ⟨c, u, hcons, -, hc⟩ := h.start
  rw [hcons]
  intro heq
  exact hc (List.cons.inj heq).1

theorem separator?_textTail_cons {x : Value} (h : ReadsBack r good f x) (xs : List Value)
    (rest : List Char) :
    separator? (Value.textTail (x :: xs) ++ rest) =
      some (x.text ++ (Value.textTail xs ++ rest)) := by
  have hskip := h.skipLayout (Value.textTail xs ++ rest)
  rw [← List.append_assoc] at hskip ⊢
  exact congrArg some hskip

theorem skipLayout_textTail_cons {x : Value} (h : ReadsBack r good f x) (xs : List Value)
    (rest : List Char) :
    skipLayout (Value.textTail (x :: xs) ++ rest) = x.text ++ (Value.textTail xs ++ rest) :=
  Option.some.inj (separator?_textTail_cons h xs rest)

/-- An element that is read behind a separator comes first. -/
theorem furtherElements_of_read {s t after : List Char} {x : Value} (hsep : separator? s = some t)
    (hx : r t = .ok (x, after)) (hlt : after.length < s.length) :
    furtherElements r s = (x :: (furtherElements r after).1, (furtherElements r after).2) := by
  rw [furtherElements, hsep]
  simp only [hx, if_pos hlt]

theorem furtherElements_of_ok {x : Value} (hx : ReadsBack r good f x) (hgood : good x = true)
    (xs : List Value) (rest : List Char) :
    furtherElements r (Value.textTail (x :: xs) ++ rest) =
      (f x :: (furtherElements r (Value.textTail xs ++ rest)).1,
        (furtherElements r (Value.textTail xs ++ rest)).2) := by
  have hread := hx.read _ (endsWord_textTail xs rest) hgood
  refine furtherElements_of_read (separator?_textTail_cons hx xs rest) hread ?_
  simp only [Value.textTail, List.length_append, List.length_cons]
  omega

/-- The rest of a list is read to its end, if all elements are good. -/
theorem furtherElements_textTail (h : ∀ x ∈ xs, ReadsBack r good f x) (hgood : xs.all good = true)
    (rest : List Char) :
    furtherElements r (Value.textTail xs ++ rest) = (xs.map f, ')' :: rest) := by
  induction xs with
  | nil =>
    rw [furtherElements]
    rfl
  | cons x xs ih =>
    rw [List.all_cons, Bool.and_eq_true] at hgood
    rw [furtherElements_of_ok (h x List.mem_cons_self) hgood.1,
      ih (fun y hy => h y (List.mem_cons_of_mem x hy)) hgood.2, List.map_cons]

/-- If an element is refused, the elements end before the list does. -/
theorem furtherElements_ne_close (h : ∀ x ∈ xs, ReadsBack r good f x)
    (hbad : xs.all good = false) (rest t : List Char) :
    skipLayout (furtherElements r (Value.textTail xs ++ rest)).2 ≠ ')' :: t := by
  induction xs with
  | nil => cases hbad
  | cons x xs ih =>
    have hx := h x List.mem_cons_self
    cases hgood : good x with
    | true =>
      rw [List.all_cons, hgood, Bool.true_and] at hbad
      rw [furtherElements_of_ok hx hgood]
      exact ih (fun y hy => h y (List.mem_cons_of_mem x hy)) hbad
    | false =>
      obtain ⟨e, he⟩ := hx.refuse _ (endsWord_textTail xs rest) hgood
      rw [furtherElements, separator?_textTail_cons hx]
      simp only [he]
      rw [skipLayout_textTail_cons hx]
      exact hx.ne_close _ t

theorem elements_textTail (h : ∀ x ∈ xs, ReadsBack r good f x) {x : Value}
    (hx : ReadsBack r good f x) (hgood : (x :: xs).all good = true) (rest : List Char) :
    elements r (x.text ++ (Value.textTail xs ++ rest)) = ((x :: xs).map f, ')' :: rest) := by
  rw [List.all_cons, Bool.and_eq_true] at hgood
  unfold elements
  simp only [hx.read _ (endsWord_textTail xs rest) hgood.1, furtherElements_textTail h hgood.2,
    List.map_cons]

theorem elements_ne_close (h : ∀ x ∈ xs, ReadsBack r good f x) {x : Value}
    (hx : ReadsBack r good f x) (hbad : (x :: xs).all good = false) (rest t : List Char) :
    skipLayout (elements r (x.text ++ (Value.textTail xs ++ rest))).2 ≠ ')' :: t := by
  unfold elements
  cases hgood : good x with
  | true =>
    rw [List.all_cons, hgood, Bool.true_and] at hbad
    simp only [hx.read _ (endsWord_textTail xs rest) hgood]
    exact furtherElements_ne_close h hbad rest t
  | false =>
    obtain ⟨e, he⟩ := hx.refuse _ (endsWord_textTail xs rest) hgood
    simp only [he]
    rw [hx.skipLayout]
    exact hx.ne_close _ t

end Elements

/-! ### Lists -/

section Lists

variable {datum element : Reader Value} {mode : Mode} {inside s t : List Char}

theorem list_of_elements (datum : Reader Value) (mode : Mode)
    (hs : skipLayout inside = s) (hquote : quoteHead? s = none)
    {xs : List Value} {after rest : List Char} (hxs : elements element s = (xs, after))
    (hclose : skipLayout after = ')' :: rest) :
    list datum element mode ('(' :: inside) = .ok (applicationOf mode xs, rest) := by
  simp only [list, hs, hquote, hxs, hclose]
  rfl

theorem char_of_ne {c : Char} (h : ∀ t, s ≠ c :: t) : ∃ e, char c s = .error e := by
  cases s with
  | nil => exact ⟨_, rfl⟩
  | cons x rest =>
    have hx : x ≠ c := by
      rintro rfl
      exact h rest rfl
    exact ⟨_, if_neg hx⟩

theorem list_of_ne_close (datum : Reader Value) (mode : Mode)
    (hs : skipLayout inside = s) (hquote : quoteHead? s = none)
    (h : ∀ t, skipLayout (elements element s).2 ≠ ')' :: t) :
    ∃ e, list datum element mode ('(' :: inside) = .error e := by
  obtain ⟨e, he⟩ := char_of_ne h
  refine ⟨e, ?_⟩
  simp only [list, hs, hquote, he]
  rfl

theorem list_of_quote (element : Reader Value) (mode : Mode) (hs : skipLayout inside = s)
    (hquote : quoteHead? s = some t) {x : Value} {after rest : List Char}
    (hx : datum t = .ok (x, after)) (hclose : skipLayout after = ')' :: rest) :
    list datum element mode ('(' :: inside) = .ok (quotationOf mode x, rest) := by
  simp only [list, hs, hquote, hx, hclose, bind, Except.bind, pure, Except.pure]
  rfl

theorem list_of_quote_ne_close (element : Reader Value) (mode : Mode)
    (hs : skipLayout inside = s) (hquote : quoteHead? s = some t)
    (h : ∀ x after rest, datum t = .ok (x, after) → skipLayout after ≠ ')' :: rest) :
    ∃ e, list datum element mode ('(' :: inside) = .error e := by
  simp only [list, hs, hquote]
  cases hx : datum t with
  | error e => exact ⟨e, rfl⟩
  | ok p =>
    obtain ⟨e, he⟩ := char_of_ne fun rest => h p.1 p.2 rest hx
    refine ⟨e, ?_⟩
    simp only [bind, Except.bind, he]

/-- No lexeme starts with a parenthesis or a quote mark. -/
theorem lexeme_of_mark {c : Char} (hc : c = '(' ∨ c = ')' ∨ c = '\'') (s : List Char) :
    ∃ e, (number.or <| boolean.or <| string.or symbol) (c :: s) = .error e := by
  have hne : c ≠ '#' ∧ c ≠ '"' ∧ c.isDigit = false ∧ c ≠ '-' ∧ isWordChar c = false := by
    rcases hc with rfl | rfl | rfl <;> decide
  obtain ⟨hhash, hstring, hdigit, hsign, hword⟩ := hne
  obtain ⟨e, he⟩ := decimal_of_no_digit (s := s) hdigit (fun h => absurd h hsign)
  refine ⟨⟨.lexeme, c :: s⟩, ?_⟩
  simp [number, Reader.or, hexadecimal_of_ne hhash, he, boolean_of_ne hhash, string_of_ne hstring,
    symbol, hword]

theorem expression_close (levels : Nat) (mode : Mode) (s : List Char) :
    ∃ e, expression levels mode (')' :: s) = .error e := by
  cases levels with
  | zero => exact ⟨_, rfl⟩
  | succ levels =>
    rw [expression_succ rfl, Reader.or_eq_of_error (quotation_of_ne (by decide) _ _),
      Reader.or_eq_of_error (list_of_ne (by decide) _ _ _)]
    exact lexeme_of_mark (.inr (.inl rfl)) s

variable {levels : Nat}

theorem expression_of_list {r : Value × List Char}
    (h : list (expression levels .data) (expression levels mode) mode ('(' :: inside) = .ok r) :
    expression (levels + 1) mode ('(' :: inside) = .ok r := by
  rw [expression_succ rfl, Reader.or_eq_of_error (quotation_of_ne (by decide) _ _)]
  exact Reader.or_eq_of_ok h

theorem expression_of_list_error {e : Failure}
    (h : list (expression levels .data) (expression levels mode) mode ('(' :: inside) = .error e) :
    ∃ e', expression (levels + 1) mode ('(' :: inside) = .error e' := by
  rw [expression_succ rfl, Reader.or_eq_of_error (quotation_of_ne (by decide) _ _),
    Reader.or_eq_of_error h]
  exact lexeme_of_mark (.inl rfl) inside

/-- What begins with a quote mark is a quotation or nothing. -/
theorem quotation_of_expression {s : List Char} {r : Value × List Char}
    (h : expression (levels + 1) mode ('\'' :: s) = .ok r) :
    quotation (expression levels .data) mode ('\'' :: s) = .ok r := by
  rw [expression_succ rfl] at h
  refine (Reader.or_eq_ok h).resolve_right fun hother => ?_
  obtain ⟨e, he⟩ := lexeme_of_mark (.inr (.inr rfl)) s
  rw [Reader.or_eq_of_error (list_of_ne (by decide) _ _ _), he] at hother
  cases hother

end Lists

/-! ### Data -/

section Data

variable {levels : Nat} {mode : Mode}

theorem readsBack_nil :
    ReadsBack (expression (levels + 1) mode) Value.isReadable (reading mode) (.list []) where
  start := ⟨'(', _, rfl, rfl, by decide⟩
  read := by
    intro rest _ _
    obtain ⟨e, he⟩ := expression_close levels mode rest
    have hxs : elements (expression levels mode) (')' :: rest) = ([], ')' :: rest) := by
      simp [elements, he]
    have hlist := list_of_elements (expression levels .data) mode
      (show skipLayout (')' :: rest) = ')' :: rest from rfl) rfl hxs rfl
    rw [reading_list (by simp)]
    exact expression_of_list hlist
  refuse := by
    intro rest _ hbad
    cases hbad

theorem text_list_cons_append (x : Value) (xs : List Value) (rest : List Char) :
    (Value.list (x :: xs)).text ++ rest = '(' :: (x.text ++ (Value.textTail xs ++ rest)) := by
  simp [Value.text]

/-- A list whose elements are read back is read back, unless its head is the bare `quote`. -/
theorem readsBack_cons {x : Value} {xs : List Value}
    (h : ∀ y ∈ x :: xs, ReadsBack (expression levels mode) Value.isReadable (reading mode) y)
    (hquote : ∀ rest, quoteHead? (x.text ++ (Value.textTail xs ++ rest)) = none)
    (hgood : (Value.list (x :: xs)).quotesReadably = true)
    (hreading : reading mode (.list (x :: xs)) =
      applicationOf mode ((x :: xs).map (reading mode))) :
    ReadsBack (expression (levels + 1) mode) Value.isReadable (reading mode) (.list (x :: xs)) where
  start := ⟨'(', _, rfl, rfl, by decide⟩
  read := by
    intro rest _ hall
    have hx := h x List.mem_cons_self
    have hxs := elements_textTail (fun y hy => h y (List.mem_cons_of_mem x hy)) hx
      (Value.isReadable_list_iff.1 hall).2 rest
    have hlist := list_of_elements (expression levels .data) mode
      (hx.skipLayout (Value.textTail xs ++ rest)) (hquote rest) hxs rfl
    rw [text_list_cons_append, hreading]
    exact expression_of_list hlist
  refuse := by
    intro rest _ hbad
    have hx := h x List.mem_cons_self
    have hall : (x :: xs).all Value.isReadable = false := by
      rw [Bool.eq_false_iff] at hbad ⊢
      exact fun hall => hbad (Value.isReadable_list_iff.2 ⟨hgood, hall⟩)
    have hend := elements_ne_close (fun y hy => h y (List.mem_cons_of_mem x hy)) hx hall rest
    obtain ⟨e, he⟩ := list_of_ne_close (expression levels .data) mode
      (hx.skipLayout (Value.textTail xs ++ rest)) (hquote rest) hend
    rw [text_list_cons_append]
    exact expression_of_list_error he

theorem skipLayout_quote (s : List Char) :
    skipLayout ("quote".toList ++ s) = "quote".toList ++ s := rfl

/-- A list with the head `quote` is taken for a quotation as soon as something follows the head. -/
theorem readsBack_quote {x : Value} {xs : List Value}
    (h : ∀ y ∈ x :: xs, ReadsBack (expression levels .data) Value.isReadable (reading .data) y)
    (hdata : x.isData = true) :
    ReadsBack (expression (levels + 1) mode) Value.isReadable (reading mode)
      (.list (.symbol ⟨"quote", .any⟩ :: x :: xs)) where
  start := ⟨'(', _, rfl, rfl, by decide⟩
  read := by
    intro rest _ hall
    obtain ⟨hquotes, hreadable⟩ := Value.isReadable_list_iff.1 hall
    have hx := h x List.mem_cons_self
    simp only [List.all_cons, Bool.and_eq_true] at hreadable
    cases xs with
    | cons y ys => simp [Value.quotesReadably] at hquotes
    | nil =>
      have hread := hx.read _ (endsWord_textTail [] rest) hreadable.2.1
      have hlist := list_of_quote (expression levels mode) mode
        (skipLayout_quote (Value.textTail [x] ++ rest))
        (separator?_textTail_cons hx [] rest) hread rfl
      rw [reading_quotation]
      rw [reading_data] at hlist
      exact expression_of_list hlist
  refuse := by
    intro rest _ hbad
    have hx := h x List.mem_cons_self
    have hne : ∀ v after t,
        expression levels .data (x.text ++ (Value.textTail xs ++ rest)) = .ok (v, after) →
          skipLayout after ≠ ')' :: t := by
      intro v after t hv
      cases hgood : Value.isReadable x with
      | false =>
        obtain ⟨e, he⟩ := hx.refuse _ (endsWord_textTail xs rest) hgood
        rw [he] at hv
        cases hv
      | true =>
        rw [hx.read _ (endsWord_textTail xs rest) hgood] at hv
        cases hv
        cases xs with
        | nil =>
          -- the quotation of a readable value alone is readable
          have hall : Value.isReadable (.list [.symbol ⟨"quote", .any⟩, x]) = true :=
            Value.isReadable_list_iff.2
              ⟨by simp [Value.quotesReadably, hdata],
                by rw [List.all_cons, List.all_cons, hgood]; rfl⟩
          rw [hall] at hbad
          cases hbad
        | cons y ys =>
          have hy := h y (by simp)
          rw [skipLayout_textTail_cons hy]
          exact hy.ne_close _ t
    obtain ⟨e, he⟩ := list_of_quote_ne_close (expression levels mode) mode
      (skipLayout_quote (Value.textTail (x :: xs) ++ rest))
      (separator?_textTail_cons hx xs rest) hne
    exact expression_of_list_error he

end Data

/-- The written form of data is read in either mode, as what it denotes, and nothing behind it is
touched. If somewhere in the data a list with the head `quote` has more than two elements, the
written form is refused. -/
theorem readsBack_of_written {levels : Nat} {v : Value} (hv : v.Written levels) (mode : Mode) :
    ReadsBack (expression levels mode) Value.isReadable (reading mode) v := by
  induction levels generalizing v mode with
  | zero => cases hv
  | succ levels ih =>
    have hstart := hv.exists_text_eq_cons
    cases v with
    | number n =>
      exact ⟨hstart, fun rest hrest _ => expression_number levels mode n hrest,
        fun _ _ hbad => nomatch hbad⟩
    | symbol a =>
      exact ⟨hstart, fun rest hrest _ => expression_symbol levels mode hv hrest,
        fun _ _ hbad => nomatch hbad⟩
    | string s =>
      exact ⟨hstart, fun rest _ _ => expression_string levels mode s rest,
        fun _ _ hbad => nomatch hbad⟩
    | bool b =>
      exact ⟨hstart, fun rest _ _ => expression_bool levels mode b rest,
        fun _ _ hbad => nomatch hbad⟩
    | list xs =>
      have hxs : ∀ x ∈ xs, ∀ mode,
          ReadsBack (expression levels mode) Value.isReadable (reading mode) x :=
        fun x hx mode => ih (hv x hx) mode
      cases xs with
      | nil => exact readsBack_nil
      | cons x xs =>
        by_cases hx : x = .symbol ⟨"quote", .any⟩
        · subst hx
          cases xs with
          | nil =>
            refine readsBack_cons (fun y hy => hxs y hy mode) (fun _ => rfl) rfl ?_
            exact reading_list (by simp) mode
          | cons y ys =>
            have hdata := (hv y (by simp)).isData
            exact readsBack_quote (fun z hz => hxs z (List.mem_cons_of_mem _ hz) .data) hdata
        · refine readsBack_cons (fun y hy => hxs y hy mode) ?_ (Value.quotesReadably_of_ne hx xs) ?_
          · intro rest
            exact quoteHead?_text (hv x List.mem_cons_self) hx (endsWord_textTail xs rest)
          · refine reading_list (fun y hy => hx ?_) mode
            exact (List.cons.inj hy).1
    | op | builtin | function | unspecified => cases hv

end Source
end LexicalLisp
