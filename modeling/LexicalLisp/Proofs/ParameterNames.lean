import LexicalLisp.Proofs.BoundNames
import LexicalLisp.Proofs.Concatenation
import LexicalLisp.Proofs.LetApplication
import LexicalLisp.Proofs.QuotedText

/-!
# Parameter lists

A parameter list is read as an expression before it is known to hold names, and is made plain
again afterwards. What its first name does to it is undone by that, whichever name it is: the
plain form of what was read is the list of the names. It has to be read, however, and a list that
starts with `quote` is only read if one name at most follows.
-/
namespace LexicalLisp

/-- The symbols of these names, none of which declares a kind. -/
def Symbol.untyped (names : List String) : List Symbol := names.map fun n => ⟨n, .any⟩

@[simp] theorem Symbol.untyped_cons (n : String) (names : List String) :
    untyped (n :: names) = ⟨n, .any⟩ :: untyped names := rfl

@[simp] theorem Symbol.length_untyped (names : List String) :
    (untyped names).length = names.length := by simp [untyped]

@[simp] theorem Symbol.map_name_untyped (names : List String) :
    (untyped names).map Symbol.name = names := by simp [untyped, Function.comp_def]

namespace Value

/-- The list of these names. -/
def nameList (names : List String) : Value := .list ((Symbol.untyped names).map .symbol)

section NameList

variable {names : List String}

theorem all_symbols {p : Value → Bool} (h : ∀ a, p (.symbol a) = true) (as : List Symbol) :
    (as.map Value.symbol).all p = true := by
  simp [h]

/-- A list of names can be read unless it starts with `quote` and two more names follow. -/
theorem isReadable_nameList (names : List String) :
    (nameList names).isReadable = true ↔ ¬ (names.head? = some "quote" ∧ 2 < names.length) := by
  rw [nameList, isReadable_list_iff, and_iff_left (all_symbols (fun _ => rfl) _)]
  cases names with
  | nil => simp [Symbol.untyped, quotesReadably, quoted?]
  | cons n names =>
    by_cases hn : n = "quote"
    · have hdata := all_symbols (p := isData) (fun _ => rfl) (Symbol.untyped names)
      rw [Symbol.untyped_cons, List.map_cons, hn, quotesReadably, quoted?_quote]
      simp only [hdata]
      simp
    · have hne : Value.symbol ⟨n, .any⟩ ≠ .symbol ⟨"quote", .any⟩ := by simp [hn]
      simp [quotesReadably_of_ne hne, hn]

theorem written_nameList {levels : Nat} (hnames : ∀ n ∈ names, Symbol.isName n.toList = true) :
    (nameList names).Written (levels + 2) := by
  intro x hx
  simp only [Symbol.untyped, List.map_map, List.mem_map] at hx
  obtain ⟨n, hn, rfl⟩ := hx
  exact hnames n hn

theorem plain_nameList (names : List String) : (nameList names).plain = nameList names := by
  simp [nameList, Function.comp_def]

end NameList
end Value

namespace Source

/-- The text of a `lambda` with one expression in its body. -/
def lambdaText (names : List String) (body : String) : String :=
  "(lambda (" ++ " ".intercalate names ++ ") " ++ body ++ ")"

/-- The text of a `defun` with one expression in its body. -/
def defunText (f : String) (names : List String) (body : String) : String :=
  "(defun " ++ f ++ " (" ++ " ".intercalate names ++ ") " ++ body ++ ")"

/-- The text denotes an expression, with a level of nesting to spare. -/
structure IsBody (body : String) (v : Value) : Prop where
  reads : readExpression body = .ok v
  fits : ∃ left, expression (maxNesting - 1) .code body.toList = .ok (v, left)

/-- There is a comment at the end of the text that takes in a parenthesis behind it. -/
def EndsInComment (body : String) : Prop :=
  ∃ v left, expression maxNesting .code body.toList = .ok (v, left) ∧
    skipLayout (left ++ [')']) = []

/-! ### The text of a list of names -/

theorem textTail_nameList (names : List String) :
    Value.textTail ((Symbol.untyped names).map .symbol) =
      (names.map fun n => ' ' :: n.toList).flatten ++ [')'] := by
  induction names with
  | nil => rfl
  | cons n names ih =>
    simp only [Symbol.untyped, List.map_cons, Value.textTail] at ih ⊢
    rw [ih]
    simp [Value.text, Symbol.text]

theorem toList_intercalate_cons (n : String) (names : List String) :
    (" ".intercalate (n :: names)).toList =
      n.toList ++ (names.map fun m => ' ' :: m.toList).flatten := by
  rw [String.toList_intercalate]
  induction names generalizing n with
  | nil => simp
  | cons m names ih => simpa using ih m

theorem text_nameList (names : List String) :
    (Value.nameList names).text = '(' :: ((" ".intercalate names).toList ++ [')']) := by
  cases names with
  | nil => rfl
  | cons n names =>
    rw [toList_intercalate_cons]
    show '(' :: (n.toList ++ Value.textTail ((Symbol.untyped names).map .symbol)) = _
    rw [textTail_nameList]
    simp

theorem toList_lambdaText (names : List String) (body : String) :
    (lambdaText names body).toList =
      '(' :: ("lambda".toList ++
        ' ' :: ((Value.nameList names).text ++ ' ' :: (body.toList ++ [')']))) := by
  simp [lambdaText, text_nameList]

theorem toList_defunText (f : String) (names : List String) (body : String) :
    (defunText f names body).toList =
      '(' :: ("defun".toList ++ ' ' :: (f.toList ++
        ' ' :: ((Value.nameList names).text ++ ' ' :: (body.toList ++ [')'])))) := by
  simp [defunText, text_nameList]

/-! ### Reading a form -/

section Forms

variable {levels : Nat} {mode : Mode} {n : String} {items after rest : List Char} {xs : List Value}

theorem elements_of_name (hname : Symbol.isName n.toList = true)
    (hxs : furtherElements (expression (levels + 1) mode) (' ' :: items) = (xs, after)) :
    elements (expression (levels + 1) mode) (n.toList ++ ' ' :: items) =
      (.symbol ⟨n, .any⟩ :: xs, after) := by
  have hends : EndsWord (' ' :: items) := endsWord_cons (by decide)
  simp only [elements, expression_name levels mode hname hends, hxs]

theorem furtherElements_name (levels : Nat) (mode : Mode) (hname : Symbol.isName n.toList = true)
    (items : List Char) :
    furtherElements (expression (levels + 1) mode) (' ' :: (n.toList ++ ' ' :: items)) =
      (.symbol ⟨n, .any⟩ :: (furtherElements (expression (levels + 1) mode) (' ' :: items)).1,
        (furtherElements (expression (levels + 1) mode) (' ' :: items)).2) := by
  have hends : EndsWord (' ' :: items) := endsWord_cons (by decide)
  have hsep : separator? (' ' :: (n.toList ++ ' ' :: items)) = some (n.toList ++ ' ' :: items) :=
    congrArg some (skipLayout_eq_self (startsWithLayout_name hname _))
  refine furtherElements_of_read hsep (expression_name levels mode hname hends) ?_
  simp only [List.length_append, List.length_cons]
  omega

theorem quoteHead?_name (hname : Symbol.isName n.toList = true) (hquote : n ≠ "quote")
    (items : List Char) : quoteHead? (n.toList ++ ' ' :: items) = none :=
  quoteHead?_symbol (a := ⟨n, .any⟩) hname (fun h => hquote (congrArg Symbol.name h))
    (endsWord_cons (by decide))

/-- A form is read if what follows its name is read up to the parenthesis that closes it. -/
theorem expression_of_named (hname : Symbol.isName n.toList = true) (hquote : n ≠ "quote")
    (hxs : furtherElements (expression (levels + 1) mode) (' ' :: items) = (xs, after))
    (hclose : skipLayout after = ')' :: rest) :
    expression (levels + 2) mode ('(' :: (n.toList ++ ' ' :: items)) =
      .ok (applicationOf mode (.symbol ⟨n, .any⟩ :: xs), rest) :=
  expression_of_list (list_of_elements _ mode (skipLayout_eq_self (startsWithLayout_name hname _))
    (quoteHead?_name hname hquote items) (elements_of_name hname hxs) hclose)

theorem expression_of_named_error (hname : Symbol.isName n.toList = true) (hquote : n ≠ "quote")
    (hxs : furtherElements (expression (levels + 1) mode) (' ' :: items) = (xs, after))
    (hclose : ∀ t, skipLayout after ≠ ')' :: t) :
    ∃ e, expression (levels + 2) mode ('(' :: (n.toList ++ ' ' :: items)) = .error e := by
  have helements := elements_of_name hname hxs
  obtain ⟨e, he⟩ := list_of_ne_close (expression (levels + 1) .data) mode
    (skipLayout_eq_self (startsWithLayout_name hname _)) (quoteHead?_name hname hquote items)
    (by rwa [helements])
  exact expression_of_list_error he

theorem readExpression_of_named {text : String} {v : Value}
    (htext : text.toList = '(' :: (n.toList ++ ' ' :: items))
    (hname : Symbol.isName n.toList = true) (hquote : n ≠ "quote")
    (hxs : furtherElements (expression (maxNesting - 1) .code) (' ' :: items) = (xs, after))
    (hclose : skipLayout after = [')'])
    (happlication : applicationOf .code (.symbol ⟨n, .any⟩ :: xs) = v)
    (hcheck : v.checkForms = .ok ()) : readExpression text = .ok v := by
  have hread : expression maxNesting .code text.toList = _ :=
    htext ▸ expression_of_named hname hquote hxs hclose
  rw [happlication] at hread
  have hresult := readExpression_of_expression hread hcheck
  rwa [String.ofList_toList] at hresult

theorem readExpression_of_named_refused {text : String}
    (htext : text.toList = '(' :: (n.toList ++ ' ' :: items))
    (hname : Symbol.isName n.toList = true) (hquote : n ≠ "quote")
    (hxs : furtherElements (expression (maxNesting - 1) .code) (' ' :: items) = (xs, after))
    (hclose : ∀ t, skipLayout after ≠ ')' :: t) (u : Value) : readExpression text ≠ .ok u := by
  intro hread
  obtain ⟨-, rest, hexpression, -⟩ := expression_of_readExpression hread
  obtain ⟨e, he⟩ := expression_of_named_error hname hquote hxs hclose
  rw [htext] at hexpression
  exact absurd (he.symm.trans hexpression) nofun

end Forms

/-! ### Parameters and body -/

section Parameters

variable {names : List String} {f body : String} {v : Value} {left : List Char}

/-- Behind a body its form is closed, unless a comment hides that. -/
theorem IsBody.exists_left (h : IsBody body v) :
    ∃ left, expression (maxNesting - 1) .code body.toList = .ok (v, left) ∧
      (¬ EndsInComment body ∧ skipLayout (left ++ [')']) = [')'] ∨
        EndsInComment body ∧ skipLayout (left ++ [')']) = []) := by
  obtain ⟨left, hread⟩ := h.fits
  obtain ⟨-, rest, hwhole, hrest⟩ := expression_of_readExpression h.reads
  have hmore := expression_continues endsWord_nil (Nat.sub_le maxNesting 1) .code _ _ _ hread
  rw [List.append_nil, List.append_nil, hwhole] at hmore
  cases hmore
  have hnewline : '\n' ∉ [')'] := by decide
  refine ⟨left, hread, ?_⟩
  rcases skipFrom_append_of_nil hrest hnewline with hcomment | hclose
  · exact Or.inr ⟨⟨v, left, hwhole, hcomment⟩, hcomment⟩
  · refine Or.inl ⟨?_, hclose⟩
    rintro ⟨w, rest', hwhole', hcomment⟩
    rw [hwhole] at hwhole'
    cases hwhole'
    exact absurd (hclose.symm.trans hcomment) nofun

theorem furtherElements_body (levels : Nat)
    (hread : expression (levels + 1) .code body.toList = .ok (v, left))
    (hclose : skipLayout (left ++ [')']) = [')'] ∨ skipLayout (left ++ [')']) = []) :
    furtherElements (expression (levels + 1) .code) (' ' :: (body.toList ++ [')'])) =
      ([v], left ++ [')']) := by
  have hends : EndsWord [')'] := endsWord_cons (by decide)
  have hx := expression_continues hends (Nat.le_refl _) .code _ _ _ hread
  rw [← expression_skipLayout] at hx
  have hlt : (left ++ [')']).length < (' ' :: (body.toList ++ [')'])).length := by
    have hle := (expression_leavesSuffix _ _ _ _ _ hread).length_le
    simp only [List.length_append, List.length_cons]
    omega
  obtain ⟨e, he⟩ : ∃ e, expression (levels + 1) .code (skipLayout (left ++ [')'])) = .error e := by
    rcases hclose with hclose | hcomment
    · rw [hclose]
      exact expression_close _ .code []
    · rw [hcomment]
      exact ⟨_, rfl⟩
  rw [furtherElements_of_read rfl hx hlt, furtherElements_of_error he]

theorem readsBack_nameList (levels : Nat) (hnames : ∀ n ∈ names, Symbol.isName n.toList = true) :
    ReadsBack (expression (levels + 2) .code) Value.isReadable (reading .code)
      (Value.nameList names) :=
  readsBack_of_written (Value.written_nameList hnames) .code

/-- What is read of a list of names gives the names when it is made plain. -/
theorem furtherElements_nameList (levels : Nat)
    (hnames : ∀ n ∈ names, Symbol.isName n.toList = true)
    (hquote : ¬ (names.head? = some "quote" ∧ 2 < names.length))
    (hread : expression (levels + 2) .code body.toList = .ok (v, left))
    (hclose : skipLayout (left ++ [')']) = [')'] ∨ skipLayout (left ++ [')']) = []) :
    ∃ p, p.plain = Value.nameList names ∧
      furtherElements (expression (levels + 2) .code)
        (' ' :: ((Value.nameList names).text ++ ' ' :: (body.toList ++ [')']))) =
          ([p, v], left ++ [')']) := by
  have hback := readsBack_nameList levels hnames
  have hends : EndsWord (' ' :: (body.toList ++ [')'])) := endsWord_cons (by decide)
  have hx := hback.read _ hends ((Value.isReadable_nameList names).2 hquote)
  have hsep : separator? (' ' :: ((Value.nameList names).text ++ ' ' :: (body.toList ++ [')']))) =
      some ((Value.nameList names).text ++ ' ' :: (body.toList ++ [')'])) :=
    congrArg some (hback.skipLayout _)
  refine ⟨reading .code (Value.nameList names), ?_, ?_⟩
  · rw [plain_reading, Value.plain_nameList]
  · rw [furtherElements_of_read hsep hx (by simp), furtherElements_body (levels + 1) hread hclose]

/-- A list of names that is refused is not passed over. -/
theorem furtherElements_nameList_refused (levels : Nat)
    (hnames : ∀ n ∈ names, Symbol.isName n.toList = true)
    (hquote : names.head? = some "quote" ∧ 2 < names.length) (s : List Char) :
    ∃ after, furtherElements (expression (levels + 2) .code)
        (' ' :: ((Value.nameList names).text ++ ' ' :: s)) = ([], after) ∧
      ∀ t, skipLayout after ≠ ')' :: t := by
  have hback := readsBack_nameList levels hnames
  have hbad : (Value.nameList names).isReadable = false := by
    rw [Bool.eq_false_iff]
    exact fun h => (Value.isReadable_nameList names).1 h hquote
  have hskip : skipLayout (' ' :: ((Value.nameList names).text ++ ' ' :: s)) =
      (Value.nameList names).text ++ ' ' :: s := hback.skipLayout _
  obtain ⟨e, he⟩ := hback.refuse (' ' :: s) (endsWord_cons (by decide)) hbad
  rw [← hskip] at he
  refine ⟨_, furtherElements_of_error he, fun t => ?_⟩
  rw [hskip]
  exact hback.ne_close _ t

theorem checkForms_nameList (names : List String) :
    (Value.nameList names).checkForms = .ok () := by
  refine Value.checkForms_of_isData (Value.throughout_list_iff.2 ⟨rfl, fun x hx => ?_⟩)
  obtain ⟨a, -, rfl⟩ := List.mem_map.1 hx
  rfl

/-- The text of a `lambda` with these parameters denotes it. -/
theorem readExpression_lambdaText (hnames : ∀ n ∈ names, Symbol.isName n.toList = true)
    (hquote : ¬ (names.head? = some "quote" ∧ 2 < names.length)) (hbody : IsBody body v)
    (hends : ¬ EndsInComment body) :
    readExpression (lambdaText names body) =
      .ok (.op (.form .lambda) [Value.nameList names, v]) := by
  obtain ⟨left, hread, ⟨-, hclose⟩ | ⟨hcomment, -⟩⟩ := hbody.exists_left
  case inr => exact absurd hcomment hends
  obtain ⟨p, hp, hxs⟩ := furtherElements_nameList 29 hnames hquote hread (.inl hclose)
  have happlication : applicationOf .code [.symbol ⟨"lambda", .any⟩, p, v] =
      .op (.form .lambda) [Value.nameList names, v] := by
    rw [← hp]
    rfl
  have hcheck : (Value.op (.form .lambda) [Value.nameList names, v]).checkForms = .ok () := by
    rw [Value.checkForms, Value.checkFormsAll, Value.checkFormsAll, checkForms_nameList,
      (expression_of_readExpression hbody.reads).1]
    rfl
  exact readExpression_of_named (toList_lambdaText names body) (by decide) (by decide) hxs hclose
    happlication hcheck

/-- The text of a `defun` with these parameters denotes it. -/
theorem readExpression_defunText (hf : Symbol.isName f.toList = true)
    (hnames : ∀ n ∈ names, Symbol.isName n.toList = true)
    (hquote : ¬ (names.head? = some "quote" ∧ 2 < names.length)) (hbody : IsBody body v)
    (hends : ¬ EndsInComment body) :
    readExpression (defunText f names body) =
      .ok (.op (.form .defun) [.symbol ⟨f, .any⟩, Value.nameList names, v]) := by
  obtain ⟨left, hread, ⟨-, hclose⟩ | ⟨hcomment, -⟩⟩ := hbody.exists_left
  case inr => exact absurd hcomment hends
  obtain ⟨p, hp, hxs⟩ := furtherElements_nameList 29 hnames hquote hread (.inl hclose)
  have hfxs := furtherElements_name 30 .code hf
    ((Value.nameList names).text ++ ' ' :: (body.toList ++ [')']))
  rw [hxs] at hfxs
  have happlication : applicationOf .code [.symbol ⟨"defun", .any⟩, .symbol ⟨f, .any⟩, p, v] =
      .op (.form .defun) [.symbol ⟨f, .any⟩, Value.nameList names, v] := by
    rw [← hp]
    rfl
  have hcheck : (Value.op (.form .defun)
      [.symbol ⟨f, .any⟩, Value.nameList names, v]).checkForms = .ok () := by
    rw [Value.checkForms, Value.checkFormsAll, Value.checkFormsAll, Value.checkFormsAll,
      checkForms_nameList, (expression_of_readExpression hbody.reads).1]
    rfl
  exact readExpression_of_named (toList_defunText f names body) (by decide) (by decide) hfxs hclose
    happlication hcheck

/-- A comment that takes in the last parenthesis makes the text unreadable. -/
theorem readExpression_lambdaText_of_comment (hnames : ∀ n ∈ names, Symbol.isName n.toList = true)
    (hquote : ¬ (names.head? = some "quote" ∧ 2 < names.length)) (hbody : IsBody body v)
    (hends : EndsInComment body) (u : Value) : readExpression (lambdaText names body) ≠ .ok u := by
  obtain ⟨left, hread, ⟨hclose, -⟩ | ⟨-, hcomment⟩⟩ := hbody.exists_left
  case inl => exact absurd hends hclose
  obtain ⟨p, -, hxs⟩ := furtherElements_nameList 29 hnames hquote hread (.inr hcomment)
  refine readExpression_of_named_refused (toList_lambdaText names body) (by decide) (by decide) hxs
    (fun t => ?_) u
  rw [hcomment]
  nofun

/-- Two names behind `quote` make both texts unreadable. -/
theorem readExpression_refused (hf : Symbol.isName f.toList = true)
    (hnames : ∀ n ∈ names, Symbol.isName n.toList = true)
    (hquote : names.head? = some "quote" ∧ 2 < names.length) (body : String) (u : Value) :
    readExpression (lambdaText names body) ≠ .ok u ∧
      readExpression (defunText f names body) ≠ .ok u := by
  obtain ⟨after, hxs, hclose⟩ :=
    furtherElements_nameList_refused 29 hnames hquote (body.toList ++ [')'])
  have hfxs := furtherElements_name 30 .code hf
    ((Value.nameList names).text ++ ' ' :: (body.toList ++ [')']))
  rw [hxs] at hfxs
  exact ⟨readExpression_of_named_refused (toList_lambdaText names body) (by decide) (by decide) hxs
      hclose u,
    readExpression_of_named_refused (toList_defunText f names body) (by decide) (by decide) hfxs
      hclose u⟩

end Parameters

end Source

/-! ### Evaluating it -/

namespace SpecialForm

theorem symbols_map_symbol (as : List Symbol) : symbols (as.map .symbol) = .ok as := by
  induction as with
  | nil => rfl
  | cons a as ih =>
    rw [List.map_cons, symbols, ih]
    rfl

theorem implementation_nameList {names : List String} (h : names.Nodup) (body : List Value) :
    implementation (Value.nameList names) body = .ok ⟨Symbol.untyped names, body⟩ := by
  have hdistinct : Overload.Distinct ⟨Symbol.untyped names, body⟩ := by
    rwa [Overload.Distinct, Symbol.map_name_untyped]
  rw [implementation, Value.nameList, parameters, symbols_map_symbol]
  exact Overload.ofParams_of_distinct hdistinct

end SpecialForm

section Evaluation

variable {names : List String} (hnodup : names.Nodup) (run : Runner) (levels : Nat) (v : Value)
  (e : EnvRef) (s : Store)
include hnodup

theorem run_evalWithin_lambda :
    (evalWithin run (levels + 1) (.op (.form .lambda) [Value.nameList names, v]) e).run s =
      .ok (.function ⟨"lambda", s.closures.size⟩)
        { s with closures := s.closures.push ⟨[⟨Symbol.untyped names, [v]⟩], e⟩ } := by
  rw [evalWithin_succ]
  simp [SpecialForm.run, SpecialForm.runLambda, SpecialForm.implementation_nameList hnodup]

theorem run_evalWithin_defun {f : String} (hf : (s.frame e).get? f = none) :
    (evalWithin run (levels + 1)
        (.op (.form .defun) [.symbol ⟨f, .any⟩, Value.nameList names, v]) e).run s =
      .ok .unspecified
        (({ s with closures := s.closures.push ⟨[⟨Symbol.untyped names, [v]⟩], e⟩ } : Store).bind e
          f (.function ⟨f, s.closures.size⟩)) := by
  rw [evalWithin_succ]
  simp [SpecialForm.run, SpecialForm.runDefun, SpecialForm.implementation_nameList hnodup,
    EnvRef.run_defun_new hf]

end Evaluation

/-- Both forms with these parameters are accepted. Evaluating them makes a function with one
overload, whose parameters are the names in their order. -/
structure BindsNames (names : List String) (f body : String) (v : Value) : Prop where
  lambda : ∃ u, Source.readExpression (Source.lambdaText names body) = .ok u ∧
    ∀ (host : Host) (depth : Nat) (s : Store) (e : EnvRef), depth < maxDepth →
      (evalAt host depth u e).run s = .ok (.function ⟨"lambda", s.closures.size⟩)
        { s with closures := s.closures.push ⟨[⟨Symbol.untyped names, [v]⟩], e⟩ }
  defun : ∃ u, Source.readExpression (Source.defunText f names body) = .ok u ∧
    ∀ (host : Host) (depth : Nat) (s : Store) (e : EnvRef), depth < maxDepth →
      (s.frame e).get? f = none →
        (evalAt host depth u e).run s = .ok .unspecified
          (({ s with
              closures := s.closures.push ⟨[⟨Symbol.untyped names, [v]⟩], e⟩ } : Store).bind e f
            (.function ⟨f, s.closures.size⟩))

/-- Any distinct names can be parameters, those of operators too and at every place, as long as
the text of the body does not hide the last parenthesis in a comment; with one exception. No two
names can follow if the first is `quote`: then neither form is accepted. -/
theorem parameters_are_names_iff {names : List String} {f body : String} {v : Value}
    (hnames : ∀ n ∈ names, Symbol.isName n.toList = true) (hnodup : names.Nodup)
    (hf : Symbol.isName f.toList = true) (hbody : Source.IsBody body v) :
    (BindsNames names f body v ↔
      ¬ (names.head? = some "quote" ∧ 2 < names.length) ∧ ¬ Source.EndsInComment body) ∧
    (names.head? = some "quote" ∧ 2 < names.length →
      ∀ u, Source.readExpression (Source.lambdaText names body) ≠ .ok u ∧
        Source.readExpression (Source.defunText f names body) ≠ .ok u) := by
  have hrefused : names.head? = some "quote" ∧ 2 < names.length → _ :=
    fun hquote => Source.readExpression_refused hf hnames hquote body
  have hlevels : ∀ depth < maxDepth, ∃ levels, maxDepth - depth = levels + 1 :=
    fun depth hdepth => ⟨maxDepth - depth - 1, by omega⟩
  refine ⟨⟨fun h => ?_, fun ⟨hquote, hends⟩ => ⟨?_, ?_⟩⟩, hrefused⟩
  · obtain ⟨u, hu, -⟩ := h.lambda
    have hquote : ¬ (names.head? = some "quote" ∧ 2 < names.length) :=
      fun hquote => (hrefused hquote u).1 hu
    exact ⟨hquote, fun hends =>
      Source.readExpression_lambdaText_of_comment hnames hquote hbody hends u hu⟩
  · refine ⟨_, Source.readExpression_lambdaText hnames hquote hbody hends,
      fun host depth s e hdepth => ?_⟩
    obtain ⟨levels, h⟩ := hlevels depth hdepth
    rw [evalAt, h]
    exact run_evalWithin_lambda hnodup _ levels v e s
  · refine ⟨_, Source.readExpression_defunText hf hnames hquote hbody hends,
      fun host depth s e hdepth hfree => ?_⟩
    obtain ⟨levels, h⟩ := hlevels depth hdepth
    rw [evalAt, h]
    exact run_evalWithin_defun hnodup _ levels v e s hfree

/-- The names of two special forms and of a primitive are parameters of a function called `list`. -/
theorem parameters_are_names_of_operators :
    Source.IsBody "(car x)" (.op (.primitive .car) [.symbol ⟨"x", .any⟩]) ∧
    BindsNames ["if", "x", "quote", "car"] "list" "(car x)"
      (.op (.primitive .car) [.symbol ⟨"x", .any⟩]) := by
  have hread : Source.expression maxNesting .code "(car x)".toList =
      .ok (.op (.primitive .car) [.symbol ⟨"x", .any⟩], []) := by cbv
  have hbody : Source.IsBody "(car x)" (.op (.primitive .car) [.symbol ⟨"x", .any⟩]) :=
    ⟨by cbv, [], by cbv⟩
  have hends : ¬ Source.EndsInComment "(car x)" := by
    rintro ⟨w, left, hread', hcomment⟩
    rw [hread] at hread'
    cases hread'
    cases hcomment
  refine ⟨hbody, ?_⟩
  exact (parameters_are_names_iff (by decide) (by decide) (by decide) hbody).1.2
    ⟨by decide, hends⟩

/-- The parameter list `(quote x y)` is refused, though `(quote x)` and `(if x y)` are taken. -/
theorem three_parameters_after_quote_are_refused :
    (∀ u, Source.readExpression "(lambda (quote x y) x)" ≠ .ok u) ∧
      Source.readExpression "(lambda (quote x) x)" =
        .ok (.op (.form .lambda) [Value.nameList ["quote", "x"], .symbol ⟨"x", .any⟩]) ∧
      Source.readExpression "(lambda (if x y) x)" =
        .ok (.op (.form .lambda) [Value.nameList ["if", "x", "y"], .symbol ⟨"x", .any⟩]) ∧
      ¬ BindsNames ["quote", "x", "y"] "f" "x" (.symbol ⟨"x", .any⟩) := by
  have hrefused : ∀ u, Source.readExpression "(lambda (quote x y) x)" ≠ .ok u := by
    have hnames : ∀ n ∈ ["quote", "x", "y"], Symbol.isName n.toList = true := by decide
    intro u
    exact (Source.readExpression_refused (f := "f") (by decide) hnames (by decide) "x" u).1
  refine ⟨hrefused, by cbv, by cbv, fun h => ?_⟩
  obtain ⟨u, hu, -⟩ := h.lambda
  exact hrefused u hu

end LexicalLisp
