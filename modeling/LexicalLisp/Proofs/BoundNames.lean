import LexicalLisp.Proofs.Continuation
import LexicalLisp.Proofs.OperatorApplication
import LexicalLisp.Proofs.Reprinting

/-!
# The initializer of a bound name

A pair `(name init)` of a `let` is read as a list before the `let` around it is known to bind, so
a name that means something to the reader has done its work by then. Restoring the pair gives the
name back, but not the initializer: after `quote` it was read as data, after `lambda` it was taken
for a parameter list and after `let` for a list of bindings. After every other name it is compiled
as it is where it stands alone.
-/
namespace LexicalLisp

namespace Value

/-- The value is an operator application. -/
def isApplication : Value → Bool
  | .op _ _ => true
  | _ => false

end Value

namespace Source

/-- The text of a `let` that binds one name and has the name for its body. -/
def letText (name init : String) : String :=
  "(let ((" ++ name ++ " " ++ init ++ ")) " ++ name ++ ")"

/-- The `let` that binds one name and has the name for its body. -/
def letOf (name : String) (init : Value) : Value :=
  .op (.form .letIn) [.list [.list [.symbol ⟨name, .any⟩, init]], .symbol ⟨name, .any⟩]

/-- What becomes of an expression behind a name that is bound to it. -/
def initializerOf (name : String) (v : Value) : Value :=
  match Operator.ofName? name, v with
  | some (.form .quote), v | some (.form .lambda), v => v.plain
  | some (.form .letIn), .list vs => .list (vs.map restorePair)
  | _, v => v

theorem restorePair_eq_self_iff {v : Value} : restorePair v = v ↔ v.isApplication = false := by
  cases v <;> simp [restorePair, Value.isApplication]

/-- A pair is restored to the name and the initializer, whatever the name did to that. -/
theorem restorePair_applicationOf {name : String} (hname : name ≠ "quote") (v : Value) :
    restorePair (applicationOf .code [.symbol ⟨name, .any⟩, v]) =
      .list [.symbol ⟨name, .any⟩, initializerOf name v] := by
  cases ho : Operator.ofName? name with
  | none => simp only [applicationOf, initializerOf, ho, restorePair]
  | some o =>
    obtain rfl := Operator.name_of_ofName? ho
    simp only [applicationOf, initializerOf, ho, restorePair]
    cases o with
    | primitive p => rfl
    | form f =>
      cases f with
      | quote => exact absurd rfl hname
      | letIn => cases v <;> rfl
      | _ => rfl

/-! ### Lists that are read to their end -/

section Lists

variable {levels : Nat} {mode : Mode}

/-- What starts with a parenthesis is read as a list or not at all. -/
theorem list_of_expression {inside : List Char} {r : Value × List Char}
    (h : expression (levels + 1) mode ('(' :: inside) = .ok r) :
    list (expression levels .data) (expression levels mode) mode ('(' :: inside) = .ok r := by
  cases hlist : list (expression levels .data) (expression levels mode) mode ('(' :: inside) with
  | ok r' => rw [← h, expression_of_list hlist]
  | error e =>
    obtain ⟨e', he'⟩ := expression_of_list_error hlist
    rw [h] at he'
    cases he'

variable {element : Reader Value} {s t rest : List Char}

/-- If the closing parenthesis follows, what stands in front of it was read. -/
theorem elements_of_close (hstart : startsWithLayout s = false) (hs : ∀ u, s ≠ ')' :: u)
    (h : skipLayout (elements element s).2 = ')' :: rest) :
    ∃ x after, element s = .ok (x, after) ∧
      elements element s = (x :: (furtherElements element after).1,
        (furtherElements element after).2) := by
  cases hx : element s with
  | ok p => exact ⟨p.1, p.2, rfl, by simp only [elements, hx]⟩
  | error e =>
    have hnone : elements element s = ([], s) := by simp only [elements, hx]
    rw [hnone, skipLayout_eq_self hstart] at h
    exact absurd h (hs rest)

theorem furtherElements_of_close (helement : element.LeavesSuffix) (hsep : separator? s = some t)
    (ht : ∀ u, t ≠ ')' :: u) (h : skipLayout (furtherElements element s).2 = ')' :: rest) :
    ∃ x after, element t = .ok (x, after) ∧
      furtherElements element s = (x :: (furtherElements element after).1,
        (furtherElements element after).2) := by
  cases hx : element t with
  | error e =>
    rw [← skipLayout_of_separator? hsep] at hx
    rw [furtherElements_of_error hx, skipLayout_of_separator? hsep] at h
    exact absurd h (ht rest)
  | ok p =>
    have hlt : p.2.length < s.length :=
      Nat.lt_of_le_of_lt (helement t p.1 p.2 hx).length_le (length_lt_of_separator? hsep)
    exact ⟨p.1, p.2, rfl, furtherElements_of_read hsep hx hlt⟩

/-- Before the closing parenthesis no element is read. -/
theorem furtherElements_close (hclose : ∀ u, ∃ e, element (')' :: u) = .error e)
    (hs : skipLayout s = ')' :: rest) : furtherElements element s = ([], s) := by
  obtain ⟨e, he⟩ := hclose rest
  rw [← hs] at he
  exact furtherElements_of_error he

end Lists

theorem skipFrom_comment {t : List Char} (ht : '\n' ∉ t) : skipFrom true t = [] := by
  induction t with
  | nil => rfl
  | cons c t ih =>
    rw [List.mem_cons, not_or] at ht
    rw [skipFrom, if_pos rfl, bne_iff_ne.2 (Ne.symm ht.1)]
    exact ih ht.2

/-- What follows layout stays, unless the layout ends within a comment, which then takes in the
rest of the line. -/
theorem skipFrom_append_of_nil {inComment : Bool} {s : List Char} (h : skipFrom inComment s = [])
    {t : List Char} (ht : '\n' ∉ t) :
    skipFrom inComment (s ++ t) = [] ∨ skipFrom inComment (s ++ t) = skipLayout t := by
  induction s generalizing inComment with
  | nil =>
    cases inComment with
    | true => exact Or.inl (skipFrom_comment ht)
    | false => exact Or.inr rfl
  | cons c s ih =>
    rw [List.cons_append]
    rw [skipFrom] at h ⊢
    split at h
    case isTrue hcomment =>
      rw [if_pos hcomment]
      exact ih h
    case isFalse hcomment =>
      rw [if_neg hcomment]
      split at h
      case isTrue hblank =>
        rw [if_pos hblank]
        exact ih h
      case isFalse hblank =>
        rw [if_neg hblank]
        split at h
        case isTrue hmark =>
          rw [if_pos hmark]
          exact ih h
        case isFalse => cases h

/-! ### The text of a let -/

section LetText

variable {name init : String}

/-- What stands behind the initializer. -/
def closing (name : String) : List Char := ')' :: ')' :: ' ' :: (name.toList ++ [')'])

theorem toList_letText (name init : String) :
    (letText name init).toList =
      '(' :: ("let".toList ++ ' ' :: '(' :: '(' ::
        (name.toList ++ ' ' :: (init.toList ++ closing name))) := by
  simp [letText, closing]

theorem endsWord_closing (name : String) : EndsWord (closing name) := endsWord_cons (by decide)

theorem not_mem_closing (hname : Symbol.isName name.toList = true) : '\n' ∉ closing name := by
  have hnewline : '\n' ∉ name.toList := fun hmem =>
    absurd (Symbol.isNameChar_of_isName hname _ hmem) (by decide)
  simp [closing, hnewline]

/-- An element that is a name. -/
theorem expression_name (levels : Nat) (mode : Mode) (hname : Symbol.isName name.toList = true)
    {rest : List Char} (hrest : EndsWord rest) :
    expression (levels + 1) mode (name.toList ++ rest) = .ok (.symbol ⟨name, .any⟩, rest) :=
  expression_symbol (a := ⟨name, .any⟩) levels mode hname hrest

theorem startsWithLayout_name (hname : Symbol.isName name.toList = true) (rest : List Char) :
    startsWithLayout (name.toList ++ rest) = false := by
  obtain ⟨c, s, htext, hc, -⟩ := exists_text_eq_cons (a := ⟨name, .any⟩) hname
  rw [show name.toList = c :: s from htext]
  exact startsWithLayout_of_isNameChar hc _

theorem name_ne_close (hname : Symbol.isName name.toList = true) (rest t : List Char) :
    name.toList ++ rest ≠ ')' :: t := by
  obtain ⟨c, s, htext, hc, -⟩ := exists_text_eq_cons (a := ⟨name, .any⟩) hname
  rw [show name.toList = c :: s from htext]
  intro h
  exact Symbol.ne_of_isNameChar hc (by decide) (List.cons.inj h).1

/-- Nothing but the name itself is read where a name stands. -/
theorem eq_of_expression_name {levels : Nat} {mode : Mode}
    (hname : Symbol.isName name.toList = true) {s rest : List Char} (hs : EndsWord s) {x : Value}
    (h : expression levels mode (name.toList ++ s) = .ok (x, rest)) :
    x = .symbol ⟨name, .any⟩ ∧ rest = s := by
  cases levels with
  | zero => cases h
  | succ levels =>
    rw [expression_name levels mode hname hs] at h
    cases h
    exact ⟨rfl, rfl⟩

/-- What can be read does not start with a parenthesis that closes. -/
theorem skipLayout_ne_close {levels : Nat} {mode : Mode} {s t : List Char}
    {r : Value × List Char} (h : expression levels mode s = .ok r) : skipLayout s ≠ ')' :: t := by
  intro hskip
  cases levels with
  | zero => cases h
  | succ levels =>
    obtain ⟨e, he⟩ := expression_close (levels + 1) mode t
    rw [← expression_skipLayout, hskip, he] at h
    cases h

/-- Behind the initializer its pair is closed, which no comment may hide. -/
theorem skipLayout_closing {left rest : List Char} (hname : Symbol.isName name.toList = true)
    (hleft : skipLayout left = []) (h : skipLayout (left ++ closing name) = ')' :: rest) :
    rest = (closing name).tail := by
  rcases skipFrom_append_of_nil hleft (not_mem_closing hname) with hskip | hskip
  · rw [skipLayout, hskip] at h
    cases h
  · rw [skipLayout, hskip] at h
    cases h
    rfl

/-- There is nothing to read between an initializer and what closes its pair. -/
theorem furtherElements_closing {left : List Char} (hname : Symbol.isName name.toList = true)
    (hleft : skipLayout left = []) (levels : Nat) (mode : Mode) :
    furtherElements (expression levels mode) (left ++ closing name) =
      ([], left ++ closing name) := by
  rcases skipFrom_append_of_nil hleft (not_mem_closing hname) with hskip | hskip
  · cases hx : expression levels mode [] with
    | error e =>
      rw [← hskip] at hx
      exact furtherElements_of_error hx
    | ok r => exact absurd hx (expression_nil levels mode r)
  · exact furtherElements_close (expression_close levels mode) hskip

variable {levels limit : Nat} {v p : Value} {left rest : List Char}

/-- An initializer is the expression that it is alone, read in the mode that its pair asks for. -/
theorem initializer_of_expression {mode : Mode} {w y : Value} {after : List Char}
    (hlevels : levels ≤ limit) (hinit : expression limit mode init.toList = .ok (w, left))
    (h : expression levels mode (skipLayout (init.toList ++ closing name)) = .ok (y, after)) :
    y = w ∧ after = left ++ closing name := by
  have halone := expression_continues (endsWord_closing name) (Nat.le_refl limit) mode _ _ _ hinit
  have hwithin := expression_continues endsWord_nil hlevels mode _ _ _ h
  obtain ⟨k, rfl⟩ : ∃ k, limit = k + 1 := by
    cases limit with
    | zero => cases hinit
    | succ k => exact ⟨k, rfl⟩
  rw [List.append_nil, List.append_nil, expression_skipLayout, halone] at hwithin
  cases hwithin
  exact ⟨rfl, rfl⟩

/-- The pair of a name and an initializer, before it is restored and after. -/
theorem pair_of_expression (hname : Symbol.isName name.toList = true) (hlevels : levels ≤ limit)
    (hinit : expression limit .code init.toList = .ok (v, left)) (hleft : skipLayout left = [])
    (h : expression (levels + 1) .code
      ('(' :: (name.toList ++ ' ' :: (init.toList ++ closing name))) = .ok (p, rest)) :
    restorePair p = .list [.symbol ⟨name, .any⟩, initializerOf name v] ∧
      rest = (closing name).tail := by
  obtain ⟨inside, hinside, hlist⟩ := list_eq_ok (list_of_expression h)
  cases hinside
  rw [skipLayout_eq_self (startsWithLayout_name hname _)] at hlist
  have hends : EndsWord (' ' :: (init.toList ++ closing name)) := endsWord_cons (by decide)
  have hsep : separator? (' ' :: (init.toList ++ closing name)) =
      some (skipLayout (init.toList ++ closing name)) := rfl
  rcases hlist with ⟨t, x, after, hquote, hx, hclose, rfl⟩ | ⟨hquote, hclose, rfl⟩
  · -- the head is the word `quote`, and the initializer is read as data
    have hq : name = "quote" := by
      by_contra hne
      have hnone := quoteHead?_symbol (a := ⟨name, .any⟩) hname
        (fun h => hne (congrArg Symbol.name h)) hends
      rw [show Symbol.text ⟨name, .any⟩ = name.toList from rfl, hquote] at hnone
      cases hnone
    have ht : quoteHead? (name.toList ++ ' ' :: (init.toList ++ closing name)) =
        some (skipLayout (init.toList ++ closing name)) := by
      rw [hq]
      rfl
    rw [ht] at hquote
    cases hquote
    have hdata := (expression_erases limit .code).ok hinit
    obtain ⟨rfl, rfl⟩ := initializer_of_expression hlevels hdata hx
    subst hq
    exact ⟨rfl, skipLayout_closing hname hleft hclose⟩
  · -- the initializer is compiled, and then the head decides
    have hq : name ≠ "quote" := by
      rintro rfl
      cases hquote
    have halone := expression_continues (endsWord_closing name) (Nat.le_refl limit) .code _ _ _
      hinit
    obtain ⟨x, after, hx, hxs⟩ := elements_of_close (startsWithLayout_name hname _)
      (name_ne_close hname _) hclose
    obtain ⟨rfl, rfl⟩ := eq_of_expression_name hname hends hx
    rw [hxs] at hclose ⊢
    obtain ⟨y, after, hy, hys⟩ := furtherElements_of_close (expression_leavesSuffix levels .code)
      hsep (fun _ => skipLayout_ne_close halone) hclose
    obtain ⟨rfl, rfl⟩ := initializer_of_expression hlevels hinit hy
    rw [hys, furtherElements_closing hname hleft] at hclose ⊢
    exact ⟨restorePair_applicationOf hq y, skipLayout_closing hname hleft hclose⟩

theorem bindings_of_expression (hname : Symbol.isName name.toList = true) (hlevels : levels ≤ limit)
    (hinit : expression limit .code init.toList = .ok (v, left)) (hleft : skipLayout left = [])
    (h : expression (levels + 2) .code
      ('(' :: '(' :: (name.toList ++ ' ' :: (init.toList ++ closing name))) = .ok (p, rest)) :
    ∃ pair, p = .list [pair] ∧
      restorePair pair = .list [.symbol ⟨name, .any⟩, initializerOf name v] ∧
      rest = (closing name).tail.tail := by
  obtain ⟨inside, hinside, hlist⟩ := list_eq_ok (list_of_expression h)
  cases hinside
  rw [skipLayout_eq_self rfl] at hlist
  rcases hlist with ⟨_, _, _, hquote, -⟩ | ⟨-, hclose, rfl⟩
  · cases hquote
  · obtain ⟨pair, after, hpair, hxs⟩ := elements_of_close rfl
      (fun _ h => absurd (List.cons.inj h).1 (by decide)) hclose
    obtain ⟨hrestore, rfl⟩ := pair_of_expression hname hlevels hinit hleft hpair
    have hend := furtherElements_close (expression_close (levels + 1) .code)
      (show skipLayout (closing name).tail = ')' :: (closing name).tail.tail from rfl)
    rw [hxs, hend] at hclose ⊢
    cases hclose
    refine ⟨pair, ?_, hrestore, rfl⟩
    cases pair with
    | symbol a => cases hrestore
    | _ => rfl

theorem let_of_expression (hname : Symbol.isName name.toList = true) (hlevels : levels ≤ limit)
    (hinit : expression limit .code init.toList = .ok (v, left)) (hleft : skipLayout left = [])
    (h : expression (levels + 3) .code (letText name init).toList = .ok (p, rest)) :
    p = letOf name (initializerOf name v) := by
  rw [toList_letText] at h
  have hlet : Symbol.isName "let".toList = true := by decide
  obtain ⟨inside, hinside, hlist⟩ := list_eq_ok (list_of_expression h)
  cases hinside
  rw [skipLayout_eq_self (startsWithLayout_name hlet _)] at hlist
  rcases hlist with ⟨_, _, _, hquote, -⟩ | ⟨-, hclose, rfl⟩
  · cases hquote
  · obtain ⟨x, after, hx, hxs⟩ := elements_of_close (startsWithLayout_name hlet _)
      (name_ne_close hlet _) hclose
    obtain ⟨rfl, rfl⟩ := eq_of_expression_name hlet (endsWord_cons (by decide)) hx
    rw [hxs] at hclose ⊢
    obtain ⟨bindings, after, hbindings, hys⟩ := furtherElements_of_close
      (expression_leavesSuffix (levels + 2) .code) rfl
      (fun _ h => absurd (List.cons.inj h).1 (by decide)) hclose
    obtain ⟨pair, rfl, hrestore, rfl⟩ := bindings_of_expression hname hlevels hinit hleft hbindings
    have hsep : separator? (closing name).tail.tail = some (name.toList ++ [')']) :=
      congrArg some (skipLayout_eq_self (startsWithLayout_name hname _))
    rw [hys] at hclose ⊢
    obtain ⟨y, after, hy, hzs⟩ := furtherElements_of_close
      (expression_leavesSuffix (levels + 2) .code) hsep (name_ne_close hname _) hclose
    obtain ⟨rfl, rfl⟩ := eq_of_expression_name hname (endsWord_cons (by decide)) hy
    have hend := furtherElements_close (expression_close (levels + 2) .code)
      (show skipLayout [')'] = [')'] from rfl)
    rw [hzs, hend]
    show Value.op (.form .letIn) [.list [restorePair pair], _] = _
    rw [hrestore]
    rfl

theorem eq_letOf_of_readExpression {u : Value} (hname : Symbol.isName name.toList = true)
    (hinit : readExpression init = .ok v) (hlet : readExpression (letText name init) = .ok u) :
    u = letOf name (initializerOf name v) := by
  obtain ⟨-, left, hread, hleft⟩ := expression_of_readExpression hinit
  obtain ⟨-, rest, hread', -⟩ := expression_of_readExpression hlet
  have hlevels : 29 ≤ maxNesting := by decide
  exact let_of_expression hname hlevels hread hleft hread'

end LetText

theorem initializerOf_of_ne {name : String} (hquote : name ≠ "quote") (hlambda : name ≠ "lambda")
    (hlet : name ≠ "let") (v : Value) : initializerOf name v = v := by
  cases ho : Operator.ofName? name with
  | none => simp only [initializerOf, ho]
  | some o =>
    obtain rfl := Operator.name_of_ofName? ho
    simp only [initializerOf, ho]
    cases o with
    | primitive p => rfl
    | form f =>
      cases f with
      | quote => exact absurd rfl hquote
      | lambda => exact absurd rfl hlambda
      | letIn => exact absurd rfl hlet
      | _ => rfl

theorem map_restorePair_eq_self_iff {vs : List Value} :
    vs.map restorePair = vs ↔ ∀ v ∈ vs, v.isApplication = false := by
  induction vs with
  | nil => simp
  | cons v vs ih => simp [ih, restorePair_eq_self_iff]

/-- Only three names change what is bound to them, and they change nothing in data. -/
theorem initializerOf_eq_self_iff {name : String} {v : Value} :
    initializerOf name v = v ↔ (name = "quote" ∨ name = "lambda" → v.isData = true) ∧
      (name = "let" → ∀ vs, v = .list vs → ∀ w ∈ vs, w.isApplication = false) := by
  have hplain : v.plain = v ↔ v.isData = true :=
    ⟨fun h => h ▸ Value.isData_plain v, Value.plain_of_isData⟩
  by_cases hquote : name = "quote"
  · subst hquote
    show v.plain = v ↔ _
    simp [hplain]
  by_cases hlambda : name = "lambda"
  · subst hlambda
    show v.plain = v ↔ _
    simp [hplain]
  by_cases hlet : name = "let"
  · subst hlet
    cases v with
    | list vs =>
      show Value.list (vs.map restorePair) = .list vs ↔ _
      simp [map_restorePair_eq_self_iff]
    | _ => exact iff_of_true rfl ⟨by simp, fun _ _ => nofun⟩
  · simp [initializerOf_of_ne hquote hlambda hlet, hquote, hlambda, hlet]

/-! ### Evaluating it -/

section Evaluation

variable {run : Runner} {levels : Nat} {name : String} {init w : Value} {e : EnvRef} {s t : Store}

/-- The scope of a `let` with one binding. -/
def scopeOf (name : String) (w : Value) (parent : EnvRef) : Environment :=
  ⟨Frame.put {} name (.slot ⟨.any, w⟩), .scope [.symbol ⟨name, .any⟩] (some parent)⟩

theorem lookup?_scopeOf (t : Store) (name : String) (w : Value) (e : EnvRef) :
    ({ t with environments := t.environments.push (scopeOf name w e) } : Store).lookup? name
      t.environments.size = some w := by
  have hframe : (({ t with environments := t.environments.push (scopeOf name w e) } : Store).frame
      t.environments.size).get? name = some (.slot ⟨.any, w⟩) := by
    rw [Store.frame_push, if_pos rfl]
    simp [scopeOf]
  have howner : ({ t with environments := t.environments.push (scopeOf name w e) } : Store).owner?
      name t.environments.size = some t.environments.size := by
    rw [Store.owner?, Array.size_push, Store.ownerWithin, Frame.binds, hframe]
    rfl
  obtain ⟨b, hb, hlookup⟩ := Store.lookup?_of_owner? howner
  rw [hframe] at hb
  cases hb
  exact hlookup

/-- The value of the initializer is the value of the `let`. -/
theorem run_evalWithin_letOf (h : (evalWithin run levels init e).run s = .ok w t) :
    (evalWithin run (levels + 1) (letOf name init) e).run s =
      .ok w { t with environments := t.environments.push (scopeOf name w e) } := by
  obtain ⟨levels, rfl⟩ : ∃ k, levels = k + 1 := by
    cases levels with
    | zero => cases h
    | succ k => exact ⟨k, rfl⟩
  have hdeclare : Frame.declare {} ⟨name, .any⟩ w = .ok (Frame.put {} name (.slot ⟨.any, w⟩)) :=
    Frame.declare_eq_ok_iff.2 ⟨rfl, rfl, rfl⟩
  have hbind : (Let.bindAll (evalWithin run (levels + 1)) e
      [.list [.symbol ⟨name, .any⟩, init]] {}).run s =
        .ok (Frame.put {} name (.slot ⟨.any, w⟩)) t := by
    simp [Let.bindAll, Let.parts, h, hdeclare]
  have hbody : (evalWithin run (levels + 1) (.symbol ⟨name, .any⟩) t.environments.size).run
      { t with environments := t.environments.push (scopeOf name w e) } =
        .ok w { t with environments := t.environments.push (scopeOf name w e) } :=
    run_evalWithin_symbol levels (lookup?_scopeOf t name w e)
  rw [evalWithin_succ]
  show (Let.run (evalWithin run (levels + 1)) ⟨_, _⟩ e).run s = _
  rw [Let.run, Action.run_bind_of_ok hbind]
  exact hbody

end Evaluation

/-- The initializer that a `let` stores is the expression that its text denotes alone, except that
`quote` and `lambda` keep nothing but data and `let` keeps no list with operator applications among
its elements. Where it is kept, the `let` has the value that the expression has one level deeper. -/
theorem initializer_is_kept_iff (name init : String) (v u : Value)
    (hname : Symbol.isName name.toList = true) (hinit : readExpression init = .ok v)
    (hlet : readExpression (letText name init) = .ok u) :
    ∃ v', u = letOf name v' ∧
      (v' = v ↔ (name = "quote" ∨ name = "lambda" → v.isData = true) ∧
        (name = "let" → ∀ vs, v = .list vs → ∀ w ∈ vs, w.isApplication = false)) ∧
      (v' = v → ∀ (host : Host) (depth : Nat) (e : EnvRef) (s t : Store) (w : Value),
        (evalAt host (depth + 1) v e).run s = .ok w t →
          ∃ t', (evalAt host depth u e).run s = .ok w t') := by
  have hu := eq_letOf_of_readExpression hname hinit hlet
  refine ⟨initializerOf name v, hu, initializerOf_eq_self_iff, ?_⟩
  intro hkept host depth e s t w hw
  rw [hkept] at hu
  obtain ⟨levels, hlevels, hlevels'⟩ :
      ∃ k, maxDepth - (depth + 1) = k ∧ maxDepth - depth = k + 1 := by
    refine ⟨maxDepth - (depth + 1), rfl, ?_⟩
    by_contra hdepth
    have hzero : maxDepth - (depth + 1) = 0 := by omega
    rw [evalAt, hzero] at hw
    cases hw
  rw [evalAt, hlevels] at hw
  rw [hu, evalAt, hlevels']
  exact ⟨_, run_evalWithin_letOf hw⟩

/-- The name of a special form is bound to a compiled expression. -/
theorem initializer_is_kept_of_form_name :
    ∃ v u, readExpression "(car '(1 2))" = .ok v ∧
      readExpression (letText "if" "(car '(1 2))") = .ok u ∧ u = letOf "if" v ∧
      ∃ t, (evalAt (fun _ _ => .ok .unspecified) 0 u 0).run {} = .ok (.number 1) t := by
  have hname : Symbol.isName "if".toList = true := by decide
  have hinit : readExpression "(car '(1 2))" = .ok (.op (.primitive .car)
    [.op (.form .quote) [.list [.number 1, .number 2]]]) := by cbv
  have hlet : readExpression (letText "if" "(car '(1 2))") = .ok (letOf "if"
    (.op (.primitive .car) [.op (.form .quote) [.list [.number 1, .number 2]]])) := by cbv
  obtain ⟨v', hu, hkept, hvalue⟩ := initializer_is_kept_iff "if" _ _ _ hname hinit hlet
  have hv' := hkept.2 ⟨by simp, by simp⟩
  exact ⟨_, _, hinit, hlet, rfl, hvalue hv' _ 0 0 {} {} (.number 1) rfl⟩

/-- Bound to `lambda`, an expression that has a value is no longer evaluated as that expression. -/
theorem initializer_is_lost_after_lambda :
    ∃ v u root s, readExpression "(if #t 1 2)" = .ok v ∧
      readExpression (letText "lambda" "(if #t 1 2)") = .ok u ∧ u ≠ letOf "lambda" v ∧
      Environment.createGlobal.run {} = .ok root s ∧
      (evalAt (fun _ _ => .ok .unspecified) 1 v root).run s = .ok (.number 1) s ∧
      (evalAt (fun _ _ => .ok .unspecified) 0 u root).run s =
        .error (.unboundVariable "if") s := by
  have hinit : readExpression "(if #t 1 2)" =
      .ok (.op (.form .cond) [.bool true, .number 1, .number 2]) := by cbv
  have hlet : readExpression (letText "lambda" "(if #t 1 2)") = .ok (letOf "lambda"
      (.list [.symbol ⟨"if", .any⟩, .bool true, .number 1, .number 2])) := by cbv
  refine ⟨_, _, _, _, hinit, hlet, ?_, Store.run_createGlobal {}, rfl, rfl⟩
  rintro ⟨⟩

end Source
end LexicalLisp
