import LexicalLisp.Evaluation.Eval

/-!
# Two evaluations side by side

A correspondence relates the stores of two evaluations of one expression, and says what
holds of the code that they run and of the values that they meet. The values themselves are
equal on both sides, and so are the errors, unless the correspondence lets one error stand for
another. What is known grows while evaluation proceeds: `World` is what is known at one moment,
and `grows e` is how evaluation in the environment `e` may extend it.

`Lawful` lists what the operations of the evaluator have to respect. Everything that is
proved of evaluation as a whole follows from these laws (`Lawful.evalWithin` in the next
module); a property of one evaluation is a correspondence of the evaluation with itself.
-/
namespace LexicalLisp

/-- The initializer of one binding of a `let`, if the binding has its shape. -/
def Let.initializer? : Value → Option Value
  | .list [.symbol _, init] => some init
  | _ => none

/-- The arguments of a special form, or parts of them, that are evaluated at some time. -/
def SpecialForm.parts : SpecialForm → List Value → List Value
  | quote, _ => []
  | define, args => args.tail
  | assign, args => args.tail
  | lambda, args => args.tail
  | defun, args => args.tail.tail
  | letIn, .list bindings :: body => bindings.filterMap Let.initializer? ++ body
  | letIn, _ => []
  | _, args => args

/-- The expressions that lie directly in this one and are evaluated at some time. -/
def Value.parts : Value → List Value
  | .list elements => elements
  | .op (.primitive _) args => args
  | .op (.form f) args => f.parts args
  | _ => []

/-- The name that evaluating the expression itself looks up, declares or assigns. -/
def Value.mentioned? : Value → Option String
  | .symbol s => some s.name
  | .op (.primitive p) _ => some p.name
  | .op (.form .define) (.symbol s :: _) => some s.name
  | .op (.form .assign) (.symbol s :: _) => some s.name
  | .op (.form .defun) (.symbol s :: _) => some s.name
  | _ => none

/-- Whether the expression stands for itself. -/
def Value.isLiteral : Value → Bool
  | .symbol _ | .list _ | .op _ _ => false
  | _ => true

/-- The frame binds variables only, and their values are admitted by their kinds. -/
def Frame.Variables (data : Value → Prop) (f : Frame) : Prop :=
  ∀ entry ∈ f.entries,
    ∃ slot, entry.2 = .slot slot ∧ slot.kind.admits slot.value = true ∧ data slot.value

namespace Frame

theorem variables_empty {data : Value → Prop} : Variables data {} := by
  intro entry hentry
  cases hentry

theorem Variables.of_get? {data : Value → Prop} {f : Frame} {name : String} {b : Binding}
    (hf : f.Variables data) (hb : f.get? name = some b) :
    ∃ slot, b = .slot slot ∧ slot.kind.admits slot.value = true ∧ data slot.value :=
  hf (name, b) (mem_of_get? hb)

theorem Variables.imp {data data' : Value → Prop} {f : Frame} (hf : f.Variables data)
    (h : ∀ v, data v → data' v) : f.Variables data' := by
  intro entry hentry
  obtain ⟨slot, hslot, hk, hv⟩ := hf entry hentry
  exact ⟨slot, hslot, hk, h _ hv⟩

theorem Variables.declare {data : Value → Prop} {f g : Frame} {s : Symbol} {v : Value}
    (hf : f.Variables data) (hv : data v) (h : f.declare s v = .ok g) : g.Variables data := by
  obtain ⟨hk, _, rfl⟩ := declare_eq_ok_iff.1 h
  intro entry hentry
  rcases mem_put hentry with rfl | hentry
  · exact ⟨_, rfl, hk, hv⟩
  · exact hf entry hentry

theorem Variables.declareAll {data : Value → Prop} {f g : Frame} {ps : List Symbol}
    {vs : List Value} (hf : f.Variables data) (hv : ∀ v ∈ vs, data v)
    (h : f.declareAll ps vs = .ok g) : g.Variables data := by
  induction ps generalizing f vs with
  | nil => cases h; exact hf
  | cons p ps ih =>
    cases vs with
    | nil => cases h; exact hf
    | cons v vs =>
      cases hd : f.declare p v with
      | error x => simp [Frame.declareAll, hd, bind, Except.bind] at h
      | ok f₁ =>
        have hf₁ := hf.declare (hv v List.mem_cons_self) hd
        refine ih hf₁ (fun u hu => hv u (List.mem_cons_of_mem v hu)) ?_
        simpa [Frame.declareAll, hd, bind, Except.bind] using h

end Frame

theorem Let.initializer?_of_parts {v : Value} {s : Symbol} {init : Value}
    (h : Let.parts v = .ok (s, init)) : Let.initializer? v = some init := by
  unfold Let.parts at h
  split at h
  · cases h
    rfl
  · cases h

theorem FunctionRef.mem_of_select {f : FunctionRef} {os : List Overload} {n : Nat} {o : Overload}
    (h : f.select os n = .ok o) : o ∈ os := by
  unfold select at h
  split at h
  case h_1 o' ho =>
    cases h
    exact List.mem_of_find?_eq_some ho
  case h_2 => split at h <;> cases h

/-- The overload that a call with so many arguments runs, and the environment that the function
was defined in. -/
def FunctionRef.choose (f : FunctionRef) (s : Store) (given : Nat) :
    Except Error (Overload × EnvRef) :=
  match s.closures[f.index]? with
  | none => .error (.evaluation (.noOverload f.name given []) [])
  | some c => (f.select c.overloads given).map fun o => (o, c.home)

theorem FunctionRef.choose_congr {f : FunctionRef} {s s' : Store}
    (h : s'.closures[f.index]? = s.closures[f.index]?) (given : Nat) :
    f.choose s' given = f.choose s given := by
  rw [choose, choose, h]

theorem FunctionRef.exists_of_choose {f : FunctionRef} {s : Store} {given : Nat} {o : Overload}
    {home : EnvRef} (h : f.choose s given = .ok (o, home)) :
    ∃ c, s.closures[f.index]? = some c ∧ f.select c.overloads given = .ok o ∧ c.home = home := by
  unfold choose at h
  split at h
  case h_1 => cases h
  case h_2 c hc =>
    cases ho : f.select c.overloads given with
    | error x =>
      rw [ho] at h
      cases h
    | ok o' =>
      rw [ho] at h
      cases h
      exact ⟨c, hc, ho, rfl⟩

/-- Evaluates the body in a new scope inside `home` that binds the parameters. -/
def Overload.enter (eval : Evaluator) (o : Overload) (name : String) (home : EnvRef)
    (args : List Value) : Action Value := do
  let frame ← Action.ofExcept (Frame.declareAll {} o.params args)
  let scope ← Environment.create ⟨frame, .scope o.body (some home)⟩
  Action.noting (.inFunction name) (evalBody eval o.body scope)

/-- A call chooses an overload and enters it. -/
theorem FunctionRef.run_call (eval : Evaluator) (f : FunctionRef) (args : List Value) (s : Store) :
    (f.call eval args).run s =
      (Action.ofExcept (f.choose s args.length) >>= fun (o, home) =>
        o.enter eval f.name home args).run s := by
  unfold call choose
  rw [EStateM.run_bind, EStateM.run_get]
  cases hc : s.closures[f.index]? with
  | none =>
    simp only [hc]
    rfl
  | some c =>
    simp only [hc]
    cases f.select c.overloads args.length <;> rfl

theorem FunctionRef.run_call_of_select (eval : Evaluator) {f : FunctionRef} {c : Closure}
    {o : Overload} {args : List Value} {s : Store} (hc : s.closures[f.index]? = some c)
    (ho : f.select c.overloads args.length = .ok o) :
    (f.call eval args).run s = (o.enter eval f.name c.home args).run s := by
  have hchoose : f.choose s args.length = .ok (o, c.home) := by
    simp only [choose, hc, ho]
    rfl
  rw [run_call, hchoose]
  rfl

/-- No two parameters have one name. -/
def Overload.Distinct (o : Overload) : Prop := (o.params.map Symbol.name).Nodup

namespace Overload

theorem distinct_of_repeated? {seen : List String} {ps : List Symbol}
    (h : repeated? seen ps = none) :
    (ps.map Symbol.name).Nodup ∧ ∀ p ∈ ps, p.name ∉ seen := by
  induction ps generalizing seen with
  | nil => simp
  | cons p ps ih =>
    unfold repeated? at h
    split at h
    case isTrue => cases h
    case isFalse hp =>
      obtain ⟨hnodup, hseen⟩ := ih h
      have hne : ∀ q ∈ ps, q.name ≠ p.name ∧ q.name ∉ seen := fun q hq => by
        simpa [not_or] using hseen q hq
      constructor
      · rw [List.map_cons, List.nodup_cons]
        refine ⟨?_, hnodup⟩
        intro hmem
        obtain ⟨q, hq, heq⟩ := List.mem_map.1 hmem
        exact (hne q hq).1 heq
      · intro q hq
        rcases List.mem_cons.1 hq with rfl | hq
        · exact hp
        · exact (hne q hq).2

theorem ofParams_eq_ok {ps : List Symbol} {body : List Value} {o : Overload}
    (h : ofParams ps body = .ok o) : o.Distinct ∧ o = ⟨ps, body⟩ := by
  unfold ofParams at h
  split at h
  case h_1 => cases h
  case h_2 hr =>
    cases h
    exact ⟨(distinct_of_repeated? hr).1, rfl⟩

end Overload

/-- The overload that a parameter list and a body denote has distinct parameters. -/
theorem SpecialForm.implementation_eq_ok {params : Value} {body : List Value} {o : Overload}
    (h : implementation params body = .ok o) : o.Distinct ∧ o.body = body := by
  unfold implementation at h
  cases hp : parameters params with
  | error x => simp [hp, bind, Except.bind] at h
  | ok ps =>
    have h : Overload.ofParams ps body = .ok o := by simpa [hp, bind, Except.bind] using h
    obtain ⟨hd, rfl⟩ := Overload.ofParams_eq_ok h
    exact ⟨hd, rfl⟩

structure Correspondence where
  World : Type
  /-- The names that the code may mention. -/
  name : String → Prop
  code : World → Value → Prop
  data : World → Value → Prop
  /-- The environments in which evaluation may go on. -/
  here : World → EnvRef → Prop
  related : World → Store → Store → Prop
  grows : EnvRef → World → World → Prop
  /-- After these errors of the first evaluation nothing is said of the second. -/
  cut : Error → Prop
  /-- An error of the second evaluation that stands for one of the first. -/
  alike : Error → Error → Prop := Eq

namespace Correspondence

variable (C : Correspondence) {α β : Type}

/-- The second check has the result of the first, or an error that stands for the first one's. -/
def Matches : Except Error α → Except Error α → Prop
  | .ok a, r => r = .ok a
  | .error x, r => ∃ y, r = .error y ∧ C.alike x y

/-- The second result is the first, but for the store, and what is known has grown. -/
def Agrees (e : EnvRef) (w : C.World) (P : C.World → α → Prop) :
    EStateM.Result Error Store α → EStateM.Result Error Store α → Prop
  | .ok a t, r => ∃ w' t', r = .ok a t' ∧ C.grows e w w' ∧ C.related w' t t' ∧ P w' a
  | .error x t, r =>
    C.cut x ∨ ∃ y w' t', r = .error y t' ∧ C.alike x y ∧ C.grows e w w' ∧ C.related w' t t'

/-- From related stores the two actions have results that agree. -/
def Follows (e : EnvRef) (w : C.World) (P : C.World → α → Prop) (a a' : Action α) : Prop :=
  ∀ s s', C.related w s s' → C.Agrees e w P (a.run s) (a'.run s')

/-- Two evaluators that agree on all code. -/
def Evaluators (eval eval' : Evaluator) : Prop :=
  ∀ e w x, C.here w e → C.code w x → C.Follows e w C.data (eval x e) (eval' x e)

/-- What the operations of the evaluator have to respect. -/
structure Lawful (run run' : Runner) : Prop where
  grows_refl : ∀ e w, C.grows e w w
  grows_trans : ∀ {e w w₁ w₂}, C.grows e w w₁ → C.grows e w₁ w₂ → C.grows e w w₂
  here_mono : ∀ {e w w' d}, C.grows e w w' → C.here w d → C.here w' d
  code_mono : ∀ {e w w' x}, C.grows e w w' → C.code w x → C.code w' x
  data_mono : ∀ {e w w' v}, C.grows e w w' → C.data w v → C.data w' v
  cut_note : ∀ {x line}, C.cut x → C.cut (x.note line)
  alike_refl : ∀ x, C.alike x x
  alike_note : ∀ {x y line}, C.alike x y → C.alike (x.note line) (y.note line)
  part : ∀ {w x y}, C.code w x → y ∈ x.parts → C.code w y
  mentioned : ∀ {w x n}, C.code w x → x.mentioned? = some n → C.name n
  literal : ∀ {w x}, C.code w x → x.isLiteral = true → C.data w x
  quoted : ∀ {w x}, C.code w (.op (.form .quote) [x]) → C.data w x
  bool : ∀ w b, C.data w (.bool b)
  nil : ∀ w, C.data w .nil
  unspecified : ∀ w, C.data w .unspecified
  primitive : ∀ w p, C.data w (.builtin (Primitive.name p) (.primitive p))
  computed : ∀ {w id c vs}, C.data w (.builtin id c) → (∀ v ∈ vs, C.data w v) →
    run' c vs = run c vs ∧ ∀ v, run c vs = .ok v → C.data w v
  lookup : ∀ {w s s' e n}, C.related w s s' → C.here w e → C.name n →
    s'.lookup? n e = s.lookup? n e ∧ ∀ v, s.lookup? n e = some v → C.data w v
  closure : ∀ {w s s' f}, C.related w s s' → C.data w (.function f) →
    (∀ given, C.Matches (f.choose s given) (f.choose s' given)) ∧
      ∀ c, s.closures[f.index]? = some c →
        C.here w c.home ∧ ∀ o ∈ c.overloads, ∀ x ∈ o.body, C.code w x
  define : ∀ {w e n slot}, C.here w e → C.name n → slot.kind.admits slot.value = true →
    C.data w slot.value → C.Follows e w (fun _ _ => True) (e.define n slot) (e.define n slot)
  assign : ∀ {w e n v}, C.here w e → C.name n → C.data w v →
    C.Follows e w (fun _ _ => True) (e.assign n v) (e.assign n v)
  defun : ∀ {w e n o}, C.here w e → C.name n → o.Distinct → (∀ x ∈ o.body, C.code w x) →
    C.Follows e w (fun _ _ => True) (e.defun n o) (e.defun n o)
  lambda : ∀ {w e o}, C.here w e → o.Distinct → (∀ x ∈ o.body, C.code w x) →
    C.Follows e w (fun w' f => C.data w' (.function f))
      (FunctionRef.create "lambda" o e) (FunctionRef.create "lambda" o e)
  /-- What evaluation in a new scope inside `parent` learns, evaluation in `e` may learn. -/
  enter : ∀ {w s s' e parent frame} {body : List Value}, C.related w s s' → C.here w e →
    C.here w parent → frame.Variables (C.data w) → (∀ x ∈ body, C.code w x) →
    s'.environments.size = s.environments.size ∧
      ∃ w₁, C.related w₁
          { s with environments := s.environments.push ⟨frame, .scope body (some parent)⟩ }
          { s' with environments := s'.environments.push ⟨frame, .scope body (some parent)⟩ } ∧
        C.here w₁ s.environments.size ∧
        ∀ w₂, C.grows s.environments.size w₁ w₂ → C.grows e w w₂

variable {C} {e : EnvRef} {w : C.World} {P : C.World → α → Prop} {Q : C.World → β → Prop}

/-- Results that agree from a later moment on agree from an earlier one. -/
theorem Agrees.of_grows {e' : EnvRef} {w₁ : C.World} {r r' : EStateM.Result Error Store α}
    (h : C.Agrees e' w₁ P r r') (hg : ∀ w', C.grows e' w₁ w' → C.grows e w w') :
    C.Agrees e w P r r' := by
  cases r with
  | error x t =>
    rcases h with hc | ⟨y, w', t', hr, hy, hw, hs⟩
    · exact Or.inl hc
    · exact Or.inr ⟨y, w', t', hr, hy, hg w' hw, hs⟩
  | ok a t =>
    obtain ⟨w', t', hr, hw, hs, ha⟩ := h
    exact ⟨w', t', hr, hg w' hw, hs, ha⟩

theorem matches_refl (h : ∀ x, C.alike x x) (x : Except Error α) : C.Matches x x := by
  cases x with
  | error x => exact ⟨x, rfl, h x⟩
  | ok a => exact rfl

/-- Where a function is the same in both stores, calls choose the same. -/
theorem matches_choose (h : ∀ x, C.alike x x) {f : FunctionRef} {s s' : Store}
    (hf : s'.closures[f.index]? = s.closures[f.index]?) (given : Nat) :
    C.Matches (f.choose s given) (f.choose s' given) := by
  rw [FunctionRef.choose_congr hf]
  exact matches_refl h _

/-- Actions that start by reading the store follow each other if they do from related stores. -/
theorem follows_get {f f' : Store → Action α}
    (h : ∀ s s', C.related w s s' → C.Agrees e w P ((f s).run s) ((f' s').run s')) :
    C.Follows e w P (get >>= f) (get >>= f') := fun s s' hs => h s s' hs

theorem follows_throw (h : ∀ e w, C.grows e w w) {x y : Error} (hxy : C.alike x y) :
    C.Follows e w P (throw x) (throw y) :=
  fun _ s' hs => Or.inr ⟨y, w, s', rfl, hxy, h e w, hs⟩

theorem follows_pure (h : ∀ e w, C.grows e w w) {x : α} (hx : P w x) :
    C.Follows e w P (pure x) (pure x) :=
  fun _ s' hs => ⟨w, s', rfl, h e w, hs, hx⟩

/-! ### Operations in two stores that agree on what they read -/

section Operations

variable {s s' : Store} {n : String} {R : C.World → Unit → Prop}
  (herror : ∀ x, C.Agrees e w R (.error x s) (.error x s'))
include herror

theorem agrees_define {slot : Slot} (hbinds : (s'.frame e).binds n = (s.frame e).binds n)
    (hok : C.Agrees e w R (.ok () (s.bind e n (.slot slot))) (.ok () (s'.bind e n (.slot slot)))) :
    C.Agrees e w R ((e.define n slot).run s) ((e.define n slot).run s') := by
  rw [EnvRef.run_define, EnvRef.run_define, hbinds]
  split
  · exact herror _
  · exact hok

theorem agrees_assign {v : Value} (howner : s'.owner? n e = s.owner? n e)
    (hframe : ∀ o, s.owner? n e = some o → (s'.frame o).get? n = (s.frame o).get? n)
    (hok : ∀ (o : EnvRef) (slot : Slot), s.owner? n e = some o →
      C.Agrees e w R (.ok () (s.bind o n (.slot { slot with value := v })))
        (.ok () (s'.bind o n (.slot { slot with value := v })))) :
    C.Agrees e w R ((e.assign n v).run s) ((e.assign n v).run s') := by
  cases ho : s.owner? n e with
  | none =>
    rw [EnvRef.run_assign_none ho, EnvRef.run_assign_none (howner.trans ho)]
    exact herror _
  | some o =>
    have hbinds := Store.binds_of_owner? ho
    have hb' := hframe o ho
    cases hb : (s.frame o).get? n with
    | none => simp [Frame.binds, hb] at hbinds
    | some b =>
      rw [hb] at hb'
      cases b with
      | function f =>
        rw [EnvRef.run_assign_function ho hb, EnvRef.run_assign_function (howner.trans ho) hb']
        exact herror _
      | slot slot =>
        rw [EnvRef.run_assign_slot ho hb, EnvRef.run_assign_slot (howner.trans ho) hb']
        split
        · exact hok o slot ho
        · exact herror _

theorem agrees_overload {f : FunctionRef} {o : Overload}
    (harities : o.arity ∈ s'.arities f ↔ o.arity ∈ s.arities f)
    (hok : o.arity ∉ s.arities f → C.Agrees e w R
      (.ok () { s with
        closures := s.closures.modify f.index fun c => { c with overloads := c.overloads ++ [o] } })
      (.ok () { s' with
        closures := s'.closures.modify f.index fun c =>
          { c with overloads := c.overloads ++ [o] } })) :
    C.Agrees e w R ((f.overload o).run s) ((f.overload o).run s') := by
  rw [FunctionRef.run_overload, FunctionRef.run_overload]
  by_cases ho : o.arity ∈ s.arities f
  · rw [if_pos ho, if_pos (harities.2 ho)]
    exact herror _
  · rw [if_neg ho, if_neg (mt harities.1 ho)]
    exact hok ho

theorem agrees_defun {o : Overload} (hframe : (s'.frame e).get? n = (s.frame e).get? n)
    (hsize : s'.closures.size = s.closures.size)
    (hnew : C.Agrees e w R
      (.ok () (({ s with closures := s.closures.push ⟨[o], e⟩ } : Store).bind e n
        (.function ⟨n, s.closures.size⟩)))
      (.ok () (({ s' with closures := s'.closures.push ⟨[o], e⟩ } : Store).bind e n
        (.function ⟨n, s.closures.size⟩))))
    (hold : ∀ f, (s.frame e).get? n = some (.function f) →
      C.Agrees e w R ((f.overload o).run s) ((f.overload o).run s')) :
    C.Agrees e w R ((e.defun n o).run s) ((e.defun n o).run s') := by
  cases hb : (s.frame e).get? n with
  | none =>
    rw [EnvRef.run_defun_new hb, EnvRef.run_defun_new (hframe.trans hb), hsize]
    exact hnew
  | some b =>
    cases b with
    | function f =>
      rw [EnvRef.run_defun_function hb, EnvRef.run_defun_function (hframe.trans hb)]
      exact hold f hb
    | slot slot =>
      rw [EnvRef.run_defun_slot hb, EnvRef.run_defun_slot (hframe.trans hb)]
      exact herror _

end Operations

namespace Lawful

variable {run run' : Runner} (L : C.Lawful run run')
include L

theorem pure {x : α} (hx : P w x) : C.Follows e w P (Pure.pure x) (Pure.pure x) :=
  follows_pure L.grows_refl hx

theorem throw (x : Error) : C.Follows e w P (MonadExcept.throw x) (MonadExcept.throw x) :=
  follows_throw L.grows_refl (L.alike_refl x)

theorem ofMatches {x y : Except Error α} (hxy : C.Matches x y) (hx : ∀ a, x = .ok a → P w a) :
    C.Follows e w P (Action.ofExcept x) (Action.ofExcept y) := by
  cases x with
  | error x =>
    obtain ⟨y, rfl, hxy⟩ := hxy
    exact follows_throw L.grows_refl hxy
  | ok a =>
    subst hxy
    exact L.pure (hx a rfl)

theorem ofExcept {x : Except Error α} (hx : ∀ a, x = .ok a → P w a) :
    C.Follows e w P (Action.ofExcept x) (Action.ofExcept x) :=
  L.ofMatches (matches_refl L.alike_refl x) hx

theorem bind {a a' : Action α} {f f' : α → Action β} (ha : C.Follows e w P a a')
    (hf : ∀ w₁ x, C.grows e w w₁ → P w₁ x → C.Follows e w₁ Q (f x) (f' x)) :
    C.Follows e w Q (a >>= f) (a' >>= f') := by
  intro s s' hs
  have h := ha s s' hs
  rw [EStateM.run_bind, EStateM.run_bind]
  cases hr : a.run s with
  | error x t =>
    rw [hr] at h
    rcases h with hc | ⟨y, w₁, t', hr', hy, hw, ht⟩
    · exact Or.inl hc
    · rw [hr']
      exact Or.inr ⟨y, w₁, t', rfl, hy, hw, ht⟩
  | ok x t =>
    rw [hr] at h
    obtain ⟨w₁, t', hr', hw, ht, hx⟩ := h
    rw [hr']
    exact (hf w₁ x hw hx t t' ht).of_grows fun w₂ => L.grows_trans hw

theorem noting {a a' : Action α} (line : Note) (h : C.Follows e w P a a') :
    C.Follows e w P (Action.noting line a) (Action.noting line a') := by
  intro s s' hs
  have h := h s s' hs
  cases hr : a.run s with
  | ok x t =>
    rw [hr] at h
    obtain ⟨w₁, t', hr', h⟩ := h
    rw [Action.run_noting_ok hr]
    exact ⟨w₁, t', Action.run_noting_ok hr', h⟩
  | error x t =>
    rw [hr] at h
    rw [Action.run_noting_error hr]
    rcases h with hc | ⟨y, w₁, t', hr', hy, h⟩
    · exact Or.inl (L.cut_note hc)
    · exact Or.inr ⟨y.note line, w₁, t', Action.run_noting_error hr', L.alike_note hy, h⟩

end Lawful
end Correspondence
end LexicalLisp
