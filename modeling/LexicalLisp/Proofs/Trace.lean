import LexicalLisp.Evaluation.Eval
import LexicalLisp.Proofs.Depth

/-!
# Traces of evaluation

Evaluation is made of single steps: it begins to evaluate an expression, looks a name up, runs a
builtin, updates the store or checks something. A traced action does what an action does and lists
its steps, each with the store that it is taken from. A step that fails is the last one, so the
store at the end is the store of that step, and the error at the end is that of the step with notes
added.
-/
namespace LexicalLisp

/-! ### Errors with notes -/

namespace Error

theorem StemsFrom.trans {x y z : Error} (h : x.StemsFrom y) (h' : y.StemsFrom z) :
    x.StemsFrom z := by
  obtain ⟨lines, rfl⟩ := h
  obtain ⟨lines', rfl⟩ := h'
  exact ⟨lines ++ lines', List.foldl_append.symm⟩

theorem StemsFrom.kind {origin x : Error} (h : origin.StemsFrom x) : x.kind = origin.kind := by
  obtain ⟨lines, rfl⟩ := h
  induction lines generalizing origin with
  | nil => rfl
  | cons line lines ih => rw [List.foldl_cons, ih, kind_note]

/-- Evaluation errors and type errors are the only ones that take notes. -/
theorem StemsFrom.eq_of_kind {origin x : Error} (h : origin.StemsFrom x)
    (hevaluation : x.kind ≠ .evaluation) (htype : x.kind ≠ .type) : x = origin := by
  rw [h.kind] at hevaluation htype
  refine h.eq fun line => ?_
  cases origin with
  | evaluation => exact absurd rfl hevaluation
  | type => exact absurd rfl htype
  | _ => rfl

theorem trailMessage_append (trail trail' : List Note) :
    Note.trailMessage (trail ++ trail') = Note.trailMessage trail ++ Note.trailMessage trail' := by
  simp [Note.trailMessage]

/-- A note is one more line of the message, if the error takes it. -/
theorem exists_message_note (line : Note) (x : Error) :
    ∃ trail, (x.note line).message = x.message ++ Note.trailMessage trail := by
  cases x with
  | evaluation fault noted =>
    refine ⟨[line], ?_⟩
    show "EvaluationError: " ++ fault.message ++ Note.trailMessage (noted ++ [line]) = _
    rw [trailMessage_append, ← String.append_assoc]
    rfl
  | type fault noted =>
    refine ⟨[line], ?_⟩
    show "Type error: " ++ fault.message ++ Note.trailMessage (noted ++ [line]) = _
    rw [trailMessage_append, ← String.append_assoc]
    rfl
  | _ => exact ⟨[], by simp [note, Note.trailMessage]⟩

theorem StemsFrom.message {origin x : Error} (h : origin.StemsFrom x) :
    ∃ trail, x.message = origin.message ++ Note.trailMessage trail := by
  obtain ⟨lines, rfl⟩ := h
  induction lines generalizing origin with
  | nil => exact ⟨[], by simp [Note.trailMessage]⟩
  | cons line lines ih =>
    obtain ⟨trail, htrail⟩ := exists_message_note line origin
    obtain ⟨trail', htrail'⟩ := @ih (origin.note line)
    refine ⟨trail ++ trail', ?_⟩
    rw [List.foldl_cons, htrail', htrail, trailMessage_append, String.append_assoc]

end Error

/-! ### Steps -/

/-- The overloads of a function that is called with so many arguments. -/
def FunctionRef.closure (f : FunctionRef) (given : Nat) : Action Closure := do
  match (← get).closures[f.index]? with
  | some closure => return closure
  | none => throw (.evaluation (.noOverload f.name given []) [])

theorem FunctionRef.run_closure_of_some {f : FunctionRef} {c : Closure} {s : Store}
    (hc : s.closures[f.index]? = some c) (given : Nat) : (f.closure given).run s = .ok c s := by
  simp only [closure, EStateM.run_bind, EStateM.run_get, hc]
  rfl

theorem FunctionRef.run_closure_of_none {f : FunctionRef} {s : Store}
    (hc : s.closures[f.index]? = none) (given : Nat) :
    (f.closure given).run s = .error (.evaluation (.noOverload f.name given []) []) s := by
  simp only [closure, EStateM.run_bind, EStateM.run_get, hc]
  rfl

/-- The value of the name along the chain, which must have one. -/
def EnvRef.lookup (e : EnvRef) (name : String) : Action Value := do
  match (← get).lookup? name e with
  | some v => return v
  | none => throw (.unboundVariable name)

/-- One step of an evaluation. -/
inductive Step where
  /-- Begins with an expression, unless no levels are left. -/
  | evaluate (levels : Nat) (expr : Value) (e : EnvRef)
  | lookup (name : String) (e : EnvRef)
  /-- Looks for what shadows a primitive. -/
  | shadowing (p : Primitive) (e : EnvRef)
  | closure (f : FunctionRef) (given : Nat)
  | run (code : Code) (args : List Value)
  | create (env : Environment)
  | define (name : String) (slot : Slot) (e : EnvRef)
  | assign (name : String) (v : Value) (e : EnvRef)
  | lambda (o : Overload) (e : EnvRef)
  | defun (name : String) (o : Overload) (e : EnvRef)
  /-- Checks a shape, a count of arguments, a kind, a name to be bound or a truth value. -/
  | check (verdict : Except Error Unit)

/-- What a step does to the store. -/
def Step.perform (runner : Runner) : Step → Action Unit
  | evaluate levels _ _ =>
    if levels = 0 then throw (.evaluation .depthExceeded []) else pure ()
  | lookup name e => discard (e.lookup name)
  | shadowing _ _ => pure ()
  | closure f given => discard (f.closure given)
  | run code args => discard (Action.ofExcept (runner code args))
  | create env => discard env.create
  | define name slot e => e.define name slot
  | assign name v e => e.assign name v
  | lambda o e => discard (FunctionRef.create "lambda" o e)
  | defun name o e => e.defun name o
  | check verdict => Action.ofExcept verdict

/-- A step and the store that it is taken from. -/
structure Event where
  store : Store
  step : Step

/-- The steps succeed one after another and lead from the first store to the second. -/
inductive Leads (runner : Runner) : Store → List Event → Store → Prop where
  | nil (s : Store) : Leads runner s [] s
  | cons {s t u : Store} {step : Step} {events : List Event}
    (hstep : (step.perform runner).run s = .ok () t) (hrest : Leads runner t events u) :
    Leads runner s (⟨s, step⟩ :: events) u

/-- The last of the steps fails, with an error that the given one stems from, and all others
succeed. -/
def Breaks (runner : Runner) (s : Store) (events : List Event) (x : Error) (t : Store) : Prop :=
  ∃ before step origin, events = before ++ [⟨t, step⟩] ∧ Leads runner s before t ∧
    (step.perform runner).run t = .error origin t ∧ origin.StemsFrom x

section Leads

variable {runner : Runner} {s t u : Store} {events events' : List Event} {x y : Error}

theorem Leads.trans (h : Leads runner s events t) (h' : Leads runner t events' u) :
    Leads runner s (events ++ events') u := by
  induction h with
  | nil s => exact h'
  | cons hstep _ ih => exact .cons hstep (ih h')

theorem Leads.breaks (h : Leads runner s events t) (h' : Breaks runner t events' x u) :
    Breaks runner s (events ++ events') x u := by
  obtain ⟨before, step, origin, rfl, hbefore, hstep⟩ := h'
  exact ⟨events ++ before, step, origin, (List.append_assoc _ _ _).symm, h.trans hbefore, hstep⟩

theorem Breaks.stemsFrom (h : Breaks runner s events x t) (hxy : x.StemsFrom y) :
    Breaks runner s events y t := by
  obtain ⟨before, step, origin, hevents, hbefore, hstep, hx⟩ := h
  exact ⟨before, step, origin, hevents, hbefore, hstep, hx.trans hxy⟩

end Leads

/-- The steps and the outcome of some work. -/
structure Trace (α : Type) where
  events : List Event
  outcome : EStateM.Result Error Store α

abbrev Traced (α : Type) := Store → Trace α

namespace Traced

variable {α β : Type}

instance : Monad Traced where
  pure v s := ⟨[], .ok v s⟩
  bind a f s :=
    match a s with
    | ⟨events, .error x t⟩ => ⟨events, .error x t⟩
    | ⟨events, .ok v t⟩ => ⟨events ++ (f v t).events, (f v t).outcome⟩

/-- Does in one step what the action does. -/
def step (st : Step) (a : Action α) : Traced α := fun s => ⟨[⟨s, st⟩], a.run s⟩

def check (x : Except Error α) : Traced α :=
  step (.check (x.map fun _ => ())) (Action.ofExcept x)

/-- Begins with an expression. -/
def begin (levels : Nat) (expr : Value) (e : EnvRef) : Traced Unit :=
  step (.evaluate levels expr e)
    (if levels = 0 then throw (.evaluation .depthExceeded []) else pure ())

def refuse (x : Error) : Traced α := check (.error x)

def noting (line : Note) (a : Traced α) : Traced α := fun s =>
  match a s with
  | ⟨events, .error x t⟩ => ⟨events, .error (x.note line) t⟩
  | trace => trace

end Traced

/-- What a trace says of the outcome of some work. The second part is about each evaluation that is
begun on the way: if it fails, the whole work fails with its error, and in its final store. -/
structure Trace.Accounts {α : Type} (runner : Runner) (s : Store) (trace : Trace α) : Prop where
  ok : ∀ v t, trace.outcome = .ok v t → Leads runner s trace.events t
  error : ∀ x t, trace.outcome = .error x t → Breaks runner s trace.events x t
  nested : ∀ before after u levels expr e x t,
    trace.events = before ++ ⟨u, .evaluate levels expr e⟩ :: after →
      (evalWithin runner levels expr e).run u = .error x t →
        ∃ y, trace.outcome = .error y t ∧ x.StemsFrom y

/-- The traced action does what the action does, and its traces account for it. -/
structure Traced.Records {α : Type} (runner : Runner) (a' : Traced α) (a : Action α) : Prop where
  outcome : ∀ s, (a' s).outcome = a.run s
  accounts : ∀ s, (a' s).Accounts runner s

namespace Traced

section Combinators

variable {α β : Type} {runner : Runner} {s t : Store} {a' : Traced α} {f' : α → Traced β}
  {a : Action α} {f : α → Action β}

theorem eq_of_outcome {result : EStateM.Result Error Store α} (h : (a' s).outcome = result) :
    a' s = ⟨(a' s).events, result⟩ := by
  rw [← h]

theorem bind_of_ok {v : α} (h : (a' s).outcome = .ok v t) :
    (a' >>= f') s = ⟨(a' s).events ++ (f' v t).events, (f' v t).outcome⟩ := by
  simp only [Bind.bind]
  rw [eq_of_outcome h]

theorem bind_of_error {x : Error} (h : (a' s).outcome = .error x t) :
    (a' >>= f') s = ⟨(a' s).events, .error x t⟩ := by
  simp only [Bind.bind]
  rw [eq_of_outcome h]

theorem begin_bind {levels : Nat} (hlevels : levels ≠ 0) (expr : Value) (e : EnvRef)
    (body : Traced α) (s : Store) :
    (do begin levels expr e; body) s =
      ⟨⟨s, .evaluate levels expr e⟩ :: (body s).events, (body s).outcome⟩ := by
  have hok : (begin levels expr e s).outcome = .ok () s := by
    rw [begin, if_neg hlevels]
    rfl
  exact bind_of_ok hok

theorem noting_of_ok {line : Note} {v : α} (h : (a' s).outcome = .ok v t) :
    noting line a' s = a' s := by
  unfold noting
  rw [eq_of_outcome h]

theorem noting_of_error {line : Note} {x : Error} (h : (a' s).outcome = .error x t) :
    noting line a' s = ⟨(a' s).events, .error (x.note line) t⟩ := by
  unfold noting
  rw [eq_of_outcome h]

theorem run_discard_of_ok {v : α} (h : a.run s = .ok v t) :
    (discard a : Action Unit).run s = .ok () t :=
  Action.run_bind_of_ok (f := fun _ => Pure.pure ()) h

theorem run_discard_of_error {x : Error} (h : a.run s = .error x t) :
    (discard a : Action Unit).run s = .error x t := by
  show (a >>= fun _ => Pure.pure ()).run s = _
  rw [EStateM.run_bind, h]

theorem run_of_run_discard {x : Error} (h : (discard a : Action Unit).run s = .error x t) :
    a.run s = .error x t := by
  cases hr : a.run s with
  | ok v u =>
    rw [run_discard_of_ok hr] at h
    cases h
  | error y u =>
    rw [run_discard_of_error hr] at h
    cases h
    rfl

namespace Records

theorem congr {b : Action α} (h : Records runner a' a) (hb : ∀ s, b.run s = a.run s) :
    Records runner a' b where
  outcome s := (h.outcome s).trans (hb s).symm
  accounts := h.accounts

theorem pure (v : α) : Records runner (Pure.pure v) (Pure.pure v) where
  outcome _ := rfl
  accounts s :=
    { ok := by
        rintro _ _ ⟨⟩
        exact .nil s
      error := nofun
      nested := by
        intro before after u levels expr e x t h
        cases before <;> cases h }

theorem bind (h : Records runner a' a) (h' : ∀ v, Records runner (f' v) (f v)) :
    Records runner (a' >>= f') (a >>= f) where
  outcome s := by
    rw [EStateM.run_bind, ← h.outcome s]
    cases hr : (a' s).outcome with
    | ok v t =>
      rw [bind_of_ok hr]
      exact (h' v).outcome t
    | error x t => rw [bind_of_error hr]
  accounts s := by
    have hfirst := h.accounts s
    cases hr : (a' s).outcome with
    | error x t =>
      rw [bind_of_error hr]
      refine ⟨nofun, ?_, ?_⟩
      · rintro _ _ ⟨⟩
        exact hfirst.error x t hr
      · intro before after u levels expr e y t' hevents hy
        obtain ⟨z, hz, hstems⟩ := hfirst.nested _ _ _ _ _ _ _ _ hevents hy
        rw [hr] at hz
        cases hz
        exact ⟨x, rfl, hstems⟩
    | ok v t =>
      have hsecond := (h' v).accounts t
      have hleads := hfirst.ok v t hr
      rw [bind_of_ok hr]
      refine ⟨fun w u hw => hleads.trans (hsecond.ok w u hw), ?_, ?_⟩
      · intro x u hx
        exact hleads.breaks (hsecond.error x u hx)
      · intro before after u levels expr e y t' hevents hy
        rcases List.append_eq_append_iff.1 hevents with ⟨as, rfl, hsplit⟩ | ⟨bs, hsplit, hafter⟩
        · exact hsecond.nested as after u levels expr e y t' hsplit hy
        · cases bs with
          | nil => exact hsecond.nested [] after u levels expr e y t' hafter.symm hy
          | cons event bs =>
            -- the first action succeeds, so nothing that it begins with fails
            cases hafter
            obtain ⟨z, hz, -⟩ := hfirst.nested before bs u levels expr e y t' hsplit hy
            rw [hr] at hz
            cases hz

theorem noting (line : Note) (h : Records runner a' a) :
    Records runner (Traced.noting line a') (Action.noting line a) where
  outcome s := by
    cases hr : (a' s).outcome with
    | ok v t =>
      rw [noting_of_ok hr, Action.run_noting_ok ((h.outcome s).symm.trans hr), hr]
    | error x t =>
      rw [noting_of_error hr, Action.run_noting_error ((h.outcome s).symm.trans hr)]
  accounts s := by
    have haccounts := h.accounts s
    cases hr : (a' s).outcome with
    | ok v t =>
      rw [noting_of_ok hr]
      exact haccounts
    | error x t =>
      rw [noting_of_error hr]
      refine ⟨nofun, ?_, ?_⟩
      · rintro _ _ ⟨⟩
        exact (haccounts.error x t hr).stemsFrom ((Error.StemsFrom.refl x).note line)
      · intro before after u levels expr e y t' hevents hy
        obtain ⟨z, hz, hstems⟩ := haccounts.nested _ _ _ _ _ _ _ _ hevents hy
        rw [hr] at hz
        cases hz
        exact ⟨x.note line, rfl, hstems.note line⟩

/-- A single step, which leaves the store as it was if it fails, and begins with no expression. -/
theorem step {st : Step}
    (hperform : ∀ s, (st.perform runner).run s = (discard a : Action Unit).run s)
    (hfails : ∀ s t x, a.run s = .error x t → t = s)
    (hst : ∀ levels expr e, st ≠ .evaluate levels expr e) :
    Records runner (Traced.step st a) a where
  outcome _ := rfl
  accounts s :=
    { ok := by
        intro v t hr
        exact .cons (by rw [hperform, run_discard_of_ok hr]) (.nil t)
      error := by
        intro x t hr
        obtain rfl := hfails s t x hr
        exact ⟨[], st, x, rfl, .nil t, by rw [hperform, run_discard_of_error hr], .refl x⟩
      nested := by
        intro before after u levels expr e x t hevents
        cases before with
        | nil =>
          cases hevents
          exact absurd rfl (hst levels expr e)
        | cons event before => cases before <;> cases hevents }

theorem step_unit {st : Step} {a : Action Unit}
    (hperform : ∀ s, (st.perform runner).run s = a.run s)
    (hfails : ∀ s t x, a.run s = .error x t → t = s)
    (hst : ∀ levels expr e, st ≠ .evaluate levels expr e) :
    Records runner (Traced.step st a) a := by
  refine step (fun s => ?_) hfails hst
  rw [hperform]
  cases hr : a.run s with
  | ok v t => rw [run_discard_of_ok hr]
  | error x t => rw [run_discard_of_error hr]

/-- A check of something other than the store. -/
theorem check (x : Except Error α) : Records runner (Traced.check x) (Action.ofExcept x) := by
  refine step (fun s => ?_) ?_ nofun
  · cases x <;> rfl
  · intro s t y hy
    cases x with
    | ok v => cases hy
    | error z =>
      cases hy
      rfl

theorem refuse (x : Error) : Records runner (Traced.refuse x : Traced α) (throw x) := check _

/-- What is traced from the beginning with an expression on. -/
theorem evaluate {levels : Nat} (hlevels : levels ≠ 0) {expr : Value} {e : EnvRef}
    {body : Traced Value} (h : Records runner body (evalWithin runner levels expr e)) :
    Records runner (do begin levels expr e; body) (evalWithin runner levels expr e) := by
  have hfirst : ∀ s, ((Step.evaluate levels expr e).perform runner).run s = .ok () s := by
    intro s
    rw [Step.perform, if_neg hlevels]
    rfl
  refine ⟨fun s => by rw [begin_bind hlevels, h.outcome], fun s => ?_⟩
  have hrest := h.accounts s
  rw [begin_bind hlevels]
  refine ⟨fun v t hr => .cons (hfirst s) (hrest.ok v t hr), fun x t hr => ?_, ?_⟩
  · exact (Leads.cons (hfirst s) (.nil s)).breaks (hrest.error x t hr)
  · intro before after u levels' expr' e' x t hevents hx
    cases before with
    | nil =>
      cases hevents
      exact ⟨x, (h.outcome s).trans hx, .refl x⟩
    | cons event before =>
      exact hrest.nested before after u levels' expr' e' x t (List.cons.inj hevents).2 hx

/-- Where no levels are left the beginning is refused. -/
theorem evaluate_zero (expr : Value) (e : EnvRef) :
    Records runner (do begin 0 expr e; Pure.pure .nil) (evalWithin runner 0 expr e) := by
  refine ⟨fun _ => rfl, fun s => ⟨nofun, ?_, ?_⟩⟩
  · rintro _ _ ⟨⟩
    exact ⟨[], .evaluate 0 expr e, _, rfl, .nil s, rfl, .refl _⟩
  · intro before after u levels expr' e' x t hevents hx
    cases before with
    | nil =>
      cases hevents
      cases hx
      exact ⟨_, rfl, .refl _⟩
    | cons event before => cases before <;> cases hevents

end Records

end Combinators

end Traced
end LexicalLisp
