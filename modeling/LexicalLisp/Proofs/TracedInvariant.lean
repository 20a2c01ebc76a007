import LexicalLisp.Proofs.TracedEvaluation

/-!
# Invariants of evaluation, step by step

An invariant holds of the store whenever evaluation takes a step, and lets something be said of the
steps that are listed: which expressions are begun, and where, and which checks fail for the number
of arguments. Data plays no part in it, since evaluation never turns data into code. `Invariant`
lists what has to be known of single steps; one lemma for each function of the traced evaluator
says that the invariant is kept, and the levels are closed over at the end.
-/
namespace LexicalLisp

/-! ### Checks -/

/-- If the check fails, then with such an error. -/
def FailsOnlyWith {α : Type} (P : Error → Prop) (x : Except Error α) : Prop :=
  ∀ y, x = .error y → P y

/-- The error is about a number of arguments and names no expression. -/
def Error.isBareArity : Error → Bool
  | .arity _ _ none => true
  | _ => false

/-- The check may fail, but not with the number of arguments as the only reason. -/
def SparesCounts {α : Type} (x : Except Error α) : Prop :=
  ∀ y, x = .error y → y.isBareArity = false

section Checks

variable {α β : Type} {P : Error → Prop}

theorem FailsOnlyWith.ok (a : α) : FailsOnlyWith P (.ok a) := by
  rintro y ⟨⟩

theorem FailsOnlyWith.error {y : Error} (h : P y) : FailsOnlyWith P (.error y : Except Error α) := by
  rintro _ ⟨⟩
  exact h

theorem FailsOnlyWith.bind {x : Except Error α} {f : α → Except Error β} (hx : FailsOnlyWith P x)
    (hf : ∀ a, x = .ok a → FailsOnlyWith P (f a)) : FailsOnlyWith P (x >>= f) := by
  cases x with
  | error z => exact .error (hx z rfl)
  | ok a => exact hf a rfl

theorem FailsOnlyWith.map {x : Except Error α} (hx : FailsOnlyWith P x) (f : α → β) :
    FailsOnlyWith P (x.map f) := by
  cases x with
  | error z => exact .error (hx z rfl)
  | ok a => exact .ok (f a)

theorem SparesCounts.ok (a : α) : SparesCounts (.ok a : Except Error α) := FailsOnlyWith.ok a

theorem SparesCounts.bind {x : Except Error α} {f : α → Except Error β} (hx : SparesCounts x)
    (hf : ∀ a, x = .ok a → SparesCounts (f a)) : SparesCounts (x >>= f) :=
  FailsOnlyWith.bind hx hf

theorem SparesCounts.map {x : Except Error α} (hx : SparesCounts x) (f : α → β) :
    SparesCounts (x.map f) :=
  FailsOnlyWith.map hx f

theorem Slot.ofSymbol_sparesCounts (s : Symbol) (v : Value) : SparesCounts (Slot.ofSymbol s v) := by
  rw [Slot.ofSymbol, Slot.ofValue_eq]
  split <;> rintro y ⟨⟩
  rfl

theorem Frame.declare_sparesCounts (f : Frame) (s : Symbol) (v : Value) :
    SparesCounts (f.declare s v) := by
  refine (Slot.ofSymbol_sparesCounts s v).bind fun slot _ => ?_
  split <;> rintro y ⟨⟩
  rfl

theorem Frame.declareAll_sparesCounts (f : Frame) (ps : List Symbol) (vs : List Value) :
    SparesCounts (f.declareAll ps vs) := by
  induction ps generalizing f vs with
  | nil => exact .ok f
  | cons p ps ih =>
    cases vs with
    | nil => exact .ok f
    | cons v vs => exact (f.declare_sparesCounts p v).bind fun g _ => ih g vs

theorem Let.parts_sparesCounts (v : Value) : SparesCounts (Let.parts v) := by
  unfold Let.parts
  split <;> rintro y ⟨⟩
  rfl

theorem Let.ofArgs_sparesCounts (args : List Value) : SparesCounts (Let.ofArgs args) := by
  unfold Let.ofArgs
  split <;> rintro y ⟨⟩ <;> rfl

theorem Let.eq_of_ofArgs {args : List Value} {l : Let} (h : Let.ofArgs args = .ok l) :
    args = .list l.bindings :: l.body := by
  unfold Let.ofArgs at h
  split at h
  case h_2 bindings body =>
    cases h
    rfl
  all_goals cases h

namespace SpecialForm

theorem symbols_sparesCounts (vs : List Value) : SparesCounts (symbols vs) := by
  induction vs with
  | nil => exact .ok []
  | cons v vs ih =>
    cases v with
    | symbol s => exact ih.map (s :: ·)
    | _ =>
      rintro y ⟨⟩
      rfl

theorem implementation_sparesCounts (params : Value) (body : List Value) :
    SparesCounts (implementation params body) := by
  have hparameters : SparesCounts (parameters params) := by
    cases params with
    | list elements => exact symbols_sparesCounts elements
    | _ =>
      rintro y ⟨⟩
      rfl
  refine hparameters.bind fun ps _ => ?_
  unfold Overload.ofParams
  split <;> rintro y ⟨⟩
  rfl

end SpecialForm
end Checks

/-- The step begins with no expression, and it is no check that fails for a number of arguments. -/
def Step.isOrdinary : Step → Bool
  | evaluate _ _ _ => false
  | check (.error x) => !x.isBareArity
  | _ => true

theorem SparesCounts.isOrdinary {α : Type} {x : Except Error α} (h : SparesCounts x) :
    (Step.check (x.map fun _ => ())).isOrdinary = true := by
  cases x with
  | ok v => rfl
  | error y =>
    show (!y.isBareArity) = true
    rw [h y rfl]
    rfl

/-! ### Invariants -/

/-- What holds whenever evaluation takes a step, and what may be said of the steps. -/
structure Invariant where
  holds : Store → Prop
  /-- How the store may change while evaluation goes on. -/
  grows : Store → Store → Prop
  /-- The environments in which evaluation may go on. -/
  here : Store → EnvRef → Prop
  code : Value → Prop
  allows : List Event → Prop
  refl : ∀ s, grows s s
  trans : ∀ {s t u}, grows s t → grows t u → grows s u
  here_mono : ∀ {s t e}, grows s t → here s e → here t e
  nil : allows []
  append : ∀ {events events'}, allows events → allows events' → allows (events ++ events')
  part : ∀ {x y}, code x → y ∈ x.parts → code y
  closure : ∀ {s} {i : Nat} {c}, holds s → s.closures[i]? = some c →
    here s c.home ∧ ∀ o ∈ c.overloads, ∀ x ∈ o.body, code x
  evaluate : ∀ {s e x levels}, holds s → here s e → code x → allows [⟨s, .evaluate levels x e⟩]
  ordinary : ∀ {s st}, holds s → st.isOrdinary = true → allows [⟨s, st⟩]
  /-- A function is called that has no overload for so many arguments. -/
  select : ∀ {s} {f : FunctionRef} {n c x}, holds s → s.closures[f.index]? = some c →
    f.select c.overloads n = .error x →
      allows [⟨s, .closure f n⟩, ⟨s, .check (.error x)⟩]
  /-- A form finds that it has the wrong number of arguments. -/
  refuse : ∀ {s form args n}, holds s → code (.op (.form form) args) →
    form.arity.refusal? args.length = some n →
      allows [⟨s, .check (.error (.arity n args.length none))⟩]
  bind : ∀ {s e n b}, holds s → holds (s.bind e n b) ∧ grows s (s.bind e n b)
  enter : ∀ {s parent} (frame) {body : List Value}, holds s → here s parent →
    (∀ x ∈ body, code x) →
      let t : Store :=
        { s with environments := s.environments.push ⟨frame, .scope body (some parent)⟩ }
      holds t ∧ grows s t ∧ here t s.environments.size
  lambda : ∀ {s e o}, holds s → here s e → (∀ x ∈ o.body, code x) →
    let t : Store := { s with closures := s.closures.push ⟨[o], e⟩ }
    holds t ∧ grows s t
  overload : ∀ {s} {i : Nat} {o}, holds s → (∀ x ∈ o.body, code x) →
    let t : Store :=
      { s with
        closures := s.closures.modify i fun c => { c with overloads := c.overloads ++ [o] } }
    holds t ∧ grows s t

/-- The store at the end of a trace, whether the work fails or not. -/
def Trace.store {α : Type} (trace : Trace α) : Store :=
  match trace.outcome with
  | .ok _ t => t
  | .error _ t => t

theorem Trace.store_eq_after {α : Type} {trace : Trace α} {a : Action α} {s : Store}
    (h : trace.outcome = a.run s) : trace.store = a.after s := by
  rw [store, h]
  rfl

namespace Invariant

variable (I : Invariant)

/-- From this store on the work keeps the invariant, and its steps are allowed. -/
structure Keeps {α : Type} (s : Store) (a : Traced α) : Prop where
  allows : I.allows (a s).events
  holds : I.holds (a s).store
  grows : I.grows s (a s).store

/-- The evaluator keeps the invariant on all code, wherever evaluation may go on. -/
def Serves (eval : Traced.Evaluator) : Prop :=
  ∀ s e x, I.holds s → I.here s e → I.code x → I.Keeps s (eval x e)

variable {I} {α β : Type} {s : Store} {e : EnvRef}

/-! ### Combinators -/

section Combinators

variable {a : Traced α} {f : α → Traced β}

theorem keeps_pure (hs : I.holds s) (v : α) : I.Keeps s (pure v) where
  allows := I.nil
  holds := hs
  grows := I.refl s

theorem Keeps.allows_bind (h : I.Keeps s a)
    (h' : ∀ v t, (a s).outcome = .ok v t → I.holds t → I.grows s t → I.allows (f v t).events) :
    I.allows ((a >>= f) s).events := by
  obtain ⟨hallows, hholds, hgrows⟩ := h
  unfold Trace.store at hholds hgrows
  cases hr : (a s).outcome with
  | error x t =>
    rw [Traced.bind_of_error hr]
    exact hallows
  | ok v t =>
    rw [hr] at hholds hgrows
    rw [Traced.bind_of_ok hr]
    exact I.append hallows (h' v t hr hholds hgrows)

theorem Keeps.bind (h : I.Keeps s a)
    (h' : ∀ v t, (a s).outcome = .ok v t → I.holds t → I.grows s t → I.Keeps t (f v)) :
    I.Keeps s (a >>= f) := by
  have hallows := h.allows_bind fun v t hr ht hgrow => (h' v t hr ht hgrow).allows
  obtain ⟨-, hholds, hgrows⟩ := h
  unfold Trace.store at hholds hgrows
  cases hr : (a s).outcome with
  | error x t =>
    rw [hr] at hholds hgrows
    have hrun : (a >>= f) s = ⟨(a s).events, .error x t⟩ := Traced.bind_of_error hr
    refine ⟨hallows, ?_, ?_⟩ <;> rw [hrun]
    · exact hholds
    · exact hgrows
  | ok v t =>
    rw [hr] at hholds hgrows
    have hrest := h' v t hr hholds hgrows
    have hrun : (a >>= f) s = ⟨(a s).events ++ (f v t).events, (f v t).outcome⟩ :=
      Traced.bind_of_ok hr
    refine ⟨hallows, ?_, ?_⟩ <;> rw [hrun]
    · exact hrest.holds
    · exact I.trans hgrows hrest.grows

theorem Keeps.discard (h : I.Keeps s a) : I.Keeps s (Functor.discard a) :=
  h.bind fun _ _ _ ht _ => keeps_pure ht _

theorem Keeps.noting (line : Note) (h : I.Keeps s a) : I.Keeps s (Traced.noting line a) := by
  cases hr : (a s).outcome with
  | ok v t =>
    have hrun : Traced.noting line a s = a s := Traced.noting_of_ok hr
    exact ⟨hrun ▸ h.allows, hrun ▸ h.holds, hrun ▸ h.grows⟩
  | error x t =>
    have hrun : Traced.noting line a s = ⟨(a s).events, .error (x.note line) t⟩ :=
      Traced.noting_of_error hr
    have hstore : (a s).store = t := by rw [Trace.store, hr]
    constructor <;> rw [hrun]
    · exact h.allows
    · exact hstore ▸ h.holds
    · exact hstore ▸ h.grows

end Combinators

/-! ### Single steps -/

section Steps

variable {n : String} {a : Action α} {st : Step}

theorem keeps_step (hs : I.holds s) (hst : st.isOrdinary = true)
    (hafter : I.holds (a.after s) ∧ I.grows s (a.after s)) : I.Keeps s (Traced.step st a) where
  allows := I.ordinary hs hst
  holds := hafter.1
  grows := hafter.2

theorem after_ofExcept (x : Except Error α) (s : Store) : (Action.ofExcept x).after s = s := by
  cases x <;> rfl

/-- A step that changes nothing. -/
theorem keeps_reading (hs : I.holds s) (hst : st.isOrdinary = true) (ha : a.after s = s) :
    I.Keeps s (Traced.step st a) := by
  refine keeps_step hs hst ?_
  rw [ha]
  exact ⟨hs, I.refl s⟩

theorem keeps_check (hs : I.holds s) {x : Except Error α} (hx : SparesCounts x) :
    I.Keeps s (Traced.check x) :=
  keeps_reading hs hx.isOrdinary (after_ofExcept x s)

theorem eq_ok_of_check {x : Except Error α} {v : α} {t : Store}
    (h : (Traced.check x s).outcome = .ok v t) : x = .ok v := by
  cases x with
  | error y => cases h
  | ok w =>
    cases h
    rfl

theorem keeps_refuse (hs : I.holds s) {x : Error} (hx : x.isBareArity = false) :
    I.Keeps s (Traced.refuse x : Traced α) := by
  refine keeps_check hs ?_
  rintro y ⟨⟩
  exact hx

/-- A form that has the wrong number of arguments. -/
theorem keeps_refuseCount (hs : I.holds s) {form : SpecialForm} {args : List Value} {n : Nat}
    (hx : I.code (.op (.form form) args)) (hn : form.arity.refusal? args.length = some n) :
    I.Keeps s (Traced.refuse (.arity n args.length none) : Traced α) where
  allows := I.refuse hs hx hn
  holds := hs
  grows := I.refl s

theorem keeps_define (hs : I.holds s) {slot : Slot} :
    I.Keeps s (Traced.step (.define n slot e) (e.define n slot)) :=
  keeps_step hs rfl <|
    EnvRef.after_define (P := fun t => I.holds t ∧ I.grows s t) ⟨hs, I.refl s⟩ fun _ => I.bind hs

theorem keeps_assign (hs : I.holds s) {v : Value} :
    I.Keeps s (Traced.step (.assign n v e) (e.assign n v)) :=
  keeps_step hs rfl <|
    EnvRef.after_assign (P := fun t => I.holds t ∧ I.grows s t) ⟨hs, I.refl s⟩
      fun _ _ _ _ _ => I.bind hs

theorem keeps_defun (hs : I.holds s) (he : I.here s e) {o : Overload}
    (ho : ∀ x ∈ o.body, I.code x) : I.Keeps s (Traced.step (.defun n o e) (e.defun n o)) := by
  refine keeps_step hs rfl ?_
  refine EnvRef.after_defun (P := fun t => I.holds t ∧ I.grows s t) ⟨hs, I.refl s⟩ (fun _ => ?_)
    fun _ _ _ => I.overload hs ho
  obtain ⟨hpush, hgrow⟩ := I.lambda hs he ho
  exact ⟨(I.bind hpush).1, I.trans hgrow (I.bind hpush).2⟩

theorem keeps_lambda (hs : I.holds s) (he : I.here s e) {o : Overload}
    (ho : ∀ x ∈ o.body, I.code x) :
    I.Keeps s (Traced.step (.lambda o e) (FunctionRef.create n o e)) :=
  keeps_step hs rfl (I.lambda hs he ho)

theorem keeps_runCode (hs : I.holds s) {runner : Runner} {code : Code} {args : List Value} :
    I.Keeps s (Traced.runCode runner code args) :=
  keeps_reading hs rfl (after_ofExcept _ s)

/-- Going on in a new scope. -/
theorem keeps_inNewScope (hs : I.holds s) (he : I.here s e) {frame : Frame} {body : List Value}
    (hbody : ∀ x ∈ body, I.code x) {k : EnvRef → Traced α}
    (hk : ∀ t scope, I.holds t → I.here t scope → I.Keeps t (k scope)) :
    let env : Environment := ⟨frame, .scope body (some e)⟩
    I.Keeps s (Traced.step (.create env) env.create >>= k) := by
  intro env
  obtain ⟨ht, hgrow, hhere⟩ := I.enter frame hs he hbody
  have hcreate : I.Keeps s (Traced.step (.create env) env.create) :=
    keeps_step hs rfl ⟨ht, hgrow⟩
  refine hcreate.bind fun scope t hr _ _ => ?_
  cases hr
  exact hk _ _ ht hhere

end Steps

/-! ### Evaluators -/

section Evaluators

variable {eval next afterNext : Traced.Evaluator} {runner : Runner}

theorem keeps_evalEach (h : I.Serves eval) (hs : I.holds s) (he : I.here s e) {exprs : List Value}
    (hx : ∀ x ∈ exprs, I.code x) : I.Keeps s (Traced.evalEach eval exprs e) := by
  induction exprs generalizing s with
  | nil => exact keeps_pure hs _
  | cons x rest ih =>
    refine (h s e x hs he (hx x List.mem_cons_self)).bind fun v t _ ht hgrow => ?_
    have hrest := ih ht (I.here_mono hgrow he) fun y hy => hx y (List.mem_cons_of_mem x hy)
    exact hrest.bind fun vs u _ hu _ => keeps_pure hu _

theorem keeps_evalBody (h : I.Serves eval) (hs : I.holds s) (he : I.here s e) {exprs : List Value}
    (hx : ∀ x ∈ exprs, I.code x) : I.Keeps s (Traced.evalBody eval exprs e) := by
  induction exprs generalizing s with
  | nil => exact keeps_pure hs _
  | cons x rest ih =>
    have hfirst := h s e x hs he (hx x List.mem_cons_self)
    cases rest with
    | nil => exact hfirst
    | cons y rest =>
      refine hfirst.bind fun v t _ ht hgrow => ?_
      exact ih ht (I.here_mono hgrow he) fun z hz => hx z (List.mem_cons_of_mem x hz)

/-- A call ends where it finds no overload for so many arguments. -/
theorem call_of_select_error (eval : Traced.Evaluator) {f : FunctionRef} {c : Closure}
    {args : List Value} {x : Error} (hc : s.closures[f.index]? = some c)
    (hx : f.select c.overloads args.length = .error x) :
    Traced.call eval f args s =
      ⟨[⟨s, .closure f args.length⟩, ⟨s, .check (.error x)⟩], .error x s⟩ := by
  have hclosure : (Traced.step (.closure f args.length) (f.closure args.length) s).outcome =
      .ok c s := FunctionRef.run_closure_of_some hc args.length
  have hselect : (Traced.check (f.select c.overloads args.length) s).outcome = .error x s := by
    rw [hx]
    rfl
  unfold Traced.call
  rw [Traced.bind_of_ok hclosure, Traced.bind_of_error hselect, hx]
  rfl

theorem keeps_call (h : I.Serves eval) (hs : I.holds s) (f : FunctionRef) (args : List Value) :
    I.Keeps s (Traced.call eval f args) := by
  cases hc : s.closures[f.index]? with
  | none =>
    have hrun := FunctionRef.run_closure_of_none hc args.length
    have hclosure : I.Keeps s (Traced.step (.closure f args.length) (f.closure args.length)) :=
      keeps_reading hs rfl (Action.after_of_error hrun)
    refine hclosure.bind fun c t hr _ _ => ?_
    have hr : (f.closure args.length).run s = .ok c t := hr
    rw [hrun] at hr
    cases hr
  | some c =>
    have hrun := FunctionRef.run_closure_of_some hc args.length
    obtain ⟨hhome, hbodies⟩ := I.closure hs hc
    cases ho : f.select c.overloads args.length with
    | error x =>
      have hcall := call_of_select_error eval hc ho
      constructor <;> rw [hcall]
      · exact I.select hs hc ho
      · exact hs
      · exact I.refl s
    | ok o =>
      have hclosure : I.Keeps s (Traced.step (.closure f args.length) (f.closure args.length)) :=
        keeps_reading hs rfl (Action.after_of_ok hrun)
      refine hclosure.bind fun c' t hr _ _ => ?_
      have hr : (f.closure args.length).run s = .ok c' t := hr
      rw [hrun] at hr
      cases hr
      rw [ho]
      refine (keeps_check hs (.ok o)).bind fun o' t hr ht hgrow => ?_
      cases hr
      have hframe := keeps_check ht (Frame.declareAll_sparesCounts {} o.params args)
      refine hframe.bind fun frame u _ hu hgrow' => ?_
      have hbody := hbodies o (FunctionRef.mem_of_select ho)
      refine keeps_inNewScope hu (I.here_mono hgrow' hhome) hbody fun w scope hw hscope => ?_
      exact (keeps_evalBody h hw hscope hbody).noting _

theorem keeps_apply (h : I.Serves eval) (hs : I.holds s) (f : Value) (args : List Value) :
    I.Keeps s (Traced.apply runner eval f args) := by
  cases f with
  | builtin id code => exact keeps_runCode hs
  | function f => exact keeps_call h hs f args
  | _ => exact keeps_refuse hs rfl

theorem keeps_evalPrimitive (h : I.Serves next) (hs : I.holds s) (he : I.here s e) (p : Primitive)
    {args : List Value} (hx : ∀ x ∈ args, I.code x) :
    I.Keeps s (Traced.evalPrimitive runner next p args e) := by
  unfold Traced.evalPrimitive
  cases p.arity.refusal? args.length with
  | some expected => exact keeps_refuse hs rfl
  | none => exact (keeps_evalEach h hs he hx).bind fun vs t _ ht _ => keeps_runCode ht

theorem keeps_evalList (h : I.Serves next) (h' : I.Serves afterNext) (hs : I.holds s)
    (he : I.here s e) {elements : List Value} (hx : ∀ x ∈ elements, I.code x) :
    I.Keeps s (Traced.evalList runner next afterNext elements e) := by
  cases elements with
  | nil => exact keeps_refuse hs rfl
  | cons head args =>
    refine (h s e head hs he (hx head List.mem_cons_self)).bind fun f t _ ht hgrow => ?_
    have hargs : ∀ x ∈ args, I.code x := fun x hx' => hx x (List.mem_cons_of_mem head hx')
    refine (keeps_evalEach h' ht (I.here_mono hgrow he) hargs).bind fun vs u _ hu _ => ?_
    exact keeps_apply h' hu f vs

/-! ### Special forms -/

section Forms

variable {args : List Value}

theorem keeps_runQuote (hs : I.holds s) (hx : I.code (.op (.form .quote) args)) :
    I.Keeps s (Traced.runQuote args) := by
  match args with
  | [v] => exact keeps_pure hs _
  | [] | _ :: _ :: _ => exact keeps_refuseCount hs hx (by simp [SpecialForm.arity, Arity.refusal?])

theorem keeps_runDefine (h : I.Serves eval) (hs : I.holds s) (he : I.here s e)
    (hx : I.code (.op (.form .define) args)) : I.Keeps s (Traced.runDefine eval args e) := by
  match args with
  | [target, init] =>
    cases target with
    | symbol a =>
      have hinit : I.code init := I.part hx (by simp [Value.parts, SpecialForm.parts])
      refine (h s e init hs he hinit).bind fun v t _ ht _ => ?_
      refine (keeps_check ht (Slot.ofSymbol_sparesCounts a v)).bind fun slot u _ hu _ => ?_
      exact (keeps_define hu).bind fun _ w _ hw _ => keeps_pure hw _
    | _ => exact keeps_refuse hs rfl
  | [] | [_] | _ :: _ :: _ :: _ =>
    simp only [Traced.runDefine]
    exact keeps_refuseCount hs hx (by simp [SpecialForm.arity, Arity.refusal?])

theorem keeps_runAssign (h : I.Serves eval) (hs : I.holds s) (he : I.here s e)
    (hx : I.code (.op (.form .assign) args)) : I.Keeps s (Traced.runAssign eval args e) := by
  match args with
  | [target, expr] =>
    cases target with
    | symbol a =>
      have hexpr : I.code expr := I.part hx (by simp [Value.parts, SpecialForm.parts])
      refine (h s e expr hs he hexpr).bind fun v t _ ht _ => ?_
      exact (keeps_assign ht).bind fun _ u _ hu _ => keeps_pure hu _
    | _ => exact keeps_refuse hs rfl
  | [] | [_] | _ :: _ :: _ :: _ =>
    simp only [Traced.runAssign]
    exact keeps_refuseCount hs hx (by simp [SpecialForm.arity, Arity.refusal?])

theorem keeps_runCond (h : I.Serves eval) (hs : I.holds s) (he : I.here s e)
    (hx : I.code (.op (.form .cond) args)) : I.Keeps s (Traced.runCond eval args e) := by
  have hparts : ∀ x ∈ args, I.code x := fun x hx' => I.part hx hx'
  match args with
  | [condition, yes, no] =>
    refine (h s e condition hs he (hparts condition (by simp))).bind fun v t _ ht hgrow => ?_
    have he := I.here_mono hgrow he
    cases v with
    | bool b =>
      cases b with
      | true => exact h t e yes ht he (hparts yes (by simp))
      | false => exact h t e no ht he (hparts no (by simp))
    | _ => exact keeps_refuse ht rfl
  | [] | [_] | [_, _] | _ :: _ :: _ :: _ :: _ =>
    exact keeps_refuseCount hs hx (by simp [SpecialForm.arity, Arity.refusal?])

theorem keeps_runLambda (hs : I.holds s) (he : I.here s e)
    (hx : I.code (.op (.form .lambda) args)) : I.Keeps s (Traced.runLambda args e) := by
  match args with
  | params :: first :: rest =>
    have hchecked := SpecialForm.implementation_sparesCounts params (first :: rest)
    refine (keeps_check hs hchecked).bind fun o t hr ht hgrow => ?_
    have hbody : ∀ x ∈ o.body, I.code x := by
      rw [(SpecialForm.implementation_eq_ok (eq_ok_of_check hr)).2]
      exact fun x hx' => I.part hx hx'
    have hcreate := keeps_lambda (n := "lambda") ht (I.here_mono hgrow he) hbody
    exact hcreate.bind fun f u _ hu _ => keeps_pure hu _
  | [] | [_] => exact keeps_refuseCount hs hx (by simp [SpecialForm.arity, Arity.refusal?])

theorem keeps_runDefun (hs : I.holds s) (he : I.here s e)
    (hx : I.code (.op (.form .defun) args)) : I.Keeps s (Traced.runDefun args e) := by
  match args with
  | target :: params :: first :: rest =>
    cases target with
    | symbol a =>
      have hchecked := SpecialForm.implementation_sparesCounts params (first :: rest)
      refine (keeps_check hs hchecked).bind fun o t hr ht hgrow => ?_
      have hbody : ∀ x ∈ o.body, I.code x := by
        rw [(SpecialForm.implementation_eq_ok (eq_ok_of_check hr)).2]
        exact fun x hx' => I.part hx hx'
      have hdefun := keeps_defun (n := a.name) ht (I.here_mono hgrow he) hbody
      exact hdefun.bind fun _ u _ hu _ => keeps_pure hu _
    | _ => exact keeps_refuse hs rfl
  | [] | [_] | [_, _] =>
    simp only [Traced.runDefun]
    exact keeps_refuseCount hs hx (by simp [SpecialForm.arity, Arity.refusal?])

theorem keeps_bindAll (h : I.Serves eval) (hs : I.holds s) (he : I.here s e)
    {bindings : List Value} (hx : ∀ x ∈ bindings.filterMap Let.initializer?, I.code x) (f : Frame) :
    I.Keeps s (Traced.bindAll eval e bindings f) := by
  induction bindings generalizing s f with
  | nil => exact keeps_pure hs _
  | cons binding rest ih =>
    refine (keeps_check hs (Let.parts_sparesCounts binding)).bind fun parts t hr ht hgrow => ?_
    obtain ⟨a, init⟩ := parts
    have hinit : I.code init :=
      hx init (List.mem_filterMap.2
        ⟨binding, List.mem_cons_self, Let.initializer?_of_parts (eq_ok_of_check hr)⟩)
    have het := I.here_mono hgrow he
    refine (h t e init ht het hinit).bind fun v u _ hu hgrow => ?_
    have heu := I.here_mono hgrow het
    refine (keeps_check hu (f.declare_sparesCounts a v)).bind fun g w _ hw hgrow => ?_
    refine ih hw (I.here_mono hgrow heu) (fun x hx' => ?_) g
    obtain ⟨b, hb, hx'⟩ := List.mem_filterMap.1 hx'
    exact hx x (List.mem_filterMap.2 ⟨b, List.mem_cons_of_mem binding hb, hx'⟩)

theorem keeps_runLet (h : I.Serves eval) (hs : I.holds s) (he : I.here s e)
    (hx : I.code (.op (.form .letIn) args)) : I.Keeps s (Traced.runLet eval args e) := by
  refine (keeps_check hs (Let.ofArgs_sparesCounts args)).bind fun l t hr ht hgrow => ?_
  obtain rfl := Let.eq_of_ofArgs (eq_ok_of_check hr)
  have hparts : ∀ x ∈ l.bindings.filterMap Let.initializer? ++ l.body, I.code x :=
    fun x hx' => I.part hx hx'
  have he := I.here_mono hgrow he
  have hframe := keeps_bindAll h ht he (fun x hx' => hparts x (List.mem_append_left _ hx')) {}
  refine hframe.bind fun frame u _ hu hgrow => ?_
  have hbody : ∀ x ∈ l.body, I.code x := fun x hx' => hparts x (List.mem_append_right _ hx')
  exact keeps_inNewScope hu (I.here_mono hgrow he) hbody fun w scope hw hscope =>
    keeps_evalBody h hw hscope hbody

theorem keeps_firstDeciding (h : I.Serves eval) (hs : I.holds s) (he : I.here s e)
    (form : SpecialForm) (deciding : Bool) (hx : ∀ x ∈ args, I.code x) :
    I.Keeps s (Traced.firstDeciding eval form deciding args e) := by
  induction args generalizing s with
  | nil => exact keeps_pure hs _
  | cons x rest ih =>
    refine (h s e x hs he (hx x List.mem_cons_self)).bind fun v t _ ht hgrow => ?_
    cases v with
    | bool b =>
      by_cases hb : b = deciding
      · simp only [if_pos hb]
        exact keeps_pure ht _
      · simp only [if_neg hb]
        exact ih ht (I.here_mono hgrow he) fun y hy => hx y (List.mem_cons_of_mem x hy)
    | _ => exact keeps_refuse ht rfl

theorem keeps_runJunction (h : I.Serves eval) (hs : I.holds s) (he : I.here s e)
    {form : SpecialForm} (hform : form.arity = .atLeast 1) (deciding : Bool)
    (hcode : I.code (.op (.form form) args)) (hx : ∀ x ∈ args, I.code x) :
    I.Keeps s (Traced.runJunction eval form deciding args e) := by
  unfold Traced.runJunction
  by_cases hempty : args.isEmpty = true
  · rw [if_pos hempty]
    refine keeps_refuseCount hs hcode ?_
    rw [hform, List.isEmpty_iff.1 hempty]
    rfl
  rw [if_neg hempty]
  by_cases hplain : args.any SpecialForm.isPlainlyNotBoolean = true
  · rw [if_pos hplain]
    exact keeps_refuse hs rfl
  · rw [if_neg hplain]
    exact keeps_firstDeciding h hs he form deciding hx

theorem keeps_runForm (h : I.Serves eval) (hs : I.holds s) (he : I.here s e) {form : SpecialForm}
    (hx : I.code (.op (.form form) args)) : I.Keeps s (Traced.runForm eval form args e) := by
  cases form with
  | quote => exact keeps_runQuote hs hx
  | conj => exact keeps_runJunction h hs he rfl false hx fun x hx' => I.part hx hx'
  | disj => exact keeps_runJunction h hs he rfl true hx fun x hx' => I.part hx hx'
  | cond => exact keeps_runCond h hs he hx
  | sequence => exact keeps_evalBody h hs he fun x hx' => I.part hx hx'
  | define => exact keeps_runDefine h hs he hx
  | assign => exact keeps_runAssign h hs he hx
  | lambda => exact keeps_runLambda hs he hx
  | defun => exact keeps_runDefun hs he hx
  | letIn => exact keeps_runLet h hs he hx

end Forms

/-! ### Expressions -/

theorem keeps_lookup (hs : I.holds s) (n : String) :
    I.Keeps s (Traced.step (.lookup n e) (e.lookup n)) := by
  refine keeps_reading hs rfl ?_
  simp only [Action.after, EnvRef.lookup, EStateM.run_bind, EStateM.run_get]
  cases s.lookup? n e <;> rfl

theorem keeps_evalParts (h : I.Serves next) (h' : I.Serves afterNext) (hs : I.holds s)
    (he : I.here s e) {x : Value} (hx : I.code x) :
    I.Keeps s (Traced.evalParts runner next afterNext x e) := by
  cases x with
  | symbol a => exact keeps_lookup hs a.name
  | op o args =>
    cases o with
    | form form => exact keeps_runForm h hs he hx
    | primitive p =>
      have hargs : ∀ y ∈ args, I.code y := fun y hy => I.part hx hy
      have hshadowing : I.Keeps s
          (Traced.step (.shadowing p e) (do return (← get).shadowing? p e)) :=
        keeps_reading hs rfl rfl
      refine hshadowing.bind fun f t _ ht hgrow => ?_
      have he := I.here_mono hgrow he
      cases f with
      | some f =>
        exact (keeps_evalEach h' ht he hargs).bind fun vs u _ hu _ =>
          (keeps_apply h' hu f vs).noting _
      | none => exact keeps_evalPrimitive h ht he p hargs
  | list elements => exact (keeps_evalList h h' hs he fun y hy => I.part hx hy).noting _
  | number | string | bool | builtin | function | unspecified => exact keeps_pure hs _

theorem keeps_begin (hs : I.holds s) (he : I.here s e) {x : Value} (hx : I.code x)
    (levels : Nat) : I.Keeps s (Traced.begin levels x e) := by
  have hstore : (Traced.begin levels x e s).store = s := by
    unfold Traced.begin
    split <;> rfl
  constructor
  · exact I.evaluate hs he hx
  · rw [hstore]
    exact hs
  · rw [hstore]
    exact I.refl s

/-- Evaluation keeps the invariant. -/
theorem serves_evalWithin (I : Invariant) (runner : Runner) (levels : Nat) :
    I.Serves (Traced.evalWithin runner levels) := by
  induction levels using Nat.strongRecOn with
  | ind levels ih =>
    intro s e x hs he hx
    match levels with
    | 0 => exact (keeps_begin hs he hx 0).bind fun _ t _ ht _ => keeps_pure ht _
    | 1 =>
      refine (keeps_begin hs he hx 1).bind fun _ t _ ht hgrow => ?_
      have hnone := ih 0 (by omega)
      exact keeps_evalParts hnone hnone ht (I.here_mono hgrow he) hx
    | levels + 2 =>
      refine (keeps_begin hs he hx (levels + 2)).bind fun _ t _ ht hgrow => ?_
      exact keeps_evalParts (ih (levels + 1) (by omega)) (ih levels (by omega)) ht
        (I.here_mono hgrow he) hx

theorem serves_evalAt (I : Invariant) (host : Host) (depth : Nat) :
    I.Serves (Traced.evalAt host depth) := serves_evalWithin I _ _

end Evaluators
end Invariant
end LexicalLisp
