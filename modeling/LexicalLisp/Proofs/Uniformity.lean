import LexicalLisp.Proofs.Correspondence
import LexicalLisp.Proofs.Insertion

/-!
# Evaluation does not see what is inserted

What an action does to a store, it does to that store with functions and environments inserted, if
the names in it are changed accordingly: the result is the renamed one, an error is the renamed
error, and afterwards the one store is still the other with the same things inserted. One lemma for
each function of the evaluator says so, given that it is so of the evaluator for the parts.
-/
namespace LexicalLisp

namespace Insertion

variable {I : Insertion} {α β α' β' : Type}

/-! ### Actions -/

/-- The second outcome is the first after the insertion. -/
def Agrees (I : Insertion) (f : α → β) :
    EStateM.Result Error Store α → EStateM.Result Error Store β → Prop
  | .ok a s, r => ∃ t, r = .ok (f a) t ∧ I.Relates s t
  | .error x s, r => ∃ t, r = .error (x.rename I.fn) t ∧ I.Relates s t

/-- With the insertion the second action does what the first does without; `f` renames the
result. -/
def Copies (I : Insertion) (f : α → β) (a : Action α) (b : Action β) : Prop :=
  ∀ s t, I.Relates s t → I.Agrees f (a.run s) (b.run t)

theorem copies_pure (f : α → β) (a : α) : I.Copies f (pure a) (pure (f a)) :=
  fun _ t h => ⟨t, rfl, h⟩

theorem copies_throw (f : α → β) (x : Error) : I.Copies f (throw x) (throw (x.rename I.fn)) :=
  fun _ t h => ⟨t, rfl, h⟩

theorem copies_ofExcept (f : α → β) (x : Except Error α) :
    I.Copies f (Action.ofExcept x) (Action.ofExcept (renamed I.fn f x)) := by
  cases x with
  | ok a => exact copies_pure f a
  | error x => exact copies_throw f x

theorem copies_get {f : α → β} {k : Store → Action α} {k' : Store → Action β}
    (h : ∀ s t, I.Relates s t → I.Agrees f ((k s).run s) ((k' t).run t)) :
    I.Copies f (get >>= k) (get >>= k') := fun s t hs => h s t hs

theorem Copies.bind {f : α → α'} {g : β → β'} {a : Action α} {b : Action α'} {k : α → Action β}
    {k' : α' → Action β'} (h : I.Copies f a b) (hk : ∀ x, I.Copies g (k x) (k' (f x))) :
    I.Copies g (a >>= k) (b >>= k') := by
  intro s t hs
  have h := h s t hs
  rw [EStateM.run_bind, EStateM.run_bind]
  cases hr : a.run s with
  | ok x s' =>
    rw [hr] at h
    obtain ⟨t', hr', hs'⟩ := h
    rw [hr']
    exact hk x s' t' hs'
  | error x s' =>
    rw [hr] at h
    obtain ⟨t', hr', hs'⟩ := h
    rw [hr']
    exact ⟨t', rfl, hs'⟩

theorem Copies.noting {f : α → β} {a : Action α} {b : Action β} (line : Note)
    (h : I.Copies f a b) :
    I.Copies f (Action.noting line a) (Action.noting (line.rename I.fn) b) := by
  intro s t hs
  have h := h s t hs
  cases hr : a.run s with
  | ok x s' =>
    rw [hr] at h
    obtain ⟨t', hr', hs'⟩ := h
    rw [Action.run_noting_ok hr]
    exact ⟨t', Action.run_noting_ok hr', hs'⟩
  | error x s' =>
    rw [hr] at h
    obtain ⟨t', hr', hs'⟩ := h
    rw [Action.run_noting_error hr]
    refine ⟨t', ?_, hs'⟩
    rw [Action.run_noting_error hr', Error.rename_note]

section Ok

variable {f : α → β} {a : Action α} {b : Action β} {s t : Store} (h : I.Copies f a b)
  (hs : I.Relates s t)
include h hs

theorem Copies.run_ok {x : α} {s' : Store} (hr : a.run s = .ok x s') :
    ∃ t', b.run t = .ok (f x) t' ∧ I.Relates s' t' := by
  have h := h s t hs
  rw [hr] at h
  exact h

theorem Copies.of_run_ok {y : β} {t' : Store} (hr : b.run t = .ok y t') :
    ∃ x s', a.run s = .ok x s' ∧ y = f x ∧ I.Relates s' t' := by
  have h := h s t hs
  rw [hr] at h
  cases ha : a.run s with
  | ok x s' =>
    rw [ha] at h
    obtain ⟨_, heq, hs'⟩ := h
    cases heq
    exact ⟨x, s', rfl, rfl, hs'⟩
  | error x s' =>
    rw [ha] at h
    obtain ⟨_, heq, -⟩ := h
    cases heq

end Ok

/-! ### Operations on environments and functions -/

theorem copies_define (e : EnvRef) (name : String) (slot : Slot) :
    I.Copies id (e.define name slot) ((I.env e).define name (slot.rename I.fn)) := by
  intro s t h
  rw [EnvRef.run_define, EnvRef.run_define, h.frame, Frame.binds_rename]
  split
  · exact ⟨t, rfl, h⟩
  · exact ⟨_, rfl, h.bind e name (.slot slot)⟩

theorem copies_assign (e : EnvRef) (name : String) (v : Value) :
    I.Copies id (e.assign name v) ((I.env e).assign name (I.value v)) := by
  intro s t h
  have howner := h.owner? name e
  cases ho : s.owner? name e with
  | none =>
    rw [ho] at howner
    rw [EnvRef.run_assign_none ho, EnvRef.run_assign_none howner]
    exact ⟨t, rfl, h⟩
  | some o =>
    rw [ho] at howner
    have hbinds := Store.binds_of_owner? ho
    have hbound : (t.frame (I.env o)).get? name = ((s.frame o).get? name).map (.rename I.fn) := by
      rw [h.frame, Frame.get?_rename]
    cases hb : (s.frame o).get? name with
    | none => simp [Frame.binds, hb] at hbinds
    | some b =>
      rw [hb] at hbound
      cases b with
      | function f =>
        rw [EnvRef.run_assign_function ho hb, EnvRef.run_assign_function howner hbound]
        exact ⟨t, rfl, h⟩
      | slot slot =>
        have hadmits : (slot.rename I.fn).kind.admits (I.value v) = slot.kind.admits v :=
          Kind.admits_rename I.fn slot.kind v
        rw [EnvRef.run_assign_slot ho hb, EnvRef.run_assign_slot howner hbound, hadmits]
        split
        · exact ⟨_, rfl, h.bind o name (.slot { slot with value := v })⟩
        · exact ⟨t, rfl, h⟩

theorem copies_overload (f : FunctionRef) (o : Overload) :
    I.Copies id (f.overload o) ((f.rename I.fn).overload (o.rename I.fn)) := by
  intro s t h
  rw [FunctionRef.run_overload, FunctionRef.run_overload, h.arities, Overload.arity_rename]
  split
  · exact ⟨t, rfl, h⟩
  · exact ⟨_, rfl, h.overload f o⟩

theorem copies_create (name : String) (o : Overload) (e : EnvRef) :
    I.Copies (FunctionRef.rename I.fn) (FunctionRef.create name o e)
      (FunctionRef.create name (o.rename I.fn) (I.env e)) := by
  intro s t h
  rw [FunctionRef.run_create, FunctionRef.run_create]
  refine ⟨_, ?_, h.push_closure ⟨[o], e⟩⟩
  rw [FunctionRef.rename, ← h.closures.move_size]
  rfl

theorem copies_defun (e : EnvRef) (name : String) (o : Overload) :
    I.Copies id (e.defun name o) ((I.env e).defun name (o.rename I.fn)) := by
  intro s t h
  have hbound : (t.frame (I.env e)).get? name = ((s.frame e).get? name).map (.rename I.fn) := by
    rw [h.frame, Frame.get?_rename]
  cases hb : (s.frame e).get? name with
  | none =>
    rw [hb] at hbound
    rw [EnvRef.run_defun_new hb, EnvRef.run_defun_new hbound, ← h.closures.move_size]
    exact ⟨_, rfl, (h.push_closure ⟨[o], e⟩).bind e name (.function ⟨name, s.closures.size⟩)⟩
  | some b =>
    rw [hb] at hbound
    cases b with
    | function f =>
      rw [EnvRef.run_defun_function hb, EnvRef.run_defun_function hbound]
      exact copies_overload f o s t h
    | slot slot =>
      rw [EnvRef.run_defun_slot hb, EnvRef.run_defun_slot hbound]
      exact ⟨t, rfl, h⟩

theorem copies_create_environment (env : Environment) :
    I.Copies I.env env.create (I.environment env).create := by
  intro s t h
  rw [Environment.run_create, Environment.run_create]
  refine ⟨_, ?_, h.push_environment env⟩
  rw [← h.environments.move_size]
  rfl

/-! ### Sequences of expressions -/

/-- What the evaluator does to an expression, it does to the renamed one with the insertion. -/
def Uniform (I : Insertion) (eval : Evaluator) : Prop :=
  ∀ x e, I.Copies I.value (eval x e) (eval (I.value x) (I.env e))

variable {eval : Evaluator}

theorem Uniform.evalEach (hev : I.Uniform eval) (xs : List Value) (e : EnvRef) :
    I.Copies (List.map I.value) (evalEach eval xs e)
      (evalEach eval (xs.map I.value) (I.env e)) := by
  induction xs with
  | nil => exact copies_pure _ []
  | cons x xs ih =>
    refine (hev x e).bind fun v => ih.bind fun vs => ?_
    exact copies_pure (List.map I.value) (v :: vs)

theorem Uniform.evalBody (hev : I.Uniform eval) (xs : List Value) (e : EnvRef) :
    I.Copies I.value (evalBody eval xs e) (evalBody eval (xs.map I.value) (I.env e)) := by
  induction xs with
  | nil => exact copies_pure I.value .nil
  | cons x xs ih =>
    cases xs with
    | nil => exact hev x e
    | cons y ys => exact (hev x e).bind fun _ => ih

/-! ### New scopes -/

theorem copies_inNewScope {f : α → β} {k : EnvRef → Action α} {k' : EnvRef → Action β}
    (frame : Frame) (body : List Value) (parent : EnvRef)
    (hk : ∀ scope, I.Copies f (k scope) (k' (I.env scope))) :
    I.Copies f (Environment.create ⟨frame, .scope body (some parent)⟩ >>= k)
      (Environment.create
        ⟨frame.rename I.fn, .scope (body.map I.value) (some (I.env parent))⟩ >>= k') :=
  (copies_create_environment ⟨frame, .scope body (some parent)⟩).bind hk

/-! ### Let -/

theorem parts_value (b : Value) :
    Let.parts (I.value b) = renamed I.fn (fun (s, init) => (s, I.value init)) (Let.parts b) := by
  cases b with
  | list vs =>
    match vs with
    | [] => rfl
    | [x] | [x, _] | x :: _ :: _ :: _ => cases x <;> rfl
  | _ => rfl

theorem Uniform.bindAll (hev : I.Uniform eval) (e : EnvRef) (bs : List Value) (f : Frame) :
    I.Copies (Frame.rename I.fn) (Let.bindAll eval e bs f)
      (Let.bindAll eval (I.env e) (bs.map I.value) (f.rename I.fn)) := by
  induction bs generalizing f with
  | nil => exact copies_pure _ f
  | cons b bs ih =>
    rw [List.map_cons, Let.bindAll, Let.bindAll, parts_value]
    refine (copies_ofExcept _ _).bind fun (s, init) => (hev init e).bind fun v => ?_
    have hdeclare : (f.rename I.fn).declare s (I.value v) = _ := f.declare_rename I.fn s v
    rw [hdeclare]
    exact (copies_ofExcept _ _).bind fun g => ih g

theorem Uniform.runLet (hev : I.Uniform eval) (l : Let) (e : EnvRef) :
    I.Copies I.value (l.run eval e)
      (Let.run eval ⟨l.bindings.map I.value, l.body.map I.value⟩ (I.env e)) :=
  (hev.bindAll e l.bindings {}).bind fun frame =>
    copies_inNewScope frame l.body e fun scope => hev.evalBody l.body scope

theorem ofArgs_value (args : List Value) :
    Let.ofArgs (args.map I.value) =
      renamed I.fn (fun l => ⟨l.bindings.map I.value, l.body.map I.value⟩) (Let.ofArgs args) := by
  cases args with
  | nil => rfl
  | cons v args =>
    cases v with
    | list bindings => simp [value, Let.ofArgs]
    | _ => rfl

/-! ### Application -/

theorem select_rename (f : FunctionRef) (os : List Overload) (given : Nat) :
    (f.rename I.fn).select (os.map (Overload.rename I.fn)) given =
      renamed I.fn (Overload.rename I.fn) (f.select os given) := by
  unfold FunctionRef.select
  rw [List.find?_map]
  have hpred : ((fun o : Overload => o.arity == given) ∘ Overload.rename I.fn) =
      fun o => o.arity == given := rfl
  rw [hpred]
  cases os.find? fun o => o.arity == given with
  | some o => rfl
  | none =>
    match os with
    | [] | [_] => rfl
    | _ :: _ :: _ => simp [Error.rename, FunctionRef.rename]

theorem Uniform.enterOverload (hev : I.Uniform eval) (name : String) (o : Overload) (home : EnvRef)
    (vs : List Value) :
    I.Copies I.value (o.enter eval name home vs)
      ((o.rename I.fn).enter eval name (I.env home) (vs.map I.value)) := by
  have hdeclare : Frame.declareAll {} (o.rename I.fn).params (vs.map I.value) = _ :=
    Frame.declareAll_rename I.fn {} o.params vs
  unfold Overload.enter
  rw [hdeclare]
  refine (copies_ofExcept _ _).bind fun frame => ?_
  refine copies_inNewScope frame o.body home fun scope => ?_
  exact (hev.evalBody o.body scope).noting (.inFunction name)

theorem Uniform.call (hev : I.Uniform eval) (f : FunctionRef) (vs : List Value) :
    I.Copies I.value (f.call eval vs) ((f.rename I.fn).call eval (vs.map I.value)) := by
  refine copies_get fun s t h => ?_
  have hmoved : t.closures[(f.rename I.fn).index]? = s.closures[f.index]?.map I.closure :=
    h.closures.moved f.index
  rw [hmoved]
  cases s.closures[f.index]? with
  | none =>
    have hlength : (vs.map I.value).length = vs.length := List.length_map _
    simp only [Option.map_none, hlength]
    exact copies_throw I.value (.evaluation (.noOverload f.name vs.length []) []) s t h
  | some c =>
    have hselect : (f.rename I.fn).select (I.closure c).overloads (vs.map I.value).length =
        renamed I.fn (Overload.rename I.fn) (f.select c.overloads vs.length) := by
      rw [List.length_map]
      exact select_rename f c.overloads vs.length
    simp only [Option.map_some, hselect]
    refine ((copies_ofExcept (Overload.rename I.fn) _).bind fun o => ?_) s t h
    exact hev.enterOverload f.name o c.home vs

/-- What a builtin runs does not see the names. -/
def UniformRunner (I : Insertion) (run : Runner) : Prop :=
  ∀ c vs, run c (vs.map I.value) = renamed I.fn I.value (run c vs)

variable {run : Runner}

theorem Uniform.apply (hev : I.Uniform eval) (hrun : I.UniformRunner run) (v : Value)
    (vs : List Value) :
    I.Copies I.value (apply run eval v vs) (apply run eval (I.value v) (vs.map I.value)) := by
  cases v with
  | builtin id c =>
    show I.Copies I.value (Action.ofExcept (run c vs)) (Action.ofExcept (run c (vs.map I.value)))
    rw [hrun c vs]
    exact copies_ofExcept _ _
  | function f => exact hev.call f vs
  | _ => exact copies_throw _ (.type (.notApplicable _) [])

/-! ### Special forms -/

theorem copies_refuseCount (n : Nat) (args : List Value) :
    I.Copies I.value (SpecialForm.refuseCount n args)
      (SpecialForm.refuseCount n (args.map I.value)) := by
  unfold SpecialForm.refuseCount
  rw [List.length_map]
  exact copies_throw _ _

theorem copies_runQuote (args : List Value) :
    I.Copies I.value (SpecialForm.runQuote args) (SpecialForm.runQuote (args.map I.value)) := by
  match args with
  | [v] => exact copies_pure I.value v
  | [] => exact copies_refuseCount 1 []
  | u :: v :: rest => exact copies_refuseCount 1 (u :: v :: rest)

theorem Uniform.runDefine (hev : I.Uniform eval) (args : List Value) (e : EnvRef) :
    I.Copies I.value (SpecialForm.runDefine eval args e)
      (SpecialForm.runDefine eval (args.map I.value) (I.env e)) := by
  match args with
  | [x, init] =>
    cases x with
    | symbol s =>
      refine (hev init e).bind fun v => ?_
      have hslot : Slot.ofSymbol s (I.value v) = _ := Slot.ofSymbol_rename I.fn s v
      rw [hslot]
      refine (copies_ofExcept (Slot.rename I.fn) _).bind fun slot => ?_
      exact (copies_define e s.name slot).bind fun _ => copies_pure I.value .unspecified
    | _ => exact copies_throw _ (.type (.targetNotSymbol .define) [])
  | [] => exact copies_refuseCount 2 []
  | [x] => cases x <;> exact copies_refuseCount 2 [_]
  | x :: u :: v :: rest => cases x <;> exact copies_refuseCount 2 (_ :: u :: v :: rest)

theorem Uniform.runAssign (hev : I.Uniform eval) (args : List Value) (e : EnvRef) :
    I.Copies I.value (SpecialForm.runAssign eval args e)
      (SpecialForm.runAssign eval (args.map I.value) (I.env e)) := by
  match args with
  | [x, expr] =>
    cases x with
    | symbol s =>
      refine (hev expr e).bind fun v => ?_
      exact (copies_assign e s.name v).bind fun _ => copies_pure I.value .unspecified
    | _ => exact copies_throw _ (.type (.targetNotSymbol .assign) [])
  | [] => exact copies_refuseCount 2 []
  | [x] => cases x <;> exact copies_refuseCount 2 [_]
  | x :: u :: v :: rest => cases x <;> exact copies_refuseCount 2 (_ :: u :: v :: rest)

theorem Uniform.runCond (hev : I.Uniform eval) (args : List Value) (e : EnvRef) :
    I.Copies I.value (SpecialForm.runCond eval args e)
      (SpecialForm.runCond eval (args.map I.value) (I.env e)) := by
  match args with
  | [condition, yes, no] =>
    refine (hev condition e).bind fun v => ?_
    cases v with
    | bool b =>
      cases b with
      | true => exact hev yes e
      | false => exact hev no e
    | _ => exact copies_throw _ (.type .conditionNotBoolean [])
  | [] => exact copies_refuseCount 3 []
  | [x] => exact copies_refuseCount 3 [x]
  | [x, y] => exact copies_refuseCount 3 [x, y]
  | x :: y :: z :: u :: rest => exact copies_refuseCount 3 (x :: y :: z :: u :: rest)

theorem symbols_value (vs : List Value) :
    SpecialForm.symbols (vs.map I.value) = renamed I.fn id (SpecialForm.symbols vs) := by
  induction vs with
  | nil => rfl
  | cons v vs ih =>
    cases v with
    | symbol s =>
      rw [List.map_cons]
      show (SpecialForm.symbols (vs.map I.value)).map (s :: ·) = _
      rw [ih, SpecialForm.symbols]
      cases SpecialForm.symbols vs <;> rfl
    | _ => rfl

theorem parameters_value (params : Value) :
    SpecialForm.parameters (I.value params) = renamed I.fn id (SpecialForm.parameters params) := by
  cases params with
  | list vs =>
    rw [value, Value.rename_list]
    exact symbols_value vs
  | _ => rfl

theorem implementation_value (params : Value) (body : List Value) :
    SpecialForm.implementation (I.value params) (body.map I.value) =
      renamed I.fn (Overload.rename I.fn) (SpecialForm.implementation params body) := by
  unfold SpecialForm.implementation
  rw [parameters_value]
  refine (renamed_id_bind fun ps => ?_).symm
  unfold Overload.ofParams
  split <;> rfl

theorem copies_runLambda (args : List Value) (e : EnvRef) :
    I.Copies I.value (SpecialForm.runLambda args e)
      (SpecialForm.runLambda (args.map I.value) (I.env e)) := by
  match args with
  | params :: first :: rest =>
    have himplementation := implementation_value (I := I) params (first :: rest)
    simp only [List.map_cons, SpecialForm.runLambda] at himplementation ⊢
    rw [himplementation]
    refine (copies_ofExcept _ _).bind fun o => (copies_create "lambda" o e).bind fun f => ?_
    exact copies_pure I.value (.function f)
  | [] => exact copies_refuseCount 2 []
  | [x] => exact copies_refuseCount 2 [x]

theorem copies_runDefun (args : List Value) (e : EnvRef) :
    I.Copies I.value (SpecialForm.runDefun args e)
      (SpecialForm.runDefun (args.map I.value) (I.env e)) := by
  match args with
  | x :: params :: first :: rest =>
    cases x with
    | symbol s =>
      have himplementation := implementation_value (I := I) params (first :: rest)
      simp only [List.map_cons, SpecialForm.runDefun, value, Value.rename_symbol]
        at himplementation ⊢
      rw [himplementation]
      refine (copies_ofExcept _ _).bind fun o => (copies_defun e s.name o).bind fun _ => ?_
      exact copies_pure I.value .unspecified
    | _ => exact copies_throw _ (.type (.targetNotSymbol .defun) [])
  | [] => exact copies_refuseCount 3 []
  | [x] => cases x <;> exact copies_refuseCount 3 [_]
  | [x, y] => cases x <;> exact copies_refuseCount 3 [_, y]

theorem Uniform.runLetForm (hev : I.Uniform eval) (args : List Value) (e : EnvRef) :
    I.Copies I.value (SpecialForm.runLet eval args e)
      (SpecialForm.runLet eval (args.map I.value) (I.env e)) := by
  unfold SpecialForm.runLet
  rw [ofArgs_value]
  exact (copies_ofExcept _ _).bind fun l => hev.runLet l e

theorem Uniform.firstDeciding (hev : I.Uniform eval) (form : SpecialForm) (deciding : Bool)
    (args : List Value) (e : EnvRef) :
    I.Copies I.value (SpecialForm.firstDeciding eval form deciding args e)
      (SpecialForm.firstDeciding eval form deciding (args.map I.value) (I.env e)) := by
  induction args with
  | nil => exact copies_pure I.value (.bool !deciding)
  | cons x args ih =>
    refine (hev x e).bind fun v => ?_
    cases v with
    | bool b =>
      show I.Copies I.value (if b = deciding then _ else _) (if b = deciding then _ else _)
      split
      · exact copies_pure I.value (.bool b)
      · exact ih
    | _ => exact copies_throw _ (.type (.operandNotBoolean form) [])

theorem isPlainlyNotBoolean_value (v : Value) :
    SpecialForm.isPlainlyNotBoolean (I.value v) = SpecialForm.isPlainlyNotBoolean v := by
  cases v <;> rfl

theorem Uniform.runJunction (hev : I.Uniform eval) (form : SpecialForm) (deciding : Bool)
    (args : List Value) (e : EnvRef) :
    I.Copies I.value (SpecialForm.runJunction eval form deciding args e)
      (SpecialForm.runJunction eval form deciding (args.map I.value) (I.env e)) := by
  have hplain : (args.map I.value).any SpecialForm.isPlainlyNotBoolean =
      args.any SpecialForm.isPlainlyNotBoolean := by
    rw [List.any_map]
    congr 1
    funext v
    exact isPlainlyNotBoolean_value v
  unfold SpecialForm.runJunction
  rw [List.isEmpty_map, hplain]
  split
  · exact copies_refuseCount 1 args
  · split
    · exact copies_throw _ (.type (.operandNotBoolean form) [])
    · exact hev.firstDeciding form deciding args e

theorem Uniform.runForm (hev : I.Uniform eval) (form : SpecialForm) (args : List Value)
    (e : EnvRef) :
    I.Copies I.value (form.run eval args e) (form.run eval (args.map I.value) (I.env e)) := by
  cases form with
  | quote => exact copies_runQuote args
  | conj => exact hev.runJunction .conj false args e
  | disj => exact hev.runJunction .disj true args e
  | cond => exact hev.runCond args e
  | sequence => exact hev.evalBody args e
  | define => exact hev.runDefine args e
  | assign => exact hev.runAssign args e
  | lambda => exact copies_runLambda args e
  | defun => exact copies_runDefun args e
  | letIn => exact hev.runLetForm args e

/-! ### Evaluation -/

theorem Relates.shadowing? {s t : Store} (h : I.Relates s t) (p : Primitive) (e : EnvRef) :
    t.shadowing? p (I.env e) = (s.shadowing? p e).map I.value := by
  unfold Store.shadowing?
  rw [h.lookup?]
  cases s.lookup? p.name e with
  | none => rfl
  | some v =>
    have hbuiltin : (I.value v).isBuiltin p.name = v.isBuiltin p.name :=
      Value.isBuiltin_rename I.fn p.name v
    simp only [Option.map_some, hbuiltin]
    split <;> rfl

variable {next afterNext : Evaluator}

theorem Uniform.evalPrimitive (hn : I.Uniform next) (hrun : I.UniformRunner run) (p : Primitive)
    (args : List Value) (e : EnvRef) :
    I.Copies I.value (evalPrimitive run next p args e)
      (evalPrimitive run next p (args.map I.value) (I.env e)) := by
  unfold LexicalLisp.evalPrimitive
  rw [List.length_map]
  split
  case h_1 expected _ =>
    have hop : (Value.op (.primitive p) args).rename I.fn = .op (.primitive p) (args.map I.value) :=
      Value.rename_op I.fn (.primitive p) args
    rw [← hop]
    exact copies_throw I.value (.arity expected args.length (some (.op (.primitive p) args)))
  case h_2 =>
    refine (hn.evalEach args e).bind fun vs => ?_
    rw [hrun]
    exact copies_ofExcept _ _

theorem Uniform.evalList (hn : I.Uniform next) (ha : I.Uniform afterNext)
    (hrun : I.UniformRunner run) (xs : List Value) (e : EnvRef) :
    I.Copies I.value (evalList run next afterNext xs e)
      (evalList run next afterNext (xs.map I.value) (I.env e)) := by
  cases xs with
  | nil => exact copies_throw _ (.evaluation .emptyApplication [])
  | cons head args =>
    exact (hn head e).bind fun f => (ha.evalEach args e).bind fun vs => ha.apply hrun f vs

theorem uniform_step (hn : I.Uniform next) (ha : I.Uniform afterNext)
    (hrun : I.UniformRunner run) : I.Uniform (step run next afterNext) := by
  intro x e
  cases x with
  | symbol a =>
    refine copies_get fun s t h => ?_
    rw [h.lookup?]
    cases s.lookup? a.name e with
    | none => exact copies_throw I.value (.unboundVariable a.name) s t h
    | some v => exact copies_pure I.value v s t h
  | op o args =>
    rw [value, Value.rename_op]
    cases o with
    | form f => exact hn.runForm f args e
    | primitive p =>
      refine copies_get fun s t h => ?_
      rw [h.shadowing?]
      cases s.shadowing? p e with
      | none => exact hn.evalPrimitive hrun p args e s t h
      | some f =>
        have hnote : Note.evaluating (.op (.primitive p) (args.map (Value.rename I.fn))) =
            (Note.evaluating (.op (.primitive p) args)).rename I.fn := by
          rw [Note.rename, Value.rename_op]
        refine ((ha.evalEach args e).bind fun vs => ?_) s t h
        rw [hnote]
        exact (ha.apply hrun f vs).noting _
  | list xs =>
    have hnote : Note.evaluating (.list (xs.map (Value.rename I.fn))) =
        (Note.evaluating (.list xs)).rename I.fn := by
      rw [Note.rename, Value.rename_list]
    rw [value, Value.rename_list, step_list, step_list, hnote]
    exact (hn.evalList ha hrun xs e).noting _
  | _ => exact copies_pure I.value _

/-- Evaluation on a store and evaluation on the store with the insertion have one outcome, up to
the names of what they refer to. -/
theorem uniform_evalWithin (hrun : I.UniformRunner run) (levels : Nat) :
    I.Uniform (evalWithin run levels) := by
  induction levels using Nat.strongRecOn with
  | ind levels ih =>
    cases levels with
    | zero => exact fun _ _ => copies_throw _ (.evaluation .depthExceeded [])
    | succ levels =>
      rw [evalWithin_succ]
      exact uniform_step (ih levels (by omega)) (ih (levels - 1) (by omega)) hrun

theorem uniform_evalAt (I : Insertion) {host : Host} (hhost : host.Uniform) (depth : Nat) :
    I.Uniform (evalAt host depth) :=
  uniform_evalWithin (fun c vs => Code.run_rename hhost I.fn_injective c vs) (maxDepth - depth)

end Insertion
end LexicalLisp
