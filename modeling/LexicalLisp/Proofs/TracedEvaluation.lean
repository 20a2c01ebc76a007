import LexicalLisp.Proofs.Trace

/-!
# Traced evaluation

The evaluator with its steps listed. Every evaluation of an expression begins with a step of its
own, and every error that evaluation raises by itself is that of a step, so a trace shows what was
done up to a failure and that nothing was done after it.
-/
namespace LexicalLisp

namespace Traced

abbrev Evaluator := Value → EnvRef → Traced Value

def evalEach (eval : Evaluator) : List Value → EnvRef → Traced (List Value)
  | [], _ => return []
  | expr :: rest, env => do
    let v ← eval expr env
    let vs ← evalEach eval rest env
    return v :: vs

def evalBody (eval : Evaluator) : List Value → EnvRef → Traced Value
  | [], _ => return .nil
  | [last], env => eval last env
  | expr :: next :: rest, env => do
    let _ ← eval expr env
    evalBody eval (next :: rest) env

def call (eval : Evaluator) (f : FunctionRef) (args : List Value) : Traced Value := do
  let closure ← step (.closure f args.length) (f.closure args.length)
  let o ← check (f.select closure.overloads args.length)
  let frame ← check (Frame.declareAll {} o.params args)
  let env : Environment := ⟨frame, .scope o.body (some closure.home)⟩
  let scope ← step (.create env) env.create
  noting (.inFunction f.name) (evalBody eval o.body scope)

def runCode (runner : Runner) (code : Code) (args : List Value) : Traced Value :=
  step (.run code args) (Action.ofExcept (runner code args))

def apply (runner : Runner) (eval : Evaluator) : Value → List Value → Traced Value
  | .builtin _ code, args => runCode runner code args
  | .function f, args => call eval f args
  | v, _ => refuse (.type (.notApplicable v) [])

def evalPrimitive (runner : Runner) (next : Evaluator) (p : Primitive) (args : List Value)
    (env : EnvRef) : Traced Value := do
  match p.arity.refusal? args.length with
  | some expected => refuse (.arity expected args.length (some (.op (.primitive p) args)))
  | none =>
    let vs ← evalEach next args env
    runCode runner (.primitive p) vs

def evalList (runner : Runner) (next afterNext : Evaluator) (elements : List Value)
    (env : EnvRef) : Traced Value := do
  match elements with
  | [] => refuse (.evaluation .emptyApplication [])
  | head :: args =>
    let f ← next head env
    let vs ← evalEach afterNext args env
    apply runner afterNext f vs

/-! ### Special forms -/

def runDefine (eval : Evaluator) (args : List Value) (env : EnvRef) : Traced Value := do
  match args with
  | [.symbol s, init] =>
    let v ← eval init env
    let slot ← check (Slot.ofSymbol s v)
    step (.define s.name slot env) (env.define s.name slot)
    return .unspecified
  | [_, _] => refuse (.type (.targetNotSymbol .define) [])
  | _ => refuse (.arity 2 args.length none)

def runAssign (eval : Evaluator) (args : List Value) (env : EnvRef) : Traced Value := do
  match args with
  | [.symbol s, expr] =>
    let v ← eval expr env
    step (.assign s.name v env) (env.assign s.name v)
    return .unspecified
  | [_, _] => refuse (.type (.targetNotSymbol .assign) [])
  | _ => refuse (.arity 2 args.length none)

def runCond (eval : Evaluator) (args : List Value) (env : EnvRef) : Traced Value := do
  match args with
  | [condition, yes, no] =>
    match ← eval condition env with
    | .bool true => eval yes env
    | .bool false => eval no env
    | _ => refuse (.type .conditionNotBoolean [])
  | _ => refuse (.arity 3 args.length none)

def runLambda (args : List Value) (env : EnvRef) : Traced Value := do
  match args with
  | params :: first :: rest =>
    let o ← check (SpecialForm.implementation params (first :: rest))
    let f ← step (.lambda o env) (FunctionRef.create "lambda" o env)
    return .function f
  | _ => refuse (.arity 2 args.length none)

def runDefun (args : List Value) (env : EnvRef) : Traced Value := do
  match args with
  | .symbol s :: params :: first :: rest =>
    let o ← check (SpecialForm.implementation params (first :: rest))
    step (.defun s.name o env) (env.defun s.name o)
    return .unspecified
  | _ :: _ :: _ :: _ => refuse (.type (.targetNotSymbol .defun) [])
  | _ => refuse (.arity 3 args.length none)

def bindAll (eval : Evaluator) (env : EnvRef) : List Value → Frame → Traced Frame
  | [], f => return f
  | binding :: rest, f => do
    let (s, init) ← check (Let.parts binding)
    let v ← eval init env
    let g ← check (f.declare s v)
    bindAll eval env rest g

def runLet (eval : Evaluator) (args : List Value) (env : EnvRef) : Traced Value := do
  let l ← check (Let.ofArgs args)
  let frame ← bindAll eval env l.bindings {}
  let inside : Environment := ⟨frame, .scope l.body (some env)⟩
  let scope ← step (.create inside) inside.create
  evalBody eval l.body scope

def firstDeciding (eval : Evaluator) (form : SpecialForm) (deciding : Bool) :
    List Value → EnvRef → Traced Value
  | [], _ => return .bool !deciding
  | expr :: rest, env => do
    match ← eval expr env with
    | .bool b => if b = deciding then return .bool b else firstDeciding eval form deciding rest env
    | _ => refuse (.type (.operandNotBoolean form) [])

def runJunction (eval : Evaluator) (form : SpecialForm) (deciding : Bool) (args : List Value)
    (env : EnvRef) : Traced Value :=
  if args.isEmpty then refuse (.arity 1 args.length none)
  else if args.any SpecialForm.isPlainlyNotBoolean then
    refuse (.type (.operandNotBoolean form) [])
  else firstDeciding eval form deciding args env

def runQuote : List Value → Traced Value
  | [v] => return v
  | args => refuse (.arity 1 args.length none)

def runForm (eval : Evaluator) (form : SpecialForm) (args : List Value) (env : EnvRef) :
    Traced Value :=
  match form with
  | .quote => runQuote args
  | .conj => runJunction eval .conj false args env
  | .disj => runJunction eval .disj true args env
  | .cond => runCond eval args env
  | .sequence => evalBody eval args env
  | .define => runDefine eval args env
  | .assign => runAssign eval args env
  | .lambda => runLambda args env
  | .defun => runDefun args env
  | .letIn => runLet eval args env

/-! ### Expressions -/

def evalParts (runner : Runner) (next afterNext : Evaluator) (expr : Value) (env : EnvRef) :
    Traced Value := do
  match expr with
  | .symbol s => step (.lookup s.name env) (env.lookup s.name)
  | .op (.primitive p) args =>
    match ← step (.shadowing p env) (do return (← get).shadowing? p env) with
    | some f =>
      let vs ← evalEach afterNext args env
      noting (.evaluating expr) (apply runner afterNext f vs)
    | none => evalPrimitive runner next p args env
  | .op (.form form) args => runForm next form args env
  | .list elements => noting (.evaluating expr) (evalList runner next afterNext elements env)
  | _ => return expr

/-- Evaluates with this many levels left. -/
def evalWithin (runner : Runner) : (levels : Nat) → Evaluator
  | 0, expr, env => do
    begin 0 expr env
    return .nil
  | 1, expr, env => do
    begin 1 expr env
    evalParts runner (evalWithin runner 0) (evalWithin runner 0) expr env
  | levels + 2, expr, env => do
    begin (levels + 2) expr env
    evalParts runner (evalWithin runner (levels + 1)) (evalWithin runner levels) expr env

/-- Evaluates at this depth. -/
def evalAt (host : Host) (depth : Nat) : Evaluator :=
  evalWithin (Code.run host) (maxDepth - depth)

/-! ### What is recorded -/

section Steps

variable {runner : Runner} {s t : Store} {x : Error}

theorem error_of_run_lookup {e : EnvRef} {name : String} (h : (e.lookup name).run s = .error x t) :
    t = s ∧ x = .unboundVariable name := by
  simp only [EnvRef.lookup, EStateM.run_bind, EStateM.run_get] at h
  cases hv : s.lookup? name e with
  | none =>
    rw [hv] at h
    cases h
    exact ⟨rfl, rfl⟩
  | some v =>
    rw [hv] at h
    cases h

theorem error_of_run_closure {f : FunctionRef} {given : Nat}
    (h : (f.closure given).run s = .error x t) :
    t = s ∧ x = .evaluation (.noOverload f.name given []) [] := by
  cases hc : s.closures[f.index]? with
  | none =>
    rw [FunctionRef.run_closure_of_none hc] at h
    cases h
    exact ⟨rfl, rfl⟩
  | some c =>
    rw [FunctionRef.run_closure_of_some hc] at h
    cases h

theorem error_of_run_define {e : EnvRef} {name : String} {slot : Slot}
    (h : (e.define name slot).run s = .error x t) : t = s ∧ x = .duplicateName name := by
  rw [EnvRef.run_define] at h
  split at h <;> cases h
  exact ⟨rfl, rfl⟩

theorem error_of_run_overload {f : FunctionRef} {o : Overload}
    (h : (f.overload o).run s = .error x t) :
    t = s ∧ x = .evaluation (.overloadExists f.name o.arity) [] := by
  rw [FunctionRef.run_overload] at h
  split at h <;> cases h
  exact ⟨rfl, rfl⟩

theorem error_of_run_defun {e : EnvRef} {name : String} {o : Overload}
    (h : (e.defun name o).run s = .error x t) :
    t = s ∧ ((∃ f : FunctionRef, x = .evaluation (.overloadExists f.name o.arity) []) ∨
      x = .kindConflict name .slot) := by
  cases hb : (s.frame e).get? name with
  | none =>
    rw [EnvRef.run_defun_new hb] at h
    cases h
  | some b =>
    cases b with
    | function f =>
      rw [EnvRef.run_defun_function hb] at h
      obtain ⟨ht, hx⟩ := error_of_run_overload h
      exact ⟨ht, .inl ⟨f, hx⟩⟩
    | slot slot =>
      rw [EnvRef.run_defun_slot hb] at h
      cases h
      exact ⟨rfl, .inr rfl⟩

theorem error_of_run_assign {e : EnvRef} {name : String} {v : Value}
    (h : (e.assign name v).run s = .error x t) :
    t = s ∧ (x = .unboundVariable name ∨ x = .kindConflict name .function ∨
      ∃ kind, x = .type (.slot (some name) kind v) []) := by
  cases ho : s.owner? name e with
  | none =>
    rw [EnvRef.run_assign_none ho] at h
    cases h
    exact ⟨rfl, .inl rfl⟩
  | some o =>
    have hbinds := Store.binds_of_owner? ho
    cases hb : (s.frame o).get? name with
    | none => simp [Frame.binds, hb] at hbinds
    | some b =>
      cases b with
      | function f =>
        rw [EnvRef.run_assign_function ho hb] at h
        cases h
        exact ⟨rfl, .inr (.inl rfl)⟩
      | slot slot =>
        rw [EnvRef.run_assign_slot ho hb] at h
        split at h <;> cases h
        exact ⟨rfl, .inr (.inr ⟨slot.kind, rfl⟩)⟩

theorem records_runCode (runner : Runner) (code : Code) (args : List Value) :
    Records runner (runCode runner code args) (Action.ofExcept (runner code args)) := by
  refine Records.step (fun _ => rfl) ?_ nofun
  intro s t x h
  cases hr : runner code args with
  | ok v => simp [hr] at h
  | error y =>
    rw [hr] at h
    cases h
    rfl

theorem records_create (runner : Runner) (env : Environment) :
    Records runner (step (.create env) env.create) env.create :=
  Records.step (fun _ => rfl) (fun _ _ _ h => nomatch h) nofun

end Steps

/-- The traced evaluator records the other one on all expressions. -/
def RecordsAll (runner : Runner) (eval' : Evaluator) (eval : LexicalLisp.Evaluator) : Prop :=
  ∀ expr env, Records runner (eval' expr env) (eval expr env)

section Evaluators

variable {runner : Runner} {eval' next' afterNext' : Evaluator}
  {eval next afterNext : LexicalLisp.Evaluator}

theorem records_evalEach (h : RecordsAll runner eval' eval) (exprs : List Value) (env : EnvRef) :
    Records runner (evalEach eval' exprs env) (LexicalLisp.evalEach eval exprs env) := by
  induction exprs with
  | nil => exact .pure []
  | cons expr rest ih => exact (h expr env).bind fun v => ih.bind fun vs => .pure (v :: vs)

theorem records_evalBody (h : RecordsAll runner eval' eval) (exprs : List Value) (env : EnvRef) :
    Records runner (evalBody eval' exprs env) (LexicalLisp.evalBody eval exprs env) := by
  induction exprs with
  | nil => exact .pure Value.nil
  | cons expr rest ih =>
    cases rest with
    | nil => exact h expr env
    | cons next rest => exact (h expr env).bind fun _ => ih

theorem records_call (h : RecordsAll runner eval' eval) (f : FunctionRef) (args : List Value) :
    Records runner (call eval' f args) (f.call eval args) := by
  -- a call that has the look-up of the overloads as an action of its own does the same
  have hclosure : Records runner (step (.closure f args.length) (f.closure args.length))
      (f.closure args.length) :=
    .step (fun _ => rfl) (fun _ _ _ h => (error_of_run_closure h).1) nofun
  have hcall := hclosure.bind fun closure =>
    (Records.check (f.select closure.overloads args.length)).bind fun o =>
      (Records.check (Frame.declareAll {} o.params args)).bind fun frame =>
        (records_create runner ⟨frame, .scope o.body (some closure.home)⟩).bind fun scope =>
          (records_evalBody h o.body scope).noting (.inFunction f.name)
  refine hcall.congr fun s => ?_
  simp only [FunctionRef.call, FunctionRef.closure, EStateM.run_bind, EStateM.run_get]
  cases s.closures[f.index]? <;> rfl

theorem records_apply (h : RecordsAll runner eval' eval) (f : Value) (args : List Value) :
    Records runner (apply runner eval' f args) (LexicalLisp.apply runner eval f args) := by
  cases f with
  | builtin id code => exact records_runCode runner code args
  | function f => exact records_call h f args
  | _ => exact .refuse _

theorem records_evalPrimitive (h : RecordsAll runner next' next) (p : Primitive)
    (args : List Value) (env : EnvRef) :
    Records runner (evalPrimitive runner next' p args env)
      (LexicalLisp.evalPrimitive runner next p args env) := by
  unfold evalPrimitive LexicalLisp.evalPrimitive
  cases p.arity.refusal? args.length with
  | some expected => exact .refuse _
  | none => exact (records_evalEach h args env).bind fun vs => records_runCode runner _ vs

theorem records_evalList (h : RecordsAll runner next' next)
    (h' : RecordsAll runner afterNext' afterNext) (elements : List Value) (env : EnvRef) :
    Records runner (evalList runner next' afterNext' elements env)
      (LexicalLisp.evalList runner next afterNext elements env) := by
  cases elements with
  | nil => exact .refuse _
  | cons head args =>
    exact (h head env).bind fun f => (records_evalEach h' args env).bind fun vs =>
      records_apply h' f vs

/-! ### Special forms -/

theorem records_runDefine (h : RecordsAll runner eval' eval) (args : List Value) (env : EnvRef) :
    Records runner (runDefine eval' args env) (SpecialForm.runDefine eval args env) := by
  match args with
  | [target, init] =>
    cases target with
    | symbol s =>
      refine (h init env).bind fun v => (Records.check (Slot.ofSymbol s v)).bind fun slot => ?_
      have hdefine : Records runner (step (.define s.name slot env) (env.define s.name slot))
          (env.define s.name slot) :=
        .step_unit (fun _ => rfl) (fun _ _ _ h => (error_of_run_define h).1) nofun
      exact hdefine.bind fun _ => .pure Value.unspecified
    | _ => exact .refuse _
  | [] | [_] | _ :: _ :: _ :: _ =>
    simp only [runDefine, SpecialForm.runDefine]
    exact .refuse _

theorem records_runAssign (h : RecordsAll runner eval' eval) (args : List Value) (env : EnvRef) :
    Records runner (runAssign eval' args env) (SpecialForm.runAssign eval args env) := by
  match args with
  | [target, expr] =>
    cases target with
    | symbol s =>
      refine (h expr env).bind fun v => ?_
      have hassign : Records runner (step (.assign s.name v env) (env.assign s.name v))
          (env.assign s.name v) :=
        .step_unit (fun _ => rfl) (fun _ _ _ h => (error_of_run_assign h).1) nofun
      exact hassign.bind fun _ => .pure Value.unspecified
    | _ => exact .refuse _
  | [] | [_] | _ :: _ :: _ :: _ =>
    simp only [runAssign, SpecialForm.runAssign]
    exact .refuse _

theorem records_runCond (h : RecordsAll runner eval' eval) (args : List Value) (env : EnvRef) :
    Records runner (runCond eval' args env) (SpecialForm.runCond eval args env) := by
  match args with
  | [condition, yes, no] =>
    refine (h condition env).bind fun v => ?_
    cases v with
    | bool b =>
      cases b with
      | true => exact h yes env
      | false => exact h no env
    | _ => exact .refuse _
  | [] | [_] | [_, _] | _ :: _ :: _ :: _ :: _ => exact .refuse _

theorem records_runLambda (args : List Value) (env : EnvRef) :
    Records runner (runLambda args env) (SpecialForm.runLambda args env) := by
  match args with
  | params :: first :: rest =>
    refine (Records.check (SpecialForm.implementation params (first :: rest))).bind fun o => ?_
    have hcreate : Records runner (step (.lambda o env) (FunctionRef.create "lambda" o env))
        (FunctionRef.create "lambda" o env) := .step (fun _ => rfl) nofun nofun
    exact hcreate.bind fun f => .pure (Value.function f)
  | [] | [_] => exact .refuse _

theorem records_runDefun (args : List Value) (env : EnvRef) :
    Records runner (runDefun args env) (SpecialForm.runDefun args env) := by
  match args with
  | target :: params :: first :: rest =>
    cases target with
    | symbol s =>
      refine (Records.check (SpecialForm.implementation params (first :: rest))).bind fun o => ?_
      have hdefun : Records runner (step (.defun s.name o env) (env.defun s.name o))
          (env.defun s.name o) :=
        .step_unit (fun _ => rfl) (fun _ _ _ h => (error_of_run_defun h).1) nofun
      exact hdefun.bind fun _ => .pure Value.unspecified
    | _ => exact .refuse _
  | [] | [_] | [_, _] =>
    simp only [runDefun, SpecialForm.runDefun]
    exact .refuse _

theorem records_bindAll (h : RecordsAll runner eval' eval) (env : EnvRef) (bindings : List Value)
    (f : Frame) :
    Records runner (bindAll eval' env bindings f) (Let.bindAll eval env bindings f) := by
  induction bindings generalizing f with
  | nil => exact .pure f
  | cons binding rest ih =>
    exact (Records.check (Let.parts binding)).bind fun (s, init) =>
      (h init env).bind fun v => (Records.check (f.declare s v)).bind fun g => ih g

theorem records_runLet (h : RecordsAll runner eval' eval) (args : List Value) (env : EnvRef) :
    Records runner (runLet eval' args env) (SpecialForm.runLet eval args env) :=
  (Records.check (Let.ofArgs args)).bind fun l =>
    (records_bindAll h env l.bindings {}).bind fun frame =>
      (records_create runner ⟨frame, .scope l.body (some env)⟩).bind fun scope =>
        records_evalBody h l.body scope

theorem records_firstDeciding (h : RecordsAll runner eval' eval) (form : SpecialForm)
    (deciding : Bool) (args : List Value) (env : EnvRef) :
    Records runner (firstDeciding eval' form deciding args env)
      (SpecialForm.firstDeciding eval form deciding args env) := by
  induction args with
  | nil => exact .pure (Value.bool !deciding)
  | cons expr rest ih =>
    refine (h expr env).bind fun v => ?_
    cases v with
    | bool b =>
      by_cases hb : b = deciding
      · simp only [if_pos hb]
        exact .pure _
      · simp only [if_neg hb]
        exact ih
    | _ => exact .refuse _

theorem records_runJunction (h : RecordsAll runner eval' eval) (form : SpecialForm)
    (deciding : Bool) (args : List Value) (env : EnvRef) :
    Records runner (runJunction eval' form deciding args env)
      (SpecialForm.runJunction eval form deciding args env) := by
  unfold runJunction SpecialForm.runJunction
  by_cases hempty : args.isEmpty = true
  · rw [if_pos hempty, if_pos hempty]
    exact .refuse _
  · rw [if_neg hempty, if_neg hempty]
    by_cases hplain : args.any SpecialForm.isPlainlyNotBoolean = true
    · rw [if_pos hplain, if_pos hplain]
      exact .refuse _
    · rw [if_neg hplain, if_neg hplain]
      exact records_firstDeciding h form deciding args env

theorem records_runQuote (args : List Value) :
    Records runner (runQuote args) (SpecialForm.runQuote args) := by
  match args with
  | [v] => exact .pure v
  | [] | _ :: _ :: _ => exact .refuse _

theorem records_runForm (h : RecordsAll runner eval' eval) (form : SpecialForm)
    (args : List Value) (env : EnvRef) :
    Records runner (runForm eval' form args env) (form.run eval args env) := by
  cases form with
  | quote => exact records_runQuote args
  | conj => exact records_runJunction h .conj false args env
  | disj => exact records_runJunction h .disj true args env
  | cond => exact records_runCond h args env
  | sequence => exact records_evalBody h args env
  | define => exact records_runDefine h args env
  | assign => exact records_runAssign h args env
  | lambda => exact records_runLambda args env
  | defun => exact records_runDefun args env
  | letIn => exact records_runLet h args env

/-! ### Expressions -/

theorem records_evalParts (h : RecordsAll runner next' next)
    (h' : RecordsAll runner afterNext' afterNext) (expr : Value) (env : EnvRef) :
    Records runner (evalParts runner next' afterNext' expr env)
      (LexicalLisp.step runner next afterNext expr env) := by
  cases expr with
  | symbol s =>
    have hlookup : Records runner (step (.lookup s.name env) (env.lookup s.name))
        (env.lookup s.name) :=
      .step (fun _ => rfl) (fun _ _ _ h => (error_of_run_lookup h).1) nofun
    exact hlookup
  | op o args =>
    cases o with
    | form form => exact records_runForm h form args env
    | primitive p =>
      -- likewise the look-up of what shadows the primitive is made a part of its own
      have hshadowing : Records runner
          (step (.shadowing p env) (do return (← get).shadowing? p env))
          (do return (← get).shadowing? p env) := .step (fun _ => rfl) nofun nofun
      have hparts : Records runner (evalParts runner next' afterNext' (.op (.primitive p) args) env)
          (do
            match ← (do return (← get).shadowing? p env : Action (Option Value)) with
            | some f =>
              let vs ← LexicalLisp.evalEach afterNext args env
              Action.noting (.evaluating (.op (.primitive p) args))
                (LexicalLisp.apply runner afterNext f vs)
            | none => LexicalLisp.evalPrimitive runner next p args env) := by
        refine hshadowing.bind fun f => ?_
        cases f with
        | some f =>
          exact (records_evalEach h' args env).bind fun vs => (records_apply h' f vs).noting _
        | none => exact records_evalPrimitive h p args env
      exact hparts.congr fun _ => rfl
  | list elements => exact (records_evalList h h' elements env).noting _
  | number | string | bool | builtin | function | unspecified => exact .pure _

theorem records_evalWithin (runner : Runner) (levels : Nat) :
    RecordsAll runner (evalWithin runner levels) (LexicalLisp.evalWithin runner levels) := by
  induction levels using Nat.strongRecOn with
  | ind levels ih =>
    match levels with
    | 0 => exact fun expr env => .evaluate_zero expr env
    | 1 =>
      have hnone := ih 0 (by omega)
      exact fun expr env => .evaluate (by omega) (records_evalParts hnone hnone expr env)
    | levels + 2 =>
      exact fun expr env => .evaluate (by omega)
        (records_evalParts (ih (levels + 1) (by omega)) (ih levels (by omega)) expr env)

end Evaluators
end Traced

/-- The trace of an evaluation ends in the outcome of the evaluation. If that is a value, all steps
succeed. If it is an error, the last step fails and all others succeed, the final store is the one
that the failing step is taken from, and the error is that of the step. It is the same error unless
it is of a kind that takes notes, and then its message goes on with notes. An evaluation that is
begun on the way and fails makes the whole evaluation fail, in its final store and with its error,
to which notes may be added. -/
theorem errors_abort_at_once (host : Host) (depth : Nat) (expr : Value) (e : EnvRef) (s : Store) :
    (Traced.evalAt host depth expr e s).outcome = (evalAt host depth expr e).run s ∧
    (∀ v t, (evalAt host depth expr e).run s = .ok v t →
      Leads (Code.run host) s (Traced.evalAt host depth expr e s).events t) ∧
    (∀ x t, (evalAt host depth expr e).run s = .error x t →
      ∃ before step origin,
        (Traced.evalAt host depth expr e s).events = before ++ [⟨t, step⟩] ∧
        Leads (Code.run host) s before t ∧
        (step.perform (Code.run host)).run t = .error origin t ∧
        x.kind = origin.kind ∧
        (x.kind ≠ .evaluation → x.kind ≠ .type → x = origin) ∧
        ∃ trail, x.message = origin.message ++ Note.trailMessage trail) ∧
    ∀ before after u levels expr' e' x t,
      (Traced.evalAt host depth expr e s).events =
          before ++ ⟨u, .evaluate levels expr' e'⟩ :: after →
        (evalWithin (Code.run host) levels expr' e').run u = .error x t →
          ∃ y, (evalAt host depth expr e).run s = .error y t ∧ x.StemsFrom y := by
  have hrecords : Traced.Records (Code.run host) (Traced.evalAt host depth expr e)
      (evalAt host depth expr e) :=
    Traced.records_evalWithin (Code.run host) (maxDepth - depth) expr e
  have haccounts := hrecords.accounts s
  rw [← hrecords.outcome s]
  refine ⟨rfl, haccounts.ok, fun x t hx => ?_, haccounts.nested⟩
  obtain ⟨before, step, origin, hevents, hleads, hstep, hstems⟩ := haccounts.error x t hx
  exact ⟨before, step, origin, hevents, hleads, hstep, hstems.kind, hstems.eq_of_kind,
    hstems.message⟩

/-- Of three expressions the second fails, and the third is not begun. -/
example :
    let define (name : String) : Value :=
      .op (.form .define) [.symbol ⟨name, .any⟩, .number 1]
    let trace := Traced.evalAt (fun _ _ => .ok .unspecified) 0
      (.op (.form .sequence) [define "x", .symbol ⟨"y", .any⟩, define "z"]) 0
      ⟨#[⟨{}, .root⟩], #[]⟩
    trace.events.map Event.step =
      [.evaluate 64 (.op (.form .sequence) [define "x", .symbol ⟨"y", .any⟩, define "z"]) 0,
        .evaluate 63 (define "x") 0, .evaluate 62 (.number 1) 0, .check (.ok ()),
        .define "x" ⟨.any, .number 1⟩ 0, .evaluate 63 (.symbol ⟨"y", .any⟩) 0, .lookup "y" 0] :=
  rfl

end LexicalLisp
