import LexicalLisp.Proofs.Concatenation
import LexicalLisp.Proofs.PrimitiveCounts
import LexicalLisp.Proofs.Soundness
import LexicalLisp.Proofs.TracedCommand

/-!
# Argument counts of special forms

The reader checks how many arguments a special form has, and the form checks again when it runs.
The two agree, and evaluation makes no code, so the second check never fails for what was read:
neither at once nor in the bodies of functions that are called later. A count is wrong only where a
function or a builtin is applied.
-/
namespace LexicalLisp

/-! ### The two checks -/

namespace SpecialForm

/-- Whatever else is the case, the form fails for the number of these arguments. -/
def RefusesCount (form : SpecialForm) (args : List Value) : Prop :=
  ∃ n, ∀ eval e s, (form.run eval args e).run s = .error (.arity n args.length none) s

theorem run_of_refused {form : SpecialForm} {args : List Value} {n : Nat}
    (h : form.arity.refusal? args.length = some n) (eval : Evaluator) (e : EnvRef) :
    form.run eval args e = refuseCount n args := by
  cases form with
  | quote => rcases args with _ | ⟨v, _ | ⟨w, rest⟩⟩ <;> cases h <;> rfl
  | conj | disj =>
    obtain ⟨rfl, rfl⟩ := Primitive.eq_nil_of_refused h
    rfl
  | cond => rcases args with _ | ⟨c, _ | ⟨x, _ | ⟨y, _ | ⟨z, rest⟩⟩⟩⟩ <;> cases h <;> rfl
  | sequence | letIn => cases h
  | define | assign =>
    rcases args with _ | ⟨target, _ | ⟨init, _ | ⟨x, rest⟩⟩⟩ <;> cases h <;>
      simp [run, runDefine, runAssign]
  | lambda =>
    rcases args with _ | ⟨params, _ | ⟨first, rest⟩⟩
    · cases h
      rfl
    · cases h
      rfl
    · simp [arity, Arity.refusal?] at h
  | defun =>
    rcases args with _ | ⟨target, _ | ⟨params, _ | ⟨first, rest⟩⟩⟩
    · cases h
      simp [run, runDefun]
    · cases h
      simp [run, runDefun]
    · cases h
      simp [run, runDefun]
    · simp [arity, Arity.refusal?] at h
      omega

theorem run_ofExcept_bind_ne {α β : Type} {x : Except Error α} {f : α → Action β} {s t : Store}
    {n m : Nat} (hx : SparesCounts x)
    (hf : ∀ v, (f v).run s ≠ .error (.arity n m none) t) :
    (Action.ofExcept x >>= f).run s ≠ .error (.arity n m none) t := by
  cases x with
  | ok v => exact hf v
  | error y =>
    intro hr
    cases hr
    cases hx _ rfl

/-- Where nothing can be evaluated, a form that takes the count fails for another reason. -/
theorem run_ne_of_admitted {form : SpecialForm} {args : List Value}
    (h : form.arity.refusal? args.length = none) (n m : Nat) (t : Store) :
    (form.run (fun _ _ => throw (.unboundVariable "")) args 0).run {} ≠
      .error (.arity n m none) t := by
  intro hr
  cases form with
  | quote =>
    obtain ⟨v, rfl⟩ := List.length_eq_one_iff.1 (Arity.eq_of_admitted h)
    cases hr
  | conj | disj =>
    cases args with
    | nil => cases h
    | cons x rest =>
      simp only [run, runJunction, List.isEmpty_cons, Bool.false_eq_true, if_false] at hr
      split at hr <;> cases hr
  | cond =>
    obtain ⟨c, x, y, rfl⟩ := List.length_eq_three.1 (Arity.eq_of_admitted h)
    cases hr
  | sequence => rcases args with _ | ⟨x, _ | ⟨y, rest⟩⟩ <;> cases hr
  | define | assign =>
    obtain ⟨target, init, rfl⟩ := List.length_eq_two.1 (Arity.eq_of_admitted h)
    cases target <;> cases hr
  | lambda =>
    rcases args with _ | ⟨params, _ | ⟨first, rest⟩⟩
    · cases h
    · cases h
    · refine run_ofExcept_bind_ne (implementation_sparesCounts params (first :: rest)) ?_ hr
      rintro o ⟨⟩
  | defun =>
    rcases args with _ | ⟨target, _ | ⟨params, _ | ⟨first, rest⟩⟩⟩
    · cases h
    · cases h
    · cases h
    · cases target with
      | symbol a =>
        refine run_ofExcept_bind_ne (implementation_sparesCounts params (first :: rest)) ?_ hr
        rintro o ⟨⟩
      | _ => cases hr
  | letIn =>
    refine run_ofExcept_bind_ne (Let.ofArgs_sparesCounts args) (fun l hl => ?_) hr
    obtain ⟨bindings, body⟩ := l
    cases bindings with
    | nil => rcases body with _ | ⟨x, _ | ⟨y, rest⟩⟩ <;> cases hl
    | cons binding rest =>
      rw [Let.run, Let.bindAll, bind_assoc] at hl
      refine run_ofExcept_bind_ne (Let.parts_sparesCounts binding) ?_ hl
      rintro parts ⟨⟩

theorem refusesCount_iff {form : SpecialForm} {args : List Value} :
    form.RefusesCount args ↔ form.arity.admits args.length = false := by
  unfold Arity.admits
  constructor
  · rintro ⟨n, hn⟩
    cases h : form.arity.refusal? args.length with
    | none => exact absurd (hn _ _ _) (run_ne_of_admitted h n args.length {})
    | some _ => rfl
  · intro h
    cases hrefusal : form.arity.refusal? args.length with
    | none =>
      rw [hrefusal] at h
      cases h
    | some n =>
      refine ⟨n, fun eval e s => ?_⟩
      rw [run_of_refused hrefusal]
      rfl

end SpecialForm

namespace Value

/-- If the value is a special form, it has as many arguments as the form takes. -/
def hasItsCount : Value → Bool
  | .op (.form form) args => form.arity.admits args.length
  | _ => true

/-- Every special form in the value has as many arguments as it takes. -/
def FormsFit (v : Value) : Prop := v.throughout hasItsCount = true

mutual

theorem formsFit_of_checkForms : ∀ {v : Value}, v.checkForms = .ok () → v.FormsFit
  | .op o args, h => by
    rw [checkForms] at h
    split at h
    case h_1 => cases h
    case h_2 hrefusal =>
      refine throughout_op_iff.2 ⟨?_, formsFit_of_checkFormsAll h⟩
      cases o with
      | primitive p => rfl
      | form form =>
        have hrefusal : form.arity.refusal? args.length = none := hrefusal
        rw [hasItsCount, Arity.admits, hrefusal]
        rfl
  | .list elements, h => by
    rw [checkForms] at h
    exact throughout_list_iff.2 ⟨rfl, formsFit_of_checkFormsAll h⟩
  | .number _, _ | .symbol _, _ | .string _, _ | .bool _, _ => rfl
  | .builtin _ _, _ | .function _, _ | .unspecified, _ => rfl

theorem formsFit_of_checkFormsAll :
    ∀ {vs : List Value}, checkFormsAll vs = .ok () → ∀ v ∈ vs, v.FormsFit
  | [], _ => by simp
  | v :: vs, h => by
    rw [checkFormsAll] at h
    obtain ⟨⟨⟩, hv, hvs⟩ := exists_of_bind_eq_ok h
    have hhead := formsFit_of_checkForms hv
    have htail := formsFit_of_checkFormsAll hvs
    intro u hu
    rcases List.mem_cons.1 hu with rfl | hu
    · exact hhead
    · exact htail u hu

end

end Value

/-! ### What is read -/

namespace Source

/-- Some text denotes the expression, or a program that it is part of. -/
inductive Accepted : Value → Prop
  | expression {text : String} {v : Value} (h : readExpression text = .ok v) : Accepted v
  | program {text : String} {vs : List Value} {v : Value} (h : readProgram text = .ok vs)
    (hv : v ∈ vs) : Accepted v

theorem formsFit_of_expressions {input s : List Char} {vs : List Value}
    (h : expressions input s = .ok vs) : ∀ v ∈ vs, v.FormsFit := by
  induction vs generalizing s with
  | nil => simp
  | cons v vs ih =>
    rcases expressions_eq_ok h with ⟨-, ⟨⟩⟩ | ⟨_, rest, _, -, hcheck, hrest, ⟨⟩⟩
    intro u hu
    rcases List.mem_cons.1 hu with rfl | hu
    · exact Value.formsFit_of_checkForms hcheck
    · exact ih hrest u hu

theorem Accepted.formsFit {v : Value} (h : Accepted v) : v.FormsFit := by
  cases h with
  | expression h => exact Value.formsFit_of_checkForms (expression_of_readExpression h).1
  | program h hv => exact formsFit_of_expressions h v hv

end Source

/-! ### What is evaluated -/

def Closure.FormsFit (c : Closure) : Prop := ∀ o ∈ c.overloads, ∀ x ∈ o.body, x.FormsFit

/-- The special forms in the code of functions have as many arguments as they take. -/
def Store.FormsFit (s : Store) : Prop := ∀ c ∈ s.closures, c.FormsFit

theorem FunctionRef.of_select_eq_arity {f : FunctionRef} {os : List Overload} {given n m : Nat}
    (h : f.select os given = .error (.arity n m none)) :
    os.map Overload.arity = [n] ∧ m = given ∧ m ≠ n := by
  unfold select at h
  split at h
  case h_1 => cases h
  case h_2 hnone =>
    split at h
    case h_1 only =>
      cases h
      have hne := List.find?_eq_none.1 hnone only List.mem_cons_self
      exact ⟨rfl, rfl, fun heq => hne (beq_iff_eq.2 heq.symm)⟩
    case h_2 => cases h

/-- A check that fails for a number of arguments alone comes right after the choice of a function
that has one overload, which takes another number. -/
def CountsFailInCalls (events : List Event) : Prop :=
  ∀ before after u n m, events = before ++ ⟨u, .check (.error (.arity n m none))⟩ :: after →
    ∃ earlier f, before = earlier ++ [⟨u, .closure f m⟩] ∧ u.arities f = [n] ∧ m ≠ n

namespace CountsFailInCalls

variable {events events' : List Event}

theorem nil : CountsFailInCalls [] := by
  intro before after u n m h
  cases before <;> cases h

theorem append (h : CountsFailInCalls events) (h' : CountsFailInCalls events') :
    CountsFailInCalls (events ++ events') := by
  intro before after u n m hevents
  rcases List.append_eq_append_iff.1 hevents with ⟨between, rfl, hsplit⟩ | ⟨between, hsplit, hafter⟩
  · obtain ⟨earlier, f, rfl, hf⟩ := h' between after u n m hsplit
    exact ⟨events ++ earlier, f, (List.append_assoc _ _ _).symm, hf⟩
  · cases between with
    | nil =>
      obtain ⟨earlier, f, hnil, -⟩ := h' [] after u n m hafter.symm
      cases earlier <;> cases hnil
    | cons event between =>
      cases hafter
      exact h before between u n m hsplit

theorem singleton {s : Store} {st : Step} (hst : ∀ n m, st ≠ .check (.error (.arity n m none))) :
    CountsFailInCalls [⟨s, st⟩] := by
  intro before after u n m hevents
  cases before with
  | nil =>
    cases hevents
    exact absurd rfl (hst n m)
  | cons event before => cases before <;> cases hevents

theorem of_select {s : Store} {f : FunctionRef} {c : Closure} {given : Nat} {x : Error}
    (hc : s.closures[f.index]? = some c) (hx : f.select c.overloads given = .error x) :
    CountsFailInCalls [⟨s, .closure f given⟩, ⟨s, .check (.error x)⟩] := by
  intro before after u n m hevents
  match before with
  | [] => cases hevents
  | [_] =>
    cases hevents
    obtain ⟨harities, rfl, hne⟩ := FunctionRef.of_select_eq_arity hx
    refine ⟨[], f, rfl, ?_, hne⟩
    rw [Store.arities, hc]
    exact harities
  | _ :: _ :: before => cases before <;> cases hevents

end CountsFailInCalls

/-- The special forms fit in the code of functions and in what is evaluated. -/
def formsFitting : Invariant where
  holds := Store.FormsFit
  grows _ _ := True
  here _ _ := True
  code := Value.FormsFit
  allows events := CountsFailInCalls events ∧
    ∀ event ∈ events, ∀ levels form args d,
      event.step = .evaluate levels (.op (.form form) args) d →
        form.arity.admits args.length = true
  refl _ := trivial
  trans _ _ := trivial
  here_mono _ _ := trivial
  nil := ⟨.nil, by simp⟩
  append h h' := ⟨h.1.append h'.1, fun event hevent =>
    (List.mem_append.1 hevent).elim (h.2 event) (h'.2 event)⟩
  part h hy := Value.throughout_of_mem_parts h hy
  closure hs hc := ⟨trivial, hs _ (Array.mem_of_getElem? hc)⟩
  evaluate hs _ hx := by
    refine ⟨.singleton (by rintro _ _ ⟨⟩), fun event hevent levels form args d hstep => ?_⟩
    rw [List.mem_singleton.1 hevent] at hstep
    cases hstep
    exact (Value.throughout_op_iff.1 hx).1
  ordinary {s st} _ hst := by
    refine ⟨.singleton ?_, fun event hevent levels form args d hstep => ?_⟩
    · rintro n m rfl
      cases hst
    · rw [List.mem_singleton.1 hevent] at hstep
      cases hstep
      cases hst
  select _ hc hx := by
    refine ⟨.of_select hc hx, fun event hevent levels form args d hstep => ?_⟩
    rcases List.mem_cons.1 hevent with rfl | hevent
    · cases hstep
    · rw [List.mem_singleton.1 hevent] at hstep
      cases hstep
  refuse {s form args n} _ hx hn := by
    have hfits : form.arity.admits args.length = true := (Value.throughout_op_iff.1 hx).1
    rw [Arity.admits, hn] at hfits
    cases hfits
  bind hs := ⟨hs, trivial⟩
  enter _ _ hs _ _ := ⟨hs, trivial, trivial⟩
  lambda hs _ ho := by
    refine ⟨fun c hc => ?_, trivial⟩
    rcases Array.mem_push.1 hc with hc | rfl
    · exact hs c hc
    · intro o ho'
      rw [List.mem_singleton.1 ho']
      exact ho
  overload {s i o} hs ho := by
    have hadded : ∀ c ∈ s.closures,
        Closure.FormsFit { c with overloads := c.overloads ++ [o] } := by
      intro c hc o' ho'
      rcases List.mem_append.1 ho' with ho' | ho'
      · exact hs c hc o' ho'
      · rw [List.mem_singleton.1 ho']
        exact ho
    exact ⟨forall_mem_modify (P := Closure.FormsFit) i _ hs hadded, trivial⟩

/-! ### Errors at the end -/

namespace Traced

/-- Only builtins and checks fail for a number of arguments alone. -/
theorem perform_bareArity {runner : Runner} {st : Step} {s t : Store} {n m : Nat}
    (h : (st.perform runner).run s = .error (.arity n m none) t) :
    (∃ code args, st = .run code args ∧ runner code args = .error (.arity n m none)) ∨
      st = .check (.error (.arity n m none)) := by
  cases st with
  | evaluate levels expr e =>
    simp only [Step.perform] at h
    split at h <;> cases h
  | lookup name e =>
    obtain ⟨-, ⟨⟩⟩ := error_of_run_lookup (run_of_run_discard h)
  | shadowing p e => cases h
  | closure f given =>
    obtain ⟨-, ⟨⟩⟩ := error_of_run_closure (run_of_run_discard h)
  | run code args =>
    have hrun := run_of_run_discard h
    cases hr : runner code args with
    | ok v =>
      rw [hr] at hrun
      cases hrun
    | error y =>
      rw [hr] at hrun
      cases hrun
      exact .inl ⟨code, args, rfl, hr⟩
  | create env => cases h
  | define name slot e =>
    obtain ⟨-, ⟨⟩⟩ := error_of_run_define h
  | assign name v e =>
    obtain ⟨-, ⟨⟨⟩⟩ | ⟨⟨⟩⟩ | ⟨_, ⟨⟩⟩⟩ := error_of_run_assign h
  | lambda o e => cases h
  | defun name o e =>
    obtain ⟨-, ⟨_, ⟨⟩⟩ | ⟨⟨⟩⟩⟩ := error_of_run_defun h
  | check verdict =>
    cases verdict with
    | ok v => cases h
    | error y =>
      cases h
      exact .inr rfl

end Traced

/-- An operator that no value shadows does not fail for a number of arguments alone. If that is how
its application ends, it is how the evaluation of the arguments ended. -/
theorem bareArity_of_operator {host : Host} {levels : Nat} {p : Primitive} {args : List Value}
    {e : EnvRef} {s t : Store} {n m : Nat} (hs : s.shadowing? p e = none)
    (h : (evalWithin (Code.run host) (levels + 1) (.op (.primitive p) args) e).run s =
      .error (.arity n m none) t) :
    (evalEach (evalWithin (Code.run host) levels) args e).run s = .error (.arity n m none) t := by
  rw [run_evalWithin_op_of_unshadowed levels hs, evalPrimitive] at h
  cases hn : p.arity.refusal? args.length with
  | some k =>
    rw [hn] at h
    cases h
  | none =>
    rw [hn] at h
    cases hvs : (evalEach (evalWithin (Code.run host) levels) args e).run s with
    | ok vs u =>
      rw [Action.run_bind_of_ok hvs] at h
      rw [← length_of_evalEach hvs] at hn
      cases hrun : p.run vs with
      | ok v =>
        simp only [Code.run, hrun] at h
        cases h
      | error x =>
        simp only [Code.run, hrun] at h
        cases h
        rw [(Primitive.refused_of_run hrun).1] at hn
        cases hn
    | error x u =>
      rw [EStateM.run_bind, hvs] at h
      cases h
      rfl

/-- Expressions that are read have been evaluated, one after another, wherever and at whatever
depth. -/
inductive Store.Evaluated (host : Host) (start : Store) : Store → Prop
  | start : Evaluated host start start
  | evaluate {s : Store} {v : Value} (h : Evaluated host start s) (hv : Source.Accepted v)
    (depth : Nat) (e : EnvRef) : Evaluated host start ((evalAt host depth v e).after s)

section Session

variable {host : Host} {start s : Store} {v : Value}

theorem keeps_evalAt (host : Host) (hs : s.FormsFit) (hv : v.FormsFit) (depth : Nat)
    (e : EnvRef) :
    formsFitting.Keeps s (Traced.evalAt host depth v e) :=
  formsFitting.serves_evalAt host depth s e v hs trivial hv

theorem Store.Evaluated.formsFit (hstart : start.FormsFit) (h : Store.Evaluated host start s) :
    s.FormsFit := by
  induction h with
  | start => exact hstart
  | @evaluate s v _ hv depth e ih =>
    have hholds := (keeps_evalAt host ih hv.formsFit depth e).holds
    rw [Trace.store_eq_after ((Traced.records_evalAt host depth v e).outcome s)] at hholds
    exact hholds

/-- In what is read every special form has as many arguments as it takes. While such expressions
are evaluated, one after another, from a store where this holds of the code of functions, no
special form is begun that would refuse the number of its arguments. Whenever a check fails for
a number of arguments alone, a function has just been called that has one overload, which takes
another number. An operator never fails for that reason by itself, only one of its arguments can.
So if an evaluation fails for a number of arguments alone, its last step was such a call, or a
builtin was run, and a primitive only on a number of arguments that its arity refuses. -/
theorem forms_have_their_counts (hstart : start.FormsFit) (hs : Store.Evaluated host start s)
    (hv : Source.Accepted v) (depth : Nat) (e : EnvRef) :
    v.FormsFit ∧
    (Traced.evalAt host depth v e s).outcome = (evalAt host depth v e).run s ∧
    (∀ event ∈ (Traced.evalAt host depth v e s).events, ∀ levels form args d,
      event.step = .evaluate levels (.op (.form form) args) d →
        form.arity.admits args.length = true ∧ ¬ form.RefusesCount args) ∧
    CountsFailInCalls (Traced.evalAt host depth v e s).events ∧
    (∀ event ∈ (Traced.evalAt host depth v e s).events, ∀ levels p args d,
      event.step = .evaluate (levels + 1) (.op (.primitive p) args) d →
        event.store.shadowing? p d = none → ∀ n m t,
          (evalWithin (Code.run host) (levels + 1) (.op (.primitive p) args) d).run event.store =
              .error (.arity n m none) t →
            (evalEach (evalWithin (Code.run host) levels) args d).run event.store =
              .error (.arity n m none) t) ∧
    ∀ n m t, (evalAt host depth v e).run s = .error (.arity n m none) t →
      (∃ before f, (Traced.evalAt host depth v e s).events =
          before ++ [⟨t, .closure f m⟩, ⟨t, .check (.error (.arity n m none))⟩] ∧
        t.arities f = [n] ∧ m ≠ n) ∨
      ∃ before code args, (Traced.evalAt host depth v e s).events =
          before ++ [⟨t, .run code args⟩] ∧
        code.run host args = .error (.arity n m none) ∧
        ∀ p, code = .primitive p → p.arity.refusal? args.length = some n ∧ m = args.length := by
  have hrecords := Traced.records_evalAt host depth v e
  obtain ⟨hcalls, hforms⟩ :=
    (keeps_evalAt host (hs.formsFit hstart) hv.formsFit depth e).allows
  refine ⟨hv.formsFit, hrecords.outcome s, fun event hevent levels form args d hstep => ?_, hcalls,
    fun _ _ _ _ _ _ _ hs _ _ _ => bareArity_of_operator hs, fun n m t hr => ?_⟩
  · have hadmits := hforms event hevent levels form args d hstep
    refine ⟨hadmits, fun hrefuses => ?_⟩
    rw [SpecialForm.refusesCount_iff.1 hrefuses] at hadmits
    cases hadmits
  · obtain ⟨before, step, origin, hevents, -, hstep, hstems⟩ :=
      (hrecords.accounts s).error _ t ((hrecords.outcome s).trans hr)
    obtain rfl := (hstems.eq_of_kind (by rintro ⟨⟩) (by rintro ⟨⟩)).symm
    rcases Traced.perform_bareArity hstep with ⟨code, args, rfl, hrun⟩ | rfl
    · refine .inr ⟨before, code, args, hevents, hrun, ?_⟩
      rintro p rfl
      exact Primitive.refused_of_run hrun
    · obtain ⟨earlier, f, rfl, hf⟩ := hcalls before [] t n m hevents
      refine .inl ⟨earlier, f, ?_, hf⟩
      rw [hevents, List.append_assoc]
      rfl

end Session

/-- A function of one parameter is called without an argument, in a later expression. -/
theorem forms_have_their_counts_of_short_call :
    let host : Host := fun _ _ => .ok .unspecified
    let start : Store := ⟨#[⟨{}, .root⟩], #[]⟩
    ∃ v w t, Source.readExpression "(defun f (x) (if x 1 2))" = .ok v ∧
      Source.readExpression "(f)" = .ok w ∧
      (evalAt host 0 w 0).run ((evalAt host 0 v 0).after start) = .error (.arity 1 0 none) t ∧
      ∃ before f, (Traced.evalAt host 0 w 0 ((evalAt host 0 v 0).after start)).events =
        before ++ [⟨t, .closure f 0⟩, ⟨t, .check (.error (.arity 1 0 none))⟩] := by
  intro host start
  have hdefined : Source.readExpression "(defun f (x) (if x 1 2))" =
      .ok (.op (.form .defun) [.symbol ⟨"f", .any⟩, .list [.symbol ⟨"x", .any⟩],
        .op (.form .cond) [.symbol ⟨"x", .any⟩, .number 1, .number 2]]) := by cbv
  have hcall : Source.readExpression "(f)" = .ok (.list [.symbol ⟨"f", .any⟩]) := by cbv
  have hstart : start.FormsFit := fun c hc => absurd hc (Array.not_mem_empty c)
  have hsession : Store.Evaluated host start _ := .evaluate .start (.expression hdefined) 0 0
  obtain ⟨-, -, -, -, -, hends⟩ :=
    forms_have_their_counts hstart hsession (.expression hcall) 0 0
  refine ⟨_, _, _, hdefined, hcall, rfl, ?_⟩
  rcases hends 1 0 _ rfl with ⟨before, f, hevents, -⟩ | ⟨before, code, args, hevents, -⟩
  · exact ⟨before, f, hevents⟩
  · have hlast := congrArg List.getLast? hevents
    rw [List.getLast?_concat] at hlast
    cases hlast

end LexicalLisp
