import LexicalLisp.Proofs.OperatorApplication
import LexicalLisp.Proofs.Soundness
import LexicalLisp.Proofs.Uniformity

/-!
# A let is an applied lambda

A `let` evaluates an initializer, checks its value and declares the variable before it comes to the
next binding. The application of a `lambda` to the initializers makes a function first, evaluates
all of them, and only then checks the values and declares the parameters. If either succeeds, then
so does the other, with the function as the only difference.
-/
namespace LexicalLisp

/-! ### Parameters -/

namespace Frame

theorem declareAll_cons_eq_ok_iff {f g : Frame} {p : Symbol} {ps : List Symbol} {v : Value}
    {vs : List Value} :
    f.declareAll (p :: ps) (v :: vs) = .ok g ↔
      ∃ f₁, f.declare p v = .ok f₁ ∧ f₁.declareAll ps vs = .ok g := by
  constructor
  · exact exists_of_bind_eq_ok
  · rintro ⟨f₁, hp, hps⟩
    rw [declareAll, hp]
    exact hps

/-- Symbols that are declared one after the other have distinct names, and new ones. -/
theorem nodup_of_declareAll {f g : Frame} {ps : List Symbol} {vs : List Value}
    (hlength : vs.length = ps.length) (h : f.declareAll ps vs = .ok g) :
    (ps.map Symbol.name).Nodup ∧ ∀ p ∈ ps, f.binds p.name = false := by
  induction ps generalizing f vs with
  | nil => simp
  | cons p ps ih =>
    cases vs with
    | nil => cases hlength
    | cons v vs =>
      obtain ⟨f₁, hp, hps⟩ := declareAll_cons_eq_ok_iff.1 h
      obtain ⟨-, hfree, rfl⟩ := declare_eq_ok_iff.1 hp
      obtain ⟨hnodup, hrest⟩ := ih (Nat.succ.inj hlength) hps
      have hq : ∀ q ∈ ps, p.name ≠ q.name ∧ f.binds q.name = false := by
        intro q hq
        have hbinds := hrest q hq
        rw [binds, get?_put] at hbinds
        split at hbinds
        case isTrue => cases hbinds
        case isFalse hne => exact ⟨hne, hbinds⟩
      constructor
      · rw [List.map_cons, List.nodup_cons]
        refine ⟨?_, hnodup⟩
        intro hmem
        obtain ⟨q, hmem, heq⟩ := List.mem_map.1 hmem
        exact (hq q hmem).1 heq.symm
      · intro q hmem
        rcases List.mem_cons.1 hmem with rfl | hmem
        · exact hfree
        · exact (hq q hmem).2

end Frame

namespace Overload

theorem repeated?_of_nodup {seen : List String} {ps : List Symbol}
    (hnodup : (ps.map Symbol.name).Nodup) (hseen : ∀ p ∈ ps, p.name ∉ seen) :
    repeated? seen ps = none := by
  induction ps generalizing seen with
  | nil => rfl
  | cons p ps ih =>
    rw [List.map_cons, List.nodup_cons] at hnodup
    rw [repeated?, if_neg (hseen p List.mem_cons_self)]
    refine ih hnodup.2 fun q hq => ?_
    rw [List.mem_cons, not_or]
    refine ⟨?_, hseen q (List.mem_cons_of_mem p hq)⟩
    intro heq
    exact hnodup.1 (heq ▸ List.mem_map_of_mem hq)

theorem ofParams_of_distinct {o : Overload} (h : o.Distinct) :
    ofParams o.params o.body = .ok o := by
  rw [ofParams, repeated?_of_nodup h (by simp)]

/-- A call that succeeds has bound distinct parameters. -/
theorem distinct_of_run_enter {eval : Evaluator} {o : Overload} {name : String} {home : EnvRef}
    {vs : List Value} {s t : Store} {v : Value} (hlength : vs.length = o.arity)
    (h : (o.enter eval name home vs).run s = .ok v t) : o.Distinct := by
  obtain ⟨frame, u, hframe, -⟩ := Action.run_bind_eq_ok h
  cases hd : Frame.declareAll {} o.params vs with
  | ok g => exact (Frame.nodup_of_declareAll hlength hd).1
  | error x =>
    rw [hd] at hframe
    cases hframe

end Overload

theorem FunctionRef.run_call_of_only {eval : Evaluator} {f : FunctionRef} {o : Overload}
    {home : EnvRef} {vs : List Value} {s : Store} (hc : s.closures[f.index]? = some ⟨[o], home⟩)
    (hlength : vs.length = o.arity) :
    (f.call eval vs).run s = (o.enter eval f.name home vs).run s := by
  have hselect : f.select [o] vs.length = .ok o := by
    simp [select, hlength]
  exact run_call_of_select eval hc hselect

/-! ### The two forms -/

namespace Let

section

variable (bindings : List (Symbol × Value)) (body : List Value)

/-- The `let` that binds these symbols to the values of these expressions. -/
def form : Value :=
  .op (.form .letIn) (.list (bindings.map fun b => .list [.symbol b.1, b.2]) :: body)

/-- The application of a `lambda` with these symbols as its parameters to these expressions. -/
def application : Value :=
  .list (.op (.form .lambda) (.list (bindings.map fun b => .symbol b.1) :: body) ::
    bindings.map Prod.snd)

/-- What a call of the `lambda` runs. -/
def overload : Overload := ⟨bindings.map Prod.fst, body⟩

/-- The function that the application makes in an environment. -/
def closure (e : EnvRef) : Closure := ⟨[overload bindings body], e⟩

end

variable {bindings : List (Symbol × Value)} {body : List Value} {eval : Evaluator} {e : EnvRef}
  {s t : Store} {v : Value}

/-- The initializers are evaluated, and the symbols are declared, whichever comes first. -/
theorem run_bindAll_eq_ok_iff {f g : Frame} :
    (bindAll eval e (bindings.map fun b => .list [.symbol b.1, b.2]) f).run s = .ok g t ↔
      ∃ vs, (evalEach eval (bindings.map Prod.snd) e).run s = .ok vs t ∧
        f.declareAll (bindings.map Prod.fst) vs = .ok g := by
  induction bindings generalizing f s with
  | nil =>
    constructor
    · intro h
      cases h
      exact ⟨[], rfl, rfl⟩
    · rintro ⟨vs, hvs, hg⟩
      cases hvs
      cases hg
      rfl
  | cons b bindings ih =>
    simp only [List.map_cons]
    constructor
    · intro h
      obtain ⟨_, _, hparts, h⟩ := Action.run_bind_eq_ok h
      cases hparts
      obtain ⟨v, u, hv, h⟩ := Action.run_bind_eq_ok h
      obtain ⟨f₁, u', hf, h⟩ := Action.run_bind_eq_ok h
      cases hd : f.declare b.1 v with
      | error x =>
        rw [hd] at hf
        cases hf
      | ok f₂ =>
        rw [hd] at hf
        cases hf
        obtain ⟨vs, hvs, hg⟩ := ih.1 h
        refine ⟨v :: vs, ?_, Frame.declareAll_cons_eq_ok_iff.2 ⟨f₁, hd, hg⟩⟩
        rw [evalEach, Action.run_bind_of_ok hv, Action.run_bind_of_ok hvs]
        rfl
    · rintro ⟨ws, hws, hg⟩
      obtain ⟨v, u, hv, h⟩ := Action.run_bind_eq_ok hws
      obtain ⟨vs, u', hvs, h⟩ := Action.run_bind_eq_ok h
      cases h
      obtain ⟨f₁, hd, hg⟩ := Frame.declareAll_cons_eq_ok_iff.1 hg
      have hrest := ih.2 ⟨vs, hvs, hg⟩
      show (eval b.2 e >>= _).run s = _
      rw [Action.run_bind_of_ok hv]
      show (Action.ofExcept (f.declare b.1 v) >>= _).run u = _
      rw [hd]
      exact hrest

/-- A `let` that succeeds evaluates the initializers and then does what a call with their values
does. -/
theorem run_eq_ok_iff :
    (run eval ⟨bindings.map fun b => .list [.symbol b.1, b.2], body⟩ e).run s = .ok v t ↔
      ∃ vs u, (evalEach eval (bindings.map Prod.snd) e).run s = .ok vs u ∧
        ((overload bindings body).enter eval "lambda" e vs).run u = .ok v t := by
  constructor
  · intro h
    obtain ⟨frame, u, hframe, h⟩ := Action.run_bind_eq_ok h
    obtain ⟨vs, hvs, hdeclare⟩ := run_bindAll_eq_ok_iff.1 hframe
    refine ⟨vs, u, hvs, ?_⟩
    unfold Overload.enter
    rw [show Frame.declareAll {} (overload bindings body).params vs = .ok frame from hdeclare]
    exact Action.run_noting_ok h
  · rintro ⟨vs, u, hvs, h⟩
    obtain ⟨frame, u', hframe, h⟩ := Action.run_bind_eq_ok h
    cases hdeclare : Frame.declareAll {} (overload bindings body).params vs with
    | error x =>
      rw [hdeclare] at hframe
      cases hframe
    | ok frame' =>
      rw [hdeclare] at hframe
      cases hframe
      have hbind := run_bindAll_eq_ok_iff.2 ⟨vs, hvs, hdeclare⟩
      unfold run
      rw [Action.run_bind_of_ok hbind]
      exact Action.run_of_noting_ok h

theorem evalWithin_form (runner : Runner) (levels : Nat) :
    evalWithin runner (levels + 1) (form bindings body) e =
      run (evalWithin runner levels) ⟨bindings.map fun b => .list [.symbol b.1, b.2], body⟩ e := by
  rw [evalWithin_succ, form, step_form]
  rfl

theorem implementation_application (bindings : List (Symbol × Value)) (body : List Value) :
    SpecialForm.implementation (.list (bindings.map fun b => .symbol b.1)) body =
      Overload.ofParams (bindings.map Prod.fst) body := by
  have hsymbols : SpecialForm.symbols (bindings.map fun b => .symbol b.1) =
      .ok (bindings.map Prod.fst) := by
    induction bindings with
    | nil => rfl
    | cons b bindings ih =>
      rw [List.map_cons, SpecialForm.symbols, ih]
      rfl
  show (SpecialForm.symbols (bindings.map fun b => .symbol b.1) >>= _) = _
  rw [hsymbols]
  rfl

/-- The `lambda` makes its function if the symbols are distinct, and fails otherwise. -/
theorem run_lambda_eq_ok_iff (hbody : body ≠ []) :
    (SpecialForm.runLambda (.list (bindings.map fun b => .symbol b.1) :: body) e).run s =
        .ok v t ↔
      (overload bindings body).Distinct ∧ v = .function ⟨"lambda", s.closures.size⟩ ∧
        t = { s with closures := s.closures.push (closure bindings body e) } := by
  obtain ⟨first, rest, rfl⟩ := List.exists_cons_of_ne_nil hbody
  rw [SpecialForm.runLambda, implementation_application]
  constructor
  · intro h
    cases ho : Overload.ofParams (bindings.map Prod.fst) (first :: rest) with
    | error x =>
      rw [ho] at h
      cases h
    | ok o =>
      rw [ho] at h
      obtain ⟨hdistinct, rfl⟩ := Overload.ofParams_eq_ok ho
      cases h
      exact ⟨hdistinct, rfl, rfl⟩
  · rintro ⟨hdistinct, rfl, rfl⟩
    have ho := Overload.ofParams_of_distinct hdistinct
    rw [show Overload.ofParams (bindings.map Prod.fst) (first :: rest) = _ from ho]
    rfl

/-- The application makes the function, evaluates the arguments and calls it. -/
theorem run_application_eq_ok_iff {runner : Runner} {levels : Nat} (hbody : body ≠ []) :
    (evalWithin runner (levels + 2) (application bindings body) e).run s = .ok v t ↔
      (overload bindings body).Distinct ∧
        ∃ vs u, (evalEach (evalWithin runner levels) (bindings.map Prod.snd) e).run
            { s with closures := s.closures.push (closure bindings body e) } = .ok vs u ∧
          (FunctionRef.call (evalWithin runner levels) ⟨"lambda", s.closures.size⟩ vs).run u =
            .ok v t := by
  have hhead : evalWithin runner (levels + 1)
      (.op (.form .lambda) (.list (bindings.map fun b => .symbol b.1) :: body)) e =
        SpecialForm.runLambda (.list (bindings.map fun b => .symbol b.1) :: body) e := by
    rw [evalWithin_succ, step_form]
    rfl
  rw [evalWithin_succ, Nat.add_sub_cancel, application, step_list]
  constructor
  · intro h
    obtain ⟨f, u, hf, h⟩ := Action.run_bind_eq_ok (Action.run_of_noting_ok h)
    rw [hhead] at hf
    obtain ⟨hdistinct, rfl, rfl⟩ := (run_lambda_eq_ok_iff hbody).1 hf
    obtain ⟨vs, u', hvs, h⟩ := Action.run_bind_eq_ok h
    exact ⟨hdistinct, vs, u', hvs, h⟩
  · rintro ⟨hdistinct, vs, u, hvs, h⟩
    refine Action.run_noting_ok ?_
    have hf := (run_lambda_eq_ok_iff (s := s) (e := e) hbody).2 ⟨hdistinct, rfl, rfl⟩
    rw [← hhead] at hf
    unfold evalList
    rw [Action.run_bind_of_ok hf, Action.run_bind_of_ok hvs]
    exact h

end Let

/-! ### Both together -/

/-- The function that was added can be called, with the arguments that evaluation has left. -/
theorem Store.run_call_plus {s t u : Store} {o : Overload} {home : EnvRef} {eval : Evaluator}
    {vs : List Value} (h : (s.plus ⟨[o], home⟩).Relates t u) (hlength : vs.length = o.arity) :
    (FunctionRef.call eval ⟨"lambda", s.closures.size⟩ vs).run u =
      (o.enter eval "lambda" home vs).run u :=
  FunctionRef.run_call_of_only (h.closures.filled 0 Nat.one_pos) hlength

namespace Let

variable {bindings : List (Symbol × Value)} {body : List Value}

theorem length_eq_arity {eval : Evaluator} {e : EnvRef} {s t : Store} {vs : List Value}
    (h : (evalEach eval (bindings.map Prod.snd) e).run s = .ok vs t) :
    vs.length = (overload bindings body).arity := by
  rw [length_of_evalEach h, List.length_map, Overload.arity, overload, List.length_map]

theorem within_of_form {n : Nat} (h : (form bindings body).Within n) :
    (∀ x ∈ bindings.map Prod.snd, x.Within n) ∧ ∀ x ∈ body, x.Within n := by
  have hargs := (Value.throughout_op_iff.1 h).2
  constructor
  · intro x hx
    obtain ⟨b, hb, rfl⟩ := List.mem_map.1 hx
    have hbinding := (Value.throughout_list_iff.1 (hargs _ List.mem_cons_self)).2 _
      (List.mem_map_of_mem hb)
    exact (Value.throughout_list_iff.1 hbinding).2 b.2 (by simp)
  · intro x hx
    exact hargs x (List.mem_cons_of_mem _ hx)

end Let

/-- A `let` succeeds just if the application of a `lambda`, with its symbols and its body, to its
initializers does. The results are the same then, and so are the stores in the end, but that the
application has made one function more: it has the first place behind those that the store had
before, and the functions that are made later move up by one. That needs functions of the host
which do not see the numbers of handles, so that they do the same in both stores. -/
theorem let_is_applied_lambda (host : Host) (hhost : host.Uniform)
    (bindings : List (Symbol × Value)) (body : List Value) (hbody : body ≠ []) (e : EnvRef)
    (s : Store) (hs : s.Sound) (hcode : (Let.form bindings body).Within s.closures.size)
    (depth : Nat) (hdepth : depth + 1 < maxDepth) :
    let I := s.plus (Let.closure bindings body e)
    (∀ v t, (evalAt host (depth + 1) (Let.form bindings body) e).run s = .ok v t →
      ∃ t', (evalAt host depth (Let.application bindings body) e).run s = .ok (I.value v) t' ∧
        I.Relates t t') ∧
    (∀ v' t', (evalAt host depth (Let.application bindings body) e).run s = .ok v' t' →
      ∃ v t, (evalAt host (depth + 1) (Let.form bindings body) e).run s = .ok v t ∧
        v' = I.value v ∧ I.Relates t t') := by
  intro I
  -- both evaluate the initializers and the body with the levels that are left at `depth + 2`
  have happlication : maxDepth - depth = maxDepth - (depth + 2) + 2 := by omega
  have hlet : maxDepth - (depth + 1) = maxDepth - (depth + 2) + 1 := by omega
  unfold evalAt
  rw [happlication, hlet, Let.evalWithin_form]
  have hfn : ∀ i < s.closures.size, I.fn i = i := fun i hi => Store.fn_plus_of_lt hi _
  have henv : I.env e = e := Store.env_plus s _ e
  obtain ⟨hinits, hbodies⟩ := Let.within_of_form hcode
  have hstores := hs.relates_plus (Let.closure bindings body e)
  have hev : I.Uniform (evalWithin (Code.run host) (maxDepth - (depth + 2))) :=
    I.uniform_evalAt hhost (depth + 2)
  have heach := hev.evalEach (bindings.map Prod.snd) e
  have henter := hev.enterOverload "lambda" (Let.overload bindings body) e
  rw [henv, show (bindings.map Prod.snd).map I.value = _ from Value.map_rename_of_within hfn hinits]
    at heach
  rw [henv, Overload.rename_of_within hfn hbodies] at henter
  constructor
  · intro v t hr
    obtain ⟨vs, u, hvs, hv⟩ := Let.run_eq_ok_iff.1 hr
    have hlength : vs.length = (Let.overload bindings body).arity := Let.length_eq_arity hvs
    have hdistinct := Overload.distinct_of_run_enter hlength hv
    obtain ⟨u', hvs', hu⟩ := heach.run_ok hstores hvs
    obtain ⟨t', hv', ht⟩ := (henter vs).run_ok hu hv
    rw [← Store.run_call_plus hu ((List.length_map _).trans hlength)] at hv'
    exact ⟨t', (Let.run_application_eq_ok_iff hbody).2 ⟨hdistinct, _, u', hvs', hv'⟩, ht⟩
  · intro v' t' hr
    obtain ⟨-, _, u', hvs', hv'⟩ := (Let.run_application_eq_ok_iff hbody).1 hr
    obtain ⟨vs, u, hvs, rfl, hu⟩ := heach.of_run_ok hstores hvs'
    have hlength : vs.length = (Let.overload bindings body).arity := Let.length_eq_arity hvs
    rw [Store.run_call_plus hu ((List.length_map _).trans hlength)] at hv'
    obtain ⟨v, t, hv, rfl, ht⟩ := (henter vs).of_run_ok hu hv'
    exact ⟨v, t, Let.run_eq_ok_iff.2 ⟨vs, u, hvs, hv⟩, rfl, ht⟩

/-- A function that is made in the body gets the second place instead of the first. -/
theorem let_is_applied_lambda_of_nested_lambda :
    let host : Host := fun _ _ => .ok .unspecified
    let bindings := [(Symbol.mk "x" .any, Value.number 1)]
    let body := [Value.op (.form .lambda) [.list [], .symbol ⟨"x", .any⟩]]
    let s : Store := { environments := #[⟨Frame.global, .root⟩] }
    host.Uniform ∧ body ≠ [] ∧ s.Sound ∧ (Let.form bindings body).Within s.closures.size ∧
      0 + 1 < maxDepth ∧
      ∃ t, (evalAt host 0 (Let.application bindings body) 0).run s =
        .ok (.function ⟨"lambda", 1⟩) t := by
  intro host bindings body s
  have hhost : host.Uniform := fun _ _ _ _ => rfl
  have hs : s.Sound := Store.sound_createGlobal (Store.run_createGlobal {})
  have hbody : body ≠ [] := List.cons_ne_nil _ _
  have hdepth : 0 + 1 < maxDepth := by decide
  refine ⟨hhost, hbody, hs, rfl, hdepth, ?_⟩
  have h := let_is_applied_lambda host hhost bindings body hbody 0 s hs rfl 0 hdepth
  obtain ⟨t, ht, -⟩ := h.1 (.function ⟨"lambda", 0⟩) _ rfl
  exact ⟨t, ht⟩

end LexicalLisp
