import LexicalLisp.Proofs.TracedCommand

/-!
# Conjunctions and disjunctions as nested conditionals

A conjunction or a disjunction of expressions does what conditionals do that are nested into one
another, one for each operand, but all its operands lie at one level while the conditionals lie ever
deeper. So it succeeds wherever they do, and they succeed wherever it does and the depth check lets
them. Unlike them it looks at all of its operands first, and refuses one that is plainly no truth
value.
-/
namespace LexicalLisp

namespace SpecialForm

/-- The form that is decided by an operand of this value. -/
def junction : (deciding : Bool) → SpecialForm
  | false => conj
  | true => disj

theorem run_junction (deciding : Bool) (eval : Evaluator) (args : List Value) (env : EnvRef) :
    (junction deciding).run eval args env =
      runJunction eval (junction deciding) deciding args env := by
  cases deciding <;> rfl

section Steps

variable {eval : Evaluator} {e : EnvRef} {s t u : Store} {x v : Value} {b deciding : Bool}

theorem run_firstDeciding_of_ok (h : (eval x e).run s = .ok (.bool b) u) (form : SpecialForm)
    (rest : List Value) :
    (firstDeciding eval form deciding (x :: rest) e).run s =
      if b = deciding then .ok (.bool b) u
      else (firstDeciding eval form deciding rest e).run u := by
  rw [firstDeciding, Action.run_bind_of_ok h]
  by_cases hb : b = deciding
  · simp [hb]
  · simp [hb]

/-- The first operand of a junction that succeeds has a truth value. -/
theorem exists_of_run_firstDeciding {form : SpecialForm} {rest : List Value}
    (h : (firstDeciding eval form deciding (x :: rest) e).run s = .ok v t) :
    ∃ b u, (eval x e).run s = .ok (.bool b) u := by
  rw [firstDeciding] at h
  obtain ⟨w, u, hw, hrest⟩ := Action.run_bind_eq_ok h
  cases w with
  | bool b => exact ⟨b, u, hw⟩
  | _ => cases hrest

theorem run_cond_of_ok {yes no : Value} (h : (eval x e).run s = .ok (.bool b) u) :
    (cond.run eval [x, yes, no] e).run s = (eval (if b then yes else no) e).run u := by
  have hrun : (cond.run eval [x, yes, no] e).run s = _ := Action.run_bind_of_ok h
  cases b with
  | true => exact hrun
  | false => exact hrun

theorem exists_of_run_cond {yes no : Value} (h : (cond.run eval [x, yes, no] e).run s = .ok v t) :
    ∃ b u, (eval x e).run s = .ok (.bool b) u := by
  obtain ⟨w, u, hw, hrest⟩ := Action.run_bind_eq_ok h
  cases w with
  | bool b => exact ⟨b, u, hw⟩
  | _ => cases hrest

theorem run_cond_of_error {yes no : Value} {y : Error} (h : (eval x e).run s = .error y u) :
    (cond.run eval [x, yes, no] e).run s = .error y u := by
  have hrun : (cond.run eval [x, yes, no] e).run s = _ := EStateM.run_bind ..
  rw [hrun, h]

/-- A junction refuses an operand that is plainly no truth value, whatever evaluates the others. -/
theorem run_junction_of_plain {exprs : List Value}
    (hplain : ∃ x ∈ exprs, isPlainlyNotBoolean x = true) (eval : Evaluator) (e : EnvRef)
    (s : Store) :
    ((junction deciding).run eval exprs e).run s =
      .error (.type (.operandNotBoolean (junction deciding)) []) s := by
  obtain ⟨x, hx, hnot⟩ := hplain
  have hany : exprs.any isPlainlyNotBoolean = true := List.any_eq_true.2 ⟨x, hx, hnot⟩
  have hne : exprs.isEmpty = false := by cases exprs <;> simp_all
  rw [run_junction, runJunction, hne, hany]
  rfl

theorem run_junction_of_no_plain {exprs : List Value} (hne : exprs ≠ [])
    (hplain : ∀ x ∈ exprs, isPlainlyNotBoolean x = false) (eval : Evaluator) (e : EnvRef) :
    (junction deciding).run eval exprs e =
      firstDeciding eval (junction deciding) deciding exprs e := by
  have hany : exprs.any isPlainlyNotBoolean = false := by simpa using hplain
  have hempty : exprs.isEmpty = false := by simpa using hne
  rw [run_junction, runJunction, hempty, hany]
  rfl

end Steps
end SpecialForm

open SpecialForm

/-- The operands in nested conditionals. A deciding operand gives its value at once; any other one
gives what those behind it give. -/
def nestedConditional (deciding : Bool) : List Value → Value
  | [] => .bool !deciding
  | x :: rest =>
    .op (.form .cond)
      (if deciding then [x, .bool true, nestedConditional deciding rest]
      else [x, nestedConditional deciding rest, .bool false])

section Nested

variable {run : Runner} {n m : Nat} {e : EnvRef} {s t u : Store} {x v : Value} {b deciding : Bool}
  {exprs rest : List Value}

/-- A conditional goes on as the junction does: with the operand's value if that decides, and else
with the conditionals behind it. -/
theorem run_nestedConditional_cons {next afterNext : Evaluator}
    (h : (next x e).run s = .ok (.bool b) u) :
    (step run next afterNext (nestedConditional deciding (x :: rest)) e).run s =
      (next (if b = deciding then .bool b else nestedConditional deciding rest) e).run u := by
  rw [nestedConditional, step_form]
  cases deciding with
  | true =>
    rw [if_pos rfl, run_cond_of_ok h]
    cases b <;> rfl
  | false =>
    rw [if_neg (by decide), run_cond_of_ok h]
    cases b <;> rfl

theorem exists_of_run_nestedConditional {next afterNext : Evaluator}
    (h : (step run next afterNext (nestedConditional deciding (x :: rest)) e).run s = .ok v t) :
    ∃ b u, (next x e).run s = .ok (.bool b) u := by
  rw [nestedConditional, step_form] at h
  cases deciding with
  | true => exact exists_of_run_cond h
  | false => exact exists_of_run_cond h

theorem run_nestedConditional_of_error {next afterNext : Evaluator} {y : Error}
    (h : (next x e).run s = .error y u) :
    (step run next afterNext (nestedConditional deciding (x :: rest)) e).run s = .error y u := by
  rw [nestedConditional, step_form]
  cases deciding with
  | true => exact run_cond_of_error h
  | false => exact run_cond_of_error h

/-- Where an expression has a value a level is left, so a truth value has one too. -/
theorem run_evalLimited_bool {limit : Error} (h : (evalLimited limit run n x e).run s = .ok v t)
    (b : Bool) (u : Store) : (evalLimited limit run n (.bool b) e).run u = .ok (.bool b) u := by
  cases n with
  | zero => cases h
  | succ n =>
    rw [evalLimited_succ, step_bool]
    rfl

/-- What the nested conditionals give, the junction gives too. The induction is on the operands;
each time the conditionals lose a level that the junction keeps. -/
theorem run_firstDeciding_of_nestedConditional (form : SpecialForm) (hle : n ≤ m + 1)
    (h : (evalWithin run n (nestedConditional deciding exprs) e).run s = .ok v t) :
    (firstDeciding (evalWithin run m) form deciding exprs e).run s = .ok v t := by
  induction exprs generalizing n s with
  | nil =>
    rw [← evalLimited_depthExceeded] at h
    rw [nestedConditional, run_evalLimited_bool h] at h
    exact h
  | cons x rest ih =>
    cases n with
    | zero => cases h
    | succ n =>
      rw [evalWithin_succ] at h
      obtain ⟨b, u, hx⟩ := exists_of_run_nestedConditional h
      have hx' : (evalWithin run m x e).run s = .ok (.bool b) u :=
        run_evalWithin_mono (by omega) hx
      rw [run_nestedConditional_cons hx] at h
      rw [run_firstDeciding_of_ok hx']
      by_cases hb : b = deciding
      · rw [if_pos hb] at h ⊢
        rw [← evalLimited_depthExceeded] at h hx
        rw [run_evalLimited_bool hx] at h
        exact h
      · rw [if_neg hb] at h ⊢
        exact ih (by omega) h

/-- What the junction gives, the nested conditionals give too, or the limit cuts them off. -/
theorem run_nestedConditional_of_firstDeciding {form : SpecialForm} (hle : n ≤ m + 1)
    (h : (firstDeciding (evalWithin run m) form deciding exprs e).run s = .ok v t)
    (limit : Error) :
    (∃ x u, (evalLimited limit run n (nestedConditional deciding exprs) e).run s = .error x u ∧
      limit.StemsFrom x) ∨
    (evalLimited limit run n (nestedConditional deciding exprs) e).run s = .ok v t := by
  induction exprs generalizing n s with
  | nil =>
    cases n with
    | zero => exact Or.inl ⟨limit, s, rfl, .refl limit⟩
    | succ n =>
      right
      rw [evalLimited_succ, nestedConditional, step_bool]
      exact h
  | cons x rest ih =>
    cases n with
    | zero => exact Or.inl ⟨limit, s, rfl, .refl limit⟩
    | succ n =>
      obtain ⟨b, u, hx⟩ := exists_of_run_firstDeciding h
      have hfollows := Depth.limited_evaluators run (show n ≤ m by omega) limit
        (.evaluation .depthExceeded []) e s x trivial trivial
      rw [evalLimited_depthExceeded] at hfollows
      rw [evalLimited_succ]
      rcases Depth.run_of_follows hfollows with ⟨y, w, hy, hstems⟩ | heq
      · exact Or.inl ⟨y, w, run_nestedConditional_of_error hy, hstems⟩
      · have hx' : (evalLimited limit run n x e).run s = .ok (.bool b) u := heq.symm.trans hx
        rw [run_firstDeciding_of_ok hx] at h
        rw [run_nestedConditional_cons hx']
        by_cases hb : b = deciding
        · rw [if_pos hb] at h ⊢
          rw [run_evalLimited_bool hx']
          exact Or.inr h
        · rw [if_neg hb] at h ⊢
          exact ih (by omega) h

end Nested

namespace Traced

section Operands

variable {eval : Evaluator} {e : EnvRef} {s t u : Store} {x v : Value} {xs vs : List Value}

theorem events_evalEach_cons (h : (eval x e s).outcome = .ok v u) (xs : List Value) :
    (evalEach eval (x :: xs) e s).events = (eval x e s).events ++ (evalEach eval xs e u).events := by
  rw [evalEach, bind_of_ok h]
  cases hr : (evalEach eval xs e u).outcome with
  | ok vs t =>
    rw [bind_of_ok hr]
    exact congrArg (_ ++ ·) (List.append_nil _)
  | error y t => rw [bind_of_error hr]

theorem outcome_evalEach_cons (h : (evalEach eval (x :: xs) e s).outcome = .ok vs t) :
    ∃ v ws u, (eval x e s).outcome = .ok v u ∧ (evalEach eval xs e u).outcome = .ok ws t ∧
      vs = v :: ws := by
  rw [evalEach] at h
  cases hx : (eval x e s).outcome with
  | error y u =>
    rw [bind_of_error hx] at h
    cases h
  | ok v u =>
    rw [bind_of_ok hx] at h
    cases hxs : (evalEach eval xs e u).outcome with
    | error y u =>
      rw [bind_of_error hxs] at h
      cases h
    | ok ws w =>
      rw [bind_of_ok hxs] at h
      cases h
      exact ⟨v, ws, u, rfl, hxs, rfl⟩

/-- The operands behind the first deciding one are never begun. -/
theorem firstDeciding_of_deciding {form : SpecialForm} {deciding : Bool} {before after : List Value}
    (hbefore : (evalEach eval before e s).outcome = .ok vs u)
    (hvs : ∀ v ∈ vs, v = .bool !deciding)
    (hx : (eval x e u).outcome = .ok (.bool deciding) t) :
    firstDeciding eval form deciding (before ++ x :: after) e s =
      ⟨(evalEach eval (before ++ [x]) e s).events, .ok (.bool deciding) t⟩ := by
  induction before generalizing s vs with
  | nil =>
    cases hbefore
    rw [List.nil_append, List.nil_append, events_evalEach_cons hx, firstDeciding, bind_of_ok hx]
    simp only [if_true]
    rfl
  | cons y before ih =>
    obtain ⟨w, ws, s', hy, hrest, rfl⟩ := outcome_evalEach_cons hbefore
    obtain rfl := hvs w List.mem_cons_self
    have hih := ih hrest fun v hv => hvs v (List.mem_cons_of_mem _ hv)
    have hne : (!deciding) ≠ deciding := by cases deciding <;> decide
    rw [List.cons_append, List.cons_append, events_evalEach_cons hy, firstDeciding, bind_of_ok hy]
    simp only [if_neg hne, hih]

end Operands

theorem evalAt_form {host : Host} {depth : Nat} (h : depth < maxDepth) (form : SpecialForm)
    (args : List Value) (e : EnvRef) (s : Store) :
    evalAt host depth (.op (.form form) args) e s =
      ⟨⟨s, .evaluate (maxDepth - depth) (.op (.form form) args) e⟩ ::
          (runForm (evalAt host (depth + 1)) form args e s).events,
        (runForm (evalAt host (depth + 1)) form args e s).outcome⟩ := by
  obtain ⟨levels, hlevels⟩ : ∃ n, maxDepth - depth = n + 1 := ⟨maxDepth - depth - 1, by omega⟩
  have hbelow : maxDepth - (depth + 1) = levels := by omega
  simp only [evalAt, hlevels, hbelow]
  cases levels with
  | zero => exact begin_bind (by omega) _ e _ s
  | succ levels => exact begin_bind (by omega) _ e _ s

theorem runForm_junction (eval : Evaluator) (deciding : Bool) (args : List Value) (e : EnvRef) :
    runForm eval (junction deciding) args e =
      runJunction eval (junction deciding) deciding args e := by
  cases deciding <;> rfl

end Traced

section Junction

variable {deciding : Bool} {host : Host} {depth : Nat} {e : EnvRef} {s t u : Store}
  {exprs before after vs : List Value} {x v : Value}

theorem evalAt_form (h : depth < maxDepth) (form : SpecialForm) (args : List Value) (e : EnvRef) :
    evalAt host depth (.op (.form form) args) e =
      form.run (evalAt host (depth + 1)) args e := by
  rw [evalAt_of_lt h, step_form]

/-- Where something is evaluated with success the limit has not been reached. -/
theorem lt_maxDepth_of_run (h : (evalAt host depth x e).run s = .ok v t) : depth < maxDepth := by
  by_cases hdepth : depth < maxDepth
  · exact hdepth
  · have hlevels : maxDepth - depth = 0 := by omega
    rw [evalAt, hlevels] at h
    cases h

theorem run_junction_of_nestedConditional (hne : exprs ≠ [])
    (hplain : ∀ x ∈ exprs, isPlainlyNotBoolean x = false)
    (h : (evalAt host depth (nestedConditional deciding exprs) e).run s = .ok v t) :
    (evalAt host depth (.op (.form (junction deciding)) exprs) e).run s = .ok v t := by
  rw [evalAt_form (lt_maxDepth_of_run h), run_junction_of_no_plain hne hplain]
  exact run_firstDeciding_of_nestedConditional _ (by omega) h

theorem run_nestedConditional_of_junction (hne : exprs ≠ [])
    (hplain : ∀ x ∈ exprs, isPlainlyNotBoolean x = false)
    (h : (evalAt host depth (.op (.form (junction deciding)) exprs) e).run s = .ok v t)
    (hcut : NeverCut host depth (nestedConditional deciding exprs) e s) :
    (evalAt host depth (nestedConditional deciding exprs) e).run s = .ok v t := by
  rw [evalAt_form (lt_maxDepth_of_run h), run_junction_of_no_plain hne hplain] at h
  exact hcut.run_eq_of_limits (run_nestedConditional_of_firstDeciding (by omega) h)

theorem traced_junction_of_deciding (hplain : ∀ y ∈ before ++ x :: after,
      isPlainlyNotBoolean y = false)
    (hbefore : (evalEach (evalAt host (depth + 1)) before e).run s = .ok vs u)
    (hvs : ∀ v ∈ vs, v = .bool !deciding)
    (hx : (evalAt host (depth + 1) x e).run u = .ok (.bool deciding) t) :
    Traced.evalAt host depth (.op (.form (junction deciding)) (before ++ x :: after)) e s =
      ⟨⟨s, .evaluate (maxDepth - depth)
            (.op (.form (junction deciding)) (before ++ x :: after)) e⟩ ::
          (Traced.evalEach (Traced.evalAt host (depth + 1)) (before ++ [x]) e s).events,
        .ok (.bool deciding) t⟩ := by
  have hdepth : depth < maxDepth := by have := lt_maxDepth_of_run hx; omega
  have hrecords := Traced.records_evalAt host (depth + 1)
  rw [← (Traced.records_evalEach hrecords before e).outcome] at hbefore
  rw [← (hrecords x e).outcome] at hx
  have hany : (before ++ x :: after).any isPlainlyNotBoolean = false :=
    List.any_eq_false.2 fun y hy => by simp [hplain y hy]
  have hempty : (before ++ x :: after).isEmpty = false := by simp
  rw [Traced.evalAt_form hdepth, Traced.runForm_junction, Traced.runJunction, hempty, hany]
  simp only [Bool.false_eq_true, if_false, Traced.firstDeciding_of_deciding hbefore hvs hx]

theorem traced_junction_of_plain (hplain : ∃ x ∈ exprs, isPlainlyNotBoolean x = true)
    (hdepth : depth < maxDepth) (e : EnvRef) (s : Store) :
    Traced.evalAt host depth (.op (.form (junction deciding)) exprs) e s =
      ⟨[⟨s, .evaluate (maxDepth - depth) (.op (.form (junction deciding)) exprs) e⟩,
          ⟨s, .check (.error (.type (.operandNotBoolean (junction deciding)) []))⟩],
        .error (.type (.operandNotBoolean (junction deciding)) []) s⟩ := by
  obtain ⟨x, hx, hnot⟩ := hplain
  have hany : exprs.any isPlainlyNotBoolean = true := List.any_eq_true.2 ⟨x, hx, hnot⟩
  have hempty : exprs.isEmpty = false := by
    rw [List.isEmpty_eq_false_iff]
    exact List.ne_nil_of_mem hx
  rw [Traced.evalAt_form hdepth, Traced.runForm_junction, Traced.runJunction, hempty, hany]
  rfl

end Junction

/-- A junction and the nested conditionals of its operands agree, unless an operand is plainly no
truth value: it succeeds where they do, and they succeed where it does and the depth check does not
fire in them, with one value and one final store. Of its operands, those up to the first deciding
one are evaluated and no others. An operand that is plainly no truth value is refused, wherever it
stands, before anything is evaluated or changed. -/
theorem junction_agrees_with_nested_conditionals (deciding : Bool) (host : Host) (depth : Nat)
    (e : EnvRef) (s : Store) {exprs : List Value} (hne : exprs ≠ []) :
    ((∀ x ∈ exprs, isPlainlyNotBoolean x = false) →
      (∀ v t, (evalAt host depth (nestedConditional deciding exprs) e).run s = .ok v t →
        (evalAt host depth (.op (.form (junction deciding)) exprs) e).run s = .ok v t) ∧
      (∀ v t, (evalAt host depth (.op (.form (junction deciding)) exprs) e).run s = .ok v t →
        NeverCut host depth (nestedConditional deciding exprs) e s →
        (evalAt host depth (nestedConditional deciding exprs) e).run s = .ok v t) ∧
      ∀ before x after vs u t, exprs = before ++ x :: after →
        (evalEach (evalAt host (depth + 1)) before e).run s = .ok vs u →
        (∀ v ∈ vs, v = .bool !deciding) →
        (evalAt host (depth + 1) x e).run u = .ok (.bool deciding) t →
        Traced.evalAt host depth (.op (.form (junction deciding)) exprs) e s =
          ⟨⟨s, .evaluate (maxDepth - depth) (.op (.form (junction deciding)) exprs) e⟩ ::
              (Traced.evalEach (Traced.evalAt host (depth + 1)) (before ++ [x]) e s).events,
            .ok (.bool deciding) t⟩) ∧
    ((∃ x ∈ exprs, isPlainlyNotBoolean x = true) →
      (∀ eval : Evaluator, ((junction deciding).run eval exprs e).run s =
        .error (.type (.operandNotBoolean (junction deciding)) []) s) ∧
      (depth < maxDepth →
        Traced.evalAt host depth (.op (.form (junction deciding)) exprs) e s =
          ⟨[⟨s, .evaluate (maxDepth - depth) (.op (.form (junction deciding)) exprs) e⟩,
              ⟨s, .check (.error (.type (.operandNotBoolean (junction deciding)) []))⟩],
            .error (.type (.operandNotBoolean (junction deciding)) []) s⟩)) := by
  refine ⟨fun hplain => ⟨?_, ?_, ?_⟩, fun hplain => ⟨?_, ?_⟩⟩
  · intro v t h
    exact run_junction_of_nestedConditional hne hplain h
  · intro v t h hcut
    exact run_nestedConditional_of_junction hne hplain h hcut
  · intro before x after vs u t hexprs hbefore hvs hx
    subst hexprs
    exact traced_junction_of_deciding hplain hbefore hvs hx
  · intro eval
    exact run_junction_of_plain hplain eval e s
  · intro hdepth
    exact traced_junction_of_plain hplain hdepth e s

/-- The third operand is not a truth value, but the second decides. -/
theorem junction_agrees_with_nested_conditionals_of_three :
    (evalAt (fun _ _ => .ok .unspecified) 61
      (nestedConditional false [.bool true, .bool false, .list []]) 0).run {} =
        .ok (.bool false) {} ∧
    (evalAt (fun _ _ => .ok .unspecified) 61
      (.op (.form .conj) [.bool true, .bool false, .list []]) 0).run {} =
        .ok (.bool false) {} := by
  have hnested : (evalAt (fun _ _ => .ok .unspecified) 61
      (nestedConditional false [.bool true, .bool false, .list []]) 0).run {} =
        .ok (.bool false) {} := rfl
  refine ⟨hnested, ?_⟩
  have h := junction_agrees_with_nested_conditionals false (fun _ _ => .ok .unspecified) 61 0 {}
    (show [Value.bool true, .bool false, .list []] ≠ [] by simp)
  exact (h.1 (by simp [isPlainlyNotBoolean])).1 _ _ hnested

end LexicalLisp
