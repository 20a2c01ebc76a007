import LexicalLisp.Proofs.Registration
import LexicalLisp.Proofs.TracedInvariant

/-!
# Argument counts of primitives

How many arguments a primitive takes is laid down twice. Its arity is checked where the primitive is
applied under its own name, before any argument is evaluated. The primitive itself checks the values
that it is given, each in a way of its own, and where it was reached as a value no other check is
made. The two agree on every list of values, so a primitive takes the same numbers of arguments
wherever it is applied, and a wrong number is reported before a wrong type.
-/
namespace LexicalLisp

theorem Arity.eq_of_admitted {n k : Nat} (h : (Arity.exactly n).refusal? k = none) : k = n := by
  by_contra hne
  simp [refusal?, hne] at h

namespace Action

variable {α : Type} {x : Except Error α} {s t : Store}

theorem run_ofExcept_eq_error_iff {y : Error} :
    (ofExcept x).run s = .error y t ↔ x = .error y ∧ t = s := by
  cases x with
  | ok v => simp
  | error z => simp [eq_comm]

/-- An error about a number of arguments takes no line of a trail. -/
theorem run_noting_ofExcept_eq_arity_iff {n given : Nat} {expr? : Option Value} (line : Note) :
    (noting line (ofExcept x)).run s = .error (.arity n given expr?) t ↔
      x = .error (.arity n given expr?) ∧ t = s := by
  cases x with
  | ok v =>
    rw [run_noting_ok (run_ofExcept_ok v s)]
    simp
  | error y =>
    rw [run_noting_error (run_ofExcept_error y s)]
    cases y <;> simp [Error.note, eq_comm]

end Action

namespace Primitive

/-! ### The primitive's own check -/

/-- The computation may fail, but not for a number of arguments. -/
abbrev TakesCount {α : Type} (x : Except Error α) : Prop := FailsOnlyWith (·.kind ≠ .arity) x

theorem numbers_takesCount (p : Primitive) (vs : List Value) : TakesCount (numbers p vs) := by
  induction vs with
  | nil => exact .ok []
  | cons v vs ih =>
    cases v with
    | number k => exact ih.map (k :: ·)
    | _ => exact .error (by rintro ⟨⟩)

theorem strings_takesCount (vs : List Value) : TakesCount (strings vs) := by
  induction vs with
  | nil => exact .ok []
  | cons v vs ih =>
    cases v with
    | string a => exact ih.map (a :: ·)
    | _ => exact .error (by rintro ⟨⟩)

theorem exact_takesCount (operation : Operation) (k : Int) : TakesCount (exact operation k) := by
  unfold exact
  split
  · exact .ok _
  · exact .error (by rintro ⟨⟩)

theorem accumulate_takesCount (operation : Operation) (combine : Int → Int → Int) (k : Int64)
    (ks : List Int64) : TakesCount (accumulate operation combine k ks) := by
  induction ks generalizing k with
  | nil => exact .ok k
  | cons k' ks ih => exact (exact_takesCount operation _).bind fun j _ => ih j

/-- Of one argument or more there is a first number. -/
theorem numbers_ne_nil {p : Primitive} {vs : List Value}
    (h : (Arity.atLeast 1).refusal? vs.length = none) : numbers p vs ≠ .ok [] := by
  cases vs with
  | nil => cases h
  | cons v vs =>
    cases v with
    | number k =>
      rw [numbers]
      cases numbers p vs <;> rintro ⟨⟩
    | _ => rintro ⟨⟩

/-- A primitive that takes the number of arguments fails for another reason, if it does. -/
theorem run_takesCount {p : Primitive} {vs : List Value}
    (h : p.arity.refusal? vs.length = none) : TakesCount (p.run vs) := by
  cases p with
  | add =>
    exact (numbers_takesCount .add vs).bind fun ks _ =>
      (accumulate_takesCount .addition (· + ·) 0 ks).bind fun _ _ => FailsOnlyWith.ok _
  | sub =>
    refine (numbers_takesCount .sub vs).bind fun ks hks => ?_
    rcases ks with _ | ⟨k, _ | ⟨k', ks⟩⟩
    · exact absurd hks (numbers_ne_nil h)
    · exact (exact_takesCount .negation _).bind fun _ _ => FailsOnlyWith.ok _
    · exact (accumulate_takesCount .subtraction _ k _).bind fun _ _ => FailsOnlyWith.ok _
  | mul =>
    refine (numbers_takesCount .mul vs).bind fun ks hks => ?_
    cases ks with
    | nil => exact absurd hks (numbers_ne_nil h)
    | cons k ks =>
      exact (accumulate_takesCount .multiplication _ 1 _).bind fun _ _ => FailsOnlyWith.ok _
  | max | min =>
    refine (numbers_takesCount _ vs).bind fun ks hks => ?_
    cases ks with
    | nil => exact absurd hks (numbers_ne_nil h)
    | cons k ks => exact FailsOnlyWith.ok _
  | gt | ge | lt | le | numEq =>
    have hcount : ¬ vs.length < 2 := by simpa [arity, Arity.refusal?] using h
    simp only [run, compareAll, if_neg hcount]
    exact (numbers_takesCount _ vs).bind fun _ _ => FailsOnlyWith.ok _
  | list => exact FailsOnlyWith.ok _
  | stringAppend => exact (strings_takesCount vs).bind fun _ _ => FailsOnlyWith.ok _
  | error => exact FailsOnlyWith.error (by rintro ⟨⟩)
  | equal =>
    obtain ⟨v, w, rfl⟩ := List.length_eq_two.1 (Arity.eq_of_admitted h)
    simp only [run, runEqual]
    split
    · exact .ok _
    · exact .error (by rintro ⟨⟩)
  | cons =>
    obtain ⟨v, w, rfl⟩ := List.length_eq_two.1 (Arity.eq_of_admitted h)
    cases w with
    | list ws => exact FailsOnlyWith.ok _
    | _ => exact FailsOnlyWith.error (by rintro ⟨⟩)
  | isNull =>
    obtain ⟨v, rfl⟩ := List.length_eq_one_iff.1 (Arity.eq_of_admitted h)
    exact FailsOnlyWith.ok _
  | not =>
    obtain ⟨v, rfl⟩ := List.length_eq_one_iff.1 (Arity.eq_of_admitted h)
    cases v with
    | bool b => exact FailsOnlyWith.ok _
    | _ => exact FailsOnlyWith.error (by rintro ⟨⟩)
  | car | cdr =>
    obtain ⟨v, rfl⟩ := List.length_eq_one_iff.1 (Arity.eq_of_admitted h)
    cases v with
    | list us =>
      cases us with
      | nil => exact FailsOnlyWith.error (by rintro ⟨⟩)
      | cons u us => exact FailsOnlyWith.ok _
    | _ => exact FailsOnlyWith.error (by rintro ⟨⟩)

theorem refused_of_run {p : Primitive} {vs : List Value} {n m : Nat} {expr? : Option Value}
    (h : p.run vs = .error (.arity n m expr?)) :
    p.arity.refusal? vs.length = some n ∧ m = vs.length := by
  cases hrefusal : p.arity.refusal? vs.length with
  | none => exact absurd rfl (run_takesCount hrefusal _ h)
  | some k =>
    rw [run_of_refused hrefusal] at h
    cases h
    exact ⟨rfl, rfl⟩

/-- The primitive refuses the number of its arguments exactly if its arity does. -/
theorem run_eq_arity_iff {p : Primitive} {vs : List Value} {n m : Nat} {expr? : Option Value} :
    p.run vs = .error (.arity n m expr?) ↔
      p.arity.refusal? vs.length = some n ∧ m = vs.length ∧ expr? = none := by
  constructor
  · intro h
    obtain ⟨hrefused, rfl⟩ := refused_of_run h
    rw [run_of_refused hrefused] at h
    cases h
    exact ⟨hrefused, rfl, rfl⟩
  · rintro ⟨hrefused, rfl, rfl⟩
    exact run_of_refused hrefused

/-! ### Applications -/

/-- Where an application finds the primitive. -/
inductive Position where
  /-- Under its own name, which nothing shadows. -/
  | operator
  /-- Under whatever stands for it as a value. -/
  | value

/-- The expression applies the primitive to arguments that have the values `vs`, the last of them
in the store `u`. As a value the primitive is what the head of a list gives, or what shadows
another operator. -/
inductive Applied (host : Host) (p : Primitive) (depth : Nat) (e : EnvRef) (s u : Store)
    (args vs : List Value) : Position → Value → Prop
  | operator (hdepth : depth < maxDepth) (hs : s.shadowing? p e = none)
    (hvs : (evalEach (evalAt host (depth + 1)) args e).run s = .ok vs u) :
    Applied host p depth e s u args vs .operator (.op (.primitive p) args)
  | head {id : String} {head : Value} {t : Store}
    (hhead : (evalAt host (depth + 1) head e).run s = .ok (.builtin id (.primitive p)) t)
    (hvs : (evalEach (evalAt host (depth + 2)) args e).run t = .ok vs u) :
    Applied host p depth e s u args vs .value (.list (head :: args))
  | shadow {id : String} {q : Primitive} (hdepth : depth < maxDepth)
    (hs : s.shadowing? q e = some (.builtin id (.primitive p)))
    (hvs : (evalEach (evalAt host (depth + 2)) args e).run s = .ok vs u) :
    Applied host p depth e s u args vs .value (.op (.primitive q) args)

/-- No application at such a position to so many arguments fails for their number. -/
def Accepts (host : Host) (p : Primitive) (position : Position) (count : Nat) : Prop :=
  ∀ depth e s u args vs expr, p.Applied host depth e s u args vs position expr →
    args.length = count →
      ∀ n given expr? t, (evalAt host depth expr e).run s ≠ .error (.arity n given expr?) t

section Application

variable {host : Host} {p : Primitive} {depth : Nat} {e : EnvRef} {s t u : Store}
  {args vs : List Value} {position : Position} {expr : Value} {n given : Nat}
  {expr? : Option Value}

theorem Applied.length_eq (h : p.Applied host depth e s u args vs position expr) :
    vs.length = args.length := by
  cases h with
  | operator _ _ hvs => exact length_of_evalEach hvs
  | head _ hvs => exact length_of_evalEach hvs
  | shadow _ _ hvs => exact length_of_evalEach hvs

/-! In operator position the arity is asked, before anything else is done. -/

theorem run_operator (hdepth : depth < maxDepth) (hs : s.shadowing? p e = none)
    (args : List Value) :
    (evalAt host depth (.op (.primitive p) args) e).run s =
      (evalPrimitive (Code.run host) (evalAt host (depth + 1)) p args e).run s := by
  rw [evalAt_of_lt hdepth]
  simp [step, hs]

theorem run_operator_of_refused (hdepth : depth < maxDepth) (hs : s.shadowing? p e = none)
    (hn : p.arity.refusal? args.length = some n) :
    (evalAt host depth (.op (.primitive p) args) e).run s =
      .error (.arity n args.length (some (.op (.primitive p) args))) s := by
  rw [run_operator hdepth hs, evalPrimitive, hn]
  rfl

theorem run_operator_of_admitted (hdepth : depth < maxDepth) (hs : s.shadowing? p e = none)
    (hvs : (evalEach (evalAt host (depth + 1)) args e).run s = .ok vs u)
    (hn : p.arity.refusal? args.length = none) :
    (evalAt host depth (.op (.primitive p) args) e).run s =
      (Action.ofExcept (p.run vs)).run u := by
  rw [run_operator hdepth hs, evalPrimitive, hn]
  exact Action.run_bind_of_ok hvs

theorem Applied.run_operator_eq_arity_iff
    (h : p.Applied host depth e s u args vs .operator expr) :
    (evalAt host depth expr e).run s = .error (.arity n given expr?) t ↔
      p.arity.refusal? args.length = some n ∧ given = args.length ∧ expr? = some expr ∧ t = s := by
  have hlength := h.length_eq
  cases h with
  | operator hdepth hs hvs =>
    cases hrefusal : p.arity.refusal? args.length with
    | some k =>
      rw [run_operator_of_refused hdepth hs hrefusal]
      constructor
      · rintro ⟨⟩
        exact ⟨rfl, rfl, rfl, rfl⟩
      · rintro ⟨⟨⟩, rfl, rfl, rfl⟩
        rfl
    | none =>
      rw [run_operator_of_admitted hdepth hs hvs hrefusal, Action.run_ofExcept_eq_error_iff,
        run_eq_arity_iff, hlength, hrefusal]
      simp

/-! As a value the primitive is run on what the arguments are, whatever their number. -/

theorem Applied.run_value (h : p.Applied host depth e s u args vs .value expr) :
    (evalAt host depth expr e).run s =
      (Action.noting (.evaluating expr) (Action.ofExcept (p.run vs))).run u := by
  cases h with
  | head hhead hvs =>
    have hlevel : 1 ≤ maxDepth - (depth + 1) := one_le_of_run hhead
    rw [evalAt_of_lt (by omega), step_list]
    refine Action.run_noting_congr _ ?_
    rw [evalList, Action.run_bind_of_ok hhead, Action.run_bind_of_ok hvs]
    rfl
  | @shadow id q hdepth hs hvs =>
    have hstep : (evalAt host depth (.op (.primitive q) args) e).run s =
        (do
          let vs ← evalEach (evalAt host (depth + 2)) args e
          Action.noting (.evaluating (.op (.primitive q) args)) (apply (Code.run host)
            (evalAt host (depth + 2)) (.builtin id (.primitive p)) vs)).run s := by
      rw [evalAt_of_lt hdepth]
      simp [step, hs]
    rw [hstep, Action.run_bind_of_ok hvs]
    rfl

theorem Applied.run_value_eq_arity_iff (h : p.Applied host depth e s u args vs .value expr) :
    (evalAt host depth expr e).run s = .error (.arity n given expr?) t ↔
      p.arity.refusal? args.length = some n ∧ given = args.length ∧ expr? = none ∧ t = u := by
  rw [h.run_value, Action.run_noting_ofExcept_eq_arity_iff, run_eq_arity_iff, h.length_eq]
  simp only [and_assoc]

/-! Both positions refuse the numbers that the arity refuses, so they accept the same ones. -/

theorem Applied.fails_for_count_iff (h : p.Applied host depth e s u args vs position expr) :
    (∃ given expr? t, (evalAt host depth expr e).run s = .error (.arity n given expr?) t) ↔
      p.arity.refusal? args.length = some n := by
  cases position with
  | operator => simp [h.run_operator_eq_arity_iff]
  | value => simp [h.run_value_eq_arity_iff]

/-- Whatever the values are, there is an application to them at every position. -/
theorem exists_applied (host : Host) (p : Primitive) (position : Position) (vs : List Value) :
    ∃ args expr, p.Applied host 0 0 {} {} args vs position expr := by
  have hvs : ∀ depth, depth < maxDepth →
      (evalEach (evalAt host depth) (vs.map fun v => .op (.form .quote) [v]) 0).run {} =
        .ok vs {} := by
    intro depth hdepth
    obtain ⟨levels, hlevels⟩ : ∃ n, maxDepth - depth = n + 1 := ⟨maxDepth - depth - 1, by omega⟩
    rw [evalAt, hlevels]
    exact run_evalEach_quoted (Code.run host) levels vs 0 {}
  cases position with
  | operator => exact ⟨_, _, .operator (by decide) rfl (hvs 1 (by decide))⟩
  | value =>
    -- a builtin stands for itself, so it can be the head of a list
    have hhead : (evalAt host 1 (.builtin p.name (.primitive p)) 0).run {} =
        .ok (.builtin p.name (.primitive p)) {} := rfl
    exact ⟨_, _, .head hhead (hvs 2 (by decide))⟩

theorem accepts_iff {count : Nat} :
    p.Accepts host position count ↔ p.arity.admits count = true := by
  rw [Arity.admits, Option.isNone_iff_eq_none]
  constructor
  · intro haccepts
    obtain ⟨args, expr, h⟩ := exists_applied host p position (List.replicate count .unspecified)
    have hcount : args.length = count := by rw [← h.length_eq, List.length_replicate]
    refine Option.eq_none_iff_forall_ne_some.2 fun n hn => ?_
    rw [← hcount] at hn
    obtain ⟨given, expr?, t, hr⟩ := h.fails_for_count_iff.2 hn
    exact haccepts _ _ _ _ _ _ _ h hcount n given expr? t hr
  · intro hadmits depth e s u args vs expr h hcount n given expr? t hr
    have hn := h.fails_for_count_iff.1 ⟨given, expr?, t, hr⟩
    rw [hcount, hadmits] at hn
    cases hn

end Application

/-- A primitive refuses the number of its arguments exactly if its arity does, whatever the
arguments are, and says the same numbers. In operator position a wrong number is refused before any
argument is evaluated, and the error shows the application; as a value the primitive refuses it
after its arguments have been evaluated, of whatever type they are. Either way no application fails
for a number that the arity admits, so the primitive accepts the same numbers at both positions. -/
theorem counts_are_checked_alike (host : Host) (p : Primitive) :
    (∀ vs n given expr?, p.run vs = .error (.arity n given expr?) ↔
      p.arity.refusal? vs.length = some n ∧ given = vs.length ∧ expr? = none) ∧
    (∀ depth e s args n, depth < maxDepth → s.shadowing? p e = none →
      p.arity.refusal? args.length = some n →
        (evalAt host depth (.op (.primitive p) args) e).run s =
          .error (.arity n args.length (some (.op (.primitive p) args))) s) ∧
    (∀ depth e s u args vs expr, p.Applied host depth e s u args vs .operator expr →
      ∀ n given expr? t, (evalAt host depth expr e).run s = .error (.arity n given expr?) t ↔
        p.arity.refusal? args.length = some n ∧ given = args.length ∧ expr? = some expr ∧ t = s) ∧
    (∀ depth e s u args vs expr, p.Applied host depth e s u args vs .value expr →
      ∀ n given expr? t, (evalAt host depth expr e).run s = .error (.arity n given expr?) t ↔
        p.arity.refusal? args.length = some n ∧ given = args.length ∧ expr? = none ∧ t = u) ∧
    ∀ position count, p.Accepts host position count ↔ p.arity.admits count = true := by
  refine ⟨?_, ?_, ?_, ?_, fun _ _ => accepts_iff⟩
  · intro vs n given expr?
    exact run_eq_arity_iff
  · intro depth e s args n hdepth hs hn
    exact run_operator_of_refused hdepth hs hn
  · intro depth e s u args vs expr h n given expr? t
    exact h.run_operator_eq_arity_iff
  · intro depth e s u args vs expr h n given expr? t
    exact h.run_value_eq_arity_iff

/-- In a scope where `car` stands for `cdr` both names are applied to two arguments. Under its own
name `cdr` does not come to the name that nothing binds; as a value it is reached by the operator
and by the list, and does not mind that it is given no list. -/
theorem counts_are_checked_alike_of_misnamed :
    let host : Host := fun _ _ => .ok .unspecified
    let unbound : List Value := [.symbol ⟨"nowhere", .any⟩, .number 2]
    cdr.run [.number 1, .number 2] = .error (.arity 1 2 none) ∧
    (evalAt host 0 (.op (.primitive .cdr) unbound) 1).run Store.misnamed =
      .error (.arity 1 2 (some (.op (.primitive .cdr) unbound))) Store.misnamed ∧
    (evalAt host 0 (.op (.primitive .car) [.number 1, .number 2]) 1).run Store.misnamed =
      .error (.arity 1 2 none) Store.misnamed ∧
    (evalAt host 0 (.list [.symbol ⟨"car", .any⟩, .number 1, .number 2]) 1).run Store.misnamed =
      .error (.arity 1 2 none) Store.misnamed ∧
    cdr.Accepts host .value 1 ∧ ¬ cdr.Accepts host .operator 2 := by
  intro host unbound
  obtain ⟨hdirect, hrefused, -, hvalue, haccepts⟩ := counts_are_checked_alike host .cdr
  have hshadow : Store.misnamed.shadowing? .car 1 = some (.builtin "cdr" (.primitive .cdr)) := rfl
  have hhead : (evalAt host 1 (.symbol ⟨"car", .any⟩) 1).run Store.misnamed =
      .ok (.builtin "cdr" (.primitive .cdr)) Store.misnamed := rfl
  have hargs : (evalEach (evalAt host 2) [.number 1, .number 2] 1).run Store.misnamed =
      .ok [.number 1, .number 2] Store.misnamed := rfl
  refine ⟨(hdirect _ 1 2 none).2 ⟨rfl, rfl, rfl⟩, ?_, ?_, ?_, (haccepts .value 1).2 rfl, ?_⟩
  · exact hrefused 0 1 Store.misnamed unbound 1 (by decide) rfl rfl
  · exact (hvalue _ _ _ _ _ _ _ (.shadow (by decide) hshadow hargs) 1 2 none _).2
      ⟨rfl, rfl, rfl, rfl⟩
  · exact (hvalue _ _ _ _ _ _ _ (.head hhead hargs) 1 2 none _).2 ⟨rfl, rfl, rfl, rfl⟩
  · intro h
    cases (haccepts .operator 2).1 h

end Primitive
end LexicalLisp
