import LexicalLisp.Proofs.Acyclicity
import LexicalLisp.Proofs.Erasure
import LexicalLisp.Proofs.OperatorApplication

/-!
# Functions of the host

Registering a function of the host under a name replaces what the root bound the name to, and
from then on applying the name should run that function. A plain list does, for it applies
whatever its head stands for. An operator application looks at the name of the builtin that it
finds and at nothing else: if that is the name of its own primitive, then the primitive is run.
So a function that is registered under the name of a primitive is run by every application
exactly if it gives what the primitive gives.
-/
namespace LexicalLisp

/-- The value that the action returns, or the kind of the error that it fails with. -/
def Action.outcome {α : Type} (a : Action α) (s : Store) : Except ErrorKind α :=
  match a.run s with
  | .ok v _ => .ok v
  | .error x _ => .error x.kind

/-- Wherever the name `a` stands for the function that the host registered under `n`, an
application of `a` to arguments that have values gives what the function gives on these values.
The application is the one that is read from the text of the list. -/
def Host.AnswersTo (host : Host) (n f a : String) : Prop :=
  ∀ (s u : Store) (e : EnvRef) (depth : Nat) (args vs : List Value),
    s.lookup? a e = some (.builtin n (.host f)) → depth + 1 < maxDepth →
    (evalEach (evalAt host (depth + 2)) args e).run s = .ok vs u →
    (evalAt host depth (Source.applicationOf .code (.symbol ⟨a, .any⟩ :: args)) e).outcome s =
      (host f vs).mapError Error.kind

namespace Action

variable {α β : Type} {a : Action α} {s t : Store}

@[simp] theorem outcome_ofExcept (x : Except Error α) (s : Store) :
    (ofExcept x).outcome s = x.mapError Error.kind := by
  cases x <;> rfl

theorem outcome_congr {b : Action α} (h : a.run s = b.run t) : a.outcome s = b.outcome t := by
  simp only [outcome, h]

@[simp] theorem outcome_noting (line : Note) (a : Action α) (s : Store) :
    (noting line a).outcome s = a.outcome s := by
  cases ha : a.run s with
  | ok v t => simp only [outcome, run_noting_ok ha, ha]
  | error x t => simp only [outcome, run_noting_error ha, ha, Error.kind_note]

theorem outcome_bind_of_ok {f : α → Action β} {x : α} (h : a.run s = .ok x t) :
    (a >>= f).outcome s = (f x).outcome t :=
  outcome_congr (run_bind_of_ok h)

end Action

section Application

variable {run : Runner} {e : EnvRef} {s u : Store} {n id : String} {code : Code} {p : Primitive}
  {args vs : List Value} {levels : Nat}

/-- A list whose head stands for a builtin runs the code of the builtin. -/
theorem outcome_list_of_builtin (k : Kind) (h : s.lookup? n e = some (.builtin id code))
    (hvs : (evalEach (evalWithin run levels) args e).run s = .ok vs u) :
    (evalWithin run (levels + 2) (.list (.symbol ⟨n, k⟩ :: args)) e).outcome s =
      (run code vs).mapError Error.kind := by
  rw [Action.outcome_congr (run_evalWithin_list levels h), Action.outcome_noting,
    Action.outcome_bind_of_ok hvs]
  exact Action.outcome_ofExcept _ u

/-- So does an operator application whose primitive has another name than the builtin. -/
theorem outcome_op_of_other (h : s.lookup? p.name e = some (.builtin id code))
    (hid : id ≠ p.name) (hvs : (evalEach (evalWithin run levels) args e).run s = .ok vs u) :
    (evalWithin run (levels + 2) (.op (.primitive p) args) e).outcome s =
      (run code vs).mapError Error.kind := by
  have hshadow : (Value.builtin id code).isBuiltin p.name = false := by
    simp [Value.isBuiltin, hid]
  rw [Action.outcome_congr (run_evalWithin_op_of_shadowed levels h hshadow),
    Action.outcome_bind_of_ok hvs, Action.outcome_noting]
  exact Action.outcome_ofExcept _ u

/-- One whose primitive has the name of the builtin runs the primitive, whatever the code is. -/
theorem outcome_op_of_same {host : Host} (h : s.lookup? p.name e = some (.builtin p.name code))
    (hvs : (evalEach (evalWithin (Code.run host) levels) args e).run s = .ok vs u) :
    (evalWithin (Code.run host) (levels + 2) (.op (.primitive p) args) e).outcome s =
      (p.run vs).mapError Error.kind := by
  have hown : (Value.builtin p.name code).isBuiltin p.name = true := by simp [Value.isBuiltin]
  rw [Action.outcome_congr (run_evalWithin_op (levels + 1) h hown), evalPrimitive]
  cases hcount : p.arity.refusal? args.length with
  | none =>
    -- the arguments of a primitive have a level more than those of a list
    rw [Action.outcome_bind_of_ok (run_evalEach_mono (Nat.le_succ levels) hvs)]
    exact Action.outcome_ofExcept _ u
  | some expected =>
    rw [← length_of_evalEach hvs] at hcount
    rw [Primitive.run_of_refused hcount]
    rfl

theorem run_evalEach_quoted (run : Runner) (levels : Nat) (vs : List Value) (e : EnvRef)
    (s : Store) :
    (evalEach (evalWithin run (levels + 1)) (vs.map fun v => .op (.form .quote) [v]) e).run s =
      .ok vs s := by
  induction vs with
  | nil => rfl
  | cons v vs ih =>
    have hhead : (evalWithin run (levels + 1) (.op (.form .quote) [v]) e).run s = .ok v s := by
      rw [evalWithin_succ]
      rfl
    rw [List.map_cons, evalEach, Action.run_bind_of_ok hhead, Action.run_bind_of_ok ih]
    rfl

end Application

section Registration

variable (host : Host) (n f : String)

/-- It is enough to know what is run when the arguments have two levels less than the
application. -/
theorem Host.answersTo_of_levels {a : String}
    (h : ∀ (s u : Store) (e : EnvRef) (levels : Nat) (args vs : List Value),
      s.lookup? a e = some (.builtin n (.host f)) →
      (evalEach (evalWithin (Code.run host) levels) args e).run s = .ok vs u →
      (evalWithin (Code.run host) (levels + 2)
          (Source.applicationOf .code (.symbol ⟨a, .any⟩ :: args)) e).outcome s =
        (host f vs).mapError Error.kind) : host.AnswersTo n f a := by
  intro s u e depth args vs hlookup hdepth hvs
  obtain ⟨levels, hlevels⟩ : ∃ levels, maxDepth - depth = levels + 2 :=
    ⟨maxDepth - depth - 2, by omega⟩
  have hinner : maxDepth - (depth + 2) = levels := by omega
  rw [evalAt, hinner] at hvs
  rw [evalAt, hlevels]
  exact h s u e levels args vs hlookup hvs

/-- By a name that is not the primitive's own, the function is reached in every case. -/
theorem Host.answersTo_of_other {a : String} (ha : ∀ form : SpecialForm, form.name ≠ a)
    (hother : ∀ p : Primitive, p.name = a → n ≠ a) : host.AnswersTo n f a := by
  refine host.answersTo_of_levels n f fun s u e levels args vs h hvs => ?_
  rw [Source.applicationOf]
  cases ho : Operator.ofName? a with
  | none => exact outcome_list_of_builtin .any h hvs
  | some o =>
    cases o with
    | form form => exact absurd (Operator.name_of_ofName? ho) (ha form)
    | primitive p =>
      have hname : p.name = a := Operator.name_of_ofName? ho
      subst hname
      exact outcome_op_of_other h (hother p rfl) hvs

/-- By the name of a primitive, the primitive itself is reached. -/
theorem Host.answersTo_name_iff (p : Primitive) :
    host.AnswersTo p.name f p.name ↔
      ∀ vs, (host f vs).mapError Error.kind = (p.run vs).mapError Error.kind := by
  have hread : ∀ args, Source.applicationOf .code (.symbol ⟨p.name, .any⟩ :: args) =
      .op (.primitive p) args := by
    intro args
    have ho : Operator.ofName? p.name = some (.primitive p) := Operator.ofName?_name (.primitive p)
    simp [Source.applicationOf, ho, Source.restoreNames]
  constructor
  · intro h vs
    let binding : Binding := .slot ⟨.fn, .builtin p.name (.host f)⟩
    let s : Store := { environments := #[⟨Frame.put {} p.name binding, .root⟩] }
    have hlookup : s.lookup? p.name 0 = some (.builtin p.name (.host f)) := by
      simp [s, Store.lookup?, Store.owner?, Store.ownerWithin, Store.local?, Store.frame,
        Frame.binds, Frame.get?_put, binding, Binding.value]
    have hvs := run_evalEach_quoted (Code.run host) 61 vs 0 s
    have hprimitive := outcome_op_of_same hlookup hvs
    rw [← hread] at hprimitive
    exact (h s s 0 0 _ vs hlookup (by decide) hvs).symm.trans hprimitive
  · intro hsame
    refine host.answersTo_of_levels p.name f fun s u e levels args vs h hvs => ?_
    rw [hread, hsame vs]
    exact outcome_op_of_same h hvs

/-- A registration binds the name in the root and nothing else, wherever the search for the name
ends in the root it gives the function of the host. Every application of a name that stands for
the function runs it exactly if no primitive has the name that it is registered under, or the one
that has gives the same values and errors of the same kinds. -/
theorem registered_function_is_run_iff (hn : ∀ form : SpecialForm, form.name ≠ n) :
    (∀ (s : Store) (root : EnvRef), root < s.environments.size →
      ∃ t, (root.register n (.host f)).run s = .ok () t ∧
        (∀ e, t.Resolves n e (some root) → t.lookup? n e = some (.builtin n (.host f))) ∧
        ∀ d m, ¬ (d = root ∧ m = n) → (t.frame d).get? m = (s.frame d).get? m) ∧
    ((∀ a, (∀ form : SpecialForm, form.name ≠ a) → host.AnswersTo n f a) ↔
      ∀ p : Primitive, p.name = n →
        ∀ vs, (host f vs).mapError Error.kind = (p.run vs).mapError Error.kind) := by
  refine ⟨fun s root hroot => ?_, fun h p hp => ?_, fun hsame a ha => ?_⟩
  · refine ⟨_, EnvRef.run_register root n (.host f) s, fun e he => ?_, fun d m hdm => ?_⟩
    · rw [Store.lookup?, he.owner?_eq]
      simp [Store.local?, Store.get?_frame_bind, hroot, Binding.value]
    · rw [Store.get?_frame_bind, if_neg]
      rintro ⟨-, rfl, rfl⟩
      exact hdm ⟨rfl, rfl⟩
  · subst hp
    exact (host.answersTo_name_iff f p).1 (h p.name hn)
  · by_cases hprimitive : ∃ p : Primitive, p.name = n ∧ n = a
    · obtain ⟨p, rfl, rfl⟩ := hprimitive
      exact (host.answersTo_name_iff f p).2 (hsame p rfl)
    · refine host.answersTo_of_other n f ha fun p hp hna => ?_
      exact hprimitive ⟨p, hp.trans hna.symm, hna⟩

end Registration

/-- A host with a function that adds numbers; every other one lists its arguments. -/
def Host.listing : Host
  | "sum", vs => Primitive.add.run vs
  | _, vs => .ok (.list vs)

theorem registered_function_is_run_of_listing :
    (∀ form : SpecialForm, form.name ≠ "echo") ∧ (∀ form : SpecialForm, form.name ≠ "+") ∧
    Host.listing.AnswersTo "echo" "echo" "echo" ∧ Host.listing.AnswersTo "+" "sum" "+" := by
  have hecho : ∀ form : SpecialForm, form.name ≠ "echo" := by
    intro form
    cases form <;> decide
  have hadd : ∀ form : SpecialForm, form.name ≠ "+" := by
    intro form
    cases form <;> decide
  refine ⟨hecho, hadd, ?_, ?_⟩
  · refine (registered_function_is_run_iff Host.listing "echo" "echo" hecho).2.2 ?_ "echo" hecho
    intro p hp
    cases p <;> simp [Primitive.name] at hp
  · refine (registered_function_is_run_iff Host.listing "+" "sum" hadd).2.2 ?_ "+" hadd
    intro p hp vs
    rw [Primitive.name_injective (q := .add) hp]
    rfl

/-- A function that lists its arguments takes the place of addition. By another name it is run;
by its own, addition is. -/
theorem replaced_addition_is_still_run :
    ∃ t root v, (do
        let root ← Environment.createGlobal
        root.register "+" (.host "echo")
        return root).run {} = .ok root t ∧
      t.lookup? "+" root = some (.builtin "+" (.host "echo")) ∧
      Source.readExpression "(+ 1 2)" = .ok v ∧
      (eval Host.listing v root).outcome t = .ok (.number 3) ∧
      Host.listing "echo" [.number 1, .number 2] = .ok (.list [.number 1, .number 2]) ∧
      ¬ Host.listing.AnswersTo "+" "echo" "+" := by
  have hread : Source.readExpression "(+ 1 2)" =
      .ok (.op (.primitive .add) [.number 1, .number 2]) := by cbv
  refine ⟨_, _, _, rfl, rfl, hread, rfl, rfl, fun h => ?_⟩
  have hempty := (Host.listing.answersTo_name_iff "echo" .add).1 h []
  cases hempty

end LexicalLisp
