import LexicalLisp.Proofs.HostEffect
import LexicalLisp.Proofs.TracedEvaluation

/-!
# Atomic operations

The operations on slots, environments, functions and scopes check before they write. One that fails
leaves everything as it was, even where it works on what it reaches through a frame or along a
chain. So a host may go on after a refusal as if it had never asked.
-/
namespace LexicalLisp

section Atomic

variable {ε σ α : Type}

/-- The work fails on this state. -/
def Fails (a : EStateM ε σ α) (s : σ) : Prop := ∃ x t, a.run s = .error x t

/-- Where the work fails, it leaves the state as it was. -/
def Atomic (a : EStateM ε σ α) : Prop := ∀ s x t, a.run s = .error x t → t = s

theorem Fails.of_error {a : EStateM ε σ α} {s t : σ} {x : ε} (h : a.run s = .error x t) :
    Fails a s := ⟨x, t, h⟩

theorem not_fails_of_ok {a : EStateM ε σ α} {s t : σ} {v : α} (h : a.run s = .ok v t) :
    ¬ Fails a s := by
  rintro ⟨x, u, hx⟩
  rw [h] at hx
  cases hx

end Atomic

namespace Atomic

variable {α : Type} {a : Action α} {s : Store}

/-- A check does nothing to the store, so it may come first. -/
theorem ofExcept_bind {β : Type} {x : Except Error α} {f : α → Action β}
    (hf : ∀ v, x = .ok v → Atomic (f v)) : Atomic (Action.ofExcept x >>= f) := by
  intro s y t h
  cases x with
  | ok v => exact hf v rfl s y t h
  | error z =>
    cases h
    rfl

/-- Work that never fails. -/
theorem of_ok (h : ∀ s, ∃ v t, a.run s = .ok v t) : Atomic a := by
  intro s x t hx
  obtain ⟨v, u, hv⟩ := h s
  rw [hv] at hx
  cases hx

theorem after_of_fails (ha : Atomic a) (hs : Fails a s) : a.after s = s := by
  obtain ⟨x, t, h⟩ := hs
  rw [Action.after_of_error h]
  exact ha s x t h

end Atomic

namespace Slot

theorem atomic_replace (owner : Option String) (value : Value) : Atomic (replace owner value) := by
  intro slot x t h
  rw [run_replace] at h
  split at h <;> cases h
  rfl

end Slot

namespace EnvRef

variable {e : EnvRef} {name : String} {s : Store}

theorem atomic_define (e : EnvRef) (name : String) (slot : Slot) : Atomic (e.define name slot) := by
  intro s x t h
  exact (Traced.error_of_run_define h).1

theorem atomic_defun (e : EnvRef) (name : String) (o : Overload) : Atomic (e.defun name o) := by
  intro s x t h
  exact (Traced.error_of_run_defun h).1

/-- Work that leaves a slot as it was where it fails leaves the whole store so, too. -/
theorem atomic_onSlot (e : EnvRef) (name : String) {work : EStateM Error Slot Unit}
    (hwork : Atomic work) : Atomic (e.onSlot name work) := by
  intro s x t h
  cases hb : (s.frame e).get? name with
  | none =>
    rw [run_onSlot_none hb] at h
    cases h
    rfl
  | some b =>
    cases b with
    | function f =>
      rw [run_onSlot_function hb] at h
      cases h
      rfl
    | slot slot =>
      rw [run_onSlot_slot hb] at h
      cases hrun : work.run slot with
      | ok _ slot' =>
        rw [hrun] at h
        cases h
      | error y slot' =>
        have hslot : slot' = slot := hwork slot y slot' hrun
        rw [hrun, hslot] at h
        cases h
        exact Store.bind_of_get? hb

theorem atomic_assign (e : EnvRef) (name : String) (v : Value) : Atomic (e.assign name v) := by
  intro s x t h
  cases ho : s.owner? name e with
  | none =>
    rw [run_assign_none ho] at h
    cases h
    rfl
  | some o =>
    rw [run_assign_some ho] at h
    exact atomic_onSlot o name (Slot.atomic_replace (some name) v) s x t h

/-- Declaring a variable fails exactly if its name is taken. -/
theorem fails_define_iff {slot : Slot} :
    Fails (e.define name slot) s ↔ (s.frame e).binds name = true := by
  have hrun := run_define e name slot s
  by_cases h : (s.frame e).binds name = true
  · rw [if_pos h] at hrun
    simp [Fails.of_error hrun, h]
  · rw [if_neg h] at hrun
    simp [not_fails_of_ok hrun, h]

end EnvRef

namespace FunctionRef

variable {f : FunctionRef} {o : Overload} {s : Store}

theorem atomic_overload (f : FunctionRef) (o : Overload) : Atomic (f.overload o) := by
  intro s x t h
  exact (Traced.error_of_run_overload h).1

theorem fails_overload_iff : Fails (f.overload o) s ↔ o.arity ∈ s.arities f := by
  have hrun := run_overload f o s
  by_cases h : o.arity ∈ s.arities f
  · rw [if_pos h] at hrun
    simp [Fails.of_error hrun, h]
  · rw [if_neg h] at hrun
    simp [not_fails_of_ok hrun, h]

end FunctionRef

namespace EnvRef

variable {e : EnvRef} {name : String} {o : Overload} {s : Store}

/-- Defining a function fails exactly if its name is a variable's, or the function of that name
takes so many arguments already. -/
theorem fails_defun_iff :
    Fails (e.defun name o) s ↔
      (∃ slot, (s.frame e).get? name = some (.slot slot)) ∨
        ∃ f, (s.frame e).get? name = some (.function f) ∧ o.arity ∈ s.arities f := by
  cases hb : (s.frame e).get? name with
  | none =>
    have hok := run_defun_new hb o
    simp [not_fails_of_ok hok]
  | some b =>
    cases b with
    | slot slot =>
      have herror := run_defun_slot hb o
      simp [Fails.of_error herror]
    | function f =>
      have hrun := run_defun_function hb o
      have hfails : Fails (e.defun name o) s ↔ Fails (f.overload o) s := by simp only [Fails, hrun]
      rw [hfails, FunctionRef.fails_overload_iff]
      simp

/-- Entering an active scope is refused before anything is done. -/
theorem run_enter_of_isActive (host : Host) {scope : EnvRef} (parent : EnvRef)
    (h : s.isActive scope = true) :
    (scope.enter host parent).run s = .error (.evaluation .alreadyActive []) s := by
  obtain ⟨p, hp⟩ := Option.isSome_iff_exists.1 h
  rw [enter, EStateM.run_bind, run_activate_active hp]

end EnvRef

namespace Command

/-- The command evaluates nothing. -/
def isUpdate : Command → Bool
  | createRoot | createGlobal | createScope _ | define _ _ _ _ | assign _ _ _ | defun _ _ _ _
  | register _ _ _ | createFunction _ _ _ _ | overload _ _ _ => true
  | letScope _ _ | runLet _ _ | enter _ _ | evaluate _ _ _ | evaluateBody _ _ | runForm _ _ _ _ =>
    false

theorem atomic_perform (host : Host) {c : Command} (hc : c.isUpdate = true) :
    Atomic (c.perform host) := by
  cases c with
  | createRoot | createScope | register => exact .of_ok fun s => ⟨(), _, rfl⟩
  | createGlobal =>
    exact .of_ok fun s => ⟨(), _, Traced.run_discard_of_ok (Store.run_createGlobal s)⟩
  | define e name kind value => exact .ofExcept_bind fun slot _ => e.atomic_define name slot
  | assign e name value => exact e.atomic_assign name value
  | defun e name params body => exact .ofExcept_bind fun o _ => e.atomic_defun name o
  | createFunction name params body home =>
    exact .ofExcept_bind fun o _ => .of_ok fun s => ⟨(), _, rfl⟩
  | overload f params body => exact .ofExcept_bind fun o _ => f.atomic_overload o
  | letScope | runLet | enter | evaluate | evaluateBody | runForm => cases hc

end Command

/-- An update that fails is as good as left out of the run. -/
theorem Store.afterRun_cons_of_fails {host : Host} {c : Command} {s : Store}
    (hc : c.isUpdate = true) (hfails : Fails (c.perform host) s) (commands : List Command) :
    s.afterRun host (c :: commands) = s.afterRun host commands := by
  simp only [afterRun, List.foldl_cons, (c.atomic_perform host hc).after_of_fails hfails]

/-- What fails leaves the whole store as it was: replacing the value of a slot, declaring a variable,
defining a function anew or adding to it, assigning along the chain, adding an overload, and
entering a scope that is active. Declaring fails for a name that the frame has and for no other;
defining a function fails for a variable's name and for an arity that the function has, and
otherwise never. -/
theorem failing_operations_change_nothing (host : Host) (e parent : EnvRef) (f : FunctionRef)
    (name : String) (owner : Option String) (slot : Slot) (o : Overload) (v : Value) :
    Atomic (Slot.replace owner v) ∧
      Atomic (e.define name slot) ∧
      Atomic (e.defun name o) ∧
      Atomic (e.assign name v) ∧
      Atomic (f.overload o) ∧
      (∀ s : Store, s.isActive e = true →
        (e.enter host parent).run s = .error (.evaluation .alreadyActive []) s) ∧
      (∀ s : Store, Fails (e.define name slot) s ↔ (s.frame e).binds name = true) ∧
      ∀ s : Store, Fails (e.defun name o) s ↔
        (∃ other, (s.frame e).get? name = some (.slot other)) ∨
          ∃ g, (s.frame e).get? name = some (.function g) ∧ o.arity ∈ s.arities g := by
  refine ⟨Slot.atomic_replace owner v, e.atomic_define name slot, e.atomic_defun name o,
    e.atomic_assign name v, f.atomic_overload o, ?_, ?_, ?_⟩
  · intro s h
    exact EnvRef.run_enter_of_isActive host parent h
  · intro s
    exact EnvRef.fails_define_iff
  · intro s
    exact EnvRef.fails_defun_iff

end LexicalLisp
