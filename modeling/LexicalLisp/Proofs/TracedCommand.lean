import LexicalLisp.Proofs.Command
import LexicalLisp.Proofs.TracedInvariant

/-!
# Traced commands

What a host has done to a store, with the steps of the evaluations that it starts. What the host
does by itself is no step.
-/
namespace LexicalLisp

namespace Traced

variable {α β : Type}

/-- Work that is no part of an evaluation. -/
def silent (a : Action α) : Traced α := fun s => ⟨[], a.run s⟩

theorem events_silent_bind {a : Action α} {f : α → Traced β} {s t : Store} {v : α}
    (h : a.run s = .ok v t) : ((silent a >>= f) s).events = (f v t).events := by
  have hrun : (silent a >>= f) s = ⟨(silent a s).events ++ (f v t).events, (f v t).outcome⟩ :=
    bind_of_ok h
  rw [hrun]
  rfl

theorem events_silent_bind_of_error {a : Action α} {f : α → Traced β} {s t : Store} {x : Error}
    (h : a.run s = .error x t) : ((silent a >>= f) s).events = [] := by
  have hrun : (silent a >>= f) s = ⟨(silent a s).events, .error x t⟩ := bind_of_error h
  rw [hrun]
  rfl

/-- The traced action does what the action does. -/
def Follows (a' : Traced α) (a : Action α) : Prop := ∀ s, (a' s).outcome = a.run s

theorem Follows.bind {a' : Traced α} {a : Action α} {f' : α → Traced β} {f : α → Action β}
    (h : Follows a' a) (h' : ∀ v, Follows (f' v) (f v)) : Follows (a' >>= f') (a >>= f) := by
  intro s
  rw [EStateM.run_bind, ← h s]
  cases hr : (a' s).outcome with
  | ok v t =>
    rw [bind_of_ok hr]
    exact h' v t
  | error x t => rw [bind_of_error hr]

theorem Follows.discard {a' : Traced α} {a : Action α} (h : Follows a' a) :
    Follows (Functor.discard a') (Functor.discard a) :=
  h.bind fun _ _ => rfl

theorem records_evalAt (host : Host) (depth : Nat) :
    RecordsAll (Code.run host) (evalAt host depth) (LexicalLisp.evalAt host depth) :=
  records_evalWithin _ _

end Traced

namespace Command

/-- Carries the command out and lists the steps of the evaluations that it starts. -/
def traced (host : Host) : Command → Traced Unit
  | letScope args e => do
    let l ← Traced.check (Let.ofArgs args)
    let frame ← Traced.bindAll (Traced.evalAt host 1) e l.bindings {}
    Traced.silent (discard (Environment.create ⟨frame, .scope l.body none⟩))
  | runLet l e => discard (Traced.runLet (Traced.evalAt host 1) (.list l.bindings :: l.body) e)
  | enter scope parent => do
    let body ← Traced.silent (do scope.activate parent; return (← get).body scope)
    discard (Traced.evalBody (Traced.evalAt host 1) body scope)
  | evaluate depth expr e => discard (Traced.evalAt host depth expr e)
  | evaluateBody body e => discard (Traced.evalBody (Traced.evalAt host 1) body e)
  | runForm form depth args e =>
    discard (Traced.runForm (Traced.evalAt host (depth + 1)) form args e)
  | c => Traced.silent (c.perform host)

theorem discard_bind {α β : Type} (a : Action α) (f : α → Action β) :
    (discard (a >>= f) : Action Unit) = a >>= fun v => discard (f v) :=
  bind_assoc a f fun _ => pure ()

theorem follows_traced (host : Host) (c : Command) :
    Traced.Follows (c.traced host) (c.perform host) := by
  have heval := Traced.records_evalAt host
  cases c with
  | letScope args e =>
    have hargs : Traced.Records (Code.run host) (Traced.check (Let.ofArgs args))
        (Action.ofExcept (Let.ofArgs args)) := Traced.Records.check _
    refine Traced.Follows.bind hargs.outcome fun l => ?_
    rw [Let.construct, discard_bind]
    have hframe := Traced.records_bindAll (heval 1) e l.bindings {}
    exact Traced.Follows.bind hframe.outcome fun frame _ => rfl
  | runLet l e =>
    have hlet := Traced.records_runLet (heval 1) (.list l.bindings :: l.body) e
    exact Traced.Follows.discard hlet.outcome
  | enter scope parent =>
    have hbody : (discard (scope.enter host parent) : Action Unit) =
        (do scope.activate parent; return (← get).body scope) >>= fun body =>
          discard (evalBody (evalAt host 1) body scope) := by
      simp only [EnvRef.enter, discard_bind, bind_assoc, pure_bind]
    rw [perform, hbody]
    refine Traced.Follows.bind (fun _ => rfl) fun body => ?_
    exact Traced.Follows.discard (Traced.records_evalBody (heval 1) body scope).outcome
  | evaluate depth expr e => exact Traced.Follows.discard (heval depth expr e).outcome
  | evaluateBody body e =>
    exact Traced.Follows.discard (Traced.records_evalBody (heval 1) body e).outcome
  | runForm form depth args e =>
    exact Traced.Follows.discard (Traced.records_runForm (heval (depth + 1)) form args e).outcome
  | _ => exact fun _ => rfl

end Command
end LexicalLisp
