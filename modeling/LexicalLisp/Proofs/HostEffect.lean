import LexicalLisp.Proofs.Command
import LexicalLisp.Proofs.Effect
import LexicalLisp.Proofs.Global

/-!
# Effects of commands on the store

The host changes the store by evaluation and by a few updates of its own: it adds environments,
activates scopes, and adds overloads to functions wherever they are bound. A relation that
evaluation and these updates respect holds between the two ends of every run of commands, whether
they fail or not. Registering a builtin is left out, since it replaces what its name was bound to.
-/
namespace LexicalLisp

/-- The relation holds of what evaluation does and of every single update that the host makes. -/
structure HostEffect (rel : Store → Store → Prop) : Prop where
  effect : Effect fun _ => rel
  environment : ∀ {s env}, env.frame.Variables (fun _ => True) →
    rel s { s with environments := s.environments.push env }
  overload : ∀ {s f o}, o.arity ∉ s.arities f → o.Distinct →
    rel s
      { s with
        closures := s.closures.modify f.index fun c =>
          { c with overloads := c.overloads ++ [o] } }
  activate : ∀ {s scope parent frame body},
    s.environments[scope]? = some ⟨frame, .scope body none⟩ →
      rel s
        { s with
          environments := s.environments.modify scope fun _ =>
            ⟨frame, .scope body (some parent)⟩ }

/-- The command registers a builtin. -/
def Command.isRegistration : Command → Bool
  | .register _ _ _ => true
  | _ => false

/-- The store after some commands, those that fail included. -/
def Store.afterRun (host : Host) (s : Store) (commands : List Command) : Store :=
  commands.foldl (fun s c => (c.perform host).after s) s

namespace HostEffect

variable {rel : Store → Store → Prop} (H : HostEffect rel) (host : Host)
include H

theorem after_perform {c : Command} (hc : c.isRegistration = false) (s : Store) :
    rel s ((c.perform host).after s) := by
  have E := H.effect
  have hrefl : rel s s := E.refl 0 s
  cases c with
  | createRoot =>
    rw [Command.perform, Action.after_discard]
    exact H.environment Frame.variables_empty
  | createGlobal =>
    rw [Command.perform, Action.after_discard, Action.after_of_ok (Store.run_createGlobal s)]
    exact H.environment (Frame.standard_global.variables fun _ => trivial)
  | createScope body =>
    rw [Command.perform, Action.after_discard]
    exact H.environment Frame.variables_empty
  | define e name kind value =>
    refine Action.after_ofExcept_bind hrefl fun slot hslot => ?_
    obtain ⟨hk, rfl⟩ := Slot.ofValue_eq_ok_iff.1 hslot
    exact E.after_define (e := e) hk
  | assign e name value => exact E.after_assign (e := e)
  | defun e name params body =>
    refine Action.after_ofExcept_bind hrefl fun o ho => ?_
    exact E.after_defun (e := e) (Overload.ofParams_eq_ok ho).1
  | register e name code => cases hc
  | createFunction name params body home =>
    refine Action.after_ofExcept_bind hrefl fun o ho => ?_
    rw [Action.after_discard]
    exact E.lambda (Overload.ofParams_eq_ok ho).1
  | overload f params body =>
    refine Action.after_ofExcept_bind hrefl fun o ho => ?_
    exact FunctionRef.after_overload hrefl fun ha => H.overload ha (Overload.ofParams_eq_ok ho).1
  | letScope args e =>
    refine Action.after_ofExcept_bind hrefl fun l _ => ?_
    rw [Action.after_discard]
    have hbind := E.after_bindAll (Code.run host) (maxDepth - 1) l.bindings e s
    refine Action.after_bind hbind.1 fun frame t hr ht => ?_
    exact E.trans (e := e) ht (H.environment (hbind.2 frame t hr))
  | runLet l e =>
    rw [Command.perform, Action.after_discard]
    exact E.after_runLet _ _ l e s
  | enter scope parent =>
    rw [Command.perform, Action.after_discard]
    have hactivate : rel s ((scope.activate parent).after s) :=
      EnvRef.after_activate hrefl fun frame body henv => H.activate henv
    refine Action.after_bind hactivate fun _ t _ ht => ?_
    exact E.trans (e := scope) ht
      (E.after_evalBody (Code.run host) (maxDepth - 1) (t.body scope) scope t)
  | evaluate depth expr e =>
    rw [Command.perform, Action.after_discard]
    exact E.after_evalWithin _ _ expr e s
  | evaluateBody body e =>
    rw [Command.perform, Action.after_discard]
    exact E.after_evalBody _ _ body e s
  | runForm form depth args e =>
    rw [Command.perform, Action.after_discard]
    exact E.after_runForm _ _ form args e s

theorem afterRun {commands : List Command} (hc : ∀ c ∈ commands, c.isRegistration = false)
    (s : Store) : rel s (s.afterRun host commands) := by
  induction commands generalizing s with
  | nil => exact H.effect.refl 0 s
  | cons c commands ih =>
    have hfirst := H.after_perform host (hc c List.mem_cons_self) s
    have hrest := ih (fun d hd => hc d (List.mem_cons_of_mem c hd)) ((c.perform host).after s)
    exact H.effect.trans (e := 0) hfirst hrest

end HostEffect
end LexicalLisp
