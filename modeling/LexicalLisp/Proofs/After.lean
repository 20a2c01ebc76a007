import LexicalLisp.Store.Definition

/-!
# The store after an operation

An action leaves a store whether it fails or not. For each operation on environments and
functions, what holds of that store is reduced to the one update that the operation makes;
an operation that refuses leaves the store as it was.
-/
namespace LexicalLisp

namespace Action

variable {α β : Type} {a : Action α} {s t : Store} {P : Store → Prop}

/-- The store in which an action ends, whether it fails or not. -/
def after (a : Action α) (s : Store) : Store :=
  match a.run s with
  | .ok _ t => t
  | .error _ t => t

theorem after_of_ok {x : α} (h : a.run s = .ok x t) : a.after s = t := by
  simp only [after, h]

theorem after_of_error {x : Error} (h : a.run s = .error x t) : a.after s = t := by
  simp only [after, h]

theorem after_discard : (discard a : Action Unit).after s = a.after s := by
  have h : (discard a : Action Unit) = a >>= fun _ => pure () := rfl
  unfold after
  rw [h, EStateM.run_bind]
  cases a.run s <;> rfl

theorem after_bind {f : α → Action β} (ha : P (a.after s))
    (hf : ∀ x t, a.run s = .ok x t → P t → P ((f x).after t)) : P ((a >>= f).after s) := by
  cases hr : a.run s with
  | ok x t =>
    rw [after_of_ok hr] at ha
    have h := hf x t hr ha
    unfold after at h ⊢
    rw [run_bind_of_ok hr]
    exact h
  | error x t =>
    rw [after_of_error hr] at ha
    have hrun : (a >>= f).run s = .error x t := by rw [EStateM.run_bind, hr]
    rw [after_of_error hrun]
    exact ha

/-- An action that depends on a check which may fail. -/
theorem after_ofExcept_bind {x : Except Error α} {f : α → Action β} (hs : P s)
    (hf : ∀ v, x = .ok v → P ((f v).after s)) : P ((ofExcept x >>= f).after s) := by
  cases x with
  | ok v => exact hf v rfl
  | error y => exact hs

end Action

section Operations

variable {s : Store} {P : Store → Prop} {e : EnvRef} {n : String}

theorem EnvRef.after_define {slot : Slot} (hs : P s)
    (h : (s.frame e).binds n = false → P (s.bind e n (.slot slot))) :
    P ((e.define n slot).after s) := by
  have hrun := run_define e n slot s
  cases hb : (s.frame e).binds n with
  | true =>
    rw [hb, if_pos rfl] at hrun
    rw [Action.after_of_error hrun]
    exact hs
  | false =>
    rw [hb, if_neg (by decide)] at hrun
    rw [Action.after_of_ok hrun]
    exact h hb

theorem EnvRef.after_assign {v : Value} (hs : P s)
    (h : ∀ o slot, s.owner? n e = some o → (s.frame o).get? n = some (.slot slot) →
      slot.kind.admits v = true → P (s.bind o n (.slot { slot with value := v }))) :
    P ((e.assign n v).after s) := by
  cases ho : s.owner? n e with
  | none =>
    rw [Action.after_of_error (run_assign_none ho v)]
    exact hs
  | some o =>
    have hbinds := Store.binds_of_owner? ho
    cases hb : (s.frame o).get? n with
    | none => simp [Frame.binds, hb] at hbinds
    | some b =>
      cases b with
      | function f =>
        rw [Action.after_of_error (run_assign_function ho hb v)]
        exact hs
      | slot slot =>
        have hrun := run_assign_slot ho hb v
        by_cases hv : slot.kind.admits v = true
        · rw [if_pos hv] at hrun
          rw [Action.after_of_ok hrun]
          exact h o slot ho hb hv
        · rw [if_neg hv] at hrun
          rw [Action.after_of_error hrun]
          exact hs

theorem FunctionRef.after_overload {f : FunctionRef} {o : Overload} (hs : P s)
    (h : o.arity ∉ s.arities f → P { s with
      closures := s.closures.modify f.index fun c =>
        { c with overloads := c.overloads ++ [o] } }) :
    P ((f.overload o).after s) := by
  have hrun := run_overload f o s
  by_cases ha : o.arity ∈ s.arities f
  · rw [if_pos ha] at hrun
    rw [Action.after_of_error hrun]
    exact hs
  · rw [if_neg ha] at hrun
    rw [Action.after_of_ok hrun]
    exact h ha

theorem EnvRef.after_defun {o : Overload} (hs : P s)
    (hnew : (s.frame e).get? n = none →
      P (({ s with closures := s.closures.push ⟨[o], e⟩ } : Store).bind e n
        (.function ⟨n, s.closures.size⟩)))
    (hold : ∀ f, (s.frame e).get? n = some (.function f) → o.arity ∉ s.arities f → P { s with
      closures := s.closures.modify f.index fun c =>
        { c with overloads := c.overloads ++ [o] } }) :
    P ((e.defun n o).after s) := by
  cases hb : (s.frame e).get? n with
  | none =>
    rw [Action.after_of_ok (run_defun_new hb o)]
    exact hnew hb
  | some b =>
    cases b with
    | function f =>
      have h : P ((f.overload o).after s) := FunctionRef.after_overload hs (hold f hb)
      unfold Action.after at h ⊢
      rw [run_defun_function hb]
      exact h
    | slot slot =>
      rw [Action.after_of_error (run_defun_slot hb o)]
      exact hs

/-- Only a constructed scope gets a parent. -/
theorem EnvRef.after_activate {scope parent : EnvRef} (hs : P s)
    (h : ∀ frame body, s.environments[scope]? = some ⟨frame, .scope body none⟩ → P { s with
      environments := s.environments.modify scope fun _ => ⟨frame, .scope body (some parent)⟩ }) :
    P ((scope.activate parent).after s) := by
  cases henv : s.environments[scope]? with
  | none => simpa [Action.after, activate, henv] using hs
  | some env =>
    obtain ⟨frame, role⟩ := env
    cases role with
    | root => simpa [Action.after, activate, henv] using hs
    | scope body outer =>
      cases outer with
      | some p => simpa [Action.after, activate, henv] using hs
      | none =>
        rw [Action.after_of_ok (run_activate_constructed henv parent)]
        exact h frame body henv

end Operations
end LexicalLisp
