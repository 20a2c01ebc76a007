import LexicalLisp.Proofs.DataFlow
import LexicalLisp.Proofs.Global
import LexicalLisp.Proofs.Handles

/-!
# Evaluation leaves no dangling handle

Evaluation makes a handle only with the function that it refers to, and functions are never
removed. Builtins could invent handles if they saw what a handle is; those that do not see it can
only return handles that they were given.
-/
namespace LexicalLisp

/-- A builtin has all the handles that it returns from its arguments. -/
theorem Code.within_of_run {host : Host} (hhost : host.Uniform) {n : Nat} {c : Code}
    {vs : List Value} {v : Value} (hvs : ∀ u ∈ vs, u.Within n) (h : c.run host vs = .ok v) :
    v.Within n := by
  refine Value.within_iff.2 fun i hi => ?_
  obtain ⟨u, hu, hui⟩ := Code.mentions_of_run hhost h hi
  exact Value.within_iff.1 (hvs u hu) i hui

/-! ### Updates of a store -/

theorem forall_mem_modify {α : Type} {P : α → Prop} {a : Array α} (i : Nat) (f : α → α)
    (ha : ∀ x ∈ a, P x) (hf : ∀ x ∈ a, P (f x)) : ∀ x ∈ a.modify i f, P x := by
  intro x hx
  obtain ⟨j, hj⟩ := Array.mem_iff_getElem?.1 hx
  rw [Array.getElem?_modify] at hj
  split at hj
  · obtain ⟨y, hy, rfl⟩ := Option.map_eq_some_iff.1 hj
    exact hf y (Array.mem_of_getElem? hy)
  · exact ha x (Array.mem_of_getElem? hj)

theorem Frame.Within.mono {n m : Nat} (h : n ≤ m) {f : Frame} (hf : f.Within n) : f.Within m :=
  fun entry hentry => (hf entry hentry).mono h

theorem Frame.Within.put {n : Nat} {f : Frame} (hf : f.Within n) (name : String) {b : Binding}
    (hb : b.value.Within n) : (f.put name b).Within n := by
  intro entry hentry
  rcases mem_put hentry with rfl | hentry
  · exact hb
  · exact hf entry hentry

theorem Frame.Variables.within {n : Nat} {f : Frame} (h : f.Variables (Value.Within n)) :
    f.Within n := by
  intro entry hentry
  obtain ⟨slot, hslot, -, hv⟩ := h entry hentry
  rw [hslot]
  exact hv

namespace Store.Sound

variable {s : Store} (h : s.Sound)
include h

theorem within_of_lookup? {e : EnvRef} {n : String} {v : Value} (hv : s.lookup? n e = some v) :
    v.Within s.closures.size := by
  obtain ⟨d, b, -, hb, rfl⟩ := exists_binding_of_lookup? hv
  exact within_of_get? h.environments hb

theorem bind (e : EnvRef) (name : String) {b : Binding} (hb : b.value.Within s.closures.size) :
    (s.bind e name b).Sound := by
  have hput : ∀ env ∈ s.environments,
      Environment.Within s.closures.size { env with frame := env.frame.put name b } := by
    intro env henv
    obtain ⟨hframe, hbody⟩ := h.environments env henv
    exact ⟨hframe.put name hb, hbody⟩
  exact ⟨forall_mem_modify e _ h.environments hput, h.closures⟩

theorem push_environment {env : Environment} (henv : env.Within s.closures.size) :
    ({ s with environments := s.environments.push env } : Store).Sound := by
  refine ⟨?_, h.closures⟩
  intro env' henv'
  rcases Array.mem_push.1 henv' with henv' | rfl
  · exact h.environments env' henv'
  · exact henv

theorem push_closure {c : Closure} (hc : c.Within s.closures.size) :
    ({ s with closures := s.closures.push c } : Store).Sound := by
  have hle : s.closures.size ≤ (s.closures.push c).size := by
    rw [Array.size_push]
    exact Nat.le_succ _
  constructor
  · intro env henv
    obtain ⟨hframe, hbody⟩ := h.environments env henv
    exact ⟨hframe.mono hle, fun x hx => (hbody x hx).mono hle⟩
  · intro d hd
    have hold : d.Within s.closures.size := by
      rcases Array.mem_push.1 hd with hd | rfl
      · exact h.closures d hd
      · exact hc
    exact fun o ho x hx => (hold o ho x hx).mono hle

theorem overload (i : Nat) {o : Overload} (ho : ∀ x ∈ o.body, x.Within s.closures.size) :
    ({ s with
      closures := s.closures.modify i fun c =>
        { c with overloads := c.overloads ++ [o] } } : Store).Sound := by
  constructor
  · rw [Array.size_modify]
    exact h.environments
  · rw [Array.size_modify]
    refine forall_mem_modify i (fun c => { c with overloads := c.overloads ++ [o] }) h.closures
      fun c hc o' ho' => ?_
    rcases List.mem_append.1 ho' with ho' | ho'
    · exact h.closures c hc o' ho'
    · rw [List.mem_singleton.1 ho']
      exact ho

end Store.Sound

/-! ### The whole evaluation -/

/-- Evaluation in one sound store; what is known at a moment is how many functions there are. -/
def soundFlow : Correspondence where
  World := Nat
  name _ := True
  code := Value.Within
  data := Value.Within
  here _ _ := True
  related n s s' := s' = s ∧ s.Sound ∧ s.closures.size = n
  grows _ n m := n ≤ m
  cut _ := False

namespace soundFlow

variable {α : Type}

/-- The store is sound and has these functions, and maybe others. -/
def Extends (n : Nat) (s : Store) : Prop := n ≤ s.closures.size ∧ s.Sound

theorem follows {e : EnvRef} {n : Nat} {P : Nat → α → Prop} {a : Action α}
    (h : ∀ s : Store, s.Sound → s.closures.size = n → Extends n (a.after s))
    (hP : ∀ s x t, a.run s = .ok x t → P t.closures.size x) : soundFlow.Follows e n P a a := by
  rintro s _ ⟨rfl, hs, hn⟩
  obtain ⟨hsize, hafter⟩ := h _ hs hn
  cases hr : a.run _ with
  | ok x t =>
    rw [Action.after_of_ok hr] at hsize hafter
    exact ⟨t.closures.size, t, rfl, hsize, ⟨rfl, hafter, rfl⟩, hP _ x t hr⟩
  | error x t =>
    rw [Action.after_of_error hr] at hsize hafter
    exact Or.inr ⟨x, t.closures.size, t, rfl, rfl, hsize, rfl, hafter, rfl⟩

theorem extends_push_closure {s : Store} (h : s.Sound) {c : Closure}
    (hc : c.Within s.closures.size) :
    Extends s.closures.size { s with closures := s.closures.push c } := by
  refine ⟨?_, h.push_closure hc⟩
  rw [Array.size_push]
  exact Nat.le_succ _

theorem closure_within {n : Nat} {o : Overload} (ho : ∀ x ∈ o.body, x.Within n) (e : EnvRef) :
    Closure.Within n ⟨[o], e⟩ := by
  intro o' ho'
  rw [List.mem_singleton.1 ho']
  exact ho

theorem lawful {host : Host} (hhost : host.Uniform) :
    soundFlow.Lawful (Code.run host) (Code.run host) where
  grows_refl _ := Nat.le_refl
  grows_trans := Nat.le_trans
  here_mono _ h := h
  code_mono hle h := h.mono hle
  data_mono hle h := h.mono hle
  cut_note h := h
  alike_refl _ := rfl
  alike_note h := congrArg _ h
  part h hpart := Value.throughout_of_mem_parts h hpart
  mentioned _ _ := trivial
  literal h _ := h
  quoted h := (Value.throughout_op_iff.1 h).2 _ List.mem_cons_self
  bool _ _ := rfl
  nil _ := rfl
  unspecified _ := rfl
  primitive _ _ := rfl
  computed _ hvs := ⟨rfl, fun _ hv => Code.within_of_run hhost hvs hv⟩
  lookup := by
    rintro _ s _ e n ⟨rfl, hs, rfl⟩ _ _
    exact ⟨rfl, fun v hv => hs.within_of_lookup? hv⟩
  closure := by
    rintro _ s _ f ⟨rfl, hs, rfl⟩ _
    refine ⟨Correspondence.matches_choose (fun _ => rfl) rfl, fun c hc => ?_⟩
    exact ⟨trivial, hs.closures c (Array.mem_of_getElem? hc)⟩
  define := by
    intro n e name slot _ _ _ hv
    refine follows (fun s hs hn => ?_) fun _ _ _ _ => trivial
    subst hn
    exact EnvRef.after_define (P := Extends s.closures.size) ⟨Nat.le_refl _, hs⟩ fun _ =>
      ⟨Nat.le_refl _, hs.bind e name hv⟩
  assign := by
    intro n e name v _ _ hv
    refine follows (fun s hs hn => ?_) fun _ _ _ _ => trivial
    subst hn
    exact EnvRef.after_assign (P := Extends s.closures.size) ⟨Nat.le_refl _, hs⟩
      fun o slot _ _ _ => ⟨Nat.le_refl _, hs.bind o name hv⟩
  defun := by
    intro n e name o _ _ _ ho
    refine follows (fun s hs hn => ?_) fun _ _ _ _ => trivial
    subst hn
    refine EnvRef.after_defun (P := Extends s.closures.size) ⟨Nat.le_refl _, hs⟩ (fun _ => ?_)
      fun f _ _ => ?_
    · obtain ⟨hsize, hpush⟩ := extends_push_closure hs (closure_within ho e)
      refine ⟨hsize, hpush.bind e name ?_⟩
      exact decide_eq_true (by simp)
    · refine ⟨?_, hs.overload f.index ho⟩
      rw [Array.size_modify]
  lambda := by
    intro n e o _ _ ho
    refine follows (fun s hs hn => ?_) fun s f t hr => ?_
    · subst hn
      exact extends_push_closure hs (closure_within ho e)
    · cases hr
      exact decide_eq_true (by simp)
  enter := by
    rintro _ _ _ e parent frame body ⟨rfl, hs, rfl⟩ _ _ hframe hbody
    refine ⟨rfl, _, ⟨rfl, ?_, rfl⟩, trivial, fun _ h => h⟩
    exact hs.push_environment ⟨hframe.within, hbody⟩

end soundFlow

/-- Evaluation keeps a store sound, whether it fails or not, and the result has no handle on a
function that the store does not have. -/
theorem Store.Sound.evaluation {host : Host} (hhost : host.Uniform) {s : Store} (hs : s.Sound)
    {expr : Value} (hexpr : expr.Within s.closures.size) (depth : Nat) (e : EnvRef) :
    ((evalAt host depth expr e).after s).Sound ∧
      ∀ v t, (evalAt host depth expr e).run s = .ok v t → v.Within t.closures.size := by
  have h := (soundFlow.lawful hhost).evalWithin (maxDepth - depth) e s.closures.size expr trivial
    hexpr s s ⟨rfl, hs, rfl⟩
  unfold evalAt
  cases hr : (evalWithin (Code.run host) (maxDepth - depth) expr e).run s with
  | ok v t =>
    rw [hr] at h
    obtain ⟨n, t', heq, -, ⟨-, ht, hn⟩, hv⟩ := h
    cases heq
    rw [Action.after_of_ok hr]
    refine ⟨ht, fun v' u hr' => ?_⟩
    cases hr'
    exact hn ▸ hv
  | error x t =>
    rw [hr] at h
    rcases h with hcut | ⟨_, n, t', heq, -, -, -, ht, -⟩
    · exact hcut.elim
    · rw [Action.after_of_error hr]
      refine ⟨ht, fun v u hr' => ?_⟩
      cases hr'

theorem Store.sound_empty : Sound {} := by
  constructor
  · intro env henv
    cases Array.not_mem_empty env henv
  · intro c hc
    cases Array.not_mem_empty c hc

theorem Store.sound_createGlobal {root : EnvRef} {s : Store}
    (h : Environment.createGlobal.run {} = .ok root s) : s.Sound := by
  rw [run_createGlobal] at h
  cases h
  refine sound_empty.push_environment ⟨Frame.Variables.within ?_, ?_⟩
  · exact Frame.standard_global.variables fun _ => rfl
  · intro x hx
    cases hx

end LexicalLisp
