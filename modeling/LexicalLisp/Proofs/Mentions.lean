import Mathlib.Data.Set.Finite.Lattice
import Mathlib.Data.Set.Finite.List
import Mathlib.Logic.Equiv.Basic
import LexicalLisp.Proofs.Data
import LexicalLisp.Proofs.Renaming

/-!
# The functions that a value mentions

A value mentions a function if a handle on it occurs in the value, at any depth. A renaming that
leaves a value as it is leaves all the handles in it as they are. So a builtin to which handles are
only names can return no others than it was given: those could be renamed without the arguments.
-/
namespace LexicalLisp

namespace Value

/-- A handle on the function of this number occurs in the value. -/
inductive Mentions (i : Nat) : Value → Prop
  | handle (name : String) : Mentions i (.function ⟨name, i⟩)
  | element {vs : List Value} {x : Value} (hx : x ∈ vs) (h : Mentions i x) : Mentions i (.list vs)
  | operand {o : Operator} {args : List Value} {x : Value} (hx : x ∈ args) (h : Mentions i x) :
      Mentions i (.op o args)

variable {i : Nat} {v : Value} {vs : List Value} {σ : Nat → Nat}

theorem mentions_list_iff : (list vs).Mentions i ↔ ∃ x ∈ vs, x.Mentions i := by
  constructor
  · intro h
    cases h with
    | element hx h => exact ⟨_, hx, h⟩
  · rintro ⟨x, hx, h⟩
    exact .element hx h

theorem mentions_op_iff {o : Operator} : (op o vs).Mentions i ↔ ∃ x ∈ vs, x.Mentions i := by
  constructor
  · intro h
    cases h with
    | operand hx h => exact ⟨_, hx, h⟩
  · rintro ⟨x, hx, h⟩
    exact .operand hx h

/-- The test holds of the value, if it is a handle, by the number of the function. -/
def onHandles (q : Nat → Bool) : Value → Bool
  | .function f => q f.index
  | _ => true

theorem of_mentions {q : Nat → Bool} (h : v.throughout (onHandles q) = true) (hi : v.Mentions i) :
    q i = true := by
  induction hi with
  | handle name => exact h
  | element hx _ ih => exact ih ((throughout_list_iff.1 h).2 _ hx)
  | operand hx _ ih => exact ih ((throughout_op_iff.1 h).2 _ hx)

theorem throughout_of_mentions {q : Nat → Bool} :
    ∀ {v : Value}, (∀ i, v.Mentions i → q i = true) → v.throughout (onHandles q) = true
  | .list vs, h => throughout_list_iff.2
    ⟨rfl, fun _ hu => throughout_of_mentions fun i hi => h i (.element hu hi)⟩
  | .op o vs, h => throughout_op_iff.2
    ⟨rfl, fun _ hu => throughout_of_mentions fun i hi => h i (.operand hu hi)⟩
  | .function f, h => h f.index (.handle f.name)
  | .number _, _ | .symbol _, _ | .string _, _ | .bool _, _ => rfl
  | .builtin _ _, _ | .unspecified, _ => rfl

/-- What holds of every function that is mentioned can be tested on every handle. -/
theorem throughout_onHandles_iff {q : Nat → Bool} :
    v.throughout (onHandles q) = true ↔ ∀ i, v.Mentions i → q i = true :=
  ⟨fun h _ hi => of_mentions h hi, throughout_of_mentions⟩

/-! ### Renaming -/

theorem map_rename_eq_self_iff : vs.map (rename σ) = vs ↔ ∀ x ∈ vs, x.rename σ = x := by
  have h : vs.map (rename σ) = vs.map id ↔ ∀ x ∈ vs, x.rename σ = x := List.map_inj_left
  rwa [List.map_id] at h

/-- A renaming that leaves a value as it is leaves the functions alone that the value mentions. -/
theorem eq_of_mentions (h : v.rename σ = v) (hi : v.Mentions i) : σ i = i := by
  induction hi with
  | handle name => exact congrArg FunctionRef.index (function.inj h)
  | @element vs x hx _ ih =>
    rw [rename_list] at h
    exact ih (map_rename_eq_self_iff.1 (list.inj h) x hx)
  | @operand o args x hx _ ih =>
    rw [rename_op] at h
    exact ih (map_rename_eq_self_iff.1 (op.inj h).2 x hx)

theorem rename_of_mentions :
    ∀ {v : Value}, (∀ i, v.Mentions i → σ i = i) → v.rename σ = v
  | .list vs, h => by
    have helements : ∀ x ∈ vs, x.rename σ = x := fun x hx =>
      rename_of_mentions fun i hi => h i (.element hx hi)
    rw [rename_list, map_rename_eq_self_iff.2 helements]
  | .op o args, h => by
    have hargs : ∀ x ∈ args, x.rename σ = x := fun x hx =>
      rename_of_mentions fun i hi => h i (.operand hx hi)
    rw [rename_op, map_rename_eq_self_iff.2 hargs]
  | .function f, h => by
    rw [rename_function, FunctionRef.rename, h f.index (.handle f.name)]
  | .number _, _ | .symbol _, _ | .string _, _ | .bool _, _ => rfl
  | .builtin _ _, _ | .unspecified, _ => rfl

/-! ### Builtins -/

theorem finite_mentions : ∀ v : Value, {i | v.Mentions i}.Finite
  | .list vs => by
    have hunion : {i | (list vs).Mentions i} = ⋃ x ∈ {x | x ∈ vs}, {i | x.Mentions i} := by
      ext i
      simp [mentions_list_iff]
    rw [hunion]
    exact vs.finite_toSet.biUnion fun x hx => by
      have hx : x ∈ vs := hx
      exact finite_mentions x
  | .op o args => by
    have hunion : {i | (op o args).Mentions i} = ⋃ x ∈ {x | x ∈ args}, {i | x.Mentions i} := by
      ext i
      simp [mentions_op_iff]
    rw [hunion]
    exact args.finite_toSet.biUnion fun x hx => by
      have hx : x ∈ args := hx
      exact finite_mentions x
  | .function f => by
    refine (Set.finite_singleton f.index).subset fun i hi => ?_
    cases hi with
    | handle name => rfl
  | .number _ | .symbol _ | .string _ | .bool _ => Set.finite_empty.subset fun _ hi => nomatch hi
  | .builtin _ _ | .unspecified => Set.finite_empty.subset fun _ hi => nomatch hi

/-- There is always a number to which no value of the list refers. -/
theorem exists_not_mentions (i : Nat) (vs : List Value) :
    ∃ k, k ≠ i ∧ ∀ v ∈ vs, ¬ v.Mentions k := by
  obtain ⟨k, hk⟩ := ((finite_mentions (list vs)).insert i).exists_notMem
  refine ⟨k, fun heq => hk (Or.inl heq), fun v hv h => hk (Or.inr ?_)⟩
  exact .element hv h

end Value

/-- A builtin mentions only functions that its arguments mention. -/
theorem Code.mentions_of_run {host : Host} (hhost : host.Uniform) {c : Code} {vs : List Value}
    {v : Value} (h : c.run host vs = .ok v) {i : Nat} (hi : v.Mentions i) :
    ∃ u ∈ vs, u.Mentions i := by
  by_contra hnone
  have hnone : ∀ u ∈ vs, ¬ u.Mentions i := fun u hu hui => hnone ⟨u, hu, hui⟩
  -- exchanging the function for a fresh one does not change the arguments, so the result neither
  obtain ⟨k, hk, hfresh⟩ := Value.exists_not_mentions i vs
  have hfix : ∀ u ∈ vs, u.rename (Equiv.swap i k) = u := by
    intro u hu
    refine Value.rename_of_mentions fun j hj => Equiv.swap_apply_of_ne_of_ne ?_ ?_
    · rintro rfl
      exact hnone u hu hj
    · rintro rfl
      exact hfresh u hu hj
  have hrun := Code.run_rename hhost (Equiv.swap i k).injective c vs
  rw [Value.map_rename_eq_self_iff.2 hfix, h] at hrun
  have hmoved := Value.eq_of_mentions (Except.ok.inj hrun).symm hi
  rw [Equiv.swap_apply_left] at hmoved
  exact hk hmoved

end LexicalLisp
