import LexicalLisp.Proofs.Chain
import LexicalLisp.Proofs.Renaming

/-!
# Stores with something inserted

Environments and functions have their places in the store for names. If others are inserted before
some of them, then the places behind move up, and everything in the store that refers to them has
to follow. Each operation does the same on a store and on that store with something inserted, but
for the names; what was inserted is out of its reach.
-/
namespace LexicalLisp

/-! ### Arrays -/

/-- Elements to be inserted into an array, and the place where they go. -/
structure Gap (α : Type) where
  start : Nat
  filling : List α

namespace Gap

variable {α : Type} (g : Gap α)

/-- Where the element of this place is found after the insertion. -/
def move (i : Nat) : Nat := if i < g.start then i else i + g.filling.length

theorem move_of_lt {i : Nat} (h : i < g.start) : g.move i = i := if_pos h

theorem move_of_le {i : Nat} (h : g.start ≤ i) : g.move i = i + g.filling.length :=
  if_neg (by omega)

theorem move_injective : Function.Injective g.move := by
  intro i j h
  unfold move at h
  split at h <;> split at h <;> omega

/-- Nothing moves to where the new elements go. -/
theorem move_ne {k : Nat} (h : k < g.filling.length) (i : Nat) : g.move i ≠ g.start + k := by
  unfold move
  split <;> omega

/-- The second array is the first with the elements inserted and the others changed by `f`. -/
structure Fills (f : α → α) (a b : Array α) : Prop where
  start_le : g.start ≤ a.size
  size : b.size = a.size + g.filling.length
  moved : ∀ i, b[g.move i]? = a[i]?.map f
  filled : ∀ k < g.filling.length, b[g.start + k]? = g.filling[k]?

namespace Fills

variable {g} {f : α → α} {a b : Array α} (h : g.Fills f a b)
include h

theorem move_size : g.move a.size = b.size := by
  rw [g.move_of_le h.start_le, h.size]

theorem move_lt_iff {i : Nat} : g.move i < b.size ↔ i < a.size := by
  have hsize := h.size
  have hle := h.start_le
  unfold move
  split <;> omega

theorem push (x : α) : g.Fills f (a.push x) (b.push (f x)) where
  start_le := by
    have hle := h.start_le
    rw [Array.size_push]
    omega
  size := by
    have hsize := h.size
    rw [Array.size_push, Array.size_push]
    omega
  moved := by
    intro i
    have hsize : g.move i = b.size ↔ i = a.size := by
      rw [← h.move_size]
      exact g.move_injective.eq_iff
    by_cases hi : i = a.size
    · rw [Array.getElem?_push, Array.getElem?_push, if_pos hi, if_pos (hsize.2 hi)]
      rfl
    · rw [Array.getElem?_push, Array.getElem?_push, if_neg hi, if_neg (mt hsize.1 hi), h.moved]
  filled := by
    intro k hk
    have hne : g.start + k ≠ b.size := by
      rw [← h.move_size]
      exact (g.move_ne hk _).symm
    rw [Array.getElem?_push, if_neg hne, h.filled k hk]

theorem modify (i : Nat) (u v : α → α) (hu : ∀ x, f (u x) = v (f x)) :
    g.Fills f (a.modify i u) (b.modify (g.move i) v) where
  start_le := by
    rw [Array.size_modify]
    exact h.start_le
  size := by
    rw [Array.size_modify, Array.size_modify, h.size]
  moved := by
    intro j
    rw [Array.getElem?_modify, Array.getElem?_modify, h.moved]
    by_cases hij : i = j
    · subst hij
      rw [if_pos rfl, if_pos rfl, Option.map_map, Option.map_map]
      congr 1
      funext x
      exact (hu x).symm
    · rw [if_neg hij, if_neg (mt (fun heq => g.move_injective heq) hij)]
  filled := by
    intro k hk
    rw [Array.getElem?_modify, if_neg (g.move_ne hk i), h.filled k hk]

end Fills
end Gap

/-! ### Stores -/

def Overload.rename (σ : Nat → Nat) (o : Overload) : Overload :=
  { o with body := o.body.map (Value.rename σ) }

@[simp] theorem Overload.arity_rename (σ : Nat → Nat) (o : Overload) :
    (o.rename σ).arity = o.arity := rfl

/-- Functions to be inserted into a store, and environments. -/
structure Insertion where
  environments : Gap Environment
  closures : Gap Closure

namespace Insertion

variable (I : Insertion)

/-- The name of an environment after the insertion. -/
def env (e : EnvRef) : EnvRef := I.environments.move e

/-- The number of a function handle after the insertion. -/
def fn (i : Nat) : Nat := I.closures.move i

theorem fn_injective : Function.Injective I.fn := I.closures.move_injective

def value (v : Value) : Value := v.rename I.fn

def role : Role → Role
  | .root => .root
  | .scope body parent => .scope (body.map I.value) (parent.map I.env)

def environment (env : Environment) : Environment := ⟨env.frame.rename I.fn, I.role env.role⟩

def closure (c : Closure) : Closure := ⟨c.overloads.map (Overload.rename I.fn), I.env c.home⟩

/-- The second store is the first with the functions and the environments inserted. -/
structure Relates (s t : Store) : Prop where
  environments : I.environments.Fills I.environment s.environments t.environments
  closures : I.closures.Fills I.closure s.closures t.closures

namespace Relates

variable {I} {s t : Store} (h : I.Relates s t)
include h

theorem frame (e : EnvRef) : t.frame (I.env e) = (s.frame e).rename I.fn := by
  have hmoved := h.environments.moved e
  unfold Store.frame
  cases he : s.environments[e]? with
  | none => simp [env, hmoved, he]
  | some env => simp [Insertion.env, hmoved, he, environment]

theorem parent? (e : EnvRef) : t.parent? (I.env e) = (s.parent? e).map I.env := by
  have hmoved := h.environments.moved e
  unfold Store.parent?
  cases he : s.environments[e]? with
  | none => simp [env, hmoved, he]
  | some env =>
    obtain ⟨frame, role⟩ := env
    cases role <;> simp [Insertion.env, hmoved, he, environment, Insertion.role, Role.parent?]

theorem ownerWithin (name : String) (links : Nat) (e : EnvRef) :
    t.ownerWithin name links (I.env e) = (s.ownerWithin name links e).map I.env := by
  induction links generalizing e with
  | zero => rfl
  | succ links ih =>
    rw [Store.ownerWithin, Store.ownerWithin, h.frame, Frame.binds_rename, h.parent?]
    split
    · rfl
    · cases s.parent? e with
      | none => rfl
      | some p => exact ih p

theorem owner? (name : String) (e : EnvRef) :
    t.owner? name (I.env e) = (s.owner? name e).map I.env := by
  have hsize := h.environments.size
  have hle : s.environments.size ≤ t.environments.size := by omega
  rw [← Store.ownerWithin_eq_owner? hle]
  exact h.ownerWithin name t.environments.size e

theorem lookup? (name : String) (e : EnvRef) :
    t.lookup? name (I.env e) = (s.lookup? name e).map I.value := by
  unfold Store.lookup?
  rw [h.owner?]
  cases s.owner? name e with
  | none => rfl
  | some o =>
    simp only [Option.map_some, Option.bind_some, Store.local?, h.frame, Frame.get?_rename,
      Option.map_map]
    congr 1
    funext b
    exact Binding.value_rename I.fn b

theorem arities (f : FunctionRef) : t.arities (f.rename I.fn) = s.arities f := by
  have hmoved := h.closures.moved f.index
  unfold Store.arities
  cases hf : s.closures[f.index]? with
  | none => simp [FunctionRef.rename, fn, hmoved, hf]
  | some c => simp [FunctionRef.rename, fn, hmoved, hf, closure, Function.comp_def]

theorem bind (e : EnvRef) (name : String) (b : Binding) :
    I.Relates (s.bind e name b) (t.bind (I.env e) name (b.rename I.fn)) where
  environments := by
    refine h.environments.modify e (fun env => { env with frame := env.frame.put name b })
      (fun env => { env with frame := env.frame.put name (b.rename I.fn) }) fun env => ?_
    simp only [environment, Frame.put_rename]
  closures := h.closures

theorem push_environment (env : Environment) :
    I.Relates { s with environments := s.environments.push env }
      { t with environments := t.environments.push (I.environment env) } :=
  ⟨h.environments.push env, h.closures⟩

theorem push_closure (c : Closure) :
    I.Relates { s with closures := s.closures.push c }
      { t with closures := t.closures.push (I.closure c) } :=
  ⟨h.environments, h.closures.push c⟩

theorem overload (f : FunctionRef) (o : Overload) :
    I.Relates
      { s with closures := s.closures.modify f.index fun c =>
          { c with overloads := c.overloads ++ [o] } }
      { t with closures := t.closures.modify (f.rename I.fn).index fun c =>
          { c with overloads := c.overloads ++ [o.rename I.fn] } } := by
  refine ⟨h.environments, h.closures.modify f.index
    (fun c => { c with overloads := c.overloads ++ [o] })
    (fun c => { c with overloads := c.overloads ++ [o.rename I.fn] }) fun c => ?_⟩
  simp only [closure, List.map_append, List.map_cons, List.map_nil]

end Relates
end Insertion
end LexicalLisp
