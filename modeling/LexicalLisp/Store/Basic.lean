import LexicalLisp.Store.Frame

/-!
# The store

The store holds every environment and the overloads of every function. An
environment has a frame of its own. A root has nothing around it; a scope has a
body, and a parent once it is active. Names resolve in the nearest environment
of the chain whose frame binds them.

An `Action` works on a store. One that fails leaves the store as it was at that
moment, so what was written before the failure stays written.
-/
namespace LexicalLisp

/-- The place of an environment in the store. -/
abbrev EnvRef := Nat

inductive Role where
  | root
  /-- A scope without a parent is constructed; one with a parent is active. -/
  | scope (body : List Value) (parent : Option EnvRef)

def Role.parent? : Role → Option EnvRef
  | .root => none
  | .scope _ parent => parent

structure Environment where
  frame : Frame := {}
  role : Role

/-- One implementation of a function. -/
structure Overload where
  params : List Symbol
  body : List Value

namespace Overload

def arity (o : Overload) : Nat := o.params.length

/-- The first name that stands among `seen` or before itself in the list. -/
def repeated? (seen : List String) : List Symbol → Option String
  | [] => none
  | p :: ps => if p.name ∈ seen then some p.name else repeated? (p.name :: seen) ps

/-- An implementation whose parameters have distinct names. -/
def ofParams (params : List Symbol) (body : List Value) : Except Error Overload :=
  match repeated? [] params with
  | some name => .error (.duplicateName name)
  | none => .ok ⟨params, body⟩

end Overload

/-- The overloads of a function and the environment they are defined in. -/
structure Closure where
  overloads : List Overload
  home : EnvRef

structure Store where
  environments : Array Environment := #[]
  closures : Array Closure := #[]

/-! ### Changing one entry of an array -/

section Modify

variable {α : Type} {xs : Array α} {i : Nat} {f g : α → α}

theorem modify_congr (h : ∀ a, xs[i]? = some a → f a = g a) : xs.modify i f = xs.modify i g := by
  apply Array.ext_getElem?
  intro j
  rw [Array.getElem?_modify, Array.getElem?_modify]
  split
  case isTrue hj => exact Option.map_congr fun a ha => h a (by rw [hj]; exact ha)
  case isFalse => rfl

theorem modify_of_fixed (h : ∀ a, xs[i]? = some a → f a = a) : xs.modify i f = xs := by
  rw [modify_congr (g := id) h]
  apply Array.ext_getElem?
  intro j
  simp [Array.getElem?_modify]

theorem modify_modify : (xs.modify i f).modify i g = xs.modify i (g ∘ f) := by
  apply Array.ext_getElem?
  intro j
  rw [Array.getElem?_modify, Array.getElem?_modify, Array.getElem?_modify]
  split
  · rw [Option.map_map]
  · rfl

end Modify

/-! ### Look-up and binding -/

namespace Store

/-- The frame of an environment; an environment that does not exist binds nothing. -/
def frame (s : Store) (e : EnvRef) : Frame :=
  match s.environments[e]? with
  | some env => env.frame
  | none => {}

def parent? (s : Store) (e : EnvRef) : Option EnvRef :=
  s.environments[e]?.bind (·.role.parent?)

/-- The body of a scope; a root has none. -/
def body (s : Store) (e : EnvRef) : List Value :=
  match s.environments[e]? with
  | some ⟨_, .scope body _⟩ => body
  | _ => []

def isActive (s : Store) (e : EnvRef) : Bool := (s.parent? e).isSome

/-- The nearest owner of the name among the first `links` environments of the chain. -/
def ownerWithin (s : Store) (name : String) : (links : Nat) → EnvRef → Option EnvRef
  | 0, _ => none
  | links + 1, e =>
    if (s.frame e).binds name then some e
    else (s.parent? e).bind (s.ownerWithin name links)

/-- The nearest environment of the chain that binds the name. A chain has no more links
than the store has environments. -/
def owner? (s : Store) (name : String) (e : EnvRef) : Option EnvRef :=
  s.ownerWithin name s.environments.size e

/-- The value of the name in this environment's own frame. -/
def local? (s : Store) (name : String) (e : EnvRef) : Option Value :=
  ((s.frame e).get? name).map Binding.value

/-- The value of the name along the chain. -/
def lookup? (s : Store) (name : String) (e : EnvRef) : Option Value :=
  (s.owner? name e).bind (s.local? name)

/-- The value of the name along the chain, the environment's own frame left out. -/
def outer? (s : Store) (name : String) (e : EnvRef) : Option Value :=
  (s.parent? e).bind (s.lookup? name)

/-- The argument counts of a function's overloads, in the order of their definition. -/
def arities (s : Store) (f : FunctionRef) : List Nat :=
  match s.closures[f.index]? with
  | some c => c.overloads.map Overload.arity
  | none => []

/-- Binds the name in this environment's own frame. -/
def bind (s : Store) (e : EnvRef) (name : String) (b : Binding) : Store :=
  { s with
    environments := s.environments.modify e fun env => { env with frame := env.frame.put name b } }

theorem binds_of_ownerWithin {s : Store} {name : String} {links : Nat} {e o : EnvRef}
    (h : s.ownerWithin name links e = some o) : (s.frame o).binds name = true := by
  induction links generalizing e with
  | zero => simp [ownerWithin] at h
  | succ links ih =>
    rw [ownerWithin] at h
    split at h
    case isTrue hb => exact Option.some.inj h ▸ hb
    case isFalse =>
      obtain ⟨p, _, hp⟩ := Option.bind_eq_some_iff.1 h
      exact ih hp

theorem binds_of_owner? {s : Store} {name : String} {e o : EnvRef}
    (h : s.owner? name e = some o) : (s.frame o).binds name = true := binds_of_ownerWithin h

theorem getElem?_bind (s : Store) (e e' : EnvRef) (name : String) (b : Binding) :
    (s.bind e name b).environments[e']? =
      if e = e' then
        s.environments[e']?.map fun env => { env with frame := env.frame.put name b }
      else s.environments[e']? := by
  simp [bind, Array.getElem?_modify]

@[simp] theorem closures_bind (s : Store) (e : EnvRef) (name : String) (b : Binding) :
    (s.bind e name b).closures = s.closures := rfl

@[simp] theorem size_environments_bind (s : Store) (e : EnvRef) (name : String) (b : Binding) :
    (s.bind e name b).environments.size = s.environments.size := by simp [bind]

/-- Binding a name installs no parent and removes none. -/
@[simp] theorem parent?_bind (s : Store) (e e' : EnvRef) (name : String) (b : Binding) :
    (s.bind e name b).parent? e' = s.parent? e' := by
  by_cases h : e = e' <;> cases h' : s.environments[e']? <;> simp [parent?, getElem?_bind, h, h']

/-- Binding a name to what it is bound to changes nothing. -/
theorem bind_of_get? {s : Store} {e : EnvRef} {name : String} {b : Binding}
    (h : (s.frame e).get? name = some b) : s.bind e name b = s := by
  have hfixed : ∀ env, s.environments[e]? = some env →
      ({ env with frame := env.frame.put name b } : Environment) = env := by
    intro env henv
    rw [frame, henv] at h
    rw [Frame.put_of_get? h]
  rw [bind, modify_of_fixed hfixed]

theorem frame_bind_of_ne (s : Store) {e e' : EnvRef} (h : e ≠ e') (name : String) (b : Binding) :
    (s.bind e name b).frame e' = s.frame e' := by
  simp [frame, getElem?_bind, h]

theorem frame_bind_self (s : Store) {e : EnvRef} (h : e < s.environments.size) (name : String)
    (b : Binding) : (s.bind e name b).frame e = (s.frame e).put name b := by
  rw [frame, getElem?_bind]
  simp [frame, h]

/-- Binding a name changes what that name is bound to in that frame, and nothing else. -/
theorem get?_frame_bind (s : Store) (e d : EnvRef) (n m : String) (b : Binding) :
    ((s.bind e n b).frame d).get? m =
      if e < s.environments.size ∧ e = d ∧ n = m then some b else (s.frame d).get? m := by
  by_cases hd : e = d
  · subst hd
    by_cases he : e < s.environments.size
    · rw [frame_bind_self s he, Frame.get?_put]
      simp [he]
    · simp [frame, he]
  · rw [frame_bind_of_ne s hd]
    simp [hd]

theorem get?_of_bind {s : Store} {e d : EnvRef} {n m : String} {b b' : Binding}
    (h : ((s.bind e n b).frame d).get? m = some b') :
    (e = d ∧ n = m ∧ b = b') ∨ (s.frame d).get? m = some b' := by
  rw [get?_frame_bind] at h
  split at h
  case isTrue hd => exact Or.inl ⟨hd.2.1, hd.2.2, Option.some.inj h⟩
  case isFalse => exact Or.inr h

/-- The frames after an environment has been added. -/
theorem frame_push (s : Store) (env : Environment) (e : EnvRef) :
    ({ s with environments := s.environments.push env } : Store).frame e =
      if e = s.environments.size then env.frame else s.frame e := by
  simp only [frame, Array.getElem?_push]
  by_cases he : e = s.environments.size
  · rw [if_pos he, if_pos he]
  · rw [if_neg he, if_neg he]

theorem get?_of_push {s : Store} {env : Environment} {e : EnvRef} {n : String} {b : Binding}
    (h : (({ s with environments := s.environments.push env } : Store).frame e).get? n = some b) :
    (e = s.environments.size ∧ env.frame.get? n = some b) ∨ (s.frame e).get? n = some b := by
  rw [frame_push] at h
  split at h
  case isTrue he => exact Or.inl ⟨he, h⟩
  case isFalse => exact Or.inr h

end Store

/-- Work on a store that may fail. -/
abbrev Action := EStateM Error Store

namespace Action

def ofExcept {α : Type} : Except Error α → Action α
  | .ok a => pure a
  | .error e => throw e

/-- Adds a line to the trail of the error that the action fails with. -/
def noting {α : Type} (line : Note) (action : Action α) : Action α :=
  EStateM.adaptExcept (Error.note line) action

@[simp] theorem run_ofExcept_ok {α : Type} (a : α) (s : Store) :
    (ofExcept (.ok a)).run s = .ok a s := rfl

@[simp] theorem run_ofExcept_error {α : Type} (e : Error) (s : Store) :
    (ofExcept (.error e) : Action α).run s = .error e s := rfl

theorem run_noting_ok {α : Type} {line : Note} {action : Action α} {s t : Store} {a : α}
    (h : action.run s = .ok a t) : (noting line action).run s = .ok a t := by
  simp only [EStateM.run] at h
  simp only [noting, EStateM.adaptExcept, EStateM.run, h]

theorem run_noting_error {α : Type} {line : Note} {action : Action α} {s t : Store} {e : Error}
    (h : action.run s = .error e t) : (noting line action).run s = .error (e.note line) t := by
  simp only [EStateM.run] at h
  simp only [noting, EStateM.adaptExcept, EStateM.run, h]

section Run

variable {α : Type} {a : Action α} {s t : Store}

theorem run_bind_eq_ok {β : Type} {f : α → Action β} {v : β}
    (h : (a >>= f).run s = .ok v t) : ∃ x u, a.run s = .ok x u ∧ (f x).run u = .ok v t := by
  rw [EStateM.run_bind] at h
  cases ha : a.run s with
  | ok x u => rw [ha] at h; exact ⟨x, u, rfl, h⟩
  | error x u => rw [ha] at h; cases h

theorem run_bind_eq_error_iff {β : Type} {f : α → Action β} {x : Error} :
    (a >>= f).run s = .error x t ↔
      a.run s = .error x t ∨ ∃ v u, a.run s = .ok v u ∧ (f v).run u = .error x t := by
  rw [EStateM.run_bind]
  cases ha : a.run s with
  | error y u => simp
  | ok v u =>
    constructor
    · exact fun h => Or.inr ⟨v, u, rfl, h⟩
    · rintro (h | ⟨w, u', hw, h⟩)
      · cases h
      · cases hw
        exact h

theorem run_bind_of_ok {β : Type} {f : α → Action β} {x : α} (h : a.run s = .ok x t) :
    (a >>= f).run s = (f x).run t := by
  rw [EStateM.run_bind, h]

theorem run_of_noting_ok {line : Note} {v : α} (h : (noting line a).run s = .ok v t) :
    a.run s = .ok v t := by
  cases ha : a.run s with
  | ok u t' => rw [← h, run_noting_ok ha]
  | error x t' => rw [run_noting_error ha] at h; cases h

theorem run_noting_congr {b : Action α} (line : Note) (h : a.run s = b.run t) :
    (noting line a).run s = (noting line b).run t := by
  simp only [EStateM.run] at h
  simp only [noting, EStateM.adaptExcept, EStateM.run, h]

end Run

end Action
end LexicalLisp
