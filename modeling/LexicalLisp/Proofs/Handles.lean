import LexicalLisp.Proofs.Insertion
import LexicalLisp.Proofs.Mentions

/-!
# Handles that exist

A handle is the place of a function in the store, so it should be a place that the store has. In a
store without dangling handles nothing has to be renamed when functions are added at the end.
-/
namespace LexicalLisp

namespace Value

/-- The value is no handle on a function at this place or behind it. -/
def isBelow (n : Nat) : Value → Bool
  | .function f => f.index < n
  | _ => true

/-- All function handles in the value are on places before this one. -/
def Within (n : Nat) (v : Value) : Prop := v.throughout (isBelow n) = true

theorem Within.mono {n m : Nat} (h : n ≤ m) {v : Value} (hv : v.Within n) : v.Within m := by
  refine throughout_imp (fun u hu => ?_) hv
  cases u with
  | function f =>
    simp only [isBelow, decide_eq_true_eq] at hu ⊢
    omega
  | _ => rfl

theorem within_iff {n : Nat} {v : Value} : v.Within n ↔ ∀ i, v.Mentions i → i < n := by
  have htest : isBelow n = onHandles fun i => decide (i < n) := by
    funext u
    cases u <;> rfl
  rw [Within, htest, throughout_onHandles_iff]
  simp only [decide_eq_true_eq]

theorem not_mentions_of_within {v : Value} (h : v.Within 0) (i : Nat) : ¬ v.Mentions i :=
  fun hi => Nat.not_lt_zero i (within_iff.1 h i hi)

section Rename

variable {n : Nat} {σ : Nat → Nat} (hσ : ∀ i < n, σ i = i)
include hσ

theorem rename_of_within {v : Value} (h : v.Within n) : v.rename σ = v :=
  rename_of_mentions fun i hi => hσ i (within_iff.1 h i hi)

theorem map_rename_of_within {vs : List Value} (h : ∀ v ∈ vs, v.Within n) :
    vs.map (rename σ) = vs :=
  map_rename_eq_self_iff.2 fun v hv => rename_of_within hσ (h v hv)

end Rename
end Value

/-! ### Stores -/

def Frame.Within (n : Nat) (f : Frame) : Prop := ∀ entry ∈ f.entries, entry.2.value.Within n

def Closure.Within (n : Nat) (c : Closure) : Prop := ∀ o ∈ c.overloads, ∀ x ∈ o.body, x.Within n

def Role.body : Role → List Value
  | .root => []
  | .scope body _ => body

def Environment.Within (n : Nat) (env : Environment) : Prop :=
  env.frame.Within n ∧ ∀ x ∈ env.role.body, x.Within n

/-- Every handle in the store is on a function that the store has. -/
structure Store.Sound (s : Store) : Prop where
  environments : ∀ env ∈ s.environments, env.Within s.closures.size
  closures : ∀ c ∈ s.closures, c.Within s.closures.size

namespace Store

variable {s : Store} {n : Nat}

theorem within_of_get? (h : ∀ env ∈ s.environments, env.Within n) {e : EnvRef} {name : String}
    {b : Binding} (hb : (s.frame e).get? name = some b) : b.value.Within n := by
  unfold frame at hb
  split at hb
  case h_1 env henv =>
    exact (h env (Array.mem_of_getElem? henv)).1 (name, b) (Frame.mem_of_get? hb)
  case h_2 => cases hb

theorem sound_of_within (hn : n ≤ s.closures.size)
    (henvironments : ∀ env ∈ s.environments, env.Within n)
    (hclosures : ∀ c ∈ s.closures, c.Within n) : s.Sound where
  environments env henv := by
    obtain ⟨hframe, hbody⟩ := henvironments env henv
    exact ⟨fun entry hentry => (hframe entry hentry).mono hn, fun x hx => (hbody x hx).mono hn⟩
  closures c hc o ho x hx := (hclosures c hc o ho x hx).mono hn

end Store

section Rename

variable {n : Nat} {σ : Nat → Nat} (hσ : ∀ i < n, σ i = i)
include hσ

theorem Binding.rename_of_within {b : Binding} (h : b.value.Within n) : b.rename σ = b := by
  have hvalue := Value.rename_of_within hσ h
  cases b with
  | slot slot =>
    obtain ⟨kind, v⟩ := slot
    exact congrArg (fun u => Binding.slot ⟨kind, u⟩) hvalue
  | function f => exact congrArg Binding.function (Value.function.inj hvalue)

theorem Frame.rename_of_within {f : Frame} (h : f.Within n) : f.rename σ = f := by
  obtain ⟨entries⟩ := f
  have hid : ∀ entry ∈ entries, (entry.1, entry.2.rename σ) = entry := fun entry hentry => by
    rw [Binding.rename_of_within hσ (h entry hentry)]
  exact congrArg Frame.mk ((List.map_congr_left hid).trans (List.map_id' entries))

theorem Overload.rename_of_within {o : Overload} (h : ∀ x ∈ o.body, x.Within n) :
    o.rename σ = o := by
  rw [Overload.rename, Value.map_rename_of_within hσ h]

end Rename

/-! ### Insertions at the end -/

/-- Changing all elements of an array and adding others at the end is an insertion there. -/
theorem Gap.fills_append {α : Type} (f : α → α) (a : Array α) (xs : List α) :
    (Gap.mk a.size xs).Fills f a (a.map f ++ xs.toArray) where
  start_le := Nat.le_refl a.size
  size := by simp
  moved := by
    intro i
    by_cases hi : i < a.size
    · have hmapped : i < (a.map f).size := by simpa using hi
      rw [move_of_lt _ hi, Array.getElem?_append_left hmapped, Array.getElem?_map]
    · have hle : a.size ≤ i := by omega
      rw [move_of_le _ hle, Array.getElem?_eq_none hle, Array.getElem?_eq_none (by simp; omega)]
      rfl
  filled := by
    intro k hk
    have hsize : (a.map f).size = a.size := Array.size_map
    have hle : (a.map f).size ≤ a.size + k := by omega
    rw [Array.getElem?_append_right hle, hsize, Nat.add_sub_cancel_left, List.getElem?_toArray]

theorem Gap.fills_append_of_eq {α : Type} {f : α → α} {a : Array α} (h : ∀ x ∈ a, f x = x)
    (xs : List α) : (Gap.mk a.size xs).Fills f a (a ++ xs.toArray) := by
  have hmap : a.map f = a := (Array.map_congr_left h).trans (Array.map_id' a)
  have hfills := Gap.fills_append f a xs
  rwa [hmap] at hfills

namespace Insertion

variable {I : Insertion} {n : Nat} (hfn : ∀ i < n, I.fn i = i)
include hfn

/-- An environment stays what it is if all that it refers to keeps its name. -/
theorem environment_eq_self {env : Environment} (henv : env.Within n)
    (hparent : ∀ p, env.role.parent? = some p → I.env p = p) : I.environment env = env := by
  obtain ⟨frame, role⟩ := env
  obtain ⟨hframe, hbody⟩ := henv
  have hrole : I.role role = role := by
    cases role with
    | root => rfl
    | scope body parent =>
      have hbody : body.map I.value = body := Value.map_rename_of_within hfn hbody
      rw [Insertion.role, hbody]
      cases parent with
      | none => rfl
      | some p => rw [Option.map_some, hparent p rfl]
  rw [environment, hrole, Frame.rename_of_within hfn hframe]

theorem closure_eq_self {c : Closure} (hc : c.Within n) (hhome : I.env c.home = c.home) :
    I.closure c = c := by
  have hsame : ∀ o ∈ c.overloads, o.rename I.fn = o := fun o ho =>
    Overload.rename_of_within hfn (hc o ho)
  rw [closure, List.map_congr_left hsame, List.map_id', hhome]

end Insertion

namespace Store

/-- One function more behind all others, and no environment. -/
def plus (s : Store) (c : Closure) : Insertion :=
  ⟨⟨s.environments.size, []⟩, ⟨s.closures.size, [c]⟩⟩

@[simp] theorem env_plus (s : Store) (c : Closure) (e : EnvRef) : (s.plus c).env e = e := by
  show (Gap.mk s.environments.size []).move e = e
  unfold Gap.move
  split <;> rfl

theorem fn_plus_of_lt {s : Store} {i : Nat} (h : i < s.closures.size) (c : Closure) :
    (s.plus c).fn i = i := Gap.move_of_lt _ h

/-- With one function more a sound store is the same but for that function. -/
theorem Sound.relates_plus {s : Store} (h : s.Sound) (c : Closure) :
    (s.plus c).Relates s { s with closures := s.closures.push c } where
  environments := by
    have hsame : ∀ env ∈ s.environments, (s.plus c).environment env = env := fun env henv =>
      Insertion.environment_eq_self (fun _ hi => fn_plus_of_lt hi c) (h.environments env henv)
        fun p _ => env_plus s c p
    have hfills := Gap.fills_append_of_eq hsame []
    rwa [Array.append_empty] at hfills
  closures := by
    have hsame : ∀ d ∈ s.closures, (s.plus c).closure d = d := fun d hd =>
      Insertion.closure_eq_self (fun _ hi => fn_plus_of_lt hi c) (h.closures d hd)
        (env_plus s c d.home)
    exact Gap.fills_append_of_eq hsame [c]

end Store
end LexicalLisp
