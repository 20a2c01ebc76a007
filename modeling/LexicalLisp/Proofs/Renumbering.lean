import Mathlib.Logic.Equiv.Basic
import LexicalLisp.Proofs.RepeatedLet

/-!
# Stores with other numbers

What evaluation makes gets the next free numbers, so the order of two evaluations shows in the
numbers of what they have made, even if they do not see one another. A renumbering permutes the
numbers of environments and those of functions. If two evaluations are exchanged that leave alone
what was there, then two blocks of new numbers change places.
-/
namespace LexicalLisp

/-! ### Renaming twice -/

namespace Value

mutual

theorem rename_rename (σ τ : Nat → Nat) : ∀ v : Value, (v.rename σ).rename τ = v.rename (τ ∘ σ)
  | .list vs => by simp only [rename, renameAll_renameAll σ τ vs]
  | .op o args => by simp only [rename, renameAll_renameAll σ τ args]
  | .function f => rfl
  | .number _ | .symbol _ | .string _ | .bool _ | .builtin _ _ | .unspecified => by
    simp only [rename]

theorem renameAll_renameAll (σ τ : Nat → Nat) :
    ∀ vs : List Value, renameAll τ (renameAll σ vs) = renameAll (τ ∘ σ) vs
  | [] => rfl
  | v :: vs => by simp only [renameAll, rename_rename σ τ v, renameAll_renameAll σ τ vs]

end

/-- Renamings that agree on the functions that a value mentions rename it alike. -/
theorem rename_congr {σ τ : Nat → Nat} :
    ∀ {v : Value}, (∀ i, v.Mentions i → σ i = τ i) → v.rename σ = v.rename τ
  | .list vs, h => by
    have helements : ∀ x ∈ vs, x.rename σ = x.rename τ := fun x hx =>
      rename_congr fun i hi => h i (.element hx hi)
    rw [rename_list, rename_list, List.map_congr_left helements]
  | .op o args, h => by
    have hargs : ∀ x ∈ args, x.rename σ = x.rename τ := fun x hx =>
      rename_congr fun i hi => h i (.operand hx hi)
    rw [rename_op, rename_op, List.map_congr_left hargs]
  | .function f, h => by
    rw [rename_function, rename_function, FunctionRef.rename, h f.index (.handle f.name)]
    rfl
  | .number _, _ | .symbol _, _ | .string _, _ | .bool _, _ => rfl
  | .builtin _ _, _ | .unspecified, _ => rfl

theorem Within.rename_congr {n : Nat} {σ τ : Nat → Nat} {v : Value} (h : v.Within n)
    (hσ : ∀ i < n, σ i = τ i) : v.rename σ = v.rename τ :=
  Value.rename_congr fun i hi => hσ i (within_iff.1 h i hi)

theorem map_rename_congr {n : Nat} {σ τ : Nat → Nat} {vs : List Value}
    (h : ∀ v ∈ vs, v.Within n) (hσ : ∀ i < n, σ i = τ i) :
    vs.map (rename σ) = vs.map (rename τ) :=
  List.map_congr_left fun v hv => (h v hv).rename_congr hσ

theorem map_rename_rename (σ τ : Nat → Nat) (vs : List Value) :
    (vs.map (rename σ)).map (rename τ) = vs.map (rename (τ ∘ σ)) := by
  rw [List.map_map]
  exact List.map_congr_left fun v _ => rename_rename σ τ v

theorem rename_id (v : Value) : v.rename id = v := rename_of_mentions fun _ _ => rfl

end Value

theorem Binding.rename_rename (σ τ : Nat → Nat) (b : Binding) :
    (b.rename σ).rename τ = b.rename (τ ∘ σ) := by
  cases b with
  | slot slot => simp only [rename, Slot.rename, Value.rename_rename]
  | function f => rfl

theorem Binding.rename_congr {n : Nat} {σ τ : Nat → Nat} {b : Binding} (h : b.value.Within n)
    (hσ : ∀ i < n, σ i = τ i) : b.rename σ = b.rename τ := by
  have hvalue := h.rename_congr hσ
  cases b with
  | slot slot =>
    simp only [rename, Slot.rename]
    rw [show slot.value.rename σ = slot.value.rename τ from hvalue]
  | function f => exact congrArg Binding.function (Value.function.inj hvalue)

theorem Frame.rename_rename (σ τ : Nat → Nat) (f : Frame) :
    (f.rename σ).rename τ = f.rename (τ ∘ σ) := by
  simp only [rename, List.map_map]
  exact congrArg Frame.mk (List.map_congr_left fun entry _ =>
    congrArg (Prod.mk entry.1) (Binding.rename_rename σ τ entry.2))

theorem Frame.rename_congr {n : Nat} {σ τ : Nat → Nat} {f : Frame} (h : f.Within n)
    (hσ : ∀ i < n, σ i = τ i) : f.rename σ = f.rename τ :=
  congrArg Frame.mk (List.map_congr_left fun entry hentry =>
    congrArg (Prod.mk entry.1) (Binding.rename_congr (h entry hentry) hσ))

/-! ### Environments and functions -/

def Role.rename (σ τ : Nat → Nat) : Role → Role
  | .root => .root
  | .scope body parent => .scope (body.map (Value.rename σ)) (parent.map τ)

/-- The environment with functions renamed by the first and environments by the second. -/
def Environment.rename (σ τ : Nat → Nat) (env : Environment) : Environment :=
  ⟨env.frame.rename σ, env.role.rename σ τ⟩

def Closure.rename (σ τ : Nat → Nat) (c : Closure) : Closure :=
  ⟨c.overloads.map (Overload.rename σ), τ c.home⟩

theorem Insertion.environment_eq_rename (I : Insertion) (env : Environment) :
    I.environment env = env.rename I.fn I.env := by
  obtain ⟨frame, role⟩ := env
  cases role <;> rfl

theorem Insertion.closure_eq_rename (I : Insertion) (c : Closure) :
    I.closure c = c.rename I.fn I.env := rfl

section Rename

variable {n : Nat} {σ σ' τ τ' : Nat → Nat}

theorem Environment.rename_rename (env : Environment) :
    (env.rename σ τ).rename σ' τ' = env.rename (σ' ∘ σ) (τ' ∘ τ) := by
  obtain ⟨frame, role⟩ := env
  cases role with
  | root => simp only [rename, Role.rename, Frame.rename_rename]
  | scope body parent =>
    simp only [rename, Role.rename, Frame.rename_rename, Value.map_rename_rename, Option.map_map]

theorem Environment.rename_congr {env : Environment} (h : env.Within n)
    (hσ : ∀ i < n, σ i = σ' i) (hτ : ∀ p, env.role.parent? = some p → τ p = τ' p) :
    env.rename σ τ = env.rename σ' τ' := by
  obtain ⟨frame, role⟩ := env
  have hframe := Frame.rename_congr h.1 hσ
  cases role with
  | root => simp only [rename, Role.rename, hframe]
  | scope body parent =>
    have hbody := Value.map_rename_congr h.2 hσ
    have hparent : parent.map τ = parent.map τ' := by
      cases parent with
      | none => rfl
      | some p => rw [Option.map_some, Option.map_some, hτ p rfl]
    simp only [rename, Role.rename, hframe, hparent]
    rw [show body.map (Value.rename σ) = body.map (Value.rename σ') from hbody]

theorem Closure.rename_rename (c : Closure) :
    (c.rename σ τ).rename σ' τ' = c.rename (σ' ∘ σ) (τ' ∘ τ) := by
  simp only [rename, List.map_map, Function.comp_apply]
  congr 1
  refine List.map_congr_left fun o _ => ?_
  simp only [Function.comp_apply, Overload.rename, Value.map_rename_rename]

theorem Closure.rename_congr {c : Closure} (h : c.Within n) (hσ : ∀ i < n, σ i = σ' i)
    (hτ : τ c.home = τ' c.home) : c.rename σ τ = c.rename σ' τ' := by
  simp only [rename, hτ]
  congr 1
  refine List.map_congr_left fun o ho => ?_
  rw [Overload.rename, Overload.rename, Value.map_rename_congr (h o ho) hσ]

end Rename

theorem Frame.rename_id (f : Frame) : f.rename id = f := by
  have h : ∀ entry ∈ f.entries, (entry.1, entry.2.rename id) = entry := fun entry _ => by
    obtain ⟨name, b⟩ := entry
    cases b with
    | slot slot => simp only [Binding.rename, Slot.rename, Value.rename_id]
    | function g => rfl
  exact congrArg Frame.mk ((List.map_congr_left h).trans (List.map_id' _))

theorem Environment.rename_id (env : Environment) : env.rename id id = env := by
  obtain ⟨frame, role⟩ := env
  cases role with
  | root => simp only [rename, Role.rename, Frame.rename_id]
  | scope body parent =>
    have hbody : body.map (Value.rename id) = body :=
      (List.map_congr_left fun v _ => v.rename_id).trans (List.map_id' body)
    simp only [rename, Role.rename, Frame.rename_id, hbody, Option.map_id, id_eq]

theorem Closure.rename_id (c : Closure) : c.rename id id = c := by
  have h : ∀ o ∈ c.overloads, o.rename id = o := fun o _ => by
    have hbody : o.body.map (Value.rename id) = o.body :=
      (List.map_congr_left fun v _ => v.rename_id).trans (List.map_id' _)
    rw [Overload.rename, hbody]
  rw [rename, List.map_congr_left h, List.map_id']
  rfl

/-! ### Renumberings -/

/-- New numbers for environments and for functions. -/
structure Renumbering where
  environments : Equiv.Perm Nat
  functions : Equiv.Perm Nat

namespace Renumbering

def environment (ρ : Renumbering) : Environment → Environment :=
  Environment.rename ρ.functions ρ.environments

def closure (ρ : Renumbering) : Closure → Closure :=
  Closure.rename ρ.functions ρ.environments

/-- All numbers that the store uses are kept. -/
structure Fixes (ρ : Renumbering) (s : Store) : Prop where
  environments : ∀ e < s.environments.size, ρ.environments e = e
  functions : ∀ i < s.closures.size, ρ.functions i = i

/-- The second store has what the first has, under other numbers. -/
structure Carries (ρ : Renumbering) (t t' : Store) : Prop where
  size_environments : t'.environments.size = t.environments.size
  size_closures : t'.closures.size = t.closures.size
  environment : ∀ e, t'.environments[ρ.environments e]? = t.environments[e]?.map ρ.environment
  closure : ∀ i, t'.closures[ρ.functions i]? = t.closures[i]?.map ρ.closure

def refl : Renumbering := ⟨.refl Nat, .refl Nat⟩

/-- The second renumbering after the first. -/
def trans (ρ ρ' : Renumbering) : Renumbering :=
  ⟨ρ.environments.trans ρ'.environments, ρ.functions.trans ρ'.functions⟩

variable {ρ ρ' : Renumbering} {s t t' t'' : Store}

theorem fixes_refl (s : Store) : refl.Fixes s := ⟨fun _ _ => rfl, fun _ _ => rfl⟩

theorem Fixes.trans (h : ρ.Fixes s) (h' : ρ'.Fixes s) : (ρ.trans ρ').Fixes s where
  environments e he := by
    show ρ'.environments (ρ.environments e) = e
    rw [h.environments e he, h'.environments e he]
  functions i hi := by
    show ρ'.functions (ρ.functions i) = i
    rw [h.functions i hi, h'.functions i hi]

theorem Fixes.rename_eq_self (h : ρ.Fixes s) {v : Value} (hv : v.Within s.closures.size) :
    v.rename ρ.functions = v :=
  Value.rename_of_within h.functions hv

theorem carries_refl (t : Store) : refl.Carries t t where
  size_environments := rfl
  size_closures := rfl
  environment e := by
    have hid : refl.environment = id := funext Environment.rename_id
    rw [hid, Option.map_id]
    rfl
  closure i := by
    have hid : refl.closure = id := funext Closure.rename_id
    rw [hid, Option.map_id]
    rfl

theorem Carries.trans (h : ρ.Carries t t') (h' : ρ'.Carries t' t'') :
    (ρ.trans ρ').Carries t t'' where
  size_environments := h'.size_environments.trans h.size_environments
  size_closures := h'.size_closures.trans h.size_closures
  environment e := by
    have hboth := h'.environment (ρ.environments e)
    rw [h.environment e, Option.map_map] at hboth
    refine hboth.trans (congrArg (Option.map · _) (funext fun env => ?_))
    exact Environment.rename_rename env
  closure i := by
    have hboth := h'.closure (ρ.functions i)
    rw [h.closure i, Option.map_map] at hboth
    refine hboth.trans (congrArg (Option.map · _) (funext fun c => ?_))
    exact Closure.rename_rename c

end Renumbering

/-! ### Blocks that change places -/

/-- Of the numbers from `n` on, the next `m` and the `k` behind them change places. -/
def blockSwap (n m k : Nat) : Equiv.Perm Nat where
  toFun i := if i < n then i else if i < n + m then i + k else if i < n + m + k then i - m else i
  invFun i := if i < n then i else if i < n + k then i + m else if i < n + m + k then i - k else i
  left_inv := by
    intro i
    dsimp only
    split_ifs <;> omega
  right_inv := by
    intro i
    dsimp only
    split_ifs <;> omega

section Blocks

variable {n m k i : Nat}

theorem blockSwap_of_lt (h : i < n) : blockSwap n m k i = i := if_pos h

theorem blockSwap_of_first (h : n ≤ i) (h' : i < n + m) : blockSwap n m k i = i + k := by
  show (if i < n then i else if i < n + m then i + k else _) = _
  rw [if_neg (by omega), if_pos h']

theorem blockSwap_of_second (h : n + m ≤ i) (h' : i < n + m + k) : blockSwap n m k i = i - m := by
  show (if i < n then i else if i < n + m then i + k else if i < n + m + k then i - m else i) = _
  rw [if_neg (by omega), if_neg (by omega), if_pos h']

theorem blockSwap_of_le (h : n + m + k ≤ i) : blockSwap n m k i = i := by
  show (if i < n then i else if i < n + m then i + k else if i < n + m + k then i - m else i) = _
  rw [if_neg (by omega), if_neg (by omega), if_neg (by omega)]

end Blocks

/-- What the second array has behind the places of the first. -/
def Gap.behind {α : Type} (a b : Array α) : Gap α := ⟨a.size, b.toList.drop a.size⟩

namespace Gap

variable {α : Type} {a b b' d d' : Array α} {f f' g : α → α} {i : Nat}

theorem length_behind (a b : Array α) : (behind a b).filling.length = b.size - a.size := by
  simp [behind]

theorem getElem?_behind (h : a.size ≤ i) : (behind a b).filling[i - a.size]? = b[i]? := by
  simp [behind, Nat.add_sub_cancel' h]

theorem move_behind_of_lt (h : i < a.size) : (behind a b).move i = i := move_of_lt _ h

theorem move_behind_of_le (h : a.size ≤ i) :
    (behind a b).move i = i + (b.size - a.size) := by
  rw [move_of_le _ (show (behind a b).start ≤ i from h), length_behind]

/-- An array that goes on has the same where it was filled. -/
theorem Fills.getElem?_of_behind (h : (behind a b).Fills f b' d) (hi : a.size ≤ i)
    (hi' : i < b.size) : d[i]? = b[i]? := by
  have hlength := length_behind a b
  have hfilled := h.filled (i - a.size) (by omega)
  rw [getElem?_behind hi, show (behind a b).start = a.size from rfl,
    Nat.add_sub_cancel' hi] at hfilled
  exact hfilled

/-- Two arrays go on from a third. If what the one has behind is inserted into the other, the blocks
stand the other way round than if it is done the other way round. -/
theorem Fills.blockSwap (hb : (behind a b).Fills f b' d) (hb' : (behind a b').Fills f' b d')
    (hab : ∀ i < a.size, b[i]? = a[i]?) (hab' : ∀ i < a.size, b'[i]? = a[i]?)
    (hle : a.size ≤ b.size) (hle' : a.size ≤ b'.size) (hold : ∀ x ∈ a, f' x = x)
    (hfirst : ∀ x ∈ b, g x = f' x) (hsecond : ∀ x ∈ b', g (f x) = x) (i : Nat) :
    d'[LexicalLisp.blockSwap a.size (b.size - a.size) (b'.size - a.size) i]? = d[i]?.map g := by
  have hsize := hb.size
  have hsize' := hb'.size
  rw [length_behind] at hsize hsize'
  have hmoved := hb.moved
  have hmoved' := hb'.moved
  by_cases h₁ : i < a.size
  · have hd := hmoved i
    have hd' := hmoved' i
    rw [move_behind_of_lt h₁, hab' i h₁] at hd
    rw [move_behind_of_lt h₁, hab i h₁] at hd'
    rw [blockSwap_of_lt h₁, hd, hd', Option.map_map]
    refine Option.map_congr fun x hx => ?_
    have hxb' : x ∈ b' := Array.mem_of_getElem? ((hab' i h₁).trans hx)
    rw [hold x (Array.mem_of_getElem? hx), Function.comp_apply, hsecond x hxb']
  have h₁ : a.size ≤ i := Nat.le_of_not_lt h₁
  by_cases h₂ : i < b.size
  · have hd' := hmoved' i
    rw [move_behind_of_le h₁] at hd'
    rw [blockSwap_of_first h₁ (by omega), hd', hb.getElem?_of_behind h₁ h₂]
    exact Option.map_congr fun x hx => (hfirst x (Array.mem_of_getElem? hx)).symm
  have h₂ : b.size ≤ i := Nat.le_of_not_lt h₂
  by_cases h₃ : i < b.size + (b'.size - a.size)
  · have hj : i - (b.size - a.size) < b'.size := by omega
    have hj' : a.size ≤ i - (b.size - a.size) := by omega
    have hd := hmoved (i - (b.size - a.size))
    rw [move_behind_of_le hj', Nat.sub_add_cancel (by omega)] at hd
    rw [blockSwap_of_second (by omega) (by omega), hb'.getElem?_of_behind hj' hj, hd,
      Option.map_map]
    cases hx : b'[i - (b.size - a.size)]? with
    | none => rfl
    | some x => exact congrArg some (hsecond x (Array.mem_of_getElem? hx)).symm
  · rw [blockSwap_of_le (by omega), Array.getElem?_eq_none (by omega),
      Array.getElem?_eq_none (by omega)]
    rfl

/-- Two arrays that are renumbered into one another go on in the same way. -/
theorem Fills.carries {π : Equiv.Perm Nat} {u u' : Array α} (h : (behind a u).Fills f b' d)
    (h' : (behind a u').Fills f' b' d') (hsize : u'.size = u.size) (hle : a.size ≤ u.size)
    (hold : ∀ i, u'[π i]? = u[i]?.map g) (hkept : ∀ i < u.size, d[i]? = u[i]?)
    (hkept' : ∀ i < u'.size, d'[i]? = u'[i]?) (hπ : ∀ i, u.size ≤ i → π i = i)
    (hf : ∀ x ∈ b', f' x = g (f x)) (i : Nat) : d'[π i]? = d[i]?.map g := by
  by_cases hi : i < u.size
  · have hlt : π i < u'.size := by
      have hx := hold i
      rw [Array.getElem?_eq_getElem hi, Option.map_some] at hx
      exact (Array.getElem?_eq_some_iff.1 hx).1
    rw [hkept' _ hlt, hkept i hi, hold i]
  · have hj : a.size ≤ i - (u.size - a.size) := by omega
    have hd := h.moved (i - (u.size - a.size))
    have hd' := h'.moved (i - (u.size - a.size))
    rw [move_behind_of_le hj, Nat.sub_add_cancel (by omega)] at hd
    rw [move_behind_of_le hj, hsize, Nat.sub_add_cancel (by omega)] at hd'
    rw [hπ i (by omega), hd, hd', Option.map_map]
    exact Option.map_congr fun x hx => hf x (Array.mem_of_getElem? hx)

end Gap
end LexicalLisp
