import LexicalLisp.Proofs.Depth
import LexicalLisp.Proofs.Global

/-!
# Applications of primitives

An application of a primitive is evaluated in one of two ways. A plain list evaluates its
head, which is the primitive's name, and applies what it gets. An operator application asks
first whether the name is shadowed, and applies the primitive at once if it is not. The two
have the same results, but the list needs one level more than the operator does.
-/
namespace LexicalLisp

/-- The action, of whose errors only the kind is kept. -/
def Action.kinds {α : Type} (a : Action α) : EStateM ErrorKind Store α :=
  EStateM.adaptExcept Error.kind a

namespace Action

variable {α : Type} {a : Action α} {s t : Store}

theorem run_kinds_ok {v : α} (h : a.run s = .ok v t) : a.kinds.run s = .ok v t := by
  simp only [EStateM.run] at h
  simp only [kinds, EStateM.adaptExcept, EStateM.run, h]

theorem run_kinds_error {x : Error} (h : a.run s = .error x t) :
    a.kinds.run s = .error x.kind t := by
  simp only [EStateM.run] at h
  simp only [kinds, EStateM.adaptExcept, EStateM.run, h]

theorem run_kinds_congr {b : Action α} (h : a.run s = b.run t) :
    a.kinds.run s = b.kinds.run t := by
  simp only [EStateM.run] at h
  simp only [kinds, EStateM.adaptExcept, EStateM.run, h]

theorem run_of_kinds_ok {v : α} (h : a.kinds.run s = .ok v t) : a.run s = .ok v t := by
  cases ha : a.run s with
  | ok u t' =>
    rw [run_kinds_ok ha] at h
    cases h
    rfl
  | error x t' =>
    rw [run_kinds_error ha] at h
    cases h

theorem kinds_noting (line : Note) (a : Action α) : (noting line a).kinds = a.kinds := by
  funext s
  cases ha : a.run s with
  | ok v t => exact (run_kinds_ok (run_noting_ok ha)).trans (run_kinds_ok ha).symm
  | error x t =>
    have hx : (noting line a).kinds.run s = .error (x.note line).kind t :=
      run_kinds_error (run_noting_error ha)
    rw [Error.kind_note] at hx
    exact hx.trans (run_kinds_error ha).symm

theorem kinds_bind {β : Type} (a : Action α) (f : α → Action β) :
    (a >>= f).kinds = a.kinds >>= fun x => (f x).kinds := by
  funext s
  have hbind : (a >>= f).kinds.run s = (a.kinds >>= fun x => (f x).kinds).run s := by
    rw [EStateM.run_bind]
    cases ha : a.run s with
    | ok x t =>
      rw [run_kinds_ok ha]
      exact run_kinds_congr (run_bind_of_ok ha)
    | error x t =>
      have hrun : (a >>= f).run s = .error x t := by rw [EStateM.run_bind, ha]
      rw [run_kinds_error ha, run_kinds_error hrun]
  exact hbind

end Action

theorem length_of_evalEach {eval : Evaluator} {xs vs : List Value} {e : EnvRef} {s t : Store}
    (h : (evalEach eval xs e).run s = .ok vs t) : vs.length = xs.length := by
  induction xs generalizing vs s t with
  | nil => cases h; rfl
  | cons x xs ih =>
    obtain ⟨v, u, -, h⟩ := Action.run_bind_eq_ok h
    obtain ⟨ws, u', hws, h⟩ := Action.run_bind_eq_ok h
    cases h
    simp [ih hws]

section Application

variable {run : Runner} {p : Primitive} {k : Kind} {args : List Value} {e : EnvRef} {s t : Store}
  {f v : Value}

theorem shadowing?_of_lookup? (h : s.lookup? p.name e = some f) :
    s.shadowing? p e = if f.isBuiltin p.name then none else some f := by
  simp only [Store.shadowing?, h]

theorem run_evalWithin_symbol {a : Symbol} (levels : Nat) (h : s.lookup? a.name e = some f) :
    (evalWithin run (levels + 1) (.symbol a) e).run s = .ok f s := by
  rw [evalWithin_succ]
  simp [step, h]

/-- A list whose head is a bound name applies what the name is bound to. -/
theorem run_evalWithin_list (levels : Nat) {n : String} (h : s.lookup? n e = some f) :
    (evalWithin run (levels + 2) (.list (.symbol ⟨n, k⟩ :: args)) e).run s =
      (Action.noting (.evaluating (.list (.symbol ⟨n, k⟩ :: args))) do
        let vs ← evalEach (evalWithin run levels) args e
        apply run (evalWithin run levels) f vs).run s := by
  have hhead : (evalWithin run (levels + 1) (.symbol ⟨n, k⟩) e).run s = .ok f s :=
    run_evalWithin_symbol levels h
  have hlist := Action.run_bind_of_ok hhead (f := fun f => do
    let vs ← evalEach (evalWithin run levels) args e
    apply run (evalWithin run levels) f vs)
  rw [evalWithin_succ, step_list, Nat.add_sub_cancel]
  exact Action.run_noting_congr _ hlist

/-- An operator application of a shadowed name applies what shadows it. -/
theorem run_evalWithin_op_of_shadowed (levels : Nat) (h : s.lookup? p.name e = some f)
    (hf : f.isBuiltin p.name = false) :
    (evalWithin run (levels + 2) (.op (.primitive p) args) e).run s =
      (do
        let vs ← evalEach (evalWithin run levels) args e
        Action.noting (.evaluating (.op (.primitive p) args))
          (apply run (evalWithin run levels) f vs)).run s := by
  have hs : s.shadowing? p e = some f := by simp [shadowing?_of_lookup? h, hf]
  rw [evalWithin_succ, Nat.add_sub_cancel]
  simp [step, hs]

/-- Any other operator application checks the argument count and runs the primitive. -/
theorem run_evalWithin_op_of_unshadowed (levels : Nat) (h : s.shadowing? p e = none) :
    (evalWithin run (levels + 1) (.op (.primitive p) args) e).run s =
      (evalPrimitive run (evalWithin run levels) p args e).run s := by
  rw [evalWithin_succ]
  simp [step, h]

theorem run_evalWithin_op (levels : Nat) (h : s.lookup? p.name e = some f)
    (hf : f.isBuiltin p.name = true) :
    (evalWithin run (levels + 1) (.op (.primitive p) args) e).run s =
      (evalPrimitive run (evalWithin run levels) p args e).run s :=
  run_evalWithin_op_of_unshadowed levels (by simp [shadowing?_of_lookup? h, hf])

/-- With a shadowed name the two forms differ in the trails of their errors at most. -/
theorem kinds_evalWithin_of_shadowed (run : Runner) (k : Kind) (args : List Value) (levels : Nat)
    (h : s.lookup? p.name e = some f) (hf : f.isBuiltin p.name = false) :
    (evalWithin run (levels + 2) (.list (.symbol ⟨p.name, k⟩ :: args)) e).kinds.run s =
      (evalWithin run (levels + 2) (.op (.primitive p) args) e).kinds.run s := by
  rw [Action.run_kinds_congr (run_evalWithin_list levels h),
    Action.run_kinds_congr (run_evalWithin_op_of_shadowed levels h hf), Action.kinds_noting,
    Action.kinds_bind, Action.kinds_bind]
  simp only [Action.kinds_noting]

/-- What the plain list gives, the operator application gives with as many levels. -/
theorem run_own_op_of_list {host : Host} (levels : Nat)
    (h : s.lookup? p.name e = some (.builtin p.name (.primitive p)))
    (hr : (evalWithin (Code.run host) (levels + 2)
      (.list (.symbol ⟨p.name, k⟩ :: args)) e).run s = .ok v t) :
    (evalWithin (Code.run host) (levels + 2) (.op (.primitive p) args) e).run s = .ok v t := by
  rw [run_evalWithin_list levels h] at hr
  obtain ⟨vs, u, hvs, hv⟩ := Action.run_bind_eq_ok (Action.run_of_noting_ok hr)
  have hlength := length_of_evalEach hvs
  have hmore := run_evalEach_mono (Nat.le_succ levels) hvs
  rw [run_evalWithin_op (levels + 1) h (by simp [Value.isBuiltin]), evalPrimitive]
  cases hn : p.arity.refusal? args.length with
  | some n =>
    -- the primitive itself would have refused as many values
    rw [← hlength] at hn
    have hrefused := Primitive.run_of_refused hn
    simp [apply, Code.run, hrefused] at hv
  | none =>
    simp only
    rw [Action.run_bind_of_ok hmore]
    exact hv

/-- What the operator application gives, the plain list gives with one level more. -/
theorem run_own_list_of_op {host : Host} (levels : Nat)
    (h : s.lookup? p.name e = some (.builtin p.name (.primitive p)))
    (hr : (evalWithin (Code.run host) (levels + 1) (.op (.primitive p) args) e).run s = .ok v t) :
    (evalWithin (Code.run host) (levels + 2)
      (.list (.symbol ⟨p.name, k⟩ :: args)) e).run s = .ok v t := by
  rw [run_evalWithin_op levels h (by simp [Value.isBuiltin]), evalPrimitive] at hr
  rw [run_evalWithin_list levels h]
  cases hn : p.arity.refusal? args.length with
  | some n =>
    rw [hn] at hr
    cases hr
  | none =>
    rw [hn] at hr
    obtain ⟨vs, u, hvs, hv⟩ := Action.run_bind_eq_ok hr
    refine Action.run_noting_ok ?_
    rw [Action.run_bind_of_ok hvs]
    exact hv

/-- A list with a head needs a level for itself and one for its head. -/
theorem two_le_of_run_list {levels : Nat} {x : Value}
    (hr : (evalWithin run levels (.list (x :: args)) e).run s = .ok v t) : 2 ≤ levels := by
  match levels with
  | 0 => cases hr
  | 1 => cases hr
  | n + 2 => omega

theorem one_le_of_run {levels : Nat} {x : Value}
    (hr : (evalWithin run levels x e).run s = .ok v t) : 1 ≤ levels := by
  cases levels with
  | zero => cases hr
  | succ n => omega

end Application

/-- A builtin under the name of the primitive is the primitive. -/
theorem Store.Genuine.eq_primitive {s : Store} {p : Primitive} {e : EnvRef} {f : Value}
    (hgen : s.Genuine e) (h : s.lookup? p.name e = some f) (hf : f.isBuiltin p.name = true) :
    f = .builtin p.name (.primitive p) := by
  obtain ⟨d, b, hd, hb, rfl⟩ := exists_binding_of_lookup? h
  cases hv : b.value with
  | builtin id code =>
    simp only [hv, Value.isBuiltin, beq_iff_eq] at hf
    subst hf
    rw [hgen d hd p.name b p code hb hv]
  | _ => simp [hv, Value.isBuiltin] at hf

/-- An operator application of a primitive and the plain list of its name and arguments agree
in every environment that lies in a global one and has no other function under the name of a
primitive builtin. What the list gives, the operator gives at the same depth; what the operator
gives, the list gives one level further out; and where the name is shadowed, even their errors
are of one kind. -/
theorem operator_agrees_with_list (host : Host) (p : Primitive) (k : Kind) (args : List Value)
    (e root : EnvRef) (s : Store) (depth : Nat) (he : s.Encloses root e) (hroot : s.IsGlobal root)
    (hgen : s.Genuine e) :
    (∀ v t, (evalAt host depth (.list (.symbol ⟨p.name, k⟩ :: args)) e).run s = .ok v t →
      (evalAt host depth (.op (.primitive p) args) e).run s = .ok v t) ∧
    (∀ v t, (evalAt host (depth + 1) (.op (.primitive p) args) e).run s = .ok v t →
      (evalAt host depth (.list (.symbol ⟨p.name, k⟩ :: args)) e).run s = .ok v t) ∧
    (depth + 1 < maxDepth → (∀ f, s.lookup? p.name e = some f → f.isBuiltin p.name = false) →
      (evalAt host depth (.list (.symbol ⟨p.name, k⟩ :: args)) e).kinds.run s =
        (evalAt host depth (.op (.primitive p) args) e).kinds.run s) := by
  obtain ⟨f, hf⟩ := hroot.exists_lookup? he p
  unfold evalAt
  cases hb : f.isBuiltin p.name with
  | true =>
    have hp : s.lookup? p.name e = some (.builtin p.name (.primitive p)) := by
      rw [hf, hgen.eq_primitive hf hb]
    refine ⟨?_, ?_, ?_⟩
    · intro v t hr
      obtain ⟨n, hn⟩ := Nat.exists_eq_add_of_le' (two_le_of_run_list hr)
      rw [hn] at hr ⊢
      exact run_own_op_of_list n hp hr
    · intro v t hr
      obtain ⟨n, hn⟩ := Nat.exists_eq_add_of_le' (one_le_of_run hr)
      have hn' : maxDepth - depth = n + 2 := by omega
      rw [hn] at hr
      rw [hn']
      exact run_own_list_of_op n hp hr
    · intro _ hshadow
      rw [hshadow f hf] at hb
      cases hb
  | false =>
    have hkinds := fun n => kinds_evalWithin_of_shadowed (Code.run host) k args n hf hb
    refine ⟨?_, ?_, ?_⟩
    · intro v t hr
      obtain ⟨n, hn⟩ := Nat.exists_eq_add_of_le' (two_le_of_run_list hr)
      rw [hn] at hr ⊢
      exact Action.run_of_kinds_ok (hkinds n ▸ Action.run_kinds_ok hr)
    · intro v t hr
      obtain ⟨n, hn⟩ := Nat.exists_eq_add_of_le' (one_le_of_run hr)
      have hn' : maxDepth - depth = n + 2 := by omega
      have hmore := run_evalWithin_mono (Nat.le_succ _) hr
      rw [hn] at hmore
      rw [hn']
      exact Action.run_of_kinds_ok ((hkinds n).trans (Action.run_kinds_ok hmore))
    · intro hdepth _
      obtain ⟨n, hn⟩ : ∃ n, maxDepth - depth = n + 2 := ⟨maxDepth - depth - 2, by omega⟩
      rw [hn]
      exact hkinds n

/-- A scope in a global environment that calls `cdr` by the name of `car`. -/
def Store.misnamed : Store :=
  { environments := #[
      ⟨Frame.global, .root⟩, ⟨Frame.put {} "car" Primitive.cdr.binding, .scope [] (some 0)⟩] }

theorem Store.genuine_misnamed : misnamed.Genuine 1 := by
  intro d _
  match d with
  | 0 => exact Frame.standard_global.genuine
  | 1 => exact Frame.genuine_empty.put "car" .cdr
  | _ + 2 => exact Frame.genuine_empty

theorem operator_agrees_with_list_of_misnamed :
    Store.misnamed.Encloses 0 1 ∧ Store.misnamed.IsGlobal 0 ∧ Store.misnamed.Genuine 1 ∧
      (evalAt (fun _ _ => .ok .unspecified) 0
        (.op (.primitive .car) [.op (.form .quote) [.list [.number 1, .number 2]]]) 1).run
          Store.misnamed = .ok (.list [.number 2]) Store.misnamed := by
  have he : Store.misnamed.Encloses 0 1 := ⟨1, rfl⟩
  have hroot : Store.misnamed.IsGlobal 0 := ⟨rfl, fun p => by cases p <;> rfl⟩
  have hgen := Store.genuine_misnamed
  refine ⟨he, hroot, hgen, ?_⟩
  exact (operator_agrees_with_list _ .car .any _ 1 0 Store.misnamed 0 he hroot hgen).1 _ _ rfl

end LexicalLisp
