import LexicalLisp.Proofs.Chain
import LexicalLisp.Proofs.Correspondence

/-!
# The global environment

A global environment is a root that binds the name of every primitive. It is made with
the primitives themselves; later a name may be bound to something else, but it stays bound.
-/
namespace LexicalLisp

/-- What the global environment binds the name of a primitive to. -/
def Primitive.binding (p : Primitive) : Binding := .slot ⟨.fn, .builtin p.name (.primitive p)⟩

theorem Primitive.eq_of_value_binding {p q : Primitive} {code : Code}
    (h : q.binding.value = .builtin p.name code) : code = .primitive p := by
  simp only [binding, Binding.value, Value.builtin.injEq] at h
  obtain ⟨hname, rfl⟩ := h
  rw [name_injective hname]

/-- The frame of a new global environment. -/
def Frame.global : Frame := Primitive.all.foldl (fun f p => f.put p.name p.binding) {}

namespace Frame

/-- Every name in the frame is that of a primitive and stands for it. -/
def Standard (f : Frame) : Prop :=
  ∀ entry ∈ f.entries, ∃ p : Primitive, p.name = entry.1 ∧ entry.2 = p.binding

theorem Standard.foldl {f : Frame} (hf : f.Standard) (ps : List Primitive) :
    (ps.foldl (fun f p => f.put p.name p.binding) f).Standard := by
  induction ps generalizing f with
  | nil => exact hf
  | cons p ps ih =>
    refine ih fun entry hentry => ?_
    rcases mem_put hentry with rfl | hentry
    · exact ⟨p, rfl, rfl⟩
    · exact hf entry hentry

theorem standard_global : global.Standard := by
  refine Standard.foldl ?_ Primitive.all
  intro entry hentry
  cases hentry

/-- A builtin that bears the name of a primitive is that primitive: the host has put no
function of its own in its place. -/
def Genuine (f : Frame) : Prop :=
  ∀ n b (p : Primitive) code, f.get? n = some b → b.value = .builtin p.name code →
    code = .primitive p

theorem genuine_empty : Genuine {} := by
  intro n b p code hb
  cases hb

theorem Genuine.put {f : Frame} (hf : f.Genuine) (n : String) (q : Primitive) :
    (f.put n q.binding).Genuine := by
  intro m b p code hb hv
  rw [get?_put] at hb
  split at hb
  case isTrue =>
    cases hb
    exact Primitive.eq_of_value_binding hv
  case isFalse => exact hf m b p code hb hv

theorem Standard.genuine {f : Frame} (hf : f.Standard) : f.Genuine := by
  intro n b p code hb hv
  obtain ⟨q, -, rfl⟩ := hf (n, b) (mem_of_get? hb)
  exact Primitive.eq_of_value_binding hv

theorem Standard.variables {f : Frame} {data : Value → Prop} (hf : f.Standard)
    (hdata : ∀ p : Primitive, data (.builtin p.name (.primitive p))) : f.Variables data := by
  intro entry hentry
  obtain ⟨p, -, hbinding⟩ := hf entry hentry
  exact ⟨_, hbinding, rfl, hdata p⟩

end Frame

namespace Store

theorem bind_push (s : Store) (env : Environment) (n : String) (b : Binding) :
    ({ s with environments := s.environments.push env } : Store).bind s.environments.size n b =
      { s with environments := s.environments.push { env with frame := env.frame.put n b } } := by
  simp only [bind, Store.mk.injEq, and_true]
  apply Array.ext_getElem?
  intro i
  rw [Array.getElem?_modify, Array.getElem?_push, Array.getElem?_push]
  by_cases hi : i = s.environments.size
  · simp [hi]
  · simp [hi, Ne.symm hi]

theorem run_register_all (s : Store) (f : Frame) (role : Role) (ps : List Primitive) :
    (ps.forM fun p => EnvRef.register s.environments.size p.name (.primitive p)).run
        { s with environments := s.environments.push ⟨f, role⟩ } =
      .ok () { s with
        environments :=
          s.environments.push ⟨ps.foldl (fun f p => f.put p.name p.binding) f, role⟩ } := by
  induction ps generalizing f with
  | nil => rfl
  | cons p ps ih =>
    rw [List.forM, EStateM.run_bind, EnvRef.run_register, bind_push]
    exact ih (f.put p.name p.binding)

theorem run_createGlobal (s : Store) :
    Environment.createGlobal.run s =
      .ok s.environments.size
        { s with environments := s.environments.push ⟨Frame.global, .root⟩ } := by
  have h := run_register_all s {} .root Primitive.all
  simp only [Environment.createGlobal, Environment.createRoot, EStateM.run_bind,
    Environment.run_create, h]
  rfl

/-- The environment is a root and binds the name of every primitive. -/
structure IsGlobal (s : Store) (root : EnvRef) : Prop where
  isRoot : s.environments[root]?.map Environment.role = some .root
  binds : ∀ p : Primitive, (s.frame root).binds p.name = true

/-- No environment of the chain has another function under the name of a primitive builtin. -/
def Genuine (s : Store) (e : EnvRef) : Prop := ∀ d, s.Encloses d e → (s.frame d).Genuine

theorem IsGlobal.exists_lookup? {s : Store} {root e : EnvRef} (h : s.IsGlobal root)
    (he : s.Encloses root e) (p : Primitive) : ∃ v, s.lookup? p.name e = some v :=
  exists_lookup?_of_encloses he (h.binds p)

end Store
end LexicalLisp
