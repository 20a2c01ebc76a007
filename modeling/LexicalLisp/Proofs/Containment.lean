import LexicalLisp.Proofs.Effect
import LexicalLisp.Proofs.Global

/-!
# Lexical containment

Evaluation in an environment adds bindings to the frame of that environment and of no other,
and adds overloads to the functions bound in that frame and to no others. Elsewhere it reaches
the values of variables and nothing else. A binding is never removed, and a variable never
becomes a function or changes its kind.

What is `Contained` in a set of environments has this effect for these environments. The new
scope of a `let` body or of a call is contained in no environment that existed before.
-/
namespace LexicalLisp

/-- What a binding is, apart from the value of a variable. -/
inductive Shape where
  | variable (kind : Kind)
  | function (f : FunctionRef)
  deriving DecidableEq

def Binding.shape : Binding → Shape
  | .slot s => .variable s.kind
  | .function f => .function f

def Frame.shape? (f : Frame) (name : String) : Option Shape := (f.get? name).map Binding.shape

namespace Frame

theorem isSome_shape? (f : Frame) (n : String) : (f.shape? n).isSome = f.binds n := by
  simp [shape?, binds]

end Frame

namespace Store

/-- The role of an environment, if there is the environment. -/
def role? (s : Store) (e : EnvRef) : Option Role := s.environments[e]?.map Environment.role

theorem parent?_eq_role? (s : Store) (e : EnvRef) :
    s.parent? e = (s.role? e).bind Role.parent? := by
  cases h : s.environments[e]? <;> simp [parent?, role?, h]

@[simp] theorem role?_bind (s : Store) (e d : EnvRef) (n : String) (b : Binding) :
    (s.bind e n b).role? d = s.role? d := by
  unfold role?
  rw [getElem?_bind]
  split
  · cases s.environments[d]? <;> rfl
  · rfl

theorem shape?_bind (s : Store) (e d : EnvRef) (n m : String) (b : Binding) :
    ((s.bind e n b).frame d).shape? m =
      if e < s.environments.size ∧ e = d ∧ n = m then some b.shape else (s.frame d).shape? m := by
  unfold Frame.shape?
  rw [get?_frame_bind]
  split <;> rfl

/-- What is bound keeps its shape if the name was not bound before, or had that shape. -/
theorem shape?_bind_of_some {s : Store} {e : EnvRef} {n : String} {b : Binding}
    (hnew : ∀ sh, (s.frame e).shape? n = some sh → b.shape = sh) {d : EnvRef} {m : String}
    {sh : Shape} (hsh : (s.frame d).shape? m = some sh) :
    ((s.bind e n b).frame d).shape? m = some sh := by
  rw [shape?_bind]
  split
  case isTrue h =>
    obtain ⟨-, rfl, rfl⟩ := h
    rw [hnew sh hsh]
  case isFalse => exact hsh

/-- Giving a variable another value changes no shape. -/
theorem shape?_bind_slot {s : Store} {o : EnvRef} {n : String} {slot : Slot}
    (h : (s.frame o).get? n = some (.slot slot)) (v : Value) (d : EnvRef) (m : String) :
    ((s.bind o n (.slot { slot with value := v })).frame d).shape? m = (s.frame d).shape? m := by
  rw [shape?_bind]
  split
  case isTrue hd =>
    obtain ⟨-, rfl, rfl⟩ := hd
    simp [Frame.shape?, h, Binding.shape]
  case isFalse => rfl

/-- What leads from the first store to the second adds to the frames of the environments `own`
only, and to the functions bound there. -/
structure Contained (own : EnvRef → Prop) (s t : Store) : Prop where
  size_environments : s.environments.size ≤ t.environments.size
  size_closures : s.closures.size ≤ t.closures.size
  role : ∀ d, d < s.environments.size → t.role? d = s.role? d
  permanent : ∀ d n b, (s.frame d).shape? n = some b → (t.frame d).shape? n = some b
  shape : ∀ d, d < s.environments.size → ¬ own d → ∀ n, (t.frame d).shape? n = (s.frame d).shape? n
  /-- A function that is newly bound, in whichever environment, is new itself. -/
  function : ∀ d n f, (t.frame d).get? n = some (.function f) →
    (s.frame d).get? n = some (.function f) ∨ s.closures.size ≤ f.index
  closure : ∀ i, i < s.closures.size →
    (∀ d n f, own d → (s.frame d).get? n = some (.function f) → f.index ≠ i) →
      t.closures[i]? = s.closures[i]?

namespace Contained

variable {own own' : EnvRef → Prop} {s t u : Store}

theorem refl (own : EnvRef → Prop) (s : Store) : Contained own s s where
  size_environments := Nat.le_refl _
  size_closures := Nat.le_refl _
  role _ _ := rfl
  permanent _ _ _ h := h
  shape _ _ _ _ := rfl
  function _ _ _ h := Or.inl h
  closure _ _ _ := rfl

theorem trans (h : Contained own s t) (h' : Contained own t u) : Contained own s u where
  size_environments := Nat.le_trans h.size_environments h'.size_environments
  size_closures := Nat.le_trans h.size_closures h'.size_closures
  role d hd := by
    have hd' := Nat.lt_of_lt_of_le hd h.size_environments
    rw [h'.role d hd', h.role d hd]
  permanent d n b hb := h'.permanent d n b (h.permanent d n b hb)
  shape d hd hown n := by
    have hd' := Nat.lt_of_lt_of_le hd h.size_environments
    rw [h'.shape d hd' hown n, h.shape d hd hown n]
  function d n f hf := by
    rcases h'.function d n f hf with hf | hf
    · exact h.function d n f hf
    · exact Or.inr (Nat.le_trans h.size_closures hf)
  closure i hi hfree := by
    have hi' := Nat.lt_of_lt_of_le hi h.size_closures
    -- what the frames bind in the meantime is new, so it is not this closure
    have hfree' : ∀ d n f, own d → (t.frame d).get? n = some (.function f) → f.index ≠ i := by
      intro d n f hd hf
      rcases h.function d n f hf with hf | hf
      · exact hfree d n f hd hf
      · omega
    rw [h'.closure i hi' hfree', h.closure i hi hfree]

theorem mono (h : Contained own s t) (hown : ∀ d, own d → own' d) : Contained own' s t :=
  { h with
    shape := fun d hd hnot => h.shape d hd fun hd' => hnot (hown d hd')
    closure := fun i hi hfree => h.closure i hi fun d n f hd => hfree d n f (hown d hd) }

/-! ### Single updates -/

theorem bind {e : EnvRef} {n : String} {b : Binding}
    (hnew : ∀ sh, (s.frame e).shape? n = some sh → b.shape = sh)
    (hb : ∀ f, b = .function f → s.closures.size ≤ f.index) :
    Contained (· = e) s (s.bind e n b) where
  size_environments := by simp
  size_closures := by simp
  role d _ := role?_bind s e d n b
  permanent _ _ _ hsh := shape?_bind_of_some hnew hsh
  shape d _ hd m := by
    rw [shape?_bind, if_neg]
    rintro ⟨-, rfl, -⟩
    exact hd rfl
  function d m f hf := by
    rcases get?_of_bind hf with ⟨-, -, hf⟩ | hf
    · exact Or.inr (hb f hf)
    · exact Or.inl hf
  closure _ _ _ := rfl

theorem assign {o : EnvRef} {n : String} {slot : Slot} {v : Value}
    (h : (s.frame o).get? n = some (.slot slot)) :
    Contained own s (s.bind o n (.slot { slot with value := v })) where
  size_environments := by simp
  size_closures := by simp
  role d _ := role?_bind s o d n _
  permanent d m sh hsh := (shape?_bind_slot h v d m).trans hsh
  shape d _ _ m := shape?_bind_slot h v d m
  function d m f hf := by
    rcases get?_of_bind hf with ⟨-, -, hf⟩ | hf
    · cases hf
    · exact Or.inl hf
  closure _ _ _ := rfl

theorem push_closure (c : Closure) :
    Contained own s { s with closures := s.closures.push c } where
  size_environments := Nat.le_refl _
  size_closures := by simp
  role _ _ := rfl
  permanent _ _ _ h := h
  shape _ _ _ _ := rfl
  function _ _ _ h := Or.inl h
  closure i hi _ := by
    have hne : i ≠ s.closures.size := by omega
    simp [Array.getElem?_push, hne]

theorem modify_closure {e : EnvRef} {n : String} {f : FunctionRef} (g : Closure → Closure)
    (hf : (s.frame e).get? n = some (.function f)) :
    Contained (· = e) s { s with closures := s.closures.modify f.index g } where
  size_environments := Nat.le_refl _
  size_closures := by simp
  role _ _ := rfl
  permanent _ _ _ h := h
  shape _ _ _ _ := rfl
  function _ _ _ h := Or.inl h
  closure i _ hfree := by
    have hne : f.index ≠ i := hfree e n f rfl hf
    simp [Array.getElem?_modify, hne]

/-! ### New scopes -/

/-- What happens in a new environment that binds variables only is contained in no environment
that existed before. -/
theorem of_push {env : Environment} (henv : env.frame.Variables fun _ => True)
    (h : Contained (· = s.environments.size)
      { s with environments := s.environments.push env } t) :
    Contained (fun _ => False) s t := by
  -- the new environment has a new place
  have hframe : ∀ d, d < s.environments.size →
      ({ s with environments := s.environments.push env } : Store).frame d = s.frame d := by
    intro d hd
    rw [frame_push, if_neg (Nat.ne_of_lt hd)]
  have hrole : ∀ d, d < s.environments.size →
      ({ s with environments := s.environments.push env } : Store).role? d = s.role? d := by
    intro d hd
    rw [role?, role?, Array.getElem?_push, if_neg (Nat.ne_of_lt hd)]
  have hlt : ∀ d, d < s.environments.size →
      d < ({ s with environments := s.environments.push env } : Store).environments.size := by
    intro d hd
    rw [Array.size_push]
    exact Nat.lt_succ_of_lt hd
  have hvar : ∀ n f, env.frame.get? n ≠ some (.function f) := by
    intro n f hf
    obtain ⟨slot, hslot, -⟩ := henv.of_get? hf
    cases hslot
  have hsize := h.size_environments
  rw [Array.size_push] at hsize
  constructor
  case size_environments => omega
  case size_closures => exact h.size_closures
  case role =>
    intro d hd
    rw [h.role d (hlt d hd), hrole d hd]
  case permanent =>
    intro d n b hb
    have hbinds : (s.frame d).binds n = true := by
      rw [← Frame.isSome_shape?, hb]
      rfl
    have hd : d < s.environments.size := lt_size_of_binds hbinds
    refine h.permanent d n b ?_
    rw [hframe d hd]
    exact hb
  case shape =>
    intro d hd _ n
    have hne : d ≠ s.environments.size := Nat.ne_of_lt hd
    rw [h.shape d (hlt d hd) hne n, hframe d hd]
  case function =>
    intro d n f hf
    rcases h.function d n f hf with hf | hf
    · rcases get?_of_push hf with ⟨-, hf⟩ | hf
      · exact absurd hf (hvar n f)
      · exact Or.inl hf
    · exact Or.inr hf
  case closure =>
    intro i hi _
    refine h.closure i hi ?_
    rintro d n f rfl hf
    rw [frame_push, if_pos rfl] at hf
    exact absurd hf (hvar n f)

end Contained

/-- Evaluation is contained in its environment. -/
theorem contained_effect : Effect fun e s t => Contained (· = e) s t where
  refl e s := Contained.refl _ s
  trans := Contained.trans
  define := by
    intro e s n slot hb _
    refine Contained.bind (fun sh hsh => ?_) (fun f hf => by cases hf)
    rw [← Frame.isSome_shape?, hsh] at hb
    cases hb
  assign _ h _ := Contained.assign h
  lambda _ := Contained.push_closure _
  defun := by
    intro e s n o hb _
    have hbind : Contained (· = e) s (s.bind e n (.function ⟨n, s.closures.size⟩)) := by
      refine Contained.bind (fun sh hsh => ?_) fun f hf => ?_
      · simp [Frame.shape?, hb] at hsh
      · cases hf
        exact Nat.le_refl _
    exact hbind.trans (Contained.push_closure ⟨[o], e⟩)
  overload hf _ _ := Contained.modify_closure _ hf
  enter hf h := (Contained.of_push hf h).mono fun _ hd => hd.elim

namespace Contained

variable {own : EnvRef → Prop} {s t : Store}

/-- An environment that does not exist has no bindings to add to. -/
theorem of_size_le {e : EnvRef} (he : s.environments.size ≤ e) (h : Contained (· = e) s t) :
    Contained (fun _ => False) s t := by
  have hshape : ∀ d, d < s.environments.size → d ≠ e := by
    rintro d hd rfl
    exact Nat.not_lt_of_le he hd
  have hnone : ∀ d n f, d = e → (s.frame d).get? n ≠ some (.function f) := by
    rintro d n f rfl hf
    have hbinds : (s.frame d).binds n = true := by simp [Frame.binds, hf]
    exact Nat.not_lt_of_le he (lt_size_of_binds hbinds)
  exact { h with
    shape := fun d hd _ => h.shape d hd (hshape d hd)
    closure := fun i hi _ => h.closure i hi fun d n f hd hf => absurd hf (hnone d n f hd) }

theorem parent? (h : Contained own s t) {d : EnvRef} (hd : d < s.environments.size) :
    t.parent? d = s.parent? d := by
  rw [parent?_eq_role?, h.role d hd, ← parent?_eq_role?]

end Contained

theorem contained_evalWithin (run : Runner) (levels : Nat) (expr : Value) (e : EnvRef) (s : Store) :
    Contained (· = e) s ((evalWithin run levels expr e).after s) :=
  contained_effect.after_evalWithin run levels expr e s

theorem contained_call (run : Runner) (levels : Nat) (f : FunctionRef) (args : List Value)
    (s : Store) : Contained (fun _ => False) s ((f.call (evalWithin run levels) args).after s) :=
  (contained_effect.after_call run levels f args s.environments.size s).of_size_le (Nat.le_refl _)

theorem contained_let_body (run : Runner) (levels : Nat) {l : Let} {e : EnvRef} {frame : Frame}
    {s u : Store}
    (hb : (Let.bindAll (evalWithin run levels) e l.bindings {}).run s = .ok frame u) :
    Contained (fun _ => False) u ((l.run (evalWithin run levels) e).after s) :=
  (contained_effect.after_let_body run levels hb u.environments.size).of_size_le (Nat.le_refl _)

end Store

/-- Whether it fails or not, evaluation in an environment leaves every other environment with its
names, what each of them is bound to but for the values of variables, and its parent, and leaves
every function with its overloads that is not bound in the environment's own frame. The calls of
functions and the bodies of `let` forms leave all environments and functions so. -/
theorem evaluation_is_contained (host : Host) (depth : Nat) (expr : Value) (e : EnvRef)
    (s : Store) :
    (∀ d, d < s.environments.size → d ≠ e →
      (∀ n, (((evalAt host depth expr e).after s).frame d).shape? n = (s.frame d).shape? n) ∧
        ((evalAt host depth expr e).after s).parent? d = s.parent? d) ∧
    (∀ i, i < s.closures.size →
      (∀ n f, (s.frame e).get? n = some (.function f) → f.index ≠ i) →
        ((evalAt host depth expr e).after s).closures[i]? = s.closures[i]?) ∧
    (∀ (f : FunctionRef) args,
      Store.Contained (fun _ => False) s ((f.call (evalAt host depth) args).after s)) ∧
    (∀ (l : Let) frame u, (Let.bindAll (evalAt host depth) e l.bindings {}).run s = .ok frame u →
      Store.Contained (fun _ => False) u ((l.run (evalAt host depth) e).after s)) := by
  have h := Store.contained_evalWithin (Code.run host) (maxDepth - depth) expr e s
  refine ⟨?_, ?_, ?_, ?_⟩
  · intro d hd hne
    exact ⟨h.shape d hd hne, h.parent? hd⟩
  · intro i hi hfree
    refine h.closure i hi ?_
    rintro d n f rfl hf
    exact hfree n f hf
  · intro f args
    exact Store.contained_call _ _ f args s
  · intro l frame u hb
    exact Store.contained_let_body _ _ hb

end LexicalLisp
