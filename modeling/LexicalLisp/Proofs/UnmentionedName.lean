import LexicalLisp.Proofs.Evaluation
import LexicalLisp.Proofs.Global
import LexicalLisp.Proofs.Soundness

/-!
# Names that no code mentions

Code consults the environment where it stands for a variable, applies a primitive, assigns,
declares or defines. The head of a special form does not, and what is quoted does not. So if a name
stands in none of these places, neither in the expression nor in the body of any function, then it
may be bound to anything, anywhere, or not at all: evaluation does the same.
-/
namespace LexicalLisp

/-- Evaluating the expression may look the name up, declare it or assign to it. -/
inductive Value.Uses (z : String) : Value → Prop
  | here {x : Value} (h : x.mentioned? = some z) : Uses z x
  | part {x y : Value} (hy : y ∈ x.parts) (h : Uses z y) : Uses z x

/-- No function has the name in its code. -/
def Store.NeverUses (z : String) (s : Store) : Prop :=
  ∀ c ∈ s.closures, ∀ o ∈ c.overloads, ∀ x ∈ o.body, ¬ x.Uses z

/-! ### Stores that differ in a name -/

namespace Store

/-- The two stores differ at most in what the name is bound to in their environments, and in
whether it is. -/
structure SameBut (z : String) (s s' : Store) : Prop where
  roles : s'.environments.map Environment.role = s.environments.map Environment.role
  bindings : ∀ e n, n ≠ z → (s'.frame e).get? n = (s.frame e).get? n
  closures : s'.closures = s.closures

/-- Binding a name leaves bodies and parents as they are. -/
theorem roles_bind (s : Store) (e : EnvRef) (n : String) (b : Binding) :
    (s.bind e n b).environments.map Environment.role = s.environments.map Environment.role := by
  apply Array.ext_getElem?
  intro d
  rw [Array.getElem?_map, Array.getElem?_map, getElem?_bind]
  split
  · cases s.environments[d]? <;> rfl
  · rfl

theorem SameBut.bind_self (z : String) (s : Store) (e : EnvRef) (b : Binding) :
    s.SameBut z (s.bind e z b) where
  roles := roles_bind s e z b
  bindings d n hn := by
    rw [get?_frame_bind, if_neg]
    rintro ⟨-, -, h⟩
    exact hn h.symm
  closures := rfl

namespace SameBut

variable {z n : String} {s s' : Store} (hs : s.SameBut z s')
include hs

theorem size_environments : s'.environments.size = s.environments.size := by
  have h := congrArg Array.size hs.roles
  rwa [Array.size_map, Array.size_map] at h

theorem parent? (e : EnvRef) : s'.parent? e = s.parent? e := by
  have hrole : ∀ t : Store, t.parent? e = (t.environments.map Environment.role)[e]?.bind
      Role.parent? := by
    intro t
    rw [Store.parent?, Array.getElem?_map]
    cases t.environments[e]? <;> rfl
  rw [hrole, hrole, hs.roles]

theorem push_environment (env : Environment) :
    SameBut z { s with environments := s.environments.push env }
      { s' with environments := s'.environments.push env } where
  roles := by rw [Array.map_push, Array.map_push, hs.roles]
  bindings e n hn := by
    rw [frame_push, frame_push, hs.size_environments]
    split
    · rfl
    · exact hs.bindings e n hn
  closures := hs.closures

theorem with_closures (closures : Array Closure) :
    SameBut z { s with closures := closures } { s' with closures := closures } :=
  ⟨hs.roles, hs.bindings, rfl⟩

theorem bind (e : EnvRef) (n : String) (b : Binding) :
    SameBut z (s.bind e n b) (s'.bind e n b) where
  roles := by rw [roles_bind, roles_bind, hs.roles]
  bindings d m hm := by
    rw [get?_frame_bind, get?_frame_bind, hs.size_environments, hs.bindings d m hm]
  closures := hs.closures

variable (hn : n ≠ z)
include hn

theorem binds (e : EnvRef) : (s'.frame e).binds n = (s.frame e).binds n := by
  rw [Frame.binds, Frame.binds, hs.bindings e n hn]

theorem owner? (e : EnvRef) : s'.owner? n e = s.owner? n e := by
  have hwithin : ∀ links e, s'.ownerWithin n links e = s.ownerWithin n links e := by
    intro links
    induction links with
    | zero => exact fun _ => rfl
    | succ links ih =>
      intro e
      simp only [ownerWithin, hs.binds hn, hs.parent?, ih]
  rw [Store.owner?, hs.size_environments, hwithin, Store.owner?]

theorem lookup? (e : EnvRef) : s'.lookup? n e = s.lookup? n e := by
  have hlocal : s'.local? n = s.local? n := by
    funext d
    rw [local?, local?, hs.bindings d n hn]
  rw [Store.lookup?, Store.lookup?, hs.owner? hn, hlocal]

end SameBut
end Store

/-! ### Code without the name -/

namespace Value

variable {z : String} {x : Value}

theorem uses_iff : x.Uses z ↔ x.mentioned? = some z ∨ ∃ y ∈ x.parts, y.Uses z := by
  constructor
  · intro h
    cases h with
    | here h => exact Or.inl h
    | part hy h => exact Or.inr ⟨_, hy, h⟩
  · rintro (h | ⟨y, hy, h⟩)
    · exact .here h
    · exact .part hy h

end Value

namespace Store.NeverUses

variable {z : String} {s : Store} (h : s.NeverUses z) {o : Overload}
  (ho : ∀ x ∈ o.body, ¬ x.Uses z)
include h ho

theorem push_closure (e : EnvRef) :
    NeverUses z { s with closures := s.closures.push ⟨[o], e⟩ } := by
  intro c hc o' ho'
  rcases Array.mem_push.1 hc with hc | rfl
  · exact h c hc o' ho'
  · rw [List.mem_singleton.1 ho']
    exact ho

theorem overload (i : Nat) :
    NeverUses z { s with
      closures := s.closures.modify i fun c => { c with overloads := c.overloads ++ [o] } } := by
  refine forall_mem_modify i (fun c => { c with overloads := c.overloads ++ [o] }) h
    fun c hc o' ho' => ?_
  rcases List.mem_append.1 ho' with ho' | ho'
  · exact h c hc o' ho'
  · rw [List.mem_singleton.1 ho']
    exact ho

end Store.NeverUses

/-! ### Two evaluations -/

/-- Evaluations of code that never uses the name, in stores that differ in it only. -/
def indifference (z : String) : Correspondence where
  World := Unit
  name n := n ≠ z
  code _ x := ¬ x.Uses z
  data _ _ := True
  here _ _ := True
  related _ s s' := s.SameBut z s' ∧ s.NeverUses z
  grows _ _ _ := True
  cut _ := False

namespace indifference

variable {z n : String} {s s' : Store} {e : EnvRef}

section Agrees

variable {α : Type} {P : Unit → α → Prop} (hs : (indifference z).related () s s')
include hs

theorem agrees_ok {v : α} (hv : P () v) : (indifference z).Agrees e () P (.ok v s) (.ok v s') :=
  ⟨(), s', rfl, trivial, hs, hv⟩

theorem agrees_error (x : Error) :
    (indifference z).Agrees e () P (.error x s) (.error x s') :=
  Or.inr ⟨x, (), s', rfl, rfl, trivial, hs⟩

end Agrees

theorem follows_define (hn : n ≠ z) (slot : Slot) :
    (indifference z).Follows e () (fun _ _ => True) (e.define n slot) (e.define n slot) := by
  rintro s s' ⟨hsame, hcode⟩
  refine Correspondence.agrees_define (agrees_error ⟨hsame, hcode⟩) (hsame.binds hn e) ?_
  exact agrees_ok ⟨hsame.bind e n _, hcode⟩ trivial

theorem follows_assign (hn : n ≠ z) (v : Value) :
    (indifference z).Follows e () (fun _ _ => True) (e.assign n v) (e.assign n v) := by
  rintro s s' ⟨hsame, hcode⟩
  exact Correspondence.agrees_assign (agrees_error ⟨hsame, hcode⟩) (hsame.owner? hn e)
    (fun o _ => hsame.bindings o n hn) fun o _ _ => agrees_ok ⟨hsame.bind o n _, hcode⟩ trivial

theorem follows_overload (f : FunctionRef) {o : Overload} (ho : ∀ x ∈ o.body, ¬ x.Uses z) :
    (indifference z).Follows e () (fun _ _ => True) (f.overload o) (f.overload o) := by
  rintro s s' ⟨hsame, hcode⟩
  have harities : s'.arities f = s.arities f := by
    rw [Store.arities, Store.arities, hsame.closures]
  refine Correspondence.agrees_overload (agrees_error ⟨hsame, hcode⟩) (by rw [harities]) fun _ => ?_
  rw [hsame.closures]
  exact agrees_ok ⟨hsame.with_closures _, hcode.overload ho f.index⟩ trivial

theorem follows_defun (hn : n ≠ z) {o : Overload} (ho : ∀ x ∈ o.body, ¬ x.Uses z) :
    (indifference z).Follows e () (fun _ _ => True) (e.defun n o) (e.defun n o) := by
  rintro s s' ⟨hsame, hcode⟩
  refine Correspondence.agrees_defun (agrees_error ⟨hsame, hcode⟩) (hsame.bindings e n hn)
    (by rw [hsame.closures]) ?_ fun f _ => follows_overload f ho s s' ⟨hsame, hcode⟩
  rw [hsame.closures]
  exact agrees_ok ⟨(hsame.with_closures _).bind e n _, hcode.push_closure ho e⟩ trivial

theorem follows_lambda {o : Overload} (ho : ∀ x ∈ o.body, ¬ x.Uses z) :
    (indifference z).Follows e () (fun _ _ => True) (FunctionRef.create "lambda" o e)
      (FunctionRef.create "lambda" o e) := by
  rintro s s' ⟨hsame, hcode⟩
  rw [FunctionRef.run_create, FunctionRef.run_create, hsame.closures]
  exact agrees_ok ⟨hsame.with_closures _, hcode.push_closure ho e⟩ trivial

theorem lawful (z : String) (run : Runner) : (indifference z).Lawful run run where
  grows_refl _ _ := trivial
  grows_trans _ _ := trivial
  here_mono _ h := h
  code_mono _ h := h
  data_mono _ h := h
  cut_note h := h
  alike_refl _ := rfl
  alike_note h := congrArg _ h
  part hx hy h := hx (.part hy h)
  mentioned hx h heq := hx (.here (heq ▸ h))
  literal _ _ := trivial
  quoted _ := trivial
  bool _ _ := trivial
  nil _ := trivial
  unspecified _ := trivial
  primitive _ _ := trivial
  computed _ _ := ⟨rfl, fun _ _ => trivial⟩
  lookup hs _ hn := ⟨hs.1.lookup? hn _, fun _ _ => trivial⟩
  closure := by
    rintro _ s s' f ⟨hsame, hcode⟩ _
    have hf : s'.closures[f.index]? = s.closures[f.index]? := by rw [hsame.closures]
    refine ⟨Correspondence.matches_choose (fun _ => rfl) hf, fun c hc => ?_⟩
    exact ⟨trivial, hcode c (Array.mem_of_getElem? hc)⟩
  define _ hn _ _ := follows_define hn _
  assign _ hn _ := follows_assign hn _
  defun _ hn _ ho := follows_defun hn ho
  lambda _ _ ho := follows_lambda ho
  enter := by
    rintro _ s s' e parent frame body ⟨hsame, hcode⟩ _ _ _ _
    exact ⟨hsame.size_environments, (), ⟨hsame.push_environment _, hcode⟩, trivial,
      fun _ _ => trivial⟩

end indifference

/-- The two runs have one result or one error, and leave stores that differ in the name only. -/
def SameResultBut (z : String) :
    EStateM.Result Error Store Value → EStateM.Result Error Store Value → Prop
  | .ok v t, r => ∃ t', r = .ok v t' ∧ t.SameBut z t'
  | .error x t, r => ∃ t', r = .error x t' ∧ t.SameBut z t'

theorem sameResultBut_of_sameBut (host : Host) (depth : Nat) (e : EnvRef) {z : String}
    {s s' : Store} (hs : s.SameBut z s') (hcode : s.NeverUses z) {expr : Value}
    (hexpr : ¬ expr.Uses z) :
    SameResultBut z ((evalAt host depth expr e).run s) ((evalAt host depth expr e).run s') := by
  have h := (indifference.lawful z (Code.run host)).evalWithin (maxDepth - depth) e () expr trivial
    hexpr s s' ⟨hs, hcode⟩
  unfold evalAt
  cases hr : (evalWithin (Code.run host) (maxDepth - depth) expr e).run s with
  | ok v t =>
    rw [hr] at h
    obtain ⟨_, t', hr', -, ⟨ht, -⟩, -⟩ := h
    exact ⟨t', hr', ht⟩
  | error x t =>
    rw [hr] at h
    rcases h with hcut | ⟨_, _, t', hr', rfl, -, ht, -⟩
    · exact hcut.elim
    · exact ⟨t', hr', ht⟩

/-- If neither the expression nor the body of a function uses a name, then evaluation has the same
result or error in stores that differ only in what the name is bound to in their environments, and
in whether it is; and they differ in nothing else afterwards. Names that a `let` or a function
binds, what is quoted and the heads of special forms are no uses. So the name of a special form may
be bound in any environment, and the form in operator position means what it meant before. -/
theorem unused_name_does_not_matter (host : Host) (depth : Nat) (e : EnvRef) :
    (∀ (z : String) (s s' : Store), s.SameBut z s' → s.NeverUses z →
      ∀ expr : Value, ¬ expr.Uses z →
        SameResultBut z ((evalAt host depth expr e).run s)
          ((evalAt host depth expr e).run s')) ∧
    ∀ (form : SpecialForm) (args : List Value) (s : Store) (d : EnvRef) (b : Binding),
      s.NeverUses form.name → (Value.op (.form form) args).mentioned? ≠ some form.name →
        (∀ x ∈ form.parts args, ¬ x.Uses form.name) →
          SameResultBut form.name ((evalAt host depth (.op (.form form) args) e).run s)
            ((evalAt host depth (.op (.form form) args) e).run (s.bind d form.name b)) := by
  constructor
  · intro z s s' hs hcode expr hexpr
    exact sameResultBut_of_sameBut host depth e hs hcode hexpr
  · intro form args s d b hcode htarget hparts
    have hexpr : ¬ (Value.op (.form form) args).Uses form.name := by
      rw [Value.uses_iff, not_or]
      refine ⟨htarget, ?_⟩
      rintro ⟨x, hx, h⟩
      exact hparts x hx h
    exact sameResultBut_of_sameBut host depth e (.bind_self form.name s d b) hcode hexpr

/-- With `if` bound to a number, in the environment and by a `let`, an `if` still chooses, and the
quoted name is the name. -/
theorem unused_name_does_not_matter_of_if :
    let host : Host := fun _ _ => .ok .unspecified
    let name : Value := .symbol ⟨"if", .any⟩
    let cond : Value := .op (.form .cond) [.bool true, .op (.form .quote) [name], .number 2]
    let expr : Value := .op (.form .letIn) [.list [.list [name, .number 1]], cond]
    let s : Store := ⟨#[⟨Frame.global, .root⟩], #[]⟩
    let s' := s.bind 0 "if" (.slot ⟨.any, .number 5⟩)
    s.SameBut "if" s' ∧ s.NeverUses "if" ∧ ¬ expr.Uses "if" ∧
      (∃ t, (evalAt host 0 expr 0).run s' = .ok name t) ∧
      ∃ t, (evalAt host 0 cond 0).run s' = .ok name t := by
  intro host name cond expr s s'
  have hs : s.SameBut "if" s' := .bind_self "if" s 0 _
  have hcode : s.NeverUses "if" := by
    intro c hc
    cases Array.not_mem_empty c hc
  have hnumber : ∀ n, ¬ (Value.number n).Uses "if" := by
    intro n
    rw [Value.uses_iff]
    simp [Value.mentioned?, Value.parts]
  have hparts : ∀ x ∈ SpecialForm.cond.parts [.bool true, .op (.form .quote) [name], .number 2],
      ¬ x.Uses "if" := by
    have hbool : ¬ (Value.bool true).Uses "if" := by
      rw [Value.uses_iff]
      simp [Value.mentioned?, Value.parts]
    have hquote : ¬ (Value.op (.form .quote) [name]).Uses "if" := by
      rw [Value.uses_iff]
      simp [Value.mentioned?, Value.parts, SpecialForm.parts]
    simp [SpecialForm.parts, hbool, hquote, hnumber]
  have hcond : ¬ cond.Uses "if" := by
    rw [Value.uses_iff]
    rintro (h | ⟨x, hx, h⟩)
    · cases h
    · exact hparts x hx h
  have hexpr : ¬ expr.Uses "if" := by
    rw [Value.uses_iff]
    simp [expr, name, Value.mentioned?, Value.parts, SpecialForm.parts, Let.initializer?, hnumber,
      hcond]
  have h := unused_name_does_not_matter host 0 0
  obtain ⟨t, ht, -⟩ := h.1 "if" s s' hs hcode expr hexpr
  obtain ⟨u, hu, -⟩ := h.2 .cond _ s 0 (.slot ⟨.any, .number 5⟩) hcode (by decide) hparts
  exact ⟨hs, hcode, hexpr, ⟨t, ht⟩, u, hu⟩

end LexicalLisp
