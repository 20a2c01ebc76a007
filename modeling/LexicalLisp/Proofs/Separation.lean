import LexicalLisp.Proofs.After
import LexicalLisp.Proofs.Chain
import LexicalLisp.Proofs.Evaluation
import LexicalLisp.Proofs.Reach

/-!
# Evaluation apart from foreign places

Some places of a store are foreign to an evaluation: it does not start there, and no link leads
there from anywhere else. Evaluation keeps it so, since all it puts anywhere comes from where it
has been. Hence it neither changes the foreign places nor sees them: in a store that differs in
these places only it has the same outcome.
-/
namespace LexicalLisp

/-- The value mentions no foreign function. -/
def Value.Avoids (foreign : Place → Bool) (v : Value) : Prop :=
  v.throughout (onHandles fun i => !foreign (.function i)) = true

theorem Value.avoids_iff {foreign : Place → Bool} {v : Value} :
    v.Avoids foreign ↔ ∀ i, v.Mentions i → foreign (.function i) = false := by
  rw [Avoids, throughout_onHandles_iff]
  simp only [Bool.not_eq_true']

/-- The function is at home in an environment that is not foreign, and so is its code. -/
structure Closure.Avoids (foreign : Place → Bool) (c : Closure) : Prop where
  home : foreign (.environment c.home) = false
  code : ∀ o ∈ c.overloads, ∀ x ∈ o.body, x.Avoids foreign

theorem Closure.Avoids.overload {foreign : Place → Bool} {c : Closure} (h : c.Avoids foreign)
    {o : Overload} (ho : ∀ x ∈ o.body, x.Avoids foreign) :
    Closure.Avoids foreign { c with overloads := c.overloads ++ [o] } where
  home := h.home
  code o' ho' := by
    rcases List.mem_append.1 ho' with ho' | ho'
    · exact h.code o' ho'
    · rw [List.mem_singleton.1 ho']
      exact ho

theorem Closure.avoids_single {foreign : Place → Bool} {o : Overload} {home : EnvRef}
    (hhome : foreign (.environment home) = false) (ho : ∀ x ∈ o.body, x.Avoids foreign) :
    Closure.Avoids foreign ⟨[o], home⟩ where
  home := hhome
  code o' ho' := by
    rw [List.mem_singleton.1 ho']
    exact ho

namespace Store

/-! ### One store -/

/-- The foreign places are in the store what they are in the first one, and nothing leads into them
from outside. -/
structure Apart (foreign : Place → Bool) (s₀ s : Store) : Prop where
  exist : ∀ p, foreign p = true → p.Exists s₀
  kept : ∀ p, foreign p = true → p.Same s₀ s
  value : ∀ e n b, foreign (.environment e) = false → (s.frame e).get? n = some b →
    b.value.Avoids foreign
  parent : ∀ e p, foreign (.environment e) = false → s.parent? e = some p →
    foreign (.environment p) = false
  closure : ∀ i c, foreign (.function i) = false → s.closures[i]? = some c → c.Avoids foreign

namespace Apart

variable {foreign : Place → Bool} {s₀ s : Store}

theorem of_links (hexist : ∀ p, foreign p = true → p.Exists s)
    (hlinks : ∀ p q, foreign p = false → s.CodeLinks p q → foreign q = false) :
    Apart foreign s s where
  exist := hexist
  kept p _ := Place.Same.refl s p
  value _ _ _ he hb :=
    Value.avoids_iff.2 fun _ hi => hlinks _ _ he (.link (.binding hb hi))
  parent _ _ he hp := hlinks _ _ he (.link (.parent hp))
  closure _ _ hi hc :=
    { home := hlinks _ _ hi (.link (.home hc))
      code := fun _ ho _ hx => Value.avoids_iff.2 fun _ hj => hlinks _ _ hi (.code hc ho hx hj) }

theorem ne_of_foreign {p q : Place} (hp : foreign p = true) (hq : foreign q = false) : p ≠ q := by
  rintro rfl
  rw [hp] at hq
  cases hq

variable (h : Apart foreign s₀ s)
include h

theorem exists_of_foreign {p : Place} (hp : foreign p = true) : p.Exists s :=
  (h.kept p hp).exists (h.exist p hp)

theorem environment_size : foreign (.environment s.environments.size) = false := by
  by_contra hforeign
  exact Nat.lt_irrefl _ (h.exists_of_foreign (Bool.not_eq_false _ ▸ hforeign))

theorem function_size : foreign (.function s.closures.size) = false := by
  by_contra hforeign
  exact Nat.lt_irrefl _ (h.exists_of_foreign (Bool.not_eq_false _ ▸ hforeign))

theorem of_encloses {d e : EnvRef} (he : foreign (.environment e) = false)
    (hd : s.Encloses d e) : foreign (.environment d) = false :=
  hd.of_parents (P := fun x => foreign (.environment x) = false) he h.parent

theorem avoids_of_lookup? {e : EnvRef} (he : foreign (.environment e) = false) {n : String}
    {v : Value} (hv : s.lookup? n e = some v) : v.Avoids foreign := by
  obtain ⟨d, b, hd, hb, rfl⟩ := exists_binding_of_lookup? hv
  exact h.value d n b (h.of_encloses he hd) hb

theorem bind {e : EnvRef} (he : foreign (.environment e) = false) (n : String) {b : Binding}
    (hb : b.value.Avoids foreign) : Apart foreign s₀ (s.bind e n b) where
  exist := h.exist
  kept p hp := (h.kept p hp).trans (Place.same_bind (ne_of_foreign hp he) n b)
  value d m b' hd hb' := by
    rcases get?_of_bind hb' with ⟨-, -, rfl⟩ | hb'
    · exact hb
    · exact h.value d m b' hd hb'
  parent d p hd hp := by
    rw [parent?_bind] at hp
    exact h.parent d p hd hp
  closure := h.closure

theorem push_environment {env : Environment} (henv : env.frame.Variables (Value.Avoids foreign))
    (hparent : ∀ p, env.role.parent? = some p → foreign (.environment p) = false) :
    Apart foreign s₀ { s with environments := s.environments.push env } where
  exist := h.exist
  kept p hp := (h.kept p hp).trans (Place.same_push_environment (h.exists_of_foreign hp) env)
  value d n b hd hb := by
    rcases get?_of_push hb with ⟨-, hb⟩ | hb
    · obtain ⟨slot, rfl, -, hv⟩ := henv.of_get? hb
      exact hv
    · exact h.value d n b hd hb
  parent d p hd hp := by
    rcases parent?_of_push hp with ⟨-, hp⟩ | hp
    · exact hparent p hp
    · exact h.parent d p hd hp
  closure := h.closure

theorem push_closure {c : Closure} (hc : c.Avoids foreign) :
    Apart foreign s₀ { s with closures := s.closures.push c } where
  exist := h.exist
  kept p hp := (h.kept p hp).trans (Place.same_push_closure (h.exists_of_foreign hp) c)
  value := h.value
  parent := h.parent
  closure i d hi hd := by
    simp only [Array.getElem?_push] at hd
    split at hd
    case isTrue =>
      cases hd
      exact hc
    case isFalse => exact h.closure i d hi hd

theorem overload {f : FunctionRef} (hf : foreign (.function f.index) = false) {o : Overload}
    (ho : ∀ x ∈ o.body, x.Avoids foreign) :
    Apart foreign s₀ { s with
      closures := s.closures.modify f.index fun c =>
        { c with overloads := c.overloads ++ [o] } } where
  exist := h.exist
  kept p hp := (h.kept p hp).trans (Place.same_modify_closure (ne_of_foreign hp hf) _)
  value := h.value
  parent := h.parent
  closure i d hi hd := by
    rw [Array.getElem?_modify] at hd
    split at hd
    case isTrue =>
      obtain ⟨c, hc, rfl⟩ := Option.map_eq_some_iff.1 hd
      exact (h.closure i c hi hc).overload ho
    case isFalse => exact h.closure i d hi hd

end Apart

/-! ### Two stores -/

/-- The stores have as many places, and the same at all that are not foreign. -/
structure AgreesBut (foreign : Place → Bool) (s s' : Store) : Prop where
  environments : s'.environments.size = s.environments.size
  closures : s'.closures.size = s.closures.size
  same : ∀ p, foreign p = false → p.Same s s'

namespace AgreesBut

variable {foreign : Place → Bool} {s₀ s s' : Store} (h : AgreesBut foreign s s')
include h

theorem frame {e : EnvRef} (he : foreign (.environment e) = false) : s'.frame e = s.frame e :=
  (h.same _ he).frame

theorem owner? (hs : Apart foreign s₀ s) {e : EnvRef} (he : foreign (.environment e) = false)
    (n : String) : s'.owner? n e = s.owner? n e := by
  unfold Store.owner?
  rw [h.environments]
  induction s.environments.size generalizing e with
  | zero => rfl
  | succ links ih =>
    rw [ownerWithin, ownerWithin, h.frame he, (h.same _ he).parent?]
    cases hp : s.parent? e with
    | none => rfl
    | some p =>
      have hparent := ih (hs.parent e p he hp)
      simp only [Option.bind_some, hparent]

theorem lookup? (hs : Apart foreign s₀ s) {e : EnvRef} (he : foreign (.environment e) = false)
    (n : String) : s'.lookup? n e = s.lookup? n e := by
  unfold Store.lookup?
  rw [h.owner? hs he]
  cases ho : s.owner? n e with
  | none => rfl
  | some o =>
    have howner : foreign (.environment o) = false := hs.of_encloses he (encloses_of_ownerWithin ho)
    simp only [Option.bind_some, local?, h.frame howner]

theorem arities {f : FunctionRef} (hf : foreign (.function f.index) = false) :
    s'.arities f = s.arities f := by
  have hsame : s'.closures[f.index]? = s.closures[f.index]? := h.same _ hf
  rw [Store.arities, Store.arities, hsame]

theorem bind (e : EnvRef) (n : String) (b : Binding) :
    AgreesBut foreign (s.bind e n b) (s'.bind e n b) where
  environments := by rw [size_environments_bind, size_environments_bind, h.environments]
  closures := h.closures
  same p hp := by
    have hsame := h.same p hp
    cases p with
    | environment d =>
      show (s'.bind e n b).environments[d]? = (s.bind e n b).environments[d]?
      have hsame : s'.environments[d]? = s.environments[d]? := hsame
      rw [getElem?_bind, getElem?_bind, hsame]
    | function i => exact hsame

theorem push_environment (env : Environment) :
    AgreesBut foreign { s with environments := s.environments.push env }
      { s' with environments := s'.environments.push env } where
  environments := by simp only [Array.size_push, h.environments]
  closures := h.closures
  same p hp := by
    have hsame := h.same p hp
    cases p with
    | environment d =>
      show (s'.environments.push env)[d]? = (s.environments.push env)[d]?
      have hsame : s'.environments[d]? = s.environments[d]? := hsame
      rw [Array.getElem?_push, Array.getElem?_push, hsame, h.environments]
    | function i => exact hsame

theorem push_closure (c : Closure) :
    AgreesBut foreign { s with closures := s.closures.push c }
      { s' with closures := s'.closures.push c } where
  environments := h.environments
  closures := by simp only [Array.size_push, h.closures]
  same p hp := by
    have hsame := h.same p hp
    cases p with
    | environment d => exact hsame
    | function i =>
      show (s'.closures.push c)[i]? = (s.closures.push c)[i]?
      have hsame : s'.closures[i]? = s.closures[i]? := hsame
      rw [Array.getElem?_push, Array.getElem?_push, hsame, h.closures]

theorem overload (f : FunctionRef) (o : Overload) :
    AgreesBut foreign
      { s with closures := s.closures.modify f.index fun c =>
          { c with overloads := c.overloads ++ [o] } }
      { s' with closures := s'.closures.modify f.index fun c =>
          { c with overloads := c.overloads ++ [o] } } where
  environments := h.environments
  closures := by simp only [Array.size_modify, h.closures]
  same p hp := by
    have hsame := h.same p hp
    cases p with
    | environment d => exact hsame
    | function i =>
      show (s'.closures.modify f.index _)[i]? = (s.closures.modify f.index _)[i]?
      have hsame : s'.closures[i]? = s.closures[i]? := hsame
      rw [Array.getElem?_modify, Array.getElem?_modify, hsame]

end AgreesBut
end Store

/-! ### The whole evaluation -/

/-- Evaluations of the same code, each in a store of its own, that keep apart from the foreign
places and have the same everywhere else. -/
def separation (foreign : Place → Bool) (s₀ s₀' : Store) : Correspondence where
  World := Unit
  name _ := True
  code _ := Value.Avoids foreign
  data _ := Value.Avoids foreign
  here _ e := foreign (.environment e) = false
  related _ s s' :=
    Store.Apart foreign s₀ s ∧ Store.Apart foreign s₀' s' ∧ Store.AgreesBut foreign s s'
  grows _ _ _ := True
  cut _ := False

namespace separation

variable {foreign : Place → Bool} {s₀ s₀' s s' : Store} {e : EnvRef} {n : String}

section Operations

variable (hs : (separation foreign s₀ s₀').related () s s')
include hs

theorem agrees_ok {α : Type} {P : Unit → α → Prop} {v : α} (hv : P () v) :
    (separation foreign s₀ s₀').Agrees e () P (.ok v s) (.ok v s') :=
  ⟨(), s', rfl, trivial, hs, hv⟩

theorem agrees_error {α : Type} {P : Unit → α → Prop} (x : Error) :
    (separation foreign s₀ s₀').Agrees e () P (.error x s) (.error x s') :=
  Or.inr ⟨x, (), s', rfl, rfl, trivial, hs⟩

theorem related_bind (he : foreign (.environment e) = false) (n : String) {b : Binding}
    (hb : b.value.Avoids foreign) :
    (separation foreign s₀ s₀').related () (s.bind e n b) (s'.bind e n b) :=
  ⟨hs.1.bind he n hb, hs.2.1.bind he n hb, hs.2.2.bind e n b⟩

theorem related_push_closure {c : Closure} (hc : c.Avoids foreign) :
    (separation foreign s₀ s₀').related () { s with closures := s.closures.push c }
      { s' with closures := s'.closures.push c } :=
  ⟨hs.1.push_closure hc, hs.2.1.push_closure hc, hs.2.2.push_closure c⟩

theorem agrees_overload {f : FunctionRef} (hf : foreign (.function f.index) = false) {o : Overload}
    (ho : ∀ x ∈ o.body, x.Avoids foreign) :
    (separation foreign s₀ s₀').Agrees e () (fun _ _ => True) ((f.overload o).run s)
      ((f.overload o).run s') := by
  have harities := hs.2.2.arities hf
  refine Correspondence.agrees_overload (agrees_error hs) (by rw [harities]) fun _ => ?_
  exact agrees_ok ⟨hs.1.overload hf ho, hs.2.1.overload hf ho, hs.2.2.overload f o⟩ trivial

end Operations

theorem follows_define (he : foreign (.environment e) = false) {slot : Slot}
    (hslot : slot.value.Avoids foreign) :
    (separation foreign s₀ s₀').Follows e () (fun _ _ => True) (e.define n slot)
      (e.define n slot) := by
  intro s s' hs
  have hframe := hs.2.2.frame he
  have hslot : (Binding.slot slot).value.Avoids foreign := hslot
  refine Correspondence.agrees_define (agrees_error hs) (by rw [hframe]) ?_
  exact agrees_ok (related_bind hs he n hslot) trivial

theorem follows_assign (he : foreign (.environment e) = false) {v : Value}
    (hv : v.Avoids foreign) :
    (separation foreign s₀ s₀').Follows e () (fun _ _ => True) (e.assign n v) (e.assign n v) := by
  intro s s' hs
  have hforeign : ∀ o, s.owner? n e = some o → foreign (.environment o) = false := fun o ho =>
    hs.1.of_encloses he (Store.encloses_of_ownerWithin ho)
  refine Correspondence.agrees_assign (agrees_error hs) (hs.2.2.owner? hs.1 he n) (fun o ho => ?_)
    fun o slot ho => ?_
  · rw [hs.2.2.frame (hforeign o ho)]
  · have hslot : (Binding.slot { slot with value := v }).value.Avoids foreign := hv
    exact agrees_ok (related_bind hs (hforeign o ho) n hslot) trivial

theorem follows_defun (he : foreign (.environment e) = false) {o : Overload}
    (ho : ∀ x ∈ o.body, x.Avoids foreign) :
    (separation foreign s₀ s₀').Follows e () (fun _ _ => True) (e.defun n o) (e.defun n o) := by
  intro s s' hs
  have hframe := hs.2.2.frame he
  refine Correspondence.agrees_defun (agrees_error hs) (by rw [hframe]) hs.2.2.closures ?_
    fun f hb => ?_
  · have hpush := related_push_closure hs (Closure.avoids_single he ho)
    refine agrees_ok (related_bind hpush he n ?_) trivial
    exact congrArg not hs.1.function_size
  · have hf : foreign (.function f.index) = false :=
      Value.avoids_iff.1 (hs.1.value e n _ he hb) f.index (.handle f.name)
    exact agrees_overload hs hf ho

theorem follows_lambda (he : foreign (.environment e) = false) {o : Overload}
    (ho : ∀ x ∈ o.body, x.Avoids foreign) :
    (separation foreign s₀ s₀').Follows e () (fun _ f => (Value.function f).Avoids foreign)
      (FunctionRef.create "lambda" o e) (FunctionRef.create "lambda" o e) := by
  intro s s' hs
  rw [FunctionRef.run_create, FunctionRef.run_create, hs.2.2.closures]
  refine agrees_ok (related_push_closure hs (Closure.avoids_single he ho)) ?_
  exact congrArg not hs.1.function_size

theorem avoids_of_run {host : Host} (hhost : host.Uniform) {c : Code} {vs : List Value} {v : Value}
    (hvs : ∀ u ∈ vs, u.Avoids foreign) (hv : c.run host vs = .ok v) : v.Avoids foreign := by
  refine Value.avoids_iff.2 fun i hi => ?_
  obtain ⟨u, hu, hui⟩ := Code.mentions_of_run hhost hv hi
  exact Value.avoids_iff.1 (hvs u hu) i hui

theorem lawful {host : Host} (hhost : host.Uniform) :
    (separation foreign s₀ s₀').Lawful (Code.run host) (Code.run host) where
  grows_refl _ _ := trivial
  grows_trans _ _ := trivial
  here_mono _ h := h
  code_mono _ h := h
  data_mono _ h := h
  cut_note h := h
  alike_refl _ := rfl
  alike_note h := congrArg _ h
  part h hpart := Value.throughout_of_mem_parts h hpart
  mentioned _ _ := trivial
  literal h _ := h
  quoted h := (Value.throughout_op_iff.1 h).2 _ List.mem_cons_self
  bool _ _ := rfl
  nil _ := rfl
  unspecified _ := rfl
  primitive _ _ := rfl
  computed _ hvs := ⟨rfl, fun _ hv => avoids_of_run hhost hvs hv⟩
  lookup hs he _ := ⟨hs.2.2.lookup? hs.1 he _, fun _ hv => hs.1.avoids_of_lookup? he hv⟩
  closure := by
    intro _ s s' f hs hf
    have hf : foreign (.function f.index) = false :=
      Value.avoids_iff.1 hf f.index (.handle f.name)
    refine ⟨Correspondence.matches_choose (fun _ => rfl) (hs.2.2.same _ hf), fun c hc => ?_⟩
    have hc := hs.1.closure f.index c hf hc
    exact ⟨hc.home, hc.code⟩
  define he _ _ hv := follows_define he hv
  assign he _ hv := follows_assign he hv
  defun he _ _ ho := follows_defun he ho
  lambda he _ ho := follows_lambda he ho
  enter := by
    intro _ s s' e parent frame body hs _ hp hframe _
    have hparent : ∀ p, (Role.scope body (some parent)).parent? = some p →
        foreign (.environment p) = false := by
      rintro p ⟨⟩
      exact hp
    refine ⟨hs.2.2.environments, (), ⟨?_, ?_, ?_⟩, hs.1.environment_size, fun _ _ => trivial⟩
    · exact hs.1.push_environment hframe hparent
    · exact hs.2.1.push_environment hframe hparent
    · exact hs.2.2.push_environment _

end separation
end LexicalLisp
