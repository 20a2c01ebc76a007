import LexicalLisp.Proofs.Chain
import LexicalLisp.Proofs.Soundness
import LexicalLisp.Proofs.TracedCommand

/-!
# Chains of environments end

A scope gets its parent late, and it may be the parent of others before, so the order in which
environments are made does not show that chains end. They end because every environment can be
given a rank above that of its parent. A new environment lies on top, and when a constructed scope
is entered, it rises with all that lies inside it above the new parent, which must not be among
them. Evaluation itself makes scopes that have their parents at once.
-/
namespace LexicalLisp

/-! ### What is claimed of chains -/

namespace Store

/-- There is nothing around the environment: it is a root or a constructed scope. -/
def EndsChain (s : Store) (d : EnvRef) : Prop :=
  ∃ frame, s.environments[d]? = some ⟨frame, .root⟩ ∨
    ∃ body, s.environments[d]? = some ⟨frame, .scope body none⟩

/-- Looking for the name up the chain, with nothing that limits the number of links, ends with
this answer. -/
inductive Resolves (s : Store) (name : String) : EnvRef → Option EnvRef → Prop
  | here {e : EnvRef} (h : (s.frame e).binds name = true) : Resolves s name e (some e)
  | outer {e p : EnvRef} {answer : Option EnvRef} (h : (s.frame e).binds name = false)
    (hp : s.parent? e = some p) (houter : Resolves s name p answer) : Resolves s name e answer
  | unbound {e : EnvRef} (h : (s.frame e).binds name = false) (hp : s.parent? e = none) :
    Resolves s name e none

/-- All chains of the store end, meet no environment twice, and answer for every name. -/
structure ChainsEnd (s : Store) : Prop where
  ends : ∀ e < s.environments.size, ∃ links d, s.ancestor? links e = some d ∧ s.EndsChain d
  once : ∀ e i j d, s.ancestor? i e = some d → s.ancestor? j e = some d → i = j
  resolves : ∀ name e answer, s.Resolves name e answer ↔ s.owner? name e = answer

/-- The environment is an active scope, and its parent is older. -/
def IsInner (s : Store) (d : EnvRef) : Prop :=
  ∃ frame body p, s.environments[d]? = some ⟨frame, .scope body (some p)⟩ ∧ p < d

variable {s : Store} {e d p : EnvRef}

/-! ### Parents and homes that exist -/

namespace Anchored

theorem bind (h : s.Anchored) (e : EnvRef) (n : String) (b : Binding) :
    (s.bind e n b).Anchored := by
  refine ⟨fun d p hp => ?_, fun c hc => ?_⟩
  · rw [parent?_bind] at hp
    rw [size_environments_bind]
    exact h.parent d p hp
  · rw [size_environments_bind]
    exact h.home c hc

theorem push (h : s.Anchored) {env : Environment}
    (henv : ∀ p, env.role.parent? = some p → p < s.environments.size) :
    ({ s with environments := s.environments.push env } : Store).Anchored := by
  have hsize : (s.environments.push env).size = s.environments.size + 1 := Array.size_push _
  refine ⟨fun e p hp => ?_, fun c hc => ?_⟩
  · rw [hsize]
    rcases parent?_of_push hp with ⟨-, hp⟩ | hp
    · exact Nat.lt_succ_of_lt (henv p hp)
    · exact Nat.lt_succ_of_lt (h.parent e p hp)
  · rw [hsize]
    exact Nat.lt_succ_of_lt (h.home c hc)

theorem push_closure (h : s.Anchored) {c : Closure} (hc : c.home < s.environments.size) :
    ({ s with closures := s.closures.push c } : Store).Anchored := by
  refine ⟨h.parent, fun d hd => ?_⟩
  rcases Array.mem_push.1 hd with hd | rfl
  · exact h.home d hd
  · exact hc

theorem overload (h : s.Anchored) (i : Nat) (o : Overload) :
    ({ s with
      closures := s.closures.modify i fun c =>
        { c with overloads := c.overloads ++ [o] } } : Store).Anchored := by
  refine ⟨h.parent, ?_⟩
  exact forall_mem_modify i (fun c => { c with overloads := c.overloads ++ [o] }) h.home h.home

end Anchored

/-! ### Ranks -/

/-- Every environment ranks above its parent. -/
structure Grounded (s : Store) : Prop extends s.Anchored where
  ranked : ∃ rank : EnvRef → Nat, ∀ e p, s.parent? e = some p → rank p < rank e

theorem rank_add_le {rank : EnvRef → Nat} (hrank : ∀ e p, s.parent? e = some p → rank p < rank e)
    {links : Nat} (h : s.ancestor? links e = some d) : rank d + links ≤ rank e := by
  induction links generalizing e with
  | zero =>
    cases h
    exact Nat.le_refl _
  | succ links ih =>
    obtain ⟨p, hp, hd⟩ := Option.bind_eq_some_iff.1 h
    have hlt := hrank e p hp
    have hle := ih hd
    omega

theorem endsChain_of_parent? (he : e < s.environments.size) (hp : s.parent? e = none) :
    s.EndsChain e := by
  obtain ⟨⟨frame, role⟩, henv⟩ : ∃ env, s.environments[e]? = some env :=
    ⟨s.environments[e], Array.getElem?_eq_getElem he⟩
  cases role with
  | root => exact ⟨frame, .inl henv⟩
  | scope body parent =>
    cases parent with
    | none => exact ⟨frame, .inr ⟨body, henv⟩⟩
    | some p => simp [parent?, henv, Role.parent?] at hp

/-- One step of the search for the owner of a name. -/
theorem owner?_eq (s : Store) (name : String) (e : EnvRef) :
    s.owner? name e =
      if (s.frame e).binds name then some e else (s.parent? e).bind (s.owner? name) := by
  have hlinks : s.owner? name e = s.ownerWithin name (s.environments.size + 1) e :=
    (ownerWithin_eq_owner? (Nat.le_succ _)).symm
  rw [hlinks, ownerWithin]
  rfl

theorem Resolves.owner?_eq {name : String} {answer : Option EnvRef}
    (h : s.Resolves name e answer) : s.owner? name e = answer := by
  induction h with
  | here h => rw [Store.owner?_eq, if_pos h]
  | outer h hp _ ih =>
    rw [Store.owner?_eq, h, hp]
    exact ih
  | unbound h hp =>
    rw [Store.owner?_eq, h, hp]
    rfl

namespace Grounded

theorem chainsEnd (h : s.Grounded) : s.ChainsEnd := by
  obtain ⟨rank, hrank⟩ := h.ranked
  refine ⟨fun e he => ?_, fun e i j d hi hj => ?_, fun name e answer => ⟨Resolves.owner?_eq, ?_⟩⟩
  · induction hn : rank e using Nat.strongRecOn generalizing e with
    | ind n ih =>
      cases hp : s.parent? e with
      | none => exact ⟨0, e, rfl, endsChain_of_parent? he hp⟩
      | some p =>
        obtain ⟨links, d, hd, hend⟩ :=
          ih (rank p) (hn ▸ hrank e p hp) p (h.parent e p hp) rfl
        exact ⟨links + 1, d, by rw [ancestor?, hp]; exact hd, hend⟩
  · -- between the two visits the rank would have to sink
    have hsink : ∀ i j, s.ancestor? i e = some d → s.ancestor? j e = some d → i ≤ j := by
      intro i j hi hj
      by_contra hlt
      have hback : s.ancestor? (i - j) d = some d := by
        rw [show i = j + (i - j) by omega, ancestor?_add, hj] at hi
        exact hi
      have hle := rank_add_le hrank hback
      omega
    exact Nat.le_antisymm (hsink i j hi hj) (hsink j i hj hi)
  · rintro rfl
    induction hn : rank e using Nat.strongRecOn generalizing e with
    | ind n ih =>
      rw [owner?_eq]
      cases hb : (s.frame e).binds name with
      | true => exact .here hb
      | false =>
        cases hp : s.parent? e with
        | none => exact .unbound hb hp
        | some p => exact .outer hb hp (ih (rank p) (hn ▸ hrank e p hp) p rfl)

/-! ### Updates -/

theorem empty : Grounded {} where
  parent e p hp := by simp [parent?] at hp
  home c hc := by cases Array.not_mem_empty c hc
  ranked := ⟨fun _ => 0, fun e p hp => by simp [parent?] at hp⟩

theorem bind (h : s.Grounded) (e : EnvRef) (n : String) (b : Binding) :
    (s.bind e n b).Grounded := by
  obtain ⟨rank, hrank⟩ := h.ranked
  refine ⟨h.toAnchored.bind e n b, rank, fun d p hp => hrank d p ?_⟩
  rwa [parent?_bind] at hp

/-- A new environment ranks just above its parent, and none has it for a parent. -/
theorem push (h : s.Grounded) {env : Environment}
    (henv : ∀ p, env.role.parent? = some p → p < s.environments.size) :
    ({ s with environments := s.environments.push env } : Store).Grounded := by
  obtain ⟨rank, hrank⟩ := h.ranked
  refine ⟨h.toAnchored.push henv, ?_⟩
  let top : Nat := (env.role.parent?.map fun p => rank p + 1).getD 0
  refine ⟨fun d => if d = s.environments.size then top else rank d, fun e p hp => ?_⟩
  have hold : ∀ d < s.environments.size, ¬ d = s.environments.size := fun d hd => Nat.ne_of_lt hd
  simp only
  rcases parent?_of_push hp with ⟨he, hp⟩ | hp
  · rw [if_pos he, if_neg (hold p (henv p hp))]
    simp [top, hp]
  · rw [if_neg (hold e (lt_size_of_parent? hp)), if_neg (hold p (h.parent e p hp))]
    exact hrank e p hp

theorem push_closure (h : s.Grounded) {c : Closure} (hc : c.home < s.environments.size) :
    ({ s with closures := s.closures.push c } : Store).Grounded :=
  ⟨h.toAnchored.push_closure hc, h.ranked⟩

theorem overload (h : s.Grounded) (i : Nat) (o : Overload) :
    ({ s with
      closures := s.closures.modify i fun c =>
        { c with overloads := c.overloads ++ [o] } } : Store).Grounded :=
  ⟨h.toAnchored.overload i o, h.ranked⟩

/-- A scope that is entered rises above its parent, with all environments that it encloses. -/
theorem activate (h : s.Grounded) {scope parent : EnvRef} {frame : Frame} {body : List Value}
    (hscope : s.environments[scope]? = some ⟨frame, .scope body none⟩)
    (hparent : parent < s.environments.size) (hapart : ¬ s.Encloses scope parent) :
    ({ s with
      environments := s.environments.modify scope fun _ =>
        ⟨frame, .scope body (some parent)⟩ } : Store).Grounded := by
  classical
  obtain ⟨rank, hrank⟩ := h.ranked
  have hparents : ∀ e p, Store.parent? { s with
      environments := s.environments.modify scope fun _ => ⟨frame, .scope body (some parent)⟩ }
        e = some p → (e = scope ∧ p = parent) ∨ (e ≠ scope ∧ s.parent? e = some p) := by
    intro e p hp
    rw [parent?, Array.getElem?_modify] at hp
    by_cases he : scope = e
    · subst he
      rw [if_pos rfl, hscope] at hp
      exact .inl ⟨rfl, (Option.some.inj hp).symm⟩
    · rw [if_neg he] at hp
      exact .inr ⟨Ne.symm he, hp⟩
  refine ⟨⟨fun e p hp => ?_, fun c hc => ?_⟩, ?_⟩
  · rw [Array.size_modify]
    rcases hparents e p hp with ⟨-, rfl⟩ | ⟨-, hp⟩
    · exact hparent
    · exact h.parent e p hp
  · rw [Array.size_modify]
    exact h.home c hc
  · let lift (e : EnvRef) : Nat := if s.Encloses scope e then rank parent + 1 else 0
    refine ⟨fun e => rank e + lift e, fun e p hp => ?_⟩
    show rank p + lift p < rank e + lift e
    rcases hparents e p hp with ⟨rfl, rfl⟩ | ⟨he, hp⟩
    · have hinside : lift e = rank p + 1 := if_pos (s.encloses_refl e)
      have houtside : lift p = 0 := if_neg hapart
      omega
    · -- the scope encloses both or neither, since it is not the inner of the two
      have hsame : s.Encloses scope e ↔ s.Encloses scope p := by
        constructor
        · rintro ⟨links, hlinks⟩
          cases links with
          | zero =>
            cases hlinks
            exact absurd rfl he
          | succ links => exact ⟨links, by simpa [ancestor?, hp] using hlinks⟩
        · rintro ⟨links, hlinks⟩
          exact ⟨links + 1, by simpa [ancestor?, hp] using hlinks⟩
      have hlift : lift e = lift p := if_congr hsame rfl rfl
      have hlt := hrank e p hp
      omega

end Grounded
end Store

/-! ### Evaluation -/

/-- Since the store had so many environments evaluation has gone on, and all that were added are
active scopes that are younger than their parents. -/
structure Store.Deepened (size : Nat) (s : Store) : Prop where
  grounded : s.Grounded
  grown : size ≤ s.environments.size
  inner : ∀ d, size ≤ d → d < s.environments.size → s.IsInner d

namespace Store.Deepened

variable {size : Nat} {s : Store}

theorem start (h : s.Grounded) : s.Deepened s.environments.size where
  grounded := h
  grown := Nat.le_refl _
  inner _ hd hlt := absurd hlt (Nat.not_lt.2 hd)

theorem bind (h : s.Deepened size) (e : EnvRef) (n : String) (b : Binding) :
    (s.bind e n b).Deepened size where
  grounded := h.grounded.bind e n b
  grown := by
    rw [size_environments_bind]
    exact h.grown
  inner d hd hlt := by
    rw [size_environments_bind] at hlt
    obtain ⟨frame, body, p, henv, hp⟩ := h.inner d hd hlt
    rw [IsInner, getElem?_bind, henv]
    split
    · exact ⟨_, body, p, rfl, hp⟩
    · exact ⟨frame, body, p, rfl, hp⟩

theorem enter (h : s.Deepened size) {parent : EnvRef} (hparent : parent < s.environments.size)
    (frame : Frame) (body : List Value) :
    ({ s with environments := s.environments.push ⟨frame, .scope body (some parent)⟩ } :
      Store).Deepened size where
  grounded := by
    refine h.grounded.push ?_
    rintro p ⟨⟩
    exact hparent
  grown := by
    rw [Array.size_push]
    exact Nat.le_succ_of_le h.grown
  inner d hd hlt := by
    rw [Array.size_push] at hlt
    by_cases hnew : d = s.environments.size
    · exact ⟨frame, body, parent, by simp [hnew], hnew ▸ hparent⟩
    · obtain ⟨frame', body', p, henv, hp⟩ := h.inner d hd (by omega)
      exact ⟨frame', body', p, by simpa [Array.getElem?_push, hnew] using henv, hp⟩

end Store.Deepened

/-- The step is taken from a store that is deepened, and an expression is begun only in an
environment that exists. -/
structure Event.Deepens (size : Nat) (event : Event) : Prop where
  deepened : event.store.Deepened size
  exists_env : ∀ levels x d, event.step = .evaluate levels x d →
    d < event.store.environments.size

/-- Evaluation adds active scopes only, and it goes on in environments that exist. -/
def deepening (size : Nat) : Invariant where
  holds := Store.Deepened size
  grows s t := s.environments.size ≤ t.environments.size
  here s e := e < s.environments.size
  code _ := True
  allows events := ∀ event ∈ events, event.Deepens size
  refl _ := Nat.le_refl _
  trans := Nat.le_trans
  here_mono hle he := Nat.lt_of_lt_of_le he hle
  nil := by simp
  append h h' event hevent := (List.mem_append.1 hevent).elim (h event) (h' event)
  part _ _ := trivial
  closure hs hc := ⟨hs.grounded.home _ (Array.mem_of_getElem? hc), fun _ _ _ _ => trivial⟩
  evaluate hs he _ event hevent := by
    rw [List.mem_singleton.1 hevent]
    refine ⟨hs, ?_⟩
    rintro _ _ _ ⟨⟩
    exact he
  ordinary hs hst event hevent := by
    rw [List.mem_singleton.1 hevent]
    refine ⟨hs, ?_⟩
    rintro levels x d rfl
    cases hst
  select hs _ _ event hevent := by
    rcases List.mem_cons.1 hevent with rfl | hevent
    · exact ⟨hs, by rintro _ _ _ ⟨⟩⟩
    · rw [List.mem_singleton.1 hevent]
      exact ⟨hs, by rintro _ _ _ ⟨⟩⟩
  refuse hs _ _ event hevent := by
    rw [List.mem_singleton.1 hevent]
    exact ⟨hs, by rintro _ _ _ ⟨⟩⟩
  bind {s e n b} hs := ⟨hs.bind e n b, by rw [Store.size_environments_bind]⟩
  enter {s parent} frame {body} hs he _ := by
    have hsize : (s.environments.push ⟨frame, .scope body (some parent)⟩).size =
        s.environments.size + 1 := Array.size_push _
    refine ⟨hs.enter he frame body, ?_, ?_⟩
    · rw [hsize]
      exact Nat.le_succ _
    · rw [hsize]
      exact Nat.lt_succ_self _
  lambda hs he _ := ⟨⟨hs.grounded.push_closure he, hs.grown, hs.inner⟩, Nat.le_refl _⟩
  overload {s i o} hs _ := ⟨⟨hs.grounded.overload i o, hs.grown, hs.inner⟩, Nat.le_refl _⟩

/-- Parents and homes exist all along, if evaluation starts in an environment that does. -/
def anchoring : Invariant where
  holds := Store.Anchored
  grows s t := s.environments.size ≤ t.environments.size
  here s e := e < s.environments.size
  code _ := True
  allows _ := True
  refl _ := Nat.le_refl _
  trans := Nat.le_trans
  here_mono hle he := Nat.lt_of_lt_of_le he hle
  nil := trivial
  append _ _ := trivial
  part _ _ := trivial
  closure hs hc := ⟨hs.home _ (Array.mem_of_getElem? hc), fun _ _ _ _ => trivial⟩
  evaluate _ _ _ := trivial
  ordinary _ _ := trivial
  select _ _ _ := trivial
  refuse _ _ _ := trivial
  bind {s e n b} hs := ⟨hs.bind e n b, by rw [Store.size_environments_bind]⟩
  enter {s parent} frame {body} hs he _ := by
    have hsize : (s.environments.push ⟨frame, .scope body (some parent)⟩).size =
        s.environments.size + 1 := Array.size_push _
    refine ⟨hs.push ?_, ?_, ?_⟩
    · rintro p ⟨⟩
      exact he
    · rw [hsize]
      exact Nat.le_succ _
    · rw [hsize]
      exact Nat.lt_succ_self _
  lambda hs he _ := ⟨hs.push_closure he, Nat.le_refl _⟩
  overload {s i o} hs _ := ⟨hs.overload i o, Nat.le_refl _⟩

theorem Store.Anchored.evaluation {s : Store} {e : EnvRef} (hs : s.Anchored)
    (he : e < s.environments.size) (host : Host) (depth : Nat) (expr : Value) :
    ((evalAt host depth expr e).after s).Anchored := by
  have hkeeps := anchoring.serves_evalAt host depth s e expr hs he trivial
  have houtcome := (Traced.records_evalAt host depth expr e).outcome s
  rw [← Trace.store_eq_after houtcome]
  exact hkeeps.holds

/-! ### Commands -/

namespace Command

/-- The environments that the command names. -/
def environments : Command → List EnvRef
  | createRoot | createGlobal | createScope _ | overload _ _ _ => []
  | define e _ _ _ | assign e _ _ | defun e _ _ _ | register e _ _ => [e]
  | createFunction _ _ _ home => [home]
  | letScope _ e | runLet _ e => [e]
  | enter scope parent => [scope, parent]
  | evaluate _ _ e | evaluateBody _ e | runForm _ _ _ e => [e]

/-- The environments that the command names exist, and no scope is entered from within. -/
structure Admissible (s : Store) (c : Command) : Prop where
  exist : ∀ e ∈ c.environments, e < s.environments.size
  apart : ∀ scope parent, c = .enter scope parent → ¬ s.Encloses scope parent

end Command

/-- A store that a host leads to from an empty one when it enters no scope from within. -/
inductive Store.Hosted (host : Host) : Store → Prop where
  | empty : Hosted host {}
  | perform {s : Store} (c : Command) (h : Hosted host s) (hc : c.Admissible s) :
    Hosted host ((c.perform host).after s)

section Commands

variable {host : Host} {s : Store}

/-- What is known of an evaluation from a grounded store, if its trace keeps to that. -/
theorem Store.Grounded.after_of_keeps {α : Type} {size : Nat} {a' : Traced α} {a : Action α}
    (h : (deepening size).Keeps s a') (houtcome : (a' s).outcome = a.run s) :
    (a.after s).Deepened size ∧ s.environments.size ≤ (a.after s).environments.size := by
  have hstore := Trace.store_eq_after houtcome
  exact ⟨hstore ▸ h.holds, hstore ▸ h.grows⟩

theorem Store.Grounded.after_activate (hs : s.Grounded) {scope parent : EnvRef}
    (hparent : parent < s.environments.size) (hapart : ¬ s.Encloses scope parent) :
    ((scope.activate parent).after s).Grounded ∧
      ((scope.activate parent).after s).environments.size = s.environments.size := by
  refine EnvRef.after_activate
    (P := fun t => t.Grounded ∧ t.environments.size = s.environments.size) ⟨hs, rfl⟩ ?_
  intro frame body hscope
  exact ⟨hs.activate hscope hparent hapart, Array.size_modify⟩

/-- The command leaves the store grounded, and so do the evaluations that it starts, all along. -/
structure Command.Settles (host : Host) (s : Store) (c : Command) : Prop where
  grounded : ((c.perform host).after s).Grounded
  deepens : ∀ event ∈ (c.traced host s).events, event.Deepens s.environments.size

namespace Command

theorem Settles.of_keeps {c : Command}
    (h : (deepening s.environments.size).Keeps s (c.traced host)) : c.Settles host s where
  grounded := (Store.Grounded.after_of_keeps h (follows_traced host c s)).1.grounded
  deepens := h.allows

theorem Settles.of_silent {c : Command} (hc : c.traced host = Traced.silent (c.perform host))
    (h : ((c.perform host).after s).Grounded) : c.Settles host s where
  grounded := h
  deepens event hevent := by
    rw [hc] at hevent
    cases hevent

theorem settles_letScope (hs : s.Grounded) {e : EnvRef} (he : e < s.environments.size)
    (args : List Value) : (letScope args e).Settles host s := by
  have hserves := (deepening s.environments.size).serves_evalAt host 1
  have hstart := Store.Deepened.start hs
  have hkeeps : ∀ l : Let, ∀ t : Store, t.Deepened s.environments.size →
      e < t.environments.size → (deepening s.environments.size).Keeps t
        (Traced.bindAll (Traced.evalAt host 1) e l.bindings {}) := fun l t ht he =>
    Invariant.keeps_bindAll hserves ht he (fun _ _ => trivial) {}
  constructor
  · refine Action.after_ofExcept_bind hs fun l _ => ?_
    have hrecords := Traced.records_bindAll (Traced.records_evalAt host 1) e l.bindings {}
    have hframe := Store.Grounded.after_of_keeps (hkeeps l s hstart he) (hrecords.outcome s)
    rw [Action.after_discard]
    refine Action.after_bind hframe.1.grounded fun frame t _ ht => ht.push ?_
    rintro p ⟨⟩
  · have hargs : (deepening s.environments.size).Keeps s (Traced.check (Let.ofArgs args)) :=
      Invariant.keeps_check hstart (Let.ofArgs_sparesCounts args)
    refine hargs.allows_bind fun l t _ ht hgrow => ?_
    exact (hkeeps l t ht (Nat.lt_of_lt_of_le he hgrow)).allows_bind fun frame u _ _ _ =>
      (deepening _).nil

theorem settles_enter (hs : s.Grounded) {scope parent : EnvRef}
    (hc : (enter scope parent).Admissible s) : (enter scope parent).Settles host s := by
  have hscope : scope < s.environments.size := hc.exist scope List.mem_cons_self
  have hparent : parent < s.environments.size :=
    hc.exist parent (List.mem_cons_of_mem scope List.mem_cons_self)
  obtain ⟨hactivated, hsize⟩ := hs.after_activate hparent (hc.apart scope parent rfl)
  have hkeeps : ∀ t : Store, t.Grounded → t.environments.size = s.environments.size →
      (deepening s.environments.size).Keeps t
        (Traced.evalBody (Traced.evalAt host 1) (t.body scope) scope) := by
    intro t ht hsize
    have hserves := (deepening s.environments.size).serves_evalAt host 1
    have hstart := Store.Deepened.start ht
    rw [← hsize] at hscope hserves ⊢
    exact Invariant.keeps_evalBody hserves hstart hscope fun _ _ => trivial
  constructor
  · rw [perform, Action.after_discard]
    refine Action.after_bind hactivated fun _ t hr ht => ?_
    rw [Action.after_of_ok hr] at hsize
    have hrecords := Traced.records_evalBody (Traced.records_evalAt host 1) (t.body scope) scope
    exact (Store.Grounded.after_of_keeps (hkeeps t ht hsize) (hrecords.outcome t)).1.grounded
  · cases hr : (scope.activate parent).run s with
    | error x t =>
      have hbody : (do scope.activate parent; return (← get).body scope :
          Action (List Value)).run s = .error x t := by rw [EStateM.run_bind, hr]
      rw [traced, Traced.events_silent_bind_of_error hbody]
      simp
    | ok _ t =>
      rw [Action.after_of_ok hr] at hactivated hsize
      have hbody : (do scope.activate parent; return (← get).body scope :
          Action (List Value)).run s = .ok (t.body scope) t := by
        rw [EStateM.run_bind, hr]
        rfl
      rw [traced, Traced.events_silent_bind hbody]
      exact (hkeeps t hactivated hsize).discard.allows

theorem settles (hs : s.Grounded) {c : Command} (hc : c.Admissible s) : c.Settles host s := by
  have hserves := (deepening s.environments.size).serves_evalAt host
  have hstart := Store.Deepened.start hs
  have hexist := hc.exist
  cases c with
  | createRoot =>
    refine .of_silent rfl ?_
    rw [perform, Action.after_discard]
    exact hs.push (by rintro p ⟨⟩)
  | createGlobal =>
    refine .of_silent rfl ?_
    rw [perform, Action.after_discard, Action.after_of_ok (Store.run_createGlobal s)]
    exact hs.push (by rintro p ⟨⟩)
  | createScope body =>
    refine .of_silent rfl ?_
    rw [perform, Action.after_discard]
    exact hs.push (by rintro p ⟨⟩)
  | define e name kind value =>
    exact .of_silent rfl <| Action.after_ofExcept_bind hs fun slot _ =>
      EnvRef.after_define hs fun _ => hs.bind e name _
  | assign e name value =>
    exact .of_silent rfl <| EnvRef.after_assign hs fun o _ _ _ _ => hs.bind o name _
  | defun e name params body =>
    refine .of_silent rfl <| Action.after_ofExcept_bind hs fun o _ =>
      EnvRef.after_defun hs (fun _ => ?_) fun f _ _ => hs.overload f.index o
    exact (hs.push_closure (hexist e List.mem_cons_self)).bind e name _
  | register e name code => exact .of_silent rfl (hs.bind e name _)
  | createFunction name params body home =>
    refine .of_silent rfl <| Action.after_ofExcept_bind hs fun o _ => ?_
    rw [Action.after_discard]
    exact hs.push_closure (hexist home List.mem_cons_self)
  | overload f params body =>
    exact .of_silent rfl <| Action.after_ofExcept_bind hs fun o _ =>
      FunctionRef.after_overload hs fun _ => hs.overload f.index o
  | letScope args e => exact settles_letScope hs (hexist e List.mem_cons_self) args
  | runLet l e =>
    exact .of_keeps (Invariant.keeps_runLet (hserves 1) hstart (hexist e List.mem_cons_self)
      trivial).discard
  | enter scope parent => exact settles_enter hs hc
  | evaluate depth expr e =>
    exact .of_keeps (hserves depth s e expr hstart (hexist e List.mem_cons_self) trivial).discard
  | evaluateBody body e =>
    exact .of_keeps (Invariant.keeps_evalBody (hserves 1) hstart (hexist e List.mem_cons_self)
      fun _ _ => trivial).discard
  | runForm form depth args e =>
    exact .of_keeps (Invariant.keeps_runForm (hserves (depth + 1)) hstart
      (hexist e List.mem_cons_self) trivial).discard

end Command

theorem Store.Hosted.grounded (h : s.Hosted host) : s.Grounded := by
  induction h with
  | empty => exact .empty
  | perform c _ hc ih => exact (Command.settles ih hc).grounded

/-- In every store that a host leads to, if it enters no scope from within, going up from an
environment meets no environment twice and ends at a root or a constructed scope, so that the
search for a name ends as well, with the owner that look-ups and assignments use. That is so in
every store, too, from which evaluation takes a step when a command goes on from there. The
scopes that evaluation itself has added to it are active and younger than their parents, and an
expression is only begun in an environment that exists. -/
theorem chains_end (h : s.Hosted host) :
    s.ChainsEnd ∧
    ∀ c : Command, c.Admissible s →
      (c.traced host s).outcome = (c.perform host).run s ∧
      ∀ event ∈ (c.traced host s).events,
        event.store.ChainsEnd ∧
        (∀ d, s.environments.size ≤ d → d < event.store.environments.size →
          event.store.IsInner d) ∧
        ∀ levels x d, event.step = .evaluate levels x d → d < event.store.environments.size := by
  have hgrounded := h.grounded
  refine ⟨hgrounded.chainsEnd, fun c hc => ⟨c.follows_traced host s, fun event hevent => ?_⟩⟩
  have hdeepens := (Command.settles hgrounded hc).deepens event hevent
  exact ⟨hdeepens.deepened.grounded.chainsEnd, hdeepens.deepened.inner, hdeepens.exists_env⟩

end Commands

/-- A scope is entered inside another, and that one inside the root afterwards. -/
theorem chains_end_of_late_parent :
    let s : Store := ⟨#[⟨{}, .root⟩, ⟨{}, .scope [] (some 2)⟩, ⟨{}, .scope [] (some 0)⟩], #[]⟩
    let inner := Command.runLet ⟨[], [.bool true]⟩ 1
    s.ChainsEnd ∧
    (∀ event ∈ (inner.traced (fun _ _ => .ok .unspecified) s).events, event.store.ChainsEnd) ∧
    (inner.traced (fun _ _ => .ok .unspecified) s).events.length = 3 := by
  intro s inner
  have hroot : Store.Hosted (fun _ _ => .ok .unspecified) ⟨#[⟨{}, .root⟩], #[]⟩ :=
    .perform .createRoot .empty ⟨by simp [Command.environments], by simp⟩
  have hscope : Store.Hosted (fun _ _ => .ok .unspecified)
      ⟨#[⟨{}, .root⟩, ⟨{}, .scope [] none⟩], #[]⟩ :=
    .perform (.createScope []) hroot ⟨by simp [Command.environments], by simp⟩
  have hscopes : Store.Hosted (fun _ _ => .ok .unspecified)
      ⟨#[⟨{}, .root⟩, ⟨{}, .scope [] none⟩, ⟨{}, .scope [] none⟩], #[]⟩ :=
    .perform (.createScope []) hscope ⟨by simp [Command.environments], by simp⟩
  -- nothing lies around the two parents when they are named
  have houter : ∀ (s : Store) d e, s.parent? e = none → d ≠ e → ¬ s.Encloses d e := by
    rintro s d e hp hne ⟨links, hlinks⟩
    cases links with
    | zero => exact hne (Option.some.inj hlinks).symm
    | succ links => simp [Store.ancestor?, hp] at hlinks
  have hentered : Store.Hosted (fun _ _ => .ok .unspecified)
      ⟨#[⟨{}, .root⟩, ⟨{}, .scope [] (some 2)⟩, ⟨{}, .scope [] none⟩], #[]⟩ :=
    .perform (.enter 1 2) hscopes
      ⟨by simp [Command.environments], by rintro _ _ ⟨⟩; exact houter _ 1 2 rfl (by decide)⟩
  have hs : s.Hosted (fun _ _ => .ok .unspecified) :=
    .perform (.enter 2 0) hentered
      ⟨by simp [Command.environments], by rintro _ _ ⟨⟩; exact houter _ 2 0 rfl (by decide)⟩
  obtain ⟨hends, hcommands⟩ := chains_end hs
  have hinner : inner.Admissible s := ⟨by simp [inner, s, Command.environments], by simp [inner]⟩
  exact ⟨hends, fun event hevent => ((hcommands inner hinner).2 event hevent).1, rfl⟩

end LexicalLisp
