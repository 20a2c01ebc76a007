import LexicalLisp.Proofs.Containment
import LexicalLisp.Proofs.Handles
import LexicalLisp.Proofs.Separation
import LexicalLisp.Proofs.Soundness
import LexicalLisp.Proofs.Uniformity

/-!
# Evaluation touches only what it can reach

What cannot be reached from an expression and its environment, or from a function and its
arguments, is foreign to the evaluation. So it stays as it is, and it does not matter what it is:
evaluation in a store with anything else there has the same outcome. If that store has more places
as well, then what evaluation makes gets later numbers there, and the outcomes are the same but for
these.
-/
namespace LexicalLisp

/-- What the evaluator can be asked for: the value of an expression in an environment, or what a
function gives for some arguments. -/
inductive Task where
  | evaluate (expr : Value) (e : EnvRef)
  | call (f : FunctionRef) (args : List Value)

namespace Task

def action (host : Host) (depth : Nat) : Task → Action Value
  | evaluate expr e => evalAt host depth expr e
  | call f args => f.call (evalAt host depth) args

/-- The place is named in the task. -/
inductive Root : Task → Place → Prop
  | environment (expr : Value) (e : EnvRef) : Root (.evaluate expr e) (.environment e)
  | expression {expr : Value} {e : EnvRef} {i : Nat} (h : expr.Mentions i) :
      Root (.evaluate expr e) (.function i)
  | function (f : FunctionRef) (args : List Value) : Root (.call f args) (.function f.index)
  | argument {f : FunctionRef} {args : List Value} {v : Value} {i : Nat} (hv : v ∈ args)
      (h : v.Mentions i) : Root (.call f args) (.function i)

def Reaches (task : Task) (s : Store) (p : Place) : Prop := Reach s.CodeLinks task.Root p

/-- Everything that the task can reach is there. -/
def Whole (task : Task) (s : Store) : Prop := ∀ p, task.Reaches s p → p.Exists s

/-- The task can reach the place, or it is yet to be made. -/
def Region (task : Task) (s : Store) (p : Place) : Prop := task.Reaches s p ∨ ¬ p.Exists s

end Task

/-- The two runs have one result or one error, and leave the same at these places. -/
def SameOutcome (region : Place → Prop) :
    EStateM.Result Error Store Value → EStateM.Result Error Store Value → Prop
  | .ok v t, r => ∃ t', r = .ok v t' ∧ ∀ p, region p → p.Same t t'
  | .error x t, r => ∃ t', r = .error x t' ∧ ∀ p, region p → p.Same t t'

/-! ### Stores with as many places -/

namespace Task

variable {host : Host} {task : Task} {s s' : Store} {p q : Place}

theorem Region.link (hp : task.Region s p) (h : s.CodeLinks p q) : task.Region s q := by
  rcases hp with hp | hp
  · exact Or.inl (.link hp h)
  · exact absurd h.exists_left hp

open Classical in
/-- The place is there, and the task does not reach it. -/
noncomputable def isForeign (task : Task) (s : Store) (p : Place) : Bool :=
  decide (¬ task.Region s p)

open Classical in
theorem isForeign_eq_true_iff :
    task.isForeign s p = true ↔ p.Exists s ∧ ¬ task.Reaches s p := by
  rw [isForeign, decide_eq_true_eq, Region, not_or, not_not, and_comm]

open Classical in
theorem isForeign_eq_false_iff : task.isForeign s p = false ↔ task.Region s p := by
  rw [isForeign, decide_eq_false_iff_not, not_not]

theorem related_of_same (henvironments : s'.environments.size = s.environments.size)
    (hclosures : s'.closures.size = s.closures.size)
    (hsame : ∀ p, task.Reaches s p → p.Same s s') :
    (separation (task.isForeign s) s s').related () s s' := by
  have hexists : ∀ p : Place, p.Exists s' ↔ p.Exists s := fun p =>
    Place.exists_iff_of_sizes henvironments hclosures
  refine ⟨.of_links ?_ ?_, .of_links ?_ ?_, henvironments, hclosures, ?_⟩
  · intro p hp
    exact (isForeign_eq_true_iff.1 hp).1
  · intro p q hp h
    exact isForeign_eq_false_iff.2 ((isForeign_eq_false_iff.1 hp).link h)
  · intro p hp
    exact (hexists p).2 (isForeign_eq_true_iff.1 hp).1
  · intro p q hp h
    rcases isForeign_eq_false_iff.1 hp with hp | hp
    · have hlink : s.CodeLinks p q := h.congr (hsame p hp).symm
      exact isForeign_eq_false_iff.2 (Or.inl (.link hp hlink))
    · exact absurd ((hexists p).1 h.exists_left) hp
  · intro p hp
    rcases isForeign_eq_false_iff.1 hp with hp | hp
    · exact hsame p hp
    · exact Place.same_of_not_exists hp (mt (hexists p).1 hp)

/-- In related stores a task that starts at no foreign place has outcomes that agree. -/
theorem agrees_action (hhost : host.Uniform) (depth : Nat) {foreign : Place → Bool}
    {s₀ s₀' : Store} (hroots : ∀ p, task.Root p → foreign p = false)
    (hs : (separation foreign s₀ s₀').related () s s') :
    ∃ e, (separation foreign s₀ s₀').Agrees e () (fun _ => Value.Avoids foreign)
      ((task.action host depth).run s) ((task.action host depth).run s') := by
  have L : (separation foreign s₀ s₀').Lawful (Code.run host) (Code.run host) :=
    separation.lawful hhost
  have hev := L.evalWithin (maxDepth - depth)
  cases task with
  | evaluate expr e =>
    have hexpr : expr.Avoids foreign := Value.avoids_iff.2 fun i hi => hroots _ (.expression hi)
    exact ⟨e, hev e () expr (hroots _ (.environment expr e)) hexpr s s' hs⟩
  | call f args =>
    have hf : (Value.function f).Avoids foreign := congrArg not (hroots _ (.function f args))
    have hargs : ∀ v ∈ args, v.Avoids foreign := fun v hv =>
      Value.avoids_iff.2 fun i hi => hroots _ (.argument hv hi)
    exact ⟨_, L.call hev hs.1.environment_size hf hargs s s' hs⟩

theorem agrees_of_same (hhost : host.Uniform) (depth : Nat)
    (henvironments : s'.environments.size = s.environments.size)
    (hclosures : s'.closures.size = s.closures.size)
    (hsame : ∀ p, task.Reaches s p → p.Same s s') :
    ∃ e, (separation (task.isForeign s) s s').Agrees e () (fun _ => Value.Avoids (task.isForeign s))
      ((task.action host depth).run s) ((task.action host depth).run s') :=
  agrees_action hhost depth (fun _ hp => isForeign_eq_false_iff.2 (Or.inl (.root hp)))
    (related_of_same henvironments hclosures hsame)

/-- What a task does not reach stays what it is. -/
theorem same_after (hhost : host.Uniform) (depth : Nat) (hp : p.Exists s)
    (hreach : ¬ task.Reaches s p) : p.Same s ((task.action host depth).after s) := by
  have hforeign := isForeign_eq_true_iff.2 ⟨hp, hreach⟩
  have hsame : ∀ q, task.Reaches s q → q.Same s s := fun q _ => Place.Same.refl s q
  obtain ⟨e, h⟩ := agrees_of_same hhost depth rfl rfl hsame
  cases hr : (task.action host depth).run s with
  | ok v t =>
    rw [hr] at h
    obtain ⟨_, t', -, -, ht, -⟩ := h
    rw [Action.after_of_ok hr]
    exact ht.1.kept p hforeign
  | error x t =>
    rw [hr] at h
    rcases h with hcut | ⟨-, _, t', -, -, -, ht⟩
    · exact hcut.elim
    · rw [Action.after_of_error hr]
      exact ht.1.kept p hforeign

/-- What a task does not reach does not matter. -/
theorem sameOutcome_of_same (hhost : host.Uniform) (depth : Nat)
    (henvironments : s'.environments.size = s.environments.size)
    (hclosures : s'.closures.size = s.closures.size)
    (hsame : ∀ p, task.Reaches s p → p.Same s s') :
    SameOutcome (task.Region s) ((task.action host depth).run s)
      ((task.action host depth).run s') := by
  obtain ⟨e, h⟩ := agrees_of_same hhost depth henvironments hclosures hsame
  cases hr : (task.action host depth).run s with
  | ok v t =>
    rw [hr] at h
    obtain ⟨_, t', hr', -, ht, -⟩ := h
    exact ⟨t', hr', fun p hp => ht.2.2.same p (isForeign_eq_false_iff.2 hp)⟩
  | error x t =>
    rw [hr] at h
    rcases h with hcut | ⟨_, _, t', hr', rfl, -, ht⟩
    · exact hcut.elim
    · exact ⟨t', hr', fun p hp => ht.2.2.same p (isForeign_eq_false_iff.2 hp)⟩

end Task

/-! ### Stores with more places -/

/-- The second store has the same at these places. At others it may have anything, and it may have
more. -/
structure Store.VariesOutside (region : Place → Prop) (s s' : Store) : Prop where
  environments : s.environments.size ≤ s'.environments.size
  closures : s.closures.size ≤ s'.closures.size
  same : ∀ p, region p → p.Same s s'

/-- What the second store has behind the places of the first. -/
def Store.extras (s s' : Store) : Insertion :=
  ⟨⟨s.environments.size, s'.environments.toList.drop s.environments.size⟩,
    ⟨s.closures.size, s'.closures.toList.drop s.closures.size⟩⟩

namespace Insertion

variable (I : Insertion)

def place : Place → Place
  | .environment e => .environment (I.env e)
  | .function i => .function (I.fn i)

/-- After the insertion the second store has there what the first has at this place. -/
def Copied (t t' : Store) : Place → Prop
  | .environment e => t'.environments[I.env e]? = t.environments[e]?.map I.environment
  | .function i => t'.closures[I.fn i]? = t.closures[i]?.map I.closure

/-- The two runs have one result or one error, and leave the same at these places, but for the
numbers. -/
def SameOutcome (region : Place → Prop) :
    EStateM.Result Error Store Value → EStateM.Result Error Store Value → Prop
  | .ok v t, r => ∃ t', r = .ok (I.value v) t' ∧ ∀ p, region p → I.Copied t t' p
  | .error x t, r => ∃ t', r = .error (x.rename I.fn) t' ∧ ∀ p, region p → I.Copied t t' p

variable {I}

theorem Relates.exists_place_iff {s t : Store} (h : I.Relates s t) {p : Place} :
    (I.place p).Exists t ↔ p.Exists s := by
  cases p with
  | environment e => exact h.environments.move_lt_iff
  | function i => exact h.closures.move_lt_iff

theorem Relates.copied {t t₁ t' : Store} (h : I.Relates t t₁) {p : Place}
    (hsame : (I.place p).Same t₁ t') : I.Copied t t' p := by
  cases p with
  | environment e => exact Eq.trans hsame (h.environments.moved e)
  | function i => exact Eq.trans hsame (h.closures.moved i)

end Insertion

namespace Store

variable {s s' : Store} {p : Place}

theorem env_extras_of_lt {e : EnvRef} (h : e < s.environments.size) : (s.extras s').env e = e :=
  Gap.move_of_lt _ h

theorem fn_extras_of_lt {i : Nat} (h : i < s.closures.size) : (s.extras s').fn i = i :=
  Gap.move_of_lt _ h

theorem place_extras_of_exists (h : p.Exists s) : (s.extras s').place p = p := by
  cases p with
  | environment e => rw [Insertion.place, env_extras_of_lt h]
  | function i => rw [Insertion.place, fn_extras_of_lt h]

/-- The first store with the further places of the second. -/
def filled (s s' : Store) : Store :=
  ⟨s.environments.map (s.extras s').environment ++ (s.extras s').environments.filling.toArray,
    s.closures.map (s.extras s').closure ++ (s.extras s').closures.filling.toArray⟩

theorem relates_filled (s s' : Store) : (s.extras s').Relates s (s.filled s') :=
  ⟨Gap.fills_append _ _ _, Gap.fills_append _ _ _⟩

theorem size_environments_filled (h : s.environments.size ≤ s'.environments.size) :
    (s.filled s').environments.size = s'.environments.size := by
  simp only [filled, extras, Array.size_append, Array.size_map, List.size_toArray,
    List.length_drop, Array.length_toList]
  omega

theorem size_closures_filled (h : s.closures.size ≤ s'.closures.size) :
    (s.filled s').closures.size = s'.closures.size := by
  simp only [filled, extras, Array.size_append, Array.size_map, List.size_toArray,
    List.length_drop, Array.length_toList]
  omega

/-- Where nothing leads out of the store, the further places change nothing. -/
theorem Sound.same_filled (hs : s.Sound) (hp : p.Exists s)
    (hlinks : ∀ q, s.CodeLinks p q → q.Exists s) : p.Same s (s.filled s') := by
  have hrelates := relates_filled s s'
  have hfn : ∀ i < s.closures.size, (s.extras s').fn i = i := fun _ hi => fn_extras_of_lt hi
  cases p with
  | environment e =>
    have hmoved := hrelates.environments.moved e
    have henv : (s.extras s').environments.move e = e := env_extras_of_lt hp
    rw [henv] at hmoved
    refine Eq.trans hmoved ?_
    cases henv : s.environments[e]? with
    | none => rfl
    | some env =>
      have hparent : ∀ q, env.role.parent? = some q → (s.extras s').env q = q := by
        intro q hq
        have hparent : s.parent? e = some q := by simp [parent?, henv, hq]
        exact env_extras_of_lt (hlinks _ (.link (.parent hparent)))
      have hwithin := hs.environments env (Array.mem_of_getElem? henv)
      rw [Option.map_some, Insertion.environment_eq_self hfn hwithin hparent]
  | function i =>
    have hmoved := hrelates.closures.moved i
    have hindex : (s.extras s').closures.move i = i := fn_extras_of_lt hp
    rw [hindex] at hmoved
    refine Eq.trans hmoved ?_
    cases hc : s.closures[i]? with
    | none => rfl
    | some c =>
      have hhome : (s.extras s').env c.home = c.home :=
        env_extras_of_lt (hlinks _ (.link (.home hc)))
      have hwithin := hs.closures c (Array.mem_of_getElem? hc)
      rw [Option.map_some, Insertion.closure_eq_self hfn hwithin hhome]

end Store

namespace Task

variable {host : Host} {task : Task} {s s' : Store} {p : Place}

/-- The task with the numbers after the insertion. -/
def rename (I : Insertion) : Task → Task
  | evaluate expr e => evaluate (I.value expr) (I.env e)
  | call f args => call (f.rename I.fn) (args.map I.value)

theorem rename_eq_self {I : Insertion} (h : ∀ p, task.Root p → I.place p = p) :
    task.rename I = task := by
  cases task with
  | evaluate expr e =>
    have henv : I.env e = e := Place.environment.inj (h _ (.environment expr e))
    have hexpr : I.value expr = expr :=
      Value.rename_of_mentions fun i hi => Place.function.inj (h _ (.expression hi))
    rw [rename, henv, hexpr]
  | call f args =>
    have hindex : I.fn f.index = f.index := Place.function.inj (h _ (.function f args))
    have hargs : args.map I.value = args := Value.map_rename_eq_self_iff.2 fun v hv =>
      Value.rename_of_mentions fun i hi => Place.function.inj (h _ (.argument hv hi))
    rw [rename, FunctionRef.rename, hindex, hargs]

theorem copies_action (I : Insertion) (hhost : host.Uniform) (depth : Nat) (task : Task) :
    I.Copies I.value (task.action host depth) ((task.rename I).action host depth) := by
  have hev := I.uniform_evalAt hhost depth
  cases task with
  | evaluate expr e => exact hev expr e
  | call f args => exact hev.call f args

/-- What a task does not reach does not matter, nor how much there is of it. -/
theorem sameOutcome_of_variesOutside (hhost : host.Uniform) (depth : Nat) (hs : s.Sound)
    (hwhole : task.Whole s) (h : s.VariesOutside (task.Reaches s) s') :
    (s.extras s').SameOutcome (task.Region s) ((task.action host depth).run s)
      ((task.action host depth).run s') := by
  have hsame : ∀ p, task.Reaches s p → p.Same s (s.filled s') := fun p hp =>
    hs.same_filled (hwhole p hp) fun q hq => hwhole q (.link hp hq)
  -- first to the store with the further places, then to the one that has something else elsewhere
  have hcopies := copies_action (s.extras s') hhost depth task s (s.filled s')
    (Store.relates_filled s s')
  rw [rename_eq_self fun p hp => Store.place_extras_of_exists (hwhole p (.root hp))] at hcopies
  have hsame' : ∀ p, task.Reaches (s.filled s') p → p.Same (s.filled s') s' := by
    intro p hp
    have hp : task.Reaches s p := Reach.of_congr hsame hp
    exact (hsame p hp).symm.trans (h.same p hp)
  have houtcome := sameOutcome_of_same hhost depth
    (Store.size_environments_filled h.environments).symm
    (Store.size_closures_filled h.closures).symm hsame'
  have hregion : ∀ p, task.Region s p → task.Region (s.filled s') ((s.extras s').place p) := by
    intro p hp
    rcases hp with hp | hp
    · rw [Store.place_extras_of_exists (hwhole p hp)]
      exact Or.inl (Reach.congr hsame hp)
    · refine Or.inr fun hexists => ?_
      exact absurd ((Store.relates_filled s s').exists_place_iff.1 hexists) hp
  cases hr : (task.action host depth).run s with
  | ok v t =>
    rw [hr] at hcopies
    obtain ⟨t₁, hr₁, ht₁⟩ := hcopies
    rw [hr₁] at houtcome
    obtain ⟨t', hr', ht'⟩ := houtcome
    exact ⟨t', hr', fun p hp => ht₁.copied (ht' _ (hregion p hp))⟩
  | error x t =>
    rw [hr] at hcopies
    obtain ⟨t₁, hr₁, ht₁⟩ := hcopies
    rw [hr₁] at houtcome
    obtain ⟨t', hr', ht'⟩ := houtcome
    exact ⟨t', hr', fun p hp => ht₁.copied (ht' _ (hregion p hp))⟩

/-! ### Two tasks, one after the other -/

/-- What happened between the two stores is nothing to the task: all that it can reach is the same,
and so is its outcome, but for the numbers of what it makes. -/
def Undisturbed (host : Host) (task : Task) (s t : Store) : Prop :=
  (∀ p, task.Reaches s p → p.Same s t) ∧
  ∀ depth, (s.extras t).SameOutcome (task.Region s) ((task.action host depth).run s)
    ((task.action host depth).run t)

theorem size_le_after (host : Host) (depth : Nat) (task : Task) (s : Store) :
    s.environments.size ≤ ((task.action host depth).after s).environments.size ∧
      s.closures.size ≤ ((task.action host depth).after s).closures.size := by
  cases task with
  | evaluate expr e =>
    have h := Store.contained_evalWithin (Code.run host) (maxDepth - depth) expr e s
    exact ⟨h.size_environments, h.size_closures⟩
  | call f args =>
    have h := Store.contained_call (Code.run host) (maxDepth - depth) f args s
    exact ⟨h.size_environments, h.size_closures⟩

variable {other : Task}

/-- A task disturbs another one only in places that both can reach. -/
theorem undisturbed_of_shared (hhost : host.Uniform) (depth : Nat) (hs : s.Sound)
    (hwhole : other.Whole s)
    (hshared : ∀ p, task.Reaches s p → other.Reaches s p →
      p.Same s ((task.action host depth).after s)) :
    other.Undisturbed host s ((task.action host depth).after s) := by
  have hsame : ∀ p, other.Reaches s p → p.Same s ((task.action host depth).after s) := by
    intro p hp
    by_cases hreach : task.Reaches s p
    · exact hshared p hreach hp
    · exact same_after hhost depth (hwhole p hp) hreach
  obtain ⟨henvironments, hclosures⟩ := size_le_after host depth task s
  exact ⟨hsame, fun depth' =>
    sameOutcome_of_variesOutside hhost depth' hs hwhole ⟨henvironments, hclosures, hsame⟩⟩

/-- Two tasks that share no environment share no function, for they would share its home. -/
theorem not_shared (hwhole : other.Whole s)
    (h : ∀ e, task.Reaches s (.environment e) → ¬ other.Reaches s (.environment e)) (p : Place)
    (hp : task.Reaches s p) : ¬ other.Reaches s p := by
  intro hp'
  cases p with
  | environment e => exact h e hp hp'
  | function i =>
    have hi : i < s.closures.size := hwhole _ hp'
    have hlink : s.CodeLinks (.function i) (.environment s.closures[i].home) :=
      .link (.home (Array.getElem?_eq_getElem hi))
    exact h _ (.link hp hlink) (.link hp' hlink)

end Task

/-- Where no environment binds a function, there are only links to parents and homes. -/
theorem Store.Links.of_within_zero {s : Store} (hs : ∀ env ∈ s.environments, env.Within 0)
    {p q : Place} (h : s.Links p q) :
    (∃ e d, p = .environment e ∧ q = .environment d ∧ s.parent? e = some d) ∨
      ∃ (i : Nat) (c : Closure), p = .function i ∧ q = .environment c.home ∧
        s.closures[i]? = some c := by
  cases h with
  | parent h => exact Or.inl ⟨_, _, rfl, rfl, h⟩
  | binding h hi => exact absurd hi (Value.not_mentions_of_within (within_of_get? hs h) _)
  | home h => exact Or.inr ⟨_, _, rfl, rfl, h⟩

/-! ### Counters -/

namespace Counter

/-- Counts the variable `n` up, and gives it. -/
def body : List Value :=
  [.op (.form .assign)
    [.symbol ⟨"n", .any⟩, .op (.primitive .add) [.symbol ⟨"n", .any⟩, .number 1]],
  .symbol ⟨"n", .any⟩]

/-- The scope of a `let` that binds `n` around a counter. -/
def scope (parent : EnvRef) : Environment :=
  ⟨⟨[("n", .slot ⟨.any, .number 0⟩)]⟩,
    .scope [.op (.form .lambda) (.list [] :: body)] (some parent)⟩

/-- The counter that closes over the scope. -/
def closure (home : EnvRef) : Closure := ⟨[⟨[], body⟩], home⟩

def root : Environment := ⟨Frame.global, .root⟩

theorem within_scope (parent : EnvRef) : (scope parent).Within 0 := by
  refine ⟨fun entry hentry => ?_, fun x hx => ?_⟩
  · rw [List.mem_singleton.1 hentry]
    rfl
  · rw [List.mem_singleton.1 hx]
    rfl

theorem within_closure (home : EnvRef) : (closure home).Within 0 := by
  intro o ho x hx
  rw [List.mem_singleton.1 ho] at hx
  have hbody : body.all (Value.throughout (Value.isBelow 0)) = true := rfl
  exact List.all_eq_true.1 hbody x hx

theorem within_root : root.Within 0 :=
  ⟨Frame.Variables.within (Frame.standard_global.variables fun _ => rfl),
    fun _ hx => (List.not_mem_nil hx).elim⟩

end Counter

/-- The links alone are not enough: the code of a function may mention another one that no link
leads to. It counts nevertheless when the first is called. -/
theorem evaluation_enters_functions_in_code :
    let s : Store :=
      { environments := #[Counter.root, Counter.scope 0]
        closures := #[Counter.closure 1, ⟨[⟨[], [.list [.function ⟨"lambda", 0⟩]]⟩], 0⟩] }
    let task := Task.evaluate (.list [.function ⟨"f", 1⟩]) 0
    (Place.environment 1).Exists s ∧ ¬ Reach s.Links task.Root (.environment 1) ∧
      ¬ (Place.environment 1).Same s ((task.action (fun _ _ => .ok .unspecified) 0).after s) := by
  intro s task
  have henvironments : ∀ env ∈ s.environments, env.Within 0 := by
    simp [s, Counter.within_root, Counter.within_scope]
  have hreach : ∀ p, Reach s.Links task.Root p → p = .environment 0 ∨ p = .function 1 := by
    intro p hp
    induction hp with
    | root h =>
      have hroot : Task.Root (.evaluate (.list [.function ⟨"f", 1⟩]) 0) _ := h
      cases hroot with
      | environment => exact Or.inl rfl
      | expression hi =>
        obtain ⟨x, hx, hi⟩ := Value.mentions_list_iff.1 hi
        rw [List.mem_singleton.1 hx] at hi
        cases hi
        exact Or.inr rfl
    | @link p q _ hq ih =>
      rcases hq.of_within_zero henvironments with ⟨d, d', rfl, rfl, hd⟩ | ⟨i, c, rfl, rfl, hc⟩
      · rcases ih with ih | ih
        · cases ih
          cases hd
        · cases ih
      · rcases ih with ih | ih
        · cases ih
        · cases ih
          cases hc
          exact Or.inl rfl
  refine ⟨by decide, fun h => ?_, fun hsame => ?_⟩
  · rcases hreach _ h with h | h
    · cases h
    · cases h
  · have hcounted : ((task.action (fun _ _ => .ok .unspecified) 0).after s).local? "n" 1 =
        some (.number 1) := rfl
    rw [Store.local?, hsame.frame] at hcounted
    cases hcounted

/-- Suppose that the functions of the host do not see the numbers of handles. Then evaluation
touches only what it can reach from its environment and from the functions that are mentioned in
the expression, by the links between environments and functions and through the code of functions;
a call likewise. Everything else stays as it is. It does not matter what else is there: in any
other store with the same in reach the result or error is the same, and so is what happens to what
can be reached and what is made. If the other store has more places, then what is made has other
numbers. Hence one task does not influence another one that shares no environment with it. -/
theorem evaluation_touches_what_it_reaches {host : Host} (hhost : host.Uniform) (depth : Nat)
    (task : Task) (s : Store) :
    (∀ p, p.Exists s → ¬ task.Reaches s p → p.Same s ((task.action host depth).after s)) ∧
    (∀ s' : Store, s'.environments.size = s.environments.size →
      s'.closures.size = s.closures.size → (∀ p, task.Reaches s p → p.Same s s') →
        SameOutcome (task.Region s) ((task.action host depth).run s)
          ((task.action host depth).run s')) ∧
    (s.Sound → task.Whole s → ∀ s', s.VariesOutside (task.Reaches s) s' →
      (s.extras s').SameOutcome (task.Region s) ((task.action host depth).run s)
        ((task.action host depth).run s')) ∧
    (s.Sound → ∀ other : Task, other.Whole s →
      (∀ e, task.Reaches s (.environment e) → ¬ other.Reaches s (.environment e)) →
        other.Undisturbed host s ((task.action host depth).after s)) := by
  refine ⟨fun p => Task.same_after hhost depth, fun s' => Task.sameOutcome_of_same hhost depth,
    fun hs hwhole s' => Task.sameOutcome_of_variesOutside hhost depth hs hwhole, ?_⟩
  intro hs other hwhole hdisjoint
  refine Task.undisturbed_of_shared hhost depth hs hwhole fun p hp hp' => ?_
  exact absurd hp' (Task.not_shared hwhole hdisjoint p hp)

/-- Two counters that the same `let` has made in two environments: what the one counts is nothing
to the other. -/
theorem evaluation_touches_what_it_reaches_of_counters :
    let s : Store :=
      { environments := #[Counter.root, Counter.root, Counter.scope 0, Counter.scope 1]
        closures := #[Counter.closure 2, Counter.closure 3] }
    let t := ((Task.call ⟨"lambda", 0⟩ []).action (fun _ _ => .ok .unspecified) 1).after s
    t.local? "n" 2 = some (.number 1) ∧
      (Task.call ⟨"lambda", 1⟩ []).Undisturbed (fun _ _ => .ok .unspecified) s t := by
  intro s t
  have hhost : Host.Uniform fun _ _ => .ok .unspecified := fun _ _ _ _ => rfl
  have henvironments : ∀ env ∈ s.environments, env.Within 0 := by
    simp [s, Counter.within_root, Counter.within_scope]
  have hclosures : ∀ c ∈ s.closures, c.Within 0 := by
    simp [s, Counter.within_closure]
  have hs : s.Sound := Store.sound_of_within (Nat.zero_le _) henvironments hclosures
  have hparent : ∀ e : Nat, e < 2 → s.parent? e = none ∧ s.parent? (e + 2) = some e := by
    intro e he
    obtain rfl | rfl : e = 0 ∨ e = 1 := by omega
    · exact ⟨rfl, rfl⟩
    · exact ⟨rfl, rfl⟩
  have hhome : ∀ e : Nat, e < 2 → s.closures[e]? = some (Counter.closure (e + 2)) := by
    intro e he
    obtain rfl | rfl : e = 0 ∨ e = 1 := by omega
    · rfl
    · rfl
  have hreach : ∀ e : Nat, e < 2 → ∀ p, (Task.call ⟨"lambda", e⟩ []).Reaches s p →
      p = .function e ∨ p = .environment (e + 2) ∨ p = .environment e := by
    intro e he p hp
    induction hp with
    | root h =>
      cases h with
      | function f args => exact Or.inl rfl
      | argument hv _ => cases hv
    | @link p q _ hq ih =>
      cases hq with
      | code hc ho hx hj =>
        have hwithin := hclosures _ (Array.mem_of_getElem? hc) _ ho _ hx
        exact absurd hj (Value.not_mentions_of_within hwithin _)
      | link hq =>
        rcases hq.of_within_zero henvironments with ⟨d, d', rfl, rfl, hd⟩ | ⟨i, c, rfl, rfl, hc⟩
        · rcases ih with ih | ih | ih
          · cases ih
          · cases ih
            rw [(hparent e he).2] at hd
            cases hd
            exact Or.inr (Or.inr rfl)
          · cases ih
            rw [(hparent e he).1] at hd
            cases hd
        · rcases ih with ih | ih | ih
          · cases ih
            rw [hhome e he] at hc
            cases hc
            exact Or.inr (Or.inl rfl)
          · cases ih
          · cases ih
  obtain ⟨-, -, -, htwo⟩ := evaluation_touches_what_it_reaches hhost 1 (.call ⟨"lambda", 0⟩ []) s
  refine ⟨rfl, htwo hs _ ?_ ?_⟩
  · intro p hp
    rcases hreach 1 (by omega) p hp with rfl | rfl | rfl
    · exact (by decide : 1 < 2)
    · exact (by decide : 3 < 4)
    · exact (by decide : 1 < 4)
  · intro e he he'
    have h₀ := hreach 0 (by omega) _ he
    have h₁ := hreach 1 (by omega) _ he'
    rcases h₀ with h₀ | h₀ | h₀ <;> rcases h₁ with h₁ | h₁ | h₁ <;> cases h₀ <;> cases h₁

end LexicalLisp
