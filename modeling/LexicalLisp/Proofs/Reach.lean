import LexicalLisp.Proofs.Chain
import LexicalLisp.Proofs.Mentions

/-!
# What evaluation can reach

Environments and functions hold on to one another: an environment to its parent and to the
functions among the values it binds, a function to the environment it was defined in. This graph
may have cycles, since a function can be bound in its own environment. The code of a function may
mention functions too, if the host has put them there; no source text denotes one.
-/
namespace LexicalLisp

/-- An environment or a function, by its number in the store. -/
inductive Place where
  | environment (e : EnvRef)
  | function (i : Nat)

namespace Place

def Exists (s : Store) : Place → Prop
  | environment e => e < s.environments.size
  | function i => i < s.closures.size

instance (s : Store) : ∀ p : Place, Decidable (p.Exists s)
  | environment e => inferInstanceAs (Decidable (e < s.environments.size))
  | function i => inferInstanceAs (Decidable (i < s.closures.size))

/-- The two stores have the same at the place, or nothing. -/
def Same (s t : Store) : Place → Prop
  | environment e => t.environments[e]? = s.environments[e]?
  | function i => t.closures[i]? = s.closures[i]?

variable {s t u : Store} {p : Place}

theorem Same.refl (s : Store) : ∀ p : Place, p.Same s s
  | environment _ => rfl
  | function _ => rfl

theorem Same.symm (h : p.Same s t) : p.Same t s := by
  cases p with
  | environment e => exact Eq.symm h
  | function i => exact Eq.symm h

theorem Same.trans (h : p.Same s t) (h' : p.Same t u) : p.Same s u := by
  cases p with
  | environment e => exact Eq.trans h' h
  | function i => exact Eq.trans h' h

theorem same_of_not_exists (h : ¬ p.Exists s) (h' : ¬ p.Exists t) : p.Same s t := by
  cases p with
  | environment e =>
    have hnone : s.environments[e]? = none := Array.getElem?_eq_none (Nat.le_of_not_lt h)
    have hnone' : t.environments[e]? = none := Array.getElem?_eq_none (Nat.le_of_not_lt h')
    exact hnone'.trans hnone.symm
  | function i =>
    have hnone : s.closures[i]? = none := Array.getElem?_eq_none (Nat.le_of_not_lt h)
    have hnone' : t.closures[i]? = none := Array.getElem?_eq_none (Nat.le_of_not_lt h')
    exact hnone'.trans hnone.symm

theorem exists_iff_of_sizes (henvironments : t.environments.size = s.environments.size)
    (hclosures : t.closures.size = s.closures.size) : p.Exists t ↔ p.Exists s := by
  cases p with
  | environment e => simp only [Exists, henvironments]
  | function i => simp only [Exists, hclosures]

theorem Same.exists (h : p.Same s t) (hp : p.Exists s) : p.Exists t := by
  cases p with
  | environment e =>
    have h : t.environments[e]? = s.environments[e]? := h
    rw [Array.getElem?_eq_getElem hp] at h
    exact (Array.getElem?_eq_some_iff.1 h).1
  | function i =>
    have h : t.closures[i]? = s.closures[i]? := h
    rw [Array.getElem?_eq_getElem hp] at h
    exact (Array.getElem?_eq_some_iff.1 h).1

theorem Same.frame {e : EnvRef} (h : (environment e).Same s t) : t.frame e = s.frame e := by
  have h : t.environments[e]? = s.environments[e]? := h
  rw [Store.frame, Store.frame, h]

theorem Same.parent? {e : EnvRef} (h : (environment e).Same s t) : t.parent? e = s.parent? e := by
  have h : t.environments[e]? = s.environments[e]? := h
  rw [Store.parent?, Store.parent?, h]

/-! ### Updates elsewhere -/

theorem same_bind {e : EnvRef} (h : p ≠ environment e) (n : String) (b : Binding) :
    p.Same s (s.bind e n b) := by
  cases p with
  | environment d =>
    have hne : e ≠ d := fun heq => h (congrArg environment heq.symm)
    show (s.bind e n b).environments[d]? = s.environments[d]?
    rw [Store.getElem?_bind, if_neg hne]
  | function i => rfl

theorem same_push_environment (h : p.Exists s) (env : Environment) :
    p.Same s { s with environments := s.environments.push env } := by
  cases p with
  | environment d =>
    show (s.environments.push env)[d]? = s.environments[d]?
    rw [Array.getElem?_push, if_neg (Nat.ne_of_lt h)]
  | function i => rfl

theorem same_push_closure (h : p.Exists s) (c : Closure) :
    p.Same s { s with closures := s.closures.push c } := by
  cases p with
  | environment d => rfl
  | function i =>
    show (s.closures.push c)[i]? = s.closures[i]?
    rw [Array.getElem?_push, if_neg (Nat.ne_of_lt h)]

theorem same_modify_closure {i : Nat} (h : p ≠ function i) (g : Closure → Closure) :
    p.Same s { s with closures := s.closures.modify i g } := by
  cases p with
  | environment d => rfl
  | function j =>
    have hne : i ≠ j := fun heq => h (congrArg function heq.symm)
    show (s.closures.modify i g)[j]? = s.closures[j]?
    rw [Array.getElem?_modify, if_neg hne]

end Place

namespace Store

/-- The first place holds on to the second: by the link to a parent, by a value that is bound, in a
list or not, or by the environment that a function closes over. -/
inductive Links (s : Store) : Place → Place → Prop
  | parent {e p : EnvRef} (h : s.parent? e = some p) : Links s (.environment e) (.environment p)
  | binding {e : EnvRef} {n : String} {b : Binding} {i : Nat} (h : (s.frame e).get? n = some b)
      (hi : b.value.Mentions i) : Links s (.environment e) (.function i)
  | home {i : Nat} {c : Closure} (h : s.closures[i]? = some c) :
      Links s (.function i) (.environment c.home)

/-- The first place holds on to the second, or it is a function and its code mentions the second. -/
inductive CodeLinks (s : Store) : Place → Place → Prop
  | link {p q : Place} (h : s.Links p q) : CodeLinks s p q
  | code {i j : Nat} {c : Closure} {o : Overload} {x : Value} (h : s.closures[i]? = some c)
      (ho : o ∈ c.overloads) (hx : x ∈ o.body) (hj : x.Mentions j) :
      CodeLinks s (.function i) (.function j)

variable {s t : Store} {p q : Place}

/-- Links go out from what is at a place. -/
theorem Links.congr (hp : p.Same s t) (h : s.Links p q) : t.Links p q := by
  cases h with
  | parent h => exact .parent (hp.parent?.trans h)
  | binding h hi =>
    rw [← hp.frame] at h
    exact .binding h hi
  | home h => exact .home (Eq.trans hp h)

theorem CodeLinks.congr (hp : p.Same s t) (h : s.CodeLinks p q) : t.CodeLinks p q := by
  cases h with
  | link h => exact .link (h.congr hp)
  | code h ho hx hj => exact .code (Eq.trans hp h) ho hx hj

theorem CodeLinks.exists_left (h : s.CodeLinks p q) : p.Exists s := by
  cases h with
  | link h =>
    cases h with
    | parent h => exact lt_size_of_parent? h
    | @binding e n b i h _ =>
      have hbinds : (s.frame e).binds n = true := by simp [Frame.binds, h]
      exact lt_size_of_binds hbinds
    | home h => exact (Array.getElem?_eq_some_iff.1 h).1
  | code h _ _ _ => exact (Array.getElem?_eq_some_iff.1 h).1

end Store

/-- The links lead from a root to the place. -/
inductive Reach (links : Place → Place → Prop) (roots : Place → Prop) : Place → Prop
  | root {p : Place} (h : roots p) : Reach links roots p
  | link {p q : Place} (h : Reach links roots p) (hq : links p q) : Reach links roots q

variable {roots : Place → Prop} {p : Place}

/-- In a store that has the same where the one can be reached, the same can be reached. -/
theorem Reach.congr {s t : Store} (hsame : ∀ p, Reach s.CodeLinks roots p → p.Same s t)
    (h : Reach s.CodeLinks roots p) : Reach t.CodeLinks roots p := by
  induction h with
  | root h => exact .root h
  | @link p q h hq ih => exact .link ih (hq.congr (hsame p h))

/-- In a store that has the same where the one can be reached, nothing else can be reached. -/
theorem Reach.of_congr {s t : Store} (hsame : ∀ p, Reach s.CodeLinks roots p → p.Same s t)
    (h : Reach t.CodeLinks roots p) : Reach s.CodeLinks roots p := by
  induction h with
  | root h => exact .root h
  | @link p q _ hq ih => exact .link ih (hq.congr (hsame p ih).symm)

end LexicalLisp
