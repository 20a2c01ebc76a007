import Mathlib.Data.Fintype.EquivFin
import Mathlib.Data.Nat.Find
import LexicalLisp.Store.Definition

/-!
# Chains of environments

A name that some environment of a chain binds is found from the start of the chain. The
search counts its links, and the count suffices: the shortest way to an environment passes
no environment twice, so it has fewer links than the store has environments.
-/
namespace LexicalLisp.Store

variable {s : Store} {name : String} {d e : EnvRef}

/-- The environment that lies this many links up the chain. -/
def ancestor? (s : Store) : (links : Nat) → EnvRef → Option EnvRef
  | 0, e => some e
  | links + 1, e => (s.parent? e).bind (s.ancestor? links)

/-- The first environment is the second or lies around it. -/
def Encloses (s : Store) (d e : EnvRef) : Prop := ∃ links, s.ancestor? links e = some d

theorem encloses_refl (s : Store) (e : EnvRef) : s.Encloses e e := ⟨0, rfl⟩

/-- What holds of an environment and goes over to parents holds of all that lies around it. -/
theorem Encloses.of_parents {P : EnvRef → Prop} (h : s.Encloses d e) (he : P e)
    (hparent : ∀ x p, P x → s.parent? x = some p → P p) : P d := by
  obtain ⟨links, h⟩ := h
  induction links generalizing e with
  | zero =>
    cases h
    exact he
  | succ links ih =>
    obtain ⟨p, hp, hd⟩ := Option.bind_eq_some_iff.1 h
    exact ih (hparent e p he hp) hd

theorem parent?_of_push {env : Environment} {p : EnvRef}
    (h : ({ s with environments := s.environments.push env } : Store).parent? d = some p) :
    (d = s.environments.size ∧ env.role.parent? = some p) ∨ s.parent? d = some p := by
  by_cases hnew : d = s.environments.size
  · subst hnew
    exact Or.inl ⟨rfl, by simpa [parent?] using h⟩
  · exact Or.inr (by simpa [parent?, Array.getElem?_push, hnew] using h)

/-- The parents of environments are there, and so are the homes of functions. -/
structure Anchored (s : Store) : Prop where
  parent : ∀ e p, s.parent? e = some p → p < s.environments.size
  home : ∀ c ∈ s.closures, c.home < s.environments.size

theorem Anchored.parent_of_mem (h : s.Anchored) {env : Environment} (henv : env ∈ s.environments)
    {p : EnvRef} (hp : env.role.parent? = some p) : p < s.environments.size := by
  obtain ⟨e, he⟩ := Array.mem_iff_getElem?.1 henv
  exact h.parent e p (by simp [parent?, he, hp])

theorem ancestor?_add (s : Store) (m n : Nat) (e : EnvRef) :
    s.ancestor? (m + n) e = (s.ancestor? m e).bind (s.ancestor? n) := by
  induction m generalizing e with
  | zero => simp [ancestor?]
  | succ m ih =>
    rw [Nat.succ_add]
    cases hp : s.parent? e with
    | none => simp [ancestor?, hp]
    | some p => simp [ancestor?, hp, ih]

theorem lt_size_of_parent? {p : EnvRef} (h : s.parent? e = some p) : e < s.environments.size := by
  obtain ⟨env, henv, -⟩ := Option.bind_eq_some_iff.1 h
  exact (Array.getElem?_eq_some_iff.1 henv).1

theorem lt_size_of_binds (h : (s.frame e).binds name = true) : e < s.environments.size := by
  cases henv : s.environments[e]? with
  | none => simp [frame, henv, Frame.binds] at h
  | some env => exact (Array.getElem?_eq_some_iff.1 henv).1

/-- Below the end of a chain there are environments of the store only. -/
theorem exists_ancestor? {k j : Nat} (h : s.ancestor? k e = some d) (hj : j < k) :
    ∃ x, s.ancestor? j e = some x ∧ x < s.environments.size := by
  obtain ⟨n, rfl⟩ : ∃ n, k = j + (n + 1) := ⟨k - j - 1, by omega⟩
  rw [ancestor?_add] at h
  obtain ⟨x, hx, hd⟩ := Option.bind_eq_some_iff.1 h
  obtain ⟨p, hp, -⟩ := Option.bind_eq_some_iff.1 hd
  exact ⟨x, hx, lt_size_of_parent? hp⟩

/-- The shortest way to an environment of the store has fewer links than there are environments. -/
theorem Encloses.exists_short (h : s.Encloses d e) (hd : d < s.environments.size) :
    ∃ k, k < s.environments.size ∧ s.ancestor? k e = some d := by
  have hk : s.ancestor? (Nat.find h) e = some d := Nat.find_spec h
  generalize hlinks : Nat.find h = k at hk
  refine ⟨k, ?_, hk⟩
  have hshort : ∀ m < k, s.ancestor? m e ≠ some d := fun m hm => Nat.find_min h (hlinks ▸ hm)
  -- the environments on the way, by their distance
  have hway : ∀ j : Fin (k + 1), ∃ x : Fin s.environments.size, s.ancestor? j e = some x.1 := by
    intro j
    by_cases hj : j.1 < k
    · obtain ⟨x, hx, hlt⟩ := exists_ancestor? hk hj
      exact ⟨⟨x, hlt⟩, hx⟩
    · have hjk : j.1 = k := by omega
      rw [hjk]
      exact ⟨⟨d, hd⟩, hk⟩
  choose way hway using hway
  -- one that came twice would leave a way that is shorter
  have hne : ∀ i j : Fin (k + 1), i < j → way i ≠ way j := by
    intro i j hij heq
    have hj : s.ancestor? (j + (k - j)) e = some d := by
      rw [Nat.add_sub_cancel' (by omega : j.1 ≤ k)]
      exact hk
    have hi : s.ancestor? (i + (k - j)) e = some d := by
      rw [ancestor?_add, hway i, heq, ← hway j, ← ancestor?_add]
      exact hj
    exact hshort (i + (k - j)) (by omega) hi
  have hinj : Function.Injective way := by
    intro i j heq
    rcases lt_trichotomy i j with hlt | h | hlt
    · exact absurd heq (hne i j hlt)
    · exact h
    · exact absurd heq.symm (hne j i hlt)
  have hcard := Fintype.card_le_of_injective way hinj
  simp only [Fintype.card_fin] at hcard
  omega

theorem isSome_ownerWithin {k links : Nat} (h : s.ancestor? k e = some d)
    (hb : (s.frame d).binds name = true) (hk : k < links) :
    (s.ownerWithin name links e).isSome = true := by
  induction links generalizing k e with
  | zero => omega
  | succ links ih =>
    rw [ownerWithin]
    split
    case isTrue => rfl
    case isFalse hn =>
      cases k with
      | zero =>
        cases h
        exact absurd hb hn
      | succ k =>
        obtain ⟨p, hp, hd⟩ := Option.bind_eq_some_iff.1 h
        rw [hp]
        exact ih hd (by omega)

theorem lookup?_of_owner? {o : EnvRef} (h : s.owner? name e = some o) :
    ∃ b, (s.frame o).get? name = some b ∧ s.lookup? name e = some b.value := by
  have hb := binds_of_owner? h
  cases hg : (s.frame o).get? name with
  | none => simp [Frame.binds, hg] at hb
  | some b => exact ⟨b, rfl, by simp [lookup?, h, local?, hg]⟩

theorem encloses_of_ownerWithin {links : Nat} {o : EnvRef}
    (h : s.ownerWithin name links e = some o) : s.Encloses o e := by
  induction links generalizing e with
  | zero => cases h
  | succ links ih =>
    rw [ownerWithin] at h
    split at h
    case isTrue =>
      cases h
      exact encloses_refl s o
    case isFalse =>
      obtain ⟨p, hp, ho⟩ := Option.bind_eq_some_iff.1 h
      obtain ⟨k, hk⟩ := ih ho
      exact ⟨k + 1, by rw [ancestor?, hp]; exact hk⟩

theorem ownerWithin_mono {links links' : Nat} {o : EnvRef} (h : links ≤ links')
    (ho : s.ownerWithin name links e = some o) : s.ownerWithin name links' e = some o := by
  induction links generalizing links' e with
  | zero => cases ho
  | succ links ih =>
    obtain ⟨more, rfl⟩ : ∃ more, links' = more + 1 := ⟨links' - 1, by omega⟩
    rw [ownerWithin] at ho ⊢
    split at ho
    case isTrue hb => rw [if_pos hb, ho]
    case isFalse hb =>
      rw [if_neg hb]
      obtain ⟨p, hp, ho⟩ := Option.bind_eq_some_iff.1 ho
      rw [hp]
      exact ih (by omega) ho

/-- Going further up the chain than the store has environments finds nothing else. -/
theorem ownerWithin_eq_owner? {links : Nat} (h : s.environments.size ≤ links) :
    s.ownerWithin name links e = s.owner? name e := by
  cases howner : s.owner? name e with
  | some o => exact ownerWithin_mono h howner
  | none =>
    cases ho : s.ownerWithin name links e with
    | none => rfl
    | some o =>
      have hb := binds_of_ownerWithin ho
      obtain ⟨k, hk, ha⟩ := (encloses_of_ownerWithin ho).exists_short (lt_size_of_binds hb)
      have hsome := isSome_ownerWithin ha hb hk
      rw [owner?] at howner
      rw [howner] at hsome
      cases hsome

/-- A value that a name has is bound to it somewhere in the chain. -/
theorem exists_binding_of_lookup? {v : Value} (h : s.lookup? name e = some v) :
    ∃ d b, s.Encloses d e ∧ (s.frame d).get? name = some b ∧ b.value = v := by
  obtain ⟨o, ho, -⟩ := Option.bind_eq_some_iff.1 h
  obtain ⟨b, hb, hv⟩ := lookup?_of_owner? ho
  rw [h] at hv
  cases hv
  exact ⟨o, b, encloses_of_ownerWithin ho, hb, rfl⟩

/-- A name that is bound around an environment has a value there. -/
theorem exists_lookup?_of_encloses (h : s.Encloses d e) (hb : (s.frame d).binds name = true) :
    ∃ v, s.lookup? name e = some v := by
  obtain ⟨k, hk, ha⟩ := h.exists_short (lt_size_of_binds hb)
  obtain ⟨o, ho⟩ := Option.isSome_iff_exists.1 (isSome_ownerWithin ha hb hk)
  obtain ⟨b, -, hv⟩ := lookup?_of_owner? ho
  exact ⟨b.value, hv⟩

end LexicalLisp.Store
