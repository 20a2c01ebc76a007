import LexicalLisp.Proofs.Acyclicity
import LexicalLisp.Proofs.Renumbering
import LexicalLisp.Proofs.ScopeConstruction

/-!
# The order of bindings

The initializers of a `let` do not see the names that are bound with them. If they leave alone what
was there before, they do not see one another either, and may change places: the values are the same
but for the numbers of what the initializers have made.
-/
namespace LexicalLisp

/-- Nothing in the store refers to what is not there, and the environment is there. -/
structure Store.Intact (s : Store) (e : EnvRef) : Prop where
  sound : s.Sound
  anchored : s.Anchored
  here : e < s.environments.size

/-- The expression refers to nothing that the store does not have, and evaluating it leaves
everything as it was that was there before. -/
structure Quiet (host : Host) (depth : Nat) (x : Value) (e : EnvRef) (s : Store) : Prop where
  within : x.Within s.closures.size
  kept : s.KeptIn ((evalAt host depth x e).after s)

/-! ### One expression -/

namespace Quiet

variable {host : Host} {depth : Nat} {x v : Value} {e : EnvRef} {s s' t : Store}
  (hhost : host.Uniform) (hq : Quiet host depth x e s) (hs : s.Intact e)
include hhost hq hs

theorem copies (s' : Store) :
    (s.extras s').Copies (s.extras s').value (evalAt host depth x e) (evalAt host depth x e) := by
  have hfn : ∀ i < s.closures.size, (s.extras s').fn i = i := fun _ hi => Store.fn_extras_of_lt hi
  have hcopies := (s.extras s').uniform_evalAt hhost depth x e
  rwa [Store.env_extras_of_lt hs.here, show (s.extras s').value x = x from
    Value.rename_of_within hfn hq.within] at hcopies

/-- What leaves a store alone leaves alone every store that goes on from it. -/
theorem mono (h : s.KeptIn s') : Quiet host depth x e s' where
  within := hq.within.mono h.size_closures_le
  kept := by
    have hrelates := hs.sound.relates_extras hs.anchored h
    have hafter := Insertion.Relates.after_of_agrees (hq.copies hhost hs s' s s' hrelates)
    exact hq.kept.of_relates hrelates hafter

theorem after_intact : ((evalAt host depth x e).after s).Intact e where
  sound := (hs.sound.evaluation hhost hq.within depth e).1
  anchored := hs.anchored.evaluation hs.here host depth x
  here := Nat.lt_of_lt_of_le hs.here hq.kept.size_environments_le

/-- From a store that goes on the expression has the same value, but for the numbers. -/
theorem run_of_keptIn (h : s.KeptIn s') (hr : (evalAt host depth x e).run s = .ok v t) :
    ∃ t', (evalAt host depth x e).run s' = .ok ((s.extras s').value v) t' ∧
      (s.extras s').Relates t t' :=
  (hq.copies hhost hs s').run_ok (hs.sound.relates_extras hs.anchored h) hr

theorem of_run_of_keptIn (h : s.KeptIn s') (hr : (evalAt host depth x e).run s' = .ok v t) :
    ∃ w u, (evalAt host depth x e).run s = .ok w u ∧ v = (s.extras s').value w ∧
      (s.extras s').Relates u t :=
  (hq.copies hhost hs s').of_run_ok (hs.sound.relates_extras hs.anchored h) hr

end Quiet

/-! ### Two expressions that change places -/

/-- The numbers of what the one store has behind a third and of what the other has there change
places. -/
def Store.exchange (s t u : Store) : Renumbering :=
  ⟨blockSwap s.environments.size (t.environments.size - s.environments.size)
      (u.environments.size - s.environments.size),
    blockSwap s.closures.size (t.closures.size - s.closures.size)
      (u.closures.size - s.closures.size)⟩

namespace Gap

variable {α : Type} {a b c : Array α} {i : Nat}

theorem blockSwap_eq_move (h : i < b.size) :
    LexicalLisp.blockSwap a.size (b.size - a.size) (c.size - a.size) i = (behind a c).move i := by
  by_cases hi : i < a.size
  · rw [blockSwap_of_lt hi, move_behind_of_lt hi]
  · rw [blockSwap_of_first (by omega) (by omega), move_behind_of_le (by omega)]

theorem blockSwap_move (hc : a.size ≤ c.size) (h : i < c.size) :
    LexicalLisp.blockSwap a.size (b.size - a.size) (c.size - a.size) ((behind a b).move i) =
      i := by
  by_cases hi : i < a.size
  · rw [move_behind_of_lt hi, blockSwap_of_lt hi]
  · rw [move_behind_of_le (by omega), blockSwap_of_second (by omega) (by omega)]
    omega

/-- A permutation that keeps the places of the one array, and those behind the other, keeps whatever
the elements of the other move to. -/
theorem apply_move_behind {π : Equiv.Perm Nat} (hle : a.size ≤ b.size)
    (hold : ∀ j < a.size, π j = j) (hnew : ∀ j, b.size ≤ j → π j = j) (i : Nat) :
    π ((behind a b).move i) = (behind a b).move i := by
  by_cases hi : i < a.size
  · rw [move_behind_of_lt hi]
    exact hold i hi
  · rw [move_behind_of_le (by omega)]
    exact hnew _ (by omega)

end Gap

namespace Store

variable {e : EnvRef} {s t u tu ut : Store}

theorem size_environments_of_extras (h : (s.extras t).Relates u tu) :
    tu.environments.size =
      u.environments.size + (t.environments.size - s.environments.size) := by
  rw [h.environments.size]
  exact congrArg _ (Gap.length_behind _ _)

theorem size_closures_of_extras (h : (s.extras t).Relates u tu) :
    tu.closures.size = u.closures.size + (t.closures.size - s.closures.size) := by
  rw [h.closures.size]
  exact congrArg _ (Gap.length_behind _ _)

theorem exchange_functions_of_lt {i : Nat} (h : i < t.closures.size) :
    (s.exchange t u).functions i = (s.extras u).fn i := Gap.blockSwap_eq_move h

theorem exchange_functions_fn (hsu : s.KeptIn u) {i : Nat} (h : i < u.closures.size) :
    (s.exchange t u).functions ((s.extras t).fn i) = i :=
  Gap.blockSwap_move hsu.size_closures_le h

theorem fixes_exchange (s t u : Store) : (s.exchange t u).Fixes s :=
  ⟨fun _ he => blockSwap_of_lt he, fun _ hi => blockSwap_of_lt hi⟩

/-- Two stores go on from a third. Inserting what one of them has behind into the other gives the
same either way round, but for the numbers. -/
theorem carries_exchange (hs : s.Intact e) (ht : t.Intact e) (hu : u.Intact e)
    (hst : s.KeptIn t) (hsu : s.KeptIn u) (htu : (s.extras t).Relates u tu)
    (hut : (s.extras u).Relates t ut) : (s.exchange t u).Carries tu ut := by
  have hte := hst.size_environments_le
  have htc := hst.size_closures_le
  have hue := hsu.size_environments_le
  have huc := hsu.size_closures_le
  have hfn : ∀ i < t.closures.size, (s.exchange t u).functions i = (s.extras u).fn i := fun i hi =>
    exchange_functions_of_lt hi
  have henv : ∀ d < t.environments.size, (s.exchange t u).environments d = (s.extras u).env d :=
    fun d hd => Gap.blockSwap_eq_move hd
  have hfn' : ∀ i < u.closures.size, (s.exchange t u).functions ((s.extras t).fn i) = i :=
    fun i hi => exchange_functions_fn hsu hi
  have henv' : ∀ d < u.environments.size,
      (s.exchange t u).environments ((s.extras t).env d) = d := fun d hd =>
    Gap.blockSwap_move hue hd
  constructor
  · rw [size_environments_of_extras htu, size_environments_of_extras hut]
    omega
  · rw [size_closures_of_extras htu, size_closures_of_extras hut]
    omega
  · refine Gap.Fills.blockSwap htu.environments hut.environments (keptIn_iff.1 hst).1
      (keptIn_iff.1 hsu).1 hte hue (hs.sound.environment_extras hs.anchored u) ?_ ?_
    · intro env hmem
      rw [Insertion.environment_eq_rename]
      exact Environment.rename_congr (ht.sound.environments env hmem) hfn
        fun p hp => henv p (ht.anchored.parent_of_mem hmem hp)
    · intro env hmem
      rw [Insertion.environment_eq_rename, Renumbering.environment, Environment.rename_rename]
      refine Eq.trans ?_ (Environment.rename_id env)
      exact Environment.rename_congr (hu.sound.environments env hmem) hfn'
        fun p hp => henv' p (hu.anchored.parent_of_mem hmem hp)
  · refine Gap.Fills.blockSwap htu.closures hut.closures (keptIn_iff.1 hst).2
      (keptIn_iff.1 hsu).2 htc huc (hs.sound.closure_extras hs.anchored u) ?_ ?_
    · intro c hmem
      rw [Insertion.closure_eq_rename]
      exact Closure.rename_congr (ht.sound.closures c hmem) hfn
        (henv c.home (ht.anchored.home c hmem))
    · intro c hmem
      rw [Insertion.closure_eq_rename, Renumbering.closure, Closure.rename_rename]
      refine Eq.trans ?_ (Closure.rename_id c)
      exact Closure.rename_congr (hu.sound.closures c hmem) hfn'
        (henv' c.home (hu.anchored.home c hmem))

end Store

/-! ### What comes after -/

/-- The numbers that the store has not used yet are kept. -/
structure Renumbering.KeepsNew (ρ : Renumbering) (s : Store) : Prop where
  environments : ∀ e, s.environments.size ≤ e → ρ.environments e = e
  functions : ∀ i, s.closures.size ≤ i → ρ.functions i = i

namespace Renumbering

variable {ρ ρ' : Renumbering} {s t t' u u' : Store}

theorem KeepsNew.mono (h : ρ.KeepsNew s) (hst : s.KeptIn t) : ρ.KeepsNew t where
  environments e he := h.environments e (Nat.le_trans hst.size_environments_le he)
  functions i hi := h.functions i (Nat.le_trans hst.size_closures_le hi)

end Renumbering

section Sequences

variable {host : Host} {depth : Nat} {e : EnvRef} {s t u u' : Store} {x v : Value}
  {xs vs : List Value} {ρ : Renumbering} (hhost : host.Uniform) (hs : s.Intact e)
include hhost hs

/-- From two stores that go on from a third, and have the same under other numbers, the expression
has one value, and makes the same with the same numbers. -/
theorem Quiet.run_of_carries (hq : Quiet host depth x e s) (hu : s.KeptIn u) (hu' : s.KeptIn u')
    (hfixes : ρ.Fixes s) (hnew : ρ.KeepsNew u) (hcarries : ρ.Carries u u')
    (hr : (evalAt host depth x e).run u = .ok v t) :
    ∃ t', (evalAt host depth x e).run u' = .ok v t' ∧ ρ.Carries t t' ∧
      v.rename ρ.functions = v ∧ u.KeptIn t ∧ u'.KeptIn t' := by
  obtain ⟨w, t₀, hw, rfl, ht⟩ := hq.of_run_of_keptIn hhost hs hu hr
  obtain ⟨t', hr', ht'⟩ := hq.run_of_keptIn hhost hs hu' hw
  have hsizee := hcarries.size_environments
  have hsizec := hcarries.size_closures
  -- both insertions move what the expression makes by as much
  have hfn : (s.extras u').fn = (s.extras u).fn := by
    funext i
    unfold Insertion.fn Gap.move Store.extras
    simp only [List.length_drop, Array.length_toList, hsizec]
  have henv : (s.extras u').env = (s.extras u).env := by
    funext d
    unfold Insertion.env Gap.move Store.extras
    simp only [List.length_drop, Array.length_toList, hsizee]
  have hvalue : (s.extras u').value w = (s.extras u).value w := by
    rw [Insertion.value, Insertion.value, hfn]
  -- and the renumbering leaves alone where it goes
  have hcomp : (ρ.functions : Nat → Nat) ∘ (s.extras u).fn = (s.extras u).fn :=
    funext fun i => Gap.apply_move_behind hu.size_closures_le hfixes.functions hnew.functions i
  have hcompe : (ρ.environments : Nat → Nat) ∘ (s.extras u).env = (s.extras u).env :=
    funext fun d =>
      Gap.apply_move_behind hu.size_environments_le hfixes.environments hnew.environments d
  have hafter := Action.after_of_ok hr
  have hafter' := Action.after_of_ok hr'
  have hkept : u.KeptIn t := hafter ▸ (hq.mono hhost hs hu).kept
  have hkept' : u'.KeptIn t' := hafter' ▸ (hq.mono hhost hs hu').kept
  refine ⟨t', by rw [hr', hvalue], ⟨?_, ?_, ?_, ?_⟩, ?_, hkept, hkept'⟩
  · rw [Store.size_environments_of_extras ht, Store.size_environments_of_extras ht', hsizee]
  · rw [Store.size_closures_of_extras ht, Store.size_closures_of_extras ht', hsizec]
  · refine Gap.Fills.carries ht.environments ht'.environments hsizee hu.size_environments_le
      hcarries.environment (Store.keptIn_iff.1 hkept).1 (Store.keptIn_iff.1 hkept').1
      hnew.environments fun env _ => ?_
    simp only [Insertion.environment_eq_rename, Renumbering.environment,
      Environment.rename_rename, hfn, henv, hcomp, hcompe]
  · refine Gap.Fills.carries ht.closures ht'.closures hsizec hu.size_closures_le
      hcarries.closure (Store.keptIn_iff.1 hkept).2 (Store.keptIn_iff.1 hkept').2
      hnew.functions fun c _ => ?_
    simp only [Insertion.closure_eq_rename, Renumbering.closure, Closure.rename_rename, hfn, henv,
      hcomp, hcompe]
  · rw [Insertion.value, Value.rename_rename, hcomp]

/-- The same of several expressions. -/
theorem run_evalEach_of_carries (hq : ∀ x ∈ xs, Quiet host depth x e s) (hu : s.KeptIn u)
    (hu' : s.KeptIn u') (hfixes : ρ.Fixes s) (hnew : ρ.KeepsNew u) (hcarries : ρ.Carries u u')
    (hr : (evalEach (evalAt host depth) xs e).run u = .ok vs t) :
    ∃ t', (evalEach (evalAt host depth) xs e).run u' = .ok vs t' ∧ ρ.Carries t t' ∧
      (∀ v ∈ vs, v.rename ρ.functions = v) ∧ ρ.KeepsNew t := by
  induction xs generalizing u u' vs with
  | nil =>
    cases hr
    exact ⟨u', rfl, hcarries, by simp, hnew⟩
  | cons x xs ih =>
    obtain ⟨v, w, ws, hx, hxs, rfl⟩ := run_evalEach_cons_iff.1 hr
    obtain ⟨w', hx', hcarriesw, hv, hkept, hkept'⟩ :=
      (hq x List.mem_cons_self).run_of_carries hhost hs hu hu' hfixes hnew hcarries hx
    obtain ⟨t', hxs', hcarriest, hws, hnewt⟩ := ih (fun y hy => hq y (List.mem_cons_of_mem x hy))
      (hu.trans hkept) (hu'.trans hkept') (hnew.mono hkept) hcarriesw hxs
    refine ⟨t', run_evalEach_cons_iff.2 ⟨v, w', ws, hx', hxs', rfl⟩, hcarriest, ?_, hnewt⟩
    intro y hy
    rcases List.mem_cons.1 hy with rfl | hy
    · exact hv
    · exact hws y hy

end Sequences

/-! ### Any order -/

namespace Renumbering

variable {ρ ρ' : Renumbering} {s t t' u : Store}

theorem KeepsNew.trans (h : ρ.KeepsNew s) (h' : ρ'.KeepsNew s) : (ρ.trans ρ').KeepsNew s where
  environments e he := by
    show ρ'.environments (ρ.environments e) = e
    rw [h.environments e he, h'.environments e he]
  functions i hi := by
    show ρ'.functions (ρ.functions i) = i
    rw [h.functions i hi, h'.functions i hi]

theorem KeepsNew.of_carries (h : ρ.KeepsNew t') (hcarries : ρ'.Carries t t') : ρ.KeepsNew t where
  environments e he := h.environments e (hcarries.size_environments ▸ he)
  functions i hi := h.functions i (hcarries.size_closures ▸ hi)

theorem Fixes.mono (h : ρ.Fixes t) (hst : s.KeptIn t) : ρ.Fixes s where
  environments e he := h.environments e (Nat.lt_of_lt_of_le he hst.size_environments_le)
  functions i hi := h.functions i (Nat.lt_of_lt_of_le hi hst.size_closures_le)

theorem keepsNew_exchange (htu : (s.extras t).Relates u t') (hst : s.KeptIn t)
    (hsu : s.KeptIn u) : (s.exchange t u).KeepsNew t' where
  environments e he := by
    have hte := hst.size_environments_le
    have hue := hsu.size_environments_le
    rw [Store.size_environments_of_extras htu] at he
    exact blockSwap_of_le (by omega)
  functions i hi := by
    have htc := hst.size_closures_le
    have huc := hsu.size_closures_le
    rw [Store.size_closures_of_extras htu] at hi
    exact blockSwap_of_le (by omega)

end Renumbering

/-- The symbols with renamed values. -/
def renameValues (σ : Nat → Nat) (vars : List (Symbol × Value)) : List (Symbol × Value) :=
  vars.map fun p => (p.1, p.2.rename σ)

theorem renameValues_eq_self {σ : Nat → Nat} {vars : List (Symbol × Value)}
    (h : ∀ p ∈ vars, p.2.rename σ = p.2) : renameValues σ vars = vars :=
  (List.map_congr_left fun p hp => by rw [h p hp]).trans (List.map_id' vars)

theorem renameValues_renameValues (σ τ : Nat → Nat) (vars : List (Symbol × Value)) :
    renameValues τ (renameValues σ vars) = renameValues (τ ∘ σ) vars := by
  rw [renameValues, renameValues, List.map_map]
  exact List.map_congr_left fun p _ => congrArg (Prod.mk p.1) (Value.rename_rename σ τ p.2)

section Order

variable {host : Host} {depth : Nat} {e : EnvRef} {s t u : Store} {x y v w : Value}

/-- Two quiet expressions may change places: what they make gets the numbers of the other order,
and so do the values. -/
theorem Quiet.run_swapped (hhost : host.Uniform) (hs : s.Intact e) (hx : Quiet host depth x e s)
    (hy : Quiet host depth y e s) (hrx : (evalAt host depth x e).run s = .ok v u)
    (hry : (evalAt host depth y e).run u = .ok w t) :
    ∃ u' t' ρ, (evalAt host depth y e).run s = .ok (w.rename ρ.functions) u' ∧
      (evalAt host depth x e).run u' = .ok (v.rename ρ.functions) t' ∧
      Renumbering.Fixes ρ s ∧ ρ.KeepsNew t ∧ ρ.Carries t t' ∧ s.KeptIn t ∧ s.KeptIn t' := by
  have hafter := Action.after_of_ok hrx
  have hsu : s.KeptIn u := hafter ▸ hx.kept
  have hu : u.Intact e := hafter ▸ hx.after_intact hhost hs
  have hv : v.Within u.closures.size := (hs.sound.evaluation hhost hx.within depth e).2 v u hrx
  obtain ⟨w', u', hry', rfl, ht⟩ := hy.of_run_of_keptIn hhost hs hsu hry
  have hafter' := Action.after_of_ok hry'
  have hsu' : s.KeptIn u' := hafter' ▸ hy.kept
  have hu' : u'.Intact e := hafter' ▸ hy.after_intact hhost hs
  have hw : w'.Within u'.closures.size :=
    (hs.sound.evaluation hhost hy.within depth e).2 w' u' hry'
  obtain ⟨t', hrx', ht'⟩ := hx.run_of_keptIn hhost hs hsu' hrx
  have hut : u.KeptIn t := Action.after_of_ok hry ▸ (hy.mono hhost hs hsu).kept
  have hut' : u'.KeptIn t' := Action.after_of_ok hrx' ▸ (hx.mono hhost hs hsu').kept
  have hvalue : v.rename (s.exchange u u').functions = (s.extras u').value v :=
    hv.rename_congr fun i hi => Store.exchange_functions_of_lt hi
  have hvalue' : ((s.extras u).value w').rename (s.exchange u u').functions = w' := by
    rw [Insertion.value, Value.rename_rename]
    exact (hw.rename_congr fun i hi => Store.exchange_functions_fn hsu' hi).trans w'.rename_id
  refine ⟨u', t', s.exchange u u', by rw [hvalue', hry'], by rw [hvalue, hrx'],
    Store.fixes_exchange s u u', Renumbering.keepsNew_exchange ht hsu hsu',
    Store.carries_exchange hs hu hu' hsu hsu' ht ht', hsu.trans hut, hsu'.trans hut'⟩

/-- Quiet initializers may be evaluated in any order. The induction takes two neighbours to change
places; what is evaluated after them does not see it. -/
theorem exists_run_evalEach_of_perm (hhost : host.Uniform) {bs bs' : List (Symbol × Value)}
    (hperm : bs.Perm bs') :
    ∀ {s t : Store} {vs : List Value}, s.Intact e → (∀ b ∈ bs, Quiet host depth b.2 e s) →
      (evalEach (evalAt host depth) (bs.map Prod.snd) e).run s = .ok vs t →
        ∃ vs' t' ρ, (evalEach (evalAt host depth) (bs'.map Prod.snd) e).run s = .ok vs' t' ∧
          Renumbering.Fixes ρ s ∧ ρ.KeepsNew t ∧ ρ.Carries t t' ∧
          ((bs'.map Prod.fst).zip vs').Perm
            (renameValues ρ.functions ((bs.map Prod.fst).zip vs)) := by
  induction hperm with
  | nil =>
    intro s t vs _ _ hr
    cases hr
    exact ⟨[], s, .refl, rfl, Renumbering.fixes_refl s, ⟨fun _ _ => rfl, fun _ _ => rfl⟩,
      Renumbering.carries_refl s, .nil⟩
  | cons b _ ih =>
    intro s t vs hs hq hr
    obtain ⟨v, u, ws, hb, hrest, rfl⟩ := run_evalEach_cons_iff.1 hr
    have hqb := hq b List.mem_cons_self
    have hafter := Action.after_of_ok hb
    have hkept : s.KeptIn u := hafter ▸ hqb.kept
    have hu : u.Intact e := hafter ▸ hqb.after_intact hhost hs
    obtain ⟨ws', t', ρ, hrest', hfixes, hnew, hcarries, hzip⟩ := ih hu
      (fun c hc => (hq c (List.mem_cons_of_mem b hc)).mono hhost hs hkept) hrest
    have hv : v.Within u.closures.size := (hs.sound.evaluation hhost hqb.within depth e).2 v u hb
    have hrename : v.rename ρ.functions = v := hfixes.rename_eq_self hv
    refine ⟨v :: ws', t', ρ, run_evalEach_cons_iff.2 ⟨v, u, ws', hb, hrest', rfl⟩,
      hfixes.mono hkept, hnew, hcarries, ?_⟩
    simpa [renameValues, hrename] using hzip
  | swap a b l =>
    intro s t vs hs hq hr
    obtain ⟨v, u, ws, hb, hrest, rfl⟩ := run_evalEach_cons_iff.1 hr
    obtain ⟨w, t₁, zs, ha, hl, rfl⟩ := run_evalEach_cons_iff.1 hrest
    have hqb := hq b List.mem_cons_self
    have hqa := hq a (List.mem_cons_of_mem b List.mem_cons_self)
    have hql : ∀ x ∈ l.map Prod.snd, Quiet host depth x e s := by
      intro x hx
      obtain ⟨c, hc, rfl⟩ := List.mem_map.1 hx
      exact hq c (List.mem_cons_of_mem b (List.mem_cons_of_mem a hc))
    obtain ⟨u', t₁', ρ, ha', hb', hfixes, hnew, hcarries, hkept, hkept'⟩ :=
      hqb.run_swapped hhost hs hqa hb ha
    obtain ⟨t', hl', hcarriest, hzs, hnewt⟩ :=
      run_evalEach_of_carries hhost hs hql hkept hkept' hfixes hnew hcarries hl
    have hothers : renameValues ρ.functions ((l.map Prod.fst).zip zs) = (l.map Prod.fst).zip zs :=
      renameValues_eq_self fun p hp => hzs p.2 (List.of_mem_zip hp).2
    have hrest' := run_evalEach_cons_iff.2 ⟨_, t₁', zs, hb', hl', rfl⟩
    refine ⟨_, t', ρ, run_evalEach_cons_iff.2 ⟨_, u', _, ha', hrest', rfl⟩, hfixes, hnewt,
      hcarriest, ?_⟩
    rw [renameValues] at hothers ⊢
    simp only [List.map_cons, List.zip_cons_cons, hothers]
    exact .swap _ _ _
  | trans hperm hperm' ih ih' =>
    intro s t vs hs hq hr
    obtain ⟨vs', t', ρ, hr', hfixes, hnew, hcarries, hzip⟩ := ih hs hq hr
    obtain ⟨vs'', t'', ρ', hr'', hfixes', hnew', hcarries', hzip'⟩ :=
      ih' hs (fun b hb => hq b (hperm.mem_iff.2 hb)) hr'
    refine ⟨vs'', t'', ρ.trans ρ', hr'', hfixes.trans hfixes', hnew.trans (hnew'.of_carries hcarries),
      hcarries.trans hcarries', ?_⟩
    have hboth := hzip.map fun p => (p.1, p.2.rename ρ'.functions)
    exact hzip'.trans (hboth.trans (.of_eq (renameValues_renameValues _ _ _)))

end Order

/-! ### Scopes -/

theorem Let.exists_map_of_perm {bs : List (Symbol × Value)} {bindings : List Value}
    (h : (bs.map binding).Perm bindings) : ∃ bs', bs.Perm bs' ∧ bindings = bs'.map binding := by
  have hall : List.Forall₂ (fun b c => b = binding c) (bs.map binding) bs := by
    rw [List.forall₂_map_left_iff, List.forall₂_same]
    exact fun _ _ => rfl
  obtain ⟨bs', hbs', hperm⟩ := List.perm_comp_forall₂ h.symm hall
  refine ⟨bs', hperm.symm, ?_⟩
  rw [← List.forall₂_eq_eq_eq, List.forall₂_map_right_iff]
  exact hbs'

theorem Frame.Holds.get?_of_perm {f g : Frame} {σ : Nat → Nat} {vars vars' : List (Symbol × Value)}
    (hf : f.Holds vars) (hg : g.Holds vars') (hperm : vars'.Perm (renameValues σ vars))
    (name : String) : g.get? name = (f.get? name).map (Binding.rename σ) := by
  apply Option.ext
  intro b
  rw [hg name b, Option.map_eq_some_iff]
  constructor
  · rintro ⟨p, v, hmem, hname, rfl⟩
    obtain ⟨q, hq, heq⟩ := List.mem_map.1 (hperm.mem_iff.1 hmem)
    cases heq
    exact ⟨_, (hf name _).2 ⟨q.1, q.2, hq, hname, rfl⟩, rfl⟩
  · rintro ⟨b', hb', rfl⟩
    obtain ⟨p, v, hmem, hname, rfl⟩ := (hf name b').1 hb'
    exact ⟨p, v.rename σ, hperm.mem_iff.2 (List.mem_map_of_mem hmem), hname, rfl⟩

/-- The second store is the first under other numbers, but for the new scope, whose frame binds the
same names to the same slots under other numbers, in whatever order. -/
structure Renumbering.CarriesScope (ρ : Renumbering) (scope : EnvRef) (t t' : Store) : Prop where
  environment : ∀ d < scope, t'.environments[ρ.environments d]? =
    t.environments[d]?.map ρ.environment
  closure : ∀ i, t'.closures[ρ.functions i]? = t.closures[i]?.map ρ.closure
  frame : ∀ name, (t'.frame scope).get? name =
    ((t.frame scope).get? name).map (Binding.rename ρ.functions)

theorem Let.exists_run_construct_of_perm {host : Host} (hhost : host.Uniform) {l l' : Let}
    {e scope : EnvRef} {s t : Store} (hs : s.Sound) (ha : s.Anchored) (hl : l.FitsIn e s)
    (depth : Nat)
    (hquiet : ∀ b, binding b ∈ l.bindings → s.KeptIn ((evalAt host depth b.2 e).after s))
    (hperm : l.bindings.Perm l'.bindings)
    (hr : (l.construct (evalAt host depth) e).run s = .ok scope t) :
    ∃ t' ρ, (l'.construct (evalAt host depth) e).run s = .ok scope t' ∧
      Renumbering.Fixes ρ s ∧ ρ.CarriesScope scope t t' := by
  obtain ⟨bs, vs, u, g, haccepts, hg, rfl, rfl⟩ := run_construct_eq_ok hr
  obtain ⟨bs', hbs, hshape⟩ := exists_map_of_perm (haccepts.shape ▸ hperm)
  have hintact : s.Intact e := ⟨hs, ha, hl.environment⟩
  have hq : ∀ b ∈ bs, Quiet host depth b.2 e s := by
    intro b hb
    have hmem : binding b ∈ l.bindings := haccepts.shape ▸ List.mem_map_of_mem hb
    have hwithin := (Value.throughout_list_iff.1 (hl.bindings _ hmem)).2 b.2 (by simp)
    exact ⟨hwithin, hquiet b hmem⟩
  obtain ⟨vs', u', ρ, hvs', hfixes, -, hcarries, hzip⟩ :=
    exists_run_evalEach_of_perm hhost hbs hintact hq haccepts.values
  have hkinds : ∀ p v, (p, v) ∈ (bs'.map Prod.fst).zip vs' → p.kind.admits v = true := by
    intro p v hpv
    obtain ⟨q, hq, heq⟩ := List.mem_map.1 (hzip.mem_iff.1 hpv)
    cases heq
    rw [Kind.admits_rename]
    exact haccepts.kinds q.1 q.2 hq
  have hdistinct : (bs'.map fun b => b.1.name).Nodup :=
    (hbs.map _).nodup_iff.1 haccepts.distinct
  have haccepts' : Accepts (evalAt host depth) l'.bindings e s bs' vs' u' :=
    ⟨hshape, hdistinct, hvs', hkinds⟩
  obtain ⟨g', hrun'⟩ := run_bindAll_iff.2 ⟨bs', vs', haccepts'⟩
  have hg' := (haccepts'.holds hrun').2
  have hconstruct := run_construct_of_run_bindAll hrun'
  rw [hcarries.size_environments] at hconstruct
  refine ⟨_, ρ, hconstruct, hfixes, ?_, hcarries.closure, ?_⟩
  · intro d hd
    have hcarried := hcarries.environment d
    rw [Array.getElem?_eq_getElem hd, Option.map_some] at hcarried
    have hd' := (Array.getElem?_eq_some_iff.1 hcarried).1
    show (u'.environments.push _)[ρ.environments d]? = (u.environments.push _)[d]?.map _
    rw [Array.getElem?_push, if_neg (Nat.ne_of_lt hd'), Array.getElem?_push,
      if_neg (Nat.ne_of_lt hd)]
    exact hcarries.environment d
  · intro name
    rw [Store.frame_push, Store.frame_push, if_pos rfl, if_pos hcarries.size_environments.symm]
    exact hg.get?_of_perm hg' hzip name

theorem Let.bindAll_of_refuses {host : Host} {depth : Nat} {e : EnvRef} {s t u : Store}
    {before after vs : List Value} {b : Value} {bs : List (Symbol × Value)} {x : Error}
    (haccepts : Accepts (evalAt host depth) before e s bs vs t)
    (hrefuses : Refuses (evalAt host depth) b e (bs.map fun b => b.1.name) t x u) :
    Traced.bindAll (Traced.evalAt host depth) e (before ++ b :: after) {} s =
      Traced.bindAll (Traced.evalAt host depth) e (before ++ [b]) {} s := by
  have herror : (bindAll (evalAt host depth) e (before ++ [b]) {}).run s = .error x u :=
    run_bindAll_empty_error_iff.2 ⟨before, b, [], bs, vs, t, rfl, haccepts, hrefuses⟩
  have hrecords := Traced.records_bindAll (Traced.records_evalAt host depth) e (before ++ [b]) {}
  rw [← hrecords.outcome] at herror
  have hsplit : before ++ b :: after = before ++ [b] ++ after := List.append_cons ..
  rw [hsplit]
  exact Traced.bindAll_append_of_error herror

/-- A scope is constructed just if every binding has its shape, the names are distinct, and the
initializers, evaluated from the left around the `let`, have values of the right kinds. It is a new
scope without a parent, and its frame binds the names to slots with these values and nothing else.
Otherwise the first binding that fails gives the error, by its shape, its initializer, its kind or
its name, and nothing is done for those behind it. No initializer sees what is bound with it: if
they leave alone the environments and the functions that were there, and the functions of the host
do not see the numbers of handles, then the bindings may stand in any order, and the frame is the
same but for the numbers of the functions that they make. -/
theorem scope_construction_is_exact_and_parallel (host : Host) (depth : Nat) (l : Let) (e : EnvRef)
    (s : Store) :
    ((∃ scope u, (l.construct (evalAt host (depth + 1)) e).run s = .ok scope u) ↔
      ∃ bs vs t, Let.Accepts (evalAt host (depth + 1)) l.bindings e s bs vs t) ∧
    (∀ scope u, (l.construct (evalAt host (depth + 1)) e).run s = .ok scope u →
      ∃ bs vs t g, Let.Accepts (evalAt host (depth + 1)) l.bindings e s bs vs t ∧
        g.Holds ((bs.map Prod.fst).zip vs) ∧ scope = t.environments.size ∧
        u = { t with environments := t.environments.push ⟨g, .scope l.body none⟩ }) ∧
    (∀ x u, (l.construct (evalAt host (depth + 1)) e).run s = .error x u ↔
      ∃ before b after bs vs t, l.bindings = before ++ b :: after ∧
        Let.Accepts (evalAt host (depth + 1)) before e s bs vs t ∧
        Let.Refuses (evalAt host (depth + 1)) b e (bs.map fun b => b.1.name) t x u) ∧
    (∀ before b after bs vs t x u, l.bindings = before ++ b :: after →
      Let.Accepts (evalAt host (depth + 1)) before e s bs vs t →
      Let.Refuses (evalAt host (depth + 1)) b e (bs.map fun b => b.1.name) t x u →
        Traced.bindAll (Traced.evalAt host (depth + 1)) e l.bindings {} s =
          Traced.bindAll (Traced.evalAt host (depth + 1)) e (before ++ [b]) {} s) ∧
    (host.Uniform → s.Sound → s.Anchored → l.FitsIn e s →
      (∀ b, Let.binding b ∈ l.bindings →
        s.KeptIn ((evalAt host (depth + 1) b.2 e).after s)) →
      ∀ (l' : Let) (scope : EnvRef) (t : Store), l.bindings.Perm l'.bindings →
        (l.construct (evalAt host (depth + 1)) e).run s = .ok scope t →
          ∃ t' ρ, (l'.construct (evalAt host (depth + 1)) e).run s = .ok scope t' ∧
            Renumbering.Fixes ρ s ∧ ρ.CarriesScope scope t t') := by
  refine ⟨Let.exists_run_construct_iff, fun scope u h => Let.run_construct_eq_ok h, fun x u => ?_,
    ?_, ?_⟩
  · rw [Let.run_construct_error_iff]
    exact Let.run_bindAll_empty_error_iff
  · intro before b after bs vs t x u hbindings haccepts hrefuses
    rw [hbindings]
    exact Let.bindAll_of_refuses haccepts hrefuses
  · intro hhost hs ha hl hquiet l' scope t hperm hr
    exact Let.exists_run_construct_of_perm hhost hs ha hl (depth + 1) hquiet hperm hr

/-- Two functions are made in either order. -/
theorem scope_construction_is_exact_and_parallel_of_two_lambdas :
    let host : Host := fun _ _ => .ok .unspecified
    let s : Store := { environments := #[⟨{}, .root⟩] }
    let lambda (n : Int64) : Value := .op (.form .lambda) [.list [], .number n]
    let bindings : List (Symbol × Value) := [(⟨"a", .any⟩, lambda 1), (⟨"b", .any⟩, lambda 2)]
    ∃ t' ρ, (Let.construct (evalAt host 1) ⟨bindings.reverse.map Let.binding, []⟩ 0).run s =
        .ok 1 t' ∧ Renumbering.Fixes ρ s ∧
      (t'.frame 1).get? "a" =
        some (.slot ⟨.any, .function ⟨"lambda", ρ.functions 0⟩⟩) := by
  intro host s lambda bindings
  have hhost : host.Uniform := fun _ _ _ _ => rfl
  have hroot : Environment.Within 0 ⟨{}, .root⟩ := by
    refine ⟨fun entry hentry => ?_, fun x hx => ?_⟩
    · cases hentry
    · cases hx
  have hs : s.Sound := Store.sound_of_within (Nat.zero_le _) (by simpa [s] using hroot) (by simp [s])
  have ha : s.Anchored := by
    refine ⟨fun e p hp => ?_, by simp [s]⟩
    obtain rfl : e = 0 := Nat.lt_one_iff.1 (Store.lt_size_of_parent? hp)
    cases hp
  let l : Let := ⟨bindings.map Let.binding, []⟩
  have hl : l.FitsIn 0 s := by
    refine ⟨Nat.zero_lt_one, fun x hx => ?_, fun x hx => ?_⟩
    · obtain rfl | rfl : x = Let.binding (⟨"a", .any⟩, lambda 1) ∨
          x = Let.binding (⟨"b", .any⟩, lambda 2) := by simpa [l, bindings] using hx
      · rfl
      · rfl
    · cases hx
  have hquiet : ∀ b, Let.binding b ∈ l.bindings →
      s.KeptIn ((evalAt host (0 + 1) b.2 0).after s) := by
    intro b hb
    refine Store.keptIn_iff.2 ⟨fun e he => ?_, fun i hi => absurd hi (Nat.not_lt_zero i)⟩
    obtain rfl : e = 0 := Nat.lt_one_iff.1 he
    obtain rfl | rfl : b = (⟨"a", .any⟩, lambda 1) ∨ b = (⟨"b", .any⟩, lambda 2) := by
      simpa [l, bindings, Let.binding, Prod.ext_iff] using hb
    · rfl
    · rfl
  obtain ⟨-, -, -, -, hparallel⟩ := scope_construction_is_exact_and_parallel host 0 l 0 s
  obtain ⟨t', ρ, hrun, hfixes, hscope⟩ := hparallel hhost hs ha hl hquiet
    ⟨bindings.reverse.map Let.binding, []⟩ 1 _ (List.Perm.map _ (List.reverse_perm bindings).symm)
    rfl
  exact ⟨t', ρ, hrun, hfixes, hscope.frame "a"⟩

end LexicalLisp
