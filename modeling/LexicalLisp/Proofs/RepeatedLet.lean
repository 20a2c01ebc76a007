import LexicalLisp.Proofs.Isolation

/-!
# Running a `let` again

A `let` that is kept can be run many times. If a run leaves everything as it was that was there
before, then all that it has added lies behind. To a later run this is something inserted, which
evaluation does not see: it has the same outcome, but for the numbers of the functions that it
makes, and it leaves alone what the earlier runs have made.
-/
namespace LexicalLisp

/-! ### Stores that go on -/

theorem Gap.eq_append_drop {α : Type} {a b : Array α} (h : ∀ i < a.size, b[i]? = a[i]?) :
    b = a ++ (b.toList.drop a.size).toArray := by
  apply Array.ext_getElem?
  intro i
  by_cases hi : i < a.size
  · rw [Array.getElem?_append_left hi, h i hi]
  · have hle : a.size ≤ i := Nat.le_of_not_lt hi
    rw [Array.getElem?_append_right hle]
    simp [Nat.add_sub_cancel' hle]

/-- If what was there first is kept, what was inserted behind it is kept with it. -/
theorem Gap.Fills.keeps {α : Type} {g : Gap α} {f : α → α} {a b a' b' : Array α}
    (h : g.Fills f a b) (h' : g.Fills f a' b') (hstart : g.start = a.size)
    (hsame : ∀ i < a.size, a'[i]? = a[i]?) : ∀ i < b.size, b'[i]? = b[i]? := by
  intro i hi
  by_cases hold : i < a.size
  · have hmove : g.move i = i := g.move_of_lt (hstart ▸ hold)
    have hb := h.moved i
    have hb' := h'.moved i
    rw [hmove] at hb hb'
    rw [hb, hb', hsame i hold]
  · have hsize := h.size
    obtain ⟨k, rfl⟩ : ∃ k, i = g.start + k := ⟨i - g.start, by omega⟩
    have hk : k < g.filling.length := by omega
    rw [h.filled k hk, h'.filled k hk]

namespace Store

/-- The second store has the same at every place of the first. -/
def KeptIn (s t : Store) : Prop := ∀ p : Place, p.Exists s → p.Same s t

variable {s t s' t' u : Store}

theorem keptIn_iff : s.KeptIn t ↔
    (∀ e < s.environments.size, t.environments[e]? = s.environments[e]?) ∧
      ∀ i < s.closures.size, t.closures[i]? = s.closures[i]? := by
  constructor
  · exact fun h => ⟨fun e he => h (.environment e) he, fun i hi => h (.function i) hi⟩
  · rintro ⟨henvironments, hclosures⟩ p hp
    cases p with
    | environment e => exact henvironments e hp
    | function i => exact hclosures i hp

theorem KeptIn.refl (s : Store) : s.KeptIn s := fun p _ => .refl s p

theorem KeptIn.trans (h : s.KeptIn t) (h' : t.KeptIn u) : s.KeptIn u := fun p hp =>
  (h p hp).trans (h' p ((h p hp).exists hp))

theorem KeptIn.size_environments_le (h : s.KeptIn t) :
    s.environments.size ≤ t.environments.size := by
  by_contra hlt
  have hkept := (keptIn_iff.1 h).1 t.environments.size (by omega)
  rw [Array.getElem?_eq_none (Nat.le_refl _), eq_comm, Array.getElem?_eq_none_iff] at hkept
  omega

theorem KeptIn.size_closures_le (h : s.KeptIn t) : s.closures.size ≤ t.closures.size := by
  by_contra hlt
  have hkept := (keptIn_iff.1 h).2 t.closures.size (by omega)
  rw [Array.getElem?_eq_none (Nat.le_refl _), eq_comm, Array.getElem?_eq_none_iff] at hkept
  omega

/-- What is inserted behind a store changes nothing in it. -/
theorem Sound.environment_extras (hs : s.Sound) (ha : s.Anchored) (t : Store) :
    ∀ env ∈ s.environments, (s.extras t).environment env = env := by
  intro env henv
  refine Insertion.environment_eq_self (fun _ hi => fn_extras_of_lt hi) (hs.environments env henv)
    fun p hp => env_extras_of_lt (ha.parent_of_mem henv hp)

theorem Sound.closure_extras (hs : s.Sound) (ha : s.Anchored) (t : Store) :
    ∀ c ∈ s.closures, (s.extras t).closure c = c := fun c hc =>
  Insertion.closure_eq_self (fun _ hi => fn_extras_of_lt hi) (hs.closures c hc)
    (env_extras_of_lt (ha.home c hc))

/-- A store that goes on is the first one with something inserted behind. -/
theorem Sound.relates_extras (hs : s.Sound) (ha : s.Anchored) (h : s.KeptIn t) :
    (s.extras t).Relates s t := by
  obtain ⟨henvironments, hclosures⟩ := keptIn_iff.1 h
  constructor
  · have hfills := Gap.fills_append_of_eq (hs.environment_extras ha t)
      (t.environments.toList.drop s.environments.size)
    rwa [← Gap.eq_append_drop henvironments] at hfills
  · have hfills := Gap.fills_append_of_eq (hs.closure_extras ha t)
      (t.closures.toList.drop s.closures.size)
    rwa [← Gap.eq_append_drop hclosures] at hfills

/-- If the first store is kept, so is what a later store has besides. -/
theorem KeptIn.of_relates (h : s.KeptIn t) (hs : (s.extras s').Relates s s')
    (ht : (s.extras s').Relates t t') : s'.KeptIn t' := by
  obtain ⟨henvironments, hclosures⟩ := keptIn_iff.1 h
  exact keptIn_iff.2 ⟨hs.environments.keeps ht.environments rfl henvironments,
    hs.closures.keeps ht.closures rfl hclosures⟩

end Store

/-! ### Repeated runs -/

/-- From the second store, which goes on from the first, the action does what it does from the
first. What it makes is the same but for the numbers, and everything else is kept. -/
structure Action.Repeats (a : Action Value) (s s' : Store) : Prop where
  ok : ∀ v t, a.run s = .ok v t → ∃ t', a.run s' = .ok ((s.extras s').value v) t'
  error : ∀ x t, a.run s = .error x t →
    ∃ y t', a.run s' = .error y t' ∧ y = x.rename (s.extras s').fn ∧ y.message = x.message
  made : (s.extras s').Relates (a.after s) (a.after s')
  kept : s'.KeptIn (a.after s')

/-- The `let` and its environment refer to nothing that the store does not have. -/
structure Let.FitsIn (l : Let) (e : EnvRef) (s : Store) : Prop where
  environment : e < s.environments.size
  bindings : ∀ x ∈ l.bindings, x.Within s.closures.size
  body : ∀ x ∈ l.body, x.Within s.closures.size

section Repeated

variable {host : Host} {s s' : Store} {l : Let} {e : EnvRef}

theorem Insertion.Relates.after_of_agrees {I : Insertion} {a b : Action Value}
    (h : I.Agrees I.value (a.run s) (b.run s')) : I.Relates (a.after s) (b.after s') := by
  cases hr : a.run s with
  | ok v t =>
    rw [hr] at h
    obtain ⟨t', hr', ht⟩ := h
    rw [Action.after_of_ok hr, Action.after_of_ok hr']
    exact ht
  | error x t =>
    rw [hr] at h
    obtain ⟨t', hr', ht⟩ := h
    rw [Action.after_of_error hr, Action.after_of_error hr']
    exact ht

theorem Let.FitsIn.copies (hl : l.FitsIn e s) (hhost : host.Uniform) (depth : Nat) (s' : Store) :
    (s.extras s').Copies (s.extras s').value (l.run (evalAt host depth) e)
      (l.run (evalAt host depth) e) := by
  have hfn : ∀ i < s.closures.size, (s.extras s').fn i = i := fun _ hi => Store.fn_extras_of_lt hi
  have hbindings : l.bindings.map (s.extras s').value = l.bindings :=
    Value.map_rename_of_within hfn hl.bindings
  have hbody : l.body.map (s.extras s').value = l.body :=
    Value.map_rename_of_within hfn hl.body
  have hcopies := ((s.extras s').uniform_evalAt hhost depth).runLet l e
  rwa [hbindings, hbody, Store.env_extras_of_lt hl.environment] at hcopies

theorem Let.FitsIn.repeats (hl : l.FitsIn e s) (hhost : host.Uniform) (depth : Nat)
    (hs : s.Sound) (ha : s.Anchored)
    (hkept : s.KeptIn ((l.run (evalAt host depth) e).after s)) (h : s.KeptIn s') :
    (l.run (evalAt host depth) e).Repeats s s' := by
  have hrelates := hs.relates_extras ha h
  have hagrees := hl.copies hhost depth s' s s' hrelates
  have hmade := Insertion.Relates.after_of_agrees hagrees
  refine ⟨fun v t hr => ?_, fun x t hr => ?_, hmade, hkept.of_relates hrelates hmade⟩
  · rw [hr] at hagrees
    obtain ⟨t', hr', -⟩ := hagrees
    exact ⟨t', hr'⟩
  · rw [hr] at hagrees
    obtain ⟨t', hr', -⟩ := hagrees
    exact ⟨_, t', hr', rfl, Error.message_rename _ x⟩

/-- Suppose that nothing refers to what is not there, and that the functions of the host do not see
the numbers of handles. If running a `let` leaves everything as it was that was there before, then
it can be run again in every store that goes on from the first one, whatever that has besides: the
value is the same but for the numbers of the functions that the run has made, an error has the same
text, and again everything is left as it was. Such stores are those that any number of runs lead
to. So no run depends on the scopes and functions that others have made, nor changes them. -/
theorem let_is_repeatable (hhost : host.Uniform) (hs : s.Sound) (ha : s.Anchored)
    (hl : l.FitsIn e s) (depth : Nat)
    (hkept : s.KeptIn ((l.run (evalAt host depth) e).after s)) :
    (∀ s', s.KeptIn s' → (l.run (evalAt host depth) e).Repeats s s') ∧
    ∀ runs : Nat, s.KeptIn ((l.run (evalAt host depth) e).after^[runs] s) ∧
      (l.run (evalAt host depth) e).Repeats s ((l.run (evalAt host depth) e).after^[runs] s) := by
  have hrepeats : ∀ s', s.KeptIn s' → (l.run (evalAt host depth) e).Repeats s s' := fun s' h =>
    hl.repeats hhost depth hs ha hkept h
  have hruns : ∀ runs : Nat, s.KeptIn ((l.run (evalAt host depth) e).after^[runs] s) := by
    intro runs
    induction runs with
    | zero => exact .refl s
    | succ runs ih =>
      rw [Function.iterate_succ_apply']
      exact ih.trans (hrepeats _ ih).kept
  exact ⟨hrepeats, fun runs => ⟨hruns runs, hrepeats _ (hruns runs)⟩⟩

end Repeated

/-- A `let` around a counter, in the global environment. The third run makes a third counter. -/
theorem let_is_repeatable_of_counter :
    let host : Host := fun _ _ => .ok .unspecified
    let s : Store := { environments := #[Counter.root] }
    let l : Let := ⟨[.list [.symbol ⟨"n", .any⟩, .number 0]],
      [.op (.form .lambda) (.list [] :: Counter.body)]⟩
    s.KeptIn ((l.run (evalAt host 1) 0).after s) ∧
      ∃ t, (l.run (evalAt host 1) 0).run ((l.run (evalAt host 1) 0).after^[2] s) =
        .ok (.function ⟨"lambda", 2⟩) t := by
  intro host s l
  have hhost : host.Uniform := fun _ _ _ _ => rfl
  have hs : s.Sound := Store.sound_of_within (Nat.zero_le _)
    (by simp [s, Counter.within_root]) (by simp [s])
  have ha : s.Anchored := by
    refine ⟨fun e p hp => ?_, by simp [s]⟩
    obtain rfl : e = 0 := Nat.lt_one_iff.1 (Store.lt_size_of_parent? hp)
    cases hp
  have hl : l.FitsIn 0 s := by
    refine ⟨Nat.zero_lt_one, ?_, ?_⟩
    · intro x hx
      rw [List.mem_singleton.1 hx]
      rfl
    · intro x hx
      rw [List.mem_singleton.1 hx]
      rfl
  have hkept : s.KeptIn ((l.run (evalAt host 1) 0).after s) := by
    refine Store.keptIn_iff.2 ⟨fun e he => ?_, fun i hi => absurd hi (Nat.not_lt_zero i)⟩
    obtain rfl : e = 0 := Nat.lt_one_iff.1 he
    rfl
  obtain ⟨-, hruns⟩ := let_is_repeatable hhost hs ha hl 1 hkept
  obtain ⟨t, ht⟩ := (hruns 2).2.ok (.function ⟨"lambda", 0⟩) _ rfl
  exact ⟨hkept, t, ht⟩

end LexicalLisp
