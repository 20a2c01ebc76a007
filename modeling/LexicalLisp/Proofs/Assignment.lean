import LexicalLisp.Proofs.Acyclicity

/-!
# Assignment reaches the nearest owner

An assignment goes up the chain as a look-up does, so it meets the environment whose value the
look-up gives. That environment alone decides whether the assignment succeeds: one further out is
not tried. What is changed is one value in one frame, and it is seen from wherever the search for
that name ends in that frame, and from nowhere else.
-/
namespace LexicalLisp
namespace Store

/-- The environments around one another from `e` on: active scopes, and a root in the end. -/
inductive Chain (s : Store) : EnvRef → List EnvRef → Prop
  | root {e : EnvRef} {frame : Frame} (h : s.environments[e]? = some ⟨frame, .root⟩) :
    Chain s e [e]
  | scope {e p : EnvRef} {frame : Frame} {body : List Value} {chain : List EnvRef}
    (h : s.environments[e]? = some ⟨frame, .scope body (some p)⟩) (houter : Chain s p chain) :
    Chain s e (e :: chain)

/-- The first of these environments whose frame binds the name, and what it binds it to. -/
def nearest? (s : Store) (name : String) (chain : List EnvRef) : Option (EnvRef × Binding) :=
  chain.findSome? fun d => ((s.frame d).get? name).map (d, ·)

/-- The stores differ in the value of one slot, which is now `v`. -/
structure Assigned (s t : Store) (o : EnvRef) (name : String) (slot : Slot) (v : Value) : Prop where
  closures : t.closures = s.closures
  elsewhere : ∀ d, d ≠ o → t.environments[d]? = s.environments[d]?
  role : t.environments[o]?.map Environment.role = s.environments[o]?.map Environment.role
  others : ∀ n, n ≠ name → (t.frame o).get? n = (s.frame o).get? n
  value : (t.frame o).get? name = some (.slot { slot with value := v })

section Chains

variable {s : Store} {e o : EnvRef} {chain : List EnvRef} {name : String}

theorem nearest?_cons (s : Store) (name : String) (e : EnvRef) (chain : List EnvRef) :
    s.nearest? name (e :: chain) =
      match (s.frame e).get? name with
      | some b => some (e, b)
      | none => s.nearest? name chain := by
  cases h : (s.frame e).get? name <;> simp [nearest?, h]

/-- Along a chain the search for the owner of a name stops at the first frame that binds it. -/
theorem Chain.owner?_eq (h : s.Chain e chain) (name : String) :
    s.owner? name e = (s.nearest? name chain).map (·.1) := by
  induction h with
  | @root e frame h =>
    have hparent : s.parent? e = none := by simp [parent?, h, Role.parent?]
    rw [Store.owner?_eq, nearest?_cons, hparent]
    cases hb : (s.frame e).get? name <;> simp [Frame.binds, hb, nearest?]
  | @scope e p frame body chain h _ ih =>
    have hparent : s.parent? e = some p := by simp [parent?, h, Role.parent?]
    rw [Store.owner?_eq, nearest?_cons, hparent]
    cases hb : (s.frame e).get? name with
    | none => simp [Frame.binds, hb, ih]
    | some b => simp [Frame.binds, hb]

theorem get?_of_nearest? {b : Binding} (h : s.nearest? name chain = some (o, b)) :
    (s.frame o).get? name = some b := by
  obtain ⟨d, -, hd⟩ := List.exists_of_findSome?_eq_some h
  obtain ⟨b', hb', heq⟩ := Option.map_eq_some_iff.1 hd
  cases heq
  exact hb'

theorem Chain.lookup?_eq (h : s.Chain e chain) (name : String) :
    s.lookup? name e = (s.nearest? name chain).map (·.2.value) := by
  rw [lookup?, h.owner?_eq]
  cases hn : s.nearest? name chain with
  | none => rfl
  | some found =>
    obtain ⟨o, b⟩ := found
    simp [local?, get?_of_nearest? hn]

/-- The owner of a name is what the search without a limit on the links answers. -/
theorem resolves_iff : s.Resolves name e (some o) ↔ s.owner? name e = some o := by
  refine ⟨Resolves.owner?_eq, fun h => ?_⟩
  unfold owner? at h
  generalize s.environments.size = links at h
  induction links generalizing e with
  | zero => cases h
  | succ links ih =>
    rw [ownerWithin] at h
    split at h
    case isTrue hb =>
      cases h
      exact .here hb
    case isFalse hb =>
      obtain ⟨p, hp, ho⟩ := Option.bind_eq_some_iff.1 h
      exact .outer (by simpa using hb) hp (ih ho)

end Chains

/-! ### Writing to a name that is bound -/

section Writing

variable {s : Store} {o : EnvRef} {name : String} {b : Binding}
  (hbound : (s.frame o).binds name = true)
include hbound

theorem binds_bind (d : EnvRef) (n : String) :
    ((s.bind o name b).frame d).binds n = (s.frame d).binds n := by
  unfold Frame.binds
  rw [get?_frame_bind]
  split
  case isTrue h =>
    obtain ⟨-, rfl, rfl⟩ := h
    exact hbound.symm
  case isFalse => rfl

/-- A new binding of a name that a frame has already does not change who owns a name. -/
theorem owner?_bind (d : EnvRef) (n : String) :
    (s.bind o name b).owner? n d = s.owner? n d := by
  rw [owner?, owner?, size_environments_bind]
  generalize s.environments.size = links
  induction links generalizing d with
  | zero => rfl
  | succ links ih =>
    have houter : (s.bind o name b).ownerWithin n links = s.ownerWithin n links := funext ih
    rw [ownerWithin, ownerWithin, binds_bind hbound, parent?_bind, houter]

/-- It changes the look-ups of the name that end in that frame, and no others. -/
theorem lookup?_bind (d : EnvRef) (n : String) :
    (s.bind o name b).lookup? n d =
      if n = name ∧ s.owner? name d = some o then some b.value else s.lookup? n d := by
  rw [lookup?, lookup?, owner?_bind hbound]
  cases howner : s.owner? n d with
  | none =>
    rw [if_neg]
    · rfl
    · rintro ⟨rfl, h⟩
      rw [howner] at h
      cases h
  | some o' =>
    simp only [Option.bind_some, local?, get?_frame_bind]
    by_cases h : o = o' ∧ name = n
    · obtain ⟨rfl, rfl⟩ := h
      simp [lt_size_of_binds hbound, howner]
    · rw [if_neg (fun h' => h h'.2), if_neg]
      rintro ⟨rfl, ho⟩
      rw [howner] at ho
      cases ho
      exact h ⟨rfl, rfl⟩

end Writing

theorem assigned_bind {s : Store} {o : EnvRef} {name : String} {slot : Slot}
    (h : (s.frame o).get? name = some (.slot slot)) (v : Value) :
    s.Assigned (s.bind o name (.slot { slot with value := v })) o name slot v where
  closures := rfl
  elsewhere d hd := by simp [getElem?_bind, Ne.symm hd]
  role := by cases ho : s.environments[o]? <;> simp [getElem?_bind, ho]
  others n hn := by simp [get?_frame_bind, Ne.symm hn]
  value := by
    have hbound : (s.frame o).binds name = true := by simp [Frame.binds, h]
    simp [get?_frame_bind, lt_size_of_binds hbound]

end Store

open Store in
/-- On a chain of scopes that ends at a root, an assignment is decided by the first environment
whose frame binds the name. If there is none, or it binds a function, or its slot does not admit
the value, then the assignment fails and nothing changes, whatever lies further out. Otherwise the
value of that slot changes and nothing else: the name has the new value wherever the search for it
ends in that frame, and every other look-up from anywhere gives what it gave. -/
theorem assignment_reaches_nearest_owner {s : Store} {e : EnvRef} {chain : List EnvRef}
    (h : s.Chain e chain) (name : String) (v : Value) :
    s.lookup? name e = (s.nearest? name chain).map (·.2.value) ∧
    match s.nearest? name chain with
    | none => (e.assign name v).run s = .error (.unboundVariable name) s
    | some (_, .function _) => (e.assign name v).run s = .error (.kindConflict name .function) s
    | some (o, .slot slot) =>
      if slot.kind.admits v = true then
        ∃ t, (e.assign name v).run s = .ok () t ∧ s.Assigned t o name slot v ∧
          (∀ d, s.Resolves name d (some o) → t.lookup? name d = some v) ∧
          ∀ d n, ¬ (n = name ∧ s.Resolves name d (some o)) → t.lookup? n d = s.lookup? n d
      else (e.assign name v).run s = .error (.type (.slot (some name) slot.kind v) []) s := by
  refine ⟨h.lookup?_eq name, ?_⟩
  have howner := h.owner?_eq name
  split
  case h_1 hnone =>
    rw [hnone] at howner
    exact EnvRef.run_assign_none howner v
  case h_2 o f hfound =>
    rw [hfound] at howner
    exact EnvRef.run_assign_function howner (get?_of_nearest? hfound) v
  case h_3 o slot hfound =>
    rw [hfound] at howner
    have hslot := get?_of_nearest? hfound
    have hrun := EnvRef.run_assign_slot howner hslot v
    split
    case isTrue hadmits =>
      have hbound : (s.frame o).binds name = true := by simp [Frame.binds, hslot]
      rw [if_pos hadmits] at hrun
      refine ⟨_, hrun, assigned_bind hslot v, fun d hd => ?_, fun d n hd => ?_⟩
      · rw [lookup?_bind hbound, if_pos ⟨rfl, resolves_iff.1 hd⟩]
        rfl
      · rw [lookup?_bind hbound, if_neg]
        rwa [← resolves_iff]
    case isFalse hadmits => rwa [if_neg hadmits] at hrun

/-- Two scopes inside one another and a third beside them. The integer in the middle hides the
variable of the root, which would take any value. -/
def Store.shadowed : Store :=
  { environments := #[
      ⟨Frame.put {} "x" (.slot ⟨.any, .number 1⟩), .root⟩,
      ⟨Frame.put {} "x" (.slot ⟨.int, .number 5⟩), .scope [] (some 0)⟩,
      ⟨{}, .scope [] (some 1)⟩,
      ⟨{}, .scope [] (some 0)⟩] }

theorem assignment_reaches_nearest_owner_of_shadowed :
    Store.shadowed.Chain 2 [2, 1, 0] ∧
    (EnvRef.assign 2 "x" (.bool true)).run Store.shadowed =
      .error (.type (.slot (some "x") .int (.bool true)) []) Store.shadowed ∧
    ∃ t, (EnvRef.assign 2 "x" (.number 7)).run Store.shadowed = .ok () t ∧
      t.lookup? "x" 2 = some (.number 7) ∧ t.lookup? "x" 3 = some (.number 1) := by
  have hchain : Store.shadowed.Chain 2 [2, 1, 0] := .scope rfl (.scope rfl (.root rfl))
  have hfound : Store.shadowed.nearest? "x" [2, 1, 0] =
      some (1, .slot ⟨.int, .number 5⟩) := rfl
  refine ⟨hchain, ?_, ?_⟩
  · have hrefused := (assignment_reaches_nearest_owner hchain "x" (.bool true)).2
    rw [hfound] at hrefused
    exact hrefused
  · have hassigned := (assignment_reaches_nearest_owner hchain "x" (.number 7)).2
    rw [hfound] at hassigned
    obtain ⟨t, hrun, -, hseen, hother⟩ := hassigned
    refine ⟨t, hrun, hseen 2 ?_, ?_⟩
    · exact Store.resolves_iff.2 rfl
    · rw [hother 3 "x"]
      · rfl
      · rintro ⟨-, hd⟩
        cases Store.resolves_iff.1 hd

end LexicalLisp
