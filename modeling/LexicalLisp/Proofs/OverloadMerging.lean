import LexicalLisp.Proofs.ScopeConstruction

/-!
# Merging of overloads

Defining a function under a name that has one adds an overload to it, unless the function takes so
many arguments already: the first definition of each arity stays. A call runs the overload for the
number of its arguments, so it runs what was defined first for that number.
-/
namespace LexicalLisp

theorem eraseDups_of_nodup {ns : List Nat} (h : ns.Nodup) : ns.eraseDups = ns := by
  induction ns with
  | nil => rfl
  | cons n ns ih =>
    rw [List.nodup_cons] at h
    have hfilter : ns.filter (fun m => !m == n) = ns := by
      refine List.filter_eq_self.2 fun m hm => ?_
      have hne : m ≠ n := fun heq => h.1 (heq ▸ hm)
      simpa using hne
    rw [List.eraseDups_cons, hfilter, ih h.2]

/-! ### Lists of overloads -/

namespace Overload

/-- The overloads with one more, unless there is one of that arity. -/
def merge (os : List Overload) (o : Overload) : List Overload :=
  if o.arity ∈ os.map arity then os else os ++ [o]

/-- The overloads after further definitions, from the first to the last. -/
def mergeAll (os new : List Overload) : List Overload := new.foldl merge os

variable {os new new' : List Overload} {o : Overload} {n : Nat}

theorem merge_of_mem (h : o.arity ∈ os.map arity) : merge os o = os := if_pos h

theorem merge_of_not_mem (h : o.arity ∉ os.map arity) : merge os o = os ++ [o] := if_neg h

@[simp] theorem mergeAll_nil : mergeAll os [] = os := rfl

@[simp] theorem mergeAll_cons : mergeAll os (o :: new) = mergeAll (merge os o) new := rfl

theorem nodup_arities_merge (h : (os.map arity).Nodup) : ((merge os o).map arity).Nodup := by
  unfold merge
  split
  case isTrue => exact h
  case isFalse ho =>
    rw [List.map_append, List.map_singleton]
    exact h.append (List.nodup_singleton _) (by simpa using ho)

theorem nodup_arities_mergeAll (h : (os.map arity).Nodup) :
    ((mergeAll os new).map arity).Nodup := by
  induction new generalizing os with
  | nil => exact h
  | cons o new ih => exact ih (nodup_arities_merge h)

/-- The arities are those of all definitions, each where it came first. -/
theorem arities_mergeAll (h : (os.map arity).Nodup) :
    (mergeAll os new).map arity = ((os ++ new).map arity).eraseDups := by
  induction new generalizing os with
  | nil => rw [mergeAll_nil, List.append_nil, eraseDups_of_nodup h]
  | cons o new ih =>
    rw [mergeAll_cons, ih (nodup_arities_merge h)]
    by_cases ho : o.arity ∈ os.map arity
    · have hdrop : (o.arity :: new.map arity).removeAll (os.map arity) =
          (new.map arity).removeAll (os.map arity) := List.filter_cons_of_neg (by simpa using ho)
      rw [merge_of_mem ho, List.map_append, List.map_append, List.map_cons,
        List.eraseDups_append, List.eraseDups_append, hdrop]
    · rw [merge_of_not_mem ho, List.append_assoc, List.singleton_append]

theorem isSome_find?_arity : (os.find? (·.arity == n)).isSome = true ↔ n ∈ os.map arity := by
  rw [List.find?_isSome, List.mem_map]
  simp only [beq_iff_eq]

/-- Among the overloads, the one of an arity is the first that was defined with it. -/
theorem find?_mergeAll (os new : List Overload) (n : Nat) :
    (mergeAll os new).find? (·.arity == n) = (os ++ new).find? (·.arity == n) := by
  induction new generalizing os with
  | nil => rw [mergeAll_nil, List.append_nil]
  | cons o new ih =>
    rw [mergeAll_cons, ih]
    by_cases ho : o.arity ∈ os.map arity
    · rw [merge_of_mem ho, List.find?_append, List.find?_append, List.find?_cons]
      cases hn : o.arity == n with
      | false => rfl
      | true =>
        rw [beq_iff_eq.1 hn] at ho
        obtain ⟨o', ho'⟩ := Option.isSome_iff_exists.1 (isSome_find?_arity.2 ho)
        rw [ho']
        rfl
    · rw [merge_of_not_mem ho, List.append_assoc, List.singleton_append]

theorem mem_arities_mergeAll : n ∈ (mergeAll os new).map arity ↔ n ∈ (os ++ new).map arity := by
  rw [← isSome_find?_arity, find?_mergeAll, isSome_find?_arity]

/-- Definitions of distinct arities add what the function has no overload for. -/
theorem mergeAll_of_nodup (h : (new.map arity).Nodup) :
    mergeAll os new = os ++ new.filter fun o => o.arity ∉ os.map arity := by
  induction new generalizing os with
  | nil => simp
  | cons o new ih =>
    rw [List.map_cons, List.nodup_cons] at h
    rw [mergeAll_cons, ih h.2]
    by_cases ho : o.arity ∈ os.map arity
    · rw [merge_of_mem ho, List.filter_cons_of_neg (by simpa using ho)]
    · have hfilter : new.filter (fun o' => o'.arity ∉ (os ++ [o]).map arity) =
          new.filter fun o' => o'.arity ∉ os.map arity := by
        refine List.filter_congr fun o' ho' => ?_
        have hne : o'.arity ≠ o.arity := fun heq => h.1 (heq ▸ List.mem_map_of_mem ho')
        simp [hne]
      rw [merge_of_not_mem ho, hfilter, List.filter_cons_of_pos (by simpa using ho),
        List.append_assoc, List.singleton_append]

/-- The order of definitions of distinct arities is the order of the overloads and nothing else. -/
theorem mergeAll_perm (hperm : new.Perm new') (h : (new.map arity).Nodup) :
    (mergeAll os new).Perm (mergeAll os new') := by
  rw [mergeAll_of_nodup h, mergeAll_of_nodup ((hperm.map arity).nodup_iff.1 h)]
  exact (hperm.filter _).append_left os

end Overload

/-! ### Definitions one after another -/

namespace Store

/-- The overloads of the function that the name is bound to in this environment's own frame. -/
def overloads (s : Store) (e : EnvRef) (name : String) : List Overload :=
  match (s.frame e).get? name with
  | some (.function f) =>
    match s.closures[f.index]? with
    | some c => c.overloads
    | none => []
  | _ => []

/-- Further definitions of a function, merged into it. -/
def mergeInto (s : Store) (f : FunctionRef) (os : List Overload) : Store :=
  { s with
    closures := s.closures.modify f.index fun c =>
      { c with overloads := Overload.mergeAll c.overloads os } }

/-- The name is bound to a new function, which has no overload yet. -/
def declareFunction (s : Store) (e : EnvRef) (name : String) : Store :=
  ({ s with closures := s.closures.push ⟨[], e⟩ } : Store).bind e name
    (.function ⟨name, s.closures.size⟩)

variable {s : Store} {e : EnvRef} {name : String} {f : FunctionRef} {os : List Overload}

theorem getElem?_mergeInto (i : Nat) :
    (s.mergeInto f os).closures[i]? =
      if f.index = i then
        s.closures[i]?.map fun c => { c with overloads := Overload.mergeAll c.overloads os }
      else s.closures[i]? := Array.getElem?_modify

theorem getElem?_mergeInto_self {c : Closure} (hc : s.closures[f.index]? = some c) :
    (s.mergeInto f os).closures[f.index]? =
      some { c with overloads := Overload.mergeAll c.overloads os } := by
  rw [getElem?_mergeInto, if_pos rfl, hc]
  rfl

theorem mergeInto_nil : s.mergeInto f [] = s := by
  rw [mergeInto, modify_of_fixed]
  intro c _
  rfl

theorem mergeInto_cons (o : Overload) (os : List Overload) :
    s.mergeInto f (o :: os) = (s.mergeInto f [o]).mergeInto f os := by
  simp only [mergeInto, modify_modify]
  rfl

end Store

/-- Adding an overload merges it, whether it is refused or not. -/
theorem FunctionRef.after_overload_eq (f : FunctionRef) (o : Overload) (s : Store) :
    (f.overload o).after s = s.mergeInto f [o] := by
  have hrun := f.run_overload o s
  by_cases ha : o.arity ∈ s.arities f
  · rw [if_pos ha] at hrun
    rw [Action.after_of_error hrun, Store.mergeInto, modify_of_fixed]
    intro c hc
    rw [Store.arities, hc] at ha
    rw [Overload.mergeAll_cons, Overload.merge_of_mem ha]
    rfl
  · rw [if_neg ha] at hrun
    rw [Action.after_of_ok hrun, Store.mergeInto, modify_congr]
    intro c hc
    rw [Store.arities, hc] at ha
    rw [Overload.mergeAll_cons, Overload.merge_of_not_mem ha]
    rfl

namespace EnvRef

/-- Defines the function with these implementations, one after another. Where one is refused, the
next is tried. -/
def defunAll (e : EnvRef) (name : String) (os : List Overload) (s : Store) : Store :=
  os.foldl (fun s o => (e.defun name o).after s) s

variable {e : EnvRef} {name : String} {f : FunctionRef} {s : Store} {o : Overload}
  {os : List Overload}

@[simp] theorem defunAll_cons :
    e.defunAll name (o :: os) s = e.defunAll name os ((e.defun name o).after s) := rfl

theorem defunAll_append (os' : List Overload) :
    e.defunAll name (os ++ os') s = e.defunAll name os' (e.defunAll name os s) :=
  List.foldl_append

theorem after_defun_function (hb : (s.frame e).get? name = some (.function f)) :
    (e.defun name o).after s = s.mergeInto f [o] := by
  rw [← FunctionRef.after_overload_eq, Action.after, Action.after, run_defun_function hb]

theorem after_defun_new (hb : (s.frame e).get? name = none) :
    (e.defun name o).after s =
      (s.declareFunction e name).mergeInto ⟨name, s.closures.size⟩ [o] := by
  rw [Action.after_of_ok (run_defun_new hb o)]
  simp only [Store.declareFunction, Store.mergeInto, Store.bind, Store.mk.injEq, true_and]
  apply Array.ext_getElem?
  intro i
  rw [Array.getElem?_modify, Array.getElem?_push, Array.getElem?_push]
  by_cases hi : i = s.closures.size
  · rw [if_pos hi, if_pos hi, if_pos hi.symm]
    rfl
  · rw [if_neg hi, if_neg hi, if_neg (Ne.symm hi)]

theorem defunAll_function (hb : (s.frame e).get? name = some (.function f)) :
    e.defunAll name os s = s.mergeInto f os := by
  induction os generalizing s with
  | nil => exact Store.mergeInto_nil.symm
  | cons o os ih =>
    rw [defunAll_cons, after_defun_function hb, Store.mergeInto_cons o os]
    exact ih hb

theorem get?_declareFunction (he : e < s.environments.size) :
    ((s.declareFunction e name).frame e).get? name = some (.function ⟨name, s.closures.size⟩) := by
  rw [Store.declareFunction, Store.get?_frame_bind]
  exact if_pos ⟨he, rfl, rfl⟩

theorem defunAll_new (hb : (s.frame e).get? name = none) (he : e < s.environments.size)
    (hne : os ≠ []) :
    e.defunAll name os s =
      (s.declareFunction e name).mergeInto ⟨name, s.closures.size⟩ os := by
  obtain ⟨o, os, rfl⟩ := List.exists_cons_of_ne_nil hne
  rw [defunAll_cons, after_defun_new hb, Store.mergeInto_cons o os]
  exact defunAll_function (get?_declareFunction he)

end EnvRef

namespace Store

variable {s : Store} {e : EnvRef} {name : String}

theorem overloads_of_closure {f : FunctionRef} {c : Closure}
    (hb : (s.frame e).get? name = some (.function f)) (hc : s.closures[f.index]? = some c) :
    s.overloads e name = c.overloads := by
  simp only [overloads, hb, hc]

/-- A name that is no variable's either has a function or is given one, and the definitions are
merged into that. -/
theorem WellFormed.exists_merging (hs : s.WellFormed) (he : e < s.environments.size)
    (hname : ∀ slot, (s.frame e).get? name ≠ some (.slot slot)) :
    ∃ (s₁ : Store) (f : FunctionRef), f.name = name ∧
      (s₁.frame e).get? name = some (.function f) ∧
      s₁.closures[f.index]? = some ⟨s.overloads e name, e⟩ ∧
      ∀ os, os ≠ [] → e.defunAll name os s = s₁.mergeInto f os := by
  cases hb : (s.frame e).get? name with
  | none =>
    have hold : s.overloads e name = [] := by simp only [overloads, hb]
    refine ⟨s.declareFunction e name, ⟨name, s.closures.size⟩, rfl,
      EnvRef.get?_declareFunction he, ?_, fun os hne => EnvRef.defunAll_new hb he hne⟩
    rw [hold]
    exact Array.getElem?_push_size
  | some b =>
    cases b with
    | slot slot => exact absurd hb (hname slot)
    | function f =>
      obtain ⟨hf, c, hc, rfl⟩ := hs.function e name f hb
      refine ⟨s, f, hf, hb, ?_, fun os _ => EnvRef.defunAll_function hb⟩
      rw [overloads_of_closure hb hc]
      exact hc

theorem WellFormed.closure_overloads (hs : s.WellFormed) (e : EnvRef) (name : String) :
    ((s.overloads e name).map Overload.arity).Nodup ∧ ∀ o ∈ s.overloads e name, o.Distinct := by
  cases hb : (s.frame e).get? name with
  | none => simp [overloads, hb]
  | some b =>
    cases b with
    | slot slot => simp [overloads, hb]
    | function f =>
      obtain ⟨-, c, hc, -⟩ := hs.function e name f hb
      rw [overloads_of_closure hb hc]
      exact ⟨(hs.closure f.index c hc).arities, (hs.closure f.index c hc).distinct⟩

theorem WellFormed.defunAll (hs : s.WellFormed) {os : List Overload} (hos : ∀ o ∈ os, o.Distinct) :
    (e.defunAll name os s).WellFormed := by
  induction os generalizing s with
  | nil => exact hs
  | cons o os ih =>
    have ho : o.Distinct := hos o List.mem_cons_self
    exact ih (wellFormed_effect.after_defun ho hs) fun o' ho' => hos o' (List.mem_cons_of_mem o ho')

/-- The definitions keep the name a function's, and add to its overloads what is new. -/
theorem WellFormed.overloads_defunAll (hs : s.WellFormed) (he : e < s.environments.size)
    (hname : ∀ slot, (s.frame e).get? name ≠ some (.slot slot)) (os : List Overload) :
    (∀ slot, ((e.defunAll name os s).frame e).get? name ≠ some (.slot slot)) ∧
      (e.defunAll name os s).overloads e name =
        Overload.mergeAll (s.overloads e name) os := by
  by_cases hne : os = []
  · subst hne
    exact ⟨hname, rfl⟩
  · obtain ⟨s₁, f, -, hb, hc, hmerged⟩ := hs.exists_merging he hname
    have hb' : ((s₁.mergeInto f os).frame e).get? name = some (.function f) := hb
    rw [hmerged os hne]
    refine ⟨fun slot hslot => ?_, overloads_of_closure hb' (getElem?_mergeInto_self hc)⟩
    rw [hb'] at hslot
    cases hslot

/-- A definition is refused if the function takes so many arguments already, and not otherwise. -/
theorem WellFormed.run_defun (hs : s.WellFormed)
    (hname : ∀ slot, (s.frame e).get? name ≠ some (.slot slot)) (o : Overload) :
    (e.defun name o).run s =
      if o.arity ∈ (s.overloads e name).map Overload.arity then
        .error (.evaluation (.overloadExists name o.arity) []) s
      else .ok () ((e.defun name o).after s) := by
  cases hb : (s.frame e).get? name with
  | none =>
    have hrun := EnvRef.run_defun_new hb o
    rw [Action.after_of_ok hrun, hrun, if_neg]
    simp only [overloads, hb, List.map_nil, List.not_mem_nil, not_false_iff]
  | some b =>
    cases b with
    | slot slot => exact absurd hb (hname slot)
    | function f =>
      obtain ⟨rfl, c, hc, -⟩ := hs.function e name f hb
      have harities : s.arities f = (s.overloads e f.name).map Overload.arity := by
        rw [overloads_of_closure hb hc]
        simp only [arities, hc]
      have hrun := EnvRef.run_defun_function hb o
      rw [FunctionRef.run_overload, harities] at hrun
      by_cases ha : o.arity ∈ (s.overloads e f.name).map Overload.arity
      · rw [if_pos ha] at hrun ⊢
        exact hrun
      · rw [if_neg ha] at hrun ⊢
        rw [Action.after_of_ok hrun, hrun]

/-- One more definition after others is refused if its arity came before. -/
theorem WellFormed.run_defun_defunAll (hs : s.WellFormed) (he : e < s.environments.size)
    (hname : ∀ slot, (s.frame e).get? name ≠ some (.slot slot)) {os : List Overload}
    (hos : ∀ o ∈ os, o.Distinct) (o : Overload) :
    (e.defun name o).run (e.defunAll name os s) =
      if o.arity ∈ (s.overloads e name ++ os).map Overload.arity then
        .error (.evaluation (.overloadExists name o.arity) []) (e.defunAll name os s)
      else .ok () (e.defunAll name (os ++ [o]) s) := by
  obtain ⟨hname', hmerged⟩ := hs.overloads_defunAll he hname os
  have hrun := (hs.defunAll hos).run_defun hname' o
  simp only [hmerged, Overload.mem_arities_mergeAll] at hrun
  rw [hrun, EnvRef.defunAll_append]
  rfl

end Store

/-! ### Calls -/

/-- The error of a call that no overload takes. -/
def FunctionRef.mismatch (f : FunctionRef) (arities : List Nat) (given : Nat) : Error :=
  match arities with
  | [only] => .arity only given none
  | _ => .evaluation (.noOverload f.name given arities) []

theorem FunctionRef.select_of_find? {f : FunctionRef} {os : List Overload} {given : Nat}
    {o : Overload} (h : os.find? (·.arity == given) = some o) : f.select os given = .ok o := by
  unfold select
  rw [h]

theorem FunctionRef.select_of_find?_none {f : FunctionRef} {os : List Overload} {given : Nat}
    (h : os.find? (·.arity == given) = none) :
    f.select os given = .error (f.mismatch (os.map Overload.arity) given) := by
  unfold select
  rw [h]
  cases os with
  | nil => rfl
  | cons o os => cases os <;> rfl

/-- The first value that its parameter's kind does not admit is refused. -/
theorem Frame.declareAll_of_refused {f : Frame} {ps : List Symbol} {vs : List Value}
    {before after : List (Symbol × Value)} {p : Symbol} {v : Value}
    (hzip : ps.zip vs = before ++ (p, v) :: after) (hnodup : (ps.map Symbol.name).Nodup)
    (hfree : ∀ q ∈ ps, f.binds q.name = false)
    (hbefore : ∀ b ∈ before, b.1.kind.admits b.2 = true) (hv : p.kind.admits v = false) :
    f.declareAll ps vs = .error (.type (.slot (some p.name) p.kind v) []) := by
  induction before generalizing f ps vs with
  | nil =>
    cases ps with
    | nil => simp at hzip
    | cons q ps =>
      cases vs with
      | nil => simp at hzip
      | cons w vs =>
        cases hzip
        have hdeclare : f.declare p v = .error (.type (.slot (some p.name) p.kind v) []) :=
          declare_eq_error_iff.2 (Or.inl ⟨hv, rfl⟩)
        simp [declareAll, hdeclare, bind, Except.bind]
  | cons b before ih =>
    cases ps with
    | nil => simp at hzip
    | cons q ps =>
      cases vs with
      | nil => simp at hzip
      | cons w vs =>
        rw [List.zip_cons_cons, List.cons_append, List.cons.injEq] at hzip
        obtain ⟨rfl, hzip⟩ := hzip
        rw [List.map_cons, List.nodup_cons] at hnodup
        have hdeclare : f.declare q w = .ok (f.put q.name (.slot ⟨q.kind, w⟩)) :=
          declare_eq_ok_iff.2 ⟨hbefore _ List.mem_cons_self, hfree q List.mem_cons_self, rfl⟩
        have hrest := ih hzip hnodup.2 (f := f.put q.name (.slot ⟨q.kind, w⟩)) (fun r hr => ?_)
          fun b hb => hbefore b (List.mem_cons_of_mem _ hb)
        · simp [declareAll, hdeclare, bind, Except.bind, hrest]
        · have hne : q.name ≠ r.name := fun h => hnodup.1 (h ▸ List.mem_map_of_mem hr)
          rw [binds, get?_put, if_neg hne]
          exact hfree r (List.mem_cons_of_mem q hr)

/-- What calls do in this store, if the function has been defined in `home` with these
implementations, one after another. The first that takes so many arguments runs, in a new scope
that binds its parameters to the arguments and nothing else, unless a parameter's kind does not
admit its argument; then the first such argument is refused. If none takes so many, nothing runs. -/
def FunctionRef.CallsFirst (f : FunctionRef) (os : List Overload) (home : EnvRef) (s : Store) :
    Prop :=
  ∀ (eval : Evaluator) (args : List Value),
    (∀ o, os.find? (·.arity == args.length) = some o →
      ((∀ b ∈ o.params.zip args, b.1.kind.admits b.2 = true) ∧
        ∃ frame : Frame, frame.Holds (o.params.zip args) ∧
          (f.call eval args).run s =
            (Action.noting (.inFunction f.name) (evalBody eval o.body s.environments.size)).run
              { s with
                environments := s.environments.push ⟨frame, .scope o.body (some home)⟩ }) ∨
      ∃ before p v after, o.params.zip args = before ++ (p, v) :: after ∧
        (∀ b ∈ before, b.1.kind.admits b.2 = true) ∧ p.kind.admits v = false ∧
        (f.call eval args).run s = .error (.type (.slot (some p.name) p.kind v) []) s) ∧
    (args.length ∉ os.map Overload.arity →
      (f.call eval args).run s =
        .error (f.mismatch (os.map Overload.arity).eraseDups args.length) s)

/-- Entering an overload with as many arguments as it takes. -/
theorem Overload.run_enter_of_distinct (eval : Evaluator) {o : Overload} {args : List Value}
    (hd : o.Distinct) (hlength : args.length = o.arity) (name : String) (home : EnvRef)
    (s : Store) :
    ((∀ b ∈ o.params.zip args, b.1.kind.admits b.2 = true) ∧
      ∃ frame : Frame, frame.Holds (o.params.zip args) ∧
        (o.enter eval name home args).run s =
          (Action.noting (.inFunction name) (evalBody eval o.body s.environments.size)).run
            { s with environments := s.environments.push ⟨frame, .scope o.body (some home)⟩ }) ∨
    ∃ before p v after, o.params.zip args = before ++ (p, v) :: after ∧
      (∀ b ∈ before, b.1.kind.admits b.2 = true) ∧ p.kind.admits v = false ∧
      (o.enter eval name home args).run s = .error (.type (.slot (some p.name) p.kind v) []) s := by
  unfold enter
  cases hfirst : (o.params.zip args).find? (fun b => !b.1.kind.admits b.2) with
  | none =>
    have hadmits : ∀ b ∈ o.params.zip args, b.1.kind.admits b.2 = true := by
      simpa using List.find?_eq_none.1 hfirst
    obtain ⟨frame, hframe⟩ := Frame.exists_declareAll hd fun p v h => hadmits (p, v) h
    refine Or.inl ⟨hadmits, frame, Frame.holds_of_declareAll hlength hframe, ?_⟩
    rw [hframe]
    rfl
  | some b =>
    obtain ⟨p, v⟩ := b
    obtain ⟨hv, before, after, hzip, hbefore⟩ := List.find?_eq_some_iff_append.1 hfirst
    have hbefore : ∀ b ∈ before, b.1.kind.admits b.2 = true := by simpa using hbefore
    have hv : p.kind.admits v = false := by simpa using hv
    have hfree : ∀ q ∈ o.params, Frame.binds {} q.name = false := fun _ _ => rfl
    have herror := Frame.declareAll_of_refused hzip hd hfree hbefore hv
    refine Or.inr ⟨before, p, v, after, hzip, hbefore, hv, ?_⟩
    rw [herror]
    rfl

theorem FunctionRef.callsFirst_of_closure {f : FunctionRef} {os new : List Overload}
    {home : EnvRef} {s : Store}
    (hc : s.closures[f.index]? = some ⟨Overload.mergeAll os new, home⟩)
    (harities : (os.map Overload.arity).Nodup) (hdistinct : ∀ o ∈ os ++ new, o.Distinct) :
    f.CallsFirst (os ++ new) home s := by
  intro eval args
  have hfind := Overload.find?_mergeAll os new args.length
  constructor
  · intro o ho
    have hd : o.Distinct := hdistinct o (List.mem_of_find?_eq_some ho)
    have hlength : o.arity = args.length := by simpa using List.find?_some ho
    rw [run_call_of_select eval hc (select_of_find? (hfind.trans ho))]
    exact Overload.run_enter_of_distinct eval hd hlength.symm f.name home s
  · intro hnone
    have hnone : (os ++ new).find? (·.arity == args.length) = none := by
      rw [← Overload.isSome_find?_arity] at hnone
      simpa using hnone
    have hselect := select_of_find?_none (f := f) (hfind.trans hnone)
    rw [run_call, choose]
    simp only [hc, hselect, Overload.arities_mergeAll harities]
    rfl

end LexicalLisp
