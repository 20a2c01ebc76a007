import Mathlib.Data.List.Find
import LexicalLisp.Proofs.OverloadMerging

/-!
# The order of overloads

A function whose overloads stand in another order behaves alike: a call finds the one overload for
the number of its arguments wherever that stands. The order shows in one place only, the error of a
call of this function that no overload takes, which lists its arities in the order of their
definition.
-/
namespace LexicalLisp

/-- The same error, unless it is that of a call of the function `f`, by some handle `g` on it, that
no overload takes. Then the first lists the arities of `os` and the second those of `os'`, and both
go on with those of the overloads that have been `added` since. -/
inductive Error.Reordered (f : FunctionRef) (os os' : List Overload) : Error → Error → Prop where
  | refl (x : Error) : Reordered f os os' x x
  | noOverload {g : FunctionRef} (hg : g.index = f.index) (given : Nat) (added : List Overload)
    (trail : List Note) :
    Reordered f os os'
      (.evaluation (.noOverload g.name given ((os ++ added).map Overload.arity)) trail)
      (.evaluation (.noOverload g.name given ((os' ++ added).map Overload.arity)) trail)

/-- The same store but for the function `f`. Its overloads are `os` in the first and the same in
another order, `os'`, in the second; those that have been `added` since stand behind them in both.
No two of them have one arity. -/
structure Store.Reordered (f : FunctionRef) (os os' : List Overload) (s s' : Store) : Prop where
  environments : s'.environments = s.environments
  size : s'.closures.size = s.closures.size
  others : ∀ i, i ≠ f.index → s'.closures[i]? = s.closures[i]?
  order : os.Perm os'
  function : ∃ added home, s.closures[f.index]? = some ⟨os ++ added, home⟩ ∧
    s'.closures[f.index]? = some ⟨os' ++ added, home⟩ ∧
    ((os ++ added).map Overload.arity).Nodup

variable {f : FunctionRef} {os os' : List Overload}

theorem Error.Reordered.note {x y : Error} (h : x.Reordered f os os' y) (line : Note) :
    (x.note line).Reordered f os os' (y.note line) := by
  cases h with
  | refl => exact .refl _
  | noOverload hg given added trail => exact .noOverload hg given added _

/-! ### One function -/

theorem Overload.find?_arity_of_perm (h : os.Perm os') (hnodup : (os.map arity).Nodup) (n : Nat) :
    os.find? (·.arity == n) = os'.find? (·.arity == n) := by
  apply List.find?_eq_find?_of_perm h
  rintro o ⟨ho, hn⟩ o' ⟨ho', hn'⟩
  rw [beq_iff_eq] at hn hn'
  exact List.inj_on_of_nodup_map hnodup ho ho' (hn.trans hn'.symm)

theorem FunctionRef.mismatch_of_length_ne {ns : List Nat} (h : ns.length ≠ 1) (g : FunctionRef)
    (given : Nat) : g.mismatch ns given = .evaluation (.noOverload g.name given ns) [] := by
  unfold mismatch
  split
  case h_1 only => simp at h
  case h_2 => rfl

theorem FunctionRef.mismatch_reordered {g : FunctionRef} (hg : g.index = f.index)
    (hperm : os.Perm os') (added : List Overload) (given : Nat) :
    (g.mismatch ((os ++ added).map Overload.arity) given).Reordered f os os'
      (g.mismatch ((os' ++ added).map Overload.arity) given) := by
  have harities := (hperm.append_right added).map Overload.arity
  by_cases hlength : ((os ++ added).map Overload.arity).length = 1
  · obtain ⟨only, honly⟩ := List.length_eq_one_iff.1 hlength
    rw [honly, List.singleton_perm] at harities
    rw [honly, harities]
    exact .refl _
  · have hlength' : ((os' ++ added).map Overload.arity).length ≠ 1 := harities.length_eq ▸ hlength
    rw [mismatch_of_length_ne hlength, mismatch_of_length_ne hlength']
    exact .noOverload hg given added []

/-! ### Stores -/

namespace Store

section Environments

variable {s s' : Store} (h : s'.environments = s.environments)
include h

theorem frame_congr (e : EnvRef) : s'.frame e = s.frame e := by
  rw [frame, frame, h]

theorem ownerWithin_congr (name : String) (links : Nat) (e : EnvRef) :
    s'.ownerWithin name links e = s.ownerWithin name links e := by
  induction links generalizing e with
  | zero => rfl
  | succ links ih =>
    rw [ownerWithin, ownerWithin, frame_congr h, parent?, parent?, h, funext ih]

theorem owner?_congr (name : String) (e : EnvRef) : s'.owner? name e = s.owner? name e := by
  rw [owner?, owner?, h, ownerWithin_congr h]

theorem lookup?_congr (name : String) (e : EnvRef) : s'.lookup? name e = s.lookup? name e := by
  have hlocal : s'.local? name = s.local? name := by
    funext o
    rw [local?, local?, frame_congr h]
  rw [lookup?, lookup?, owner?_congr h, hlocal]

end Environments

namespace Reordered

variable {s s' : Store} (h : s.Reordered f os os' s')
include h

theorem mem_arities_iff (g : FunctionRef) (n : Nat) : n ∈ s'.arities g ↔ n ∈ s.arities g := by
  unfold arities
  by_cases hg : g.index = f.index
  · obtain ⟨added, home, hc, hc', -⟩ := h.function
    have harities := (h.order.append_right added).map Overload.arity
    rw [hg, hc, hc']
    exact harities.mem_iff.symm
  · rw [h.others g.index hg]

theorem bind (e : EnvRef) (n : String) (b : Binding) :
    (s.bind e n b).Reordered f os os' (s'.bind e n b) :=
  { h with environments := by rw [Store.bind, Store.bind, h.environments] }

theorem push_environment (env : Environment) :
    Reordered f os os' { s with environments := s.environments.push env }
      { s' with environments := s'.environments.push env } :=
  { h with environments := by rw [h.environments] }

theorem push_closure (c : Closure) :
    Reordered f os os' { s with closures := s.closures.push c }
      { s' with closures := s'.closures.push c } where
  environments := h.environments
  size := by simp [h.size]
  others i hi := by simp only [Array.getElem?_push, h.size, h.others i hi]
  order := h.order
  function := by
    obtain ⟨added, home, hc, hc', hnodup⟩ := h.function
    have hf : f.index < s.closures.size := (Array.getElem?_eq_some_iff.1 hc).1
    refine ⟨added, home, ?_, ?_, hnodup⟩
    · rw [Array.getElem?_push, if_neg (by omega)]
      exact hc
    · rw [Array.getElem?_push, h.size, if_neg (by omega)]
      exact hc'

theorem overload {g : FunctionRef} {o : Overload} (ho : o.arity ∉ s.arities g) :
    Reordered f os os'
      { s with
        closures := s.closures.modify g.index fun c => { c with overloads := c.overloads ++ [o] } }
      { s' with
        closures := s'.closures.modify g.index fun c =>
          { c with overloads := c.overloads ++ [o] } } where
  environments := h.environments
  size := by simp [h.size]
  others i hi := by simp only [Array.getElem?_modify, h.others i hi]
  order := h.order
  function := by
    obtain ⟨added, home, hc, hc', hnodup⟩ := h.function
    by_cases hg : g.index = f.index
    · rw [arities, hg, hc] at ho
      refine ⟨added ++ [o], home, ?_, ?_, ?_⟩
      · simp [Array.getElem?_modify, hg, hc]
      · simp [Array.getElem?_modify, hg, hc']
      · rw [← List.append_assoc, ← Overload.merge_of_not_mem ho]
        exact Overload.nodup_arities_merge hnodup
    · refine ⟨added, home, ?_, ?_, hnodup⟩
      · simp [Array.getElem?_modify, hg, hc]
      · simp [Array.getElem?_modify, hg, hc']

end Reordered
end Store

/-! ### Evaluation -/

/-- Evaluations in two stores that differ in the order of a function's overloads only. -/
def reordering (f : FunctionRef) (os os' : List Overload) : Correspondence where
  World := Unit
  name _ := True
  code _ _ := True
  data _ _ := True
  here _ _ := True
  related _ := Store.Reordered f os os'
  grows _ _ _ := True
  cut _ := False
  alike := Error.Reordered f os os'

namespace reordering

variable {s s' : Store} {e : EnvRef}

section Agrees

variable {α : Type} {P : Unit → α → Prop} (h : s.Reordered f os os' s')
include h

theorem agrees_ok {v : α} (hv : P () v) :
    (reordering f os os').Agrees e () P (.ok v s) (.ok v s') :=
  ⟨(), s', rfl, trivial, h, hv⟩

theorem agrees_error (x : Error) :
    (reordering f os os').Agrees e () P (.error x s) (.error x s') :=
  Or.inr ⟨x, (), s', rfl, .refl x, trivial, h⟩

end Agrees

/-- Calls of other functions choose the same. A call of this one finds the same overload in the one
order as in the other, or none in both. -/
theorem matches_choose (h : s.Reordered f os os' s') (g : FunctionRef) (given : Nat) :
    (reordering f os os').Matches (g.choose s given) (g.choose s' given) := by
  by_cases hg : g.index = f.index
  · obtain ⟨added, home, hc, hc', hnodup⟩ := h.function
    have hfind := Overload.find?_arity_of_perm (h.order.append_right added) hnodup given
    unfold FunctionRef.choose
    rw [hg, hc, hc']
    cases ho : (os ++ added).find? (·.arity == given) with
    | some o =>
      simp only [FunctionRef.select_of_find? ho, FunctionRef.select_of_find? (hfind ▸ ho)]
      rfl
    | none =>
      simp only [FunctionRef.select_of_find?_none ho,
        FunctionRef.select_of_find?_none (hfind ▸ ho)]
      exact ⟨_, rfl, FunctionRef.mismatch_reordered hg h.order added given⟩
  · exact Correspondence.matches_choose Error.Reordered.refl (h.others g.index hg) given

theorem follows_define (n : String) (slot : Slot) :
    (reordering f os os').Follows e () (fun _ _ => True) (e.define n slot) (e.define n slot) := by
  intro s s' h
  have hframe := Store.frame_congr h.environments e
  refine Correspondence.agrees_define (agrees_error h) (by rw [hframe]) ?_
  exact agrees_ok (h.bind e n _) trivial

theorem follows_assign (n : String) (v : Value) :
    (reordering f os os').Follows e () (fun _ _ => True) (e.assign n v) (e.assign n v) := by
  intro s s' h
  refine Correspondence.agrees_assign (agrees_error h) (Store.owner?_congr h.environments n e)
    (fun o _ => ?_) fun o slot _ => agrees_ok (h.bind o n _) trivial
  rw [Store.frame_congr h.environments]

theorem follows_overload (g : FunctionRef) (o : Overload) :
    (reordering f os os').Follows e () (fun _ _ => True) (g.overload o) (g.overload o) := by
  intro s s' h
  exact Correspondence.agrees_overload (agrees_error h) (h.mem_arities_iff g _) fun ho =>
    agrees_ok (h.overload ho) trivial

theorem follows_defun (n : String) (o : Overload) :
    (reordering f os os').Follows e () (fun _ _ => True) (e.defun n o) (e.defun n o) := by
  intro s s' h
  have hframe := Store.frame_congr h.environments e
  exact Correspondence.agrees_defun (agrees_error h) (by rw [hframe]) h.size
    (agrees_ok ((h.push_closure ⟨[o], e⟩).bind e n _) trivial) fun g _ =>
      follows_overload g o s s' h

theorem follows_lambda (o : Overload) :
    (reordering f os os').Follows e () (fun _ _ => True) (FunctionRef.create "lambda" o e)
      (FunctionRef.create "lambda" o e) := by
  intro s s' h
  rw [FunctionRef.run_create, FunctionRef.run_create, h.size]
  exact agrees_ok (h.push_closure ⟨[o], e⟩) trivial

theorem lawful (run : Runner) : (reordering f os os').Lawful run run where
  grows_refl _ _ := trivial
  grows_trans _ _ := trivial
  here_mono _ h := h
  code_mono _ h := h
  data_mono _ h := h
  cut_note h := h
  alike_refl := .refl
  alike_note h := h.note _
  part _ _ := trivial
  mentioned _ _ := trivial
  literal _ _ := trivial
  quoted _ := trivial
  bool _ _ := trivial
  nil _ := trivial
  unspecified _ := trivial
  primitive _ _ := trivial
  computed _ _ := ⟨rfl, fun _ _ => trivial⟩
  lookup h _ _ := ⟨Store.lookup?_congr h.environments _ _, fun _ _ => trivial⟩
  closure h _ := ⟨matches_choose h _, fun _ _ => ⟨trivial, fun _ _ _ _ => trivial⟩⟩
  define _ _ _ _ := follows_define _ _
  assign _ _ _ := follows_assign _ _
  defun _ _ _ _ := follows_defun _ _
  lambda _ _ _ := follows_lambda _
  enter := by
    intro _ s s' e parent frame body h _ _ _ _
    exact ⟨by rw [h.environments], (), h.push_environment _, trivial, fun _ _ => trivial⟩

end reordering

/-- The second run has the result of the first, or its error but for the order in which it lists
the arities of `f`, and leaves the same store but for the order of the overloads of `f`. -/
def SameUpToOrder (f : FunctionRef) (os os' : List Overload) :
    EStateM.Result Error Store Value → EStateM.Result Error Store Value → Prop
  | .ok v t, r => ∃ t', r = .ok v t' ∧ t.Reordered f os os' t'
  | .error x t, r =>
    ∃ y t', r = .error y t' ∧ x.Reordered f os os' y ∧ t.Reordered f os os' t'

theorem Store.Reordered.call {s s' : Store} (h : s.Reordered f os os' s') (host : Host)
    (depth : Nat) (g : FunctionRef) (args : List Value) :
    SameUpToOrder f os os' ((g.call (evalAt host depth) args).run s)
      ((g.call (evalAt host depth) args).run s') := by
  have L : (reordering f os os').Lawful (Code.run host) (Code.run host) :=
    reordering.lawful (Code.run host)
  have hfollows : (reordering f os os').Follows 0 () _ (g.call (evalAt host depth) args)
      (g.call (evalAt host depth) args) :=
    L.call (L.evalWithin (maxDepth - depth)) trivial trivial fun _ _ => trivial
  have hagrees := hfollows s s' h
  cases hr : (g.call (evalAt host depth) args).run s with
  | ok v t =>
    rw [hr] at hagrees
    obtain ⟨_, t', hr', -, ht, -⟩ := hagrees
    exact ⟨t', hr', ht⟩
  | error x t =>
    rw [hr] at hagrees
    rcases hagrees with hcut | ⟨y, _, t', hr', hy, -, ht⟩
    · exact hcut.elim
    · exact ⟨y, t', hr', hy, ht⟩

/-- Definitions of distinct arities lead to stores that differ in the order of the overloads of the
function only. -/
theorem Store.reordered_mergeInto {s : Store} {c : Closure} (hc : s.closures[f.index]? = some c)
    (harities : (c.overloads.map Overload.arity).Nodup) (hperm : os.Perm os')
    (hnodup : (os.map Overload.arity).Nodup) :
    (s.mergeInto f os).Reordered f (Overload.mergeAll c.overloads os)
      (Overload.mergeAll c.overloads os') (s.mergeInto f os') where
  environments := rfl
  size := by simp only [mergeInto, Array.size_modify]
  others i hi := by rw [getElem?_mergeInto, getElem?_mergeInto, if_neg hi.symm, if_neg hi.symm]
  order := Overload.mergeAll_perm hperm hnodup
  function := by
    refine ⟨[], c.home, ?_, ?_, ?_⟩
    · simp [getElem?_mergeInto, hc]
    · simp [getElem?_mergeInto, hc]
    · rw [List.append_nil]
      exact Overload.nodup_arities_mergeAll harities

/-- A function has the arities that it was defined with, each where it came first. A definition
with an arity that it has is refused and changes nothing, and a call runs the first definition for
the number of its arguments, or nothing if there is none. So definitions of distinct arities may
come in any order: calls have the same result then, but for the order in which an error lists the
arities of the function, which is the order of the definitions. -/
theorem overload_merging_keeps_first_definitions (host : Host) (s : Store) (e : EnvRef)
    (name : String) (os : List Overload) (hs : s.WellFormed) (he : e < s.environments.size)
    (hname : ∀ slot, (s.frame e).get? name ≠ some (.slot slot)) (hos : ∀ o ∈ os, o.Distinct) :
    let old := s.overloads e name
    let t := e.defunAll name os s
    (∀ before o after, os = before ++ o :: after →
      let r := e.defunAll name before s
      (e.defun name o).run r =
        if o.arity ∈ (old ++ before).map Overload.arity then
          .error (.evaluation (.overloadExists name o.arity) []) r
        else .ok () (e.defunAll name (before ++ [o]) s)) ∧
    (os ≠ [] → ∃ f : FunctionRef, (t.frame e).get? name = some (.function f) ∧ f.name = name ∧
      t.arities f = ((old ++ os).map Overload.arity).eraseDups ∧
      (∀ u : Store, u.closures[f.index]? = t.closures[f.index]? →
        f.CallsFirst (old ++ os) e u) ∧
      ((os.map Overload.arity).Nodup → ∀ os', os.Perm os' →
        let t' := e.defunAll name os' s
        (t'.frame e).get? name = some (.function f) ∧
          ∀ depth args, SameUpToOrder f (t.overloads e name) (t'.overloads e name)
            ((f.call (evalAt host depth) args).run t)
            ((f.call (evalAt host depth) args).run t'))) := by
  intro old t
  obtain ⟨hnodup, hold⟩ := hs.closure_overloads e name
  obtain ⟨s₁, f, hf, hb, hc, hmerged⟩ := hs.exists_merging he hname
  constructor
  · rintro before o after rfl
    exact hs.run_defun_defunAll he hname (fun o' ho' => hos o' (List.mem_append_left _ ho')) o
  · intro hne
    have ht : t = s₁.mergeInto f os := hmerged os hne
    have hclosure : t.closures[f.index]? = some ⟨Overload.mergeAll old os, e⟩ := by
      rw [ht]
      exact Store.getElem?_mergeInto_self hc
    refine ⟨f, ?_, hf, ?_, fun u hu => ?_, fun hdistinct os' hperm => ?_⟩
    · rw [ht]
      exact hb
    · rw [Store.arities, hclosure]
      exact Overload.arities_mergeAll hnodup
    · refine FunctionRef.callsFirst_of_closure (hu.trans hclosure) hnodup fun o ho => ?_
      rcases List.mem_append.1 ho with ho | ho
      · exact hold o ho
      · exact hos o ho
    · have ht' : e.defunAll name os' s = s₁.mergeInto f os' :=
        hmerged os' fun hnil => hne (List.perm_nil.1 (hnil ▸ hperm))
      have hlist : ∀ new, (s₁.mergeInto f new).overloads e name = Overload.mergeAll old new :=
        fun new => Store.overloads_of_closure (s := s₁.mergeInto f new) hb
          (Store.getElem?_mergeInto_self hc)
      have hreordered := Store.reordered_mergeInto hc hnodup hperm hdistinct
      simp only [ht, ht', hlist]
      exact ⟨hb, fun depth args => hreordered.call host depth f args⟩

theorem overload_merging_keeps_first_definitions_of_two :
    let host : Host := fun _ _ => .ok .unspecified
    let s : Store := { environments := #[⟨{}, .root⟩] }
    let constant : Overload := ⟨[], [.number 1]⟩
    let identity : Overload := ⟨[⟨"x", .any⟩], [.symbol ⟨"x", .any⟩]⟩
    s.WellFormed ∧ 0 < s.environments.size ∧
      (∀ slot, (s.frame 0).get? "f" ≠ some (.slot slot)) ∧
      (∀ o ∈ [constant, identity], o.Distinct) ∧
      ∃ f : FunctionRef,
        (EnvRef.defunAll 0 "f" [constant, identity] s).arities f = [0, 1] ∧
        ∀ depth args, SameUpToOrder f [constant, identity] [identity, constant]
          ((f.call (evalAt host depth) args).run (EnvRef.defunAll 0 "f" [constant, identity] s))
          ((f.call (evalAt host depth) args).run
            (EnvRef.defunAll 0 "f" [identity, constant] s)) := by
  intro host s constant identity
  have hs : s.WellFormed := Store.wellFormed_empty.push_environment Frame.variables_empty
  have hname : ∀ slot, (s.frame 0).get? "f" ≠ some (.slot slot) := fun _ h => by cases h
  have hdistinct : ∀ o ∈ [constant, identity], o.Distinct := by
    intro o ho
    rcases List.mem_pair.1 ho with rfl | rfl
    · exact List.nodup_nil
    · exact List.nodup_singleton _
  have h := overload_merging_keeps_first_definitions host s 0 "f" [constant, identity] hs
    Nat.one_pos hname hdistinct
  obtain ⟨f, -, -, harities, -, horder⟩ := h.2 (List.cons_ne_nil _ _)
  have hsame := horder (by decide) [identity, constant] (.swap _ _ _)
  exact ⟨hs, Nat.one_pos, hname, hdistinct, f, harities, hsame.2⟩

/-- The body of one overload calls the function with a number of arguments that none takes. The
error lists what there is, in the order of the definitions. -/
theorem order_of_definitions_shows_in_error :
    let host : Host := fun _ _ => .ok .unspecified
    let s : Store := { environments := #[⟨{}, .root⟩] }
    let call : Overload := ⟨[], [.list [.symbol ⟨"f", .any⟩, .number 1, .number 2]]⟩
    let identity : Overload := ⟨[⟨"x", .any⟩], [.symbol ⟨"x", .any⟩]⟩
    let f : FunctionRef := ⟨"f", 0⟩
    [call, identity].Perm [identity, call] ∧ ([call, identity].map Overload.arity).Nodup ∧
      call.arity = ([] : List Value).length ∧
      ∃ x t y u,
        (f.call (evalAt host 0) []).run (EnvRef.defunAll 0 "f" [call, identity] s) = .error x t ∧
        (f.call (evalAt host 0) []).run (EnvRef.defunAll 0 "f" [identity, call] s) = .error y u ∧
        x.message ≠ y.message := by
  intro host s call identity f
  have hcall : EnvRef.defunAll 0 "f" [call, identity] s =
      ⟨#[⟨⟨[("f", .function f)]⟩, .root⟩], #[⟨[call, identity], 0⟩]⟩ := rfl
  have hidentity : EnvRef.defunAll 0 "f" [identity, call] s =
      ⟨#[⟨⟨[("f", .function f)]⟩, .root⟩], #[⟨[identity, call], 0⟩]⟩ := rfl
  rw [hcall, hidentity]
  refine ⟨.swap _ _ _, by decide, rfl, _, _, _, _, rfl, rfl, ?_⟩
  decide

end LexicalLisp
