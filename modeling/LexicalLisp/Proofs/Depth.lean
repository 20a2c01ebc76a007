import LexicalLisp.Proofs.Effect

/-!
# The depth limit

The limit only ever cuts an evaluation off. No error is caught on its way out, so where the check
fires the error that it raises becomes the result, with notes added. An evaluation in which it does
not fire has the same result and the same final store wherever more levels are left.
-/
namespace LexicalLisp

namespace Error

/-- The limit has been reached, whatever the trail says. -/
def IsDepth (x : Error) : Prop := ∃ trail, x = .evaluation .depthExceeded trail

/-- The error is the other one with notes added. -/
def StemsFrom (origin x : Error) : Prop :=
  ∃ lines : List Note, x = lines.foldl (fun y line => y.note line) origin

theorem StemsFrom.refl (origin : Error) : origin.StemsFrom origin := ⟨[], rfl⟩

theorem StemsFrom.note {origin x : Error} (line : Note) (h : origin.StemsFrom x) :
    origin.StemsFrom (x.note line) := by
  obtain ⟨lines, rfl⟩ := h
  exact ⟨lines ++ [line], by rw [List.foldl_append]; rfl⟩

theorem StemsFrom.isDepth {trail : List Note} {x : Error}
    (h : StemsFrom (.evaluation .depthExceeded trail) x) : x.IsDepth := by
  obtain ⟨lines, rfl⟩ := h
  induction lines generalizing trail with
  | nil => exact ⟨trail, rfl⟩
  | cons line lines ih => exact ih

/-- An error that takes no notes is the only one that stems from it. -/
theorem StemsFrom.eq {origin x : Error} (h : origin.StemsFrom x)
    (hnote : ∀ line, origin.note line = origin) : x = origin := by
  obtain ⟨lines, rfl⟩ := h
  induction lines with
  | nil => rfl
  | cons line lines ih => rw [List.foldl_cons, hnote, ih]

end Error

namespace Depth

theorem effect : Effect fun _ _ _ => True := by
  constructor <;> intros <;> trivial

/-- Two evaluations from one store, up to where the first meets the limit. -/
def limited (limit : Error) : Correspondence :=
  Effect.correspondence (fun _ _ _ => True) limit.StemsFrom

theorem limited_lawful (limit : Error) (run : Runner) : (limited limit).Lawful run run :=
  effect.lawful run fun _ line h => h.note line

theorem limited_evaluators {n m : Nat} (run : Runner) (h : n ≤ m) (limit limit' : Error) :
    (limited limit).Evaluators (evalLimited limit run n) (evalLimited limit' run m) :=
  (limited_lawful limit run).evalLimited (Or.inr ⟨h, .refl limit⟩)

/-- The first evaluation ends in the error of the limit, or the second does just the same. -/
theorem run_of_follows {α : Type} {limit : Error} {e : EnvRef} {s : Store} {P : Store → α → Prop}
    {a a' : Action α} (h : (limited limit).Follows e s P a a') :
    (∃ x t, a.run s = .error x t ∧ limit.StemsFrom x) ∨ a'.run s = a.run s := by
  have h := h s s ⟨rfl, rfl⟩
  cases hr : a.run s with
  | ok v t =>
    rw [hr] at h
    obtain ⟨w, t', hr', -, ⟨hw, hw'⟩, -⟩ := h
    rw [hr', hw', hw]
    exact Or.inr rfl
  | error x t =>
    rw [hr] at h
    rcases h with hcut | ⟨_, w, t', hr', rfl, -, hw, hw'⟩
    · exact Or.inl ⟨x, t, rfl, hcut⟩
    · rw [hr', hw', hw]
      exact Or.inr rfl

theorem run_of_follows_ok {α : Type} {limit : Error} {e : EnvRef} {s t : Store}
    {P : Store → α → Prop} {a a' : Action α} {v : α} (h : (limited limit).Follows e s P a a')
    (hr : a.run s = .ok v t) : a'.run s = .ok v t := by
  rcases run_of_follows h with ⟨x, u, hx, -⟩ | heq
  · rw [hr] at hx
    cases hx
  · rw [heq, hr]

end Depth

section Levels

variable {run : Runner} {n m : Nat} {e : EnvRef} {s t : Store}

/-- What succeeds within some levels succeeds within more. -/
theorem run_evalWithin_mono (h : n ≤ m) {expr v : Value}
    (hr : (evalWithin run n expr e).run s = .ok v t) :
    (evalWithin run m expr e).run s = .ok v t := by
  rw [← evalLimited_depthExceeded] at hr ⊢
  exact Depth.run_of_follows_ok (Depth.limited_evaluators run h _ _ e s expr trivial trivial) hr

theorem run_evalEach_mono (h : n ≤ m) {exprs vs : List Value}
    (hr : (evalEach (evalWithin run n) exprs e).run s = .ok vs t) :
    (evalEach (evalWithin run m) exprs e).run s = .ok vs t := by
  rw [← evalLimited_depthExceeded] at hr ⊢
  let limit : Error := .evaluation .depthExceeded []
  have hev := Depth.limited_evaluators run h limit limit
  have hfollows : (Depth.limited limit).Follows e s _ (evalEach (evalLimited limit run n) exprs e)
      (evalEach (evalLimited limit run m) exprs e) :=
    (Depth.limited_lawful limit run).evalEach hev trivial fun _ _ => trivial
  exact Depth.run_of_follows_ok hfollows hr

end Levels

/-- The depth check does not fire during the evaluation: whatever error it would raise, the outcome
is the same. -/
def NeverCut (host : Host) (depth : Nat) (expr : Value) (e : EnvRef) (s : Store) : Prop :=
  ∀ limit, (evalLimited limit (Code.run host) (maxDepth - depth) expr e).run s =
    (evalAt host depth expr e).run s

section NeverCut

variable {host : Host} {depth d d' : Nat} {expr : Value} {e : EnvRef} {s : Store}

/-- Where the check does fire, its error is the outcome. -/
theorem neverCut_or_isDepth (host : Host) (depth : Nat) (expr : Value) (e : EnvRef) (s : Store) :
    NeverCut host depth expr e s ∨
      ∃ x t, (evalAt host depth expr e).run s = .error x t ∧ x.IsDepth := by
  by_cases hdepth : ∃ x t, (evalAt host depth expr e).run s = .error x t ∧ x.IsDepth
  · exact Or.inr hdepth
  · refine Or.inl fun limit => ?_
    have hfollows := Depth.limited_evaluators (Code.run host) (Nat.le_refl (maxDepth - depth))
      (.evaluation .depthExceeded []) limit e s expr trivial trivial
    rw [evalLimited_depthExceeded] at hfollows
    rcases Depth.run_of_follows hfollows with ⟨x, t, hx, hstems⟩ | heq
    · exact absurd ⟨x, t, hx, hstems.isDepth⟩ hdepth
    · exact heq

/-- The outcome of an evaluation cannot be both of two errors that the check might raise. So what is
the outcome wherever the check's error is not, is the outcome. -/
theorem NeverCut.run_eq_of_limits (h : NeverCut host depth expr e s)
    {result : EStateM.Result Error Store Value}
    (hresult : ∀ limit,
      (∃ x t, (evalLimited limit (Code.run host) (maxDepth - depth) expr e).run s = .error x t ∧
        limit.StemsFrom x) ∨
      (evalLimited limit (Code.run host) (maxDepth - depth) expr e).run s = result) :
    (evalAt host depth expr e).run s = result := by
  have hcase : ∀ limit : Error, (∀ line, limit.note line = limit) →
      (∃ t, (evalAt host depth expr e).run s = .error limit t) ∨
        (evalAt host depth expr e).run s = result := by
    intro limit hnote
    rw [← h limit]
    rcases hresult limit with ⟨x, t, hx, hstems⟩ | heq
    · rw [hstems.eq hnote] at hx
      exact Or.inl ⟨t, hx⟩
    · exact Or.inr heq
  rcases hcase (.duplicateName "") fun _ => rfl with ⟨t, ht⟩ | heq
  · rcases hcase (.unboundVariable "") fun _ => rfl with ⟨u, hu⟩ | heq
    · rw [ht] at hu
      cases hu
    · exact heq
  · exact heq

theorem NeverCut.run_eq (h : NeverCut host d' expr e s) (hle : d ≤ d') :
    (evalAt host d expr e).run s = (evalAt host d' expr e).run s := by
  refine (h.run_eq_of_limits fun limit => ?_).symm
  have hfollows := Depth.limited_evaluators (Code.run host)
    (show maxDepth - d' ≤ maxDepth - d by omega) limit (.evaluation .depthExceeded []) e s expr
    trivial trivial
  rw [evalLimited_depthExceeded] at hfollows
  rcases Depth.run_of_follows hfollows with hcut | heq
  · exact Or.inl hcut
  · exact Or.inr heq.symm

/-- If the depth check does not fire at a depth, the evaluation has the same outcome and the same
final store at every smaller depth. A value is only ever the result where it does not fire, and
where it fires the limit's error is the result. -/
theorem depth_limit_only_cuts_off (host : Host) (expr : Value) (e : EnvRef) (s : Store)
    (hle : d ≤ d') :
    (NeverCut host d' expr e s →
      (evalAt host d expr e).run s = (evalAt host d' expr e).run s) ∧
    (∀ v t, (evalAt host d' expr e).run s = .ok v t → (evalAt host d expr e).run s = .ok v t) ∧
    (NeverCut host d' expr e s ∨
      ∃ x t, (evalAt host d' expr e).run s = .error x t ∧ x.IsDepth) := by
  refine ⟨fun h => h.run_eq hle, fun v t hr => ?_, neverCut_or_isDepth host d' expr e s⟩
  exact run_evalWithin_mono (by omega) hr

/-- The last level but one suffices to see that a truth value cannot be added. -/
theorem depth_limit_only_cuts_off_near_limit :
    NeverCut (fun _ _ => .ok .unspecified) 62 (.op (.primitive .add) [.bool true]) 0 {} ∧
    (evalAt (fun _ _ => .ok .unspecified) 0 (.op (.primitive .add) [.bool true]) 0).run {} =
      .error (.type (.notNumber .add (.bool true)) []) {} := by
  have hcut : NeverCut (fun _ _ => .ok .unspecified) 62 (.op (.primitive .add) [.bool true]) 0 {} :=
    fun _ => rfl
  exact ⟨hcut, (depth_limit_only_cuts_off _ _ _ _ (show 0 ≤ 62 by decide)).1 hcut⟩

end NeverCut
end LexicalLisp
