import LexicalLisp.Proofs.After
import LexicalLisp.Proofs.Evaluation

/-!
# Effects of evaluation on the store

An effect is a relation between the store before and the store after evaluation in an
environment. Evaluation changes the store by a few kinds of updates only, so a relation
that each of them respects holds between the two ends of every evaluation, whether it
fails or not.
-/
namespace LexicalLisp

/-- The relation holds of every single update that evaluation in `e` makes, and of what
evaluation in a new scope makes. -/
structure Effect (rel : EnvRef → Store → Store → Prop) : Prop where
  refl : ∀ e s, rel e s s
  trans : ∀ {e s t u}, rel e s t → rel e t u → rel e s u
  define : ∀ {e s n slot}, (s.frame e).binds n = false → slot.kind.admits slot.value = true →
    rel e s (s.bind e n (.slot slot))
  assign : ∀ {e s n o slot v}, s.owner? n e = some o → (s.frame o).get? n = some (.slot slot) →
    slot.kind.admits v = true → rel e s (s.bind o n (.slot { slot with value := v }))
  lambda : ∀ {e s o}, o.Distinct → rel e s { s with closures := s.closures.push ⟨[o], e⟩ }
  defun : ∀ {e s n o}, (s.frame e).get? n = none → o.Distinct →
    rel e s (({ s with closures := s.closures.push ⟨[o], e⟩ } : Store).bind e n
      (.function ⟨n, s.closures.size⟩))
  overload : ∀ {e s n f o}, (s.frame e).get? n = some (.function f) → o.arity ∉ s.arities f →
    o.Distinct → rel e s
      { s with
        closures := s.closures.modify f.index fun c =>
          { c with overloads := c.overloads ++ [o] } }
  enter : ∀ {e s t frame body parent}, frame.Variables (fun _ => True) →
    rel s.environments.size
      { s with environments := s.environments.push ⟨frame, .scope body (some parent)⟩ } t →
    rel e s t

namespace Effect

/-- Two evaluations with the same stores all along, until the first ends in an error that is
cut off. What is known at a moment is the store of that moment. -/
def correspondence (rel : EnvRef → Store → Store → Prop) (cut : Error → Prop) :
    Correspondence where
  World := Store
  name _ := True
  code _ _ := True
  data _ _ := True
  here _ _ := True
  related w s s' := s = w ∧ s' = w
  grows := rel
  cut := cut

variable {rel : EnvRef → Store → Store → Prop} {cut : Error → Prop} {e : EnvRef} {s : Store}
  {α : Type}

/-- An action follows itself if its effect from the store of the moment is in the relation. -/
theorem follows {P : Store → α → Prop} {a : Action α} (h : rel e s (a.after s))
    (hP : ∀ t x, P t x) : (correspondence rel cut).Follows e s P a a := by
  rintro _ _ ⟨rfl, rfl⟩
  cases hr : a.run _ with
  | error x t =>
    rw [Action.after_of_error hr] at h
    exact Or.inr ⟨x, t, t, rfl, rfl, h, rfl, rfl⟩
  | ok v t =>
    rw [Action.after_of_ok hr] at h
    exact ⟨t, t, rfl, h, ⟨rfl, rfl⟩, hP t v⟩

theorem after_of_follows {P : Store → α → Prop} {a : Action α}
    (h : (correspondence rel fun _ => False).Follows e s P a a) : rel e s (a.after s) := by
  have h := h s s ⟨rfl, rfl⟩
  cases hr : a.run s with
  | error x t =>
    rw [hr] at h
    rw [Action.after_of_error hr]
    rcases h with hc | ⟨-, w, t', hr', -, hg, hw, -⟩
    · exact hc.elim
    · exact hw ▸ hg
  | ok v t =>
    rw [hr] at h
    rw [Action.after_of_ok hr]
    obtain ⟨w, t', hr', hg, ⟨hw, -⟩, -⟩ := h
    exact hw ▸ hg

theorem post_of_follows {P : Store → α → Prop} {a : Action α} {t : Store} {x : α}
    (h : (correspondence rel cut).Follows e s P a a) (hr : a.run s = .ok x t) : P t x := by
  have h := h s s ⟨rfl, rfl⟩
  rw [hr] at h
  obtain ⟨w, t', hr', -, ⟨hw, -⟩, hx⟩ := h
  exact hw ▸ hx

variable (E : Effect rel)
include E

theorem after_define {n : String} {slot : Slot} (hs : slot.kind.admits slot.value = true) :
    rel e s ((e.define n slot).after s) :=
  EnvRef.after_define (E.refl e s) fun hb => E.define hb hs

theorem after_assign {n : String} {v : Value} : rel e s ((e.assign n v).after s) :=
  EnvRef.after_assign (E.refl e s) fun _ _ ho hb hv => E.assign ho hb hv

theorem after_defun {n : String} {o : Overload} (ho : o.Distinct) :
    rel e s ((e.defun n o).after s) :=
  EnvRef.after_defun (E.refl e s) (fun hb => E.defun hb ho) fun _ hf ha => E.overload hf ha ho

theorem lawful (run : Runner) (hcut : ∀ x line, cut x → cut (x.note line)) :
    (correspondence rel cut).Lawful run run where
  grows_refl := E.refl
  grows_trans := E.trans
  here_mono _ h := h
  code_mono _ h := h
  data_mono _ h := h
  cut_note h := hcut _ _ h
  alike_refl _ := rfl
  alike_note h := congrArg _ h
  part _ _ := trivial
  mentioned _ _ := trivial
  literal _ _ := trivial
  quoted _ := trivial
  bool _ _ := trivial
  nil _ := trivial
  unspecified _ := trivial
  primitive _ _ := trivial
  computed _ _ := ⟨rfl, fun _ _ => trivial⟩
  lookup := by
    rintro _ _ _ _ _ ⟨rfl, rfl⟩ _ _
    exact ⟨rfl, fun _ _ => trivial⟩
  closure := by
    rintro _ _ _ _ ⟨rfl, rfl⟩ _
    exact ⟨Correspondence.matches_choose (fun _ => rfl) rfl, fun _ _ => ⟨trivial, fun _ _ _ _ => trivial⟩⟩
  define _ _ hk _ := follows (E.after_define hk) fun _ _ => trivial
  assign _ _ _ := follows E.after_assign fun _ _ => trivial
  defun _ _ ho _ := follows (E.after_defun ho) fun _ _ => trivial
  lambda _ ho _ := follows (E.lambda ho) fun _ _ => trivial
  enter := by
    rintro _ _ _ _ _ _ _ ⟨rfl, rfl⟩ _ _ hf _
    exact ⟨rfl, _, ⟨rfl, rfl⟩, trivial, fun t ht => E.enter hf ht⟩

theorem uncut_lawful (run : Runner) : (correspondence rel fun _ => False).Lawful run run :=
  E.lawful run fun _ _ h => h

theorem evaluators (run : Runner) (levels : Nat) :
    (correspondence rel fun _ => False).Evaluators (evalWithin run levels)
      (evalWithin run levels) :=
  (E.uncut_lawful run).evalWithin levels

theorem after_evalWithin (run : Runner) (levels : Nat) (expr : Value) (e : EnvRef) (s : Store) :
    rel e s ((evalWithin run levels expr e).after s) :=
  after_of_follows (E.evaluators run levels e s expr trivial trivial)

theorem after_evalBody (run : Runner) (levels : Nat) (body : List Value) (e : EnvRef) (s : Store) :
    rel e s ((evalBody (evalWithin run levels) body e).after s) := by
  have L := E.uncut_lawful run
  exact after_of_follows (L.evalBody (E.evaluators run levels) trivial fun _ _ => trivial)

theorem after_runForm (run : Runner) (levels : Nat) (form : SpecialForm) (args : List Value)
    (e : EnvRef) (s : Store) : rel e s ((form.run (evalWithin run levels) args e).after s) := by
  have L := E.uncut_lawful run
  exact after_of_follows (L.runForm (E.evaluators run levels) trivial trivial)

theorem after_runLet (run : Runner) (levels : Nat) (l : Let) (e : EnvRef) (s : Store) :
    rel e s ((l.run (evalWithin run levels) e).after s) := by
  have L := E.uncut_lawful run
  exact after_of_follows
    (L.runLet (E.evaluators run levels) trivial (fun _ _ => trivial) fun _ _ => trivial)

/-- The initializers of a `let` are evaluated, and the frame binds variables. -/
theorem after_bindAll (run : Runner) (levels : Nat) (bindings : List Value) (e : EnvRef)
    (s : Store) :
    rel e s ((Let.bindAll (evalWithin run levels) e bindings {}).after s) ∧
      ∀ frame t, (Let.bindAll (evalWithin run levels) e bindings {}).run s = .ok frame t →
        frame.Variables fun _ => True := by
  have L := E.uncut_lawful run
  have h : (correspondence rel fun _ => False).Follows e s (fun _ f => f.Variables fun _ => True)
      (Let.bindAll (evalWithin run levels) e bindings {})
      (Let.bindAll (evalWithin run levels) e bindings {}) :=
    L.bindAll (E.evaluators run levels) trivial (fun _ _ => trivial) Frame.variables_empty
  exact ⟨after_of_follows h, fun frame t hr => post_of_follows h hr⟩

theorem after_call (run : Runner) (levels : Nat) (f : FunctionRef) (args : List Value)
    (e : EnvRef) (s : Store) : rel e s ((f.call (evalWithin run levels) args).after s) := by
  have L := E.uncut_lawful run
  exact after_of_follows (L.call (E.evaluators run levels) trivial trivial fun _ _ => trivial)

/-- What the body of a `let` does, once its frame is made. -/
theorem after_let_body (run : Runner) (levels : Nat) {l : Let} {parent : EnvRef} {frame : Frame}
    {u : Store}
    (hb : (Let.bindAll (evalWithin run levels) parent l.bindings {}).run s = .ok frame u)
    (e : EnvRef) : rel e u ((l.run (evalWithin run levels) parent).after s) := by
  have L := E.uncut_lawful run
  have hev := E.evaluators run levels
  have hframe : frame.Variables fun _ => True := (E.after_bindAll run levels _ parent s).2 _ _ hb
  let body : Action Value := do
    let scope ← Environment.create ⟨frame, .scope l.body (some parent)⟩
    evalBody (evalWithin run levels) l.body scope
  have hbody : (correspondence rel fun _ => False).Follows e u (fun _ _ => True) body body :=
    L.inNewScope trivial trivial hframe (fun _ _ => trivial) fun _ _ _ _ =>
      L.evalBody hev trivial fun _ _ => trivial
  have hrun : EStateM.run (l.run (evalWithin run levels) parent) s = body.run u :=
    Action.run_bind_of_ok hb
  rw [Action.after, hrun]
  exact after_of_follows hbody

end Effect
end LexicalLisp
