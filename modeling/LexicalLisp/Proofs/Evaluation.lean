import LexicalLisp.Proofs.Correspondence

/-!
# Evaluation respects every lawful correspondence

One lemma for each function of the evaluator, from sequences of expressions up to
`evalWithin`. A lemma takes two evaluators that agree and says that the function agrees
when it is given the one and the other; the recursion is closed over the levels at the end.
-/
namespace LexicalLisp

/-- Evaluates with this many levels left, where the limit raises this error. -/
def evalLimited (limit : Error) (run : Runner) : (levels : Nat) → Evaluator
  | 0 => fun _ _ => throw limit
  | 1 => step run (evalLimited limit run 0) (evalLimited limit run 0)
  | levels + 2 => step run (evalLimited limit run (levels + 1)) (evalLimited limit run levels)

theorem evalLimited_succ (limit : Error) (run : Runner) (levels : Nat) :
    evalLimited limit run (levels + 1) =
      step run (evalLimited limit run levels) (evalLimited limit run (levels - 1)) := by
  cases levels <;> rfl

theorem evalLimited_depthExceeded (run : Runner) (levels : Nat) :
    evalLimited (.evaluation .depthExceeded []) run levels = evalWithin run levels := by
  induction levels using Nat.strongRecOn with
  | ind levels ih =>
    cases levels with
    | zero => rfl
    | succ levels =>
      rw [evalLimited_succ, evalWithin_succ, ih levels (by omega), ih (levels - 1) (by omega)]

end LexicalLisp

namespace LexicalLisp.Correspondence.Lawful

variable {C : Correspondence} {e : EnvRef} {w : C.World} {run run' : Runner}
  (L : C.Lawful run run') {eval eval' : Evaluator}
include L

/-! ### Sequences of expressions -/

theorem evalEach (hev : C.Evaluators eval eval') {xs : List Value} (he : C.here w e)
    (hx : ∀ x ∈ xs, C.code w x) :
    C.Follows e w (fun w' vs => ∀ v ∈ vs, C.data w' v)
      (LexicalLisp.evalEach eval xs e) (LexicalLisp.evalEach eval' xs e) := by
  induction xs generalizing w with
  | nil => exact L.pure (by simp)
  | cons x xs ih =>
    have hhead : C.code w x := hx x List.mem_cons_self
    refine L.bind (hev e w x he hhead) fun w₁ v hg hv => ?_
    have htail : ∀ y ∈ xs, C.code w₁ y := fun y hy =>
      L.code_mono hg (hx y (List.mem_cons_of_mem x hy))
    refine L.bind (ih (L.here_mono hg he) htail) fun w₂ vs hg' hvs => L.pure ?_
    intro u hu
    rcases List.mem_cons.1 hu with rfl | hu
    · exact L.data_mono hg' hv
    · exact hvs u hu

theorem evalBody (hev : C.Evaluators eval eval') {xs : List Value} (he : C.here w e)
    (hx : ∀ x ∈ xs, C.code w x) :
    C.Follows e w C.data (LexicalLisp.evalBody eval xs e) (LexicalLisp.evalBody eval' xs e) := by
  induction xs generalizing w with
  | nil => exact L.pure (L.nil w)
  | cons x xs ih =>
    have hhead : C.code w x := hx x List.mem_cons_self
    cases xs with
    | nil => exact hev e w x he hhead
    | cons y ys =>
      refine L.bind (hev e w x he hhead) fun w₁ _ hg _ => ?_
      have htail : ∀ z ∈ y :: ys, C.code w₁ z := fun z hz =>
        L.code_mono hg (hx z (List.mem_cons_of_mem x hz))
      exact ih (L.here_mono hg he) htail

/-! ### New scopes -/

/-- Going on in a new scope. What is learnt there is learnt in the environment around it. -/
theorem inNewScope {α : Type} {P : C.World → α → Prop} {frame : Frame} {body : List Value}
    {parent : EnvRef} {k k' : EnvRef → Action α}
    (he : C.here w e) (hp : C.here w parent) (hf : frame.Variables (C.data w))
    (hx : ∀ x ∈ body, C.code w x)
    (hk : ∀ w₁ scope, C.grows e w w₁ → C.here w₁ scope →
      C.Follows scope w₁ P (k scope) (k' scope)) :
    C.Follows e w P (Environment.create ⟨frame, .scope body (some parent)⟩ >>= k)
      (Environment.create ⟨frame, .scope body (some parent)⟩ >>= k') := by
  intro s s' hs
  obtain ⟨hsize, w₁, hs₁, hhere, hgrow⟩ := L.enter hs he hp hf hx
  have hw : C.grows e w w₁ := hgrow w₁ (L.grows_refl _ w₁)
  have h := (hk w₁ _ hw hhere _ _ hs₁).of_grows hgrow
  rw [EStateM.run_bind, EStateM.run_bind, Environment.run_create, Environment.run_create, hsize]
  exact h

/-! ### Let -/

theorem bindAll (hev : C.Evaluators eval eval') {bs : List Value} {f : Frame} (he : C.here w e)
    (hb : ∀ x ∈ bs.filterMap Let.initializer?, C.code w x) (hf : f.Variables (C.data w)) :
    C.Follows e w (fun w' g => g.Variables (C.data w'))
      (Let.bindAll eval e bs f) (Let.bindAll eval' e bs f) := by
  induction bs generalizing w f with
  | nil => exact L.pure hf
  | cons b bs ih =>
    have hparts : ∀ p, Let.parts b = .ok p → C.code w p.2 := by
      rintro ⟨s, init⟩ hp
      have hi := Let.initializer?_of_parts hp
      exact hb init (List.mem_filterMap.2 ⟨b, List.mem_cons_self, hi⟩)
    refine L.bind (P := fun w' p => C.code w' p.2) (L.ofExcept hparts) ?_
    rintro w₁ ⟨s, init⟩ hg₁ hinit
    have he₁ := L.here_mono hg₁ he
    refine L.bind (hev e w₁ init he₁ hinit) fun w₂ v hg₂ hv => ?_
    have hg := L.grows_trans hg₁ hg₂
    have hf₂ : f.Variables (C.data w₂) := hf.imp fun _ => L.data_mono hg
    refine L.bind (P := fun w' g => g.Variables (C.data w'))
      (L.ofExcept fun g hd => hf₂.declare hv hd) fun w₃ g hg₃ hfg => ?_
    have hg := L.grows_trans hg hg₃
    have hrest : ∀ x ∈ bs.filterMap Let.initializer?, C.code w₃ x := by
      intro x hx
      obtain ⟨b', hb', hx⟩ := List.mem_filterMap.1 hx
      have hmem : x ∈ (b :: bs).filterMap Let.initializer? :=
        List.mem_filterMap.2 ⟨b', List.mem_cons_of_mem b hb', hx⟩
      exact L.code_mono hg (hb x hmem)
    exact ih (L.here_mono hg he) hrest hfg

theorem runLet (hev : C.Evaluators eval eval') {l : Let} (he : C.here w e)
    (hb : ∀ x ∈ l.bindings.filterMap Let.initializer?, C.code w x)
    (hx : ∀ x ∈ l.body, C.code w x) :
    C.Follows e w C.data (l.run eval e) (l.run eval' e) := by
  refine L.bind (L.bindAll hev he hb Frame.variables_empty) fun w₁ frame hg hf => ?_
  have he₁ := L.here_mono hg he
  have hbody : ∀ x ∈ l.body, C.code w₁ x := fun x h => L.code_mono hg (hx x h)
  refine L.inNewScope he₁ he₁ hf hbody fun w₂ scope hg₂ hscope => ?_
  exact L.evalBody hev hscope fun x h => L.code_mono hg₂ (hbody x h)

/-! ### Application -/

theorem enter_overload (hev : C.Evaluators eval eval') {o : Overload} {name : String}
    {home : EnvRef} {vs : List Value} (he : C.here w e) (hhome : C.here w home)
    (hbody : ∀ x ∈ o.body, C.code w x) (hv : ∀ v ∈ vs, C.data w v) :
    C.Follows e w C.data (o.enter eval name home vs) (o.enter eval' name home vs) := by
  refine L.bind (P := fun w' g => g.Variables (C.data w')) (L.ofExcept fun frame h => ?_)
    fun w₁ frame hg₁ hframe => ?_
  · exact Frame.variables_empty.declareAll hv h
  have hbody₁ : ∀ x ∈ o.body, C.code w₁ x := fun x h => L.code_mono hg₁ (hbody x h)
  refine L.inNewScope (L.here_mono hg₁ he) (L.here_mono hg₁ hhome) hframe hbody₁
    fun w₂ scope hg₂ hscope => ?_
  exact L.noting _ (L.evalBody hev hscope fun x h => L.code_mono hg₂ (hbody₁ x h))

theorem call (hev : C.Evaluators eval eval') {f : FunctionRef} {vs : List Value}
    (he : C.here w e) (hf : C.data w (.function f)) (hv : ∀ v ∈ vs, C.data w v) :
    C.Follows e w C.data (f.call eval vs) (f.call eval' vs) := by
  intro s s' hs
  obtain ⟨hchoose, hc⟩ := L.closure hs hf
  rw [FunctionRef.run_call, FunctionRef.run_call]
  refine L.bind (P := fun w' p => C.here w' p.2 ∧ ∀ x ∈ p.1.body, C.code w' x)
    (L.ofMatches (hchoose vs.length) ?_) ?_ s s' hs
  · rintro ⟨o, home⟩ ho
    obtain ⟨c, hcl, hselect, rfl⟩ := FunctionRef.exists_of_choose ho
    obtain ⟨hhome, hbody⟩ := hc c hcl
    exact ⟨hhome, hbody o (FunctionRef.mem_of_select hselect)⟩
  · rintro w₁ ⟨o, home⟩ hg ⟨hhome, hbody⟩
    exact L.enter_overload hev (L.here_mono hg he) hhome hbody fun v h => L.data_mono hg (hv v h)

theorem apply (hev : C.Evaluators eval eval') {v : Value} {vs : List Value} (he : C.here w e)
    (hv : C.data w v) (hvs : ∀ u ∈ vs, C.data w u) :
    C.Follows e w C.data (LexicalLisp.apply run eval v vs)
      (LexicalLisp.apply run' eval' v vs) := by
  cases v with
  | builtin id c =>
    obtain ⟨heq, hdata⟩ := L.computed hv hvs
    simp only [LexicalLisp.apply, heq]
    exact L.ofExcept hdata
  | function f => exact L.call hev he hv hvs
  | _ => exact L.throw _

/-! ### Special forms -/

theorem runQuote {args : List Value} (hc : C.code w (.op (.form .quote) args)) :
    C.Follows e w C.data (SpecialForm.runQuote args) (SpecialForm.runQuote args) := by
  unfold SpecialForm.runQuote
  split
  · exact L.pure (L.quoted hc)
  · exact L.throw _

theorem runDefine (hev : C.Evaluators eval eval') {args : List Value} (he : C.here w e)
    (hc : C.code w (.op (.form .define) args)) :
    C.Follows e w C.data (SpecialForm.runDefine eval args e)
      (SpecialForm.runDefine eval' args e) := by
  unfold SpecialForm.runDefine
  split
  case h_1 s init =>
    have hname : C.name s.name := L.mentioned hc rfl
    have hinit : C.code w init := L.part hc (by simp [Value.parts, SpecialForm.parts])
    refine L.bind (hev e w init he hinit) fun w₁ v hg₁ hv => ?_
    refine L.bind (P := fun w' slot => slot.kind.admits slot.value = true ∧ C.data w' slot.value)
      (L.ofExcept fun slot h => ?_) fun w₂ slot hg₂ hslot => ?_
    · obtain ⟨hk, rfl⟩ := Slot.ofSymbol_eq_ok_iff.1 h
      exact ⟨hk, hv⟩
    have he₂ := L.here_mono (L.grows_trans hg₁ hg₂) he
    exact L.bind (L.define he₂ hname hslot.1 hslot.2) fun w₃ _ _ _ => L.pure (L.unspecified w₃)
  case h_2 => exact L.throw _
  case h_3 => exact L.throw _

theorem runAssign (hev : C.Evaluators eval eval') {args : List Value} (he : C.here w e)
    (hc : C.code w (.op (.form .assign) args)) :
    C.Follows e w C.data (SpecialForm.runAssign eval args e)
      (SpecialForm.runAssign eval' args e) := by
  unfold SpecialForm.runAssign
  split
  case h_1 s x =>
    have hname : C.name s.name := L.mentioned hc rfl
    have hx : C.code w x := L.part hc (by simp [Value.parts, SpecialForm.parts])
    refine L.bind (hev e w x he hx) fun w₁ v hg₁ hv => ?_
    refine L.bind (L.assign (L.here_mono hg₁ he) hname hv) fun w₂ _ _ _ => ?_
    exact L.pure (L.unspecified w₂)
  case h_2 => exact L.throw _
  case h_3 => exact L.throw _

theorem runCond (hev : C.Evaluators eval eval') {args : List Value} (he : C.here w e)
    (hc : C.code w (.op (.form .cond) args)) :
    C.Follows e w C.data (SpecialForm.runCond eval args e) (SpecialForm.runCond eval' args e) := by
  have hcode : ∀ x ∈ args, C.code w x := fun x hx => L.part hc hx
  unfold SpecialForm.runCond
  split
  case h_1 condition yes no =>
    have hcondition : C.code w condition := hcode condition (by simp)
    have hyes : C.code w yes := hcode yes (by simp)
    have hno : C.code w no := hcode no (by simp)
    refine L.bind (hev e w condition he hcondition) fun w₁ v hg _ => ?_
    have he₁ := L.here_mono hg he
    split
    · exact hev e w₁ yes he₁ (L.code_mono hg hyes)
    · exact hev e w₁ no he₁ (L.code_mono hg hno)
    · exact L.throw _
  case h_2 => exact L.throw _

/-- The overload that a `lambda` or `defun` denotes has the body that stands there. -/
theorem implementation {params : Value} {body : List Value} (hbody : ∀ x ∈ body, C.code w x) :
    C.Follows e w (fun w' o => o.Distinct ∧ ∀ x ∈ o.body, C.code w' x)
      (Action.ofExcept (SpecialForm.implementation params body))
      (Action.ofExcept (SpecialForm.implementation params body)) := by
  refine L.ofExcept fun o h => ?_
  obtain ⟨hdistinct, rfl⟩ := SpecialForm.implementation_eq_ok h
  exact ⟨hdistinct, hbody⟩

theorem runLambda {args : List Value} (he : C.here w e)
    (hc : C.code w (.op (.form .lambda) args)) :
    C.Follows e w C.data (SpecialForm.runLambda args e) (SpecialForm.runLambda args e) := by
  unfold SpecialForm.runLambda
  split
  case h_1 params first rest =>
    have hbody : ∀ x ∈ first :: rest, C.code w x := fun x hx => L.part hc hx
    refine L.bind (L.implementation hbody) fun w₁ o hg ho => ?_
    exact L.bind (L.lambda (L.here_mono hg he) ho.1 ho.2) fun w₂ f _ hf => L.pure hf
  case h_2 => exact L.throw _

theorem runDefun {args : List Value} (he : C.here w e)
    (hc : C.code w (.op (.form .defun) args)) :
    C.Follows e w C.data (SpecialForm.runDefun args e) (SpecialForm.runDefun args e) := by
  unfold SpecialForm.runDefun
  split
  case h_1 s params first rest =>
    have hname : C.name s.name := L.mentioned hc rfl
    have hbody : ∀ x ∈ first :: rest, C.code w x := fun x hx => L.part hc hx
    refine L.bind (L.implementation hbody) fun w₁ o hg ho => ?_
    refine L.bind (L.defun (L.here_mono hg he) hname ho.1 ho.2) fun w₂ _ _ _ => ?_
    exact L.pure (L.unspecified w₂)
  case h_2 => exact L.throw _
  case h_3 => exact L.throw _

theorem runLetForm (hev : C.Evaluators eval eval') {args : List Value} (he : C.here w e)
    (hc : C.code w (.op (.form .letIn) args)) :
    C.Follows e w C.data (SpecialForm.runLet eval args e) (SpecialForm.runLet eval' args e) := by
  have hparts : ∀ l, Let.ofArgs args = .ok l →
      (∀ x ∈ l.bindings.filterMap Let.initializer?, C.code w x) ∧ ∀ x ∈ l.body, C.code w x := by
    intro l hl
    unfold Let.ofArgs at hl
    split at hl
    case h_2 bindings body =>
      cases hl
      exact ⟨fun x hx => L.part hc (List.mem_append_left _ hx),
        fun x hx => L.part hc (List.mem_append_right _ hx)⟩
    all_goals cases hl
  refine L.bind (P := fun w' l => (∀ x ∈ l.bindings.filterMap Let.initializer?, C.code w' x) ∧
    ∀ x ∈ l.body, C.code w' x) (L.ofExcept hparts) fun w₁ l hg hl => ?_
  exact L.runLet hev (L.here_mono hg he) hl.1 hl.2

theorem firstDeciding (hev : C.Evaluators eval eval') (form : SpecialForm) (deciding : Bool)
    {xs : List Value} (he : C.here w e) (hx : ∀ x ∈ xs, C.code w x) :
    C.Follows e w C.data (SpecialForm.firstDeciding eval form deciding xs e)
      (SpecialForm.firstDeciding eval' form deciding xs e) := by
  induction xs generalizing w with
  | nil => exact L.pure (L.bool w _)
  | cons x xs ih =>
    refine L.bind (hev e w x he (hx x List.mem_cons_self)) fun w₁ v hg _ => ?_
    have htail : ∀ y ∈ xs, C.code w₁ y := fun y hy =>
      L.code_mono hg (hx y (List.mem_cons_of_mem x hy))
    split
    · split
      · exact L.pure (L.bool w₁ _)
      · exact ih (L.here_mono hg he) htail
    · exact L.throw _

theorem runJunction (hev : C.Evaluators eval eval') (form : SpecialForm) (deciding : Bool)
    {args : List Value} (he : C.here w e) (hx : ∀ x ∈ args, C.code w x) :
    C.Follows e w C.data (SpecialForm.runJunction eval form deciding args e)
      (SpecialForm.runJunction eval' form deciding args e) := by
  unfold SpecialForm.runJunction
  split
  · exact L.throw _
  · split
    · exact L.throw _
    · exact L.firstDeciding hev form deciding he hx

theorem runForm (hev : C.Evaluators eval eval') {form : SpecialForm} {args : List Value}
    (he : C.here w e) (hc : C.code w (.op (.form form) args)) :
    C.Follows e w C.data (form.run eval args e) (form.run eval' args e) := by
  cases form with
  | quote => exact L.runQuote hc
  | conj => exact L.runJunction hev .conj false he fun x hx => L.part hc hx
  | disj => exact L.runJunction hev .disj true he fun x hx => L.part hc hx
  | cond => exact L.runCond hev he hc
  | sequence => exact L.evalBody hev he fun x hx => L.part hc hx
  | define => exact L.runDefine hev he hc
  | assign => exact L.runAssign hev he hc
  | lambda => exact L.runLambda he hc
  | defun => exact L.runDefun he hc
  | letIn => exact L.runLetForm hev he hc

/-! ### Evaluation -/

theorem shadowing {s s' : Store} {p : Primitive} (hs : C.related w s s') (he : C.here w e)
    (hp : C.name p.name) :
    s'.shadowing? p e = s.shadowing? p e ∧ ∀ v, s.shadowing? p e = some v → C.data w v := by
  obtain ⟨heq, hdata⟩ := L.lookup hs he hp
  unfold Store.shadowing?
  rw [heq]
  refine ⟨rfl, fun v hv => ?_⟩
  cases hl : s.lookup? p.name e with
  | none => simp [hl] at hv
  | some u =>
    simp only [hl] at hv
    split at hv
    · cases hv
    · cases hv
      exact hdata _ hl

theorem evalPrimitive (hev : C.Evaluators eval eval') {p : Primitive} {args : List Value}
    (he : C.here w e) (hx : ∀ x ∈ args, C.code w x) :
    C.Follows e w C.data (LexicalLisp.evalPrimitive run eval p args e)
      (LexicalLisp.evalPrimitive run' eval' p args e) := by
  unfold LexicalLisp.evalPrimitive
  split
  · exact L.throw _
  · refine L.bind (L.evalEach hev he hx) fun w₁ vs _ hvs => ?_
    obtain ⟨heq, hdata⟩ := L.computed (L.primitive w₁ p) hvs
    rw [heq]
    exact L.ofExcept hdata

theorem evalList {next next' afterNext afterNext' : Evaluator} (hn : C.Evaluators next next')
    (ha : C.Evaluators afterNext afterNext') {xs : List Value} (he : C.here w e)
    (hx : ∀ x ∈ xs, C.code w x) :
    C.Follows e w C.data (LexicalLisp.evalList run next afterNext xs e)
      (LexicalLisp.evalList run' next' afterNext' xs e) := by
  cases xs with
  | nil => exact L.throw _
  | cons head args =>
    refine L.bind (hn e w head he (hx head List.mem_cons_self)) fun w₁ f hg₁ hf => ?_
    have he₁ := L.here_mono hg₁ he
    have hargs : ∀ x ∈ args, C.code w₁ x := fun x h =>
      L.code_mono hg₁ (hx x (List.mem_cons_of_mem head h))
    refine L.bind (L.evalEach ha he₁ hargs) fun w₂ vs hg₂ hvs => ?_
    exact L.apply ha (L.here_mono hg₂ he₁) (L.data_mono hg₂ hf) hvs

theorem step {next next' afterNext afterNext' : Evaluator} (hn : C.Evaluators next next')
    (ha : C.Evaluators afterNext afterNext') :
    C.Evaluators (LexicalLisp.step run next afterNext)
      (LexicalLisp.step run' next' afterNext') := by
  intro e w x he hc
  cases x with
  | symbol a =>
    refine follows_get fun s s' hs => ?_
    obtain ⟨heq, hdata⟩ := L.lookup hs he (L.mentioned hc rfl)
    rw [heq]
    cases hl : s.lookup? a.name e with
    | none => exact L.throw _ s s' hs
    | some v => exact L.pure (hdata v hl) s s' hs
  | op o args =>
    cases o with
    | form f => exact L.runForm hn he hc
    | primitive p =>
      have hx : ∀ x ∈ args, C.code w x := fun x hx => L.part hc hx
      refine follows_get fun s s' hs => ?_
      obtain ⟨heq, hdata⟩ := L.shadowing hs he (L.mentioned hc rfl)
      rw [heq]
      cases hf : s.shadowing? p e with
      | none => exact L.evalPrimitive hn he hx s s' hs
      | some f =>
        refine L.bind (L.evalEach ha he hx) (fun w₁ vs hg hvs => ?_) s s' hs
        have hf₁ := L.data_mono hg (hdata f hf)
        exact L.noting _ (L.apply ha (L.here_mono hg he) hf₁ hvs)
  | list xs => exact L.noting _ (L.evalList hn ha he fun x hx => L.part hc hx)
  | _ => exact L.pure (L.literal hc rfl)

/-- The two evaluations agree at equal levels. If what the first raises at the limit is cut off,
the second may raise something else there, or have levels to spare. -/
theorem evalLimited {limit limit' : Error} {n m : Nat}
    (h : (n = m ∧ limit = limit') ∨ (n ≤ m ∧ C.cut limit)) :
    C.Evaluators (LexicalLisp.evalLimited limit run n) (LexicalLisp.evalLimited limit' run' m) := by
  induction n using Nat.strongRecOn generalizing m with
  | ind n ih =>
    cases n with
    | zero =>
      intro e w x _ _ s s' hs
      rcases h with ⟨rfl, rfl⟩ | ⟨_, hcut⟩
      · exact L.throw _ s s' hs
      · exact Or.inl hcut
    | succ n =>
      obtain ⟨m, rfl⟩ : ∃ k, m = k + 1 := ⟨m - 1, by omega⟩
      rw [evalLimited_succ, evalLimited_succ]
      refine L.step (ih n (by omega) ?_) (ih (n - 1) (by omega) ?_)
      · rcases h with ⟨h, heq⟩ | ⟨h, hcut⟩
        · exact Or.inl ⟨by omega, heq⟩
        · exact Or.inr ⟨by omega, hcut⟩
      · rcases h with ⟨h, heq⟩ | ⟨h, hcut⟩
        · exact Or.inl ⟨by omega, heq⟩
        · exact Or.inr ⟨by omega, hcut⟩

theorem evalWithin (levels : Nat) :
    C.Evaluators (LexicalLisp.evalWithin run levels) (LexicalLisp.evalWithin run' levels) := by
  rw [← evalLimited_depthExceeded, ← evalLimited_depthExceeded]
  exact L.evalLimited (Or.inl ⟨rfl, rfl⟩)

end LexicalLisp.Correspondence.Lawful
