import Mathlib
import LexicalLisp.Proofs.Chain
import LexicalLisp.Proofs.Global
import LexicalLisp.Proofs.Nesting
import LexicalLisp.Proofs.TracedEvaluation

/-!
# Programs without functions

A program that defines no function, in environments that hold none, only ever evaluates its own
parts. A part of a form lies one level deeper in the text and is evaluated one level deeper, at
most two; no construct takes more than two levels for one of the text. So a part is evaluated at
most twice as deep as it lies, and the limit on nesting keeps the evaluation clear of the limit on
depth.
-/
namespace LexicalLisp

namespace Value

/-- The value is no function. Of the host's builtins it may be one of those with these names. -/
def isInert (names : String → Bool) : Value → Bool
  | .function _ => false
  | .builtin _ (.host name) => names name
  | _ => true

/-- The expression does not define a function by itself. -/
def definesNothing : Value → Bool
  | .op (.form .lambda) _ | .op (.form .defun) _ => false
  | _ => true

/-- No function occurs in the value. -/
def Inert (names : String → Bool) (v : Value) : Prop := v.throughout (isInert names) = true

end Value

/-- The builtins of these names make no function where they are given none. -/
def Host.MakesNoFunction (host : Host) (names : String → Bool) : Prop :=
  ∀ name, names name = true → ∀ args v, (∀ u ∈ args, u.Inert names) →
    host name args = .ok v → v.Inert names

theorem Code.inert_of_run {host : Host} {names : String → Bool} (hhost : host.MakesNoFunction names)
    {id : String} {code : Code} (hcode : (Value.builtin id code).Inert names) {args : List Value}
    {v : Value} (hargs : ∀ u ∈ args, u.Inert names) (h : code.run host args = .ok v) :
    v.Inert names := by
  cases code with
  | host name => exact hhost name hcode args v hargs h
  | primitive p =>
    exact Primitive.throughout_of_run (fun _ => rfl) (fun _ => rfl) (fun _ => rfl) (fun _ => rfl)
      hargs h

/-- A program that defines no function, and how it stands to a store. Evaluation keeps away from
the environments that are foreign to it, and nowhere else there is a function. The program starts
with so many levels that there would be one left at twice the depth of each part. -/
structure InertProgram (host : Host) where
  names : String → Bool
  foreign : EnvRef → Prop
  root : Value
  start : Nat
  makesNoFunction : host.MakesNoFunction names
  inert : root.Inert names
  definesNothing : root.throughout Value.definesNothing = true
  deep : ∀ p x, root.Occurs p x → 2 * p < start

namespace InertProgram

variable {host : Host} (P : InertProgram host)

/-- Outside the foreign environments there is no function, and no way leads into them. -/
structure Holds (s : Store) : Prop where
  size : ∀ d, P.foreign d → d < s.environments.size
  value : ∀ d n b, ¬ P.foreign d → (s.frame d).get? n = some b → b.value.Inert P.names
  parent : ∀ d p, ¬ P.foreign d → s.parent? d = some p → ¬ P.foreign p

/-- What is evaluated is a part of the program, there is a level left for it, and it is evaluated
at most twice as deep as it lies. -/
def Fits : Step → Prop
  | .evaluate levels x _ => 0 < levels ∧ ∃ p, P.root.Occurs p x ∧ P.start ≤ levels + 2 * p
  | _ => True

/-- The traced action does what the action does, all its steps fit, and it keeps functions out. -/
def Confines {α : Type} (post : α → Prop) (a' : Traced α) (a : Action α) : Prop :=
  ∀ s, P.Holds s → (∀ event ∈ (a' s).events, P.Fits event.step) ∧ a.run s = (a' s).outcome ∧
    ∀ v t, (a' s).outcome = .ok v t → P.Holds t ∧ post v

variable {P}

/-! ### The store -/

section Holds

variable {s : Store} (h : P.Holds s)
include h

theorem Holds.not_foreign_of_encloses {d e : EnvRef} (he : ¬ P.foreign e) (hd : s.Encloses d e) :
    ¬ P.foreign d :=
  hd.of_parents he h.parent

theorem Holds.inert_of_lookup? {e : EnvRef} (he : ¬ P.foreign e) {n : String} {v : Value}
    (hv : s.lookup? n e = some v) : v.Inert P.names := by
  obtain ⟨d, b, hd, hb, rfl⟩ := Store.exists_binding_of_lookup? hv
  exact h.value d n b (h.not_foreign_of_encloses he hd) hb

theorem Holds.bind (e : EnvRef) (n : String) {b : Binding} (hb : b.value.Inert P.names) :
    P.Holds (s.bind e n b) where
  size d hd := by
    rw [Store.size_environments_bind]
    exact h.size d hd
  value d m b' hd hb' := by
    rcases Store.get?_of_bind hb' with ⟨-, -, rfl⟩ | hb'
    · exact hb
    · exact h.value d m b' hd hb'
  parent d p hd hp := by
    rw [Store.parent?_bind] at hp
    exact h.parent d p hd hp

theorem Holds.push {env : Environment} (henv : env.frame.Variables (Value.Inert P.names))
    (hparent : ∀ p, env.role.parent? = some p → ¬ P.foreign p) :
    P.Holds { s with environments := s.environments.push env } where
  size d hd := by
    simp only [Array.size_push]
    exact Nat.lt_succ_of_lt (h.size d hd)
  value d n b hd hb := by
    rcases Store.get?_of_push hb with ⟨-, hb⟩ | hb
    · obtain ⟨slot, rfl, -, hv⟩ := henv.of_get? hb
      exact hv
    · exact h.value d n b hd hb
  parent d p hd hp := by
    rcases Store.parent?_of_push hp with ⟨-, hp⟩ | hp
    · exact hparent p hp
    · exact h.parent d p hd hp

theorem Holds.not_foreign_size : ¬ P.foreign s.environments.size := by
  intro hforeign
  exact Nat.lt_irrefl _ (h.size _ hforeign)

end Holds

/-! ### Combinators -/

namespace Confines

variable {α β : Type} {post : α → Prop} {post' : β → Prop} {a' : Traced α} {f' : α → Traced β}
  {a : Action α} {f : α → Action β}

theorem congr {b : Action α} (h : P.Confines post a' a) (hb : ∀ s, b.run s = a.run s) :
    P.Confines post a' b := by
  intro s hs
  rw [hb]
  exact h s hs

theorem pure {v : α} (hv : post v) : P.Confines post (Pure.pure v) (Pure.pure v) := by
  intro s hs
  refine ⟨fun event hevent => (List.not_mem_nil hevent).elim, rfl, ?_⟩
  rintro _ _ ⟨⟩
  exact ⟨hs, hv⟩

theorem bind (h : P.Confines post a' a) (h' : ∀ v, post v → P.Confines post' (f' v) (f v)) :
    P.Confines post' (a' >>= f') (a >>= f) := by
  intro s hs
  obtain ⟨hevents, hrun, hok⟩ := h s hs
  cases hr : (a' s).outcome with
  | error x t =>
    rw [Traced.bind_of_error hr, EStateM.run_bind, hrun, hr]
    refine ⟨hevents, rfl, ?_⟩
    rintro _ _ ⟨⟩
  | ok v t =>
    obtain ⟨ht, hv⟩ := hok v t hr
    obtain ⟨hevents', hrun', hok'⟩ := h' v hv t ht
    rw [Traced.bind_of_ok hr, EStateM.run_bind, hrun, hr]
    refine ⟨fun event hevent => ?_, hrun', hok'⟩
    rcases List.mem_append.1 hevent with hevent | hevent
    · exact hevents event hevent
    · exact hevents' event hevent

theorem noting (line : Note) (h : P.Confines post a' a) :
    P.Confines post (Traced.noting line a') (Action.noting line a) := by
  intro s hs
  obtain ⟨hevents, hrun, hok⟩ := h s hs
  cases hr : (a' s).outcome with
  | ok v t =>
    rw [Traced.noting_of_ok hr, Action.run_noting_ok (hrun.trans hr)]
    exact ⟨hevents, hr.symm, hok⟩
  | error x t =>
    rw [Traced.noting_of_error hr, Action.run_noting_error (hrun.trans hr)]
    refine ⟨hevents, rfl, ?_⟩
    rintro _ _ ⟨⟩

/-- A single step that begins with no expression. -/
theorem step {st : Step} (hst : P.Fits st)
    (h : ∀ s v t, P.Holds s → a.run s = .ok v t → P.Holds t ∧ post v) :
    P.Confines post (Traced.step st a) a := by
  intro s hs
  refine ⟨fun event hevent => ?_, rfl, fun v t hr => h s v t hs hr⟩
  rw [List.mem_singleton.1 hevent]
  exact hst

theorem check {x : Except Error α} (h : ∀ v, x = .ok v → post v) :
    P.Confines post (Traced.check x) (Action.ofExcept x) := by
  refine step trivial fun s v t hs hr => ?_
  cases x with
  | error e => cases hr
  | ok w =>
    cases hr
    exact ⟨hs, h v rfl⟩

theorem refuse (x : Error) : P.Confines post (Traced.refuse x) (throw x) :=
  check fun _ h => nomatch h

end Confines

/-! ### Evaluators -/

variable (P) in
/-- The two evaluators do the same with all parts of the program that lie this deep or deeper. -/
def Serves (depth : Nat) (eval' : Traced.Evaluator) (eval : Evaluator) : Prop :=
  ∀ p x e, depth ≤ p → P.root.Occurs p x → ¬ P.foreign e →
    P.Confines (Value.Inert P.names) (eval' x e) (eval x e)

section Evaluators

variable {depth p : Nat} {eval' next' afterNext' : Traced.Evaluator}
  {eval next afterNext : Evaluator} {e : EnvRef}

theorem confines_evalEach (h : P.Serves depth eval' eval) (hp : depth ≤ p) {exprs : List Value}
    (hx : ∀ x ∈ exprs, P.root.Occurs p x) (he : ¬ P.foreign e) :
    P.Confines (fun vs => ∀ v ∈ vs, v.Inert P.names) (Traced.evalEach eval' exprs e)
      (evalEach eval exprs e) := by
  induction exprs with
  | nil => exact .pure fun v hv => (List.not_mem_nil hv).elim
  | cons x rest ih =>
    refine (h p x e hp (hx x List.mem_cons_self) he).bind fun v hv => ?_
    refine (ih fun y hy => hx y (List.mem_cons_of_mem x hy)).bind fun vs hvs => .pure ?_
    intro u hu
    rcases List.mem_cons.1 hu with rfl | hu
    · exact hv
    · exact hvs u hu

theorem confines_evalBody (h : P.Serves depth eval' eval) (hp : depth ≤ p) {exprs : List Value}
    (hx : ∀ x ∈ exprs, P.root.Occurs p x) (he : ¬ P.foreign e) :
    P.Confines (Value.Inert P.names) (Traced.evalBody eval' exprs e) (evalBody eval exprs e) := by
  induction exprs with
  | nil => exact .pure rfl
  | cons x rest ih =>
    have hfirst := h p x e hp (hx x List.mem_cons_self) he
    cases rest with
    | nil => exact hfirst
    | cons y rest =>
      exact hfirst.bind fun _ _ => ih fun z hz => hx z (List.mem_cons_of_mem x hz)

theorem confines_runCode {id : String} {code : Code} (hcode : (Value.builtin id code).Inert P.names)
    {args : List Value} (hargs : ∀ u ∈ args, u.Inert P.names) :
    P.Confines (Value.Inert P.names) (Traced.runCode (Code.run host) code args)
      (Action.ofExcept (code.run host args)) := by
  refine .step trivial fun s v t hs hr => ?_
  cases hrun : code.run host args with
  | error x =>
    rw [hrun] at hr
    cases hr
  | ok w =>
    rw [hrun] at hr
    cases hr
    exact ⟨hs, Code.inert_of_run P.makesNoFunction hcode hargs hrun⟩

/-- Only builtins can be applied. -/
theorem confines_apply {f : Value} (hf : f.Inert P.names) {args : List Value}
    (hargs : ∀ u ∈ args, u.Inert P.names) :
    P.Confines (Value.Inert P.names) (Traced.apply (Code.run host) eval' f args)
      (apply (Code.run host) eval f args) := by
  cases f with
  | builtin id code => exact confines_runCode hf hargs
  | function f => cases hf
  | _ => exact .refuse _

theorem confines_evalPrimitive (h : P.Serves depth next' next) (hp : depth ≤ p) {q : Primitive}
    {args : List Value} (hx : ∀ x ∈ args, P.root.Occurs p x) (he : ¬ P.foreign e) :
    P.Confines (Value.Inert P.names) (Traced.evalPrimitive (Code.run host) next' q args e)
      (evalPrimitive (Code.run host) next q args e) := by
  unfold Traced.evalPrimitive evalPrimitive
  cases q.arity.refusal? args.length with
  | some expected => exact .refuse _
  | none =>
    have hcode : (Value.builtin q.name (.primitive q)).Inert P.names := rfl
    exact (confines_evalEach h hp hx he).bind fun vs hvs => confines_runCode hcode hvs

theorem confines_evalList (h : P.Serves depth next' next) (h' : P.Serves depth afterNext' afterNext)
    (hp : depth ≤ p) {elements : List Value} (hx : ∀ x ∈ elements, P.root.Occurs p x)
    (he : ¬ P.foreign e) :
    P.Confines (Value.Inert P.names)
      (Traced.evalList (Code.run host) next' afterNext' elements e)
      (evalList (Code.run host) next afterNext elements e) := by
  cases elements with
  | nil => exact .refuse _
  | cons head args =>
    refine (h p head e hp (hx head List.mem_cons_self) he).bind fun f hf => ?_
    have hargs : ∀ x ∈ args, P.root.Occurs p x := fun x hx' => hx x (List.mem_cons_of_mem head hx')
    exact (confines_evalEach h' hp hargs he).bind fun vs hvs => confines_apply hf hvs

/-! ### Special forms -/

section Forms

variable {args : List Value}

theorem confines_define {n : String} {slot : Slot} (hslot : slot.value.Inert P.names) :
    P.Confines (fun _ => True) (Traced.step (.define n slot e) (e.define n slot))
      (e.define n slot) := by
  refine .step trivial fun s v t hs hr => ?_
  have hafter : P.Holds ((e.define n slot).after s) :=
    EnvRef.after_define hs fun _ => hs.bind e n hslot
  rw [Action.after_of_ok hr] at hafter
  exact ⟨hafter, trivial⟩

theorem confines_assign {n : String} {v : Value} (hv : v.Inert P.names) :
    P.Confines (fun _ => True) (Traced.step (.assign n v e) (e.assign n v)) (e.assign n v) := by
  refine .step trivial fun s u t hs hr => ?_
  have hafter : P.Holds ((e.assign n v).after s) :=
    EnvRef.after_assign hs fun o slot _ _ _ => hs.bind o n hv
  rw [Action.after_of_ok hr] at hafter
  exact ⟨hafter, trivial⟩

theorem confines_runDefine (h : P.Serves depth eval' eval) (hp : depth ≤ p)
    (hx : ∀ x ∈ args, P.root.Occurs p x) (he : ¬ P.foreign e) :
    P.Confines (Value.Inert P.names) (Traced.runDefine eval' args e)
      (SpecialForm.runDefine eval args e) := by
  match args with
  | [target, init] =>
    cases target with
    | symbol s =>
      refine (h p init e hp (hx init (by simp)) he).bind fun v hv => ?_
      have hslots : ∀ slot, Slot.ofSymbol s v = .ok slot → slot.value.Inert P.names := by
        intro slot hslot
        obtain ⟨-, rfl⟩ := Slot.ofSymbol_eq_ok_iff.1 hslot
        exact hv
      refine (Confines.check hslots).bind fun slot hslot => ?_
      exact (confines_define hslot).bind fun _ _ => .pure rfl
    | _ => exact .refuse _
  | [] | [_] | _ :: _ :: _ :: _ =>
    simp only [Traced.runDefine, SpecialForm.runDefine]
    exact .refuse _

theorem confines_runAssign (h : P.Serves depth eval' eval) (hp : depth ≤ p)
    (hx : ∀ x ∈ args, P.root.Occurs p x) (he : ¬ P.foreign e) :
    P.Confines (Value.Inert P.names) (Traced.runAssign eval' args e)
      (SpecialForm.runAssign eval args e) := by
  match args with
  | [target, expr] =>
    cases target with
    | symbol s =>
      refine (h p expr e hp (hx expr (by simp)) he).bind fun v hv => ?_
      exact (confines_assign hv).bind fun _ _ => .pure rfl
    | _ => exact .refuse _
  | [] | [_] | _ :: _ :: _ :: _ =>
    simp only [Traced.runAssign, SpecialForm.runAssign]
    exact .refuse _

theorem confines_runCond (h : P.Serves depth eval' eval) (hp : depth ≤ p)
    (hx : ∀ x ∈ args, P.root.Occurs p x) (he : ¬ P.foreign e) :
    P.Confines (Value.Inert P.names) (Traced.runCond eval' args e)
      (SpecialForm.runCond eval args e) := by
  match args with
  | [condition, yes, no] =>
    refine (h p condition e hp (hx condition (by simp)) he).bind fun v _ => ?_
    cases v with
    | bool b =>
      cases b with
      | true => exact h p yes e hp (hx yes (by simp)) he
      | false => exact h p no e hp (hx no (by simp)) he
    | _ => exact .refuse _
  | [] | [_] | [_, _] | _ :: _ :: _ :: _ :: _ => exact .refuse _

/-- The initializer of a binding lies two levels deeper than the list of the bindings. -/
theorem confines_bindAll (h : P.Serves depth eval' eval) (hp : depth ≤ p) {bindings : List Value}
    (hx : ∀ x ∈ bindings, P.root.Occurs (p + 1) x) (he : ¬ P.foreign e) {f : Frame}
    (hf : f.Variables (Value.Inert P.names)) :
    P.Confines (fun g => g.Variables (Value.Inert P.names)) (Traced.bindAll eval' e bindings f)
      (Let.bindAll eval e bindings f) := by
  induction bindings generalizing f with
  | nil => exact .pure hf
  | cons binding rest ih =>
    have hinit : ∀ parts, Let.parts binding = .ok parts → P.root.Occurs (p + 2) parts.2 := by
      intro parts hparts
      have hbinding := hx binding List.mem_cons_self
      unfold Let.parts at hparts
      split at hparts
      case h_1 s init =>
        cases hparts
        exact hbinding.element (by simp)
      case h_2 => cases hparts
    refine (Confines.check hinit).bind fun parts hparts => ?_
    obtain ⟨s, init⟩ := parts
    refine (h (p + 2) init e (by omega) hparts he).bind fun v hv => ?_
    refine (Confines.check fun g hg => hf.declare hv hg).bind fun g hg => ?_
    exact ih (fun x hx' => hx x (List.mem_cons_of_mem binding hx')) hg

theorem confines_create {env : Environment}
    (henv : env.frame.Variables (Value.Inert P.names))
    (hparent : ∀ q, env.role.parent? = some q → ¬ P.foreign q) :
    P.Confines (fun scope => ¬ P.foreign scope) (Traced.step (.create env) env.create)
      env.create := by
  refine .step trivial fun s v t hs hr => ?_
  cases hr
  exact ⟨hs.push henv hparent, hs.not_foreign_size⟩

theorem confines_runLet (h : P.Serves depth eval' eval) (hp : depth ≤ p)
    (hx : ∀ x ∈ args, P.root.Occurs p x) (he : ¬ P.foreign e) :
    P.Confines (Value.Inert P.names) (Traced.runLet eval' args e)
      (SpecialForm.runLet eval args e) := by
  have hparts : ∀ l, Let.ofArgs args = .ok l →
      (∀ x ∈ l.bindings, P.root.Occurs (p + 1) x) ∧ ∀ x ∈ l.body, P.root.Occurs p x := by
    intro l hl
    unfold Let.ofArgs at hl
    split at hl
    case h_2 bindings body =>
      cases hl
      exact ⟨fun x hx' => (hx _ List.mem_cons_self).element hx',
        fun x hx' => hx x (List.mem_cons_of_mem _ hx')⟩
    all_goals cases hl
  refine (Confines.check hparts).bind fun l hl => ?_
  refine (confines_bindAll h hp hl.1 he Frame.variables_empty).bind fun frame hframe => ?_
  have hparent : ∀ q, (Role.scope l.body (some e)).parent? = some q → ¬ P.foreign q := by
    rintro q ⟨⟩
    exact he
  exact (confines_create hframe hparent).bind fun scope hscope =>
    confines_evalBody h hp hl.2 hscope

theorem confines_firstDeciding (h : P.Serves depth eval' eval) (hp : depth ≤ p)
    (form : SpecialForm) (deciding : Bool) (hx : ∀ x ∈ args, P.root.Occurs p x)
    (he : ¬ P.foreign e) :
    P.Confines (Value.Inert P.names) (Traced.firstDeciding eval' form deciding args e)
      (SpecialForm.firstDeciding eval form deciding args e) := by
  induction args with
  | nil => exact .pure rfl
  | cons x rest ih =>
    refine (h p x e hp (hx x List.mem_cons_self) he).bind fun v _ => ?_
    cases v with
    | bool b =>
      by_cases hb : b = deciding
      · simp only [if_pos hb]
        exact .pure rfl
      · simp only [if_neg hb]
        exact ih fun y hy => hx y (List.mem_cons_of_mem x hy)
    | _ => exact .refuse _

theorem confines_runJunction (h : P.Serves depth eval' eval) (hp : depth ≤ p)
    (form : SpecialForm) (deciding : Bool) (hx : ∀ x ∈ args, P.root.Occurs p x)
    (he : ¬ P.foreign e) :
    P.Confines (Value.Inert P.names) (Traced.runJunction eval' form deciding args e)
      (SpecialForm.runJunction eval form deciding args e) := by
  unfold Traced.runJunction SpecialForm.runJunction
  by_cases hempty : args.isEmpty = true
  · rw [if_pos hempty, if_pos hempty]
    exact .refuse _
  rw [if_neg hempty, if_neg hempty]
  by_cases hplain : args.any SpecialForm.isPlainlyNotBoolean = true
  · rw [if_pos hplain, if_pos hplain]
    exact .refuse _
  · rw [if_neg hplain, if_neg hplain]
    exact confines_firstDeciding h hp form deciding hx he

/-- What a program quotes is inert like all of it. -/
theorem confines_runQuote (hargs : ∀ x ∈ args, x.Inert P.names) :
    P.Confines (Value.Inert P.names) (Traced.runQuote args) (SpecialForm.runQuote args) := by
  match args with
  | [v] => exact .pure (hargs v List.mem_cons_self)
  | [] | _ :: _ :: _ => exact .refuse _

theorem inert_of_occurs {x : Value} (hx : P.root.Occurs p x) : x.Inert P.names :=
  Value.throughout_of_occurs P.inert hx

theorem definesNothing_of_occurs {x : Value} (hx : P.root.Occurs p x) :
    x.definesNothing = true := by
  have hall := Value.throughout_of_occurs P.definesNothing hx
  cases x with
  | list vs => exact (Value.throughout_list_iff.1 hall).1
  | op o args => exact (Value.throughout_op_iff.1 hall).1
  | _ => exact hall

theorem confines_runForm (h : P.Serves (depth + 1) eval' eval) (hp : depth ≤ p)
    {form : SpecialForm} (hx : P.root.Occurs p (.op (.form form) args)) (he : ¬ P.foreign e) :
    P.Confines (Value.Inert P.names) (Traced.runForm eval' form args e) (form.run eval args e) := by
  have hargs : ∀ x ∈ args, P.root.Occurs (p + 1) x := fun x hx' => hx.operand hx'
  have hp' : depth + 1 ≤ p + 1 := by omega
  have hdefines := definesNothing_of_occurs hx
  cases form with
  | quote => exact confines_runQuote fun x hx' => inert_of_occurs (hargs x hx')
  | conj => exact confines_runJunction h hp' .conj false hargs he
  | disj => exact confines_runJunction h hp' .disj true hargs he
  | cond => exact confines_runCond h hp' hargs he
  | sequence => exact confines_evalBody h hp' hargs he
  | define => exact confines_runDefine h hp' hargs he
  | assign => exact confines_runAssign h hp' hargs he
  | lambda => cases hdefines
  | defun => cases hdefines
  | letIn => exact confines_runLet h hp' hargs he

end Forms

/-! ### Expressions -/

theorem confines_lookup {n : String} (he : ¬ P.foreign e) :
    P.Confines (Value.Inert P.names) (Traced.step (.lookup n e) (e.lookup n)) (e.lookup n) := by
  refine .step trivial fun s v t hs hr => ?_
  simp only [EnvRef.lookup, EStateM.run_bind, EStateM.run_get] at hr
  cases hv : s.lookup? n e with
  | none =>
    rw [hv] at hr
    cases hr
  | some u =>
    rw [hv] at hr
    cases hr
    exact ⟨hs, hs.inert_of_lookup? he hv⟩

theorem Holds.inert_of_shadowing? {s : Store} (hs : P.Holds s) (he : ¬ P.foreign e)
    {q : Primitive} {f : Value} (hf : s.shadowing? q e = some f) : f.Inert P.names := by
  unfold Store.shadowing? at hf
  cases hv : s.lookup? q.name e with
  | none =>
    rw [hv] at hf
    cases hf
  | some u =>
    rw [hv] at hf
    simp only at hf
    split at hf <;> cases hf
    exact hs.inert_of_lookup? he hv

theorem confines_shadowing {q : Primitive} (he : ¬ P.foreign e) :
    P.Confines (fun f => ∀ v, f = some v → v.Inert P.names)
      (Traced.step (.shadowing q e) (do return (← get).shadowing? q e))
      (do return (← get).shadowing? q e) := by
  refine .step trivial fun s f t hs hr => ?_
  cases hr
  exact ⟨hs, fun v hv => hs.inert_of_shadowing? he hv⟩

theorem confines_evalParts (h : P.Serves (depth + 1) next' next)
    (h' : P.Serves (depth + 1) afterNext' afterNext) (hp : depth ≤ p) {x : Value}
    (hx : P.root.Occurs p x) (he : ¬ P.foreign e) :
    P.Confines (Value.Inert P.names) (Traced.evalParts (Code.run host) next' afterNext' x e)
      (step (Code.run host) next afterNext x e) := by
  have hp' : depth + 1 ≤ p + 1 := by omega
  have hinert := inert_of_occurs hx
  cases x with
  | symbol a =>
    exact confines_lookup he
  | op o args =>
    cases o with
    | form form => exact confines_runForm h hp hx he
    | primitive q =>
      have hargs : ∀ y ∈ args, P.root.Occurs (p + 1) y := fun y hy => hx.operand hy
      -- the look-up of what shadows the primitive is a step of its own in the trace
      have hparts : P.Confines (Value.Inert P.names)
          (Traced.evalParts (Code.run host) next' afterNext' (.op (.primitive q) args) e)
          ((do return (← get).shadowing? q e) >>= fun f : Option Value =>
            f.elim (evalPrimitive (Code.run host) next q args e) fun f => do
              let vs ← evalEach afterNext args e
              Action.noting (.evaluating (.op (.primitive q) args))
                (apply (Code.run host) afterNext f vs)) := by
        refine (confines_shadowing he).bind fun f hf => ?_
        cases f with
        | some f =>
          refine (confines_evalEach h' hp' hargs he).bind fun vs hvs => ?_
          exact (confines_apply (hf f rfl) hvs).noting _
        | none => exact confines_evalPrimitive h hp' hargs he
      refine hparts.congr fun s => ?_
      simp only [LexicalLisp.step, EStateM.run_bind, EStateM.run_get, EStateM.run_pure]
      cases s.shadowing? q e with
      | some f => rfl
      | none => rfl
  | list elements =>
    exact (confines_evalList h h' hp' (fun y hy => hx.element hy) he).noting _
  | number | string | bool | builtin | function | unspecified => exact .pure hinert

theorem confines_begin {levels : Nat} {x : Value} (hlevels : levels ≠ 0)
    (hfits : P.Fits (.evaluate levels x e)) :
    P.Confines (fun _ => True) (Traced.begin levels x e) (Pure.pure ()) := by
  rw [Traced.begin, if_neg hlevels]
  refine .step hfits fun s u t hs hr => ?_
  cases hr
  exact ⟨hs, trivial⟩

end Evaluators

/-- With enough levels for its depth each part is evaluated within them. -/
theorem serves_evalWithin (limit : Error) {levels depth : Nat}
    (hlevels : P.start ≤ levels + 2 * depth) :
    P.Serves depth (Traced.evalWithin (Code.run host) levels)
      (evalLimited limit (Code.run host) levels) := by
  induction levels using Nat.strongRecOn generalizing depth with
  | ind levels ih =>
    intro p x e hp hx he
    have hroom := P.deep p x hx
    have hfits : levels ≠ 0 → P.Fits (.evaluate levels x e) := fun hne =>
      ⟨by omega, p, hx, by omega⟩
    match levels with
    | 0 => omega
    | 1 =>
      have hnone : P.Serves (depth + 1) _ _ := ih 0 (by omega) (by omega)
      have hbegin := (confines_begin (by omega) (hfits (by omega))).bind fun _ _ =>
        confines_evalParts hnone hnone hp hx he
      exact hbegin.congr fun _ => rfl
    | levels + 2 =>
      have hnext : P.Serves (depth + 1) _ _ := ih (levels + 1) (by omega) (by omega)
      have hafterNext : P.Serves (depth + 1) _ _ := ih levels (by omega) (by omega)
      have hbegin := (confines_begin (by omega) (hfits (by omega))).bind fun _ _ =>
        confines_evalParts hnext hafterNext hp hx he
      exact hbegin.congr fun _ => rfl

end InertProgram

/-! ### Programs that are read -/

/-- No function is bound in the chain of environments, be it in a list. -/
def Store.InertAround (s : Store) (names : String → Bool) (e : EnvRef) : Prop :=
  ∀ d, s.Encloses d e → ∀ n b, (s.frame d).get? n = some b → b.value.Inert names

theorem Store.inertAround_createGlobal {s t : Store} {root : EnvRef}
    (h : Environment.createGlobal.run s = .ok root t) (names : String → Bool) :
    t.InertAround names root := by
  rw [run_createGlobal] at h
  cases h
  rintro d ⟨links, hd⟩ n b hb
  have hroot : d = s.environments.size := by
    cases links with
    | zero => exact (Option.some.inj hd).symm
    | succ links => simp [ancestor?, parent?, Role.parent?] at hd
  rw [frame_push, if_pos hroot] at hb
  have hglobal : Frame.global.Variables (Value.Inert names) :=
    Frame.standard_global.variables fun _ => rfl
  obtain ⟨slot, rfl, -, hv⟩ := hglobal.of_get? hb
  exact hv

theorem Source.inert_of_readExpression {text : String} {v : Value}
    (h : readExpression text = .ok v) (names : String → Bool) : v.Inert names := by
  refine Value.throughout_imp (fun u hu => ?_) (isDenotable_of_readExpression h)
  cases u with
  | builtin | function => cases hu
  | _ => rfl

section Read

variable {host : Host} {names : String → Bool} {text : String} {v : Value} {e : EnvRef} {s : Store}

/-- What is read is an inert program, to which the environments are foreign that lie outside the
chain. -/
def InertProgram.ofRead (hhost : host.MakesNoFunction names)
    (hread : Source.readExpression text = .ok v)
    (hdefines : v.throughout Value.definesNothing = true) (e : EnvRef) (s : Store) :
    InertProgram host where
  names := names
  foreign d := d < s.environments.size ∧ ¬ s.Encloses d e
  root := v
  start := maxDepth
  makesNoFunction := hhost
  inert := Source.inert_of_readExpression hread names
  definesNothing := hdefines
  deep p x hx := by
    obtain ⟨-, rest, hexpression, -⟩ := Source.expression_of_readExpression hread
    have hlt := Source.lt_of_occurs hexpression hx
    have hlimits : 2 * maxNesting ≤ maxDepth := by decide
    omega

theorem InertProgram.holds_ofRead (hhost : host.MakesNoFunction names)
    (hread : Source.readExpression text = .ok v)
    (hdefines : v.throughout Value.definesNothing = true) (hstore : s.InertAround names e) :
    (InertProgram.ofRead hhost hread hdefines e s).Holds s where
  size d hd := hd.1
  value d n b hd hb := by
    have hlt : d < s.environments.size := by
      by_contra hge
      have hnone : s.environments[d]? = none := Array.getElem?_eq_none (Nat.le_of_not_lt hge)
      simp [Store.frame, hnone] at hb
    by_cases hencloses : s.Encloses d e
    · exact hstore d hencloses n b hb
    · exact absurd ⟨hlt, hencloses⟩ hd
  parent d q hd hq := by
    rintro ⟨-, houtside⟩
    by_cases hencloses : s.Encloses d e
    · obtain ⟨links, hlinks⟩ := hencloses
      refine houtside ⟨links + 1, ?_⟩
      rw [Store.ancestor?_add, hlinks]
      simp [Store.ancestor?, hq]
    · exact hd ⟨Store.lt_size_of_parent? hq, hencloses⟩

/-- Where a program defines no function, no function can be reached, and the builtins of the host
that can be reached make none where they are given none, the limit on nesting keeps evaluation clear
of the limit on depth: the depth check never fires, and each expression that evaluation begins with
is a part of the program and is evaluated at most twice as deep as it lies, which is less deep than
the limit. -/
theorem nesting_limit_spares_depth_limit (hhost : host.MakesNoFunction names)
    (hread : Source.readExpression text = .ok v)
    (hdefines : v.throughout Value.definesNothing = true) (hstore : s.InertAround names e) :
    NeverCut host 0 v e s ∧
    (Traced.evalAt host 0 v e s).outcome = (evalAt host 0 v e).run s ∧
    ∀ event ∈ (Traced.evalAt host 0 v e s).events, ∀ levels x e',
      event.step = .evaluate levels x e' →
        0 < levels ∧ ∃ p < maxNesting, v.Occurs p x ∧ maxDepth - levels ≤ 2 * p := by
  let P := InertProgram.ofRead hhost hread hdefines e s
  have hholds : P.Holds s := InertProgram.holds_ofRead hhost hread hdefines hstore
  have hhere : ¬ P.foreign e := fun h => h.2 (s.encloses_refl e)
  have hserves : ∀ limit, P.Serves 0 (Traced.evalWithin (Code.run host) maxDepth)
      (evalLimited limit (Code.run host) maxDepth) := fun limit =>
    InertProgram.serves_evalWithin limit (Nat.le_refl _)
  have hconfines : ∀ limit, P.Confines (Value.Inert names) (Traced.evalAt host 0 v e)
      (evalLimited limit (Code.run host) maxDepth v e) := fun limit =>
    hserves limit 0 v e (Nat.le_refl _) .self hhere
  have houtcome : (Traced.evalAt host 0 v e s).outcome = (evalAt host 0 v e).run s :=
    (Traced.records_evalWithin (Code.run host) maxDepth v e).outcome s
  refine ⟨fun limit => ?_, houtcome, fun event hevent levels x e' hstep => ?_⟩
  · exact (hconfines limit s hholds).2.1.trans houtcome
  · have hfits := (hconfines (.evaluation .depthExceeded []) s hholds).1 event hevent
    rw [hstep] at hfits
    obtain ⟨hpos, p, hx, hlevels⟩ := hfits
    obtain ⟨-, rest, hexpression, -⟩ := Source.expression_of_readExpression hread
    have hlevels : maxDepth ≤ levels + 2 * p := hlevels
    exact ⟨hpos, p, Source.lt_of_occurs hexpression hx, hx, by omega⟩

end Read

/-- An argument of a list lies one level below it and is evaluated two levels deeper. -/
theorem nesting_limit_spares_depth_limit_in_global :
    NeverCut (fun _ _ => .ok .unspecified) 0
      (.op (.form .letIn) [.list [.list [.symbol ⟨"f", .any⟩, .symbol ⟨"car", .any⟩]],
        .list [.symbol ⟨"f", .any⟩, .op (.form .quote) [.list [.number 1]]]])
      0 ⟨#[⟨Frame.global, .root⟩], #[]⟩ ∧
    ∀ event ∈ (Traced.evalAt (fun _ _ => .ok .unspecified) 0
        (.op (.form .letIn) [.list [.list [.symbol ⟨"f", .any⟩, .symbol ⟨"car", .any⟩]],
          .list [.symbol ⟨"f", .any⟩, .op (.form .quote) [.list [.number 1]]]])
        0 ⟨#[⟨Frame.global, .root⟩], #[]⟩).events,
      ∀ levels x e', event.step = .evaluate levels x e' → 0 < levels := by
  have hread : Source.readExpression "(let ((f car)) (f '(1)))" =
      .ok (.op (.form .letIn) [.list [.list [.symbol ⟨"f", .any⟩, .symbol ⟨"car", .any⟩]],
        .list [.symbol ⟨"f", .any⟩, .op (.form .quote) [.list [.number 1]]]]) := by cbv
  have hhost : Host.MakesNoFunction (fun _ _ => .ok .unspecified) fun _ => false := by
    rintro name ⟨⟩
  have hstore : Store.InertAround ⟨#[⟨Frame.global, .root⟩], #[]⟩ (fun _ => false) 0 :=
    Store.inertAround_createGlobal (Store.run_createGlobal {}) _
  obtain ⟨hcut, -, hevents⟩ := nesting_limit_spares_depth_limit hhost hread rfl hstore
  exact ⟨hcut, fun event hevent levels x e' hstep => (hevents event hevent levels x e' hstep).1⟩

end LexicalLisp
