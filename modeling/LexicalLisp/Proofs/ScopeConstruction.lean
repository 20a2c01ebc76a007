import LexicalLisp.Proofs.LetApplication
import LexicalLisp.Proofs.TracedCommand
import LexicalLisp.Proofs.WellFormed

/-!
# Construction of scopes

The scope of a `let` is constructed if all of its bindings have their shape and distinct names, and
all initializers have values of the right kinds. Otherwise the first binding that fails says why, and
those behind it are not looked at. The frame is not seen before all is done: the initializers are
evaluated around the `let`, one after the other, as if there were no names to bind.
-/
namespace LexicalLisp

/-! ### Frames of variables -/

namespace Frame

/-- The frame binds the names of these symbols to slots of their kinds with these values, and no
other names. -/
def Holds (f : Frame) (vars : List (Symbol × Value)) : Prop :=
  ∀ name b, f.get? name = some b ↔
    ∃ p v, (p, v) ∈ vars ∧ p.name = name ∧ b = .slot ⟨p.kind, v⟩

theorem Holds.binds_iff {f : Frame} {vars : List (Symbol × Value)} (h : f.Holds vars)
    {name : String} : f.binds name = true ↔ ∃ p v, (p, v) ∈ vars ∧ p.name = name := by
  rw [binds, Option.isSome_iff_exists]
  constructor
  · rintro ⟨b, hb⟩
    obtain ⟨p, v, hmem, hname, -⟩ := (h name b).1 hb
    exact ⟨p, v, hmem, hname⟩
  · rintro ⟨p, v, hmem, hname⟩
    exact ⟨_, (h name _).2 ⟨p, v, hmem, hname, rfl⟩⟩

theorem declare_eq_error_iff {f : Frame} {p : Symbol} {v : Value} {x : Error} :
    f.declare p v = .error x ↔
      (p.kind.admits v = false ∧ x = .type (.slot (some p.name) p.kind v) []) ∨
        (p.kind.admits v = true ∧ f.binds p.name = true ∧ x = .duplicateName p.name) := by
  cases hk : p.kind.admits v with
  | false =>
    have hrun : f.declare p v = .error (.type (.slot (some p.name) p.kind v) []) := by
      simp [declare, Slot.ofSymbol, Slot.ofValue_eq, hk, bind, Except.bind]
    rw [hrun, Except.error.injEq]
    simpa using eq_comm
  | true =>
    cases hb : f.binds p.name with
    | false =>
      rw [declare_eq_ok_iff.2 ⟨hk, hb, rfl⟩]
      simp
    | true =>
      have hrun : f.declare p v = .error (.duplicateName p.name) := by
        simp [declare, Slot.ofSymbol, Slot.ofValue_eq, hk, hb, bind, Except.bind]
      rw [hrun, Except.error.injEq]
      simpa using eq_comm

section DeclareAll

variable {f g : Frame} {ps : List Symbol} {vs : List Value}

theorem admits_of_declareAll (h : f.declareAll ps vs = .ok g) :
    ∀ p v, (p, v) ∈ ps.zip vs → p.kind.admits v = true := by
  induction ps generalizing f vs with
  | nil => simp
  | cons p ps ih =>
    cases vs with
    | nil => simp
    | cons v vs =>
      obtain ⟨f₁, hp, hps⟩ := declareAll_cons_eq_ok_iff.1 h
      intro q u hqu
      rcases List.mem_cons.1 hqu with hqu | hqu
      · cases hqu
        exact (declare_eq_ok_iff.1 hp).1
      · exact ih hps q u hqu

/-- Distinct symbols can be declared with values that their kinds admit. -/
theorem exists_declareAll (hnodup : (ps.map Symbol.name).Nodup)
    (hadmits : ∀ p v, (p, v) ∈ ps.zip vs → p.kind.admits v = true) :
    ∃ g, declareAll {} ps vs = .ok g := by
  rcases declareAll_of_nodup vs hnodup (fun p _ => (rfl : binds {} p.name = false)) with
    ⟨g, hg, -⟩ | ⟨p, v, hpv, hk, -⟩
  · exact ⟨g, hg⟩
  · rw [hadmits p v hpv] at hk
    cases hk

/-- A frame into which symbols have been declared holds just these. -/
theorem holds_of_declareAll (hlength : vs.length = ps.length) (h : declareAll {} ps vs = .ok g) :
    g.Holds (ps.zip vs) := by
  obtain ⟨hnodup, hfree⟩ := nodup_of_declareAll hlength h
  rcases declareAll_of_nodup vs hnodup hfree with ⟨g', hg', hothers, hbound⟩ | ⟨_, _, _, _, hx⟩
  · rw [h] at hg'
    cases hg'
    intro name b
    constructor
    · intro hb
      by_cases hname : name ∈ ps.map Symbol.name
      · obtain ⟨p, hp, rfl⟩ := List.mem_map.1 hname
        obtain ⟨i, hi⟩ := List.mem_iff_getElem?.1 hp
        have hlt : i < vs.length := by
          have := (List.getElem?_eq_some_iff.1 hi).1
          omega
        have hmem : (p, vs[i]) ∈ ps.zip vs :=
          List.mem_iff_getElem?.2 ⟨i, by simp [List.getElem?_zip_eq_some, hi, hlt]⟩
        rw [hbound p vs[i] hmem] at hb
        exact ⟨p, vs[i], hmem, rfl, (Option.some.inj hb).symm⟩
      · rw [hothers name hname] at hb
        cases hb
    · rintro ⟨p, v, hmem, rfl, rfl⟩
      exact hbound p v hmem
  · rw [h] at hx
    cases hx

end DeclareAll
end Frame

/-! ### Sequences of bindings -/

theorem run_evalEach_cons_iff {eval : Evaluator} {x : Value} {xs vs : List Value} {e : EnvRef}
    {s t : Store} :
    (evalEach eval (x :: xs) e).run s = .ok vs t ↔
      ∃ v u ws, (eval x e).run s = .ok v u ∧ (evalEach eval xs e).run u = .ok ws t ∧
        vs = v :: ws := by
  constructor
  · intro h
    obtain ⟨v, u, hv, h⟩ := Action.run_bind_eq_ok h
    obtain ⟨ws, u', hws, h⟩ := Action.run_bind_eq_ok h
    cases h
    exact ⟨v, u, ws, hv, hws, rfl⟩
  · rintro ⟨v, u, ws, hv, hws, rfl⟩
    rw [evalEach, Action.run_bind_of_ok hv, Action.run_bind_of_ok hws]
    rfl

namespace Let

/-- The binding of a symbol to the value of an expression. -/
def binding (b : Symbol × Value) : Value := .list [.symbol b.1, b.2]

section

variable {eval : Evaluator} {e : EnvRef} {s t u : Store} {f g : Frame} {x : Error}
  {bindings : List Value} {b : Value}

theorem eq_binding_of_parts {p : Symbol × Value} (h : parts b = .ok p) : b = binding p := by
  unfold parts at h
  split at h
  · cases h
    rfl
  · cases h

theorem parts_of_ne (h : ∀ p, b ≠ binding p) : parts b = .error (.malformed (.notBinding b)) := by
  unfold parts
  split
  case h_1 p init => exact absurd rfl (h (p, init))
  case h_2 => rfl

theorem bindAll_append (eval : Evaluator) (e : EnvRef) (before after : List Value) (f : Frame) :
    bindAll eval e (before ++ after) f =
      bindAll eval e before f >>= fun g => bindAll eval e after g := by
  induction before generalizing f with
  | nil => exact (pure_bind f _).symm
  | cons b before ih => simp only [List.cons_append, bindAll, bind_assoc, ih]

/-- Bindings that succeed have their shape. -/
theorem exists_map_of_run_bindAll (h : (bindAll eval e bindings f).run s = .ok g t) :
    ∃ bs : List (Symbol × Value), bindings = bs.map binding := by
  induction bindings generalizing f s with
  | nil => exact ⟨[], rfl⟩
  | cons b rest ih =>
    obtain ⟨p, u, hp, h⟩ := Action.run_bind_eq_ok h
    obtain ⟨v, u', -, h⟩ := Action.run_bind_eq_ok h
    obtain ⟨f₁, u'', -, h⟩ := Action.run_bind_eq_ok h
    obtain ⟨bs, rfl⟩ := ih h
    cases hparts : parts b with
    | error y =>
      rw [hparts] at hp
      cases hp
    | ok p' => exact ⟨p' :: bs, by rw [List.map_cons, eq_binding_of_parts hparts]⟩

/-- If bindings fail, then those before one of them succeed, and this one fails in their frame. -/
theorem exists_of_run_bindAll_error (h : (bindAll eval e bindings f).run s = .error x u) :
    ∃ before b after g t, bindings = before ++ b :: after ∧
      (bindAll eval e before f).run s = .ok g t ∧ (bindAll eval e [b] g).run t = .error x u := by
  induction bindings generalizing f s with
  | nil => cases h
  | cons b rest ih =>
    rw [← List.singleton_append, bindAll_append, EStateM.run_bind] at h
    cases hb : (bindAll eval e [b] f).run s with
    | error y t =>
      rw [hb] at h
      exact ⟨[], b, rest, f, s, rfl, rfl, hb.trans h⟩
    | ok f₁ t =>
      rw [hb] at h
      obtain ⟨before, b', after, g, t', rfl, hbefore, hb'⟩ := ih h
      refine ⟨b :: before, b', after, g, t', rfl, ?_, hb'⟩
      rw [← List.singleton_append, bindAll_append, Action.run_bind_of_ok hb, hbefore]

end

/-! ### What construction takes -/

/-- All bindings have their shape, their symbols have distinct names, and the initializers, evaluated
from the left, have values that the kinds of the symbols admit. -/
structure Accepts (eval : Evaluator) (bindings : List Value) (e : EnvRef) (s : Store)
    (bs : List (Symbol × Value)) (vs : List Value) (t : Store) : Prop where
  shape : bindings = bs.map binding
  distinct : (bs.map fun b => b.1.name).Nodup
  values : (evalEach eval (bs.map Prod.snd) e).run s = .ok vs t
  kinds : ∀ p v, (p, v) ∈ (bs.map Prod.fst).zip vs → p.kind.admits v = true

/-- The binding fails after others that have these names: it has not the shape, its initializer fails,
its symbol's kind does not admit the value, or its symbol's name is there already. -/
inductive Refuses (eval : Evaluator) (b : Value) (e : EnvRef) (names : List String) (s : Store) :
    Error → Store → Prop where
  | shape (h : ∀ p, b ≠ binding p) : Refuses eval b e names s (.malformed (.notBinding b)) s
  | initializer {p : Symbol} {init : Value} {x : Error} {t : Store} (h : b = binding (p, init))
      (hinit : (eval init e).run s = .error x t) : Refuses eval b e names s x t
  | kind {p : Symbol} {init v : Value} {t : Store} (h : b = binding (p, init))
      (hinit : (eval init e).run s = .ok v t) (hkind : p.kind.admits v = false) :
      Refuses eval b e names s (.type (.slot (some p.name) p.kind v) []) t
  | duplicate {p : Symbol} {init v : Value} {t : Store} (h : b = binding (p, init))
      (hinit : (eval init e).run s = .ok v t) (hkind : p.kind.admits v = true)
      (hname : p.name ∈ names) : Refuses eval b e names s (.duplicateName p.name) t

section

variable {eval : Evaluator} {e : EnvRef} {s t u : Store} {f g : Frame} {x : Error}
  {bindings vs : List Value} {b : Value} {bs : List (Symbol × Value)} {names : List String}

theorem Accepts.length_eq (h : Accepts eval bindings e s bs vs t) :
    vs.length = (bs.map Prod.fst).length := by
  rw [length_of_evalEach h.values, List.length_map, List.length_map]

/-- Bindings succeed from an empty frame just if they are accepted. -/
theorem run_bindAll_iff :
    (∃ g, (bindAll eval e bindings {}).run s = .ok g t) ↔
      ∃ bs vs, Accepts eval bindings e s bs vs t := by
  constructor
  · rintro ⟨g, h⟩
    obtain ⟨bs, rfl⟩ := exists_map_of_run_bindAll h
    obtain ⟨vs, hvs, hg⟩ := run_bindAll_eq_ok_iff.1 h
    have hlength : vs.length = (bs.map Prod.fst).length := by
      rw [length_of_evalEach hvs, List.length_map, List.length_map]
    have hnodup := (Frame.nodup_of_declareAll hlength hg).1
    rw [List.map_map] at hnodup
    exact ⟨bs, vs, rfl, hnodup, hvs, Frame.admits_of_declareAll hg⟩
  · rintro ⟨bs, vs, h⟩
    obtain ⟨g, hg⟩ := Frame.exists_declareAll
      (by rw [List.map_map]; exact h.distinct) h.kinds
    rw [h.shape]
    exact ⟨g, run_bindAll_eq_ok_iff.2 ⟨vs, h.values, hg⟩⟩

theorem Accepts.holds (h : Accepts eval bindings e s bs vs t)
    (hrun : (bindAll eval e bindings {}).run s = .ok g u) :
    u = t ∧ g.Holds ((bs.map Prod.fst).zip vs) := by
  rw [h.shape] at hrun
  obtain ⟨ws, hws, hg⟩ := run_bindAll_eq_ok_iff.1 hrun
  rw [h.values] at hws
  cases hws
  exact ⟨rfl, Frame.holds_of_declareAll h.length_eq hg⟩

/-- The names that the frame binds after the accepted bindings are those of the symbols. -/
theorem Accepts.binds_iff (h : Accepts eval bindings e s bs vs t)
    (hg : g.Holds ((bs.map Prod.fst).zip vs)) (name : String) :
    g.binds name = true ↔ name ∈ bs.map fun b => b.1.name := by
  have hsymbols : ((bs.map Prod.fst).zip vs).map Prod.fst = bs.map Prod.fst :=
    List.map_fst_zip (Nat.le_of_eq h.length_eq.symm)
  have hnames : (bs.map fun b => b.1.name) =
      (((bs.map Prod.fst).zip vs).map Prod.fst).map Symbol.name := by
    rw [hsymbols, List.map_map]
    rfl
  rw [hg.binds_iff, hnames]
  simp

theorem run_bindAll_singleton_error_iff {p : Symbol} {init : Value} :
    (bindAll eval e [binding (p, init)] g).run t = .error x u ↔
      (eval init e).run t = .error x u ∨
        ∃ v, (eval init e).run t = .ok v u ∧ g.declare p v = .error x := by
  have hrun : (bindAll eval e [binding (p, init)] g).run t = (do
      let v ← eval init e
      let g₁ ← Action.ofExcept (g.declare p v)
      bindAll eval e [] g₁ : Action Frame).run t := rfl
  rw [hrun, Action.run_bind_eq_error_iff]
  refine or_congr Iff.rfl ?_
  constructor
  · rintro ⟨v, u', hv, h⟩
    cases hd : g.declare p v with
    | ok g₁ =>
      rw [hd] at h
      cases h
    | error y =>
      rw [hd] at h
      cases h
      exact ⟨v, hv, hd⟩
  · rintro ⟨v, hv, hd⟩
    refine ⟨v, u, hv, ?_⟩
    rw [hd]
    rfl

/-- A single binding fails just if it is refused. -/
theorem run_bindAll_error_iff_refuses (hnames : ∀ n, g.binds n = true ↔ n ∈ names) :
    (bindAll eval e [b] g).run t = .error x u ↔ Refuses eval b e names t x u := by
  constructor
  · intro h
    cases hparts : parts b with
    | error y =>
      have hne : ∀ p, b ≠ binding p := by
        rintro p rfl
        cases hparts
      rw [bindAll, parts_of_ne hne] at h
      cases h
      exact .shape hne
    | ok p =>
      obtain rfl := eq_binding_of_parts hparts
      rcases run_bindAll_singleton_error_iff.1 h with hinit | ⟨v, hinit, hdeclare⟩
      · exact .initializer rfl hinit
      · rcases Frame.declare_eq_error_iff.1 hdeclare with ⟨hkind, rfl⟩ | ⟨hkind, hbinds, rfl⟩
        · exact .kind rfl hinit hkind
        · exact .duplicate rfl hinit hkind ((hnames _).1 hbinds)
  · intro h
    cases h with
    | shape hne =>
      rw [bindAll, parts_of_ne hne]
      rfl
    | initializer hb hinit =>
      rw [hb]
      exact run_bindAll_singleton_error_iff.2 (Or.inl hinit)
    | kind hb hinit hkind =>
      rw [hb]
      have hdeclare : g.declare _ _ = _ := Frame.declare_eq_error_iff.2 (Or.inl ⟨hkind, rfl⟩)
      exact run_bindAll_singleton_error_iff.2 (Or.inr ⟨_, hinit, hdeclare⟩)
    | duplicate hb hinit hkind hname =>
      rw [hb]
      have hdeclare := Frame.declare_eq_error_iff.2 (Or.inr ⟨hkind, (hnames _).2 hname, rfl⟩)
      exact run_bindAll_singleton_error_iff.2 (Or.inr ⟨_, hinit, hdeclare⟩)

/-- Bindings fail just if one of them is refused after the others before it have been accepted. -/
theorem run_bindAll_empty_error_iff :
    (bindAll eval e bindings {}).run s = .error x u ↔
      ∃ before b after bs vs t, bindings = before ++ b :: after ∧
        Accepts eval before e s bs vs t ∧
        Refuses eval b e (bs.map fun b => b.1.name) t x u := by
  constructor
  · intro h
    obtain ⟨before, b, after, g, t, rfl, hbefore, hb⟩ := exists_of_run_bindAll_error h
    obtain ⟨bs, vs, haccepts⟩ := run_bindAll_iff.1 ⟨g, hbefore⟩
    have hbinds := haccepts.binds_iff (haccepts.holds hbefore).2
    exact ⟨before, b, after, bs, vs, t, rfl, haccepts, (run_bindAll_error_iff_refuses hbinds).1 hb⟩
  · rintro ⟨before, b, after, bs, vs, t, rfl, haccepts, hrefuses⟩
    obtain ⟨g, hg⟩ := run_bindAll_iff.2 ⟨bs, vs, haccepts⟩
    have hbinds := haccepts.binds_iff (haccepts.holds hg).2
    have hb := (run_bindAll_error_iff_refuses hbinds).2 hrefuses
    rw [bindAll_append, Action.run_bind_of_ok hg, ← List.singleton_append, bindAll_append]
    exact Action.run_bind_eq_error_iff.2 (Or.inl hb)

theorem run_construct_of_run_bindAll {l : Let} (h : (bindAll eval e l.bindings {}).run s = .ok g t) :
    (l.construct eval e).run s =
      .ok t.environments.size
        { t with environments := t.environments.push ⟨g, .scope l.body none⟩ } := by
  rw [construct, Action.run_bind_of_ok h]
  rfl

theorem run_construct_error_iff {l : Let} :
    (l.construct eval e).run s = .error x u ↔
      (bindAll eval e l.bindings {}).run s = .error x u := by
  rw [construct, Action.run_bind_eq_error_iff]
  constructor
  · rintro (h | ⟨g, t, -, h⟩)
    · exact h
    · cases h
  · exact Or.inl

/-- A scope is constructed just if the bindings are accepted. It is a new one without a parent, and
its frame holds the symbols with their values. -/
theorem run_construct_eq_ok {l : Let} {scope : EnvRef}
    (h : (l.construct eval e).run s = .ok scope u) :
    ∃ bs vs t g, Accepts eval l.bindings e s bs vs t ∧
      g.Holds ((bs.map Prod.fst).zip vs) ∧ scope = t.environments.size ∧
      u = { t with environments := t.environments.push ⟨g, .scope l.body none⟩ } := by
  obtain ⟨g, t, hg, h⟩ := Action.run_bind_eq_ok h
  cases h
  obtain ⟨bs, vs, haccepts⟩ := run_bindAll_iff.1 ⟨g, hg⟩
  exact ⟨bs, vs, t, g, haccepts, (haccepts.holds hg).2, rfl, rfl⟩

theorem exists_run_construct_iff {l : Let} :
    (∃ scope u, (l.construct eval e).run s = .ok scope u) ↔
      ∃ bs vs t, Accepts eval l.bindings e s bs vs t := by
  constructor
  · rintro ⟨scope, u, h⟩
    obtain ⟨bs, vs, t, g, haccepts, -⟩ := run_construct_eq_ok h
    exact ⟨bs, vs, t, haccepts⟩
  · rintro ⟨bs, vs, t, haccepts⟩
    obtain ⟨g, hg⟩ := run_bindAll_iff.2 ⟨bs, vs, haccepts⟩
    exact ⟨_, _, run_construct_of_run_bindAll hg⟩

end
end Let

/-! ### What is not evaluated -/

namespace Traced

variable {eval : Evaluator} {e : EnvRef} {s t : Store} {f : Frame}

theorem bind_assoc_apply {α β γ : Type} (a : Traced α) (f : α → Traced β) (g : β → Traced γ)
    (s : Store) : ((a >>= f) >>= g) s = (a >>= fun x => f x >>= g) s := by
  cases ha : (a s).outcome with
  | error x t =>
    have hf : ((a >>= f) s).outcome = .error x t := by rw [bind_of_error ha]
    rw [bind_of_error hf, bind_of_error ha, bind_of_error ha]
  | ok v t =>
    rw [bind_of_ok ha]
    cases hf : (f v t).outcome with
    | error x u =>
      have hboth : ((a >>= f) s).outcome = .error x u := by rw [bind_of_ok ha, hf]
      rw [bind_of_error hboth, bind_of_error hf, bind_of_ok ha]
    | ok w u =>
      have hboth : ((a >>= f) s).outcome = .ok w u := by rw [bind_of_ok ha, hf]
      rw [bind_of_ok hboth, bind_of_ok hf, bind_of_ok ha, List.append_assoc]

theorem bind_congr {α β : Type} (a : Traced α) {f g : α → Traced β}
    (h : ∀ x t, f x t = g x t) (s : Store) : (a >>= f) s = (a >>= g) s := by
  have heq : f = g := funext fun x => funext (h x)
  rw [heq]

theorem bindAll_append (eval : Evaluator) (e : EnvRef) (before after : List Value) (f : Frame)
    (s : Store) :
    bindAll eval e (before ++ after) f s =
      (bindAll eval e before f >>= fun g => bindAll eval e after g) s := by
  induction before generalizing f s with
  | nil => rfl
  | cons b before ih =>
    rw [List.cons_append, bindAll, bindAll, bind_assoc_apply]
    refine bind_congr _ (fun p t => ?_) s
    rw [bind_assoc_apply]
    refine bind_congr _ (fun v u => ?_) t
    rw [bind_assoc_apply]
    exact bind_congr _ (fun g w => ih g w) u

/-- Once a binding has failed nothing is done for those behind it. -/
theorem bindAll_append_of_error {before after : List Value} {x : Error}
    (h : (bindAll eval e before f s).outcome = .error x t) :
    bindAll eval e (before ++ after) f s = bindAll eval e before f s := by
  rw [bindAll_append, bind_of_error h, ← eq_of_outcome h]

end Traced
end LexicalLisp
