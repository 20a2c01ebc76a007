import LexicalLisp.Proofs.Containment
import LexicalLisp.Proofs.HostEffect

/-!
# Well-formed stores

Slots, frames and functions fit together in every store that commands lead to: a variable
holds what its kind admits, a name that is bound to a function is bound to the function that
was defined there under that name, and the overloads of a function differ in their arities.
So a call has one overload to choose, and binding its parameters meets no name twice.
-/
namespace LexicalLisp

/-- A function has an overload, takes each number of arguments in one way at most, and no
overload names two parameters alike. -/
structure Closure.WellFormed (c : Closure) : Prop where
  implemented : c.overloads ≠ []
  arities : (c.overloads.map Overload.arity).Nodup
  distinct : ∀ o ∈ c.overloads, o.Distinct

namespace Closure

theorem wellFormed_of_distinct {o : Overload} {home : EnvRef} (ho : o.Distinct) :
    WellFormed ⟨[o], home⟩ := by
  refine ⟨by simp, by simp, fun o' ho' => ?_⟩
  rw [List.mem_singleton.1 ho']
  exact ho

theorem WellFormed.overload {c : Closure} {o : Overload} (h : c.WellFormed) (ho : o.Distinct)
    (hnew : o.arity ∉ c.overloads.map Overload.arity) :
    WellFormed { c with overloads := c.overloads ++ [o] } := by
  refine ⟨by simp, ?_, fun o' ho' => ?_⟩
  · rw [List.map_append, List.map_singleton, List.nodup_append]
    refine ⟨h.arities, by simp, ?_⟩
    rintro n hn m hm rfl
    rw [List.mem_singleton] at hm
    exact hnew (hm ▸ hn)
  · rcases List.mem_append.1 ho' with ho' | ho'
    · exact h.distinct o' ho'
    · rw [List.mem_singleton.1 ho']
      exact ho

end Closure

namespace Store

structure WellFormed (s : Store) : Prop where
  /-- A variable holds a value that its kind admits. -/
  slot : ∀ e n slot, (s.frame e).get? n = some (.slot slot) → slot.kind.admits slot.value = true
  /-- A name is bound to a function of that name which is defined in the same environment. -/
  function : ∀ e n f, (s.frame e).get? n = some (.function f) →
    f.name = n ∧ ∃ c, s.closures[f.index]? = some c ∧ c.home = e
  closure : ∀ (i : Nat) (c : Closure), s.closures[i]? = some c → c.WellFormed

theorem wellFormed_empty : WellFormed {} := by
  refine ⟨?_, ?_, ?_⟩
  · intro e n slot h
    simp [frame] at h
  · intro e n f h
    simp [frame] at h
  · intro i c h
    simp at h

namespace WellFormed

variable {s : Store}

theorem bind_slot (h : s.WellFormed) (e : EnvRef) (n : String) {slot : Slot}
    (hslot : slot.kind.admits slot.value = true) : (s.bind e n (.slot slot)).WellFormed := by
  refine ⟨?_, ?_, h.closure⟩
  · intro d m slot' hb
    rcases get?_of_bind hb with ⟨-, -, hb⟩ | hb
    · cases hb
      exact hslot
    · exact h.slot d m slot' hb
  · intro d m f hb
    rcases get?_of_bind hb with ⟨-, -, hb⟩ | hb
    · cases hb
    · exact h.function d m f hb

/-- A new environment that binds variables only. -/
theorem push_environment (h : s.WellFormed) {env : Environment}
    (henv : env.frame.Variables fun _ => True) :
    ({ s with environments := s.environments.push env } : Store).WellFormed := by
  refine ⟨?_, ?_, h.closure⟩
  · intro e n slot hb
    rcases get?_of_push hb with ⟨-, hb⟩ | hb
    · obtain ⟨slot', hslot', hk, -⟩ := henv.of_get? hb
      cases hslot'
      exact hk
    · exact h.slot e n slot hb
  · intro e n f hb
    rcases get?_of_push hb with ⟨-, hb⟩ | hb
    · obtain ⟨slot', hslot', -⟩ := henv.of_get? hb
      cases hslot'
    · exact h.function e n f hb

theorem push_closure (h : s.WellFormed) {c : Closure} (hc : c.WellFormed) :
    ({ s with closures := s.closures.push c } : Store).WellFormed := by
  have hpush : ∀ i, (s.closures.push c)[i]? =
      if i = s.closures.size then some c else s.closures[i]? := fun i => Array.getElem?_push
  refine ⟨h.slot, ?_, ?_⟩
  · intro e n f hb
    obtain ⟨hname, c', hc', hhome⟩ := h.function e n f hb
    refine ⟨hname, c', ?_, hhome⟩
    have hlt : f.index < s.closures.size := (Array.getElem?_eq_some_iff.1 hc').1
    rw [hpush, if_neg (Nat.ne_of_lt hlt)]
    exact hc'
  · intro i d hd
    rw [hpush] at hd
    split at hd
    case isTrue =>
      cases hd
      exact hc
    case isFalse => exact h.closure i d hd

/-- Binding a name to a function of that name that was defined here. -/
theorem bind_function (h : s.WellFormed) {e : EnvRef} {n : String} {i : Nat} {c : Closure}
    (hc : s.closures[i]? = some c) (hhome : c.home = e) :
    (s.bind e n (.function ⟨n, i⟩)).WellFormed := by
  refine ⟨?_, ?_, h.closure⟩
  · intro d m slot hb
    rcases get?_of_bind hb with ⟨-, -, hb⟩ | hb
    · cases hb
    · exact h.slot d m slot hb
  · intro d m f hb
    rcases get?_of_bind hb with ⟨rfl, rfl, heq⟩ | hb
    · cases heq
      exact ⟨rfl, c, hc, hhome⟩
    · exact h.function d m f hb

theorem overload (h : s.WellFormed) {f : FunctionRef} {o : Overload} (ho : o.Distinct)
    (hnew : o.arity ∉ s.arities f) :
    ({ s with
      closures := s.closures.modify f.index fun c =>
        { c with overloads := c.overloads ++ [o] } } : Store).WellFormed := by
  have hmodify : ∀ i, (s.closures.modify f.index fun c =>
      { c with overloads := c.overloads ++ [o] })[i]? =
        if f.index = i then
          s.closures[i]?.map fun c => { c with overloads := c.overloads ++ [o] }
        else s.closures[i]? := fun i => by rw [Array.getElem?_modify]
  refine ⟨h.slot, ?_, ?_⟩
  · intro e n g hb
    obtain ⟨hname, c, hc, hhome⟩ := h.function e n g hb
    refine ⟨hname, ?_⟩
    rw [hmodify, hc]
    split
    · exact ⟨_, rfl, hhome⟩
    · exact ⟨c, rfl, hhome⟩
  · intro i d hd
    rw [hmodify] at hd
    split at hd
    case isTrue hi =>
      subst hi
      obtain ⟨c, hc, rfl⟩ := Option.map_eq_some_iff.1 hd
      have harities : s.arities f = c.overloads.map Overload.arity := by simp only [arities, hc]
      rw [harities] at hnew
      exact (h.closure _ c hc).overload ho hnew
    case isFalse => exact h.closure i d hd

end WellFormed

theorem wellFormed_effect : Effect fun _ s t => s.WellFormed → t.WellFormed where
  refl _ _ h := h
  trans h h' hs := h' (h hs)
  define _ hslot h := h.bind_slot _ _ hslot
  assign _ _ hv h := h.bind_slot _ _ hv
  lambda ho h := h.push_closure (Closure.wellFormed_of_distinct ho)
  defun := by
    intro e s n o _ ho h
    refine (h.push_closure (Closure.wellFormed_of_distinct ho)).bind_function (c := ⟨[o], e⟩) ?_ rfl
    simp
  overload _ ha ho h := h.overload ho ha
  enter hf h hs := h (hs.push_environment hf)

/-- Roles do not matter. -/
theorem WellFormed.of_frames {s t : Store} (h : s.WellFormed)
    (hframe : ∀ e, t.frame e = s.frame e) (hclosures : t.closures = s.closures) :
    t.WellFormed := by
  refine ⟨?_, ?_, ?_⟩
  · intro e n slot hb
    rw [hframe] at hb
    exact h.slot e n slot hb
  · intro e n f hb
    rw [hframe] at hb
    rw [hclosures]
    exact h.function e n f hb
  · intro i c hc
    rw [hclosures] at hc
    exact h.closure i c hc

theorem wellFormed_hostEffect : HostEffect fun s t => s.WellFormed → t.WellFormed where
  effect := wellFormed_effect
  environment hf h := h.push_environment hf
  overload ha ho h := h.overload ho ha
  activate := by
    intro s scope parent frame body henv h
    refine h.of_frames (fun e => ?_) rfl
    simp only [Store.frame, Array.getElem?_modify]
    by_cases he : scope = e
    · subst he
      simp [henv]
    · rw [if_neg he]

end Store

/-- Every command keeps a store well-formed, whether it fails or not. -/
theorem Command.wellFormed_after_perform (host : Host) (c : Command) (s : Store)
    (h : s.WellFormed) : ((c.perform host).after s).WellFormed := by
  cases hc : c.isRegistration with
  | false => exact Store.wellFormed_hostEffect.after_perform host hc s h
  | true =>
    cases c with
    | register e name code => exact h.bind_slot e name rfl
    | _ => cases hc

theorem Store.Reachable.wellFormed {host : Host} {s : Store} (h : s.Reachable host) :
    s.WellFormed :=
  h.invariant wellFormed_empty (Command.wellFormed_after_perform host)

/-! ### Binding parameters -/

theorem FunctionRef.arity_of_select {f : FunctionRef} {os : List Overload} {n : Nat} {o : Overload}
    (h : f.select os n = .ok o) : o.arity = n := by
  unfold select at h
  split at h
  case h_1 o' ho =>
    cases h
    simpa using List.find?_some ho
  case h_2 => split at h <;> cases h

/-- Parameters with distinct names are all bound, unless a value is not of its parameter's kind. -/
theorem Frame.declareAll_of_nodup {f : Frame} {ps : List Symbol} (vs : List Value)
    (hnodup : (ps.map Symbol.name).Nodup) (hfree : ∀ p ∈ ps, f.binds p.name = false) :
    (∃ g, f.declareAll ps vs = .ok g ∧
      (∀ n, n ∉ ps.map Symbol.name → g.get? n = f.get? n) ∧
      ∀ p v, (p, v) ∈ ps.zip vs → g.get? p.name = some (.slot ⟨p.kind, v⟩)) ∨
    ∃ p v, (p, v) ∈ ps.zip vs ∧ p.kind.admits v = false ∧
      f.declareAll ps vs = .error (.type (.slot (some p.name) p.kind v) []) := by
  induction ps generalizing f vs with
  | nil => exact Or.inl ⟨f, rfl, fun _ _ => rfl, by simp⟩
  | cons p ps ih =>
    cases vs with
    | nil => exact Or.inl ⟨f, rfl, fun _ _ => rfl, by simp⟩
    | cons v vs =>
      rw [List.map_cons, List.nodup_cons] at hnodup
      obtain ⟨hp, hnodup⟩ := hnodup
      cases hk : p.kind.admits v with
      | false =>
        refine Or.inr ⟨p, v, List.mem_cons_self, hk, ?_⟩
        simp [declareAll, declare, Slot.ofSymbol, Slot.ofValue_eq, hk, bind, Except.bind]
      | true =>
        have hd : f.declare p v = .ok (f.put p.name (.slot ⟨p.kind, v⟩)) :=
          declare_eq_ok_iff.2 ⟨hk, hfree p List.mem_cons_self, rfl⟩
        have hstep : f.declareAll (p :: ps) (v :: vs) =
            (f.put p.name (.slot ⟨p.kind, v⟩)).declareAll ps vs := by
          simp [declareAll, hd, bind, Except.bind]
        have hfree' : ∀ q ∈ ps, (f.put p.name (.slot ⟨p.kind, v⟩)).binds q.name = false := by
          intro q hq
          have hne : p.name ≠ q.name := fun h => hp (h ▸ List.mem_map_of_mem hq)
          rw [binds, get?_put, if_neg hne]
          exact hfree q (List.mem_cons_of_mem p hq)
        rw [hstep]
        rcases ih vs hnodup hfree' with ⟨g, hg, hold, hnew⟩ | ⟨q, u, hqu, hrest⟩
        · refine Or.inl ⟨g, hg, fun n hn => ?_, fun q u hqu => ?_⟩
          · rw [List.map_cons, List.mem_cons, not_or] at hn
            rw [hold n hn.2, get?_put, if_neg (Ne.symm hn.1)]
          · rcases List.mem_cons.1 hqu with hqu | hqu
            · cases hqu
              rw [hold p.name hp, get?_put, if_pos rfl]
            · exact hnew q u hqu
        · exact Or.inr ⟨q, u, List.mem_cons_of_mem _ hqu, hrest⟩

/-- The frame binds every parameter of the overload to the argument in its place. -/
def Overload.Binds (o : Overload) (args : List Value) (frame : Frame) : Prop :=
  ∀ (i : Nat) (p : Symbol), o.params[i]? = some p →
    ∃ v, args[i]? = some v ∧ frame.get? p.name = some (.slot ⟨p.kind, v⟩)

theorem Overload.declareAll_of_distinct {o : Overload} {args : List Value} (hd : o.Distinct)
    (hlength : o.arity = args.length) :
    (∃ frame, Frame.declareAll {} o.params args = .ok frame ∧ o.Binds args frame) ∨
    ∃ p v, (p, v) ∈ o.params.zip args ∧ p.kind.admits v = false ∧
      Frame.declareAll {} o.params args = .error (.type (.slot (some p.name) p.kind v) []) := by
  rcases Frame.declareAll_of_nodup (f := {}) args hd (fun _ _ => rfl) with
    ⟨frame, hframe, -, hbound⟩ | hrefused
  · refine Or.inl ⟨frame, hframe, fun i p hp => ?_⟩
    have hi : i < args.length := hlength ▸ (List.getElem?_eq_some_iff.1 hp).1
    have hv : args[i]? = some args[i] := List.getElem?_eq_getElem hi
    have hzip : (o.params.zip args)[i]? = some (p, args[i]) :=
      List.getElem?_zip_eq_some.2 ⟨hp, hv⟩
    exact ⟨args[i], hv, hbound p args[i] (List.mem_iff_getElem?.2 ⟨i, hzip⟩)⟩
  · exact Or.inr hrefused

/-- A call that has chosen an overload with distinct parameters goes on to the body, in a new
scope that binds them all, or a value is not of its parameter's kind. -/
theorem FunctionRef.run_call_of_distinct (eval : Evaluator) {f : FunctionRef} {c : Closure}
    {o : Overload} {args : List Value} {s : Store} (hc : s.closures[f.index]? = some c)
    (ho : f.select c.overloads args.length = .ok o) (hd : o.Distinct) :
    (∃ frame, o.Binds args frame ∧
      (f.call eval args).run s =
        (Action.noting (.inFunction f.name) (evalBody eval o.body s.environments.size)).run
          { s with environments := s.environments.push ⟨frame, .scope o.body (some c.home)⟩ }) ∨
    ∃ p v, (p, v) ∈ o.params.zip args ∧ p.kind.admits v = false ∧
      (f.call eval args).run s = .error (.type (.slot (some p.name) p.kind v) []) s := by
  rw [run_call_of_select eval hc ho, Overload.enter]
  rcases Overload.declareAll_of_distinct hd (arity_of_select ho) with
    ⟨frame, hframe, hbinds⟩ | ⟨p, v, hpv, hk, herror⟩
  · refine Or.inl ⟨frame, hbinds, ?_⟩
    rw [hframe]
    rfl
  · refine Or.inr ⟨p, v, hpv, hk, ?_⟩
    rw [herror]
    rfl

/-- In a store that commands lead to, slots hold what their kinds admit, names of functions are
bound to functions of their own, and overloads are distinct and have distinct parameters. So when
a call has chosen an overload, binding its parameters meets no name twice, and if it succeeds the
body is evaluated where every parameter is bound to its argument. -/
theorem reachable_store_is_wellFormed (host : Host) (s : Store) (h : s.Reachable host) :
    s.WellFormed ∧
      ∀ (eval : Evaluator) (f : FunctionRef) (c : Closure) (o : Overload) (args : List Value),
        s.closures[f.index]? = some c → f.select c.overloads args.length = .ok o →
          (∀ n, Frame.declareAll {} o.params args ≠ .error (.duplicateName n)) ∧
          ((∃ frame, o.Binds args frame ∧
            (f.call eval args).run s =
              (Action.noting (.inFunction f.name) (evalBody eval o.body s.environments.size)).run
                { s with
                  environments := s.environments.push ⟨frame, .scope o.body (some c.home)⟩ }) ∨
          ∃ p v, (p, v) ∈ o.params.zip args ∧ p.kind.admits v = false ∧
            (f.call eval args).run s = .error (.type (.slot (some p.name) p.kind v) []) s) := by
  have hs : s.WellFormed := h.wellFormed
  refine ⟨hs, fun eval f c o args hc ho => ?_⟩
  have hdistinct : o.Distinct := (hs.closure _ c hc).distinct o (FunctionRef.mem_of_select ho)
  refine ⟨fun n hn => ?_, FunctionRef.run_call_of_distinct eval hc ho hdistinct⟩
  have hlength : o.arity = args.length := FunctionRef.arity_of_select ho
  rcases Overload.declareAll_of_distinct hdistinct hlength with
    ⟨frame, hframe, -⟩ | ⟨p, v, -, -, herror⟩
  · rw [hframe] at hn
    cases hn
  · rw [herror] at hn
    cases hn

theorem reachable_store_is_wellFormed_after_defun :
    ∃ s : Store, s.Reachable (fun _ _ => .ok .unspecified) ∧ s.WellFormed ∧
      s.closures[0]? =
        some ⟨[⟨[⟨"x", .int⟩, ⟨"y", .any⟩], [.symbol ⟨"x", .any⟩]⟩], 0⟩ ∧
      ∀ n, Frame.declareAll {} [⟨"x", .int⟩, ⟨"y", .any⟩] [.number 1, .bool true] ≠
        .error (.duplicateName n) := by
  have h : Store.Reachable (fun _ _ => .ok .unspecified) _ :=
    .perform (.defun 0 "f" [⟨"x", .int⟩, ⟨"y", .any⟩] [.symbol ⟨"x", .any⟩])
      (.perform .createRoot .empty)
  have hs := reachable_store_is_wellFormed (fun _ _ => .ok .unspecified) _ h
  have hcall := hs.2 (evalAt (fun _ _ => .ok .unspecified) 1) ⟨"f", 0⟩
    ⟨[⟨[⟨"x", .int⟩, ⟨"y", .any⟩], [.symbol ⟨"x", .any⟩]⟩], 0⟩ _ [.number 1, .bool true] rfl rfl
  exact ⟨_, h, hs.1, rfl, hcall.1⟩

end LexicalLisp
