import LexicalLisp.Proofs.After
import LexicalLisp.Proofs.Chain
import LexicalLisp.Proofs.Data
import LexicalLisp.Proofs.Evaluation

/-!
# Compiled code does not flow into data

Code whose quotations quote data only evaluates to data, keeps data in all variables, and gives
nothing but data to primitives. The last is said by a second evaluation in which primitives do
what they like with anything else: it does not differ from the first.
-/
namespace LexicalLisp

namespace Value

/-- Code that quotes data only; it has no builtin of the host in it. -/
def IsPureCode (v : Value) : Prop := v.quotesData = true ∧ v.throughout isNative = true

/-- Data without a builtin of the host in it. -/
def IsPureData (v : Value) : Prop := v.isData = true ∧ v.throughout isNative = true

end Value

/-- Variables hold data, and the bodies of functions quote nothing else. -/
structure Store.Pure (s : Store) : Prop where
  slot : ∀ e n slot, (s.frame e).get? n = some (.slot slot) → slot.value.IsPureData
  body : ∀ (i : Nat) (c : Closure), s.closures[i]? = some c →
    ∀ o ∈ c.overloads, ∀ x ∈ o.body, x.IsPureCode

namespace Store.Pure

variable {s : Store}

theorem data_of_get? (h : s.Pure) {e : EnvRef} {n : String} {b : Binding}
    (hb : (s.frame e).get? n = some b) : b.value.IsPureData := by
  cases b with
  | slot slot => exact h.slot e n slot hb
  | function f => exact ⟨rfl, rfl⟩

theorem data_of_lookup? (h : s.Pure) {e : EnvRef} {n : String} {v : Value}
    (hv : s.lookup? n e = some v) : v.IsPureData := by
  obtain ⟨d, b, -, hb, rfl⟩ := exists_binding_of_lookup? hv
  exact h.data_of_get? hb

theorem bind (h : s.Pure) (e : EnvRef) (n : String) {b : Binding} (hb : b.value.IsPureData) :
    (s.bind e n b).Pure := by
  refine ⟨?_, h.body⟩
  intro d m slot hslot
  rcases get?_of_bind hslot with ⟨-, -, rfl⟩ | hslot
  · exact hb
  · exact h.slot d m slot hslot

theorem push_environment (h : s.Pure) {env : Environment}
    (henv : env.frame.Variables Value.IsPureData) :
    ({ s with environments := s.environments.push env } : Store).Pure := by
  refine ⟨?_, h.body⟩
  intro e n slot hslot
  rcases get?_of_push hslot with ⟨-, hslot⟩ | hslot
  · obtain ⟨slot', hslot', -, hv⟩ := henv.of_get? hslot
    cases hslot'
    exact hv
  · exact h.slot e n slot hslot

theorem push_closure (h : s.Pure) {c : Closure}
    (hc : ∀ o ∈ c.overloads, ∀ x ∈ o.body, x.IsPureCode) :
    ({ s with closures := s.closures.push c } : Store).Pure := by
  refine ⟨h.slot, fun i d hd => ?_⟩
  simp only [Array.getElem?_push] at hd
  split at hd
  case isTrue =>
    cases hd
    exact hc
  case isFalse => exact h.body i d hd

theorem overload (h : s.Pure) (f : FunctionRef) {o : Overload} (ho : ∀ x ∈ o.body, x.IsPureCode) :
    ({ s with
      closures := s.closures.modify f.index fun c =>
        { c with overloads := c.overloads ++ [o] } } : Store).Pure := by
  refine ⟨h.slot, fun i d hd => ?_⟩
  rw [Array.getElem?_modify] at hd
  split at hd
  case isTrue =>
    obtain ⟨c, hc, rfl⟩ := Option.map_eq_some_iff.1 hd
    intro o' ho'
    rcases List.mem_append.1 ho' with ho' | ho'
    · exact h.body i c hc o' ho'
    · rw [List.mem_singleton.1 ho']
      exact ho
  case isFalse => exact h.body i d hd

end Store.Pure

/-! ### The two evaluations -/

/-- Two evaluations of pure code in one pure store. -/
def pureFlow : Correspondence where
  World := Unit
  name _ := True
  code _ := Value.IsPureCode
  data _ := Value.IsPureData
  here _ _ := True
  related _ s s' := s' = s ∧ s.Pure
  grows _ _ _ := True
  cut _ := False

namespace pureFlow

variable {α : Type}

theorem follows {e : EnvRef} {P : Unit → α → Prop} {a : Action α}
    (h : ∀ s : Store, s.Pure → (a.after s).Pure) (hP : ∀ s x t, a.run s = .ok x t → P () x) :
    pureFlow.Follows e () P a a := by
  rintro s _ ⟨rfl, hs⟩
  have hafter := h _ hs
  cases hr : a.run _ with
  | ok x t =>
    rw [Action.after_of_ok hr] at hafter
    exact ⟨(), t, rfl, trivial, ⟨rfl, hafter⟩, hP _ x t hr⟩
  | error x t =>
    rw [Action.after_of_error hr] at hafter
    exact Or.inr ⟨x, (), t, rfl, rfl, trivial, rfl, hafter⟩

theorem isPureCode_of_mem_parts {v part : Value} (h : v.IsPureCode) (hpart : part ∈ v.parts) :
    part.IsPureCode :=
  ⟨Value.throughout_of_mem_parts h.1 hpart, Value.throughout_of_mem_parts h.2 hpart⟩

/-- A literal of the code is data, unless it is a list or an application. -/
theorem isPureData_of_isLiteral {v : Value} (h : v.IsPureCode) (hv : v.isLiteral = true) :
    v.IsPureData := by
  refine ⟨?_, h.2⟩
  cases v with
  | symbol | list | op => cases hv
  | _ => rfl

theorem isPureData_of_quoted {v : Value} (h : (Value.op (.form .quote) [v]).IsPureCode) :
    v.IsPureData := by
  obtain ⟨hquotes, hnative⟩ := h
  have hv := (Value.throughout_op_iff.1 hquotes).1
  simp only [Value.quotesOnlyData, List.all_cons, List.all_nil, Bool.and_true] at hv
  exact ⟨hv, (Value.throughout_op_iff.1 hnative).2 v List.mem_cons_self⟩

/-- A builtin that is no function of the host makes data of data. -/
theorem isPureData_of_run {host : Host} {id : String} {code : Code} {vs : List Value} {v : Value}
    (hcode : (Value.builtin id code).IsPureData) (hvs : ∀ u ∈ vs, u.IsPureData)
    (hv : code.run host vs = .ok v) : v.IsPureData := by
  cases code with
  | host name => cases hcode.2
  | primitive p =>
    constructor
    · exact Primitive.throughout_of_run (fun _ => rfl) (fun _ => rfl) (fun _ => rfl) (fun _ => rfl)
        (fun u hu => (hvs u hu).1) hv
    · exact Primitive.throughout_of_run (fun _ => rfl) (fun _ => rfl) (fun _ => rfl) (fun _ => rfl)
        (fun u hu => (hvs u hu).2) hv

/-- The builtins of the second evaluation do the same as those of the first with data. -/
theorem lawful {host : Host} {run' : Runner}
    (hrun : ∀ code vs, (∀ v ∈ vs, v.isData = true) → run' code vs = code.run host vs) :
    pureFlow.Lawful (Code.run host) run' where
  grows_refl _ _ := trivial
  grows_trans _ _ := trivial
  here_mono _ h := h
  code_mono _ h := h
  data_mono _ h := h
  cut_note h := h
  alike_refl _ := rfl
  alike_note h := congrArg _ h
  part h hpart := isPureCode_of_mem_parts h hpart
  mentioned _ _ := trivial
  literal h hv := isPureData_of_isLiteral h hv
  quoted h := isPureData_of_quoted h
  bool _ _ := ⟨rfl, rfl⟩
  nil _ := ⟨rfl, rfl⟩
  unspecified _ := ⟨rfl, rfl⟩
  primitive _ _ := ⟨rfl, rfl⟩
  computed hcode hvs :=
    ⟨hrun _ _ fun v hv => (hvs v hv).1, fun _ hv => isPureData_of_run hcode hvs hv⟩
  lookup := by
    rintro _ s _ e n ⟨rfl, hs⟩ _ _
    exact ⟨rfl, fun v hv => hs.data_of_lookup? hv⟩
  closure := by
    rintro _ s _ f ⟨rfl, hs⟩ _
    refine ⟨Correspondence.matches_choose (fun _ => rfl) rfl, fun c hc => ?_⟩
    exact ⟨trivial, hs.body f.index c hc⟩
  define _ _ _ hv := follows
    (fun s hs => EnvRef.after_define hs fun _ => hs.bind _ _ hv) fun _ _ _ _ => trivial
  assign _ _ hv := follows
    (fun s hs => EnvRef.after_assign hs fun _ _ _ _ _ => hs.bind _ _ hv) fun _ _ _ _ => trivial
  defun := by
    intro _ e n o _ _ _ ho
    have hc : ∀ o' ∈ [o], ∀ x ∈ o'.body, x.IsPureCode := by
      intro o' ho'
      rw [List.mem_singleton.1 ho']
      exact ho
    refine follows (fun s hs => EnvRef.after_defun hs (fun _ => ?_) fun f _ _ => ?_)
      fun _ _ _ _ => trivial
    · exact (hs.push_closure hc).bind e n ⟨rfl, rfl⟩
    · exact hs.overload f ho
  lambda := by
    intro _ e o _ _ ho
    refine follows (fun s hs => ?_) fun _ _ _ _ => ⟨rfl, rfl⟩
    refine hs.push_closure fun o' ho' => ?_
    rw [List.mem_singleton.1 ho']
    exact ho
  enter := by
    rintro _ s _ e parent frame body ⟨rfl, hs⟩ _ _ hframe _
    exact ⟨rfl, (), ⟨rfl, hs.push_environment hframe⟩, trivial, fun _ _ => trivial⟩

end pureFlow
end LexicalLisp
