import Mathlib
import LexicalLisp.Primitive
import LexicalLisp.Proofs.Nesting

/-!
# Equality is a partial equivalence

Equality is symmetric and transitive and respects the written form. A value equals itself unless
`unspecified` lies in it, however deep. The primitive `equal?` answers with this equality where two
plain values of one type are compared, so what it answers is symmetric and transitive too.
-/
namespace LexicalLisp

namespace Value

variable {u v x : Value} {m p : Nat} {q : Value → Bool}

/-- What lies in a part lies in the whole, at the sum of the depths. -/
theorem Occurs.trans (h : v.Occurs m u) (h' : u.Occurs p x) : v.Occurs (m + p) x := by
  induction h' with
  | self => exact h
  | element _ hx ih => exact ih.element hx
  | operand _ hx ih => exact ih.operand hx

theorem throughout_of_occurs_imp :
    ∀ {v : Value}, (∀ p x, v.Occurs p x → q x = true) → v.throughout q = true
  | .list vs, h => by
    refine throughout_list_iff.2 ⟨h 0 _ .self, fun u hu => ?_⟩
    exact throughout_of_occurs_imp fun p x hx => h _ x ((Occurs.self.element hu).trans hx)
  | .op o args, h => by
    refine throughout_op_iff.2 ⟨h 0 _ .self, fun u hu => ?_⟩
    exact throughout_of_occurs_imp fun p x hx => h _ x ((Occurs.self.operand hu).trans hx)
  | .number _, h | .symbol _, h | .string _, h | .bool _, h => h 0 _ .self
  | .builtin _ _, h | .function _, h | .unspecified, h => h 0 _ .self

theorem same_self_iff_not_occurs : v.same v = true ↔ ∀ p, ¬ v.Occurs p .unspecified := by
  rw [same_self_iff]
  constructor
  · intro h p hp
    cases throughout_of_occurs h hp
  · intro h
    refine throughout_of_occurs_imp fun p x hx => ?_
    cases x with
    | unspecified => exact absurd hx (h p)
    | _ => rfl

end Value

namespace Primitive

variable {a b c v : Value}

/-- The types whose values can be compared. -/
def comparableTypes : List String := ["int", "symbol", "string", "bool", "list"]

theorem comparable_iff :
    comparable a b = true ↔ a.typeName = b.typeName ∧ a.typeName ∈ comparableTypes := by
  cases a <;> cases b <;> simp [comparable, Value.typeName, comparableTypes]

theorem run_equal_eq_ok_iff :
    equal.run [a, b] = .ok v ↔
      (a.typeName = b.typeName ∧ a.typeName ∈ comparableTypes) ∧ v = .bool (a.same b) := by
  rw [← comparable_iff, run, runEqual]
  by_cases h : comparable a b = true
  · rw [if_pos h, Except.ok.injEq, eq_comm]
    exact (and_iff_right h).symm
  · rw [if_neg h]
    exact iff_of_false (by rintro ⟨⟩) fun hand => h hand.1

end Primitive

open Primitive in
/-- Equality is symmetric and transitive, relates a value to itself just if nothing unspecified lies
in it at any depth, and relates only values with one written form. On two numbers, symbols, strings,
truth values or lists `equal?` answers with this equality and on others it does not answer, so where
it answers it is symmetric and transitive. -/
theorem equality_is_partial_equivalence :
    (∀ a b : Value, a.same b = true → b.same a = true) ∧
    (∀ a b c : Value, a.same b = true → b.same c = true → a.same c = true) ∧
    (∀ a : Value, a.same a = true ↔ ∀ p, ¬ a.Occurs p .unspecified) ∧
    (∀ a b : Value, a.same b = true → a.render = b.render) ∧
    (∀ a b v, equal.run [a, b] = .ok v ↔
      (a.typeName = b.typeName ∧ a.typeName ∈ comparableTypes) ∧ v = .bool (a.same b)) ∧
    (∀ a b v, equal.run [a, b] = .ok v → equal.run [b, a] = .ok v) ∧
    ∀ a b c, equal.run [a, b] = .ok (.bool true) → equal.run [b, c] = .ok (.bool true) →
      equal.run [a, c] = .ok (.bool true) := by
  refine ⟨?_, ?_, ?_, ?_, ?_, ?_, ?_⟩
  · intro a b h
    rwa [Value.same_comm]
  · intro a b c hab hbc
    exact Value.same_trans hab hbc
  · intro a
    exact Value.same_self_iff_not_occurs
  · intro a b h
    rw [Value.render, Value.render, Value.text_eq_of_same h]
  · intro a b v
    exact run_equal_eq_ok_iff
  · intro a b v h
    obtain ⟨⟨htype, hmem⟩, rfl⟩ := run_equal_eq_ok_iff.1 h
    exact run_equal_eq_ok_iff.2 ⟨⟨htype.symm, htype ▸ hmem⟩, by rw [Value.same_comm]⟩
  · intro a b c hab hbc
    obtain ⟨⟨htype, hmem⟩, hsame⟩ := run_equal_eq_ok_iff.1 hab
    obtain ⟨⟨htype', -⟩, hsame'⟩ := run_equal_eq_ok_iff.1 hbc
    refine run_equal_eq_ok_iff.2 ⟨⟨htype.trans htype', hmem⟩, ?_⟩
    rw [Value.same_trans (Value.bool.inj hsame).symm (Value.bool.inj hsame').symm]

open Primitive in
/-- Builtins under one name are equal whatever they run, and a quotation that holds `unspecified`
in a list is not equal to itself. -/
theorem equality_is_partial_equivalence_of_builtins :
    (Value.list [.builtin "f" (.host "h")]).same (.list [.builtin "f" (.primitive .car)]) = true ∧
    (Value.list [.builtin "f" (.primitive .car)]).same (.list [.builtin "f" (.host "k")]) = true ∧
    (Value.list [.builtin "f" (.primitive .car)]).render =
      (Value.list [.builtin "f" (.host "h")]).render ∧
    equal.run [.list [.builtin "f" (.host "h")], .list [.builtin "f" (.primitive .car)]] =
      .ok (.bool true) ∧
    equal.run [.list [.builtin "f" (.primitive .car)], .list [.builtin "f" (.host "k")]] =
      .ok (.bool true) ∧
    ¬ (Value.op (.form .quote) [.list [.unspecified]]).same
      (.op (.form .quote) [.list [.unspecified]]) = true := by
  obtain ⟨hsymm, htrans, hself, hrender, -, hequal, hchain⟩ := equality_is_partial_equivalence
  have hab : (Value.list [.builtin "f" (.primitive .car)]).same
      (.list [.builtin "f" (.host "h")]) = true := rfl
  have hbc : (Value.list [.builtin "f" (.host "h")]).same
      (.list [.builtin "f" (.host "k")]) = true := rfl
  have hequal_ab : equal.run [.list [.builtin "f" (.primitive .car)],
      .list [.builtin "f" (.host "h")]] = .ok (.bool true) := rfl
  have hequal_bc : equal.run [.list [.builtin "f" (.host "h")],
      .list [.builtin "f" (.host "k")]] = .ok (.bool true) := rfl
  refine ⟨hsymm _ _ hab, htrans _ _ _ hab hbc, hrender _ _ hab, hequal _ _ _ hequal_ab,
    hchain _ _ _ hequal_ab hequal_bc, fun h => ?_⟩
  exact (hself _).1 h 2 ((Value.Occurs.self.operand List.mem_cons_self).element List.mem_cons_self)

end LexicalLisp
