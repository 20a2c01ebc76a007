import Mathlib
import LexicalLisp.Proofs.QuotedText

/-!
# How deep the parts of an expression lie

Every list and every application is one level, for the expression as for the text that it is read
from: the reader reads the elements of a list, and what is quoted, with one level less than the
whole. So what is read within some levels has all its parts at depths below that number, although
applications are compiled and bound names restored on the way.
-/
namespace LexicalLisp

namespace Value

/-- The second value lies so many levels deep in the first. -/
inductive Occurs (v : Value) : Nat → Value → Prop
  | self : Occurs v 0 v
  | element {p : Nat} {vs : List Value} {x : Value} (h : Occurs v p (.list vs)) (hx : x ∈ vs) :
      Occurs v (p + 1) x
  | operand {p : Nat} {o : Operator} {args : List Value} {x : Value}
      (h : Occurs v p (.op o args)) (hx : x ∈ args) : Occurs v (p + 1) x

variable {v x : Value} {p : Nat}

/-- What holds throughout a value holds throughout what lies in it. -/
theorem throughout_of_occurs {q : Value → Bool} (hv : v.throughout q = true) (h : v.Occurs p x) :
    x.throughout q = true := by
  induction h with
  | self => exact hv
  | element _ hx ih => exact (throughout_list_iff.1 ih).2 _ hx
  | operand _ hx ih => exact (throughout_op_iff.1 ih).2 _ hx

theorem nesting_plain_of_mem {vs : List Value} (hx : x ∈ vs) :
    x.plain.nesting + 1 ≤ (list (vs.map plain)).nesting := by
  rw [nesting]
  exact nestingAll_le_iff.1 (Nat.le_refl _) _ (List.mem_map_of_mem hx)

/-- A part lies no deeper than the plain form of the whole is nested. -/
theorem Occurs.add_nesting_le (h : v.Occurs p x) : p + x.plain.nesting ≤ v.plain.nesting := by
  induction h with
  | self => omega
  | @element p vs x _ hx ih =>
    have hlt := nesting_plain_of_mem hx
    rw [plain_list] at ih
    omega
  | @operand p o args x _ hx ih =>
    have hlt := nesting_plain_of_mem hx
    have hhead : (list (args.map plain)).nesting ≤ (op o args).plain.nesting := by
      rw [plain_op, nesting, nesting, nestingAll]
      exact Nat.le_max_right _ _
    omega

end Value

namespace Source

/-- Within some levels only parts at smaller depths are read. -/
theorem lt_of_occurs {levels : Nat} {mode : Mode} {s rest : List Char} {v : Value}
    (h : expression levels mode s = .ok (v, rest)) {p : Nat} {x : Value} (hx : v.Occurs p x) :
    p < levels := by
  have hwritten := written_of_expression ((expression_erases levels mode).ok h)
  cases levels with
  | zero => cases hwritten
  | succ levels =>
    have hnesting := (Value.written_iff.1 hwritten).2
    have hle := hx.add_nesting_le
    omega

end Source
end LexicalLisp
