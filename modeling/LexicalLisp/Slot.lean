import LexicalLisp.Error

/-!
# Slots

A slot holds the value of one variable. Its kind is fixed when it is made, and it
refuses every value that the kind does not admit. A value is replaced where the slot
stands.
-/
namespace LexicalLisp

structure Slot where
  kind : Kind
  value : Value

namespace Slot

/-- Replaces the value where the slot stands. The error names the variable that the slot
belongs to. -/
def replace (owner : Option String) (value : Value) : EStateM Error Slot Unit := do
  let slot ← get
  if slot.kind.admits value then set { slot with value }
  else throw (.type (.slot owner slot.kind value) [])

theorem run_replace (owner : Option String) (value : Value) (slot : Slot) :
    (replace owner value).run slot =
      if slot.kind.admits value then .ok () ⟨slot.kind, value⟩
      else .error (.type (.slot owner slot.kind value) []) slot := by
  by_cases h : slot.kind.admits value = true <;> simp [replace, h]

/-- The slot with another value. -/
def set (slot : Slot) (owner : Option String) (value : Value) : Except Error Slot :=
  match (replace owner value).run slot with
  | .ok () slot => .ok slot
  | .error x _ => .error x

/-- A new slot of that kind. Its value is checked as every later one. -/
def ofValue (kind : Kind) (owner : Option String) (value : Value) : Except Error Slot :=
  set ⟨kind, .unspecified⟩ owner value

theorem ofValue_eq (kind : Kind) (owner : Option String) (value : Value) :
    ofValue kind owner value =
      if kind.admits value then .ok ⟨kind, value⟩
      else .error (.type (.slot owner kind value) []) := by
  rw [ofValue, set, run_replace]
  by_cases h : kind.admits value = true <;> simp [h]

/-- The slot that a symbol declares. -/
def ofSymbol (s : Symbol) (value : Value) : Except Error Slot := ofValue s.kind (some s.name) value

theorem ofValue_eq_ok_iff {kind : Kind} {owner : Option String} {value : Value} {slot : Slot} :
    ofValue kind owner value = .ok slot ↔ kind.admits value = true ∧ slot = ⟨kind, value⟩ := by
  by_cases h : kind.admits value = true
  · simp [ofValue_eq, h, eq_comm]
  · simp [ofValue_eq, h]

theorem ofSymbol_eq_ok_iff {s : Symbol} {value : Value} {slot : Slot} :
    ofSymbol s value = .ok slot ↔ s.kind.admits value = true ∧ slot = ⟨s.kind, value⟩ :=
  ofValue_eq_ok_iff

end Slot
end LexicalLisp
