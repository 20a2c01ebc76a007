import LexicalLisp.Slot

/-!
# Frames

A frame maps names to bindings. A binding is the slot of a variable or a handle
on an overloaded function.
-/
namespace LexicalLisp

inductive Binding where
  | slot (s : Slot)
  | function (f : FunctionRef)

namespace Binding

def value : Binding → Value
  | .slot s => s.value
  | .function f => .function f

def nature : Binding → Nature
  | .slot _ => .slot
  | .function _ => .function

end Binding

/-- Names and what they are bound to; no name occurs twice in a frame built by `put`. -/
structure Frame where
  entries : List (String × Binding) := []

namespace Frame

def find? (entries : List (String × Binding)) (name : String) : Option Binding :=
  match entries with
  | [] => none
  | (n, b) :: rest => if n = name then some b else find? rest name

def get? (f : Frame) (name : String) : Option Binding := find? f.entries name

def binds (f : Frame) (name : String) : Bool := (f.get? name).isSome

/-- Binds the name in place of what it was bound to, or as the last entry. -/
def replace (entries : List (String × Binding)) (name : String) (b : Binding) :
    List (String × Binding) :=
  match entries with
  | [] => [(name, b)]
  | (n, c) :: rest => if n = name then (n, b) :: rest else (n, c) :: replace rest name b

def put (f : Frame) (name : String) (b : Binding) : Frame := ⟨replace f.entries name b⟩

/-- Declares a variable for a symbol. Its value is checked before its name is. -/
def declare (f : Frame) (s : Symbol) (value : Value) : Except Error Frame := do
  let slot ← Slot.ofSymbol s value
  if f.binds s.name then .error (.duplicateName s.name) else .ok (f.put s.name (.slot slot))

/-- The entries in the order of their names' code points. -/
def sorted (f : Frame) : List (String × Binding) :=
  f.entries.mergeSort fun x y => decide (¬ y.1 < x.1)

def names (f : Frame) : List String := f.sorted.map (·.1)

@[simp] theorem get?_empty (name : String) : get? {} name = none := rfl

theorem find?_replace (entries : List (String × Binding)) (name other : String) (b : Binding) :
    find? (replace entries name b) other = if name = other then some b else find? entries other := by
  induction entries with
  | nil => simp [replace, find?]
  | cons e rest ih =>
    obtain ⟨n, c⟩ := e
    unfold replace
    split
    case isTrue h => subst h; simp only [find?]; split <;> rfl
    case isFalse h =>
      simp only [find?, ih]
      split
      case isTrue h' => subst h'; simp [Ne.symm h]
      case isFalse => rfl

@[simp] theorem get?_put (f : Frame) (name other : String) (b : Binding) :
    (f.put name b).get? other = if name = other then some b else f.get? other :=
  find?_replace f.entries name other b

theorem replace_of_find? {entries : List (String × Binding)} {name : String} {b : Binding}
    (h : find? entries name = some b) : replace entries name b = entries := by
  induction entries with
  | nil => cases h
  | cons e rest ih =>
    obtain ⟨n, c⟩ := e
    by_cases hn : n = name
    · simp_all [find?, replace]
    · simp_all [find?, replace]

/-- Binding a name to what it is bound to changes nothing. -/
theorem put_of_get? {f : Frame} {name : String} {b : Binding} (h : f.get? name = some b) :
    f.put name b = f := by
  rw [put, replace_of_find? h]

theorem mem_of_get? {f : Frame} {name : String} {b : Binding} (h : f.get? name = some b) :
    (name, b) ∈ f.entries := by
  obtain ⟨entries⟩ := f
  unfold get? at h
  induction entries with
  | nil => cases h
  | cons e rest ih =>
    obtain ⟨n, c⟩ := e
    rw [find?] at h
    split at h
    case isTrue hn =>
      cases h
      exact hn ▸ List.mem_cons_self
    case isFalse => exact List.mem_cons_of_mem _ (ih h)

theorem mem_put {f : Frame} {name : String} {b : Binding} {entry : String × Binding}
    (h : entry ∈ (f.put name b).entries) : entry = (name, b) ∨ entry ∈ f.entries := by
  obtain ⟨entries⟩ := f
  unfold put at h
  induction entries with
  | nil => exact Or.inl (List.mem_singleton.1 h)
  | cons e rest ih =>
    obtain ⟨n, c⟩ := e
    simp only [replace] at h
    split at h
    case isTrue hn =>
      rcases List.mem_cons.1 h with rfl | h
      · exact Or.inl (hn ▸ rfl)
      · exact Or.inr (List.mem_cons_of_mem _ h)
    case isFalse =>
      rcases List.mem_cons.1 h with rfl | h
      · exact Or.inr List.mem_cons_self
      · exact (ih h).imp_right (List.mem_cons_of_mem _)

theorem declare_eq_ok_iff {f g : Frame} {s : Symbol} {value : Value} :
    f.declare s value = .ok g ↔
      s.kind.admits value = true ∧ f.binds s.name = false ∧
        g = f.put s.name (.slot ⟨s.kind, value⟩) := by
  by_cases hk : s.kind.admits value = true
  · have hs : Slot.ofSymbol s value = .ok ⟨s.kind, value⟩ := Slot.ofSymbol_eq_ok_iff.2 ⟨hk, rfl⟩
    cases hb : f.binds s.name <;> simp [declare, hs, hb, hk, bind, Except.bind, eq_comm]
  · simp [declare, Slot.ofSymbol, Slot.ofValue_eq, hk, bind, Except.bind]

end Frame
end LexicalLisp
