import LexicalLisp.Store.Basic

/-!
# Operations on environments

Every operation checks before it writes, so one that fails changes nothing.
Defining a name fails if the frame has it already; assigning reaches the nearest
owner of the name and works on the slot where it stands there; defining a function
again adds an overload to it.
-/
namespace LexicalLisp

namespace Environment

/-- Adds an environment to the store. -/
def create (env : Environment) : Action EnvRef :=
  modifyGet fun s => (s.environments.size, { s with environments := s.environments.push env })

@[simp] theorem run_create (env : Environment) (s : Store) :
    env.create.run s =
      .ok s.environments.size { s with environments := s.environments.push env } := rfl

/-- A root that binds nothing. -/
def createRoot : Action EnvRef := create { role := .root }

end Environment

namespace FunctionRef

/-- A new function with one implementation. -/
def create (name : String) (o : Overload) (home : EnvRef) : Action FunctionRef :=
  modifyGet fun s =>
    (⟨name, s.closures.size⟩, { s with closures := s.closures.push ⟨[o], home⟩ })

@[simp] theorem run_create (name : String) (o : Overload) (home : EnvRef) (s : Store) :
    (create name o home).run s =
      .ok ⟨name, s.closures.size⟩ { s with closures := s.closures.push ⟨[o], home⟩ } := rfl

/-- Adds an implementation; it never takes the place of one with its arity. -/
def overload (f : FunctionRef) (o : Overload) : Action Unit := do
  if o.arity ∈ (← get).arities f then
    throw (.evaluation (.overloadExists f.name o.arity) [])
  else
    modify fun s =>
      { s with
        closures := s.closures.modify f.index fun c =>
          { c with overloads := c.overloads ++ [o] } }

theorem run_overload (f : FunctionRef) (o : Overload) (s : Store) :
    (f.overload o).run s =
      if o.arity ∈ s.arities f then
        .error (.evaluation (.overloadExists f.name o.arity) []) s
      else
        .ok () { s with
          closures := s.closures.modify f.index fun c =>
            { c with overloads := c.overloads ++ [o] } } := by
  by_cases h : o.arity ∈ s.arities f <;> simp [overload, h]

/-- The implementation that takes this many arguments. If there is but one and it takes
another number, the error says which. -/
def select (f : FunctionRef) (overloads : List Overload) (given : Nat) :
    Except Error Overload :=
  match overloads.find? (·.arity == given) with
  | some o => .ok o
  | none =>
    match overloads with
    | [only] => .error (.arity only.arity given none)
    | _ => .error (.evaluation (.noOverload f.name given (overloads.map Overload.arity)) [])

end FunctionRef

namespace EnvRef

/-- Declares a variable. -/
def define (e : EnvRef) (name : String) (slot : Slot) : Action Unit := do
  if ((← get).frame e).binds name then throw (.duplicateName name)
  else modify (·.bind e name (.slot slot))

theorem run_define (e : EnvRef) (name : String) (slot : Slot) (s : Store) :
    (e.define name slot).run s =
      if (s.frame e).binds name then .error (.duplicateName name) s
      else .ok () (s.bind e name (.slot slot)) := by
  cases h : (s.frame e).binds name <;> simp [define, h]

/-- Defines a function, or adds an implementation to the one of that name. -/
def defun (e : EnvRef) (name : String) (o : Overload) : Action Unit := do
  match ((← get).frame e).get? name with
  | some (.function f) => f.overload o
  | some (.slot s) => throw (.kindConflict name (Binding.slot s).nature)
  | none =>
    let f ← FunctionRef.create name o e
    modify (·.bind e name (.function f))

theorem run_defun_function {e : EnvRef} {name : String} {f : FunctionRef} {s : Store}
    (h : (s.frame e).get? name = some (.function f)) (o : Overload) :
    (e.defun name o).run s = (f.overload o).run s := by
  simp [defun, h]

theorem run_defun_slot {e : EnvRef} {name : String} {slot : Slot} {s : Store}
    (h : (s.frame e).get? name = some (.slot slot)) (o : Overload) :
    (e.defun name o).run s = .error (.kindConflict name .slot) s := by
  simp [defun, h, Binding.nature]

theorem run_defun_new {e : EnvRef} {name : String} {s : Store}
    (h : (s.frame e).get? name = none) (o : Overload) :
    (e.defun name o).run s =
      .ok () (({ s with closures := s.closures.push ⟨[o], e⟩ } : Store).bind e name
        (.function ⟨name, s.closures.size⟩)) := by
  simp [defun, h]

/-- Works on a variable of the frame where its slot stands. What the work makes of the slot stays
there, also if the work fails. -/
def onSlot (e : EnvRef) (name : String) (work : EStateM Error Slot Unit) : Action Unit := do
  match ((← get).frame e).get? name with
  | none => throw (.unboundVariable name)
  | some (.function f) => throw (.kindConflict name (Binding.function f).nature)
  | some (.slot slot) =>
    match work.run slot with
    | .ok () slot => modify (·.bind e name (.slot slot))
    | .error x slot =>
      modify (·.bind e name (.slot slot))
      throw x

theorem run_onSlot_none {e : EnvRef} {name : String} {s : Store}
    (h : (s.frame e).get? name = none) (work : EStateM Error Slot Unit) :
    (e.onSlot name work).run s = .error (.unboundVariable name) s := by
  simp [onSlot, h]

theorem run_onSlot_function {e : EnvRef} {name : String} {f : FunctionRef} {s : Store}
    (h : (s.frame e).get? name = some (.function f)) (work : EStateM Error Slot Unit) :
    (e.onSlot name work).run s = .error (.kindConflict name .function) s := by
  simp [onSlot, h, Binding.nature]

theorem run_onSlot_slot {e : EnvRef} {name : String} {slot : Slot} {s : Store}
    (h : (s.frame e).get? name = some (.slot slot)) (work : EStateM Error Slot Unit) :
    (e.onSlot name work).run s =
      match work.run slot with
      | .ok () slot => .ok () (s.bind e name (.slot slot))
      | .error x slot => .error x (s.bind e name (.slot slot)) := by
  cases hwork : work.run slot <;> simp [onSlot, h, hwork]

/-- Assigns to the nearest variable of that name. -/
def assign (e : EnvRef) (name : String) (value : Value) : Action Unit := do
  match (← get).owner? name e with
  | none => throw (.unboundVariable name)
  | some owner => owner.onSlot name (Slot.replace (some name) value)

theorem run_assign_none {e : EnvRef} {name : String} {s : Store} (h : s.owner? name e = none)
    (v : Value) : (e.assign name v).run s = .error (.unboundVariable name) s := by
  simp [assign, h]

theorem run_assign_some {e o : EnvRef} {name : String} {s : Store} (h : s.owner? name e = some o)
    (v : Value) :
    (e.assign name v).run s = (o.onSlot name (Slot.replace (some name) v)).run s := by
  simp [assign, h]

theorem run_assign_function {e o : EnvRef} {name : String} {f : FunctionRef} {s : Store}
    (ho : s.owner? name e = some o) (h : (s.frame o).get? name = some (.function f)) (v : Value) :
    (e.assign name v).run s = .error (.kindConflict name .function) s := by
  rw [run_assign_some ho, run_onSlot_function h]

theorem run_assign_slot {e o : EnvRef} {name : String} {slot : Slot} {s : Store}
    (ho : s.owner? name e = some o) (h : (s.frame o).get? name = some (.slot slot)) (v : Value) :
    (e.assign name v).run s =
      if slot.kind.admits v then .ok () (s.bind o name (.slot { slot with value := v }))
      else .error (.type (.slot (some name) slot.kind v) []) s := by
  rw [run_assign_some ho, run_onSlot_slot h, Slot.run_replace]
  by_cases hv : slot.kind.admits v = true
  · simp [hv]
  · -- The refused slot is written back as it was.
    simp [hv, Store.bind_of_get? h]

/-- Binds a builtin under its name, whatever the name was bound to. -/
def register (e : EnvRef) (name : String) (code : Code) : Action Unit :=
  modify (·.bind e name (.slot ⟨.fn, .builtin name code⟩))

@[simp] theorem run_register (e : EnvRef) (name : String) (code : Code) (s : Store) :
    (e.register name code).run s = .ok () (s.bind e name (.slot ⟨.fn, .builtin name code⟩)) := rfl

/-- Installs the parent of a constructed scope. That is done once. -/
def activate (e parent : EnvRef) : Action Unit := do
  match (← get).environments[e]? with
  | some ⟨frame, .scope body none⟩ =>
    modify fun s =>
      { s with environments := s.environments.modify e fun _ => ⟨frame, .scope body (some parent)⟩ }
  | _ => throw (.evaluation .alreadyActive [])

theorem run_activate_constructed {e : EnvRef} {frame : Frame} {body : List Value} {s : Store}
    (h : s.environments[e]? = some ⟨frame, .scope body none⟩) (parent : EnvRef) :
    (e.activate parent).run s =
      .ok () { s with
        environments := s.environments.modify e fun _ => ⟨frame, .scope body (some parent)⟩ } := by
  simp [activate, h]

theorem run_activate_active {e parent : EnvRef} {s : Store} (h : s.parent? e = some parent)
    (other : EnvRef) : (e.activate other).run s = .error (.evaluation .alreadyActive []) s := by
  unfold Store.parent? at h
  cases hs : s.environments[e]? with
  | none => simp [hs] at h
  | some env =>
    obtain ⟨frame, role⟩ := env
    cases role with
    | root => simp [hs, Role.parent?] at h
    | scope body p => cases p <;> simp_all [Role.parent?, activate]

end EnvRef

/-- A root that binds every primitive to its name. -/
def Environment.createGlobal : Action EnvRef := do
  let e ← createRoot
  Primitive.all.forM fun p => e.register p.name (.primitive p)
  return e

end LexicalLisp
