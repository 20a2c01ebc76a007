import Mathlib.Logic.Function.Basic
import LexicalLisp.Evaluation.Application

/-!
# Renaming function handles

A handle on a function is a number, and nothing but equality is ever asked of it. If handles are
renamed, different ones staying different, then primitives give the renamed results on the renamed
arguments, and frames and slots hold the renamed values.
-/
namespace LexicalLisp

/-! ### What holds handles -/

def FunctionRef.rename (σ : Nat → Nat) (f : FunctionRef) : FunctionRef :=
  { f with index := σ f.index }

theorem FunctionRef.rename_injective {σ : Nat → Nat} (hσ : Function.Injective σ) :
    Function.Injective (FunctionRef.rename σ) := by
  rintro ⟨n, i⟩ ⟨m, j⟩ h
  obtain ⟨rfl, hindex⟩ := FunctionRef.mk.inj h
  cases hσ hindex
  rfl

namespace Value

mutual

/-- The value with all its function handles renamed. -/
def rename (σ : Nat → Nat) : Value → Value
  | .list vs => .list (renameAll σ vs)
  | .op o args => .op o (renameAll σ args)
  | .function f => .function (f.rename σ)
  | v => v

def renameAll (σ : Nat → Nat) : List Value → List Value
  | [] => []
  | v :: vs => rename σ v :: renameAll σ vs

end

section

variable (σ : Nat → Nat)

theorem renameAll_eq_map (vs : List Value) : renameAll σ vs = vs.map (rename σ) := by
  induction vs with
  | nil => rfl
  | cons v vs ih => simp [renameAll, ih]

@[simp] theorem rename_list (vs : List Value) : (list vs).rename σ = .list (vs.map (rename σ)) := by
  rw [rename, renameAll_eq_map]

@[simp] theorem rename_op (o : Operator) (args : List Value) :
    (op o args).rename σ = .op o (args.map (rename σ)) := by
  rw [rename, renameAll_eq_map]

@[simp] theorem rename_function (f : FunctionRef) :
    (function f).rename σ = .function (f.rename σ) := rfl

@[simp] theorem rename_number (n : Int64) : (number n).rename σ = .number n := rfl

@[simp] theorem rename_symbol (s : Symbol) : (symbol s).rename σ = .symbol s := rfl

@[simp] theorem rename_string (s : String) : (string s).rename σ = .string s := rfl

@[simp] theorem rename_bool (b : Bool) : (bool b).rename σ = .bool b := rfl

@[simp] theorem rename_builtin (id : String) (c : Code) :
    (builtin id c).rename σ = .builtin id c := rfl

@[simp] theorem rename_unspecified : unspecified.rename σ = .unspecified := rfl

@[simp] theorem rename_nil : nil.rename σ = .nil := rfl

@[simp] theorem isNil_rename (v : Value) : (v.rename σ).isNil = v.isNil := by
  cases v with
  | list vs => cases vs <;> simp [isNil]
  | _ => simp [isNil]

@[simp] theorem isBuiltin_rename (id : String) (v : Value) :
    (v.rename σ).isBuiltin id = v.isBuiltin id := by
  cases v <;> simp [isBuiltin]

mutual

/-- Handles do not show in the written form. -/
theorem text_rename : ∀ v : Value, (v.rename σ).text = v.text
  | .list [] => rfl
  | .list (v :: vs) => by
    simp only [rename, renameAll, text, text_rename v, textTail_renameAll vs]
  | .op o args => by simp only [rename, text, textTail_renameAll args]
  | .function f => by simp only [rename, text, FunctionRef.rename]
  | .number _ | .symbol _ | .string _ | .bool _ | .builtin _ _ | .unspecified => by
    simp only [rename]

theorem textTail_renameAll : ∀ vs : List Value, textTail (renameAll σ vs) = textTail vs
  | [] => rfl
  | v :: vs => by simp only [renameAll, textTail, text_rename v, textTail_renameAll vs]

end

end

mutual

/-- Renamed handles are the same as often as the handles are. -/
theorem same_rename {σ : Nat → Nat} (hσ : Function.Injective σ) :
    ∀ v w : Value, (v.rename σ).same (w.rename σ) = v.same w
  | .list vs, w => by
    cases w with
    | list ws => simp only [rename, same, sameAll_renameAll hσ vs ws]
    | _ => simp only [rename, same]
  | .op o vs, w => by
    cases w with
    | op o' ws => simp only [rename, same, sameAll_renameAll hσ vs ws]
    | _ => simp only [rename, same]
  | .function f, w => by
    cases w with
    | function g =>
      rw [rename, rename, same, same, Bool.eq_iff_iff, beq_iff_eq, beq_iff_eq]
      exact (FunctionRef.rename_injective hσ).eq_iff
    | _ => simp only [rename, same]
  | .number _, w | .symbol _, w | .string _, w | .bool _, w | .builtin _ _, w
  | .unspecified, w => by cases w <;> simp only [rename, same]

theorem sameAll_renameAll {σ : Nat → Nat} (hσ : Function.Injective σ) :
    ∀ vs ws : List Value, sameAll (renameAll σ vs) (renameAll σ ws) = sameAll vs ws
  | [], ws => by cases ws <;> rfl
  | v :: vs, ws => by
    cases ws with
    | nil => rfl
    | cons w ws => simp only [renameAll, sameAll, same_rename hσ v w, sameAll_renameAll hσ vs ws]

end

end Value

namespace Kind

@[simp] theorem admits_rename (σ : Nat → Nat) (k : Kind) (v : Value) :
    k.admits (v.rename σ) = k.admits v := by
  cases k <;> cases v <;> simp [admits]

end Kind

/-! ### Errors -/

def TypeFault.rename (σ : Nat → Nat) : TypeFault → TypeFault
  | .notApplicable v => .notApplicable (v.rename σ)
  | .notNumber p v => .notNumber p (v.rename σ)
  | .notList p v => .notList p (v.rename σ)
  | .notString v => .notString (v.rename σ)
  | .incomparable v w => .incomparable (v.rename σ) (w.rename σ)
  | .slot owner kind v => .slot owner kind (v.rename σ)
  | fault => fault

def ShapeFault.rename (σ : Nat → Nat) : ShapeFault → ShapeFault
  | .noBindings => .noBindings
  | .notBindings v => .notBindings (v.rename σ)
  | .notBinding v => .notBinding (v.rename σ)

def Note.rename (σ : Nat → Nat) : Note → Note
  | .evaluating expr => .evaluating (expr.rename σ)
  | .inFunction name => .inFunction name

def Error.rename (σ : Nat → Nat) : Error → Error
  | .evaluation fault trail => .evaluation fault (trail.map (Note.rename σ))
  | .type fault trail => .type (fault.rename σ) (trail.map (Note.rename σ))
  | .arity expected given expression => .arity expected given (expression.map (Value.rename σ))
  | .malformed fault => .malformed (fault.rename σ)
  | x => x

theorem Error.rename_note (σ : Nat → Nat) (line : Note) (x : Error) :
    (x.note line).rename σ = (x.rename σ).note (line.rename σ) := by
  cases x <;> simp [note, rename]

section Message

variable (σ : Nat → Nat)

theorem Value.toString_rename (v : Value) : toString (v.rename σ) = toString v :=
  congrArg String.ofList (text_rename σ v)

theorem Value.typeName_rename (v : Value) : (v.rename σ).typeName = v.typeName := by
  cases v <;> simp [typeName]

theorem TypeFault.message_rename (fault : TypeFault) :
    (fault.rename σ).message = fault.message := by
  cases fault with
  | notApplicable v | notString v | notNumber p v | notList p v | slot owner kind v =>
    unfold rename message
    dsimp only
    simp only [Value.toString_rename, Value.typeName_rename]
  | incomparable v w =>
    unfold rename message
    dsimp only
    rw [Value.typeName_rename, Value.typeName_rename]
  | _ => rfl

theorem ShapeFault.message_rename (fault : ShapeFault) :
    (fault.rename σ).message = fault.message := by
  cases fault with
  | noBindings => rfl
  | notBindings v | notBinding v =>
    unfold rename message
    dsimp only
    rw [Value.toString_rename]

theorem Note.message_rename (line : Note) : (line.rename σ).message = line.message := by
  cases line with
  | evaluating expr =>
    unfold rename message
    dsimp only
    rw [Value.toString_rename]
  | inFunction name => rfl

theorem Note.trailMessage_rename (trail : List Note) :
    trailMessage (trail.map (Note.rename σ)) = trailMessage trail := by
  have hmessage : message ∘ Note.rename σ = message := funext (message_rename σ)
  rw [trailMessage, List.map_map, hmessage, trailMessage]

/-- Handles do not show in the text of an error. -/
theorem Error.message_rename (x : Error) : (x.rename σ).message = x.message := by
  cases x with
  | evaluation fault trail =>
    unfold rename message
    dsimp only
    rw [Note.trailMessage_rename]
  | type fault trail =>
    unfold rename message
    dsimp only
    rw [Note.trailMessage_rename, TypeFault.message_rename]
  | arity expected given expression =>
    cases expression with
    | none => rfl
    | some v =>
      unfold rename message
      dsimp only [Option.map_some]
      rw [Value.toString_rename]
  | malformed fault =>
    unfold rename message
    dsimp only
    rw [ShapeFault.message_rename]
  | _ => rfl

end Message

/-- The outcome of a check with all handles renamed; `f` renames what the check gives. -/
def renamed {α β : Type} (σ : Nat → Nat) (f : α → β) : Except Error α → Except Error β
  | .ok a => .ok (f a)
  | .error x => .error (x.rename σ)

section Renamed

variable {α β α' β' : Type} {σ : Nat → Nat}

@[simp] theorem renamed_ok (f : α → β) (a : α) : renamed σ f (.ok a) = .ok (f a) := rfl

@[simp] theorem renamed_error (f : α → β) (x : Error) :
    renamed σ f (.error x) = .error (x.rename σ) := rfl

theorem renamed_bind {f : α → α'} {g : β → β'} {x : Except Error α} {k : α → Except Error β}
    {k' : α' → Except Error β'} (h : ∀ a, renamed σ g (k a) = k' (f a)) :
    renamed σ g (x >>= k) = renamed σ f x >>= k' := by
  cases x with
  | ok a => exact h a
  | error x => rfl

/-- The check gives something without handles. -/
theorem renamed_id_bind {g : β → β'} {x : Except Error α} {k : α → Except Error β}
    {k' : α → Except Error β'} (h : ∀ a, renamed σ g (k a) = k' a) :
    renamed σ g (x >>= k) = renamed σ id x >>= k' := renamed_bind h

end Renamed

/-! ### Primitives -/

namespace Primitive

variable {σ : Nat → Nat}

theorem numbers_rename (p : Primitive) (args : List Value) :
    p.numbers (args.map (Value.rename σ)) = renamed σ id (p.numbers args) := by
  induction args with
  | nil => rfl
  | cons v args ih =>
    cases v with
    | number n =>
      simp only [List.map_cons, Value.rename_number, numbers, ih]
      cases p.numbers args <;> rfl
    | _ => simp [numbers, Error.rename, TypeFault.rename]

theorem strings_rename (args : List Value) :
    strings (args.map (Value.rename σ)) = renamed σ id (strings args) := by
  induction args with
  | nil => rfl
  | cons v args ih =>
    cases v with
    | string s =>
      simp only [List.map_cons, Value.rename_string, strings, ih]
      cases strings args <;> rfl
    | _ => simp [strings, Error.rename, TypeFault.rename]

theorem refuseCount_rename (n : Nat) (args : List Value) :
    refuseCount n (args.map (Value.rename σ)) =
      renamed σ (Value.rename σ) (refuseCount n args) := by
  simp [refuseCount, Error.rename]

/-- Overflow is no matter of handles. -/
theorem renamed_exact (operation : Operation) (n : Int) :
    renamed σ id (exact operation n) = exact operation n := by
  unfold exact
  split <;> rfl

theorem renamed_accumulate (operation : Operation) (combine : Int → Int → Int) (n : Int64)
    (ns : List Int64) :
    renamed σ id (accumulate operation combine n ns) = accumulate operation combine n ns := by
  induction ns generalizing n with
  | nil => rfl
  | cons m ns ih =>
    rw [accumulate, renamed_id_bind ih, renamed_exact]

/-- A number that is computed from numbers. -/
theorem renamed_number {x : Except Error Int64} (hx : renamed σ id x = x) :
    renamed σ (Value.rename σ) (x >>= fun n => pure (.number n)) =
      x >>= fun n => pure (.number n) := by
  cases x with
  | ok n => rfl
  | error e =>
    have he : e.rename σ = e := Except.error.inj hx
    exact congrArg Except.error he

theorem runAdd_rename (args : List Value) :
    runAdd (args.map (Value.rename σ)) = renamed σ (Value.rename σ) (runAdd args) := by
  unfold runAdd
  rw [numbers_rename]
  exact (renamed_id_bind fun ns => renamed_number (renamed_accumulate _ _ _ ns)).symm

theorem runSub_rename (args : List Value) :
    runSub (args.map (Value.rename σ)) = renamed σ (Value.rename σ) (runSub args) := by
  unfold runSub
  rw [numbers_rename]
  refine (renamed_id_bind fun ns => ?_).symm
  match ns with
  | [] => rfl
  | [n] => exact renamed_number (renamed_exact _ _)
  | n :: m :: ns => exact renamed_number (renamed_accumulate _ _ _ _)

theorem runMul_rename (args : List Value) :
    runMul (args.map (Value.rename σ)) = renamed σ (Value.rename σ) (runMul args) := by
  unfold runMul
  rw [numbers_rename]
  refine (renamed_id_bind fun ns => ?_).symm
  match ns with
  | [] => rfl
  | n :: ns => exact renamed_number (renamed_accumulate _ _ _ _)

theorem compareAll_rename (p : Primitive) (r : Int64 → Int64 → Bool) (args : List Value) :
    compareAll p r (args.map (Value.rename σ)) =
      renamed σ (Value.rename σ) (compareAll p r args) := by
  unfold compareAll
  rw [List.length_map, numbers_rename]
  split
  · exact refuseCount_rename 2 args
  · refine (renamed_id_bind fun ns => ?_).symm
    rfl

theorem extremum_rename (p : Primitive) (better : Int64 → Int64 → Bool) (args : List Value) :
    extremum p better (args.map (Value.rename σ)) =
      renamed σ (Value.rename σ) (extremum p better args) := by
  unfold extremum
  rw [numbers_rename]
  refine (renamed_id_bind fun ns => ?_).symm
  cases ns <;> rfl

theorem runNot_rename (args : List Value) :
    runNot (args.map (Value.rename σ)) = renamed σ (Value.rename σ) (runNot args) := by
  match args with
  | [v] => cases v <;> simp [runNot, Error.rename, TypeFault.rename]
  | [] => exact refuseCount_rename 1 []
  | v :: w :: rest => simp [runNot, refuseCount, Error.rename]

theorem runCar_rename (args : List Value) :
    runCar (args.map (Value.rename σ)) = renamed σ (Value.rename σ) (runCar args) := by
  match args with
  | [.list []] => rfl
  | [.list (v :: vs)] => simp [runCar]
  | [.number _] | [.symbol _] | [.string _] | [.bool _] | [.builtin _ _] | [.function _]
  | [.unspecified] => rfl
  | [.op o vs] => simp [runCar, Error.rename, TypeFault.rename]
  | [] => exact refuseCount_rename 1 []
  | v :: w :: rest => simp [runCar, refuseCount, Error.rename]

theorem runCdr_rename (args : List Value) :
    runCdr (args.map (Value.rename σ)) = renamed σ (Value.rename σ) (runCdr args) := by
  match args with
  | [.list []] => rfl
  | [.list (v :: vs)] => simp [runCdr]
  | [.number _] | [.symbol _] | [.string _] | [.bool _] | [.builtin _ _] | [.function _]
  | [.unspecified] => rfl
  | [.op o vs] => simp [runCdr, Error.rename, TypeFault.rename]
  | [] => exact refuseCount_rename 1 []
  | v :: w :: rest => simp [runCdr, refuseCount, Error.rename]

theorem runCons_rename (args : List Value) :
    runCons (args.map (Value.rename σ)) = renamed σ (Value.rename σ) (runCons args) := by
  match args with
  | [v, w] => cases w <;> simp [runCons, Error.rename, TypeFault.rename]
  | [] => exact refuseCount_rename 2 []
  | [v] => exact refuseCount_rename 2 [v]
  | u :: v :: w :: rest => simp [runCons, refuseCount, Error.rename]

theorem runIsNull_rename (args : List Value) :
    runIsNull (args.map (Value.rename σ)) = renamed σ (Value.rename σ) (runIsNull args) := by
  match args with
  | [v] => simp [runIsNull]
  | [] => exact refuseCount_rename 1 []
  | v :: w :: rest => simp [runIsNull, refuseCount, Error.rename]

theorem comparable_rename (v w : Value) :
    comparable (v.rename σ) (w.rename σ) = comparable v w := by
  cases v <;> cases w <;> simp [comparable]

theorem runEqual_rename (hσ : Function.Injective σ) (args : List Value) :
    runEqual (args.map (Value.rename σ)) = renamed σ (Value.rename σ) (runEqual args) := by
  match args with
  | [v, w] =>
    simp only [List.map_cons, List.map_nil, runEqual, comparable_rename,
      Value.same_rename hσ v w]
    split <;> rfl
  | [] => exact refuseCount_rename 2 []
  | [v] => exact refuseCount_rename 2 [v]
  | u :: v :: w :: rest => simp [runEqual, refuseCount, Error.rename]

theorem runStringAppend_rename (args : List Value) :
    runStringAppend (args.map (Value.rename σ)) =
      renamed σ (Value.rename σ) (runStringAppend args) := by
  unfold runStringAppend
  rw [strings_rename]
  refine (renamed_id_bind fun parts => ?_).symm
  rfl

theorem spoken_rename (v : Value) : spoken (v.rename σ) = spoken v := by
  have hrender : (v.rename σ).render = v.render := congrArg String.ofList (v.text_rename σ)
  cases v <;> first | rfl | exact hrender

theorem runError_rename (args : List Value) :
    runError (args.map (Value.rename σ)) = renamed σ (Value.rename σ) (runError args) := by
  have hspoken : spoken ∘ Value.rename σ = spoken := funext spoken_rename
  simp [runError, hspoken, Error.rename]

/-- A primitive gives the renamed result on renamed arguments. -/
theorem run_rename (hσ : Function.Injective σ) (p : Primitive) (args : List Value) :
    p.run (args.map (Value.rename σ)) = renamed σ (Value.rename σ) (p.run args) := by
  cases p with
  | add => exact runAdd_rename args
  | sub => exact runSub_rename args
  | mul => exact runMul_rename args
  | gt | ge | lt | le | numEq => exact compareAll_rename _ _ args
  | equal => exact runEqual_rename hσ args
  | not => exact runNot_rename args
  | car => exact runCar_rename args
  | cdr => exact runCdr_rename args
  | cons => exact runCons_rename args
  | list => exact congrArg Except.ok (Value.rename_list σ args).symm
  | isNull => exact runIsNull_rename args
  | stringAppend => exact runStringAppend_rename args
  | max | min => exact extremum_rename _ _ args
  | error => exact runError_rename args

end Primitive

/-- The functions of the host do not see what number a handle is. -/
def Host.Uniform (host : Host) : Prop :=
  ∀ (σ : Nat → Nat), Function.Injective σ → ∀ name args,
    host name (args.map (Value.rename σ)) = renamed σ (Value.rename σ) (host name args)

theorem Code.run_rename {host : Host} (hhost : host.Uniform) {σ : Nat → Nat}
    (hσ : Function.Injective σ) (c : Code) (args : List Value) :
    c.run host (args.map (Value.rename σ)) = renamed σ (Value.rename σ) (c.run host args) := by
  cases c with
  | primitive p => exact p.run_rename hσ args
  | host name => exact hhost σ hσ name args

/-! ### Slots and frames -/

def Slot.rename (σ : Nat → Nat) (slot : Slot) : Slot := { slot with value := slot.value.rename σ }

theorem Slot.ofSymbol_rename (σ : Nat → Nat) (s : Symbol) (v : Value) :
    ofSymbol s (v.rename σ) = renamed σ (Slot.rename σ) (ofSymbol s v) := by
  simp only [ofSymbol, ofValue_eq, Kind.admits_rename]
  split <;> rfl

def Binding.rename (σ : Nat → Nat) : Binding → Binding
  | .slot s => .slot (s.rename σ)
  | .function f => .function (f.rename σ)

@[simp] theorem Binding.value_rename (σ : Nat → Nat) (b : Binding) :
    (b.rename σ).value = b.value.rename σ := by
  cases b <;> rfl

namespace Frame

def rename (σ : Nat → Nat) (f : Frame) : Frame :=
  ⟨f.entries.map fun (n, b) => (n, b.rename σ)⟩

variable (σ : Nat → Nat)

@[simp] theorem rename_empty : rename σ {} = {} := rfl

@[simp] theorem get?_rename (f : Frame) (name : String) :
    (f.rename σ).get? name = (f.get? name).map (Binding.rename σ) := by
  obtain ⟨entries⟩ := f
  unfold get? rename
  induction entries with
  | nil => rfl
  | cons entry entries ih =>
    simp only [List.map_cons, find?, ih]
    split <;> rfl

@[simp] theorem binds_rename (f : Frame) (name : String) :
    (f.rename σ).binds name = f.binds name := by
  simp [binds]

@[simp] theorem put_rename (f : Frame) (name : String) (b : Binding) :
    (f.rename σ).put name (b.rename σ) = (f.put name b).rename σ := by
  obtain ⟨entries⟩ := f
  unfold put rename
  congr 1
  induction entries with
  | nil => rfl
  | cons entry entries ih =>
    simp only [List.map_cons, replace, ih]
    split <;> rfl

theorem declare_rename (f : Frame) (s : Symbol) (v : Value) :
    (f.rename σ).declare s (v.rename σ) = renamed σ (rename σ) (f.declare s v) := by
  unfold declare
  rw [Slot.ofSymbol_rename, binds_rename]
  refine (renamed_bind fun slot => ?_).symm
  split
  · rfl
  · exact congrArg Except.ok (put_rename σ f s.name (.slot slot)).symm

theorem declareAll_rename (f : Frame) (ps : List Symbol) (vs : List Value) :
    (f.rename σ).declareAll ps (vs.map (Value.rename σ)) =
      renamed σ (rename σ) (f.declareAll ps vs) := by
  induction ps generalizing f vs with
  | nil => rfl
  | cons p ps ih =>
    cases vs with
    | nil => rfl
    | cons v vs =>
      rw [List.map_cons, declareAll, declareAll, declare_rename]
      exact (renamed_bind fun g => (ih g vs).symm).symm

end Frame
end LexicalLisp
