import LexicalLisp.Proofs.Correspondence

/-!
# Data and compiled code

A value is plain data if no operator application occurs in it, at any depth. What the reader
makes of a quotation should be plain data, and `quotesData` says that it is wherever a value
has a quotation. Primitives take their results out of their arguments or build them from plain
parts, so they make compiled code of nothing.
-/
namespace LexicalLisp.Value

mutual

/-- The test holds of the value and of everything in it. -/
def throughout (p : Value → Bool) : Value → Bool
  | .list elements => p (.list elements) && throughoutAll p elements
  | .op o args => p (.op o args) && throughoutAll p args
  | v => p v

def throughoutAll (p : Value → Bool) : List Value → Bool
  | [] => true
  | v :: vs => throughout p v && throughoutAll p vs

end

variable {p q : Value → Bool}

theorem throughoutAll_iff {vs : List Value} :
    throughoutAll p vs = true ↔ ∀ v ∈ vs, v.throughout p = true := by
  induction vs with
  | nil => simp [throughoutAll]
  | cons v vs ih => simp [throughoutAll, ih]

theorem throughout_list_iff {vs : List Value} :
    (list vs).throughout p = true ↔ p (.list vs) = true ∧ ∀ v ∈ vs, v.throughout p = true := by
  rw [throughout, Bool.and_eq_true, throughoutAll_iff]

theorem throughout_op_iff {o : Operator} {vs : List Value} :
    (op o vs).throughout p = true ↔ p (.op o vs) = true ∧ ∀ v ∈ vs, v.throughout p = true := by
  rw [throughout, Bool.and_eq_true, throughoutAll_iff]

theorem throughout_imp (h : ∀ v, p v = true → q v = true) :
    ∀ {v : Value}, v.throughout p = true → v.throughout q = true
  | .list vs, hv => by
    obtain ⟨hp, hvs⟩ := throughout_list_iff.1 hv
    exact throughout_list_iff.2 ⟨h _ hp, fun u hu => throughout_imp h (hvs u hu)⟩
  | .op o vs, hv => by
    obtain ⟨hp, hvs⟩ := throughout_op_iff.1 hv
    exact throughout_op_iff.2 ⟨h _ hp, fun u hu => throughout_imp h (hvs u hu)⟩
  | .number _, hv | .symbol _, hv | .string _, hv | .bool _, hv => h _ hv
  | .builtin _ _, hv | .function _, hv | .unspecified, hv => h _ hv

end Value

/-- A part of a special form is one of its arguments or the initializer of a binding in one. -/
theorem SpecialForm.mem_parts {f : SpecialForm} {args : List Value} {part : Value}
    (h : part ∈ f.parts args) :
    part ∈ args ∨ ∃ bindings s, Value.list bindings ∈ args ∧
      Value.list [.symbol s, part] ∈ bindings := by
  unfold parts at h
  split at h
  case h_1 => cases h
  case h_2 => exact Or.inl (List.mem_of_mem_tail h)
  case h_3 => exact Or.inl (List.mem_of_mem_tail h)
  case h_4 => exact Or.inl (List.mem_of_mem_tail h)
  case h_5 => exact Or.inl (List.mem_of_mem_tail (List.mem_of_mem_tail h))
  case h_6 bindings body =>
    rcases List.mem_append.1 h with h | h
    · obtain ⟨b, hb, hinit⟩ := List.mem_filterMap.1 h
      unfold Let.initializer? at hinit
      split at hinit
      case h_1 s init =>
        cases hinit
        exact Or.inr ⟨bindings, s, List.mem_cons_self, hb⟩
      case h_2 => cases hinit
    · exact Or.inl (List.mem_cons_of_mem _ h)
  case h_7 => cases h
  case h_8 => exact Or.inl h

namespace Value

variable {p : Value → Bool}

/-- What holds throughout a value holds throughout the parts of it that are evaluated. -/
theorem throughout_of_mem_parts {v part : Value} (h : v.throughout p = true)
    (hpart : part ∈ v.parts) : part.throughout p = true := by
  cases v with
  | list vs => exact (throughout_list_iff.1 h).2 part hpart
  | op o args =>
    have hargs := (throughout_op_iff.1 h).2
    cases o with
    | primitive prim => exact hargs part hpart
    | form f =>
      rcases SpecialForm.mem_parts hpart with hpart | ⟨bindings, s, hlist, hbinding⟩
      · exact hargs part hpart
      · have hbindings := (throughout_list_iff.1 (hargs _ hlist)).2 _ hbinding
        exact (throughout_list_iff.1 hbindings).2 part (by simp)
  | _ => cases hpart

/-- The value is no operator application. -/
def isUncompiled : Value → Bool
  | .op _ _ => false
  | _ => true

/-- No operator application occurs in the value. -/
def isData (v : Value) : Bool := v.throughout isUncompiled

/-- An operator application that quotes something quotes plain data. -/
def quotesOnlyData : Value → Bool
  | .op (.form .quote) args => args.all isData
  | _ => true

/-- Every quotation in the value quotes plain data. -/
def quotesData (v : Value) : Bool := v.throughout quotesOnlyData

/-- The value is no builtin of the host. -/
def isNative : Value → Bool
  | .builtin _ (.host _) => false
  | _ => true

theorem quotesData_of_isData {v : Value} (h : v.isData = true) : v.quotesData = true := by
  refine throughout_imp (fun u hu => ?_) h
  cases u with
  | op o args => cases hu
  | _ => rfl

end Value

/-! ### Primitives -/

namespace Primitive

section Results

variable {args : List Value} {v : Value}

theorem exists_number_of_runAdd (h : runAdd args = .ok v) : ∃ n, v = .number n := by
  obtain ⟨ns, -, h⟩ := exists_of_bind_eq_ok h
  obtain ⟨n, -, h⟩ := exists_of_bind_eq_ok h
  cases h
  exact ⟨n, rfl⟩

theorem exists_number_of_runSub (h : runSub args = .ok v) : ∃ n, v = .number n := by
  obtain ⟨ns, -, h⟩ := exists_of_bind_eq_ok h
  split at h
  case h_1 => cases h
  all_goals
    obtain ⟨m, -, h⟩ := exists_of_bind_eq_ok h
    cases h
    exact ⟨m, rfl⟩

theorem exists_number_of_runMul (h : runMul args = .ok v) : ∃ n, v = .number n := by
  obtain ⟨ns, -, h⟩ := exists_of_bind_eq_ok h
  split at h
  case h_1 => cases h
  case h_2 =>
    obtain ⟨n, -, h⟩ := exists_of_bind_eq_ok h
    cases h
    exact ⟨n, rfl⟩

theorem exists_number_of_extremum {prim : Primitive} {better : Int64 → Int64 → Bool}
    (h : extremum prim better args = .ok v) : ∃ n, v = .number n := by
  obtain ⟨ns, -, h⟩ := exists_of_bind_eq_ok h
  split at h
  case h_1 => cases h
  case h_2 =>
    cases h
    exact ⟨_, rfl⟩

theorem exists_bool_of_compareAll {prim : Primitive} {holds : Int64 → Int64 → Bool}
    (h : compareAll prim holds args = .ok v) : ∃ b, v = .bool b := by
  unfold compareAll at h
  split at h
  case isTrue => cases h
  case isFalse =>
    obtain ⟨ns, -, h⟩ := exists_of_bind_eq_ok h
    cases h
    exact ⟨_, rfl⟩

theorem exists_bool_of_runEqual (h : runEqual args = .ok v) : ∃ b, v = .bool b := by
  unfold runEqual at h
  split at h
  case h_1 =>
    split at h
    case isTrue =>
      cases h
      exact ⟨_, rfl⟩
    case isFalse => cases h
  case h_2 => cases h

theorem exists_bool_of_runNot (h : runNot args = .ok v) : ∃ b, v = .bool b := by
  unfold runNot at h
  split at h
  case h_1 =>
    cases h
    exact ⟨_, rfl⟩
  all_goals cases h

theorem exists_bool_of_runIsNull (h : runIsNull args = .ok v) : ∃ b, v = .bool b := by
  unfold runIsNull at h
  split at h
  case h_1 =>
    cases h
    exact ⟨_, rfl⟩
  case h_2 => cases h

theorem exists_string_of_runStringAppend (h : runStringAppend args = .ok v) :
    ∃ s, v = .string s := by
  obtain ⟨parts, -, h⟩ := exists_of_bind_eq_ok h
  cases h
  exact ⟨_, rfl⟩

theorem exists_list_of_runCar (h : runCar args = .ok v) : ∃ vs, args = [.list (v :: vs)] := by
  unfold runCar at h
  split at h
  case h_2 u us =>
    cases h
    exact ⟨us, rfl⟩
  all_goals cases h

theorem exists_list_of_runCdr (h : runCdr args = .ok v) :
    ∃ u us, args = [.list (u :: us)] ∧ v = .list us := by
  unfold runCdr at h
  split at h
  case h_2 u us =>
    cases h
    exact ⟨u, us, rfl, rfl⟩
  all_goals cases h

theorem exists_list_of_runCons (h : runCons args = .ok v) :
    ∃ u us, args = [u, .list us] ∧ v = .list (u :: us) := by
  unfold runCons at h
  split at h
  case h_1 u us =>
    cases h
    exact ⟨u, us, rfl, rfl⟩
  all_goals cases h

end Results

/-- What holds of numbers, truth values, strings and lists and throughout the arguments of a
primitive holds throughout its result. -/
theorem throughout_of_run {p : Value → Bool} (hnumber : ∀ n, p (.number n) = true)
    (hbool : ∀ b, p (.bool b) = true) (hstring : ∀ s, p (.string s) = true)
    (hlist : ∀ vs, p (.list vs) = true) {prim : Primitive} {args : List Value} {v : Value}
    (hargs : ∀ u ∈ args, u.throughout p = true) (h : prim.run args = .ok v) :
    v.throughout p = true := by
  have ofNumber : (∃ n, v = .number n) → v.throughout p = true := by
    rintro ⟨n, rfl⟩
    exact hnumber n
  have ofBool : (∃ b, v = .bool b) → v.throughout p = true := by
    rintro ⟨b, rfl⟩
    exact hbool b
  cases prim with
  | add => exact ofNumber (exists_number_of_runAdd h)
  | sub => exact ofNumber (exists_number_of_runSub h)
  | mul => exact ofNumber (exists_number_of_runMul h)
  | max | min => exact ofNumber (exists_number_of_extremum h)
  | gt | ge | lt | le | numEq => exact ofBool (exists_bool_of_compareAll h)
  | equal => exact ofBool (exists_bool_of_runEqual h)
  | not => exact ofBool (exists_bool_of_runNot h)
  | isNull => exact ofBool (exists_bool_of_runIsNull h)
  | stringAppend =>
    obtain ⟨s, rfl⟩ := exists_string_of_runStringAppend h
    exact hstring s
  | car =>
    obtain ⟨vs, rfl⟩ := exists_list_of_runCar h
    exact (Value.throughout_list_iff.1 (hargs _ List.mem_cons_self)).2 v List.mem_cons_self
  | cdr =>
    obtain ⟨u, us, rfl, rfl⟩ := exists_list_of_runCdr h
    have hus := (Value.throughout_list_iff.1 (hargs _ List.mem_cons_self)).2
    exact Value.throughout_list_iff.2 ⟨hlist us, fun w hw => hus w (List.mem_cons_of_mem u hw)⟩
  | cons =>
    obtain ⟨u, us, rfl, rfl⟩ := exists_list_of_runCons h
    have hus := (Value.throughout_list_iff.1 (hargs (.list us) (by simp))).2
    refine Value.throughout_list_iff.2 ⟨hlist _, fun w hw => ?_⟩
    rcases List.mem_cons.1 hw with rfl | hw
    · exact hargs w List.mem_cons_self
    · exact hus w hw
  | list =>
    cases h
    exact Value.throughout_list_iff.2 ⟨hlist args, hargs⟩
  | error => cases h

end Primitive
end LexicalLisp
