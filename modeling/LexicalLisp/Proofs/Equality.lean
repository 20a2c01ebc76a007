import LexicalLisp.Proofs.Data
import LexicalLisp.Value.Equality
import LexicalLisp.Value.Text

/-!
# Laws of equality

Equality of values goes down into lists and operator applications in step, so each of its laws is
one induction on a value and on a sequence of values together. Only `unspecified` breaks
reflexivity, and it does so for every value that it lies in.
-/
namespace LexicalLisp.Value

mutual

theorem same_comm : ∀ v w : Value, v.same w = w.same v
  | .list vs, w => by
    cases w with
    | list ws => rw [same, same, sameAll_comm vs ws]
    | _ => simp only [same]
  | .op o vs, w => by
    cases w with
    | op o' ws => rw [same, same, sameAll_comm vs ws, BEq.comm]
    | _ => simp only [same]
  | .number _, w | .symbol _, w | .string _, w | .bool _, w | .builtin _ _, w | .function _, w => by
    cases w <;> simp only [same, BEq.comm]
  | .unspecified, w => by cases w <;> simp only [same]

theorem sameAll_comm : ∀ vs ws : List Value, sameAll vs ws = sameAll ws vs
  | [], ws => by cases ws <;> rfl
  | v :: vs, ws => by
    cases ws with
    | nil => rfl
    | cons w ws => rw [sameAll, sameAll, same_comm v w, sameAll_comm vs ws]

end

mutual

theorem same_trans :
    ∀ {u v w : Value}, u.same v = true → v.same w = true → u.same w = true
  | .list us, v, w, huv, hvw => by
    cases v with
    | list vs =>
      cases w with
      | list ws =>
        rw [same] at huv hvw ⊢
        exact sameAll_trans huv hvw
      | _ => cases hvw
    | _ => cases huv
  | .op o us, v, w, huv, hvw => by
    cases v with
    | op o' vs =>
      cases w with
      | op o'' ws =>
        rw [same, Bool.and_eq_true] at huv hvw ⊢
        exact ⟨BEq.trans huv.1 hvw.1, sameAll_trans huv.2 hvw.2⟩
      | _ => cases hvw
    | _ => cases huv
  | .number _, v, w, huv, hvw | .symbol _, v, w, huv, hvw | .string _, v, w, huv, hvw
  | .bool _, v, w, huv, hvw | .builtin _ _, v, w, huv, hvw | .function _, v, w, huv, hvw => by
    cases v <;> cases w <;> first | cases huv | cases hvw | exact BEq.trans huv hvw
  | .unspecified, v, w, huv, hvw => by cases v <;> cases huv

theorem sameAll_trans :
    ∀ {us vs ws : List Value}, sameAll us vs = true → sameAll vs ws = true → sameAll us ws = true
  | [], vs, ws, huv, hvw => by
    cases vs with
    | nil => exact hvw
    | cons v vs => cases huv
  | u :: us, vs, ws, huv, hvw => by
    cases vs with
    | nil => cases huv
    | cons v vs =>
      cases ws with
      | nil => cases hvw
      | cons w ws =>
        rw [sameAll, Bool.and_eq_true] at huv hvw ⊢
        exact ⟨same_trans huv.1 hvw.1, sameAll_trans huv.2 hvw.2⟩

end

/-- The value is not the one that a definition returns. -/
def isSpecified : Value → Bool
  | .unspecified => false
  | _ => true

mutual

/-- A value equals itself just if nothing unspecified lies in it. -/
theorem same_self_iff : ∀ {v : Value}, v.same v = true ↔ v.throughout isSpecified = true
  | .list vs => by
    rw [same, sameAll_self_iff, throughout_list_iff]
    exact (and_iff_right rfl).symm
  | .op o vs => by
    rw [same, Bool.and_eq_true, sameAll_self_iff, throughout_op_iff]
    exact and_congr_left fun _ => iff_of_true (beq_self_eq_true o) rfl
  | .number _ | .symbol _ | .string _ | .bool _ | .builtin _ _ | .function _ => by
    simp [same, throughout, isSpecified]
  | .unspecified => by simp [same, throughout, isSpecified]

theorem sameAll_self_iff :
    ∀ {vs : List Value}, sameAll vs vs = true ↔ ∀ v ∈ vs, v.throughout isSpecified = true
  | [] => by simp [sameAll]
  | v :: vs => by
    rw [sameAll, Bool.and_eq_true, same_self_iff, sameAll_self_iff, List.forall_mem_cons]

end

mutual

/-- Equal values are written alike. -/
theorem text_eq_of_same : ∀ {v w : Value}, v.same w = true → v.text = w.text
  | .list [], w, h => by
    cases w with
    | list ws =>
      cases ws with
      | nil => rfl
      | cons w ws => cases h
    | _ => cases h
  | .list (v :: vs), w, h => by
    cases w with
    | list ws =>
      cases ws with
      | nil => cases h
      | cons w ws =>
        rw [same, sameAll, Bool.and_eq_true] at h
        rw [text, text, text_eq_of_same h.1, textTail_eq_of_sameAll h.2]
    | _ => cases h
  | .op o vs, w, h => by
    cases w with
    | op o' ws =>
      rw [same, Bool.and_eq_true] at h
      rw [text, text, eq_of_beq h.1, textTail_eq_of_sameAll h.2]
    | _ => cases h
  | .number _, w, h | .symbol _, w, h | .string _, w, h | .bool _, w, h | .function _, w, h => by
    cases w <;> first | cases h | rw [eq_of_beq h]
  | .builtin _ _, w, h => by
    cases w with
    | builtin id code => rw [text, text, eq_of_beq h]
    | _ => cases h
  | .unspecified, w, h => by cases w <;> cases h

theorem textTail_eq_of_sameAll :
    ∀ {vs ws : List Value}, sameAll vs ws = true → textTail vs = textTail ws
  | [], ws, h => by
    cases ws with
    | nil => rfl
    | cons w ws => cases h
  | v :: vs, ws, h => by
    cases ws with
    | nil => cases h
    | cons w ws =>
      rw [sameAll, Bool.and_eq_true] at h
      rw [textTail, textTail, text_eq_of_same h.1, textTail_eq_of_sameAll h.2]

end

end LexicalLisp.Value
