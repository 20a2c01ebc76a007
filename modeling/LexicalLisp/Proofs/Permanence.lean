import LexicalLisp.Proofs.Containment
import LexicalLisp.Proofs.HostEffect

/-!
# Permanent bindings

What is bound stays bound. The value of a variable may change, but neither its kind nor the fact
that it is a variable, and a function stays the same function. Functions gain overloads behind
those that they have, and a scope that has a parent keeps it. Every single update of the store
respects this, so every run of commands does that registers no builtin.
-/
namespace LexicalLisp

namespace Store

/-- What the first store holds for good, the second holds too. -/
structure Permanent (s t : Store) : Prop where
  shape : ∀ d n sh, (s.frame d).shape? n = some sh → (t.frame d).shape? n = some sh
  closure : ∀ (i : Nat) c, s.closures[i]? = some c →
    ∃ more, t.closures[i]? = some { c with overloads := c.overloads ++ more }
  parent : ∀ d p, s.parent? d = some p → t.parent? d = some p

namespace Permanent

variable {s t u : Store}

theorem closure_of_eq (h : ∀ (i : Nat) c, s.closures[i]? = some c → t.closures[i]? = some c) :
    ∀ (i : Nat) c, s.closures[i]? = some c →
      ∃ more, t.closures[i]? = some { c with overloads := c.overloads ++ more } := by
  intro i c hc
  exact ⟨[], by rw [List.append_nil, h i c hc]⟩

theorem refl (s : Store) : Permanent s s where
  shape _ _ _ h := h
  closure := closure_of_eq fun _ _ h => h
  parent _ _ h := h

theorem trans (h : Permanent s t) (h' : Permanent t u) : Permanent s u where
  shape d n sh hsh := h'.shape d n sh (h.shape d n sh hsh)
  closure i c hc := by
    obtain ⟨more, ht⟩ := h.closure i c hc
    obtain ⟨more', hu⟩ := h'.closure i _ ht
    exact ⟨more ++ more', by rw [hu, List.append_assoc]⟩
  parent d p hp := h'.parent d p (h.parent d p hp)

/-! ### Single updates -/

theorem bind {e : EnvRef} {n : String} {b : Binding}
    (hnew : ∀ sh, (s.frame e).shape? n = some sh → b.shape = sh) :
    Permanent s (s.bind e n b) where
  shape _ _ _ hsh := shape?_bind_of_some hnew hsh
  closure := closure_of_eq fun _ _ h => h
  parent d p hp := by rw [parent?_bind, hp]

theorem assign {o : EnvRef} {n : String} {slot : Slot} {v : Value}
    (h : (s.frame o).get? n = some (.slot slot)) :
    Permanent s (s.bind o n (.slot { slot with value := v })) := by
  refine bind fun sh hsh => ?_
  rw [Frame.shape?, h] at hsh
  exact Option.some.inj hsh

theorem push_closure (c : Closure) :
    Permanent s { s with closures := s.closures.push c } where
  shape _ _ _ h := h
  closure := closure_of_eq fun i d hd => by
    have hi : i < s.closures.size := (Array.getElem?_eq_some_iff.1 hd).1
    rw [Array.getElem?_push, if_neg (Nat.ne_of_lt hi), hd]
  parent _ _ h := h

theorem overload (i : Nat) (o : Overload) :
    Permanent s { s with
      closures := s.closures.modify i fun c => { c with overloads := c.overloads ++ [o] } } where
  shape _ _ _ h := h
  closure j c hc := by
    rw [Array.getElem?_modify, hc]
    by_cases hj : i = j
    · exact ⟨[o], if_pos hj⟩
    · exact ⟨[], by rw [if_neg hj, List.append_nil]⟩
  parent _ _ h := h

/-- A new environment has a place where there was none, with nothing bound and no parent. -/
theorem push_environment (env : Environment) :
    Permanent s { s with environments := s.environments.push env } where
  shape d n sh hsh := by
    have hbinds : (s.frame d).binds n = true := by
      rw [← Frame.isSome_shape?, hsh]
      rfl
    rw [frame_push, if_neg (Nat.ne_of_lt (lt_size_of_binds hbinds)), hsh]
  closure := closure_of_eq fun _ _ h => h
  parent d p hp := by
    rw [parent?, Array.getElem?_push, if_neg (Nat.ne_of_lt (lt_size_of_parent? hp))]
    exact hp

/-- Activation gives a parent to a scope that has none. -/
theorem activate {scope parent : EnvRef} {frame : Frame} {body : List Value}
    (h : s.environments[scope]? = some ⟨frame, .scope body none⟩) :
    Permanent s { s with
      environments := s.environments.modify scope fun _ =>
        ⟨frame, .scope body (some parent)⟩ } where
  shape d n sh hsh := by
    rw [← hsh, Store.frame, Store.frame, Array.getElem?_modify]
    by_cases hd : scope = d
    · subst hd
      simp [h]
    · rw [if_neg hd]
  closure := closure_of_eq fun _ _ h => h
  parent d p hp := by
    rw [parent?, Array.getElem?_modify]
    by_cases hd : scope = d
    · subst hd
      rw [parent?, h] at hp
      cases hp
    · rw [if_neg hd]
      exact hp

end Permanent

namespace Permanent

variable {s t : Store} (h : Permanent s t) {d : EnvRef} {n : String}
include h

/-- The name of a function stays the name of that function. -/
theorem function {f : FunctionRef} (hb : (s.frame d).get? n = some (.function f)) :
    (t.frame d).get? n = some (.function f) := by
  have hshape : (s.frame d).shape? n = some (.function f) := by
    rw [Frame.shape?, hb]
    rfl
  obtain ⟨b, hb', hsame⟩ := Option.map_eq_some_iff.1 (h.shape d n _ hshape)
  cases b with
  | slot slot => cases hsame
  | function g => rw [hb', ← Shape.function.inj hsame]

end Permanent
end Store

end LexicalLisp
