import Mathlib
import LexicalLisp.Primitive

/-!
# Exact arithmetic

A sum, a difference or a product is computed from the left, one argument after the other, and every
partial result is checked. So the result is the exact one or there is none: where a partial result
does not fit in 64 bits the whole is an overflow, even if a later argument would bring it back. All
arguments are looked at before the first step, and the first that is no number is refused.
-/
namespace LexicalLisp.Primitive

open Numeral

/-! ### Arguments that must be numbers -/

theorem numbers_map (p : Primitive) (ns : List Int64) : numbers p (ns.map .number) = .ok ns := by
  induction ns with
  | nil => rfl
  | cons n ns ih =>
    rw [List.map_cons, numbers, ih]
    rfl

/-- The first argument that is no number is refused, whatever stands behind it. -/
theorem numbers_of_first {v : Value} (hv : ∀ n, v ≠ .number n) (p : Primitive)
    (before : List Int64) (after : List Value) :
    numbers p (before.map .number ++ v :: after) = .error (.type (.notNumber p v) []) := by
  induction before with
  | nil =>
    cases v with
    | number n => exact absurd rfl (hv n)
    | _ => rfl
  | cons n before ih =>
    rw [List.map_cons, List.cons_append, numbers, ih]
    rfl

/-! ### Partial results -/

section Accumulation

variable {combine : Int → Int → Int} {n : Int64} {ns : List Int64}

/-- The exact result of combining the numbers from the left. -/
def combined (combine : Int → Int → Int) (n : Int) (ns : List Int64) : Int :=
  ns.foldl (fun k m => combine k m.toInt) n

/-- Whether the exact result fits after each step. -/
def StaysFit (combine : Int → Int → Int) (n : Int) (ns : List Int64) : Prop :=
  ∀ ms, ms <+: ns → Fits (combined combine n ms)

theorem staysFit_cons_iff {n : Int} {m : Int64} :
    StaysFit combine n (m :: ns) ↔ Fits n ∧ StaysFit combine (combine n m.toInt) ns := by
  constructor
  · intro h
    refine ⟨h [] List.nil_prefix, fun ms hms => ?_⟩
    exact h (m :: ms) (List.cons_prefix_cons.2 ⟨rfl, hms⟩)
  · rintro ⟨hn, h⟩ ms hms
    cases ms with
    | nil => exact hn
    | cons m' ms =>
      obtain ⟨rfl, hrest⟩ := List.cons_prefix_cons.1 hms
      exact h ms hrest

theorem exact_of_fits (operation : Operation) {k : Int} (h : Fits k) :
    exact operation k = .ok (Int64.ofInt k) := by
  rw [exact, fit?, if_pos h]

theorem exact_of_not_fits (operation : Operation) {k : Int} (h : ¬ Fits k) :
    exact operation k = .error (.evaluation (.overflow operation) []) := by
  rw [exact, fit?, if_neg h]

theorem accumulate_of_staysFit (operation : Operation) (h : StaysFit combine n.toInt ns) :
    ∃ k, accumulate operation combine n ns = .ok k ∧ k.toInt = combined combine n.toInt ns := by
  induction ns generalizing n with
  | nil => exact ⟨n, rfl, rfl⟩
  | cons m ns ih =>
    have hrest := (staysFit_cons_iff.1 h).2
    have hstep : Fits (combine n.toInt m.toInt) := hrest [] List.nil_prefix
    -- The next step starts from the number that stands for the exact result.
    rw [← toInt_ofInt_of_fits hstep] at hrest
    obtain ⟨k, hk, htotal⟩ := ih hrest
    refine ⟨k, ?_, ?_⟩
    · rw [accumulate, exact_of_fits operation hstep]
      exact hk
    · rw [htotal, toInt_ofInt_of_fits hstep]
      rfl

theorem accumulate_of_not_staysFit (operation : Operation) (h : ¬ StaysFit combine n.toInt ns) :
    accumulate operation combine n ns = .error (.evaluation (.overflow operation) []) := by
  induction ns generalizing n with
  | nil =>
    refine absurd (fun ms hms => ?_) h
    rw [List.prefix_nil.1 hms]
    exact fits_toInt n
  | cons m ns ih =>
    rw [accumulate]
    by_cases hstep : Fits (combine n.toInt m.toInt)
    · rw [exact_of_fits operation hstep]
      refine ih fun hrest => h (staysFit_cons_iff.2 ⟨fits_toInt n, ?_⟩)
      rwa [toInt_ofInt_of_fits hstep] at hrest
    · rw [exact_of_not_fits operation hstep]
      rfl

end Accumulation

/-! ### Sums, differences and products -/

/-- Combining from the left is one step with all the numbers joined, where two steps are one with
their numbers joined. -/
theorem combined_eq {combine join : Int → Int → Int} {unit : Int}
    (hunit : ∀ n, combine n unit = n)
    (hjoin : ∀ n a k, combine (combine n a) k = combine n (join a k)) (n : Int) (ns : List Int64) :
    combined combine n ns = combine n ((ns.map Int64.toInt).foldr join unit) := by
  induction ns generalizing n with
  | nil => exact (hunit n).symm
  | cons m ns ih =>
    have hstep : combined combine n (m :: ns) = combined combine (combine n m.toInt) ns := rfl
    rw [hstep, ih, hjoin, List.map_cons, List.foldr_cons]

theorem combined_add (n : Int) (ns : List Int64) :
    combined (· + ·) n ns = n + (ns.map Int64.toInt).sum := combined_eq add_zero add_assoc n ns

theorem combined_sub (n : Int) (ns : List Int64) :
    combined (· - ·) n ns = n - (ns.map Int64.toInt).sum := combined_eq sub_zero sub_sub n ns

theorem combined_mul (n : Int) (ns : List Int64) :
    combined (· * ·) n ns = n * (ns.map Int64.toInt).prod := combined_eq mul_one mul_assoc n ns

/-- The outcome of exact arithmetic: the number `total` where everything fits, and nothing but an
overflow of the operation where something does not. -/
structure Computes (outcome : Except Error Value) (operation : Operation) (fit : Prop)
    (total : Int) : Prop where
  ok_iff : ∀ v, outcome = .ok v ↔ fit ∧ ∃ n : Int64, v = .number n ∧ n.toInt = total
  overflow_iff : outcome = .error (.evaluation (.overflow operation) []) ↔ ¬ fit

theorem Computes.intro {x : Except Error Int64} {operation : Operation} {fit : Prop} {total : Int}
    (hok : fit → ∃ n, x = .ok n ∧ n.toInt = total)
    (herror : ¬ fit → x = .error (.evaluation (.overflow operation) [])) :
    Computes (x >>= fun n => pure (.number n)) operation fit total := by
  by_cases hfit : fit
  · obtain ⟨n, rfl, rfl⟩ := hok hfit
    refine ⟨fun v => ⟨?_, ?_⟩, ⟨?_, fun hnot => absurd hfit hnot⟩⟩
    · rintro ⟨⟩
      exact ⟨hfit, n, rfl, rfl⟩
    · rintro ⟨-, m, rfl, hm⟩
      rw [Int64.toInt_inj.1 hm]
      rfl
    · rintro ⟨⟩
  · rw [herror hfit]
    refine ⟨fun v => ⟨?_, fun h => absurd h.1 hfit⟩, ⟨fun _ => hfit, fun _ => rfl⟩⟩
    rintro ⟨⟩

theorem computes_accumulate (operation : Operation) (combine : Int → Int → Int) (n : Int64)
    (ns : List Int64) :
    Computes (accumulate operation combine n ns >>= fun k => pure (.number k)) operation
      (StaysFit combine n.toInt ns) (combined combine n.toInt ns) :=
  Computes.intro (accumulate_of_staysFit operation) (accumulate_of_not_staysFit operation)

theorem computes_add (ns : List Int64) :
    Computes (add.run (ns.map .number)) .addition
      (∀ ms, ms <+: ns → Fits (ms.map Int64.toInt).sum) (ns.map Int64.toInt).sum := by
  have h := computes_accumulate .addition (· + ·) 0 ns
  simp only [StaysFit, combined_add, Int64.toInt_zero, zero_add] at h
  rw [run, runAdd, numbers_map]
  exact h

theorem computes_sub (n m : Int64) (ns : List Int64) :
    Computes (sub.run ((n :: m :: ns).map .number)) .subtraction
      (∀ ms, ms <+: m :: ns → Fits (n.toInt - (ms.map Int64.toInt).sum))
      (n.toInt - ((m :: ns).map Int64.toInt).sum) := by
  have h := computes_accumulate .subtraction (· - ·) n (m :: ns)
  simp only [StaysFit, combined_sub] at h
  rw [run, runSub, numbers_map]
  exact h

theorem computes_neg (n : Int64) :
    Computes (sub.run [.number n]) .negation (Fits (-n.toInt)) (-n.toInt) := by
  refine Computes.intro (x := exact .negation (-n.toInt)) (fun h => ?_) ?_
  · exact ⟨_, exact_of_fits .negation h, toInt_ofInt_of_fits h⟩
  · exact exact_of_not_fits .negation

theorem computes_mul (n : Int64) (ns : List Int64) :
    Computes (mul.run ((n :: ns).map .number)) .multiplication
      (∀ ms, ms <+: n :: ns → Fits (ms.map Int64.toInt).prod)
      ((n :: ns).map Int64.toInt).prod := by
  have h := computes_accumulate .multiplication (· * ·) 1 (n :: ns)
  simp only [StaysFit, combined_mul, Int64.toInt_one, one_mul] at h
  rw [run, runMul, numbers_map]
  exact h

/-- The primitives that compute with numbers. -/
inductive IsArithmetic : Primitive → Prop
  | add : IsArithmetic .add
  | sub : IsArithmetic .sub
  | mul : IsArithmetic .mul

theorem IsArithmetic.run_of_not_number {p : Primitive} (hp : IsArithmetic p) {v : Value}
    (hv : ∀ n, v ≠ .number n) (before : List Int64) (after : List Value) :
    p.run (before.map .number ++ v :: after) = .error (.type (.notNumber p v) []) := by
  have hnumbers := numbers_of_first hv p before after
  cases hp with
  | add =>
    rw [run, runAdd, hnumbers]
    rfl
  | sub =>
    rw [run, runSub, hnumbers]
    rfl
  | mul =>
    rw [run, runMul, hnumbers]
    rfl

/-- The first argument that is no number is refused, whatever would overflow elsewhere. Of numbers
the exact sum, difference, negation or product is computed, if every partial result from the left
fits in 64 bits; if one does not, the operation overflows. -/
theorem arithmetic_is_exact_or_refused :
    (∀ p, IsArithmetic p → ∀ v, (∀ n, v ≠ .number n) → ∀ (before : List Int64) after,
      p.run (before.map .number ++ v :: after) = .error (.type (.notNumber p v) [])) ∧
    (∀ ns : List Int64, Computes (add.run (ns.map .number)) .addition
      (∀ ms, ms <+: ns → Fits (ms.map Int64.toInt).sum) (ns.map Int64.toInt).sum) ∧
    (∀ (n m : Int64) (ns : List Int64), Computes (sub.run ((n :: m :: ns).map .number)) .subtraction
      (∀ ms, ms <+: m :: ns → Fits (n.toInt - (ms.map Int64.toInt).sum))
      (n.toInt - ((m :: ns).map Int64.toInt).sum)) ∧
    (∀ n : Int64, Computes (sub.run [.number n]) .negation (Fits (-n.toInt)) (-n.toInt)) ∧
    ∀ (n : Int64) (ns : List Int64), Computes (mul.run ((n :: ns).map .number)) .multiplication
      (∀ ms, ms <+: n :: ns → Fits (ms.map Int64.toInt).prod)
      ((n :: ns).map Int64.toInt).prod := by
  refine ⟨?_, computes_add, computes_sub, computes_neg, computes_mul⟩
  intro p hp v hv before after
  exact hp.run_of_not_number hv before after

/-- The product leaves 64 bits before the zero is met, the least number has no negation, and the
text at the end is refused although the sum in front of it overflows. -/
theorem arithmetic_is_exact_or_refused_at_the_limits :
    mul.run [.number Int64.maxValue, .number 2, .number 0] =
        .error (.evaluation (.overflow .multiplication) []) ∧
      sub.run [.number Int64.minValue] = .error (.evaluation (.overflow .negation) []) ∧
      sub.run [.number (-1), .number Int64.minValue] = .ok (.number Int64.maxValue) ∧
      add.run [.number Int64.maxValue, .number 1, .string "x", .bool true] =
        .error (.type (.notNumber .add (.string "x")) []) := by
  obtain ⟨htype, -, hsub, hneg, hmul⟩ := arithmetic_is_exact_or_refused
  refine ⟨?_, ?_, ?_, ?_⟩
  · refine (hmul Int64.maxValue [2, 0]).overflow_iff.2 fun h => ?_
    exact absurd (h [Int64.maxValue, 2] ⟨[0], rfl⟩) (by decide)
  · exact (hneg Int64.minValue).overflow_iff.2 (by decide)
  · refine ((hsub (-1) Int64.minValue []).ok_iff _).2 ⟨fun ms hms => ?_, Int64.maxValue, rfl, rfl⟩
    rcases ms with _ | ⟨m, ms⟩
    · decide
    · obtain ⟨rfl, hrest⟩ := List.cons_prefix_cons.1 hms
      rw [List.prefix_nil.1 hrest]
      decide
  · exact htype .add .add (.string "x") (by rintro n ⟨⟩) [Int64.maxValue, 1] [.bool true]

end LexicalLisp.Primitive
