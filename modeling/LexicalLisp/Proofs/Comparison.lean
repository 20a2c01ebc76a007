import Mathlib
import LexicalLisp.Proofs.Arithmetic

/-!
# Comparisons and extrema

A comparison of several numbers looks at neighbours only. Each of the five relations is transitive,
so it then holds between any two of the numbers, the earlier on the left. The greatest and the least
number win against all the others wherever they stand, so their order does not matter.
-/
namespace LexicalLisp.Primitive

/-! ### Chained comparisons -/

/-- The relation that a comparison checks. -/
inductive Checks : Primitive → (Int → Int → Prop) → Prop
  | gt : Checks .gt (· > ·)
  | ge : Checks .ge (· ≥ ·)
  | lt : Checks .lt (· < ·)
  | le : Checks .le (· ≤ ·)
  | numEq : Checks .numEq (· = ·)

section Chained

variable {p : Primitive} {r : Int64 → Int64 → Bool} {R : Int → Int → Prop}

theorem chained_iff_isChain (ns : List Int64) :
    chained r ns = true ↔ ns.IsChain fun a b => r a b = true := by
  induction ns with
  | nil => simp [chained]
  | cons a ns ih =>
    cases ns with
    | nil => simp [chained]
    | cons b ns => rw [chained, Bool.and_eq_true, List.isChain_cons_cons, ih]

/-- Neighbours that are related by a transitive relation relate all the numbers. -/
theorem chained_iff_pairwise [IsTrans Int R] (hr : ∀ a b, r a b = true ↔ R a.toInt b.toInt)
    (ns : List Int64) : chained r ns = true ↔ (ns.map Int64.toInt).Pairwise R := by
  rw [chained_iff_isChain, ← List.isChain_iff_pairwise, List.isChain_map]
  simp only [hr]

/-- A comparison is made by one test on numbers, and the test decides the relation. -/
theorem Checks.exists_test (h : Checks p R) :
    IsTrans Int R ∧ ∃ r, p.run = compareAll p r ∧ ∀ a b, r a b = true ↔ R a.toInt b.toInt := by
  cases h with
  | gt | lt =>
    refine ⟨inferInstance, _, rfl, fun a b => ?_⟩
    exact decide_eq_true_iff.trans Int64.lt_iff_toInt_lt
  | ge | le =>
    refine ⟨inferInstance, _, rfl, fun a b => ?_⟩
    exact decide_eq_true_iff.trans Int64.le_iff_toInt_le
  | numEq =>
    refine ⟨inferInstance, _, rfl, fun a b => ?_⟩
    exact beq_iff_eq.trans Int64.toInt_inj.symm

theorem Checks.run_numbers (h : Checks p R) {ns : List Int64} (hlength : 2 ≤ ns.length) :
    ∃ b, p.run (ns.map .number) = .ok (.bool b) ∧
      (b = true ↔ (ns.map Int64.toInt).Pairwise R) := by
  obtain ⟨_, r, hrun, hr⟩ := h.exists_test
  have hcount : ¬ (ns.map Value.number).length < 2 := by
    rw [List.length_map]
    omega
  refine ⟨chained r ns, ?_, chained_iff_pairwise hr ns⟩
  rw [hrun, compareAll, if_neg hcount, numbers_map]
  rfl

/-- What is no number is refused even where two numbers in front of it decide the answer. -/
theorem Checks.run_of_not_number (h : Checks p R) {v : Value} (hv : ∀ n, v ≠ .number n)
    {before : List Int64} {after : List Value} (hlength : 1 ≤ before.length + after.length) :
    p.run (before.map .number ++ v :: after) = .error (.type (.notNumber p v) []) := by
  obtain ⟨-, r, hrun, -⟩ := h.exists_test
  have hcount : ¬ (before.map Value.number ++ v :: after).length < 2 := by
    rw [List.length_append, List.length_map, List.length_cons]
    omega
  rw [hrun, compareAll, if_neg hcount, numbers_of_first hv]
  rfl

end Chained

/-! ### The greatest and the least number -/

section Extremum

variable {p : Primitive} {better : Int64 → Int64 → Bool} {key : Int64 → Int}
  {n n' : Int64} {ns ms : List Int64}

/-- The number is one of these, and no other has a greater key. -/
def Wins (key : Int64 → Int) (n : Int64) (ns : List Int64) : Prop :=
  n ∈ ns ∧ ∀ m ∈ ns, key m ≤ key n

theorem Wins.unique (hkey : Function.Injective key) (h : Wins key n ns) (h' : Wins key n' ns) :
    n = n' :=
  hkey (Int.le_antisymm (h'.2 n h.1) (h.2 n' h'.1))

theorem Wins.perm (hperm : ns.Perm ms) (h : Wins key n ns) : Wins key n ms :=
  ⟨hperm.mem_iff.1 h.1, fun m hm => h.2 m (hperm.mem_iff.2 hm)⟩

theorem Wins.cons {m : Int64} (h : Wins key n ns) (hm : m ∈ ns) (hle : key n' ≤ key m) :
    Wins key n (n' :: ns) := by
  refine ⟨List.mem_cons_of_mem n' h.1, fun k hk => ?_⟩
  rcases List.mem_cons.1 hk with rfl | hk
  · exact hle.trans (h.2 m hm)
  · exact h.2 k hk

/-- The number that is kept wins against all that were looked at. -/
theorem wins_foldl (hbetter : ∀ a b, better b a = decide (key a < key b)) (n : Int64)
    (ns : List Int64) :
    Wins key (ns.foldl (fun a b => if better b a then b else a) n) (n :: ns) := by
  induction ns generalizing n with
  | nil =>
    refine ⟨List.mem_cons_self, fun m hm => ?_⟩
    rw [List.mem_singleton.1 hm]
    exact Int.le_refl _
  | cons m ns ih =>
    rw [List.foldl_cons, hbetter]
    by_cases hlt : key n < key m
    · rw [if_pos (decide_eq_true hlt)]
      exact (ih m).cons List.mem_cons_self (Int.le_of_lt hlt)
    · rw [if_neg (by simpa using hlt)]
      exact ((ih n).cons List.mem_cons_self (Int.not_lt.1 hlt)).perm (List.Perm.swap n m ns)

/-- What the primitive keeps is the number with the greatest key. -/
inductive Keeps : Primitive → (Int64 → Int) → Prop
  | max : Keeps .max Int64.toInt
  | min : Keeps .min fun n => -n.toInt

theorem Keeps.exists_test (h : Keeps p key) :
    Function.Injective key ∧
      ∃ better, p.run = extremum p better ∧ ∀ a b, better b a = decide (key a < key b) := by
  cases h with
  | max =>
    refine ⟨fun a b hab => Int64.toInt_inj.1 hab, _, rfl, fun a b => ?_⟩
    exact decide_eq_decide.2 Int64.lt_iff_toInt_lt
  | min =>
    refine ⟨fun a b hab => Int64.toInt_inj.1 (Int.neg_inj.1 hab), _, rfl, fun a b => ?_⟩
    exact decide_eq_decide.2 (Int64.lt_iff_toInt_lt.trans Int.neg_lt_neg_iff.symm)

theorem Keeps.exists_winner (h : Keeps p key) (hne : ns ≠ []) :
    ∃ n, p.run (ns.map .number) = .ok (.number n) ∧ Wins key n ns := by
  obtain ⟨-, better, hrun, hbetter⟩ := h.exists_test
  cases ns with
  | nil => exact absurd rfl hne
  | cons n ns =>
    refine ⟨_, ?_, wins_foldl hbetter n ns⟩
    rw [hrun, extremum, numbers_map]
    rfl

/-- The answer is determined by what it wins against. -/
theorem Keeps.run_of_wins (h : Keeps p key) (hwins : Wins key n ns) :
    p.run (ns.map .number) = .ok (.number n) := by
  obtain ⟨n', hrun, hwins'⟩ := h.exists_winner (List.ne_nil_of_mem hwins.1)
  rw [hrun, hwins.unique h.exists_test.1 hwins']

theorem Keeps.run_perm (h : Keeps p key) (hperm : ns.Perm ms) :
    p.run (ns.map .number) = p.run (ms.map .number) := by
  by_cases hne : ns = []
  · subst hne
    rw [List.nil_perm.1 hperm]
  · obtain ⟨n, hrun, hwins⟩ := h.exists_winner hne
    rw [hrun, h.run_of_wins (hwins.perm hperm)]

end Extremum

/-- Of numbers in ascending order the first is the least and the last the greatest. -/
theorem wins_of_ascending {ns : List Int64} (h : (ns.map Int64.toInt).Pairwise (· < ·))
    (hne : ns ≠ []) :
    Wins (fun n => -n.toInt) (ns.head hne) ns ∧ Wins Int64.toInt (ns.getLast hne) ns := by
  have hle : ns.Pairwise fun a b => a.toInt ≤ b.toInt := (List.pairwise_map.1 h).imp Int.le_of_lt
  refine ⟨⟨List.head_mem hne, fun m hm => ?_⟩, ⟨List.getLast_mem hne, fun m hm => ?_⟩⟩
  · exact Int.neg_le_neg (hle.rel_head_of_rel_head_head hm (Int.le_refl _))
  · exact hle.rel_getLast_of_rel_getLast_getLast hm (Int.le_refl _)

theorem pairwise_of_run_lt {ns : List Int64} (h : lt.run (ns.map .number) = .ok (.bool true)) :
    (ns.map Int64.toInt).Pairwise (· < ·) := by
  by_cases hlength : 2 ≤ ns.length
  · obtain ⟨b, hrun, hb⟩ := Checks.lt.run_numbers hlength
    rw [hrun] at h
    cases h
    exact hb.1 rfl
  · have hcount : (ns.map Value.number).length < 2 := by
      rw [List.length_map]
      omega
    rw [run, compareAll, if_pos hcount] at h
    cases h

/-- A comparison of two numbers or more holds just if the relation holds between each of them and
every later one, and it refuses a value that is no number wherever that stands. The greatest and the
least of some numbers are among them and win against all of them, in any order of the arguments;
where the numbers ascend, they are the last and the first. -/
theorem comparisons_order_the_whole_list :
    (∀ p R, Checks p R → ∀ ns : List Int64, 2 ≤ ns.length →
      ∃ b, p.run (ns.map .number) = .ok (.bool b) ∧
        (b = true ↔ (ns.map Int64.toInt).Pairwise R)) ∧
    (∀ p R, Checks p R → ∀ v, (∀ n, v ≠ .number n) → ∀ (before : List Int64) (after : List Value),
      1 ≤ before.length + after.length →
      p.run (before.map .number ++ v :: after) = .error (.type (.notNumber p v) [])) ∧
    (∀ ns : List Int64, ns ≠ [] →
      (∃ n ∈ ns, max.run (ns.map .number) = .ok (.number n) ∧ ∀ m ∈ ns, m.toInt ≤ n.toInt) ∧
      ∃ n ∈ ns, min.run (ns.map .number) = .ok (.number n) ∧ ∀ m ∈ ns, n.toInt ≤ m.toInt) ∧
    (∀ ns ms : List Int64, ns.Perm ms →
      max.run (ns.map .number) = max.run (ms.map .number) ∧
      min.run (ns.map .number) = min.run (ms.map .number)) ∧
    ∀ (n : Int64) (ns : List Int64), lt.run ((n :: ns).map .number) = .ok (.bool true) →
      max.run ((n :: ns).map .number) = .ok (.number ((n :: ns).getLast (List.cons_ne_nil n ns))) ∧
      min.run ((n :: ns).map .number) = .ok (.number n) := by
  refine ⟨?_, ?_, ?_, ?_, ?_⟩
  · intro p R h ns hlength
    exact h.run_numbers hlength
  · intro p R h v hv before after hlength
    exact h.run_of_not_number hv hlength
  · intro ns hne
    obtain ⟨n, hmax, hgreatest⟩ := Keeps.max.exists_winner hne
    obtain ⟨m, hmin, hleast⟩ := Keeps.min.exists_winner hne
    refine ⟨⟨n, hgreatest.1, hmax, hgreatest.2⟩, m, hleast.1, hmin, fun k hk => ?_⟩
    exact Int.neg_le_neg_iff.1 (hleast.2 k hk)
  · intro ns ms hperm
    exact ⟨Keeps.max.run_perm hperm, Keeps.min.run_perm hperm⟩
  · intro n ns hlt
    have hwins := wins_of_ascending (pairwise_of_run_lt hlt) (List.cons_ne_nil n ns)
    exact ⟨Keeps.max.run_of_wins hwins.2, Keeps.min.run_of_wins hwins.1⟩

/-- Neighbours that are in order do not make up for two that are not, a text behind two numbers
that descend is refused all the same, and three numbers that ascend end at the extrema. -/
theorem comparisons_order_the_whole_list_of_three :
    le.run [.number 3, .number 1, .number 2] = .ok (.bool false) ∧
    lt.run [.number 2, .number 1, .string "x"] =
      .error (.type (.notNumber .lt (.string "x")) []) ∧
    max.run [.number Int64.minValue, .number 0, .number 7] = .ok (.number 7) ∧
    min.run [.number Int64.minValue, .number 0, .number 7] = .ok (.number Int64.minValue) := by
  obtain ⟨hchecks, htype, -, -, hascending⟩ := comparisons_order_the_whole_list
  refine ⟨?_, ?_, ?_⟩
  · obtain ⟨b, hrun, hb⟩ := hchecks .le (· ≤ ·) .le [3, 1, 2] (by decide)
    have hfalse : b = false := Bool.eq_false_iff.2 fun htrue => absurd (hb.1 htrue) (by decide)
    rw [← hfalse]
    exact hrun
  · exact htype .lt (· < ·) .lt (.string "x") (by rintro n ⟨⟩) [2, 1] [] (by decide)
  · exact hascending Int64.minValue [0, 7] rfl

end LexicalLisp.Primitive
