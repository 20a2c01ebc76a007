import LexicalLisp.Proofs.Concatenation

/-!
# Reading goes forward

An expression that is read takes something from the front of the text, and so does a separator. So
the loops of the reader, over the expressions of a program, over the elements of a list and over the
characters of a string, take something in every round. Each comes to an end after as many rounds as
there are characters at most, whatever the text.
-/
namespace LexicalLisp.Source

open Grammar

/-! ### Loops -/

section Loops

variable {σ α : Type}

/-- A loop of these rounds goes on `n` times from the state, and then it ends with the result. -/
inductive LoopEnds (round : σ → σ ⊕ α) : (n : Nat) → σ → α → Prop
  | stop {s : σ} {a : α} (h : round s = .inr a) : LoopEnds round 0 s a
  | again {n : Nat} {s t : σ} {a : α} (h : round s = .inl t) (hends : LoopEnds round n t a) :
      LoopEnds round (n + 1) s a

/-- If every round either makes the state smaller and keeps the result, or else ends with the
result, then the loop ends with it from every state. -/
theorem exists_loopEnds (round : σ → σ ⊕ α) (size : σ → Nat) (result : σ → α)
    (hround : ∀ s, (∃ t, round s = .inl t ∧ size t < size s ∧ result s = result t) ∨
      round s = .inr (result s)) (s : σ) : ∃ n ≤ size s, LoopEnds round n s (result s) := by
  induction hsize : size s using Nat.strong_induction_on generalizing s with
  | _ k ih =>
    rcases hround s with ⟨t, hagain, hlt, hresult⟩ | hstop
    · obtain ⟨n, hn, hends⟩ := ih (size t) (hsize ▸ hlt) t rfl
      rw [hresult]
      exact ⟨n + 1, by omega, .again hagain hends⟩
    · exact ⟨0, Nat.zero_le _, .stop hstop⟩

end Loops

/-! ### Proper suffixes -/

/-- What leaves a shorter end of the text has taken one character from it and perhaps more. -/
theorem exists_taken {s rest : List Char} (hsuffix : rest <:+ s)
    (hlt : rest.length < s.length) : ∃ c taken, s = c :: taken ++ rest := by
  obtain ⟨_ | ⟨c, taken⟩, rfl⟩ := hsuffix
  · exact absurd hlt (Nat.lt_irrefl _)
  · exact ⟨c, taken, rfl⟩

/-! ### The rounds of the reader -/

/-- The next expression of a program is read and checked, and joins those that are `done`. -/
def programRound (input : List Char) :
    List Value × List Char → (List Value × List Char) ⊕ Except Error (List Value)
  | (done, s) =>
    match skipLayout s with
    | [] => .inr (.ok done)
    | t =>
      match expression maxNesting .code t with
      | .error f => .inr (.error (.source (f.fault input)))
      | .ok (v, rest) =>
        match v.checkForms with
        | .error e => .inr (.error e)
        | .ok () => .inl (done ++ [v], rest)

/-- A separator and the next element of a list are read. If either is missing, the loop ends where
it stood. -/
def elementRound (element : Reader Value) :
    List Value × List Char → (List Value × List Char) ⊕ (List Value × List Char)
  | (done, s) =>
    match separator? s with
    | none => .inr (done, s)
    | some t =>
      match element t with
      | .error _ => .inr (done, s)
      | .ok (x, rest) => .inl (done ++ [x], rest)

/-- One character of a string is read, up to the closing quote. -/
def literalRound :
    List Char × List Char → (List Char × List Char) ⊕ Except (List Char) (List Char × List Char)
  | (_, []) => .inr (.error [])
  | (done, '"' :: rest) => .inr (.ok (done, rest))
  | (_, ['\\']) => .inr (.error ['\\'])
  | (done, '\\' :: l :: rest) =>
    match Text.Literal.denoted? l with
    | none => .inr (.error ('\\' :: l :: rest))
    | some c => .inl (done ++ [c], rest)
  | (done, c :: rest) => .inl (done ++ [c], rest)

/-! ### Each loop ends with what the reader gives -/

theorem programLoop_ends (input : List Char) (done : List Value) (s : List Char) :
    ∃ n ≤ s.length, LoopEnds (programRound input) n (done, s)
      ((expressions input s).map (done ++ ·)) := by
  refine exists_loopEnds (programRound input) (fun state => state.2.length)
    (fun state => (expressions input state.2).map (state.1 ++ ·)) ?_ (done, s)
  rintro ⟨done, s⟩
  by_cases hskip : skipLayout s = []
  · refine Or.inr ?_
    simp only [programRound, hskip, expressions_of_layout input hskip, Except.map, List.append_nil]
  obtain ⟨c, t, hcons⟩ := List.exists_cons_of_ne_nil hskip
  have hfront : expression maxNesting .code (c :: t) = expression maxNesting .code s := by
    rw [← hcons, expression_maxNesting_skipLayout]
  cases hread : expression maxNesting .code s with
  | error f =>
    refine Or.inr ?_
    simp only [programRound, hcons, hfront, hread, expressions_of_error input hskip hread,
      Except.map]
  | ok r =>
    obtain ⟨v, rest⟩ := r
    cases hcheck : v.checkForms with
    | error e =>
      refine Or.inr ?_
      simp only [programRound, hcons, hfront, hread, hcheck, expressions_of_ok input hread]
      rfl
    | ok u =>
      refine Or.inl ⟨(done ++ [v], rest), ?_, length_lt_of_expression hread, ?_⟩
      · simp only [programRound, hcons, hfront, hread, hcheck]
      · simp only [expressions_of_ok input hread, hcheck]
        cases expressions input rest with
        | error e => rfl
        | ok vs => exact congrArg Except.ok (List.append_cons done v vs)

theorem elementLoop_ends {element : Reader Value} (hsuffix : element.LeavesSuffix)
    (done : List Value) (s : List Char) :
    ∃ n ≤ s.length, LoopEnds (elementRound element) n (done, s)
      (done ++ (furtherElements element s).1, (furtherElements element s).2) := by
  refine exists_loopEnds (elementRound element) (fun state => state.2.length)
    (fun state => (state.1 ++ (furtherElements element state.2).1,
      (furtherElements element state.2).2)) ?_ (done, s)
  rintro ⟨done, s⟩
  cases hsep : separator? s with
  | none =>
    refine Or.inr ?_
    rw [furtherElements]
    simp only [elementRound, hsep, List.append_nil]
  | some t =>
    cases hread : element t with
    | error f =>
      refine Or.inr ?_
      rw [furtherElements]
      simp only [elementRound, hsep, hread, List.append_nil]
    | ok r =>
      obtain ⟨x, rest⟩ := r
      -- the separator alone makes the rest shorter, whatever the element takes
      have hrest := (hsuffix t x rest hread).length_le
      have ht := length_lt_of_separator? hsep
      have hlt : rest.length < s.length := by omega
      refine Or.inl ⟨(done ++ [x], rest), ?_, hlt, ?_⟩
      · simp only [elementRound, hsep, hread]
      · simp only [furtherElements_of_read hsep hread hlt, List.append_assoc,
          List.singleton_append]

/-- A character that is read joins those that are done. -/
theorem map_decoded_cons (done : List Char) (c : Char) (s : List Char) :
    ((Text.Literal.decode s).map fun (t, rest) => (c :: t, rest)).map
        (fun (t, rest) => (done ++ t, rest)) =
      (Text.Literal.decode s).map fun (t, rest) => (done ++ [c] ++ t, rest) := by
  cases Text.Literal.decode s with
  | error stopped => rfl
  | ok r => simp only [Except.map, List.append_assoc, List.singleton_append]

theorem literalLoop_ends (done s : List Char) :
    ∃ n ≤ s.length, LoopEnds literalRound n (done, s)
      ((Text.Literal.decode s).map fun (t, rest) => (done ++ t, rest)) := by
  refine exists_loopEnds literalRound (fun state => state.2.length)
    (fun state => (Text.Literal.decode state.2).map fun (t, rest) => (state.1 ++ t, rest)) ?_
    (done, s)
  rintro ⟨done, s⟩
  fun_cases literalRound (done, s) with
  | case1 done => exact Or.inr rfl
  | case2 done rest =>
    refine Or.inr ?_
    simp only [Text.Literal.decode, Except.map, List.append_nil]
  | case3 done => exact Or.inr rfl
  | case4 done l rest hl =>
    refine Or.inr ?_
    simp only [Text.Literal.decode, hl, Except.map]
  | case5 done l rest c hl =>
    refine Or.inl ⟨(done ++ [c], rest), rfl, ?_, ?_⟩
    · simp only [List.length_cons]
      omega
    · simp only [Text.Literal.decode, hl]
      exact map_decoded_cons done c rest
  | case6 done c rest hquote hend hescape =>
    have hslash := ne_backslash hend hescape
    refine Or.inl ⟨(done ++ [c], rest), rfl, Nat.lt_succ_self _, ?_⟩
    simp only [Text.Literal.decode_cons hquote hslash]
    exact map_decoded_cons done c rest

/-! ### Progress -/

/-- An expression that is read, at any depth and in either mode, takes a character from the front of
the text at least, and so does a separator. Layout is skipped as far as it goes. So the loops over a
program, over the elements of a list and over the characters of a string come to an end on every
text, after as many rounds as there are characters at most, and what they end with is what the
reader gives. -/
theorem reading_makes_progress :
    (∀ levels mode s v rest, expression levels mode s = .ok (v, rest) →
      ∃ c taken, s = c :: taken ++ rest) ∧
    (∀ s, Layout s (skipLayout s) ∧ skipLayout s <:+ s ∧
      startsWithLayout (skipLayout s) = false) ∧
    (∀ s t, separator? s = some t → Layout s t ∧ ∃ c taken, s = c :: taken ++ t) ∧
    (∀ text : String, ∃ n ≤ text.length,
      LoopEnds (programRound text.toList) n ([], text.toList) (readProgram text)) ∧
    (∀ levels mode done s, ∃ n ≤ s.length,
      LoopEnds (elementRound (expression levels mode)) n (done, s)
        (done ++ (furtherElements (expression levels mode) s).1,
          (furtherElements (expression levels mode) s).2)) ∧
    ∀ s, ∃ n ≤ s.length, LoopEnds literalRound n ([], s) (Text.Literal.decode s) := by
  refine ⟨?_, ?_, ?_, ?_, ?_, ?_⟩
  · intro levels mode s v rest h
    exact exists_taken (expression_leavesSuffix levels mode s v rest h) (length_lt_of_expression h)
  · intro s
    exact ⟨layout_skipLayout s, skipLayout_suffix s, startsWithLayout_skipLayout s⟩
  · intro s t h
    exact ⟨(separator_of_separator? h).1,
      exists_taken (separator?_suffix h) (length_lt_of_separator? h)⟩
  · intro text
    have h := programLoop_ends text.toList [] text.toList
    have hresult : (expressions text.toList text.toList).map ([] ++ ·) = readProgram text := by
      rw [readProgram]
      cases expressions text.toList text.toList <;> rfl
    rwa [hresult, String.length_toList] at h
  · intro levels mode done s
    exact elementLoop_ends (expression_leavesSuffix levels mode) done s
  · intro s
    have h := literalLoop_ends [] s
    have hresult : ((Text.Literal.decode s).map fun (t, rest) => ([] ++ t, rest)) =
        Text.Literal.decode s := by
      cases Text.Literal.decode s <;> rfl
    rwa [hresult] at h

/-- Layout stands in front of the list and a comment behind it, and no parenthesis closes what
follows. -/
theorem reading_makes_progress_of_commented_list :
    (expression maxNesting .code " ;(\n(f \"x\");\n (".toList =
        .ok (.list [.symbol ⟨"f", .any⟩, .string "x"], ";\n (".toList) ∧
      ∃ c taken, " ;(\n(f \"x\");\n (".toList = c :: taken ++ ";\n (".toList) ∧
    (separator? ";\n (".toList = some ['('] ∧
      Layout ";\n (".toList ['('] ∧ ∃ c taken, ";\n (".toList = c :: taken ++ ['(']) ∧
    ∃ n ≤ " ;(\n(f \"x\");\n (".length,
      LoopEnds (programRound " ;(\n(f \"x\");\n (".toList) n ([], " ;(\n(f \"x\");\n (".toList)
        (.error (.source (.invalid "("))) := by
  obtain ⟨hexpression, -, hseparator, hprogram, -⟩ := reading_makes_progress
  have hread : expression maxNesting .code " ;(\n(f \"x\");\n (".toList =
      .ok (.list [.symbol ⟨"f", .any⟩, .string "x"], ";\n (".toList) := by cbv
  have hfailure : readProgram " ;(\n(f \"x\");\n (" = .error (.source (.invalid "(")) := by cbv
  refine ⟨⟨hread, hexpression _ _ _ _ _ hread⟩, ⟨rfl, hseparator _ _ rfl⟩, ?_⟩
  rw [← hfailure]
  exact hprogram _

end LexicalLisp.Source
