import LexicalLisp.Proofs.BoundNames
import LexicalLisp.Proofs.Zone

/-!
# More layout where layout may stand

Text that is accepted stays accepted, with the same meaning, if layout is put behind an opening
parenthesis, before a closing one or next to other layout. The two texts are read side by side: at
every step the same remains of them, but for the layout that is ahead in the second one. Only the
look-ahead for a quotation sees a difference. It takes the word `quote` for the head of one if
layout follows, and then wants a datum, so a list of this word alone cannot take layout at its end.
-/
namespace LexicalLisp.Source

/-- Layout may be put between the two texts: the second begins outside of literals and comments,
and there is a parenthesis or layout on the side where one is needed. -/
structure Seam (a b : List Char) : Prop where
  outside : Zone.outside.after a = .outside
  apart : (∀ c ∈ a.getLast?, c = '(' ∨ isBlank c = true) ∨
    ∀ c ∈ b.head?, c = ')' ∨ isBlank c = true ∨ c = ';'

/-- The first text ends in a list of which only the word `quote` is there, and the second one begins
with the parenthesis that closes it. -/
def BehindLoneQuote (a b : List Char) : Prop :=
  b.head? = some ')' ∧ ∃ inside, Leaves a ('(' :: inside) ∧ skipLayout inside = "quote".toList

/-- The texts are the same, or they will be once the second has passed the layout `g` in front of
the common rest `b`. -/
def Tracks (b g s s' : List Char) : Prop :=
  s' = s ∨ ∃ a, Seam a b ∧ ¬ BehindLoneQuote a b ∧ s = a ++ b ∧ s' = a ++ (g ++ b)

/-- What the reader takes from a text it takes from the other text too. -/
def Reader.Follows (b g : List Char) (r : Reader Value) : Prop :=
  ∀ s s' v rest, Tracks b g s s' → r s = .ok (v, rest) →
    ∃ rest', r s' = .ok (v, rest') ∧ Tracks b g rest rest'

section Seams

variable {a a' b : List Char}

theorem Seam.of_leaves (h : Seam a b) (ha : Leaves a a') : Seam a' b := by
  refine ⟨ha.outside h.outside, ?_⟩
  obtain ⟨c, rfl, -⟩ := ha
  cases a' with
  | nil => exact Or.inl (by simp)
  | cons d a' =>
    refine h.apart.imp_left fun hlast => ?_
    rwa [List.getLast?_append_of_ne_nil _ (List.cons_ne_nil d a')] at hlast

theorem BehindLoneQuote.of_leaves (ha : Leaves a a') (h : BehindLoneQuote a' b) :
    BehindLoneQuote a b := by
  obtain ⟨hb, inside, hinside, hquote⟩ := h
  exact ⟨hb, inside, ha.trans hinside, hquote⟩

end Seams

section Tracks

variable {a a' b g s s' t rest : List Char} {element : Reader Value}

theorem tracks_refl (b g s : List Char) : Tracks b g s s := Or.inl rfl

theorem tracks_of_leaves (h : Seam a b) (hquote : ¬ BehindLoneQuote a b) (ha : Leaves a a') :
    Tracks b g (a' ++ b) (a' ++ (g ++ b)) :=
  Or.inr ⟨a', h.of_leaves ha, fun h' => hquote (h'.of_leaves ha), rfl, rfl⟩

variable (hg : Filler g)
include hg

/-- Skipping layout brings the two texts together, or it stops in both at the same character. -/
theorem Tracks.skipLayout (h : Tracks b g s s') :
    skipLayout s' = skipLayout s ∨ ∃ c a, Seam (c :: a) b ∧ ¬ BehindLoneQuote (c :: a) b ∧
      startsWithLayout (c :: a) = false ∧ skipLayout s = c :: (a ++ b) ∧
      skipLayout s' = c :: (a ++ (g ++ b)) := by
  rcases h with rfl | ⟨a, hseam, hquote, rfl, rfl⟩
  · exact Or.inl rfl
  rcases skipLayout_within hseam.outside with hall | ⟨hne, hleaves, happend⟩
  · rw [hall, hall, hg.skipLayout]
    exact Or.inl rfl
  · obtain ⟨c, a', ha'⟩ := List.exists_cons_of_ne_nil hne
    have hstart := startsWithLayout_skipLayout a
    rw [happend, happend]
    rw [ha'] at hleaves hstart ⊢
    exact Or.inr ⟨c, a', hseam.of_leaves hleaves, fun h => hquote (h.of_leaves hleaves), hstart,
      rfl, rfl⟩

theorem Tracks.skipped (h : Tracks b g s s') :
    Tracks b g (Source.skipLayout s) (Source.skipLayout s') := by
  rcases h.skipLayout hg with heq | ⟨c, a, hseam, hquote, -, hs, hs'⟩
  · exact Or.inl heq
  · rw [hs, hs']
    exact tracks_of_leaves hseam hquote (leaves_refl (c :: a))

theorem Tracks.close (h : Tracks b g s s') (hs : Source.skipLayout s = ')' :: rest) :
    ∃ rest', Source.skipLayout s' = ')' :: rest' ∧ Tracks b g rest rest' := by
  rcases h.skipLayout hg with heq | ⟨c, a, hseam, hquote, -, hs', hs''⟩
  · exact ⟨rest, heq.trans hs, tracks_refl b g rest⟩
  · rw [hs'] at hs
    cases hs
    exact ⟨_, hs'', tracks_of_leaves hseam hquote (leaves_cons rfl a)⟩

theorem Tracks.startsWithLayout (hne : g ≠ []) (h : Tracks b g s s')
    (hs : startsWithLayout s = true) : startsWithLayout s' = true := by
  rcases h with rfl | ⟨a, -, -, rfl, rfl⟩
  · exact hs
  · cases a with
    | nil => exact hg.startsWithLayout hne b
    | cons c a => exact hs

theorem Tracks.separator? (hne : g ≠ []) (h : Tracks b g s s') (hs : separator? s = some t) :
    ∃ t', separator? s' = some t' ∧ Tracks b g t t' := by
  unfold Source.separator? at hs ⊢
  split at hs
  case isFalse => cases hs
  case isTrue hlayout =>
    cases hs
    rw [if_pos (h.startsWithLayout hg hne hlayout)]
    exact ⟨_, rfl, h.skipped hg⟩

theorem Tracks.close_of_error (hclose : ∀ u, ∃ e, element (')' :: u) = .error e)
    (h : Tracks b g s s') (hs : Source.skipLayout s = ')' :: rest) :
    furtherElements element s' = ([], s') := by
  obtain ⟨rest', hs', -⟩ := h.close hg hs
  exact furtherElements_close hclose hs'

end Tracks

/-! ### Elements -/

section Elements

variable {b g : List Char} (hg : Filler g) (hne : g ≠ []) {element : Reader Value}
  (h : element.Follows b g) (hsuffix : element.LeavesSuffix)
  (hclose : ∀ u, ∃ e, element (')' :: u) = .error e)
include hg hne h hsuffix hclose

/-- The elements of a list that is closed are the same in both texts. -/
theorem furtherElements_follows {s s' rest : List Char} (hs : Tracks b g s s')
    (hend : skipLayout (furtherElements element s).2 = ')' :: rest) :
    ∃ after, furtherElements element s' = ((furtherElements element s).1, after) ∧
      Tracks b g (furtherElements element s).2 after := by
  fun_induction furtherElements element s generalizing s' with
  | case1 s hsep => exact ⟨s', hs.close_of_error hg hclose hend, hs⟩
  | case2 s t hsep e he => exact ⟨s', hs.close_of_error hg hclose hend, hs⟩
  | case3 s t hsep x after he hlt xs last hxs ih =>
    rw [hxs] at ih
    obtain ⟨t', hsep', ht⟩ := hs.separator? hg hne hsep
    obtain ⟨after', he', hafter⟩ := h t t' x after ht he
    obtain ⟨last', hlast, htracks⟩ := ih hafter hend
    have hlt' : after'.length < s'.length :=
      Nat.lt_of_le_of_lt (hsuffix t' x after' he').length_le (length_lt_of_separator? hsep')
    exact ⟨last', by rw [furtherElements_of_read hsep' he' hlt', hlast], htracks⟩
  | case4 s t hsep x after he hlt =>
    -- an element takes something from the text
    exact absurd
      (Nat.lt_of_le_of_lt (hsuffix t x after he).length_le (length_lt_of_separator? hsep)) hlt

theorem elements_follows {s s' rest : List Char} (hs : Tracks b g s s')
    (hstart : startsWithLayout s' = false)
    (hend : skipLayout (elements element s).2 = ')' :: rest) :
    ∃ after, elements element s' = ((elements element s).1, after) ∧
      Tracks b g (elements element s).2 after := by
  unfold elements at hend ⊢
  cases hx : element s with
  | error e =>
    simp only [hx] at hend ⊢
    obtain ⟨rest', hs', -⟩ := hs.close hg hend
    rw [skipLayout_eq_self hstart] at hs'
    obtain ⟨e', he'⟩ := hclose rest'
    rw [hs', he']
    exact ⟨s', by rw [hs'], hs⟩
  | ok p =>
    obtain ⟨x, after⟩ := p
    simp only [hx] at hend ⊢
    obtain ⟨after', hx', hafter⟩ := h s s' x after hs hx
    obtain ⟨last, hlast, htracks⟩ :=
      furtherElements_follows hg hne h hsuffix hclose hafter hend
    exact ⟨last, by simp only [hx', hlast], htracks⟩

end Elements

/-! ### Words -/

theorem isWordChar_of_apart {c : Char} (h : c = '(' ∨ isBlank c = true) : isWordChar c = false := by
  rcases h with rfl | h
  · decide
  · rw [isBlank_iff] at h
    fin_cases h <;> decide

/-- No word goes over the seam. -/
theorem Seam.endsWord {a b : List Char} (h : Seam a b) :
    (∀ c ∈ a.getLast?, c = '(' ∨ isBlank c = true) ∨ EndsWord b := by
  refine h.apart.imp_right fun hb c hc => ?_
  rcases hb c hc with rfl | hblank | rfl
  · decide
  · exact isWordChar_of_apart (Or.inr hblank)
  · decide

section Words

variable {a x : List Char}

/-- If the word `quote` begins before the seam it ends before it. -/
theorem quote_within (ha : a ≠ [])
    (hx : (∀ c ∈ a.getLast?, c = '(' ∨ isBlank c = true) ∨ EndsWord x) {rest : List Char}
    (h : a ++ x = "quote".toList ++ rest) : ∃ d, a = "quote".toList ++ d ∧ rest = d ++ x := by
  rcases List.append_eq_append_iff.1 h with ⟨d, hd, hx'⟩ | ⟨d, hd, hrest⟩
  · cases d with
    | nil => exact ⟨[], by simpa using hd.symm, by simpa using hx'.symm⟩
    | cons y d =>
      -- both sides of the seam are letters of the word
      have hword : ∀ c ∈ "quote".toList, isWordChar c = true := List.all_eq_true.1 (by decide)
      rcases hx with hlast | hends
      · have hmem : a.getLast ha ∈ "quote".toList := by
          rw [hd]
          exact List.mem_append_left _ (List.getLast_mem ha)
        have happart := isWordChar_of_apart (hlast _ (List.getLast?_eq_getLast_of_ne_nil ha))
        rw [hword _ hmem] at happart
        cases happart
      · have hy := hends y (by simp [hx'])
        rw [hword y (by simp [hd])] at hy
        cases hy
  · exact ⟨d, hd, hrest⟩

/-- If a lexeme begins before the seam it ends before it. -/
theorem endsLexeme {c : Char} (hlayout : startsWithLayout (c :: a) = false) (hopen : c ≠ '(')
    (hx : (∀ d ∈ (c :: a).getLast?, d = '(' ∨ isBlank d = true) ∨ EndsWord x) :
    EndsLexeme c a x := by
  refine Or.inr fun d hd => ?_
  cases hrest : a.dropWhile isWordChar with
  | cons y rest =>
    have hy := List.head?_dropWhile_not isWordChar a
    rw [hrest] at hd hy
    cases hd
    simpa using hy
  | nil =>
    rw [hrest, List.nil_append] at hd
    refine hx.elim (fun hlast => ?_) fun hends => hends d hd
    have hne : c :: a ≠ [] := List.cons_ne_nil c a
    have happart := hlast _ (List.getLast?_eq_getLast_of_ne_nil hne)
    rcases List.mem_cons.1 (List.getLast_mem hne) with hc | ha
    · rw [hc] at happart
      simp [startsWithLayout, happart.resolve_left hopen] at hlayout
    · have hword := List.dropWhile_eq_nil_iff.1 hrest _ ha
      rw [isWordChar_of_apart happart] at hword
      cases hword

end Words

/-! ### Lists -/

section Lists

variable {a b g : List Char} (hg : Filler g) (hne : g ≠ [])
include hg hne

/-- A quotation is seen before the seam. -/
theorem quoteHead?_follows {t : List Char} (ha : a ≠ []) (hseam : Seam a b)
    (hlone : ¬ BehindLoneQuote a b) (h : quoteHead? (a ++ b) = some t) :
    ∃ t', quoteHead? (a ++ (g ++ b)) = some t' ∧ Tracks b g t t' := by
  obtain ⟨rest, hrest, -⟩ := quoteHead?_eq_some h
  obtain ⟨d, rfl, rfl⟩ := quote_within ha hseam.endsWord hrest
  have hd : Leaves ("quote".toList ++ d) d := ⟨"quote".toList, rfl, by decide⟩
  rw [List.append_assoc] at h ⊢
  exact (tracks_of_leaves hseam hlone hd).separator? hg hne h

/-- No quotation is seen in the second text only, unless the word `quote` is alone in its list. -/
theorem quoteHead?_follows_none {inside : List Char} (ha : skipLayout inside = a) (hne' : a ≠ [])
    (hseam : Seam a b) (hlone : ¬ BehindLoneQuote ('(' :: inside) b)
    (h : quoteHead? (a ++ b) = none) (hclose : ')' ∈ a ++ b) :
    quoteHead? (a ++ (g ++ b)) = none := by
  cases hq : quoteHead? (a ++ (g ++ b)) with
  | none => rfl
  | some t =>
    have hends : EndsWord (g ++ b) := endsWord_of_startsWithLayout (hg.startsWithLayout hne b)
    obtain ⟨rest, hrest, hlayout⟩ := quoteHead?_eq_some hq
    obtain ⟨d, hd, rfl⟩ := quote_within hne' (Or.inr hends) hrest
    have hsep : quoteHead? (a ++ b) = separator? (d ++ b) := by
      rw [hd, List.append_assoc]
      rfl
    rw [hsep, separator?] at h
    have hb : ¬ startsWithLayout (d ++ b) = true := by
      intro hstart
      rw [if_pos hstart] at h
      cases h
    cases d with
    | cons c d => exact absurd hlayout hb
    | nil =>
      rw [List.append_nil] at hd
      refine absurd ⟨?_, inside, leaves_refl _, ha.trans hd⟩ hlone
      -- what stands behind the word is no layout, so it closes the list
      subst hd
      cases b with
      | nil => exact absurd hclose (by decide)
      | cons c b =>
        rcases hseam.apart with hlast | hfirst
        · exact absurd (hlast 'e' (by decide)) (by decide)
        · rcases hfirst c rfl with rfl | hblank | rfl
          · rfl
          · simp [startsWithLayout, hblank] at hb
          · exact absurd rfl hb

variable {datum element : Reader Value} {inside rest : List Char} {v : Value} {mode : Mode}

/-- A list that begins before the seam is the same list in the second text. -/
theorem list_follows (hdatum : datum.Follows b g) (helement : element.Follows b g)
    (hsuffix : element.LeavesSuffix) (hclose : ∀ u, ∃ e, element (')' :: u) = .error e)
    (hseam : Seam ('(' :: inside) b) (hlone : ¬ BehindLoneQuote ('(' :: inside) b)
    (h : list datum element mode ('(' :: (inside ++ b)) = .ok (v, rest)) :
    ∃ rest', list datum element mode ('(' :: (inside ++ (g ++ b))) = .ok (v, rest') ∧
      Tracks b g rest rest' := by
  have hinside : Leaves ('(' :: inside) inside := leaves_cons rfl inside
  rcases skipLayout_within (hseam.of_leaves hinside).outside with hall | ⟨hne', hleaves, happend⟩
  · -- the seam is passed together with the layout
    have hskip : skipLayout (inside ++ (g ++ b)) = skipLayout (inside ++ b) := by
      rw [hall, hall, hg.skipLayout]
    refine ⟨rest, ?_, tracks_refl b g rest⟩
    rw [← h]
    simp only [list, hskip]
  have hseam' := hseam.of_leaves (hinside.trans hleaves)
  have htracks : Tracks b g _ _ := tracks_of_leaves hseam hlone (hinside.trans hleaves)
  have hstart' := startsWithLayout_skipLayout (inside ++ (g ++ b))
  rw [happend] at hstart'
  obtain ⟨_, ⟨⟩, hread⟩ := list_eq_ok h
  rw [happend] at hread
  rcases hread with ⟨t, x, after, hquote, hx, hend, rfl⟩ | ⟨hquote, hend, rfl⟩
  · obtain ⟨t', hquote', ht⟩ := quoteHead?_follows hg hne hne' hseam'
      (fun h => hlone (h.of_leaves (hinside.trans hleaves))) hquote
    obtain ⟨after', hx', hafter⟩ := hdatum t t' x after ht hx
    obtain ⟨rest', hend', hrest⟩ := hafter.close hg hend
    exact ⟨rest', list_of_quote element mode (happend _) hquote' hx' hend', hrest⟩
  · obtain ⟨after, helements, hafter⟩ :=
      elements_follows hg hne helement hsuffix hclose htracks hstart' hend
    obtain ⟨rest', hend', hrest⟩ := hafter.close hg hend
    have hmem : ')' ∈ skipLayout inside ++ b := by
      have hleft := (skipLayout_suffix _).trans (elements_spec hsuffix (skipLayout inside ++ b)).1
      rw [hend] at hleft
      exact hleft.subset List.mem_cons_self
    have hquote' := quoteHead?_follows_none hg hne rfl hne' hseam' hlone hquote hmem
    exact ⟨rest', list_of_elements datum mode (happend _) hquote' helements hend', hrest⟩

end Lists

/-! ### Expressions -/

theorem expression_follows {b g : List Char} (hg : Filler g) (hne : g ≠ []) (levels : Nat)
    (mode : Mode) : (expression levels mode).Follows b g := by
  induction levels generalizing mode with
  | zero =>
    intro s s' v rest _ h
    cases h
  | succ levels ih =>
    intro s s' v rest hs h
    rw [← expression_skipLayout] at h ⊢
    rcases hs.skipLayout hg with heq | ⟨c, a, hseam, hlone, hlayout, hskip, hskip'⟩
    · rw [heq]
      exact ⟨rest, h, tracks_refl b g rest⟩
    rw [hskip] at h
    rw [hskip']
    by_cases hmark : c = '\''
    · subst hmark
      obtain ⟨_, x, ⟨⟩, hx, rfl⟩ := quotation_eq_ok (quotation_of_expression h)
      have ha : Tracks b g (a ++ b) (a ++ (g ++ b)) :=
        tracks_of_leaves hseam hlone (leaves_cons rfl a)
      obtain ⟨rest', hx', hrest⟩ := ih .data _ _ x rest ha hx
      refine ⟨rest', ?_, hrest⟩
      rw [expression_succ rfl]
      refine Reader.or_eq_of_ok ?_
      rw [quotation, hx']
      rfl
    by_cases hopen : c = '('
    · subst hopen
      obtain ⟨rest', hlist, hrest⟩ := list_follows hg hne (ih .data) (ih mode)
        (expression_leavesSuffix levels mode) (expression_close levels mode) hseam hlone
        (list_of_expression h)
      exact ⟨rest', expression_of_list hlist, hrest⟩
    have hcomment : c ≠ ';' := by
      rintro rfl
      cases hlayout
    have hends : EndsWord (g ++ b) := endsWord_of_startsWithLayout (hg.startsWithLayout hne b)
    rw [expression_eq_lexeme (s := a ++ b) hlayout hmark hopen] at h
    obtain ⟨r, hr, rfl, hread⟩ := lexeme_within hseam.outside hcomment
      (endsLexeme hlayout hopen hseam.endsWord) h
    refine ⟨r ++ (g ++ b), ?_, tracks_of_leaves hseam hlone hr⟩
    rw [expression_eq_lexeme (s := a ++ (g ++ b)) hlayout hmark hopen]
    exact hread _ (endsLexeme hlayout hopen (Or.inr hends))

/-! ### A list that cannot be read -/

/-- The list in front of `q`, whose opening parenthesis was left out, is ahead. -/
def Ahead (q s : List Char) : Prop := Leaves s ('(' :: q)

section Ahead

variable {q s t rest : List Char}

/-- The text goes on with the list, or it begins outside of it with a character. -/
theorem Ahead.cases (h : Ahead q s) :
    s = '(' :: q ∨ ∃ c a, s = c :: (a ++ '(' :: q) ∧ Zone.outside.after (c :: a) = .outside := by
  obtain ⟨a, rfl, ha⟩ := h
  cases a with
  | nil => exact Or.inl rfl
  | cons c a => exact Or.inr ⟨c, a, rfl, ha⟩

theorem Ahead.skipLayout (h : Ahead q s) : Ahead q (skipLayout s) := by
  obtain ⟨a, rfl, ha⟩ := h
  rcases skipLayout_within ha with hall | ⟨-, hleaves, happend⟩
  · rw [hall]
    exact leaves_refl ('(' :: q)
  · rw [happend]
    exact ⟨_, rfl, hleaves.outside ha⟩

theorem Ahead.tail {c : Char} (h : Ahead q (c :: s)) (hc : c ≠ '(')
    (hnext : Zone.outside.next c = .outside) : Ahead q s := by
  rcases h.cases with heq | ⟨d, a, heq, ha⟩
  · exact absurd (List.cons.inj heq).1 hc
  · obtain ⟨rfl, rfl⟩ := List.cons.inj heq
    rw [Zone.after_cons, hnext] at ha
    exact ⟨a, rfl, ha⟩

theorem Ahead.close (h : Ahead q s) (hs : Source.skipLayout s = ')' :: rest) : Ahead q rest := by
  have hskip := h.skipLayout
  rw [hs] at hskip
  exact hskip.tail (by decide) rfl

theorem Ahead.separator? (h : Ahead q s) (hs : separator? s = some t) : Ahead q t :=
  skipLayout_of_separator? hs ▸ h.skipLayout

theorem Ahead.word {w : List Char} (hw : ∀ c ∈ w, c ≠ '(' ∧ Zone.outside.next c = .outside)
    (h : Ahead q (w ++ s)) : Ahead q s := by
  induction w with
  | nil => exact h
  | cons c w ih =>
    obtain ⟨hc, hnext⟩ := hw c List.mem_cons_self
    exact ih (fun d hd => hw d (List.mem_cons_of_mem c hd)) (h.tail hc hnext)

theorem Ahead.quoteHead? (h : Ahead q s) (hs : quoteHead? s = some t) : Ahead q t := by
  obtain ⟨rest, rfl, -⟩ := quoteHead?_eq_some hs
  have hword : ∀ c ∈ "quote".toList, c ≠ '(' ∧ Zone.outside.next c = .outside := by
    simp [Zone.next]
  exact (h.word hword).separator? hs

/-- The reader does not get past the list. -/
def Reader.StopsBefore (q : List Char) (r : Reader Value) : Prop :=
  ∀ s v rest, Ahead q s → r s = .ok (v, rest) → Ahead q rest

theorem furtherElements_stopsBefore {element : Reader Value} (h : element.StopsBefore q)
    (hs : Ahead q s) : Ahead q (furtherElements element s).2 := by
  fun_induction furtherElements element s with
  | case1 s hsep => exact hs
  | case2 s t hsep e he => exact hs
  | case3 s t hsep x after he hlt xs last hxs ih =>
    rw [hxs] at ih
    exact ih (h t x after (hs.separator? hsep) he)
  | case4 s t hsep x after he hlt => exact h t x after (hs.separator? hsep) he

theorem elements_stopsBefore {element : Reader Value} (h : element.StopsBefore q)
    (hs : Ahead q s) : Ahead q (elements element s).2 := by
  unfold elements
  cases hx : element s with
  | error e => exact hs
  | ok p => exact furtherElements_stopsBefore h (h s p.1 p.2 hs hx)

theorem expression_stopsBefore
    (hblocked : ∀ levels mode r, expression levels mode ('(' :: q) ≠ .ok r) (levels : Nat)
    (mode : Mode) : (expression levels mode).StopsBefore q := by
  induction levels generalizing mode with
  | zero =>
    intro s v rest _ h
    cases h
  | succ levels ih =>
    intro s v rest hs h
    rw [← expression_skipLayout] at h
    have hlayout := startsWithLayout_skipLayout s
    rcases hs.skipLayout.cases with heq | ⟨c, a, heq, ha⟩
    · rw [heq] at h
      exact absurd h (hblocked _ mode _)
    rw [heq] at h hlayout
    have htail : c = '\'' ∨ c = '(' → Ahead q (a ++ '(' :: q) := by
      rintro (rfl | rfl)
      · exact ⟨a, rfl, ha⟩
      · exact ⟨a, rfl, ha⟩
    by_cases hmark : c = '\''
    · subst hmark
      obtain ⟨_, x, ⟨⟩, hx, -⟩ := quotation_eq_ok (quotation_of_expression h)
      exact ih .data _ x rest (htail (Or.inl rfl)) hx
    by_cases hopen : c = '('
    · subst hopen
      obtain ⟨_, ⟨⟩, hread⟩ := list_eq_ok (list_of_expression h)
      have hinside := (htail (Or.inr rfl)).skipLayout
      rcases hread with ⟨t, x, after, hquote, hx, hend, -⟩ | ⟨-, hend, -⟩
      · exact (ih .data t x after (hinside.quoteHead? hquote) hx).close hend
      · exact (elements_stopsBefore (ih mode) hinside).close hend
    have hcomment : c ≠ ';' := by
      rintro rfl
      cases hlayout
    have hends : EndsWord ('(' :: q) := endsWord_cons (by decide)
    rw [expression_eq_lexeme (s := a ++ '(' :: q) hlayout hmark hopen] at h
    obtain ⟨r, hr, rfl, -⟩ := lexeme_within ha hcomment
      (endsLexeme (a := a) hlayout hopen (Or.inr hends)) h
    exact ⟨r, rfl, hr.outside ha⟩

end Ahead

/-- After the word `quote` and layout no list is read that ends at once. -/
theorem expression_lone_quote_ne_ok {inside g b : List Char} (hg : Filler g) (hne : g ≠ [])
    (hinside : skipLayout inside = "quote".toList) (levels : Nat) (mode : Mode)
    (r : Value × List Char) :
    expression levels mode ('(' :: (inside ++ (g ++ ')' :: b))) ≠ .ok r := by
  intro h
  cases levels with
  | zero => cases h
  | succ levels =>
    have hskip : skipLayout (inside ++ (g ++ ')' :: b)) = "quote".toList ++ (g ++ ')' :: b) := by
      rw [skipLayout_append _ (by rw [hinside]; decide), hinside]
    have hquote : quoteHead? ("quote".toList ++ (g ++ ')' :: b)) = some (')' :: b) := by
      show separator? (g ++ ')' :: b) = _
      rw [separator?, if_pos (hg.startsWithLayout hne _), hg.skipLayout]
      rfl
    obtain ⟨v, rest⟩ := r
    obtain ⟨_, ⟨⟩, hread⟩ := list_eq_ok (list_of_expression h)
    rw [hskip, hquote] at hread
    rcases hread with ⟨t, x, after, ht, hx, -, -⟩ | ⟨hnone, -, -⟩
    · cases ht
      obtain ⟨e, he⟩ := expression_close levels .data b
      rw [hx] at he
      cases he
    · cases hnone

/-- Layout may be put between two parts of an accepted text wherever a parenthesis or other layout
is, outside of literals and comments: the text is accepted as before and denotes the same. There is
one place where it may not stand, which is the end of a list of nothing but the word `quote`; there
it makes the text unacceptable. -/
theorem layout_can_be_inserted_iff {a b g : String} {v : Value}
    (h : readExpression (a ++ b) = .ok v) (hseam : Seam a.toList b.toList)
    (hg : Filler g.toList) (hne : g ≠ "") :
    (readExpression (a ++ g ++ b) = .ok v ↔ ¬ BehindLoneQuote a.toList b.toList) ∧
      (BehindLoneQuote a.toList b.toList → ∀ u, readExpression (a ++ g ++ b) ≠ .ok u) := by
  have hne' : g.toList ≠ [] := by simpa using hne
  have hrefused : BehindLoneQuote a.toList b.toList →
      ∀ u, readExpression (a ++ g ++ b) ≠ .ok u := by
    rintro ⟨hb, inside, hleaves, hinside⟩ u hu
    obtain ⟨b', hb'⟩ := List.head?_eq_some_iff.1 hb
    obtain ⟨c, hc, hzone⟩ := hleaves
    obtain ⟨-, rest, hread, hrest⟩ := expression_of_readExpression hu
    have hahead : Ahead (inside ++ (g.toList ++ ')' :: b')) (a ++ g ++ b).toList :=
      ⟨c, by simp [hc, hb'], hzone⟩
    have hblocked := expression_lone_quote_ne_ok (b := b') hg hne' hinside
    have hstops := expression_stopsBefore hblocked maxNesting .code
    have hleft := (hstops _ u rest hahead hread).skipLayout
    rw [hrest] at hleft
    obtain ⟨d, hd, -⟩ := hleft
    simp at hd
  refine ⟨⟨fun hread hlone => hrefused hlone v hread, fun hlone => ?_⟩, hrefused⟩
  obtain ⟨hcheck, rest, hread, hrest⟩ := expression_of_readExpression h
  have htracks : Tracks b.toList g.toList (a ++ b).toList (a ++ g ++ b).toList :=
    Or.inr ⟨a.toList, hseam, hlone, by simp, by simp⟩
  obtain ⟨rest', hread', hrest'⟩ :=
    expression_follows hg hne' maxNesting .code _ _ v rest htracks hread
  have hend : skipLayout rest' = [] := by
    rcases hrest'.skipLayout hg with heq | ⟨c, d, -, -, -, hskip, -⟩
    · exact heq.trans hrest
    · rw [hrest] at hskip
      cases hskip
  simp only [readExpression, hread', hend, hcheck]
  rfl

/-- A comment with a parenthesis in it, behind a parenthesis that a literal does not close. -/
theorem layout_can_be_inserted_before_list :
    readExpression ("(f \")\" (" ++ "list 1))") =
        .ok (.list [.symbol ⟨"f", .any⟩, .string ")", .op (.primitive .list) [.number 1]]) ∧
      Seam "(f \")\" (".toList "list 1))".toList ∧ Filler " ;(\n".toList ∧
      readExpression ("(f \")\" (" ++ " ;(\n" ++ "list 1))") =
        .ok (.list [.symbol ⟨"f", .any⟩, .string ")", .op (.primitive .list) [.number 1]]) := by
  have hread : readExpression ("(f \")\" (" ++ "list 1))") =
      .ok (.list [.symbol ⟨"f", .any⟩, .string ")", .op (.primitive .list) [.number 1]]) := by cbv
  have hseam : Seam "(f \")\" (".toList "list 1))".toList := by
    refine ⟨by decide, Or.inl fun c hc => ?_⟩
    cases hc
    exact Or.inl rfl
  have hfiller : Filler " ;(\n".toList :=
    .blank (by decide) (@Filler.comment ['('] [] (by decide) .nil)
  refine ⟨hread, hseam, hfiller, ?_⟩
  refine (layout_can_be_inserted_iff hread hseam hfiller (by decide)).1.2 ?_
  rintro ⟨hb, -⟩
  cases hb

/-- A blank in front of the closing parenthesis is refused behind `quote`, and behind no other
word. -/
theorem blank_behind_lone_quote_is_refused :
    readExpression ("'(quote" ++ ")") =
        .ok (.op (.form .quote) [.list [.symbol ⟨"quote", .any⟩]]) ∧
      Seam "'(quote".toList ")".toList ∧ Filler " ".toList ∧
      (∀ u, readExpression ("'(quote" ++ " " ++ ")") ≠ .ok u) ∧
      readExpression "'(car )" = .ok (.op (.form .quote) [.list [.symbol ⟨"car", .any⟩]]) := by
  have hread : readExpression ("'(quote" ++ ")") =
      .ok (.op (.form .quote) [.list [.symbol ⟨"quote", .any⟩]]) := by cbv
  have hseam : Seam "'(quote".toList ")".toList := by
    refine ⟨by decide, Or.inr fun c hc => ?_⟩
    cases hc
    exact Or.inl rfl
  have hfiller : Filler " ".toList := .blank (by decide) .nil
  have hlone : BehindLoneQuote "'(quote".toList ")".toList :=
    ⟨rfl, "quote".toList, ⟨['\''], rfl, rfl⟩, rfl⟩
  refine ⟨hread, hseam, hfiller, ?_, by cbv⟩
  exact (layout_can_be_inserted_iff hread hseam hfiller (by decide)).2 hlone

end LexicalLisp.Source
