/-
  ContextFree/Proofs/ProductionLines.lean
  =======================================
  **Which lines have the form of a production.**

  The form is a pattern, and the pattern looks ahead for arrows at every symbol.
  `accepts_form_iff` says without patterns what it accepts: the line has a first
  arrow and no other, the text before it is one name, and the text behind it is cut
  by bars into alternatives.

  Whether an arrow begins somewhere in a part of a line depends on what follows the
  part, so the parts are joined through `ArrowFree w rest`: no arrow begins in `w`
  if `rest` is behind it.
-/
import ContextFree.Grammar.Text
import ContextFree.Proofs.Patterns

namespace ContextFree.Production

open Text Relation

variable {cs rest w v front : List Char}

/-! ### Arrows -/

def IsArrow (a : List Char) : Prop := a = ['-', '>'] ∨ a = ['→']

/-- An arrow is somewhere in a text. -/
def HasArrow (cs : List Char) : Prop := ∃ a, IsArrow a ∧ a <:+: cs

theorem HasArrow.of_isInfix (h : HasArrow w) (sub : w <:+: cs) : HasArrow cs := by
  obtain ⟨a, ha, inside⟩ := h
  exact ⟨a, ha, inside.trans sub⟩

/-- The texts before and behind the first arrow of a line. -/
structure FirstArrow (line front rest : List Char) : Prop where
  split : ∃ a, IsArrow a ∧ line = front ++ a ++ rest
  first : ¬ HasArrow front

theorem takes_arrow_iff : arrow.Takes cs rest ↔ ∃ a, IsArrow a ∧ cs = a ++ rest := by
  simp only [arrow, Pattern.Takes, beq_iff_eq, IsArrow]
  constructor
  · rintro (⟨mid, ⟨c, rfl, rfl⟩, d, rfl, rfl⟩ | ⟨c, rfl, rfl⟩)
    · exact ⟨['-', '>'], Or.inl rfl, rfl⟩
    · exact ⟨['→'], Or.inr rfl, rfl⟩
  · rintro ⟨a, rfl | rfl, rfl⟩
    · exact Or.inl ⟨'>' :: rest, ⟨'-', rfl, rfl⟩, '>', rfl, rfl⟩
    · exact Or.inr ⟨'→', rfl, rfl⟩

/-- An arrow begins with one of two characters, which are neither white space nor bars. -/
theorem head_of_takes_arrow {c : Char} (h : arrow.Takes (c :: cs) rest) : c = '-' ∨ c = '→' := by
  obtain ⟨a, rfl | rfl, hcs⟩ := takes_arrow_iff.1 h
  · cases hcs
    exact Or.inl rfl
  · cases hcs
    exact Or.inr rfl

/-- No arrow begins in `w` if `rest` is behind it. -/
def ArrowFree : List Char → List Char → Prop
  | [], _ => True
  | c :: w, rest => (∀ left, ¬ arrow.Takes (c :: w ++ rest) left) ∧ ArrowFree w rest

theorem arrowFree_append :
    ArrowFree (w ++ v) rest ↔ ArrowFree w (v ++ rest) ∧ ArrowFree v rest := by
  induction w with
  | nil => simp [ArrowFree]
  | cons c w ih => simp [ArrowFree, ih, and_assoc]

theorem arrowFree_of_forall (h : ∀ c ∈ w, c ≠ '-' ∧ c ≠ '→') : ArrowFree w rest := by
  induction w with
  | nil => trivial
  | cons c w ih =>
    obtain ⟨⟨hyphen, other⟩, hw⟩ := List.forall_mem_cons.1 h
    refine ⟨fun left hleft => ?_, ih hw⟩
    rcases head_of_takes_arrow hleft with hc | hc
    · exact hyphen hc
    · exact other hc

theorem arrowFree_of_blank (h : ∀ c ∈ w, isBlank c = true) : ArrowFree w rest := by
  apply arrowFree_of_forall
  intro c hc
  constructor
  · rintro rfl
    exact absurd (h '-' hc) (by decide)
  · rintro rfl
    exact absurd (h '→' hc) (by decide)

theorem hasArrow_cons_iff {c : Char} :
    HasArrow (c :: w) ↔ (∃ left, arrow.Takes (c :: w) left) ∨ HasArrow w := by
  simp only [HasArrow, takes_arrow_iff]
  constructor
  · rintro ⟨a, ha, h⟩
    rcases List.infix_cons_iff.1 h with ⟨left, h⟩ | h
    · exact Or.inl ⟨left, a, ha, h.symm⟩
    · exact Or.inr ⟨a, ha, h⟩
  · rintro (⟨left, a, ha, h⟩ | ⟨a, ha, h⟩)
    · exact ⟨a, ha, h ▸ (List.prefix_append a left).isInfix⟩
    · exact ⟨a, ha, List.infix_cons h⟩

theorem not_hasArrow_nil : ¬ HasArrow [] := by
  rintro ⟨a, rfl | rfl, h⟩ <;> simp at h

/-- Behind `w` an arrow can only be completed by `>`. -/
theorem arrowFree_iff (h : ∀ c ∈ rest.head?, c ≠ '>') : ArrowFree w rest ↔ ¬ HasArrow w := by
  induction w with
  | nil => exact iff_of_true trivial not_hasArrow_nil
  | cons c w ih =>
    have begins : (∃ left, arrow.Takes (c :: w ++ rest) left) ↔
        ∃ left, arrow.Takes (c :: w) left := by
      simp only [takes_arrow_iff]
      constructor
      · rintro ⟨left, a, ha | ha, hcs⟩
        · subst ha
          cases w with
          | nil =>
            obtain ⟨rfl, hrest⟩ := List.cons.inj hcs
            exact absurd rfl (h '>' (by rw [show rest = '>' :: left from hrest]; rfl))
          | cons d w =>
            obtain ⟨rfl, hw⟩ := List.cons.inj hcs
            obtain ⟨rfl, _⟩ := List.cons.inj hw
            exact ⟨w, _, Or.inl rfl, rfl⟩
        · subst ha
          obtain ⟨rfl, _⟩ := List.cons.inj hcs
          exact ⟨w, _, Or.inr rfl, rfl⟩
      · rintro ⟨left, a, ha, hcs⟩
        exact ⟨left ++ rest, a, ha, by rw [hcs, List.append_assoc]⟩
    rw [hasArrow_cons_iff, ← begins, not_or, ← ih]
    simp [ArrowFree]

theorem arrowFree_nil_iff : ArrowFree w [] ↔ ¬ HasArrow w := arrowFree_iff (by simp)

/-- White space or bars between two texts make no arrow. -/
theorem not_hasArrow_append {s : List Char} (hs : ∀ c ∈ s, c ≠ '-' ∧ c ≠ '→' ∧ c ≠ '>')
    (hne : s ≠ []) (hw : ¬ HasArrow w) (hv : ¬ HasArrow v) : ¬ HasArrow (w ++ (s ++ v)) := by
  rw [← arrowFree_nil_iff] at hv ⊢
  refine arrowFree_append.2 ⟨?_, arrowFree_append.2 ⟨?_, hv⟩⟩
  · obtain ⟨c, s, rfl⟩ := List.exists_cons_of_ne_nil hne
    have head : ∀ d ∈ (c :: s ++ v ++ []).head?, d ≠ '>' := by
      intro d hd
      rw [← Option.some.inj hd]
      exact (hs c List.mem_cons_self).2.2
    exact (arrowFree_iff head).2 hw
  · apply arrowFree_of_forall
    exact fun c hc => ⟨(hs c hc).1, (hs c hc).2.1⟩

theorem arrowFree_before_arrow {a : List Char} (ha : IsArrow a) (rest : List Char) :
    ArrowFree w (a ++ rest) ↔ ¬ HasArrow w := by
  apply arrowFree_iff
  rcases ha with rfl | rfl <;> simp

theorem firstArrow_append_iff {a : List Char} (ha : IsArrow a) :
    FirstArrow (a ++ cs) front rest ↔ front = [] ∧ rest = cs := by
  constructor
  · rintro ⟨⟨b, hb, h⟩, first⟩
    cases front with
    | nil =>
      refine ⟨rfl, ?_⟩
      rcases ha with rfl | rfl <;> rcases hb with rfl | rfl <;> simp_all
    | cons c front =>
      have free := (arrowFree_before_arrow hb rest).2 first
      refine absurd (takes_arrow_iff.2 ⟨a, ha, ?_⟩) (free.1 cs)
      rw [h, List.append_assoc]
  · rintro ⟨rfl, rfl⟩
    exact ⟨⟨a, ha, rfl⟩, not_hasArrow_nil⟩

theorem firstArrow_cons_iff {c : Char} (h : ∀ left, ¬ arrow.Takes (c :: cs) left) :
    FirstArrow (c :: cs) front rest ↔ ∃ f, front = c :: f ∧ FirstArrow cs f rest := by
  constructor
  · rintro ⟨⟨a, ha, hcs⟩, first⟩
    cases front with
    | nil => exact absurd (takes_arrow_iff.2 ⟨a, ha, hcs⟩) (h rest)
    | cons d front =>
      obtain ⟨rfl, behind⟩ := List.cons.inj hcs
      exact ⟨front, rfl, ⟨a, ha, behind⟩, fun later => first (hasArrow_cons_iff.2 (Or.inr later))⟩
  · rintro ⟨f, rfl, ⟨a, ha, hcs⟩, first⟩
    refine ⟨⟨a, ha, by rw [hcs]; rfl⟩, (arrowFree_before_arrow ha rest).1 ⟨?_, ?_⟩⟩
    · rw [List.cons_append, ← List.append_assoc, ← hcs]
      exact h
    · exact (arrowFree_before_arrow ha _).2 first

theorem cutArrow_eq_some_iff : cutArrow cs = some (front, rest) ↔ FirstArrow cs front rest := by
  fun_induction cutArrow cs generalizing front rest with
  | case1 =>
    refine iff_of_false (by simp) ?_
    rintro ⟨⟨a, rfl | rfl, h⟩, _⟩ <;> simp at h
  | case2 cs =>
    rw [show '-' :: '>' :: cs = ['-', '>'] ++ cs from rfl, firstArrow_append_iff (Or.inl rfl)]
    simp [eq_comm]
  | case3 cs =>
    rw [show '→' :: cs = ['→'] ++ cs from rfl, firstArrow_append_iff (Or.inr rfl)]
    simp [eq_comm]
  | case4 c cs notHyphen notArrow ih =>
    have none : ∀ left, ¬ arrow.Takes (c :: cs) left := by
      intro left h
      obtain ⟨a, rfl | rfl, hcs⟩ := takes_arrow_iff.1 h
      · obtain ⟨rfl, rfl⟩ := List.cons.inj hcs
        exact notHyphen left rfl rfl
      · exact notArrow (List.cons.inj hcs).1
    rw [firstArrow_cons_iff none]
    simp only [Option.map_eq_some_iff, Prod.exists, Prod.mk.injEq, ih]
    constructor
    · rintro ⟨f, r, h, rfl, rfl⟩
      exact ⟨f, rfl, h⟩
    · rintro ⟨f, rfl, h⟩
      exact ⟨f, rest, h, rfl, rfl⟩

/-! ### Symbols -/

/-- A run of characters that may be in a name. -/
def Plain (w : List Char) : Prop := ∀ c ∈ w, isBlank c = false ∧ c ≠ '|'

instance : Decidable (Plain w) :=
  List.decidableBAll (fun c => isBlank c = false ∧ c ≠ '|') w

theorem takes_symbolChar_iff :
    (Pattern.seq (.notAhead arrow) (.char fun c => !isBlank c && c != '|')).Takes cs rest ↔
      ∃ c, cs = c :: rest ∧ (isBlank c = false ∧ c ≠ '|') ∧ ∀ left, ¬ arrow.Takes cs left := by
  simp only [Pattern.Takes, Bool.and_eq_true, Bool.not_eq_true', bne_iff_ne]
  constructor
  · rintro ⟨mid, ⟨rfl, free⟩, c, hc, rfl⟩
    exact ⟨c, rfl, hc, free⟩
  · rintro ⟨c, rfl, hc, free⟩
    exact ⟨c :: rest, ⟨rfl, free⟩, c, hc, rfl⟩

theorem takes_star_symbolChar_iff :
    (Pattern.star (.seq (.notAhead arrow) (.char fun c => !isBlank c && c != '|'))).Takes cs rest ↔
      ∃ w, cs = w ++ rest ∧ Plain w ∧ ArrowFree w rest := by
  constructor
  · intro h
    induction h using ReflTransGen.head_induction_on with
    | refl => exact ⟨[], rfl, List.forall_mem_nil _, trivial⟩
    | head step _ ih =>
      obtain ⟨c, rfl, hc, free⟩ := takes_symbolChar_iff.1 step
      obtain ⟨w, rfl, hw, hfree⟩ := ih
      exact ⟨c :: w, rfl, List.forall_mem_cons.2 ⟨hc, hw⟩, free, hfree⟩
  · rintro ⟨w, rfl, hw, hfree⟩
    induction w with
    | nil => exact .refl
    | cons c w ih =>
      obtain ⟨hc, hw⟩ := List.forall_mem_cons.1 hw
      exact .head (takes_symbolChar_iff.2 ⟨c, rfl, hc, hfree.1⟩) (ih hw hfree.2)

theorem takes_symbol_iff :
    symbol.Takes cs rest ↔ ∃ w, cs = w ++ rest ∧ w ≠ [] ∧ Plain w ∧ ArrowFree w rest := by
  constructor
  · rintro ⟨mid, step, more⟩
    obtain ⟨c, rfl, hc, free⟩ := takes_symbolChar_iff.1 step
    obtain ⟨w, rfl, hw, hfree⟩ := takes_star_symbolChar_iff.1 more
    exact ⟨c :: w, rfl, List.cons_ne_nil c w, List.forall_mem_cons.2 ⟨hc, hw⟩, free, hfree⟩
  · rintro ⟨w, rfl, hne, hw, hfree⟩
    obtain ⟨c, w, rfl⟩ := List.exists_cons_of_ne_nil hne
    obtain ⟨hc, hw⟩ := List.forall_mem_cons.1 hw
    exact ⟨w ++ rest, takes_symbolChar_iff.2 ⟨c, rfl, hc, hfree.1⟩,
      takes_star_symbolChar_iff.2 ⟨w, rfl, hw, hfree.2⟩⟩

theorem Plain.trimmed (h : Plain w) : Trimmed w where
  head c hc := (h c (List.mem_of_mem_head? hc)).1
  last c hc := (h c (List.mem_of_getLast? hc)).1

/-! ### Alternatives -/

/-- Symbols with spaces and tabs between them. -/
structure Separated (w : List Char) : Prop where
  ne_nil : w ≠ []
  trimmed : Trimmed w
  not_bar : ∀ c ∈ w, c ≠ '|'
  space_or_tab : ∀ c ∈ w, isBlank c = true → c = ' ' ∨ c = '\t'

theorem Plain.separated (h : Plain w) (hne : w ≠ []) : Separated w where
  ne_nil := hne
  trimmed := h.trimmed
  not_bar c hc := (h c hc).2
  space_or_tab c hc blank := by
    rw [(h c hc).1] at blank
    cases blank

theorem takes_nextSymbol_iff :
    nextSymbol.Takes cs rest ↔
      ∃ t s, cs = t ++ s ++ rest ∧ t ≠ [] ∧ (∀ c ∈ t, c = ' ' ∨ c = '\t') ∧
        s ≠ [] ∧ Plain s ∧ ArrowFree s rest := by
  constructor
  · rintro ⟨mid, blanks, next⟩
    obtain ⟨t, rfl, hne, ht⟩ := Pattern.takes_plus_char_iff.1 blanks
    obtain ⟨s, rfl, hs⟩ := takes_symbol_iff.1 next
    exact ⟨t, s, (List.append_assoc _ _ _).symm, hne, by simpa using ht, hs⟩
  · rintro ⟨t, s, rfl, hne, ht, hs⟩
    refine ⟨s ++ rest, Pattern.takes_plus_char_iff.2 ⟨t, List.append_assoc _ _ _, hne, ?_⟩,
      takes_symbol_iff.2 ⟨s, rfl, hs⟩⟩
    simpa using ht

theorem Separated.append {t : List Char} (hw : Separated w)
    (ht : ∀ c ∈ t, c = ' ' ∨ c = '\t') (hv : Separated v) : Separated (w ++ t ++ v) where
  ne_nil := List.append_ne_nil_of_right_ne_nil _ hv.ne_nil
  trimmed := by
    constructor
    · intro c hc
      obtain ⟨d, w, rfl⟩ := List.exists_cons_of_ne_nil hw.ne_nil
      exact hw.trimmed.head c hc
    · intro c hc
      rw [List.getLast?_append, List.getLast?_eq_some_getLast hv.ne_nil] at hc
      apply hv.trimmed.last c
      rw [List.getLast?_eq_some_getLast hv.ne_nil]
      exact hc
  not_bar c hc := by
    simp only [List.mem_append] at hc
    rcases hc with (hc | hc) | hc
    · exact hw.not_bar c hc
    · rcases ht c hc with rfl | rfl <;> decide
    · exact hv.not_bar c hc
  space_or_tab c hc blank := by
    simp only [List.mem_append] at hc
    rcases hc with (hc | hc) | hc
    · exact hw.space_or_tab c hc blank
    · exact ht c hc
    · exact hv.space_or_tab c hc blank

/-- The first symbol, and the rest of the alternative behind the blanks after it. -/
theorem Separated.cases_first (hw : Separated w) : Plain w ∨
    ∃ s t v, w = s ++ t ++ v ∧ s ≠ [] ∧ Plain s ∧ t ≠ [] ∧ (∀ c ∈ t, c = ' ' ∨ c = '\t') ∧
      Separated v := by
  obtain ⟨s, t, v, rfl, hs, ht, hv, htv⟩ := exists_firstWord w
  have bar := hw.not_bar
  have space := hw.space_or_tab
  simp only [List.forall_mem_append] at bar space
  have plain : Plain s := fun c hc => ⟨hs c hc, bar.1.1 c hc⟩
  by_cases hnil : t = []
  · left
    rw [hnil, htv hnil, List.append_nil, List.append_nil]
    exact plain
  · right
    have hsne : s ≠ [] := by
      rintro rfl
      obtain ⟨d, t, rfl⟩ := List.exists_cons_of_ne_nil hnil
      have notBlank := hw.trimmed.head d rfl
      rw [ht d List.mem_cons_self] at notBlank
      cases notBlank
    have hvne : v ≠ [] := by
      rintro rfl
      have last : t.getLast hnil ∈ (s ++ t ++ []).getLast? := by
        rw [List.append_nil, List.getLast?_append, List.getLast?_eq_some_getLast hnil]
        rfl
      have notBlank := hw.trimmed.last _ last
      rw [ht _ (List.getLast_mem hnil)] at notBlank
      cases notBlank
    have trimmed : Trimmed v := by
      refine ⟨hv, ?_⟩
      intro c hc
      apply hw.trimmed.last c
      rw [List.getLast?_append, hc]
      rfl
    exact ⟨s, t, v, rfl, hsne, plain, hnil, fun c hc => space.1.2 c hc (ht c hc), hvne, trimmed,
      bar.2, space.2⟩

theorem takes_alternative_iff :
    alternative.Takes cs rest ↔ ∃ w, cs = w ++ rest ∧ Separated w ∧ ArrowFree w rest := by
  constructor
  · rintro ⟨mid, first, more⟩
    obtain ⟨w, rfl, hne, hw, hfree⟩ := takes_symbol_iff.1 first
    have extended : ∀ left, ReflTransGen nextSymbol.Takes mid left →
        ∃ v, w ++ mid = v ++ left ∧ Separated v ∧ ArrowFree v left := by
      intro left h
      induction h with
      | refl => exact ⟨w, rfl, hw.separated hne, hfree⟩
      | @tail _ left _ step ih =>
        obtain ⟨v, hv, separated, free⟩ := ih
        obtain ⟨t, s, rfl, _, ht, hs, plain, sfree⟩ := takes_nextSymbol_iff.1 step
        refine ⟨v ++ t ++ s, by rw [hv]; simp, separated.append ht (plain.separated hs), ?_⟩
        have tfree : ArrowFree t (s ++ left) := arrowFree_of_forall fun c hc => by
          rcases ht c hc with rfl | rfl <;> decide
        rw [List.append_assoc] at free
        exact arrowFree_append.2 ⟨arrowFree_append.2 ⟨free, tfree⟩, sfree⟩
    exact extended rest more
  · rintro ⟨w, rfl, hw, hfree⟩
    obtain ⟨n, hn⟩ : ∃ n, w.length ≤ n := ⟨_, Nat.le_refl _⟩
    induction n generalizing w with
    | zero => exact absurd (List.length_eq_zero_iff.1 (Nat.le_zero.1 hn)) hw.ne_nil
    | succ n ih =>
      rcases hw.cases_first with plain | ⟨s, t, v, rfl, hs, plain, ht, blank, hv⟩
      · exact ⟨rest, takes_symbol_iff.2 ⟨w, rfl, hw.ne_nil, plain, hfree⟩, .refl⟩
      · obtain ⟨hst, hvfree⟩ := arrowFree_append.1 hfree
        obtain ⟨hsfree, _⟩ := arrowFree_append.1 hst
        have shorter : v.length ≤ n := by
          have := List.length_pos_iff.2 hs
          simp only [List.length_append] at hn
          omega
        obtain ⟨mid, next, more⟩ := ih v hv hvfree shorter
        have step : nextSymbol.Takes (t ++ (v ++ rest)) mid :=
          ⟨v ++ rest, Pattern.takes_plus_char_iff.2 ⟨t, rfl, ht, by simpa using blank⟩, next⟩
        refine ⟨t ++ (v ++ rest), takes_symbol_iff.2 ⟨s, by simp, hs, plain, ?_⟩, .head step more⟩
        simpa using hsfree

/-! ### Alternatives between bars -/

theorem takes_blanks_iff :
    blanks.Takes cs rest ↔ ∃ l, cs = l ++ rest ∧ ∀ c ∈ l, isBlank c = true :=
  Pattern.takes_star_char_iff

/-- An alternative with white space around it. -/
def IsPiece (piece : List Char) : Prop :=
  ∃ l w r, piece = l ++ w ++ r ∧ (∀ c ∈ l, isBlank c = true) ∧ Separated w ∧
    ∀ c ∈ r, isBlank c = true

/-- What stripping leaves is not empty and has only spaces and tabs between its symbols. -/
def IsAlternative (piece : List Char) : Prop :=
  strip piece ≠ [] ∧ ∀ c ∈ strip piece, isBlank c = true → c = ' ' ∨ c = '\t'

theorem isPiece_iff {piece : List Char} (hbar : ∀ c ∈ piece, c ≠ '|') :
    IsPiece piece ↔ IsAlternative piece := by
  unfold IsAlternative
  constructor
  · rintro ⟨l, w, r, rfl, hl, hw, hr⟩
    rw [strip_append hl hr hw.trimmed hw.ne_nil]
    exact ⟨hw.ne_nil, hw.space_or_tab⟩
  · rintro ⟨hne, hspace⟩
    obtain ⟨l, r, hpiece, hl, hr, trimmed⟩ := exists_strip piece
    refine ⟨l, strip piece, r, hpiece, hl, ⟨hne, trimmed, fun c hc => hbar c ?_, hspace⟩, hr⟩
    rw [hpiece]
    simp [hc]

theorem not_bar_of_blank {l : List Char} (hl : ∀ c ∈ l, isBlank c = true) : ∀ c ∈ l, c ≠ '|' := by
  rintro c hc rfl
  exact absurd (hl _ hc) (by decide)

theorem IsPiece.not_bar {piece : List Char} (h : IsPiece piece) : ∀ c ∈ piece, c ≠ '|' := by
  obtain ⟨l, w, r, rfl, hl, hw, hr⟩ := h
  intro c hc
  simp only [List.mem_append] at hc
  rcases hc with (hc | hc) | hc
  · exact not_bar_of_blank hl c hc
  · exact hw.not_bar c hc
  · exact not_bar_of_blank hr c hc

theorem takes_nextAlternative_iff :
    nextAlternative.Takes cs rest ↔
      ∃ r l w, cs = r ++ '|' :: (l ++ w ++ rest) ∧ (∀ c ∈ r, isBlank c = true) ∧
        (∀ c ∈ l, isBlank c = true) ∧ Separated w ∧ ArrowFree w rest := by
  constructor
  · rintro ⟨_, before, _, ⟨c, hc, rfl⟩, _, behind, last⟩
    obtain ⟨r, rfl, hr⟩ := takes_blanks_iff.1 before
    obtain ⟨l, rfl, hl⟩ := takes_blanks_iff.1 behind
    obtain ⟨w, rfl, hw⟩ := takes_alternative_iff.1 last
    rw [eq_of_beq hc]
    exact ⟨r, l, w, by simp, hr, hl, hw⟩
  · rintro ⟨r, l, w, rfl, hr, hl, hw⟩
    exact ⟨_, takes_blanks_iff.2 ⟨r, rfl, hr⟩, _, ⟨'|', rfl, rfl⟩, w ++ rest,
      takes_blanks_iff.2 ⟨l, by simp, hl⟩, takes_alternative_iff.2 ⟨w, rfl, hw⟩⟩

theorem arrowFree_bar : ArrowFree ['|'] rest := by
  apply arrowFree_of_forall
  simp

theorem splitOn_of_isPiece {piece : List Char} (h : IsPiece piece) :
    splitOn (· == '|') piece = [piece] :=
  splitOn_of_forall_not fun c hc => beq_eq_false_iff_ne.2 (h.not_bar c hc)

theorem pieces_of_takes_rightSide (h : rightSide.Takes cs []) :
    ArrowFree cs [] ∧ ∀ piece ∈ splitOn (· == '|') cs, IsPiece piece := by
  obtain ⟨_, before, _, first, r, more, behind⟩ := h
  obtain ⟨l, rfl, hl⟩ := takes_blanks_iff.1 before
  obtain ⟨w, rfl, hw, hfree⟩ := takes_alternative_iff.1 first
  obtain ⟨r, rfl, hr⟩ := takes_blanks_iff.1 behind
  clear before first behind
  rw [List.append_nil] at more
  -- From the last alternative to the first.
  induction more using ReflTransGen.head_induction_on generalizing l w with
  | refl =>
    have piece : IsPiece (l ++ (w ++ r)) := ⟨l, w, r, by simp, hl, hw, hr⟩
    refine ⟨arrowFree_append.2 ⟨arrowFree_of_blank hl, arrowFree_append.2 ⟨?_, ?_⟩⟩, ?_⟩
    · simpa using hfree
    · exact arrowFree_of_blank hr
    · rw [splitOn_of_isPiece piece]
      exact List.forall_mem_singleton.2 piece
  | head step _ ih =>
    obtain ⟨s, l', w', rfl, hs, hl', hw', hfree'⟩ := takes_nextAlternative_iff.1 step
    have piece : IsPiece (l ++ w ++ s) := ⟨l, w, s, rfl, hl, hw, hs⟩
    have bar : ∀ c ∈ l ++ w ++ s, (c == '|') = false :=
      fun c hc => beq_eq_false_iff_ne.2 (piece.not_bar c hc)
    obtain ⟨free, pieces⟩ := ih l' hl' w' hw' hfree'
    have assoc : ∀ tail, l ++ (w ++ (s ++ '|' :: tail)) = l ++ w ++ s ++ '|' :: tail := by simp
    rw [← List.append_assoc l' w'] at free pieces
    constructor
    · refine arrowFree_append.2 ⟨arrowFree_of_blank hl, arrowFree_append.2 ⟨?_,
        arrowFree_append.2 ⟨arrowFree_of_blank hs, arrowFree_append.2 ⟨arrowFree_bar, free⟩⟩⟩⟩
      simpa using hfree
    · rw [assoc, splitOn_cons_of bar rfl]
      exact List.forall_mem_cons.2 ⟨piece, pieces⟩

theorem takes_rightSide_of_pieces (free : ArrowFree cs [])
    (pieces : ∀ piece ∈ splitOn (· == '|') cs, IsPiece piece) : rightSide.Takes cs [] := by
  induction cs using pieces_induction (p := (· == '|')) with
  | last xs hxs =>
    rw [splitOn_of_forall_not hxs] at pieces
    obtain ⟨l, w, r, rfl, hl, hw, hr⟩ := List.forall_mem_singleton.1 pieces
    obtain ⟨lfree, _⟩ := arrowFree_append.1 free
    obtain ⟨_, wfree⟩ := arrowFree_append.1 lfree
    rw [List.append_nil] at wfree
    exact ⟨w ++ r, takes_blanks_iff.2 ⟨l, by simp, hl⟩, r,
      takes_alternative_iff.2 ⟨w, rfl, hw, wfree⟩, r, .refl, takes_blanks_iff.2 ⟨r, by simp, hr⟩⟩
  | more xs c ys hxs hc ih =>
    rw [splitOn_cons_of hxs hc] at pieces
    -- The white space behind an alternative belongs to the bar that follows.
    obtain ⟨⟨l, w, r, rfl, hl, hw, hr⟩, others⟩ := List.forall_mem_cons.1 pieces
    obtain ⟨lfree, rfree⟩ := arrowFree_append.1 free
    obtain ⟨wfree, _⟩ := arrowFree_append.1 lfree
    obtain ⟨_, wfree⟩ := arrowFree_append.1 wfree
    obtain ⟨mid, before, left, first, last, more, behind⟩ := ih rfree.2 others
    have step : nextAlternative.Takes (r ++ c :: ys) left :=
      ⟨c :: ys, takes_blanks_iff.2 ⟨r, rfl, hr⟩, ys, ⟨c, hc, rfl⟩, mid, before, first⟩
    refine ⟨w ++ (r ++ c :: ys), takes_blanks_iff.2 ⟨l, by simp, hl⟩, r ++ c :: ys,
      takes_alternative_iff.2 ⟨w, rfl, hw, ?_⟩, last, .head step more, behind⟩
    simpa using wfree

/-- What the pattern of the alternatives takes, up to the end of the line. -/
theorem takes_rightSide_iff : rightSide.Takes cs [] ↔
    ¬ HasArrow cs ∧ ∀ piece ∈ splitOn (· == '|') cs, IsAlternative piece := by
  have pieces : ∀ piece ∈ splitOn (· == '|') cs, IsPiece piece ↔ IsAlternative piece :=
    fun piece hpiece =>
      isPiece_iff fun c hc => beq_eq_false_iff_ne.1 (not_of_mem_splitOn hpiece c hc)
  rw [← arrowFree_nil_iff]
  constructor
  · intro h
    obtain ⟨free, all⟩ := pieces_of_takes_rightSide h
    exact ⟨free, fun piece hpiece => (pieces piece hpiece).1 (all piece hpiece)⟩
  · intro h
    obtain ⟨free, all⟩ := h
    exact takes_rightSide_of_pieces free fun piece hpiece =>
      (pieces piece hpiece).2 (all piece hpiece)

/-! ### The form of a line -/

/-- Behind the first arrow of a line, where no other is, alternatives stand between bars; in front
    of it stands one name. -/
structure HasForm (front rest : List Char) : Prop where
  lhs_ne_nil : strip front ≠ []
  lhs_plain : Plain (strip front)
  last : ¬ HasArrow rest
  pieces : ∀ piece ∈ splitOn (· == '|') rest, IsAlternative piece

/-- What the pattern of a line accepts. -/
theorem accepts_form_iff {line : List Char} :
    form.accepts line = true ↔ ∃ front rest, FirstArrow line front rest ∧ HasForm front rest := by
  rw [Pattern.accepts_iff]
  constructor
  · rintro ⟨_, before, _, name, _, between, rest, harrow, behind⟩
    obtain ⟨l, rfl, hl⟩ := takes_blanks_iff.1 before
    obtain ⟨w, rfl, hne, hw, wfree⟩ := takes_symbol_iff.1 name
    obtain ⟨r, rfl, hr⟩ := takes_blanks_iff.1 between
    obtain ⟨a, ha, rfl⟩ := takes_arrow_iff.1 harrow
    obtain ⟨last, pieces⟩ := takes_rightSide_iff.1 behind
    have first : ¬ HasArrow (l ++ w ++ r) := by
      rw [← arrowFree_before_arrow ha rest]
      refine arrowFree_append.2 ⟨arrowFree_append.2 ⟨arrowFree_of_blank hl, wfree⟩, ?_⟩
      exact arrowFree_of_blank hr
    have stripped : strip (l ++ w ++ r) = w := strip_append hl hr hw.trimmed hne
    refine ⟨l ++ w ++ r, rest, ⟨⟨a, ha, by simp⟩, first⟩, ?_, ?_, last, pieces⟩
    · rw [stripped]
      exact hne
    · rw [stripped]
      exact hw
  · rintro ⟨front, rest, ⟨⟨a, ha, rfl⟩, first⟩, lhs_ne_nil, lhs_plain, last, pieces⟩
    obtain ⟨l, r, hfront, hl, hr, _⟩ := exists_strip front
    have free := (arrowFree_before_arrow ha rest).2 first
    rw [hfront] at free ⊢
    obtain ⟨lfree, _⟩ := arrowFree_append.1 free
    obtain ⟨_, wfree⟩ := arrowFree_append.1 lfree
    exact ⟨strip front ++ (r ++ (a ++ rest)), takes_blanks_iff.2 ⟨l, by simp, hl⟩, r ++ (a ++ rest),
      takes_symbol_iff.2 ⟨strip front, rfl, lhs_ne_nil, lhs_plain, wfree⟩, a ++ rest,
      takes_blanks_iff.2 ⟨r, rfl, hr⟩, rest, takes_arrow_iff.2 ⟨a, ha, rfl⟩,
      takes_rightSide_iff.2 ⟨last, pieces⟩⟩

end ContextFree.Production
