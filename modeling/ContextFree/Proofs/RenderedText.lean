/-
  ContextFree/Proofs/RenderedText.lean
  ====================================
  **A grammar read back from its own text.**

  The text of a grammar declares nothing, so its names must not be mistaken for
  anything else and must show the kind of their symbols; `Readable` lists what that
  takes.  A line of a readable grammar is a production that says what the grammar has
  for its left-hand side (`reads_renderLine`).  What is read from all the lines has
  exactly the rules of the grammar and the same text (`Readable.exists_ofText_render`).
-/
import ContextFree.Grammar.Render
import ContextFree.Proofs.TextReading

namespace ContextFree

open Text Production

/-- A text that can stand as a name in a production. -/
structure IsName (a : String) : Prop where
  ne_nil : a.toList ≠ []
  plain : Plain a.toList
  not_hasArrow : ¬ HasArrow a.toList

namespace Grammar

/-- A grammar whose text shows all its rules: names are names, no left-hand side looks like a
    comment, no symbol of a right-hand side looks like an empty one, and the symbols of the
    right-hand sides are of the kinds that their names and the left-hand sides give them. -/
structure Readable (g : Grammar) : Prop where
  isNonterminal_lhs : ∀ A, g.rhss A ≠ [] → A.isNonterminal = true
  isName_lhs : ∀ A, g.rhss A ≠ [] → IsName A.name
  not_comment : ∀ A, g.rhss A ≠ [] → ∀ c ∈ A.name.toList.head?, c ≠ '#'
  isName_rhs : ∀ A, ∀ r ∈ g.rhss A, ∀ x ∈ r, IsName x.name
  not_epsilon : ∀ A, ∀ r ∈ g.rhss A, ∀ x ∈ r, isEpsilonWord x.name.toList = false
  isNonterminal_iff : ∀ A, ∀ r ∈ g.rhss A, ∀ x ∈ r,
    (x.isNonterminal = true ↔ g.rhss (.nonterminal x.name) ≠ [] ∨ IsCapitalized x.name)
  nodup_rhss : ∀ A, (g.rhss A).Nodup

end Grammar

/-! ### The text of a right-hand side -/

theorem IsName.separated {a : String} (h : IsName a) : Separated a.toList :=
  h.plain.separated h.ne_nil

/-- Texts without arrows, put together without arrows, have none. -/
theorem not_hasArrow_join {separator : String} {ts : List String}
    (hsep : ∀ c ∈ separator.toList, c ≠ '-' ∧ c ≠ '→' ∧ c ≠ '>') (hne : separator.toList ≠ [])
    (hts : ∀ t ∈ ts, ¬ HasArrow t.toList) : ¬ HasArrow (join separator ts).toList := by
  induction ts with
  | nil => exact not_hasArrow_nil
  | cons t ts ih =>
    obtain ⟨ht, hts⟩ := List.forall_mem_cons.1 hts
    cases ts with
    | nil => exact ht
    | cons u ts =>
      have text : (join separator (t :: u :: ts)).toList =
          t.toList ++ (separator.toList ++ (join separator (u :: ts)).toList) := by
        simp [join_cons_cons]
      rw [text]
      exact not_hasArrow_append hsep hne ht (ih hts)

section Names

variable {names : List String} (hnames : ∀ a ∈ names, IsName a)
include hnames

theorem separated_join (hne : names ≠ []) : Separated (join " " names).toList := by
  induction names with
  | nil => exact absurd rfl hne
  | cons a names ih =>
    obtain ⟨ha, hnames⟩ := List.forall_mem_cons.1 hnames
    cases names with
    | nil => exact ha.separated
    | cons b names =>
      have rest := ih hnames (List.cons_ne_nil b names)
      have text : (join " " (a :: b :: names)).toList =
          a.toList ++ [' '] ++ (join " " (b :: names)).toList := by
        simp [join_cons_cons]
      rw [text]
      exact ha.separated.append (by simp) rest

theorem words_join : words (join " " names).toList = names.map String.toList := by
  induction names with
  | nil => rfl
  | cons a names ih =>
    obtain ⟨ha, hnames⟩ := List.forall_mem_cons.1 hnames
    have word : words a.toList = [a.toList] :=
      words_singleton ha.ne_nil fun c hc => (ha.plain c hc).1
    cases names with
    | nil => rw [join_singleton, word, List.map_singleton]
    | cons b names =>
      have text : (join " " (a :: b :: names)).toList =
          a.toList ++ ' ' :: (join " " (b :: names)).toList := by
        simp [join_cons_cons]
      rw [text, words_append_cons (by decide), word, ih hnames]
      rfl

end Names

/-- What the text of a right-hand side looks like, and what its words say. -/
structure Shows (t : String) (names : List String) : Prop where
  separated : Separated t.toList
  not_hasArrow : ¬ HasArrow t.toList
  alone : ∀ w ∈ words t.toList, isEpsilonWord w = true → words t.toList = [w]
  names_eq : alternativeNames t.toList = names

theorem shows_epsilon : Shows "ε" [] := by
  have text : "ε".toList = ['ε'] := by decide
  have word : words ['ε'] = [['ε']] := by decide
  refine ⟨?_, ?_, ?_, by decide⟩ <;> rw [text]
  · apply Plain.separated
    · decide
    · simp
  · rw [← arrowFree_nil_iff]
    apply arrowFree_of_forall
    simp
  · rw [word]
    simp

theorem shows_join {names : List String} (hnames : ∀ a ∈ names, IsName a)
    (hwords : ∀ a ∈ names, isEpsilonWord a.toList = false) (hne : names ≠ []) :
    Shows (join " " names) names := by
  have words := words_join hnames
  have none : ∀ w ∈ names.map String.toList, ¬ isEpsilonWord w = true := by
    intro w hw
    obtain ⟨a, ha, rfl⟩ := List.mem_map.1 hw
    simp [hwords a ha]
  refine ⟨separated_join hnames hne, ?_, ?_, ?_⟩
  · apply not_hasArrow_join
    · simp
    · simp
    · exact fun a ha => (hnames a ha).not_hasArrow
  · rw [words]
    exact fun w hw heps => absurd heps (none w hw)
  · have any : (names.map String.toList).any isEpsilonWord = false := by
      rw [List.any_eq_false]
      exact none
    unfold alternativeNames
    rw [words, any]
    simp [Function.comp_def]

theorem shows_render {r : Rhs} (hnames : ∀ x ∈ r, IsName x.name)
    (hwords : ∀ x ∈ r, isEpsilonWord x.name.toList = false) :
    Shows r.render (r.map Symbol.name) := by
  cases r with
  | nil => exact shows_epsilon
  | cons x r =>
    apply shows_join
    · simpa using hnames
    · simpa using hwords
    · simp

/-! ### The text of a line -/

/-- The alternatives of a line, each with spaces around it. -/
theorem forall₂_splitOn_join {ts : List String} (hne : ts ≠ [])
    (hbar : ∀ t ∈ ts, ∀ c ∈ t.toList, c ≠ '|') :
    List.Forall₂ (fun t piece => ∃ r, piece = [' '] ++ t.toList ++ r ∧ ∀ c ∈ r, c = ' ')
      ts (splitOn (· == '|') (' ' :: (join " | " ts).toList)) := by
  induction ts with
  | nil => exact absurd rfl hne
  | cons t ts ih =>
    obtain ⟨ht, hts⟩ := List.forall_mem_cons.1 hbar
    have padded : ∀ r : List Char, (∀ c ∈ r, c = ' ') →
        ∀ c ∈ [' '] ++ t.toList ++ r, (c == '|') = false := by
      intro r hr c hc
      simp only [List.mem_append, List.mem_singleton] at hc
      rcases hc with (rfl | hc) | hc
      · decide
      · exact beq_eq_false_iff_ne.2 (ht c hc)
      · rw [hr c hc]
        decide
    cases ts with
    | nil =>
      have text : ' ' :: (join " | " [t]).toList = [' '] ++ t.toList ++ [] := by simp
      rw [text, splitOn_of_forall_not (padded [] (by simp))]
      exact .cons ⟨[], rfl, by simp⟩ .nil
    | cons u ts =>
      have text : ' ' :: (join " | " (t :: u :: ts)).toList =
          [' '] ++ t.toList ++ [' '] ++ '|' :: ' ' :: (join " | " (u :: ts)).toList := by
        simp [join_cons_cons]
      rw [text, splitOn_cons_of (padded [' '] (by simp)) rfl]
      exact .cons ⟨[' '], rfl, by simp⟩ (ih (List.cons_ne_nil u ts) hts)

theorem isBlank_of_space {r : List Char} (hr : ∀ c ∈ r, c = ' ') : ∀ c ∈ r, isBlank c = true := by
  intro c hc
  rw [hr c hc]
  decide

/-- Spaces around an alternative make no difference. -/
theorem words_padded (cs : List Char) {r : List Char} (hr : ∀ c ∈ r, c = ' ') :
    words ([' '] ++ cs ++ r) = words cs := by
  have front : words ([' '] ++ cs ++ r) = words (cs ++ r) :=
    words_append_cons (c := ' ') (by decide) [] (cs ++ r)
  rw [front]
  cases r with
  | nil => rw [List.append_nil]
  | cons c r =>
    obtain ⟨hc, hr⟩ := List.forall_mem_cons.1 hr
    rw [hc, words_append_cons (by decide), words_eq_nil (isBlank_of_space hr), List.append_nil]

/-- A piece of a line that shows a right-hand side with the given names. -/
structure ShowsPiece (piece : List Char) (names : List String) : Prop where
  isAlternative : IsAlternative piece
  alone : ∀ w ∈ words piece, isEpsilonWord w = true → words piece = [w]
  names_eq : alternativeNames piece = names

theorem Shows.padded {t : String} {names : List String} (h : Shows t names) {r : List Char}
    (hr : ∀ c ∈ r, c = ' ') : ShowsPiece ([' '] ++ t.toList ++ r) names := by
  have stripped : strip ([' '] ++ t.toList ++ r) = t.toList :=
    strip_append (by simp [isBlank]) (isBlank_of_space hr) h.separated.trimmed h.separated.ne_nil
  have words := words_padded t.toList hr
  refine ⟨⟨?_, ?_⟩, ?_, ?_⟩
  · rw [stripped]
    exact h.separated.ne_nil
  · rw [stripped]
    exact h.separated.space_or_tab
  · rw [words]
    exact h.alone
  · rw [← h.names_eq]
    unfold alternativeNames
    rw [words]

section Lines

variable {A : Symbol} {rs : List Rhs}

/-- The text behind the arrow of a line. -/
def renderAlternatives (rs : List Rhs) : List Char := ' ' :: (join " | " (rs.map Rhs.render)).toList

theorem toList_renderLine (A : Symbol) (rs : List Rhs) :
    (Grammar.renderLine A rs).toList =
      A.name.toList ++ [' '] ++ ['-', '>'] ++ renderAlternatives (sortBy Rhs.render rs) := by
  unfold renderAlternatives
  rw [map_sortBy]
  simp [Grammar.renderLine]

theorem firstArrow_renderLine (hA : IsName A.name) :
    FirstArrow (Grammar.renderLine A rs).toList (A.name.toList ++ [' '])
      (renderAlternatives (sortBy Rhs.render rs)) := by
  refine ⟨⟨_, Or.inl rfl, toList_renderLine A rs⟩, ?_⟩
  exact not_hasArrow_append (s := [' ']) (by simp) (by simp) hA.not_hasArrow not_hasArrow_nil

variable (hrs : ∀ r ∈ rs, Shows r.render (r.map Symbol.name))
include hrs

theorem not_hasArrow_renderAlternatives : ¬ HasArrow (renderAlternatives rs) := by
  apply not_hasArrow_append (w := []) (s := [' ']) (by simp) (by simp) not_hasArrow_nil
  apply not_hasArrow_join (by simp) (by simp)
  intro t ht
  obtain ⟨r, hr, rfl⟩ := List.mem_map.1 ht
  exact (hrs r hr).not_hasArrow

theorem showsPiece_renderAlternatives (hne : rs ≠ []) :
    List.Forall₂ (fun r piece => ShowsPiece piece (r.map Symbol.name)) rs
      (splitOn (· == '|') (renderAlternatives rs)) := by
  have bar : ∀ t ∈ rs.map Rhs.render, ∀ c ∈ t.toList, c ≠ '|' := by
    intro t ht
    obtain ⟨r, hr, rfl⟩ := List.mem_map.1 ht
    exact (hrs r hr).separated.not_bar
  have split := forall₂_splitOn_join (by simpa using hne) bar
  rw [List.forall₂_map_left_iff] at split
  refine ((List.forall₂_and_left _ _).2 ⟨hrs, split⟩).imp ?_
  intro r piece h
  obtain ⟨shows, s, rfl, hs⟩ := h
  exact shows.padded hs

/-- A line of a grammar is a production, and says what the line was made from. -/
theorem reads_renderLine (hA : IsName A.name) (hne : rs ≠ []) :
    IsProduction (Grammar.renderLine A rs).toList ∧ Reads (Grammar.renderLine A rs).toList
      ⟨A.name, (sortBy Rhs.render rs).map fun r => r.map Symbol.name⟩ := by
  have shown : ∀ r ∈ sortBy Rhs.render rs, Shows r.render (r.map Symbol.name) :=
    fun r hr => hrs r (mem_sortBy.1 hr)
  have sorted : sortBy Rhs.render rs ≠ [] := by
    obtain ⟨r, hr⟩ := List.exists_mem_of_ne_nil _ hne
    exact List.ne_nil_of_mem (mem_sortBy.2 hr)
  have first : FirstArrow (Grammar.renderLine A rs).toList _ _ := firstArrow_renderLine hA
  have pieces := showsPiece_renderAlternatives shown sorted
  have lhs : strip (A.name.toList ++ [' ']) = A.name.toList :=
    strip_append (l := []) (by simp) (by simp [isBlank]) hA.plain.trimmed hA.ne_nil
  have form : HasForm (A.name.toList ++ [' ']) (renderAlternatives (sortBy Rhs.render rs)) := by
    refine ⟨?_, ?_, not_hasArrow_renderAlternatives shown, ?_⟩
    · rw [lhs]
      exact hA.ne_nil
    · rw [lhs]
      exact hA.plain
    · exact forall_of_forall₂ pieces fun _ _ h => h.isAlternative
  constructor
  · exact ⟨_, _, first, form, forall_of_forall₂ pieces fun _ _ h => h.alone⟩
  · refine ⟨_, _, first, ?_, ?_⟩
    · rw [lhs, String.ofList_toList]
    · exact (map_eq_of_forall₂ pieces fun _ _ h => h.names_eq).symm

end Lines

namespace Grammar

variable {g : Grammar}

/-! ### The text of a grammar -/

/-- The left-hand sides that have a line. -/
def writtenLhss (g : Grammar) : List Symbol := g.lhssByName.filter fun A => !(g.rhss A).isEmpty

/-- What the lines of the text of a grammar say. -/
def writtenProductions (g : Grammar) : List Production :=
  g.writtenLhss.map fun A =>
    ⟨A.name, (sortBy Rhs.render (g.rhss A)).map fun r => r.map Symbol.name⟩

theorem mem_writtenLhss {A : Symbol} : A ∈ g.writtenLhss ↔ g.rhss A ≠ [] := by
  simp only [writtenLhss, lhssByName, List.mem_filter, mem_sortBy, Bool.not_eq_true',
    List.isEmpty_eq_false_iff]
  exact and_iff_right_of_imp mem_keys_of_rhss_ne_nil

namespace Readable

variable (hg : g.Readable)
include hg

theorem shows {A : Symbol} {r : Rhs} (hr : r ∈ g.rhss A) : Shows r.render (r.map Symbol.name) :=
  shows_render (hg.isName_rhs A r hr) (hg.not_epsilon A r hr)

theorem isLineBreak_eq_false {A : Symbol} (hA : g.rhss A ≠ []) :
    ∀ c ∈ (renderLine A (g.rhss A)).toList, isLineBreak c = false := by
  have notBlank : ∀ c, (isBlank c = true → c = ' ' ∨ c = '\t') → isLineBreak c = false := by
    intro c hc
    cases hbreak : isLineBreak c with
    | false => rfl
    | true =>
      rcases hc (isBlank_of_isLineBreak hbreak) with rfl | rfl <;> exact absurd hbreak (by decide)
  intro c hc
  apply notBlank
  rw [toList_renderLine, renderAlternatives] at hc
  simp only [List.mem_append, List.mem_cons, List.not_mem_nil, or_false] at hc
  rcases hc with ((hc | rfl) | rfl | rfl) | rfl | hc
  · exact (hg.isName_lhs A hA).separated.space_or_tab c hc
  · simp
  · simp [isBlank]
  · simp [isBlank]
  · simp
  · rcases mem_join hc with hc | ⟨t, ht, hc⟩
    · simp at hc
      rcases hc with rfl | rfl | rfl
      · simp
      · simp [isBlank]
      · simp
    · obtain ⟨r, hr, rfl⟩ := List.mem_map.1 ht
      exact (hg.shows (mem_sortBy.1 hr)).separated.space_or_tab c hc

theorem isSkipped_renderLine {A : Symbol} (hA : g.rhss A ≠ []) :
    isSkipped (renderLine A (g.rhss A)).toList = false := by
  have name := hg.isName_lhs A hA
  have comment := hg.not_comment A hA
  rw [toList_renderLine]
  obtain ⟨c, cs, hcs⟩ := List.exists_cons_of_ne_nil name.ne_nil
  rw [hcs] at comment ⊢
  refine isSkipped_eq_false_iff.2 ⟨[], c, _, rfl, List.forall_mem_nil _, ?_, comment c rfl⟩
  apply (name.plain c _).1
  rw [hcs]
  exact List.mem_cons_self

theorem productionLines_render :
    productionLines g.render = g.writtenLhss.map fun A => (renderLine A (g.rhss A)).toList := by
  have written : ∀ l ∈ g.renderLines, ∃ A, g.rhss A ≠ [] ∧ l = renderLine A (g.rhss A) := by
    intro l hl
    obtain ⟨A, hA, rfl⟩ := List.mem_map.1 hl
    exact ⟨A, mem_writtenLhss.1 hA, rfl⟩
  have split : lines g.render.toList = g.renderLines.map String.toList := by
    apply lines_join
    · intro l hl
      obtain ⟨A, _, rfl⟩ := written l hl
      rw [toList_renderLine]
      simp
    · intro l hl
      obtain ⟨A, hA, rfl⟩ := written l hl
      exact hg.isLineBreak_eq_false hA
  have all : ∀ l ∈ g.renderLines.map String.toList, (!isSkipped l) = true := by
    intro l hl
    obtain ⟨s, hs, rfl⟩ := List.mem_map.1 hl
    obtain ⟨A, hA, rfl⟩ := written s hs
    rw [hg.isSkipped_renderLine hA]
    rfl
  unfold productionLines
  rw [split, List.filter_eq_self.2 all]
  exact List.map_map

theorem ofText_render : Production.ofText g.render = .ok g.writtenProductions := by
  have read : ∀ A ∈ g.writtenLhss, IsProduction (renderLine A (g.rhss A)).toList ∧
      Reads (renderLine A (g.rhss A)).toList
        ⟨A.name, (sortBy Rhs.render (g.rhss A)).map fun r => r.map Symbol.name⟩ := by
    intro A hA
    have hne := mem_writtenLhss.1 hA
    exact reads_renderLine (fun r hr => hg.shows hr) (hg.isName_lhs A hne) hne
  rw [Production.ofText_eq_ok_iff, hg.productionLines_render]
  constructor
  · intro line hline
    obtain ⟨A, hA, rfl⟩ := List.mem_map.1 hline
    exact (read A hA).1
  · unfold writtenProductions
    rw [List.forall₂_map_left_iff, List.forall₂_map_right_iff, List.forall₂_same]
    exact fun A hA => (read A hA).2

end Readable

/-! ### Grammars with the same rules -/

variable {h : Grammar}

theorem pairwise_writtenLhss (g : Grammar) :
    g.writtenLhss.Pairwise fun A B => A.name ≤ B.name :=
  (pairwise_sortBy Symbol.name g.table.keys).filter _

/-- The text shows the rules, but neither the order of the alternatives nor the left-hand sides that
    have none. -/
theorem render_eq_of_mem_rhss_iff (same : ∀ A r, r ∈ h.rhss A ↔ r ∈ g.rhss A)
    (isNonterminal : ∀ A, g.rhss A ≠ [] → A.isNonterminal = true)
    (hg : ∀ A, (g.rhss A).Nodup) (hh : ∀ A, (h.rhss A).Nodup) : h.render = g.render := by
  have perm : ∀ A, (h.rhss A).Perm (g.rhss A) := fun A =>
    (List.perm_ext_iff_of_nodup (hh A) (hg A)).2 (same A)
  have mem : ∀ A, A ∈ h.writtenLhss ↔ A ∈ g.writtenLhss := by
    intro A
    rw [mem_writtenLhss, mem_writtenLhss, Ne, Ne, ← List.length_eq_zero_iff,
      ← List.length_eq_zero_iff, (perm A).length_eq]
  have nodup : ∀ k : Grammar, k.writtenLhss.Nodup := fun k => (nodup_lhssByName k).filter _
  have lhss : h.writtenLhss = g.writtenLhss := by
    apply ((List.perm_ext_iff_of_nodup (nodup h) (nodup g)).2 mem).eq_of_pairwise ?_
      (pairwise_writtenLhss h) (pairwise_writtenLhss g)
    intro A B hA hB hAB hBA
    have kind : ∀ C ∈ g.writtenLhss, C.isNonterminal = true :=
      fun C hC => isNonterminal C (mem_writtenLhss.1 hC)
    exact Symbol.eq_of_name_eq (kind A ((mem A).1 hA)) (kind B hB) (String.le_antisymm hAB hBA)
  have line : ∀ A, renderLine A (h.rhss A) = renderLine A (g.rhss A) := by
    intro A
    have sorted : sortNames ((h.rhss A).map Rhs.render) = sortNames ((g.rhss A).map Rhs.render) :=
      sortBy_eq_of_perm ((perm A).map Rhs.render) fun _ _ _ _ heq => heq
    unfold renderLine
    rw [sorted]
  have lines : h.writtenLhss.map (fun A => renderLine A (h.rhss A)) =
      g.writtenLhss.map fun A => renderLine A (g.rhss A) := by
    rw [lhss]
    exact List.map_congr_left fun A _ => line A
  exact congrArg (Text.join "\n") lines

namespace Readable

variable (hg : g.Readable)
include hg

/-! ### What is read -/

theorem mem_lhss_writtenProductions {a : String} :
    a ∈ g.writtenProductions.map Production.lhs ↔ g.rhss (.nonterminal a) ≠ [] := by
  have names : g.writtenProductions.map Production.lhs = g.writtenLhss.map Symbol.name :=
    List.map_map
  rw [names, List.mem_map]
  constructor
  · intro h
    obtain ⟨A, hA, rfl⟩ := h
    have hne := mem_writtenLhss.1 hA
    rwa [Symbol.nonterminal_name (hg.isNonterminal_lhs A hne)]
  · intro h
    exact ⟨.nonterminal a, mem_writtenLhss.2 h, rfl⟩

/-- A name of a right-hand side is read as the symbol that it was written for. -/
theorem symbolOf_name {A : Symbol} {r : Rhs} (hr : r ∈ g.rhss A) {x : Symbol} (hx : x ∈ r) :
    symbolOf (g.writtenProductions.map Production.lhs) x.name = x := by
  have kind : (symbolOf (g.writtenProductions.map Production.lhs) x.name).isNonterminal = true ↔
      x.isNonterminal = true := by
    rw [isNonterminal_symbolOf_iff, hg.mem_lhss_writtenProductions,
      hg.isNonterminal_iff A r hr x hx]
  exact Symbol.eq_of_kind_of_name kind name_symbolOf

/-- The rules that are read are those that were written. -/
theorem mem_rulesOf_writtenProductions {A : Symbol} {r : Rhs} :
    (⟨A, r⟩ : Rule) ∈ rulesOf g.writtenProductions ↔ r ∈ g.rhss A := by
  have rhs : ∀ B, ∀ s ∈ g.rhss B,
      (s.map Symbol.name).map (symbolOf (g.writtenProductions.map Production.lhs)) = s := by
    intro B s hs
    rw [List.map_map]
    exact (List.map_congr_left fun x hx => hg.symbolOf_name hs hx).trans (List.map_id s)
  have lhs : ∀ B, g.rhss B ≠ [] → Symbol.nonterminal B.name = B :=
    fun B hB => Symbol.nonterminal_name (hg.isNonterminal_lhs B hB)
  unfold rulesOf
  simp only [List.mem_flatMap, List.mem_map]
  constructor
  · intro h
    obtain ⟨p, hp, names, hnames, heq⟩ := h
    obtain ⟨B, hB, rfl⟩ := List.mem_map.1 hp
    obtain ⟨s, hs, rfl⟩ := List.mem_map.1 hnames
    have hs := mem_sortBy.1 hs
    rw [rhs B s hs, lhs B (List.ne_nil_of_mem hs)] at heq
    cases heq
    exact hs
  · intro h
    have hne := List.ne_nil_of_mem h
    refine ⟨_, List.mem_map_of_mem (mem_writtenLhss.2 hne), _,
      List.mem_map_of_mem (mem_sortBy.2 h), ?_⟩
    rw [rhs A r h, lhs A hne]

/-- A readable grammar with a rule is read back from its text, with the same rules and the same
    text.  The start symbol is then the first of the left-hand sides by name. -/
theorem exists_ofText_render (hne : g.rules ≠ []) :
    ∃ k, ofText g.render = .ok k ∧ (∀ A r, r ∈ k.rhss A ↔ r ∈ g.rhss A) ∧ k.render = g.render ∧
      g.rhss k.start ≠ [] ∧ ∀ A, g.rhss A ≠ [] → k.start.name ≤ A.name := by
  obtain ⟨r, hr⟩ := List.exists_mem_of_ne_nil _ hne
  have written := mem_writtenLhss.2 (List.ne_nil_of_mem (mem_rules.1 hr))
  obtain ⟨S, lhss, hlhss⟩ := List.exists_cons_of_ne_nil (List.ne_nil_of_mem written)
  have hS : g.rhss S ≠ [] := by
    rw [← mem_writtenLhss, hlhss]
    exact List.mem_cons_self
  have productions : ∃ ps, g.writtenProductions =
      ⟨S.name, (sortBy Rhs.render (g.rhss S)).map fun r => r.map Symbol.name⟩ :: ps := by
    unfold writtenProductions
    rw [hlhss]
    exact ⟨_, rfl⟩
  obtain ⟨ps, hps⟩ := productions
  have same : ∀ A r, r ∈ (ofProductions S.name g.writtenProductions).rhss A ↔ r ∈ g.rhss A :=
    fun A r => mem_rhss_ofProductions.trans hg.mem_rulesOf_writtenProductions
  have start : (ofProductions S.name g.writtenProductions).start = S := by
    rw [start_ofProductions]
    exact Symbol.nonterminal_name (hg.isNonterminal_lhs S hS)
  refine ⟨ofProductions S.name g.writtenProductions, ?_, same, ?_, ?_, ?_⟩
  · exact ofText_eq_ok_iff.2 ⟨_, ps, hg.ofText_render.trans (congrArg Except.ok hps),
      congrArg (ofProductions S.name) hps⟩
  · exact render_eq_of_mem_rhss_iff same hg.isNonterminal_lhs hg.nodup_rhss
      nodup_rhss_ofProductions
  · rw [start]
    exact hS
  · intro A hA
    have sorted := pairwise_writtenLhss g
    have hA := mem_writtenLhss.2 hA
    rw [hlhss] at sorted hA
    rw [start]
    rcases List.mem_cons.1 hA with rfl | hA
    · exact String.le_refl _
    · exact List.rel_of_pairwise_cons sorted hA

end Readable

end Grammar

end ContextFree
