/-
  ContextFree/Proofs/TextRoundTrip.lean
  =====================================
  **From a text to a grammar and back**: a grammar that was read from a text is read
  again from its own text, and so are what the clean-ups leave of it and its Chomsky
  normal form.

  A text settles the names: those on its lines are names, its left-hand sides are no
  comments, and a terminal does not begin with an upper-case character
  (`readable_ofText`).  The eliminations and the clean-ups declare nothing new.  The
  conversion puts `T_` in front of a name, or digits behind one, so its names begin
  with `T` or `X` and have no arrow that was not there before.

  A non-terminal in small letters shows that it is one only as long as it has a line.
  It keeps one, because what the clean-ups leave on a right-hand side derives a word.
-/
import ContextFree.Proofs.RenderedText
import ContextFree.Proofs.Reversal
import ContextFree.Proofs.Usefulness

namespace ContextFree

open Text Production

/-! ### The names on a line -/

namespace Production

variable {line : List Char} {p : Production}

/-- A production that can be written again. -/
structure Legible (p : Production) : Prop where
  isName_lhs : IsName p.lhs
  not_comment : ∀ c ∈ p.lhs.toList.head?, c ≠ '#'
  alternatives_ne_nil : p.alternatives ≠ []
  isName : ∀ names ∈ p.alternatives, ∀ a ∈ names, IsName a
  not_epsilon : ∀ names ∈ p.alternatives, ∀ a ∈ names, isEpsilonWord a.toList = false

/-- The first character of the left-hand side is the first one of the line that is not blank. -/
theorem not_comment_of_isSkipped_eq_false {front rest : List Char} (hline : isSkipped line = false)
    (first : FirstArrow line front rest) : ∀ c ∈ (strip front).head?, c ≠ '#' := by
  obtain ⟨l, r, hfront, hl, _, htrim⟩ := exists_strip front
  obtain ⟨a, _, hcs⟩ := first.split
  intro c hc
  have hhead := htrim.head c hc
  cases hstrip : strip front with
  | nil =>
    rw [hstrip] at hc
    cases hc
  | cons d ds =>
    rw [hstrip] at hc hfront
    cases hc
    have body : stripLeft line = c :: (ds ++ r ++ a ++ rest) := by
      have text : line = l ++ c :: (ds ++ r ++ a ++ rest) := by
        rw [hcs, hfront]
        simp
      rw [text]
      apply dropWhile_append_of_blank hl
      simpa using hhead
    unfold isSkipped at hline
    rw [body] at hline
    simpa using hline

theorem Reads.legible (reads : Reads line p) (hline : isSkipped line = false)
    (form : IsProduction line) : p.Legible := by
  have hne := reads.alternatives_ne_nil
  obtain ⟨front, rest, first, form, _⟩ := form
  obtain ⟨f, r, first', hlhs, halternatives⟩ := reads
  obtain ⟨rfl, rfl⟩ := first.unique first'
  have lhs : p.lhs.toList = strip front := by
    rw [hlhs, String.toList_ofList]
  -- The names of an alternative are words of a piece.
  have word : ∀ names ∈ p.alternatives, ∀ a ∈ names, ∃ piece ∈ splitOn (· == '|') rest,
      a.toList ∈ words piece ∧ isEpsilonWord a.toList = false := by
    intro names hnames a ha
    rw [halternatives] at hnames
    obtain ⟨piece, hpiece, rfl⟩ := List.mem_map.1 hnames
    exact ⟨piece, hpiece, mem_alternativeNames ha⟩
  refine ⟨⟨?_, ?_, ?_⟩, ?_, hne, ?_, ?_⟩
  · rw [lhs]
    exact form.lhs_ne_nil
  · rw [lhs]
    exact form.lhs_plain
  · rw [lhs]
    exact fun h => first.first (h.of_isInfix (isInfix_strip front))
  · rw [lhs]
    exact not_comment_of_isSkipped_eq_false hline first
  · intro names hnames a ha
    obtain ⟨piece, hpiece, hw, _⟩ := word names hnames a ha
    have inside := isInfix_of_mem_words hw
    obtain ⟨hne, notBlank⟩ := mem_words hw
    refine ⟨hne, ?_, ?_⟩
    · intro c hc
      exact ⟨notBlank c hc, by simpa using not_of_mem_splitOn hpiece c (inside.subset hc)⟩
    · exact fun h => form.last (h.of_isInfix (inside.trans (isInfix_of_mem_splitOn hpiece)))
  · intro names hnames a ha
    obtain ⟨_, _, _, heps⟩ := word names hnames a ha
    exact heps

end Production

/-! ### Capital letters -/

theorem IsCapitalized.not_comment {a : String} (h : IsCapitalized a) :
    ∀ c ∈ a.toList.head?, c ≠ '#' := by
  obtain ⟨c, hc, hupper⟩ := h
  intro d hd heq
  rw [Option.mem_def.1 hc] at hd
  cases hd
  rw [heq] at hupper
  exact absurd hupper (by decide)

theorem IsCapitalized.not_epsilon {a : String} (h : IsCapitalized a) :
    Production.isEpsilonWord a.toList = false := by
  obtain ⟨c, hc, hupper⟩ := h
  cases heps : Production.isEpsilonWord a.toList with
  | false => rfl
  | true =>
    simp only [Production.isEpsilonWord, Bool.or_eq_true, beq_iff_eq] at heps
    rcases heps with heps | heps
    · rw [heps] at hc
      cases hc
      exact absurd hupper (by decide)
    · rw [heps] at hc
      cases hc
      exact absurd hupper (by decide)

theorem IsCapitalized.append {a : String} (h : IsCapitalized a) (b : String) :
    IsCapitalized (a ++ b) := by
  obtain ⟨c, hc, hupper⟩ := h
  refine ⟨c, ?_, hupper⟩
  rw [String.toList_append, List.head?_append, Option.mem_def.1 hc]
  rfl

/-! ### The names of a supply -/

/-- Characters that are neither blank nor bars nor in an arrow make a name of two texts without
    arrows. -/
theorem isName_of_append {a : String} {w s v : List Char} (text : a.toList = w ++ (s ++ v))
    (hne : s ≠ []) (plain : Plain a.toList) (hs : ∀ c ∈ s, c ≠ '-' ∧ c ≠ '→' ∧ c ≠ '>')
    (hw : ¬ HasArrow w) (hv : ¬ HasArrow v) : IsName a := by
  refine ⟨?_, plain, ?_⟩
  · rw [text]
    simp [hne]
  · rw [text]
    exact not_hasArrow_append hs hne hw hv

theorem plain_append {w v : List Char} (hw : Plain w) (hv : Plain v) : Plain (w ++ v) :=
  List.forall_mem_append.2 ⟨hw, hv⟩

theorem plain_of_isDigit {ds : List Char} (h : ∀ c ∈ ds, c.isDigit = true) : Plain ds := by
  intro c hc
  obtain ⟨low, high⟩ : 0x30 ≤ c.toNat ∧ c.toNat ≤ 0x39 := Char.isDigit_iff_toNat.1 (h c hc)
  constructor
  · simp [isBlank]
    omega
  · rintro rfl
    exact absurd high (by decide)

theorem not_arrow_of_isDigit {c : Char} (h : c.isDigit = true) : c ≠ '-' ∧ c ≠ '→' ∧ c ≠ '>' := by
  refine ⟨?_, ?_, ?_⟩ <;> rintro rfl <;> exact absurd h (by decide)

namespace NameSupply

variable {f : NameSupply} {stem hint : String}

theorem isName_numbered (h : IsName stem) (k : Nat) : IsName (numbered stem k) := by
  have digits : ∀ c ∈ Nat.toDigits 10 k, c.isDigit = true :=
    fun c hc => Nat.isDigit_of_mem_toDigits (by decide) (by decide) hc
  have text : (numbered stem k).toList = stem.toList ++ Nat.toDigits 10 k := by simp [numbered]
  apply isName_of_append (v := []) (by simpa using text) Nat.toDigits_ne_nil ?_ ?_ h.not_hasArrow
    not_hasArrow_nil
  · rw [text]
    exact plain_append h.plain (plain_of_isDigit digits)
  · exact fun c hc => not_arrow_of_isDigit (digits c hc)

theorem isName_hint (h : IsName hint) : IsName ("T" ++ "_" ++ hint) := by
  have text : ("T" ++ "_" ++ hint).toList = ['T', '_'] ++ hint.toList := by simp
  have plain : Plain ['T', '_'] := by decide
  apply isName_of_append (w := []) (s := ['T', '_']) text ?_ ?_ ?_ not_hasArrow_nil h.not_hasArrow
  · simp
  · rw [text]
    exact plain_append plain h.plain
  · simp

theorem isName_X : IsName "X" :=
  isName_of_append (w := []) (s := ['X']) (v := []) rfl (by simp) (by decide) (by simp)
    not_hasArrow_nil not_hasArrow_nil

theorem isName_hinted (h : IsName (stem ++ "_" ++ hint)) : IsName (f.hinted stem hint).1 := by
  unfold hinted
  dsimp only
  split
  · exact isName_numbered h _
  · exact h

theorem isCapitalized_hinted (h : IsCapitalized stem) : IsCapitalized (f.hinted stem hint).1 := by
  have named : IsCapitalized (stem ++ "_" ++ hint) := (h.append "_").append hint
  unfold hinted
  dsimp only
  split
  · exact named.append _
  · exact named

end NameSupply

namespace Grammar

variable {g h : Grammar} {f : NameSupply}

/-! ### Grammars that can be written again -/

/-- The symbols of the right-hand sides. -/
def rightSymbols (g : Grammar) : Set Symbol := {x | ∃ r ∈ g.ruleSet, x ∈ r.rhs}

/-- A well-formed grammar whose declared names can be written and read again. -/
structure Legible (g : Grammar) : Prop where
  wellFormed : g.WellFormed
  nodup_rhss : ∀ A, (g.rhss A).Nodup
  isName : ∀ x, g.Declares x → IsName x.name
  not_comment : ∀ A ∈ g.nonterminals, ∀ c ∈ A.name.toList.head?, c ≠ '#'
  not_capitalized : ∀ a ∈ g.terminals, ¬ IsCapitalized a.name
  not_epsilon : ∀ x ∈ g.rightSymbols, Production.isEpsilonWord x.name.toList = false

/-- A legible grammar is readable if its non-terminals show that they are. -/
theorem Legible.readable (legible : g.Legible) (shown : ∀ x ∈ g.rightSymbols,
    x.isNonterminal = true → g.rhss x ≠ [] ∨ IsCapitalized x.name) : g.Readable where
  isNonterminal_lhs A hA := by
    obtain ⟨r, hr⟩ := List.exists_mem_of_ne_nil _ hA
    exact legible.wellFormed.nonterminalLhss A r hr
  isName_lhs A hA := by
    obtain ⟨r, hr⟩ := List.exists_mem_of_ne_nil _ hA
    exact legible.isName A (Or.inl (legible.wellFormed.lhs_mem_of_mem_rhss hr))
  not_comment A hA := by
    obtain ⟨r, hr⟩ := List.exists_mem_of_ne_nil _ hA
    exact legible.not_comment A (legible.wellFormed.lhs_mem_of_mem_rhss hr)
  isName_rhs A r hr x hx := legible.isName x (legible.wellFormed.declares A r hr x hx)
  not_epsilon A r hr x hx := legible.not_epsilon x ⟨⟨A, r⟩, hr, hx⟩
  isNonterminal_iff A r hr x hx := by
    constructor
    · intro kind
      rw [Symbol.nonterminal_name kind]
      exact shown x ⟨⟨A, r⟩, hr, hx⟩ kind
    · intro looks
      rcases legible.wellFormed.declares A r hr x hx with hx | hx
      · exact legible.wellFormed.isNonterminal_of_mem x hx
      · rcases looks with hne | capital
        · obtain ⟨s, hs⟩ := List.exists_mem_of_ne_nil _ hne
          have hmem := legible.wellFormed.lhs_mem_of_mem_rhss hs
          exact absurd rfl (legible.wellFormed.name_ne _ hmem x hx)
        · exact absurd capital (legible.not_capitalized x hx)
  nodup_rhss := legible.nodup_rhss

/-! ### Texts -/

section Texts

variable {start : String} {ps : List Production}

theorem exists_alternative_of_mem_rulesOf {r : Rule} (hr : r ∈ rulesOf ps) {x : Symbol}
    (hx : x ∈ r.rhs) : ∃ p ∈ ps, ∃ names ∈ p.alternatives, x.name ∈ names := by
  obtain ⟨p, hp, hrule⟩ := List.mem_flatMap.1 hr
  obtain ⟨names, hnames, rfl⟩ := List.mem_map.1 hrule
  obtain ⟨a, ha, rfl⟩ := List.mem_map.1 hx
  rw [name_symbolOf]
  exact ⟨p, hp, names, hnames, ha⟩

theorem rhss_ofProductions_ne_nil {a : String} (ha : a ∈ ps.map Production.lhs)
    (halternatives : ∀ p ∈ ps, p.alternatives ≠ []) :
    (ofProductions start ps).rhss (.nonterminal a) ≠ [] := by
  obtain ⟨p, hp, rfl⟩ := List.mem_map.1 ha
  obtain ⟨names, hnames⟩ := List.exists_mem_of_ne_nil _ (halternatives p hp)
  apply List.ne_nil_of_mem
  apply mem_rhss_ofProductions.2
  exact List.mem_flatMap.2 ⟨p, hp, List.mem_map_of_mem hnames⟩

theorem legible_ofProductions (hstart : start ∈ ps.map Production.lhs)
    (legible : ∀ p ∈ ps, p.Legible) : (ofProductions start ps).Legible := by
  have halternatives : ∀ p ∈ ps, p.alternatives ≠ [] :=
    fun p hp => (legible p hp).alternatives_ne_nil
  have kind : ∀ x, (ofProductions start ps).Declares x → (x.isNonterminal = true ↔
      x.name ∈ ps.map Production.lhs ∨ IsCapitalized x.name) :=
    fun x hx => isNonterminal_iff_of_declares hstart halternatives hx
  have wellFormed := wellFormed_ofProductions hstart halternatives
  refine ⟨wellFormed, nodup_rhss_ofProductions, ?_, ?_, ?_, ?_⟩
  · intro x hx
    rcases (declares_ofProductions_iff hstart halternatives).1 hx with hx | hx
    · obtain ⟨p, hp, rfl⟩ := hx
      exact (legible p hp).isName_lhs
    · obtain ⟨r, hr, hx⟩ := hx
      obtain ⟨p, hp, names, hnames, ha⟩ := exists_alternative_of_mem_rulesOf hr hx
      exact (legible p hp).isName names hnames x.name ha
  · intro A hA
    rcases (kind A (Or.inl hA)).1 (wellFormed.isNonterminal_of_mem A hA) with hlhs | capital
    · obtain ⟨p, hp, heq⟩ := List.mem_map.1 hlhs
      rw [← heq]
      exact (legible p hp).not_comment
    · exact capital.not_comment
  · intro a ha capital
    have hnt := (kind a (Or.inr ha)).2 (Or.inr capital)
    exact Symbol.not_isTerminal hnt (wellFormed.isTerminal_of_mem a ha)
  · intro x hx
    obtain ⟨r, hr, hx⟩ := hx
    obtain ⟨p, hp, names, hnames, ha⟩ :=
      exists_alternative_of_mem_rulesOf (mem_rhss_ofProductions.1 hr) hx
    exact (legible p hp).not_epsilon names hnames x.name ha

end Texts

/-- What is read from a text can be written and read again. -/
theorem readable_ofText {text : String} (h : ofText text = .ok g) : g.Legible ∧ g.Readable := by
  obtain ⟨p, ps, hps, rfl⟩ := ofText_eq_ok_iff.1 h
  obtain ⟨productions, reads⟩ := Production.ofText_eq_ok_iff.1 hps
  have legible : ∀ q ∈ p :: ps, q.Legible := by
    have lines : ∀ line ∈ Production.productionLines text,
        Production.isSkipped line = false ∧ IsProduction line := by
      intro line hline
      refine ⟨?_, productions line hline⟩
      simpa using (List.mem_filter.1 hline).2
    refine forall_of_forall₂ ((List.forall₂_and_left _ _).2 ⟨lines, reads⟩) ?_
    intro line q h
    exact h.2.legible h.1.1 h.1.2
  have hstart : p.lhs ∈ (p :: ps).map Production.lhs := List.mem_cons_self
  have halternatives : ∀ q ∈ p :: ps, q.alternatives ≠ [] :=
    fun q hq => (legible q hq).alternatives_ne_nil
  have written := legible_ofProductions hstart legible
  refine ⟨written, written.readable ?_⟩
  intro x hx kind
  obtain ⟨r, hr, hx⟩ := hx
  have declared := written.wellFormed.declares r.lhs r.rhs hr x hx
  rcases (isNonterminal_iff_of_declares hstart halternatives declared).1 kind with hlhs | capital
  · left
    rw [← Symbol.nonterminal_name kind]
    exact rhss_ofProductions_ne_nil hlhs halternatives
  · exact Or.inr capital

/-! ### The eliminations and the clean-ups -/

theorem rightSymbols_subset (sub : h.ruleSet ⊆ g.ruleSet) : h.rightSymbols ⊆ g.rightSymbols := by
  intro x hx
  obtain ⟨r, hr, hx⟩ := hx
  exact ⟨r, sub hr, hx⟩

theorem rightSymbols_withoutEpsilon_subset : g.withoutEpsilon.rightSymbols ⊆ g.rightSymbols := by
  intro x hx
  obtain ⟨r, hr, hx⟩ := hx
  obtain ⟨⟨s, hs, hchoice⟩, _⟩ := mem_rhss_withoutEpsilon.1 hr
  exact ⟨⟨r.lhs, s⟩, hs, Rhs.subset_of_mem_choices hchoice x hx⟩

theorem rightSymbols_withoutUnits_subset : g.withoutUnits.rightSymbols ⊆ g.rightSymbols := by
  intro x hx
  obtain ⟨r, hr, hx⟩ := hx
  obtain ⟨⟨B, _, hB⟩, _⟩ := mem_rhss_withoutUnits.1 hr
  exact ⟨⟨B, r.rhs⟩, hB, hx⟩

theorem rightSymbols_stages_generating_subset :
    g.stages.generating.rightSymbols ⊆ g.rightSymbols := by
  have unitFree : g.stages.unitFree.rightSymbols ⊆ g.rightSymbols := by
    rw [stages_unitFree, stages_epsilonFree]
    exact rightSymbols_withoutUnits_subset.trans rightSymbols_withoutEpsilon_subset
  exact (rightSymbols_subset ruleSet_stages_generating_subset).trans unitFree

theorem Legible.of_drawnFrom (legible : g.Legible) (drawn : g.DrawnFrom h)
    (sub : h.rightSymbols ⊆ g.rightSymbols) : h.Legible where
  wellFormed := drawn.wellFormed
  nodup_rhss := drawn.nodup_rhss
  isName x hx := legible.isName x (drawn.declares x hx)
  not_comment A hA := by
    rcases drawn.declares A (Or.inl hA) with old | terminal
    · exact legible.not_comment A old
    · have hnt := drawn.wellFormed.isNonterminal_of_mem A hA
      exact absurd (legible.wellFormed.isTerminal_of_mem A terminal) (Symbol.not_isTerminal hnt)
  not_capitalized a ha := by
    rcases drawn.declares a (Or.inr ha) with nonterminal | old
    · have hnt := legible.wellFormed.isNonterminal_of_mem a nonterminal
      exact absurd (drawn.wellFormed.isTerminal_of_mem a ha) (Symbol.not_isTerminal hnt)
    · exact legible.not_capitalized a old
  not_epsilon x hx := legible.not_epsilon x (sub hx)

/-- A non-terminal of a right-hand side that derives a word has a rule. -/
theorem CompletableRhss.rhss_ne_nil (hg : g.CompletableRhss) {x : Symbol}
    (hx : x ∈ g.rightSymbols) (kind : x.isNonterminal = true) : g.rhss x ≠ [] := by
  obtain ⟨r, hr, hx⟩ := hx
  obtain ⟨w, hw, derive⟩ := completable_iff_forall.1 (hg r hr) x hx
  obtain ⟨s, hs, _⟩ := derive.exists_rule hw kind
  exact List.ne_nil_of_mem hs

/-! ### The conversion -/

section Conversion

variable (legible : g.Legible) (hf : ∀ x, g.Declares x → x.name ∈ f.used)
include legible hf

/-- The conversion makes names that are capitalized. -/
theorem Legible.of_mem_newSymbols {X : Symbol} (hX : X ∈ newSymbols g (g.toChomsky f).1) :
    IsName X.name ∧ IsCapitalized X.name := by
  have capital : ∀ c, c = 'T' ∨ c = 'X' → isUppercase c = true := by
    intro c hc
    rcases hc with rfl | rfl <;> decide
  rcases (mem_newSymbols_toChomsky legible.wellFormed hf).1 hX with hpre | hlink
  · -- A preterminal is named after a terminal of a right-hand side, so after a declared one.
    obtain ⟨p, hp, rfl⟩ := List.mem_map.1 hpre
    rw [NameSupply.allocatePreterminals_eq_run] at hp
    obtain ⟨name, hname, heq⟩ := List.mem_map.1 (List.of_mem_zip hp).2
    obtain ⟨c, hc, f', rfl⟩ := NameSupply.exists_answer_of_mem_run hname
    obtain ⟨a, ha, rfl⟩ := List.mem_map.1 hc
    obtain ⟨_, r, hr, _, hmem⟩ := mem_longTerminals.1 ha
    have hint := legible.isName a (legible.wellFormed.declares r.lhs r.rhs (mem_rules.1 hr) a hmem)
    rw [← heq]
    constructor
    · exact NameSupply.isName_hinted (NameSupply.isName_hint hint)
    · exact NameSupply.isCapitalized_hinted ⟨'T', by simp, capital 'T' (Or.inl rfl)⟩
  · obtain ⟨name, hname, rfl⟩ := List.mem_map.1 hlink
    obtain ⟨c, hc, f', rfl⟩ := NameSupply.exists_answer_of_mem_run hname
    obtain ⟨r, _, hc⟩ := List.mem_flatMap.1 hc
    rw [List.eq_of_mem_replicate hc]
    constructor
    · exact NameSupply.isName_numbered NameSupply.isName_X _
    · exact IsCapitalized.append ⟨'X', by simp, capital 'X' (Or.inr rfl)⟩ _

/-- A left-hand side does not come to a right-hand side, where it might look like an empty one. -/
theorem Legible.of_mem_rightSymbols {x : Symbol} (hx : x ∈ (g.toChomsky f).1.rightSymbols) :
    x ∈ g.rightSymbols ∨ x ∈ newSymbols g (g.toChomsky f).1 := by
  have outside := outside_allocatePreterminals (g := g) f
  rw [mem_newSymbols_toChomsky legible.wellFormed hf]
  obtain ⟨r, hr, hx⟩ := hx
  have listed := List.mem_flatMap.2 ⟨r, mem_ruleSet_toChomsky.1 hr, hx⟩
  rcases List.mem_append.1 ((perm_rhs_linkNames g f).mem_iff.1 listed) with hx | hlink
  · obtain ⟨s, hs, hx⟩ := List.mem_flatMap.1 hx
    have hs : s ∈ (g.separateTerminals f).1.ruleSet := mem_rules.1 hs
    rw [ruleSet_separateTerminals] at hs
    rcases mem_separatedRules.1 hs with ⟨t, ht, rfl⟩ | ⟨p, hp, rfl⟩
    · rcases mem_rhs_separate outside.nodup_fst hx with old | hpre
      · exact Or.inl ⟨t, mem_rules.1 ht, old⟩
      · exact Or.inr (Or.inl hpre)
    · rw [List.mem_singleton.1 hx]
      obtain ⟨_, t, ht, _, hmem⟩ := mem_longTerminals.1 (mem_longTerminals_of_mem hp)
      exact Or.inl ⟨t, mem_rules.1 ht, hmem⟩
  · exact Or.inr (Or.inr hlink)

theorem Legible.toChomsky : (g.toChomsky f).1.Legible := by
  have terminal : ∀ a, a ∈ (g.toChomsky f).1.terminals ↔ a ∈ g.terminals := by
    intro a
    rw [terminals_toChomsky]
  have nonterminal : ∀ x ∈ (g.toChomsky f).1.nonterminals,
      x ∈ g.nonterminals ∨ x ∈ newSymbols g (g.toChomsky f).1 := by
    intro x hx
    by_cases old : x ∈ g.nonterminals
    · exact Or.inl old
    · exact Or.inr ⟨hx, old⟩
  refine ⟨legible.wellFormed.toChomsky fun a ha => hf a (Or.inr ha), nodup_rhss_toChomsky g f,
    ?_, ?_, ?_, ?_⟩
  · intro x hx
    rcases hx with hx | hx
    · rcases nonterminal x hx with old | new
      · exact legible.isName x (Or.inl old)
      · exact (legible.of_mem_newSymbols hf new).1
    · exact legible.isName x (Or.inr ((terminal x).1 hx))
  · intro A hA
    rcases nonterminal A hA with old | new
    · exact legible.not_comment A old
    · exact (legible.of_mem_newSymbols hf new).2.not_comment
  · exact fun a ha => legible.not_capitalized a ((terminal a).1 ha)
  · intro x hx
    rcases legible.of_mem_rightSymbols hf hx with old | new
    · exact legible.not_epsilon x old
    · exact (legible.of_mem_newSymbols hf new).2.not_epsilon

end Conversion

/-! ### Reading what was written -/

theorem readable_stages {text : String} (h : ofText text = .ok g) :
    g.Readable ∧ g.stages.generating.Readable ∧ g.stages.chomsky.Readable := by
  obtain ⟨legible, readable⟩ := readable_ofText h
  have hg : g.Valid := valid_iff_wellFormed.2 legible.wellFormed
  obtain ⟨_, _, _, drawn⟩ := hg.drawnFrom_stages
  have fourth : g.stages.generating.Legible :=
    legible.of_drawnFrom drawn rightSymbols_stages_generating_subset
  have fifth : g.stages.chomsky.Legible := by
    rw [stages_chomsky]
    exact fourth.toChomsky fun x hx => name_mem_declaredNames (drawn.declares x hx)
  have fourthShown := (cleanedUp_stages_generating hg).completableRhss
  have fifthShown := (cleanedUp_stages_chomsky hg).completableRhss
  exact ⟨readable, fourth.readable fun x hx kind => Or.inl (fourthShown.rhss_ne_nil hx kind),
    fifth.readable fun x hx kind => Or.inl (fifthShown.rhss_ne_nil hx kind)⟩

/-- A grammar from a text, what the clean-ups leave of it and its Chomsky normal form are read again
    from their own text, as soon as they have a rule.  What is read has the same rules and the same
    text; its start symbol is the left-hand side with the least name. -/
theorem ofText_roundTrip {text : String} (h : ofText text = .ok g) :
    ∃ s, g.checkedStages = .ok s ∧ ∀ k ∈ [g, s.generating, s.chomsky], k.rules ≠ [] →
      ∃ k', ofText k.render = .ok k' ∧ (∀ A r, r ∈ k'.rhss A ↔ r ∈ k.rhss A) ∧
        k'.render = k.render ∧ k.rhss k'.start ≠ [] ∧
        ∀ A, k.rhss A ≠ [] → k'.start.name ≤ A.name := by
  obtain ⟨first, fourth, fifth⟩ := readable_stages h
  have hg : g.Valid := valid_iff_wellFormed.2 (readable_ofText h).1.wellFormed
  refine ⟨g.stages, hg.checkedStages_eq, ?_⟩
  simp only [List.forall_mem_cons]
  exact ⟨first.exists_ofText_render, fourth.exists_ofText_render, fifth.exists_ofText_render,
    List.forall_mem_nil _⟩

/-- A start symbol in small letters, and terminals that make an arrow when they meet. -/
def dashes : Grammar := ofProductions "s" [⟨"s", [["s", "-", ">"], ["#a"]]⟩]

theorem ofText_dashes : ofText "s -> s - > | #a" = .ok dashes :=
  ofText_eq_ok_iff.2 ⟨⟨"s", [["s", "-", ">"], ["#a"]]⟩, [], by decide, rfl⟩

theorem ofText_roundTrip_dashes :
    ofText "s -> s - > | #a" = .ok dashes ∧ ∃ s, dashes.checkedStages = .ok s ∧
      ∀ k ∈ [dashes, s.generating, s.chomsky], k.rules ≠ [] ∧
        ∃ k', ofText k.render = .ok k' ∧ (∀ A r, r ∈ k'.rhss A ↔ r ∈ k.rhss A) ∧
          k'.render = k.render ∧ k.rhss k'.start ≠ [] ∧
          ∀ A, k.rhss A ≠ [] → k'.start.name ≤ A.name := by
  have valid : dashes.Valid := by decide
  have nonempty : ∀ k ∈ [dashes, dashes.stages.generating, dashes.stages.chomsky],
      k.rules ≠ [] := by decide
  obtain ⟨s, hs, again⟩ := ofText_roundTrip ofText_dashes
  obtain rfl := Except.ok.inj (hs.symm.trans valid.checkedStages_eq)
  exact ⟨ofText_dashes, _, hs, fun k hk => ⟨nonempty k hk, again k hk (nonempty k hk)⟩⟩

example : dashes.stages.chomsky.render =
    "T_- -> -\nT_> -> >\nX1 -> T_- T_>\ns -> #a | s X1" := by decide

end Grammar

end ContextFree
