/-
  ContextFree/Proofs/Usefulness.lean
  ==================================
  **Useful symbols** take part in the derivation of a word of the language.

  The pipeline drops unreachable symbols before it drops the rules of symbols that
  derive no word, and the second step can cut off what the first has left.  So a
  rule can stay that no derivation of a word uses: `deadEnd` has no word at all,
  and the last two stages keep its rule `A -> a` (`not_reaches_deadEnd`).

  What the last two stages promise is that every symbol with a rule derives a
  word.  That it is useful depends on the grammar before the two clean-ups: there
  each symbol that is live, that is reachable and derives a word, has to be useful
  (`checkedStages_useful_iff`).  The other order is the subject of
  `ContextFree.Proofs.Reduction`.
-/
import ContextFree.Proofs.Language

namespace ContextFree.Grammar

variable {g h : Grammar} {A : Symbol}

/-- A symbol that occurs in the derivation of a word of the language. -/
def Useful (g : Grammar) (A : Symbol) : Prop :=
  ∃ u v w, g.Sentential (u ++ A :: v) ∧ g.Derives (u ++ A :: v) (word w)

/-- A non-terminal that passes both tests for usefulness, each on its own: it is reachable, and it
    derives a word. -/
def Live (g : Grammar) (A : Symbol) : Prop :=
  A.isNonterminal = true ∧ g.Reaches A ∧ ∃ w, g.DerivesWord A w

theorem useful_iff_takesPart : g.Useful A ↔ TakesPart g.ruleSet g.start A := by
  constructor
  · rintro ⟨u, v, w, reach, derive⟩
    exact ⟨u, v, derives_iff_expands.1 reach,
      completable_iff_exists_word.2 ⟨w, derives_iff_expands.1 derive⟩⟩
  · rintro ⟨u, v, reach, complete⟩
    obtain ⟨w, derive⟩ := completable_iff_exists_word.1 complete
    exact ⟨u, v, w, derives_iff_expands.2 reach, derives_iff_expands.2 derive⟩

theorem Useful.reaches (hA : g.Useful A) : g.Reaches A := by
  obtain ⟨u, v, _, reach, _⟩ := hA
  exact ⟨u, v, reach⟩

/-! ### Symbols with a rule -/

theorem forall_rhss_ne_nil_iff {P : Symbol → Prop} :
    (∀ A, g.rhss A ≠ [] → P A) ↔ ∀ r ∈ g.ruleSet, P r.lhs := by
  constructor
  · exact fun all r hr => all r.lhs (List.ne_nil_of_mem hr)
  · intro all A hA
    obtain ⟨r, hr⟩ := List.exists_mem_of_ne_nil _ hA
    exact all ⟨A, r⟩ hr

/-- Every right-hand side expands to a word. -/
def CompletableRhss (g : Grammar) : Prop := ∀ r ∈ g.ruleSet, Completable g.ruleSet r.rhs

theorem CompletableRhss.exists_derivesWord (hg : g.CompletableRhss) (hA : g.rhss A ≠ []) :
    ∃ w, g.DerivesWord A w := by
  obtain ⟨r, hr⟩ := List.exists_mem_of_ne_nil _ hA
  exact exists_derivesWord_iff.2 ((hg ⟨A, r⟩ hr).of_expands (Expands.single hr))

/-- Both readings of a useless rule agree where every right-hand side expands to a word. -/
theorem CompletableRhss.useful_iff_reaches (hg : g.CompletableRhss) (hA : g.rhss A ≠ []) :
    g.Useful A ↔ g.Reaches A := by
  refine ⟨Useful.reaches, ?_⟩
  rintro ⟨u, v, reach⟩
  obtain ⟨r, hr⟩ := List.exists_mem_of_ne_nil _ hA
  have expand := sentential_iff_expands.1 reach
  exact useful_iff_takesPart.2 (takesPart_of_expands (r := ⟨A, r⟩) hg hr expand)

theorem completableRhss_onlyGenerating (g : Grammar) : g.onlyGenerating.CompletableRhss := by
  intro r hr
  obtain ⟨w, hw, derive⟩ := (mem_rhss_onlyGenerating.1 hr).2
  exact ⟨w, hw, expands_ruleSet_onlyGenerating derive (completable_of_isWord hw)⟩

/-! ### The two clean-ups -/

theorem useful_onlyGenerating_iff : g.onlyGenerating.Useful A ↔ g.Useful A := by
  rw [useful_iff_takesPart, useful_iff_takesPart]
  constructor
  · rintro ⟨u, v, reach, complete⟩
    exact ⟨u, v, reach.mono ruleSet_onlyGenerating_subset,
      complete.mono ruleSet_onlyGenerating_subset⟩
  · rintro ⟨u, v, reach, w, hw, derive⟩
    exact ⟨u, v, expands_ruleSet_onlyGenerating reach ⟨w, hw, derive⟩,
      w, hw, expands_ruleSet_onlyGenerating derive (completable_of_isWord hw)⟩

theorem useful_onlyReachable_iff (hg : g.NonterminalLhss) :
    g.onlyReachable.Useful A ↔ g.Useful A := by
  rw [useful_iff_takesPart, useful_iff_takesPart]
  constructor
  · rintro ⟨u, v, reach, complete⟩
    exact ⟨u, v, reach.mono ruleSet_onlyReachable_subset,
      complete.mono ruleSet_onlyReachable_subset⟩
  · rintro ⟨u, v, reach, w, hw, derive⟩
    -- Both parts of the derivation stay among the reachable symbols.
    have start : ∀ x ∈ [g.start], x ∈ g.reachable :=
      List.forall_mem_singleton.2 (start_mem_reachable g)
    have inside := forall_mem_reachable_of_expands hg reach start
    exact ⟨u, v, expands_ruleSet_onlyReachable hg reach start,
      w, hw, expands_ruleSet_onlyReachable hg derive inside⟩

/-- In the order of the pipeline the live symbols keep a rule, and no others. -/
theorem rhss_onlyReachable_onlyGenerating_ne_nil_iff (hg : g.NonterminalLhss) :
    g.onlyReachable.onlyGenerating.rhss A ≠ [] ↔ g.Live A := by
  constructor
  · intro hA
    obtain ⟨r, hr⟩ := List.exists_mem_of_ne_nil _ hA
    obtain ⟨hr, complete⟩ := mem_rhss_onlyGenerating.1 hr
    obtain ⟨reachable, hr⟩ := mem_rhss_onlyReachable.1 hr
    refine ⟨hg A r hr, reaches_of_mem_reachable reachable, exists_derivesWord_iff.2 ?_⟩
    exact (Completable.mono ruleSet_onlyReachable_subset complete).of_expands
      (Expands.single hr)
  · rintro ⟨hA, reach, derive⟩
    obtain ⟨w, hw, expand⟩ := exists_derivesWord_iff.1 derive
    have reachable : ∀ x ∈ [A], x ∈ g.reachable :=
      List.forall_mem_singleton.2 ((mem_reachable_iff hg).2 reach)
    have left : Expands g.onlyReachable.ruleSet [A] w :=
      expands_ruleSet_onlyReachable hg expand reachable
    obtain ⟨r, hr, body⟩ := left.exists_rule hw hA
    exact List.ne_nil_of_mem (mem_rhss_onlyGenerating.2 ⟨hr, w, hw, body⟩)

/-! ### The conversion -/

section Conversion

variable {f : NameSupply} (hf : MentionsOnly f.known g.ruleSet) (hg : g.CompletableRhss)
include hf hg

theorem CompletableRhss.toChomsky : (g.toChomsky f).1.CompletableRhss := by
  obtain ⟨φ, abbr⟩ := exists_abbreviates_ruleSet_toChomsky hf
  exact abbr.completable_rhs hf hg

theorem forall_useful_toChomsky_iff (hstart : g.start ∈ f.known) :
    (∀ A, (g.toChomsky f).1.rhss A ≠ [] → (g.toChomsky f).1.Useful A) ↔
      ∀ A, g.rhss A ≠ [] → g.Useful A := by
  obtain ⟨φ, abbr⟩ := exists_abbreviates_ruleSet_toChomsky hf
  simp only [forall_rhss_ne_nil_iff, useful_iff_takesPart, start_toChomsky]
  constructor
  · exact abbr.takesPart_old hf (fun x hx => Or.inl hx) hstart
  · exact abbr.takesPart hf hg

omit hg in
theorem forall_rhss_toChomsky_eq_nil_iff :
    (∀ A, (g.toChomsky f).1.rhss A = []) ↔ ∀ A, g.rhss A = [] := by
  obtain ⟨φ, abbr⟩ := exists_abbreviates_ruleSet_toChomsky hf
  constructor
  · intro none A
    refine List.eq_nil_iff_forall_not_mem.2 fun r hr => ?_
    obtain ⟨s, hs, _⟩ := abbr.keeps ⟨A, r⟩ hr
    exact List.ne_nil_of_mem hs (none s.lhs)
  · intro none A
    refine List.eq_nil_iff_forall_not_mem.2 fun r hr => ?_
    obtain ⟨s, hs, _⟩ := abbr.origin ⟨A, r⟩ hr
    exact List.ne_nil_of_mem hs (none s.lhs)

end Conversion

/-! ### The last two stages -/

/-- What the rules of `h`, which comes after the clean-ups of `g`, tell about the symbols of `g`. -/
structure CleanedUp (g h : Grammar) : Prop where
  completableRhss : h.CompletableRhss
  useful_iff : (∀ A, h.rhss A ≠ [] → h.Useful A) ↔ ∀ A, g.Live A → g.Useful A
  eq_nil_iff : (∀ A, h.rhss A = []) ↔ ∀ A, ¬ g.Live A

theorem cleanedUp_onlyReachable_onlyGenerating (hg : g.NonterminalLhss) :
    g.CleanedUp g.onlyReachable.onlyGenerating where
  completableRhss := completableRhss_onlyGenerating _
  useful_iff := by
    simp only [rhss_onlyReachable_onlyGenerating_ne_nil_iff hg, useful_onlyGenerating_iff,
      useful_onlyReachable_iff hg]
  eq_nil_iff := forall_congr' fun A => by
    rw [← rhss_onlyReachable_onlyGenerating_ne_nil_iff hg, not_not]

theorem CleanedUp.toChomsky {f : NameSupply} (clean : g.CleanedUp h)
    (hf : MentionsOnly f.known h.ruleSet) (hstart : h.start ∈ f.known) :
    g.CleanedUp (h.toChomsky f).1 where
  completableRhss := clean.completableRhss.toChomsky hf
  useful_iff := (forall_useful_toChomsky_iff hf clean.completableRhss hstart).trans clean.useful_iff
  eq_nil_iff := (forall_rhss_toChomsky_eq_nil_iff hf).trans clean.eq_nil_iff

theorem cleanedUp_stages_generating (hg : g.Valid) :
    g.stages.unitFree.CleanedUp g.stages.generating := by
  rw [stages_generating, stages_reachable]
  exact cleanedUp_onlyReachable_onlyGenerating hg.rulesOver_stages_unitFree.nonterminalLhss

theorem cleanedUp_stages_chomsky (hg : g.Valid) :
    g.stages.unitFree.CleanedUp g.stages.chomsky := by
  have hstart : g.stages.generating.start ∈ (NameSupply.ofUsed g.declaredNames).known := by
    rw [hg.epsilonFreeForm_stages_generating.start_eq]
    exact hg.start_mem_known
  rw [stages_chomsky]
  exact (cleanedUp_stages_generating hg).toChomsky
    hg.rulesOver_stages_generating.mentionsOnly hstart

/-- In the last two stages every symbol with a rule derives a word, and it is useful if and only if
    it is reachable.  All of them are useful if and only if, before the clean-ups, every symbol that
    is reachable and derives a word is useful; there is no rule if and only if there is no such
    symbol. -/
theorem checkedStages_useful_iff (hg : g.Valid) :
    ∃ s, g.checkedStages = .ok s ∧ ∀ h ∈ [s.generating, s.chomsky],
      (∀ A, h.rhss A ≠ [] → (∃ w, h.DerivesWord A w) ∧ (h.Useful A ↔ h.Reaches A)) ∧
      ((∀ A, h.rhss A ≠ [] → h.Useful A) ↔ ∀ A, s.unitFree.Live A → s.unitFree.Useful A) ∧
      ((∀ A, h.rhss A = []) ↔ ∀ A, ¬ s.unitFree.Live A) := by
  have both : ∀ h ∈ [g.stages.generating, g.stages.chomsky], g.stages.unitFree.CleanedUp h := by
    simp only [List.forall_mem_cons]
    exact ⟨cleanedUp_stages_generating hg, cleanedUp_stages_chomsky hg, List.forall_mem_nil _⟩
  refine ⟨g.stages, hg.checkedStages_eq, fun h hh => ?_⟩
  obtain ⟨complete, useful, none⟩ := both h hh
  refine ⟨fun A hA => ⟨?_, ?_⟩, useful, none⟩
  · exact complete.exists_derivesWord hA
  · exact complete.useful_iff_reaches hA

theorem checkedStages_useful_iff_brackets :
    brackets.Valid ∧ ∃ s, brackets.checkedStages = .ok s ∧
      ∀ h ∈ [s.generating, s.chomsky],
        (∀ A, h.rhss A ≠ [] → (∃ w, h.DerivesWord A w) ∧ (h.Useful A ↔ h.Reaches A)) ∧
        ((∀ A, h.rhss A ≠ [] → h.Useful A) ↔ ∀ A, s.unitFree.Live A → s.unitFree.Useful A) ∧
        ((∀ A, h.rhss A = []) ↔ ∀ A, ¬ s.unitFree.Live A) :=
  ⟨valid_brackets, checkedStages_useful_iff valid_brackets⟩

/-! ### A rule that no word uses -/

/-- `S -> A B` and `A -> a`; `B` has no rule. -/
def deadEnd : Grammar :=
  (ofSymbols (.nonterminal "S") (.ofList [Symbol.nonterminal "A", Symbol.nonterminal "B"])
    (.ofList [Symbol.terminal "a"])).addRules
    [⟨.nonterminal "S", [.nonterminal "A", .nonterminal "B"]⟩,
      ⟨.nonterminal "A", [.terminal "a"]⟩]

theorem not_generates_of_not_mem_generating (hstart : g.start.isNonterminal = true)
    (h : g.start ∉ g.generating) (w : List String) : ¬ g.Generates w := by
  intro derive
  apply h
  exact (mem_generating_iff_exists_derivesWord hstart).2 ⟨w, derive⟩

theorem eq_start_of_reaches (h : g.rhss g.start = []) (hA : g.Reaches A) : A = g.start := by
  obtain ⟨u, v, reach⟩ := hA
  rcases expands_singleton.1 (sentential_iff_expands.1 reach) with same | ⟨r, hr, _⟩
  · exact List.mem_singleton.1 (same ▸ List.mem_append_right u List.mem_cons_self)
  · have mem : r ∈ g.rhss g.start := hr
    rw [h] at mem
    exact absurd mem List.not_mem_nil

/-- The language is empty, but a rule of a symbol that is not reachable stays in the last two
    stages. -/
theorem not_reaches_deadEnd :
    deadEnd.Valid ∧ (∀ w, ¬ deadEnd.Generates w) ∧
      ∃ s, deadEnd.checkedStages = .ok s ∧ ∀ h ∈ [s.generating, s.chomsky],
        h.rules = [⟨.nonterminal "A", [.terminal "a"]⟩] ∧ ¬ h.Reaches (.nonterminal "A") := by
  have valid : deadEnd.Valid := by decide
  refine ⟨valid, not_generates_of_not_mem_generating (by decide) (by decide), deadEnd.stages,
    valid.checkedStages_eq, ?_⟩
  -- In both stages the start symbol has no rule left.
  have cut : ∀ h ∈ [deadEnd.stages.generating, deadEnd.stages.chomsky],
      h.rules = [⟨.nonterminal "A", [.terminal "a"]⟩] ∧
        h.rhss h.start = [] ∧ h.start = .nonterminal "S" := by decide
  intro h hh
  obtain ⟨rules, none, start⟩ := cut h hh
  refine ⟨rules, fun reach => ?_⟩
  have same : Symbol.nonterminal "A" = .nonterminal "S" :=
    (eq_start_of_reaches none reach).trans start
  exact absurd same (by decide)

end ContextFree.Grammar
