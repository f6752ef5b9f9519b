/-
  ContextFree/Proofs/Language.lean
  ================================
  **The pipeline keeps the language** (`checkedStages_keep_language`) and every
  shape that a stage has established (`checkedStages_keep_shape`).

  Both are read off the invariant of `ContextFree.Proofs.Stages`.  The grammar of
  matching brackets is the case to keep in mind: its start symbol is nullable and
  recurs on right-hand sides, and dropping one symbol of `S S` makes a unit rule
  from the start symbol to itself.
-/
import ContextFree.Proofs.Stages

namespace ContextFree.Grammar

variable {g : Grammar}

/-- Matching brackets: `S -> a S b | S S | ε`. -/
def brackets : Grammar :=
  (ofSymbols (.nonterminal "S") ∅
    (.ofList [Symbol.terminal "a", Symbol.terminal "b"])).addRules
    [⟨.nonterminal "S", [.terminal "a", .nonterminal "S", .terminal "b"]⟩,
      ⟨.nonterminal "S", [.nonterminal "S", .nonterminal "S"]⟩,
      ⟨.nonterminal "S", []⟩]

theorem valid_brackets : brackets.Valid := by decide

/-! ### The language -/

/-- Each of the five grammars has the start symbol and the language of the given one. -/
theorem checkedStages_keep_language (hg : g.Valid) :
    ∃ s, g.checkedStages = .ok s ∧
      ∀ h ∈ s.toList, h.start = g.start ∧ ∀ w, h.Generates w ↔ g.Generates w := by
  refine ⟨g.stages, hg.checkedStages_eq, fun h hh => ?_⟩
  have form := hg.epsilonFreeForm_of_mem_stages h hh
  exact ⟨form.start_eq, form.generates_iff⟩

theorem checkedStages_keep_language_brackets :
    brackets.Valid ∧ ∃ s, brackets.checkedStages = .ok s ∧
      ∀ h ∈ s.toList, h.start = .nonterminal "S" ∧
        ∀ w, h.Generates w ↔ brackets.Generates w :=
  ⟨valid_brackets, checkedStages_keep_language valid_brackets⟩

/-! ### The shapes -/

/-- Empty right-hand sides at the start symbol only, and there if and only if the empty word is in
    the language; no unit rules from the second stage on; a normal form at the end. -/
theorem checkedStages_keep_shape (hg : g.Valid) :
    ∃ s, g.checkedStages = .ok s ∧
      (∀ h ∈ s.toList, h.EpsilonOnlyAtStart) ∧
      (∀ h ∈ s.toList.tail, h.UnitFree) ∧
      s.chomsky.isChomsky = true ∧
      ∀ h ∈ s.toList, ([] ∈ h.rhss h.start ↔ g.Generates []) := by
  refine ⟨g.stages, hg.checkedStages_eq, ?_, ?_, ?_, ?_⟩
  · exact fun h hh => (hg.epsilonFreeForm_of_mem_stages h hh).epsilonOnlyAtStart
  · exact hg.unitFree_of_mem_tail_stages
  · exact hg.isChomsky_stages_chomsky
  · exact fun h hh => (hg.epsilonFreeForm_of_mem_stages h hh).nil_mem_rhss_iff

theorem checkedStages_keep_shape_brackets :
    brackets.Valid ∧ ∃ s, brackets.checkedStages = .ok s ∧
      (∀ h ∈ s.toList, h.EpsilonOnlyAtStart) ∧
      (∀ h ∈ s.toList.tail, h.UnitFree) ∧
      s.chomsky.isChomsky = true ∧
      ∀ h ∈ s.toList, ([] ∈ h.rhss h.start ↔ brackets.Generates []) :=
  ⟨valid_brackets, checkedStages_keep_shape valid_brackets⟩

end ContextFree.Grammar
