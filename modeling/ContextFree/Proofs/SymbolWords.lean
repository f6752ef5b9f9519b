/-
  ContextFree/Proofs/SymbolWords.lean
  ===================================
  **The non-empty words of every symbol** stay when empty right-hand sides go
  (`withoutEpsilon_keeps_words`), and also when unit rules go behind that
  (`withoutUnits_withoutEpsilon_keeps_words`).

  Only the start symbol keeps the empty word, and what it keeps may flow back into
  other symbols, along unit rules too.  That does no harm: behind the first stage
  no derivation of a non-empty word needs an empty right-hand side.  The second
  stage on its own has no such promise.
-/
import ContextFree.Proofs.UnitElimination

namespace ContextFree.Grammar

/-- The words that a symbol derives, without the empty one. -/
def nonemptyWords (g : Grammar) (A : Symbol) : Set (List String) :=
  {w | w ≠ [] ∧ g.DerivesWord A w}

variable {g h : Grammar}

/-- A grammar that derives nothing new, and whose non-empty rules derive every non-empty word of
    `g`, has the non-empty words of `g`. -/
theorem nonemptyWords_eq {A : Symbol}
    (sound : ∀ w, Expands h.ruleSet [A] w → Expands g.ruleSet [A] w)
    (complete : ∀ w, IsWord w → w ≠ [] → Expands g.ruleSet [A] w →
      Expands (nonemptyRules h.ruleSet) [A] w) :
    h.nonemptyWords A = g.nonemptyWords A := by
  ext w
  refine and_congr_right fun hne => ?_
  rw [derivesWord_iff_expands, derivesWord_iff_expands]
  refine ⟨sound (word w), fun hw => ?_⟩
  exact (complete (word w) (isWord_word w) (word_ne_nil hne) hw).mono (nonemptyRules_subset _)

/-- Each symbol keeps its non-empty words.  The start symbol derives the empty word as before, and
    if it does it has an empty right-hand side; no other symbol has one. -/
theorem withoutEpsilon_keeps_words (g : Grammar) :
    (∀ A, g.withoutEpsilon.nonemptyWords A = g.nonemptyWords A) ∧
      (g.withoutEpsilon.Generates [] ↔ g.Generates []) ∧
      (g.withoutEpsilon.Generates [] ↔ [] ∈ g.withoutEpsilon.rhss g.withoutEpsilon.start) ∧
      ∀ A, [] ∈ g.withoutEpsilon.rhss A → A = g.withoutEpsilon.start := by
  have own : [] ∈ g.withoutEpsilon.rhss g.start ↔ Expands g.ruleSet [g.start] [] :=
    nil_mem_rhss_withoutEpsilon.trans mem_nullable_iff
  have before : g.Generates [] ↔ Expands g.ruleSet [g.start] [] := generates_iff_expands
  have after : g.withoutEpsilon.Generates [] ↔
      Expands g.withoutEpsilon.ruleSet [g.start] [] := generates_iff_expands
  have same : g.withoutEpsilon.Generates [] ↔ g.Generates [] := by
    rw [before, after]
    exact ⟨expands_of_withoutEpsilon, fun hnil => Expands.single (own.2 hnil)⟩
  refine ⟨fun A => ?_, same, ?_, epsilonOnlyAtStart_withoutEpsilon⟩
  · exact nonemptyWords_eq (fun w => expands_of_withoutEpsilon)
      fun w hw hne h => expands_withoutEpsilon h hw hne
  · exact same.trans (before.trans own.symm)

/-- Without empty right-hand sides and then without unit rules, each symbol has the non-empty words
    that it had, whatever unit rules led where. -/
theorem withoutUnits_withoutEpsilon_keeps_words (g : Grammar) (A : Symbol) :
    g.withoutEpsilon.withoutUnits.nonemptyWords A = g.nonemptyWords A := by
  refine nonemptyWords_eq (fun w hw => ?_) fun w hw hne h => ?_
  · exact expands_of_withoutEpsilon (expands_of_withoutUnits hw)
  · exact expands_withoutUnits (expands_withoutEpsilon h hw hne) hw

end ContextFree.Grammar
