/-
  ContextFree/Proofs/Consistency.lean
  ===================================
  **What holds of every grammar that was read and then worked on**, valid or not: the
  start symbol and every left-hand side are declared, and no right-hand side is
  repeated (`Consistent`).

  A rule that is added may mention anything, so nothing is known of the symbols on
  right-hand sides, nor of their kinds.  The eliminations and the clean-ups keep the
  three facts.  The passes of the conversion bring them about on their own: they start
  without rules and add what they make, whatever names the supply hands out.
-/
import ContextFree.Proofs.Declarations
import ContextFree.Proofs.DescriptionRoundTrip
import ContextFree.Proofs.TextReading

namespace ContextFree

/-- The start symbol and every left-hand side are declared, and no right-hand side is repeated. -/
structure Grammar.Consistent (g : Grammar) : Prop where
  start_mem : g.start ∈ g.nonterminals
  lhs_mem : ∀ A ∈ g.table.keys, A ∈ g.nonterminals
  nodup_rhss : ∀ A, (g.rhss A).Nodup

namespace Grammar

variable {g h : Grammar}

/-! ### Reading -/

theorem WellFormed.consistent (hg : g.WellFormed) (nodup : ∀ A, (g.rhss A).Nodup) : g.Consistent :=
  ⟨hg.start_mem, hg.lhs_mem, nodup⟩

theorem consistent_ofText {text : String} (hg : ofText text = .ok g) : g.Consistent :=
  (wellFormed_ofText hg).consistent (nodup_rhss_ofText hg)

theorem consistent_ofDescription {value : Json} (hg : ofDescription value = .ok g) :
    g.Consistent :=
  (valid_ofDescription hg).wellFormed.consistent (nodup_rhss_ofDescription hg)

/-! ### Adding rules -/

theorem consistent_ofSymbols (start : Symbol) (nonterminals terminals : SymbolSet) :
    (ofSymbols start nonterminals terminals).Consistent where
  start_mem := SymbolSet.mem_insert.2 (Or.inl rfl)
  lhs_mem _ hA := absurd hA List.not_mem_nil
  nodup_rhss _ := List.nodup_nil

namespace Consistent

/-- The left-hand side of a new rule is declared, and a right-hand side that is there already is not
    added, whatever symbols the rule has. -/
theorem addRule (hg : g.Consistent) (r : Rule) : (g.addRule r).Consistent where
  start_mem := SymbolSet.mem_insert.2 (Or.inr hg.start_mem)
  lhs_mem A hA := by
    rw [keys_addRule, Distinct.mem_insert] at hA
    exact SymbolSet.mem_insert.2 (hA.symm.imp id (hg.lhs_mem A))
  nodup_rhss A := by
    rw [rhss_addRule]
    split
    · exact Distinct.nodup_insert (hg.nodup_rhss A) r.rhs
    · exact hg.nodup_rhss A

theorem addRules (hg : g.Consistent) (rs : List Rule) : (g.addRules rs).Consistent := by
  induction rs generalizing g with
  | nil => exact hg
  | cons r rs ih => exact ih (hg.addRule r)

/-! ### The stages -/

theorem withTable (hg : g.Consistent) {t : Table Symbol (List Rhs)}
    (keys : ∀ A ∈ t.keys, A ∈ g.table.keys) (nodup : ∀ A, ((g.withTable t).rhss A).Nodup) :
    (g.withTable t).Consistent where
  start_mem := mem_nonterminals_withTable.2 (Or.inl (Or.inl rfl))
  lhs_mem A hA := mem_nonterminals_withTable.2 (Or.inl (Or.inr (hg.lhs_mem A (keys A hA))))
  nodup_rhss := nodup

theorem withoutEpsilon (hg : g.Consistent) : g.withoutEpsilon.Consistent := by
  refine hg.withTable (fun A hA => ?_) nodup_rhss_withoutEpsilon
  rwa [Table.keys_mapValues] at hA

theorem withoutUnits (hg : g.Consistent) : g.withoutUnits.Consistent := by
  refine hg.withTable (fun A hA => ?_) nodup_rhss_withoutUnits
  rw [Table.keys_mapValues] at hA
  exact g.table.perm_keys_sortKeys.mem_iff.1 hA

theorem onlyReachable (hg : g.Consistent) : g.onlyReachable.Consistent where
  start_mem := SymbolSet.mem_insert.2 (Or.inl rfl)
  lhs_mem A hA := by
    obtain ⟨hA, hreach⟩ := Table.mem_keys_filterKeys.1 hA
    exact SymbolSet.mem_insert.2 (Or.inr (SymbolSet.mem_select.2 ⟨hg.lhs_mem A hA, hreach⟩))
  nodup_rhss A := nodup_rhss_onlyReachable (hg.nodup_rhss A)

theorem onlyGenerating (hg : g.Consistent) : g.onlyGenerating.Consistent where
  start_mem := SymbolSet.mem_insert.2 (Or.inl rfl)
  lhs_mem A hA := by
    obtain ⟨hA, hgen⟩ := mem_keys_onlyGenerating.1 hA
    exact mem_nonterminals_onlyGenerating.2 (Or.inr ⟨hg.lhs_mem A hA, hgen⟩)
  nodup_rhss A := nodup_rhss_onlyGenerating (hg.nodup_rhss A)

end Consistent

/-! ### The conversion -/

theorem consistent_separateTerminals (g : Grammar) (f : NameSupply) :
    (g.separateTerminals f).1.Consistent := by
  rw [separateTerminals_eq_addRules]
  exact (consistent_ofSymbols _ _ _).addRules _

theorem consistent_splitLong (g : Grammar) (f : NameSupply) : (g.splitLong f).1.Consistent :=
  (consistent_ofSymbols _ _ _).addRules _

theorem consistent_toChomsky (g : Grammar) (f : NameSupply) : (g.toChomsky f).1.Consistent :=
  consistent_splitLong (g.separateTerminals f).1 (g.separateTerminals f).2

theorem consistent_chomskyForm (hh : g.chomskyForm = .ok h) : h.Consistent := by
  obtain ⟨s, hs, rfl⟩ := map_eq_ok_iff.1 hh
  obtain ⟨_, _, rfl⟩ := map_eq_ok_iff.1 hs
  rw [stages_chomsky]
  exact consistent_toChomsky _ _

end Grammar

end ContextFree
