/-
  ContextFree/Proofs/AlternativeOrder.lean
  ========================================
  **The order of the alternatives only shows in fresh names.**

  Two grammars have the same rules (`Grammar.SameRules`) if they differ in the order
  in which left-hand sides and right-hand sides are listed, and in how often.  What
  the analyses find and what the stages keep is a matter of derivations, so each of
  the first four stages takes such grammars to such grammars.

  The conversion visits the rules in order and asks the supply for names on the way.
  Its results have the same rules up to the names of the new symbols, and the names
  of the one go to those of the other by a bijection that leaves every symbol of the
  given grammars alone (`checkedStages_of_sameRules`).
-/
import ContextFree.Proofs.Renaming

namespace ContextFree.Grammar

variable {g h : Grammar}

/-- Start symbol, declared symbols, left-hand sides and, for each of them, the set of right-hand
    sides agree. -/
structure SameRules (g h : Grammar) : Prop where
  start_eq : g.start = h.start
  nonterminals_eq : g.nonterminals = h.nonterminals
  terminals_eq : g.terminals = h.terminals
  mem_keys_iff : ∀ A, A ∈ g.table.keys ↔ A ∈ h.table.keys
  mem_rhss_iff : ∀ A r, r ∈ g.rhss A ↔ r ∈ h.rhss A

/-- Compares the tables at the keys of both. -/
def sameAlternatives (g h : Grammar) : Bool :=
  (g.table.keys ++ h.table.keys).all fun A =>
    decide (A ∈ g.table.keys) && decide (A ∈ h.table.keys) &&
      (g.rhss A).all (· ∈ h.rhss A) && (h.rhss A).all (· ∈ g.rhss A)

theorem sameAlternatives_iff : sameAlternatives g h = true ↔
    (∀ A, A ∈ g.table.keys ↔ A ∈ h.table.keys) ∧ ∀ A r, r ∈ g.rhss A ↔ r ∈ h.rhss A := by
  simp only [sameAlternatives, List.all_eq_true, List.mem_append, Bool.and_eq_true,
    decide_eq_true_eq]
  constructor
  · intro all
    have keys : ∀ A, A ∈ g.table.keys ↔ A ∈ h.table.keys := fun A =>
      ⟨fun hA => (all A (Or.inl hA)).1.1.2, fun hA => (all A (Or.inr hA)).1.1.1⟩
    refine ⟨keys, fun A r => ?_⟩
    by_cases hA : A ∈ g.table.keys
    · exact ⟨(all A (Or.inl hA)).1.2 r, (all A (Or.inl hA)).2 r⟩
    · have hA' : A ∉ h.table.keys := fun mem => hA ((keys A).2 mem)
      rw [rhss_eq_nil_of_not_mem_keys hA, rhss_eq_nil_of_not_mem_keys hA']
  · rintro ⟨keys, rhss⟩ A hA
    have both : A ∈ g.table.keys ∧ A ∈ h.table.keys :=
      hA.elim (fun mem => ⟨mem, (keys A).1 mem⟩) fun mem => ⟨(keys A).2 mem, mem⟩
    exact ⟨⟨both, fun r hr => (rhss A r).1 hr⟩, fun r hr => (rhss A r).2 hr⟩

instance (g h : Grammar) : Decidable (SameRules g h) :=
  decidable_of_iff (g.start = h.start ∧ g.nonterminals = h.nonterminals ∧
      g.terminals = h.terminals ∧ sameAlternatives g h = true) <| by
    rw [sameAlternatives_iff]
    constructor
    · rintro ⟨start, nonterminals, terminals, keys, rhss⟩
      exact ⟨start, nonterminals, terminals, keys, rhss⟩
    · intro same
      exact ⟨same.start_eq, same.nonterminals_eq, same.terminals_eq, same.mem_keys_iff,
        same.mem_rhss_iff⟩

namespace SameRules

variable (same : g.SameRules h)
include same

/-! ### What depends on the set of rules -/

theorem ruleSet_eq : g.ruleSet = h.ruleSet := by
  ext r
  exact same.mem_rhss_iff r.lhs r.rhs

theorem declaredNames_eq : g.declaredNames = h.declaredNames := by
  unfold declaredNames
  rw [same.nonterminals_eq, same.terminals_eq]

theorem nullable_eq : g.nullable = h.nullable := productive_eq_of_ruleSet_eq same.ruleSet_eq

theorem generating_eq : g.generating = h.generating := productive_eq_of_ruleSet_eq same.ruleSet_eq

theorem unitPath_iff {A B : Symbol} : g.UnitPath A B ↔ h.UnitPath A B := by
  unfold UnitPath
  simp only [mem_unitTargets, same.mem_rhss_iff]

theorem nonterminalLhss (hg : g.NonterminalLhss) : h.NonterminalLhss :=
  fun A r hr => hg A r ((same.mem_rhss_iff A r).2 hr)

theorem declares_iff {x : Symbol} : g.Declares x ↔ h.Declares x := by
  unfold Declares
  rw [same.nonterminals_eq, same.terminals_eq]

theorem derivesWord_iff {A : Symbol} {w : List String} :
    g.DerivesWord A w ↔ h.DerivesWord A w := by
  rw [derivesWord_iff_expands, derivesWord_iff_expands, same.ruleSet_eq]

theorem sentential_iff {u : List Symbol} : g.Sentential u ↔ h.Sentential u := by
  rw [sentential_iff_expands, sentential_iff_expands, same.ruleSet_eq, same.start_eq]

theorem reaches_iff {x : Symbol} : g.Reaches x ↔ h.Reaches x := by
  unfold Reaches
  simp only [same.sentential_iff]

theorem reachable_eq (hg : g.NonterminalLhss) : g.reachable = h.reachable := by
  apply Std.ExtTreeSet.ext_mem
  intro x
  rw [mem_reachable_iff hg, mem_reachable_iff (same.nonterminalLhss hg), same.reaches_iff]

/-! ### The first four stages -/

theorem withTable {t u : Table Symbol (List Rhs)} (keys : ∀ A, A ∈ t.keys ↔ A ∈ u.keys)
    (rhss : ∀ A r, r ∈ (g.withTable t).rhss A ↔ r ∈ (h.withTable u).rhss A) :
    (g.withTable t).SameRules (h.withTable u) := by
  refine ⟨same.start_eq, ?_, same.terminals_eq, keys, rhss⟩
  apply Std.ExtTreeSet.ext_mem
  intro x
  rw [mem_nonterminals_withTable, mem_nonterminals_withTable, same.start_eq, same.nonterminals_eq]
  simp only [ne_eq, List.eq_nil_iff_forall_not_mem, rhss]

theorem withoutEpsilon : g.withoutEpsilon.SameRules h.withoutEpsilon := by
  refine same.withTable (fun A => ?_) fun A r => ?_
  · rw [Table.keys_mapValues, Table.keys_mapValues]
    exact same.mem_keys_iff A
  · have after := mem_rhss_withoutEpsilon (g := g) (A := A) (v := r)
    simp only [same.mem_rhss_iff, same.nullable_eq, same.start_eq] at after
    exact after.trans mem_rhss_withoutEpsilon.symm

theorem withoutUnits : g.withoutUnits.SameRules h.withoutUnits := by
  refine same.withTable (fun A => ?_) fun A r => ?_
  · rw [Table.keys_mapValues, Table.keys_mapValues, g.table.perm_keys_sortKeys.mem_iff,
      h.table.perm_keys_sortKeys.mem_iff]
    exact same.mem_keys_iff A
  · have after := mem_rhss_withoutUnits (g := g) (A := A) (r := r)
    simp only [same.unitPath_iff, same.mem_rhss_iff, same.start_eq] at after
    exact after.trans mem_rhss_withoutUnits.symm

theorem onlyReachable (hg : g.NonterminalLhss) : g.onlyReachable.SameRules h.onlyReachable := by
  have reach := same.reachable_eq hg
  refine ⟨same.start_eq, ?_, ?_, fun A => ?_, fun A r => ?_⟩
  · unfold Grammar.onlyReachable ofSymbols
    rw [same.start_eq, same.nonterminals_eq, reach]
  · unfold Grammar.onlyReachable ofSymbols
    rw [same.terminals_eq, reach]
  · unfold Grammar.onlyReachable
    rw [Table.mem_keys_filterKeys, Table.mem_keys_filterKeys, same.mem_keys_iff, reach]
  · rw [mem_rhss_onlyReachable, mem_rhss_onlyReachable, same.mem_rhss_iff, reach]

theorem onlyGenerating : g.onlyGenerating.SameRules h.onlyGenerating := by
  have gen := same.generating_eq
  refine ⟨same.start_eq, ?_, same.terminals_eq, fun A => ?_, fun A r => ?_⟩
  · unfold Grammar.onlyGenerating ofSymbols
    rw [same.start_eq, same.nonterminals_eq, gen]
  · unfold Grammar.onlyGenerating
    rw [Table.keys_mapValues, Table.keys_mapValues, Table.mem_keys_filterKeys,
      Table.mem_keys_filterKeys, same.mem_keys_iff, gen]
  · rw [mem_rhss_onlyGenerating, mem_rhss_onlyGenerating, same.mem_rhss_iff, same.ruleSet_eq]

theorem stages (hg : g.Valid) :
    g.stages.epsilonFree.SameRules h.stages.epsilonFree ∧
      g.stages.unitFree.SameRules h.stages.unitFree ∧
      g.stages.reachable.SameRules h.stages.reachable ∧
      g.stages.generating.SameRules h.stages.generating := by
  have first : g.stages.epsilonFree.SameRules h.stages.epsilonFree := by
    rw [stages_epsilonFree, stages_epsilonFree]
    exact same.withoutEpsilon
  have second : g.stages.unitFree.SameRules h.stages.unitFree := by
    rw [stages_unitFree, stages_unitFree]
    exact first.withoutUnits
  have third : g.stages.reachable.SameRules h.stages.reachable := by
    rw [stages_reachable, stages_reachable]
    exact second.onlyReachable hg.rulesOver_stages_unitFree.nonterminalLhss
  have fourth : g.stages.generating.SameRules h.stages.generating := by
    rw [stages_generating, stages_generating]
    exact third.onlyGenerating
  exact ⟨first, second, third, fourth⟩

/-! ### The conversion -/

/-- Conversions of the same rules differ by a renaming that leaves the known symbols alone. -/
theorem toChomsky (hg : g.WellFormed) (hh : h.WellFormed) {f : NameSupply}
    (hf : ∀ x, g.Declares x → x.name ∈ f.used) :
    ∃ φ : Symbol → Symbol, Set.BijOn φ {X | X ∈ (g.toChomsky f).1.nonterminals}
        {X | X ∈ (h.toChomsky f).1.nonterminals} ∧
      (∀ x ∈ f.known, φ x = x) ∧
      Rule.rename φ '' (g.toChomsky f).1.ruleSet = (h.toChomsky f).1.ruleSet := by
  have hf' : ∀ x, h.Declares x → x.name ∈ f.used := by
    intro x hx
    exact hf x (same.declares_iff.2 hx)
  obtain ⟨ν, names, rules, nonterminals⟩ := hg.exists_names hf
  obtain ⟨ν', names', rules', nonterminals'⟩ := hh.exists_names hf'
  rw [← same.ruleSet_eq] at names' rules'
  simp only [← same.ruleSet_eq, ← same.nonterminals_eq] at nonterminals'
  obtain ⟨φ, renames⟩ := names.exists_renaming ν'
  refine ⟨φ, ?_, renames.fixes, ?_⟩
  · have bij := renames.bijOn names' (N := {x | x ∈ g.nonterminals})
      fun x hx => Or.inr (hf x (Or.inl hx))
    simp only [nonterminals, nonterminals']
    exact bij
  · rw [rules, rules', renames.image_convertedRules (mentionsOnly_ruleSet hg hf)]

end SameRules

/-! ### All five stages -/

/-- Runs on two valid grammars that list the same rules in different orders: each of the first four
    stages has the same symbols and the same rules in both, and those of the last one go to each
    other by a bijection of the non-terminals that moves fresh ones only. -/
theorem checkedStages_of_sameRules (hg : g.Valid) (hh : h.Valid) (same : g.SameRules h) :
    ∃ s t, g.checkedStages = .ok s ∧ h.checkedStages = .ok t ∧
      List.Forall₂ SameRules s.toList.dropLast t.toList.dropLast ∧
      ∃ φ : Symbol → Symbol,
        Set.BijOn φ {X | X ∈ s.chomsky.nonterminals} {X | X ∈ t.chomsky.nonterminals} ∧
        (∀ x, g.Declares x → φ x = x) ∧
        Rule.rename φ '' s.chomsky.ruleSet = t.chomsky.ruleSet := by
  obtain ⟨first, second, third, fourth⟩ := same.stages hg
  have drawn := hg.drawnFrom_stages.2.2.2
  have drawn' := hh.drawnFrom_stages.2.2.2
  have known : ∀ x, g.stages.generating.Declares x →
      x.name ∈ (NameSupply.ofUsed g.declaredNames).used :=
    fun x hx => name_mem_declaredNames (drawn.declares x hx)
  obtain ⟨φ, bij, fixes, image⟩ := fourth.toChomsky drawn.wellFormed drawn'.wellFormed known
  refine ⟨g.stages, h.stages, hg.checkedStages_eq, hh.checkedStages_eq, ?_, φ, ?_, ?_, ?_⟩
  · unfold Stages.toList
    exact List.Forall₂.cons first (List.Forall₂.cons second (List.Forall₂.cons third
      (List.Forall₂.cons fourth List.Forall₂.nil)))
  · rw [stages_chomsky, stages_chomsky, ← same.declaredNames_eq]
    exact bij
  · exact fun x hx => fixes x (mem_known_of_declares hx)
  · rw [stages_chomsky, stages_chomsky, ← same.declaredNames_eq]
    exact image

/-- `S -> a S b b | b S a | a`. -/
def mirrored : Grammar :=
  (ofSymbols (.nonterminal "S") ∅ (.ofList [Symbol.terminal "a", Symbol.terminal "b"])).addRules
    [⟨.nonterminal "S", [.terminal "a", .nonterminal "S", .terminal "b", .terminal "b"]⟩,
      ⟨.nonterminal "S", [.terminal "b", .nonterminal "S", .terminal "a"]⟩,
      ⟨.nonterminal "S", [.terminal "a"]⟩]

/-- The rules of `mirrored` in the opposite order. -/
def mirroredBack : Grammar :=
  (ofSymbols (.nonterminal "S") ∅ (.ofList [Symbol.terminal "a", Symbol.terminal "b"])).addRules
    [⟨.nonterminal "S", [.terminal "a"]⟩,
      ⟨.nonterminal "S", [.terminal "b", .nonterminal "S", .terminal "a"]⟩,
      ⟨.nonterminal "S", [.terminal "a", .nonterminal "S", .terminal "b", .terminal "b"]⟩]

/-- The name `X1` goes to links of different rules. -/
theorem checkedStages_of_sameRules_mirrored :
    mirrored.stages.chomsky.rhss (.nonterminal "X1") ≠
      mirroredBack.stages.chomsky.rhss (.nonterminal "X1") ∧
    ∃ s t, mirrored.checkedStages = .ok s ∧ mirroredBack.checkedStages = .ok t ∧
      List.Forall₂ SameRules s.toList.dropLast t.toList.dropLast ∧
      ∃ φ : Symbol → Symbol,
        Set.BijOn φ {X | X ∈ s.chomsky.nonterminals} {X | X ∈ t.chomsky.nonterminals} ∧
        (∀ x, mirrored.Declares x → φ x = x) ∧
        Rule.rename φ '' s.chomsky.ruleSet = t.chomsky.ruleSet :=
  ⟨by decide, checkedStages_of_sameRules (by decide) (by decide) (by decide)⟩

end ContextFree.Grammar
