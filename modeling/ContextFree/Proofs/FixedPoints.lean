/-
  ContextFree/Proofs/FixedPoints.lean
  ===================================
  **A reduced grammar in normal form** goes through the pipeline unchanged, and no other
  valid grammar does but one with a start symbol and nothing else
  (`checkedStages_fix_reduced`).

  Each stage makes its result anew, so that nothing changes has to be said of each:
  there is nothing to drop for the first, no unit rule for the second, nothing to
  delete for the clean-ups, and nothing to separate or to split for the conversion.
  The second stage puts the left-hand sides in order and the conversion lists the
  rules by it; beyond that order the results are the given grammar (`Grammar.Same`).

  Conversely each condition is one that some stage establishes.  The start symbol is
  the least obvious one: where it is nullable and on a right-hand side, dropping it
  there leaves a unit rule.
-/
import ContextFree.Proofs.Idempotence
import ContextFree.Proofs.KeyOrder

namespace ContextFree.Grammar

variable {g h : Grammar}

/-- A grammar in normal form in which no right-hand side is repeated, every declared symbol is
    reached and every declared non-terminal derives a word.  The start symbol may have an empty
    right-hand side if it is on none. -/
structure Reduced (g : Grammar) : Prop where
  isChomsky : g.isChomsky = true
  nodup_rhss : ∀ A, (g.rhss A).Nodup
  reaches : ∀ x, g.Declares x → g.Reaches x
  derives : ∀ A ∈ g.nonterminals, ∃ w, g.DerivesWord A w
  epsilon : [] ∉ g.rhss g.start ∨ ∀ A, ∀ r ∈ g.rhss A, g.start ∉ r

/-- On a well-formed grammar the analyses decide whether it is reduced. -/
theorem WellFormed.reduced_iff (hg : g.WellFormed) :
    g.Reduced ↔ g.isChomsky = true ∧ (∀ e ∈ g.table.entries, e.2.Nodup) ∧
      ((∀ x ∈ g.nonterminals.toList, x ∈ g.reachable) ∧
        ∀ a ∈ g.terminals.toList, a ∈ g.reachable) ∧
      (∀ A ∈ g.nonterminals.toList, A ∈ g.generating) ∧
      ([] ∉ g.rhss g.start ∨ ∀ e ∈ g.table.entries, ∀ r ∈ e.2, g.start ∉ r) := by
  have reach : ∀ x, x ∈ g.reachable ↔ g.Reaches x :=
    fun x => mem_reachable_iff hg.nonterminalLhss
  have generate : ∀ A ∈ g.nonterminals, (A ∈ g.generating ↔ ∃ w, g.DerivesWord A w) :=
    fun A hA => mem_generating_iff_exists_derivesWord (hg.isNonterminal_of_mem A hA)
  have nodup : (∀ e ∈ g.table.entries, e.2.Nodup) ↔ ∀ A, (g.rhss A).Nodup :=
    forall_rhss_iff (P := fun _ rs => rs.Nodup) fun _ => List.nodup_nil
  simp only [Std.ExtTreeSet.mem_toList, nodup, reach,
    forall_entries_iff (P := fun _ r => g.start ∉ r)]
  constructor
  · intro reduced
    refine ⟨reduced.isChomsky, reduced.nodup_rhss, ⟨?_, ?_⟩, ?_, ?_⟩
    · exact fun x hx => reduced.reaches x (Or.inl hx)
    · exact fun a ha => reduced.reaches a (Or.inr ha)
    · exact fun A hA => (generate A hA).2 (reduced.derives A hA)
    · exact reduced.epsilon
  · rintro ⟨isChomsky, nodup, ⟨nonterminals, terminals⟩, generating, epsilon⟩
    refine ⟨isChomsky, nodup, ?_, ?_, epsilon⟩
    · rintro x (hx | hx)
      · exact nonterminals x hx
      · exact terminals x hx
    · exact fun A hA => (generate A hA).1 (generating A hA)

/-! ### Other orders of the left-hand sides -/

theorem get?_eq_of_rhss_eq {A : Symbol} (keys : A ∈ g.table.keys ↔ A ∈ h.table.keys)
    (rhss : g.rhss A = h.rhss A) : g.table.get? A = h.table.get? A := by
  by_cases hA : A ∈ g.table.keys
  · have own := mem_entries_of_mem_keys hA
    have other := mem_entries_of_mem_keys (keys.1 hA)
    rw [Table.get?_eq_some_iff.2 own, Table.get?_eq_some_iff.2 other, rhss]
  · rw [Table.get?_eq_none_iff.2 hA, Table.get?_eq_none_iff.2 (mt keys.2 hA)]

namespace Same

theorem trans {k : Grammar} (same : g.Same h) (same' : h.Same k) : g.Same k :=
  ⟨same.1.trans same'.1, same.2.1.trans same'.2.1, same.2.2.1.trans same'.2.2.1,
    fun A => (same.2.2.2 A).trans (same'.2.2.2 A)⟩

theorem sameRules (same : g.Same h) : g.SameRules h := by
  refine ⟨same.1, same.2.1, same.2.2.1, ?_, ?_⟩
  · intro A
    rw [← not_iff_not, ← Table.get?_eq_none_iff, ← Table.get?_eq_none_iff, same.2.2.2 A]
  · intro A r
    rw [same.rhss_eq]

theorem wellFormed (same : g.Same h) (hg : g.WellFormed) : h.WellFormed := by
  have rules := same.sameRules
  have nonterminals : ∀ x, x ∈ h.nonterminals ↔ x ∈ g.nonterminals := by
    intro x
    rw [rules.nonterminals_eq]
  refine hg.restrict (fun x => (nonterminals x).1) ?_ ?_ ?_ ?_
  · intro a ha
    rwa [rules.terminals_eq]
  · rw [nonterminals, ← rules.start_eq]
    exact hg.start_mem
  · exact fun A hA => (nonterminals A).2 (hg.lhs_mem A ((rules.mem_keys_iff A).2 hA))
  · exact fun A r hr x hx =>
      rules.declares_iff.1 (hg.declares A r ((rules.mem_rhss_iff A r).2 hr) x hx)

theorem isChomsky_iff (same : g.Same h) : g.isChomsky = true ↔ h.isChomsky = true := by
  rw [Grammar.isChomsky_iff, Grammar.isChomsky_iff, same.ruleSet_eq, same.1]

theorem reduced (same : g.Same h) (hg : g.Reduced) : h.Reduced := by
  have rules := same.sameRules
  refine ⟨same.isChomsky_iff.1 hg.isChomsky, ?_, ?_, ?_, ?_⟩
  · rw [← same.rhss_eq]
    exact hg.nodup_rhss
  · exact fun x hx => rules.reaches_iff.1 (hg.reaches x (rules.declares_iff.2 hx))
  · intro A hA
    rw [← rules.nonterminals_eq] at hA
    obtain ⟨w, hw⟩ := hg.derives A hA
    exact ⟨w, rules.derivesWord_iff.1 hw⟩
  · rw [← same.rhss_eq, ← same.1]
    exact hg.epsilon

end Same

/-! ### The eliminations -/

/-- Where no right-hand side holds a nullable symbol, there is nothing to drop. -/
theorem WellFormed.withoutEpsilon_eq_self (hg : g.WellFormed) (hε : g.EpsilonOnlyAtStart)
    (nodup : ∀ A, (g.rhss A).Nodup) (none : ∀ A, ∀ r ∈ g.rhss A, ∀ x ∈ r, x ∉ g.nullable) :
    g.withoutEpsilon = g := by
  have own : ∀ A, g.epsilonFreeRhss g.nullable A (g.rhss A) = g.rhss A := by
    intro A
    have variants : (g.rhss A).flatMap (Rhs.variants g.nullable) = g.rhss A := by
      have single : ∀ r ∈ g.rhss A, Rhs.variants g.nullable r = [r] := by
        intro r hr
        unfold Rhs.variants
        rw [Rhs.choices_eq_singleton (none A r hr)]
        rfl
      rw [List.flatMap_congr single, List.flatMap_singleton']
    have kept : (g.rhss A).filter (fun r => !r.isEmpty || decide (A = g.start)) = g.rhss A := by
      apply List.filter_eq_self.2
      intro r hr
      cases r with
      | nil => simp [hε A hr]
      | cons x r => rfl
    unfold epsilonFreeRhss
    rw [variants, kept]
    exact Distinct.ofList_of_nodup (nodup A)
  have table : g.table.mapValues (g.epsilonFreeRhss g.nullable) = g.table := by
    apply Table.mapValues_eq_self
    intro e he
    rw [← rhss_eq_of_mem_entries he]
    exact own e.1
  unfold withoutEpsilon
  rw [table]
  apply withTable_eq hg.start_mem
  exact fun A some => hg.lhs_mem A (mem_keys_of_rhss_ne_nil some)

namespace Reduced

variable (hg : g.Reduced)
include hg

theorem epsilonOnlyAtStart : g.EpsilonOnlyAtStart := epsilonOnlyAtStart_of_isChomsky hg.isChomsky

/-- A nullable symbol is the start symbol, and then it is on no right-hand side. -/
theorem not_mem_nullable {A : Symbol} {r : Rhs} (hr : r ∈ g.rhss A) :
    ∀ x ∈ r, x ∉ g.nullable := by
  have absent : ∀ B, ∀ s ∈ g.rhss B, ∀ x ∈ s, ¬ (x = g.start ∧ [] ∈ g.rhss g.start) := by
    rintro B s hs x hx ⟨rfl, empty⟩
    exact hg.epsilon.elim (fun none => none empty) fun apart => apart B s hs hx
  have start : ∀ x ∈ g.nullable, x = g.start ∧ [] ∈ g.rhss g.start := by
    apply productive_induction
    intro B s hs all
    rcases s with _ | ⟨x, s⟩
    · have same := hg.epsilonOnlyAtStart B hs
      exact ⟨same, same ▸ hs⟩
    · have found := (all x List.mem_cons_self).resolve_left Bool.false_ne_true
      exact absurd found (absent B (x :: s) hs x List.mem_cons_self)
  exact fun x hx null => absent A r hr x hx (start x null)

theorem withoutEpsilon_eq (wf : g.WellFormed) : g.withoutEpsilon = g :=
  wf.withoutEpsilon_eq_self hg.epsilonOnlyAtStart hg.nodup_rhss fun _ _ => hg.not_mem_nullable

theorem withoutUnits_eq (wf : g.WellFormed) :
    g.withoutUnits = { g with table := g.table.sortKeys } := by
  refine (unitFree_of_isChomsky hg.isChomsky).withoutUnits_eq hg.epsilonOnlyAtStart wf.start_mem
    ?_ hg.nodup_rhss
  exact fun A some => wf.lhs_mem A (mem_keys_of_rhss_ne_nil some)

/-! ### The clean-ups -/

theorem onlyReachable_eq (wf : g.WellFormed) : g.onlyReachable = g := by
  apply wf.onlyReachable_eq_self
  intro x hx
  exact (mem_reachable_iff wf.nonterminalLhss).2 (hg.reaches x hx)

theorem mem_generating (wf : g.WellFormed) : ∀ A ∈ g.nonterminals, A ∈ g.generating := by
  intro A hA
  have kind := wf.isNonterminal_of_mem A hA
  exact (mem_generating_iff_exists_derivesWord kind).2 (hg.derives A hA)

theorem onlyGenerating_eq (wf : g.WellFormed) : g.onlyGenerating = g := by
  have generating := hg.mem_generating wf
  refine onlyGenerating_eq_self wf.start_mem ?_ ?_ ?_
  · exact fun A hA => Or.inr (generating A hA)
  · exact fun A hA => generating A (wf.lhs_mem A hA)
  · intro r hr
    apply supported_generating_iff.1
    apply supported_iff.2
    intro x hx
    rcases wf.declares r.lhs r.rhs hr x hx with hnt | hterm
    · exact Or.inr (generating x hnt)
    · exact Or.inl (wf.isTerminal_of_mem x hterm)

end Reduced

/-! ### The conversion -/

theorem splitRule_of_length_le {A : Symbol} {r : Rhs} (short : r.length ≤ 2) (f : NameSupply) :
    splitRule A r f = ([⟨A, r⟩], f) := by
  rcases r with _ | ⟨x, _ | ⟨y, _ | ⟨z, rest⟩⟩⟩
  · rfl
  · rfl
  · rfl
  · simp only [List.length_cons] at short
    omega

theorem splitRules_of_length_le {rs : List Rule} (short : ∀ r ∈ rs, r.rhs.length ≤ 2)
    (f : NameSupply) : splitRules rs f = (rs, f) := by
  induction rs with
  | nil => rfl
  | cons r rs ih =>
    obtain ⟨hr, hrs⟩ := List.forall_mem_cons.1 short
    unfold splitRules
    rw [splitRule_of_length_le hr]
    simp only [ih hrs, List.singleton_append]

theorem separatedRules_nil (rs : List Rule) : separatedRules [] rs = rs := by
  have same : ∀ r : Rule, Rule.separate [] r = r := by
    intro r
    have own : r.rhs.map (Preterminals.apply []) = r.rhs := List.map_id r.rhs
    unfold Rule.separate
    rw [own]
    split <;> rfl
  unfold separatedRules
  rw [funext same, List.map_id', List.map_nil, List.append_nil]

/-- The grammar made from the rules of `g` in the order of their left-hand sides. -/
def relisted (g : Grammar) : Grammar :=
  (ofSymbols g.start g.nonterminals g.terminals).addRules g.rules

/-- Only the order of the left-hand sides may be another one. -/
theorem WellFormed.same_relisted (hg : g.WellFormed) (nodup : ∀ A, (g.rhss A).Nodup)
    (some : ∀ A ∈ g.table.keys, g.rhss A ≠ []) : g.relisted.Same g := by
  have rhss : ∀ A, g.relisted.rhss A = g.rhss A := by
    intro A
    unfold relisted
    rw [rhss_addRules_ofSymbols, rhssOf_rules]
    exact Distinct.ofList_of_nodup (nodup A)
  refine ⟨start_addRules g.rules, ?_, terminals_addRules _ g.rules, ?_⟩
  · apply Std.ExtTreeSet.ext_mem
    intro x
    unfold relisted
    rw [mem_nonterminals_addRules, hg.mem_nonterminals_ofSymbols]
    exact or_iff_left_of_imp hg.mem_nonterminals_of_mem_lhs
  · intro A
    apply get?_eq_of_rhss_eq _ (rhss A)
    have empty : A ∉ (ofSymbols g.start g.nonterminals g.terminals).table.keys := List.not_mem_nil
    unfold relisted
    rw [mem_keys_addRules, or_iff_right empty]
    constructor
    · intro hA
      obtain ⟨r, hr, rfl⟩ := List.mem_map.1 hA
      exact mem_keys_of_mem_rhss (mem_rules.1 hr)
    · intro hA
      obtain ⟨r, hr⟩ := List.exists_mem_of_ne_nil _ (some A hA)
      have rule : (⟨A, r⟩ : Rule) ∈ g.rules := mem_rules.2 hr
      exact List.mem_map_of_mem rule

theorem length_le_of_isChomsky (form : g.isChomsky = true) {A : Symbol} {r : Rhs}
    (hr : r ∈ g.rhss A) : r.length ≤ 2 := by
  rcases rhs_cases_of_isChomsky form hr with ⟨rfl, _⟩ | ⟨a, rfl, _⟩ | ⟨B, C, rfl, _⟩
  · exact Nat.zero_le 2
  · exact Nat.le_succ 1
  · exact Nat.le_refl 2

/-- In normal form a long right-hand side is a pair of non-terminals. -/
theorem longTerminals_of_isChomsky (form : g.isChomsky = true) : g.longTerminals = [] := by
  apply List.eq_nil_iff_forall_not_mem.2
  intro a ha
  obtain ⟨hterm, r, hr, hlong, hmem⟩ := mem_longTerminals.1 ha
  rcases rhs_cases_of_isChomsky form (mem_rules.1 hr) with
    ⟨hnil, _⟩ | ⟨b, hb, _⟩ | ⟨B, C, hBC, kinds⟩
  · rw [hnil] at hlong
    cases hlong
  · rw [hb] at hlong
    cases hlong
  · rw [hBC, List.mem_cons, List.mem_singleton] at hmem
    rcases hmem with rfl | rfl
    · exact Symbol.not_isTerminal kinds.1 hterm
    · exact Symbol.not_isTerminal kinds.2 hterm

theorem separateTerminals_of_isChomsky (form : g.isChomsky = true) (f : NameSupply) :
    g.separateTerminals f = (g.relisted, f) := by
  have none : allocatePreterminals g.longTerminals f = ([], f) := by
    rw [longTerminals_of_isChomsky form]
    rfl
  have first : (g.separateTerminals f).1 = g.relisted := by
    rw [separateTerminals_eq_addRules, none, separatedRules_nil]
    rfl
  have second : (g.separateTerminals f).2 = (allocatePreterminals g.longTerminals f).2 := rfl
  rw [none] at second
  exact Prod.ext first second

theorem splitLong_of_isChomsky (form : g.isChomsky = true) (f : NameSupply) :
    g.splitLong f = (g.relisted, f) := by
  unfold splitLong
  rw [splitRules_of_length_le fun r hr => length_le_of_isChomsky form (mem_rules.1 hr)]
  rfl

theorem Reduced.same_relisted (hg : g.Reduced) (wf : g.WellFormed) : g.relisted.Same g := by
  apply wf.same_relisted hg.nodup_rhss
  intro A hA
  have declared := wf.lhs_mem A hA
  obtain ⟨w, hw⟩ := hg.derives A declared
  exact rhss_ne_nil_of_derivesWord (wf.isNonterminal_of_mem A declared) hw

/-- Both passes list the rules again and ask for no name. -/
theorem Reduced.toChomsky_eq (hg : g.Reduced) (wf : g.WellFormed) (f : NameSupply) :
    (g.toChomsky f).1.Same g ∧ (g.toChomsky f).2 = f := by
  have once := hg.same_relisted wf
  have form := once.isChomsky_iff.2 hg.isChomsky
  have twice := (once.symm.reduced hg).same_relisted (once.symm.wellFormed wf)
  have passes : g.toChomsky f = (g.relisted.relisted, f) := by
    unfold toChomsky
    rw [separateTerminals_of_isChomsky hg.isChomsky]
    exact splitLong_of_isChomsky form f
  rw [passes]
  exact ⟨twice.trans once, rfl⟩

/-! ### All five stages -/

theorem Reduced.stages_same (hg : g.Reduced) (wf : g.WellFormed) :
    (∀ h ∈ g.stages.toList, h.Same g) ∧ g.stages.names.allocated = [] := by
  have first : g.stages.epsilonFree = g := by
    rw [stages_epsilonFree, hg.withoutEpsilon_eq wf]
  have second : g.stages.unitFree.Same g := by
    rw [stages_unitFree, first, hg.withoutUnits_eq wf]
    exact ⟨rfl, rfl, rfl, g.table.get?_sortKeys⟩
  have reduced := second.symm.reduced hg
  have wf' := second.symm.wellFormed wf
  have third : g.stages.reachable = g.stages.unitFree := by
    rw [stages_reachable, reduced.onlyReachable_eq wf']
  have fourth : g.stages.generating = g.stages.unitFree := by
    rw [stages_generating, third, reduced.onlyGenerating_eq wf']
  obtain ⟨same, names⟩ := reduced.toChomsky_eq wf' (.ofUsed g.declaredNames)
  constructor
  · unfold Stages.toList
    simp only [List.forall_mem_cons]
    rw [stages_chomsky, first, third, fourth]
    exact ⟨Same.refl g, second, second, second, same.trans second, List.forall_mem_nil _⟩
  · rw [stages_names, fourth, names]
    rfl

/-! ### What stays the same is reduced -/

/-- A nullable start symbol on a right-hand side can be dropped there, which leaves a unit rule. -/
theorem start_not_mem_of_withoutEpsilon_same (form : g.isChomsky = true)
    (kind : g.start.isNonterminal = true) (same : g.withoutEpsilon.Same g)
    (empty : [] ∈ g.rhss g.start) {A : Symbol} {r : Rhs} (hr : r ∈ g.rhss A) : g.start ∉ r := by
  intro mem
  have null : g.start ∈ g.nullable := mem_nullable_iff.2 (Expands.single empty)
  have unit : ∀ x, [x] ∈ r.choices g.nullable → x.isNonterminal = true → False := by
    intro x choice hx
    have left : [x] ∈ g.withoutEpsilon.rhss A :=
      mem_rhss_withoutEpsilon.2 ⟨⟨r, hr, choice⟩, Or.inl (List.cons_ne_nil x [])⟩
    rw [same.rhss_eq] at left
    have none := unitFree_of_isChomsky form A [x] left
    rw [isUnit_iff.2 ⟨x, hx, rfl⟩] at none
    cases none
  rcases rhs_cases_of_isChomsky form hr with ⟨rfl, _⟩ | ⟨a, rfl, hterm⟩ | ⟨B, C, rfl, hB, hC⟩
  · cases mem
  · rw [List.mem_singleton.1 mem] at kind
    exact Symbol.not_isTerminal kind hterm
  · rcases List.mem_cons.1 mem with rfl | mem
    · refine unit C ?_ hC
      exact Rhs.mem_choices_cons.2 (Or.inr ⟨null, Rhs.mem_choices_self [C]⟩)
    · rw [List.mem_singleton.1 mem] at null
      refine unit B ?_ hB
      have dropped : [] ∈ Rhs.choices g.nullable [C] :=
        Rhs.nil_mem_choices_iff.2 (List.forall_mem_singleton.2 null)
      exact Rhs.mem_choices_cons.2 (Or.inl ⟨[], dropped, rfl⟩)

theorem WellFormed.reaches_of_onlyReachable_same (hg : g.WellFormed) (same : g.onlyReachable.Same g)
    {x : Symbol} (hx : g.Declares x) : g.Reaches x := by
  have left := same.sameRules.declares_iff.2 hx
  exact reaches_of_mem_reachable (hg.declares_onlyReachable.1 left).2

/-- The start symbol stays declared in any case, but a left-hand side only if it derives a word. -/
theorem WellFormed.derives_of_onlyGenerating_same (hg : g.WellFormed)
    (same : g.onlyGenerating.Same g) (key : g.start ∈ g.table.keys) {A : Symbol}
    (hA : A ∈ g.nonterminals) : ∃ w, g.DerivesWord A w := by
  have kind := hg.isNonterminal_of_mem A hA
  apply (mem_generating_iff_exists_derivesWord kind).1
  rw [← same.2.1] at hA
  rcases mem_nonterminals_onlyGenerating.1 hA with rfl | ⟨-, hA⟩
  · have left := (same.sameRules.mem_keys_iff g.start).2 key
    exact (mem_keys_onlyGenerating.1 left).2
  · exact hA

theorem Valid.reduced_of_stages_same (hg : g.Valid) (same : ∀ h ∈ g.stages.toList, h.Same g) :
    g.Reduced ∨ g = ofSymbols g.start ∅ ∅ := by
  unfold Stages.toList at same
  simp only [List.forall_mem_cons] at same
  obtain ⟨first, second, third, fourth, last, -⟩ := same
  have wf := hg.wellFormed
  have form : g.isChomsky = true := last.isChomsky_iff.1 hg.isChomsky_stages_chomsky
  have reaches : ∀ x, g.Declares x → g.Reaches x := by
    have again := third.trans second.symm
    rw [stages_reachable] at again
    have rules := second.sameRules
    intro x hx
    have wf' := second.symm.wellFormed wf
    exact rules.reaches_iff.1 (wf'.reaches_of_onlyReachable_same again (rules.declares_iff.2 hx))
  by_cases key : g.start ∈ g.table.keys
  · refine Or.inl ⟨form, ?_, reaches, ?_, ?_⟩
    · rw [← first.rhss_eq, stages_epsilonFree]
      exact nodup_rhss_withoutEpsilon
    · have again := fourth.trans third.symm
      rw [stages_generating] at again
      have rules := third.sameRules
      have wf' := third.symm.wellFormed wf
      rw [← rules.mem_keys_iff, ← rules.start_eq] at key
      intro A hA
      rw [← rules.nonterminals_eq] at hA
      obtain ⟨w, hw⟩ := wf'.derives_of_onlyGenerating_same again key hA
      exact ⟨w, rules.derivesWord_iff.1 hw⟩
    · by_cases empty : [] ∈ g.rhss g.start
      · rw [stages_epsilonFree] at first
        have kind := wf.isNonterminal_of_mem g.start wf.start_mem
        refine Or.inr ?_
        intro A r hr
        exact start_not_mem_of_withoutEpsilon_same form kind first empty hr
      · exact Or.inl empty
  · have none := rhss_eq_nil_of_not_mem_keys key
    refine Or.inr (wf.eq_ofSymbols ?_ key)
    exact fun x hx => eq_start_of_reaches none (reaches x hx)

/-- A valid grammar that is reduced goes through the pipeline unchanged: all five stages are the
    same grammar, and no name is handed out.  Conversely, if all five stages are the same grammar,
    then it is reduced, or it declares its start symbol only and has no rule. -/
theorem checkedStages_fix_reduced (hg : g.Valid) :
    ∃ s, g.checkedStages = .ok s ∧
      (g.Reduced → (∀ h ∈ s.toList, h.Same g) ∧ s.names.allocated = []) ∧
      ((∀ h ∈ s.toList, h.Same g) → g.Reduced ∨ g = ofSymbols g.start ∅ ∅) := by
  refine ⟨g.stages, hg.checkedStages_eq, ?_, hg.reduced_of_stages_same⟩
  exact fun reduced => reduced.stages_same hg.wellFormed

/-- `S -> ε | A B | A C`, `C -> D B`, `D -> A B | A C`, `A -> a` and `B -> b`: the words
    `a ... a b ... b` with as many of one as of the other. -/
def balanced : Grammar :=
  (ofSymbols (.nonterminal "S") ∅ (.ofList [Symbol.terminal "a", Symbol.terminal "b"])).addRules
    [⟨.nonterminal "S", []⟩,
      ⟨.nonterminal "S", [.nonterminal "A", .nonterminal "B"]⟩,
      ⟨.nonterminal "S", [.nonterminal "A", .nonterminal "C"]⟩,
      ⟨.nonterminal "C", [.nonterminal "D", .nonterminal "B"]⟩,
      ⟨.nonterminal "D", [.nonterminal "A", .nonterminal "B"]⟩,
      ⟨.nonterminal "D", [.nonterminal "A", .nonterminal "C"]⟩,
      ⟨.nonterminal "A", [.terminal "a"]⟩,
      ⟨.nonterminal "B", [.terminal "b"]⟩]

theorem checkedStages_fix_reduced_balanced :
    balanced.Valid ∧ balanced.Reduced ∧
    ∃ s, balanced.checkedStages = .ok s ∧
      (balanced.Reduced → (∀ h ∈ s.toList, h.Same balanced) ∧ s.names.allocated = []) ∧
      ((∀ h ∈ s.toList, h.Same balanced) →
        balanced.Reduced ∨ balanced = ofSymbols balanced.start ∅ ∅) := by
  have valid : balanced.Valid := by decide
  have reduced : balanced.Reduced := valid.wellFormed.reduced_iff.2 (by decide)
  exact ⟨valid, reduced, checkedStages_fix_reduced valid⟩

/-- In normal form and without useless symbols, but the start symbol is nullable and on a right-hand
    side: `S -> S S | a | ε`. -/
example : ((ofSymbols (.nonterminal "S") ∅ (.ofList [Symbol.terminal "a"])).addRules
    [⟨.nonterminal "S", [.nonterminal "S", .nonterminal "S"]⟩,
      ⟨.nonterminal "S", [.terminal "a"]⟩, ⟨.nonterminal "S", []⟩]).withoutEpsilon.renderLines =
        ["S -> S | S S | a | ε"] := by decide

end ContextFree.Grammar
