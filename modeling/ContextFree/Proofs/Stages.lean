/-
  ContextFree/Proofs/Stages.lean
  ==============================
  **What every stage of the pipeline keeps.**

  A valid grammar passes the check and mentions declared symbols only, so the
  supply that starts with the declared names knows every symbol
  (`Valid.rulesOver`).

  `EpsilonFreeForm g h` is the invariant: `h` has the start symbol of `g`, an empty
  right-hand side at most there and only if `g` derives the empty word, and it
  derives every other word of `g` without it.  The first stage brings a grammar
  into this form and each of the others keeps it; so do all five
  (`Valid.epsilonFreeForm_of_mem_stages`), and the language is the same
  (`EpsilonFreeForm.generates_iff`).
-/
import ContextFree.Pipeline
import ContextFree.Proofs.CleanUp
import ContextFree.Proofs.ChomskyForm
import ContextFree.Proofs.WellFormed

namespace ContextFree.Grammar

variable {g h : Grammar}

/-! ### Valid grammars -/

theorem Valid.checkedStages_eq (hg : g.Valid) : g.checkedStages = .ok g.stages := by
  unfold checkedStages
  rw [hg.check_eq_ok]
  rfl

theorem Valid.chomskyForm_eq (hg : g.Valid) : g.chomskyForm = .ok g.stages.chomsky := by
  unfold chomskyForm
  rw [hg.checkedStages_eq]
  rfl

/-- The tests that a grammar without defects has passed, the one for names apart. -/
theorem Valid.checked (hg : g.Valid) :
    (g.start.isNonterminal = true ∧ g.start ∈ g.nonterminals) ∧
      ∀ e ∈ g.table.entries, g.lhsDefect? e.1 e.2 = none := by
  obtain ⟨hstart, _, entries⟩ := defect?_eq_none_iff.1 (check_eq_ok_iff.1 hg.check_eq_ok)
  exact ⟨hstart, entries⟩

theorem name_mem_declaredNames {x : Symbol} (hx : g.Declares x) : x.name ∈ g.declaredNames := by
  have listed : x ∈ g.nonterminals.toList ++ g.terminals.toList := by
    rcases hx with hx | hx
    · exact List.mem_append_left _ (Std.ExtTreeSet.mem_toList.2 hx)
    · exact List.mem_append_right _ (Std.ExtTreeSet.mem_toList.2 hx)
  have name : x.name ∈ (g.nonterminals.toList ++ g.terminals.toList).map Symbol.name :=
    List.mem_map_of_mem listed
  exact Std.ExtTreeSet.mem_ofList.2 (List.contains_iff_mem.2 name)

theorem mem_known_of_declares {x : Symbol} (hx : g.Declares x) :
    x ∈ (NameSupply.ofUsed g.declaredNames).known :=
  Or.inr (name_mem_declaredNames hx)

theorem Valid.start_mem_known (hg : g.Valid) :
    g.start ∈ (NameSupply.ofUsed g.declaredNames).known :=
  mem_known_of_declares (Or.inl hg.wellFormed.start_mem)

/-- The rules of a valid grammar mention symbols that the supply knows. -/
theorem Valid.rulesOver (hg : g.Valid) :
    g.RulesOver (NameSupply.ofUsed g.declaredNames).known := by
  have lhs : ∀ A r, r ∈ g.rhss A → A ∈ g.nonterminals :=
    fun A r hr => hg.wellFormed.lhs_mem_of_mem_rhss hr
  refine ⟨?_, ?_, ?_⟩
  · exact fun A r hr => hg.isNonterminal_of_mem A (lhs A r hr)
  · exact fun A r hr => mem_known_of_declares (Or.inl (lhs A r hr))
  · exact fun A r hr x hx => mem_known_of_declares (hg.wellFormed.declares A r hr x hx)

/-! ### The invariant -/

/-- `h` derives the words of `g` and needs an empty right-hand side for the empty word only. -/
structure EpsilonFreeForm (g h : Grammar) : Prop where
  start_eq : h.start = g.start
  epsilonOnlyAtStart : h.EpsilonOnlyAtStart
  nil_mem_iff : [] ∈ h.rhss g.start ↔ Expands g.ruleSet [g.start] []
  sound : ∀ w, IsWord w → Expands h.ruleSet [g.start] w → Expands g.ruleSet [g.start] w
  complete : ∀ w, IsWord w → w ≠ [] → Expands g.ruleSet [g.start] w →
    Expands (nonemptyRules h.ruleSet) [g.start] w

namespace EpsilonFreeForm

theorem generates_iff (form : g.EpsilonFreeForm h) (w : List String) :
    h.Generates w ↔ g.Generates w := by
  rw [generates_iff_expands, generates_iff_expands, form.start_eq]
  refine ⟨form.sound _ (isWord_word w), fun hw => ?_⟩
  -- The empty word has its own right-hand side; no other word needs it.
  by_cases hne : word w = []
  · rw [hne] at hw ⊢
    exact Expands.single (form.nil_mem_iff.2 hw)
  · exact (form.complete _ (isWord_word w) hne hw).mono (nonemptyRules_subset _)

theorem nil_mem_rhss_iff (form : g.EpsilonFreeForm h) :
    [] ∈ h.rhss h.start ↔ g.Generates [] := by
  rw [form.start_eq, generates_iff_expands]
  exact form.nil_mem_iff

theorem withoutEpsilon (g : Grammar) : g.EpsilonFreeForm g.withoutEpsilon where
  start_eq := rfl
  epsilonOnlyAtStart := epsilonOnlyAtStart_withoutEpsilon
  nil_mem_iff := nil_mem_rhss_withoutEpsilon.trans mem_nullable_iff
  sound _ _ hw := expands_of_withoutEpsilon hw
  complete _ hword hne hw := expands_withoutEpsilon hw hword hne

theorem withoutUnits (form : g.EpsilonFreeForm h) : g.EpsilonFreeForm h.withoutUnits where
  start_eq := form.start_eq
  epsilonOnlyAtStart := epsilonOnlyAtStart_withoutUnits
  nil_mem_iff := by
    have same := nil_mem_rhss_withoutUnits form.epsilonOnlyAtStart
    rw [form.start_eq] at same
    exact same.trans form.nil_mem_iff
  sound w hword hw := form.sound w hword (expands_of_withoutUnits hw)
  complete w hword hne hw := expands_withoutUnits (form.complete w hword hne hw) hword

theorem onlyReachable (form : g.EpsilonFreeForm h) (hh : h.NonterminalLhss) :
    g.EpsilonFreeForm h.onlyReachable where
  start_eq := form.start_eq
  epsilonOnlyAtStart A hA := form.epsilonOnlyAtStart A (mem_rhss_onlyReachable.1 hA).2
  nil_mem_iff := by
    have hstart : g.start ∈ h.reachable := form.start_eq ▸ start_mem_reachable h
    exact mem_rhss_onlyReachable.trans ((and_iff_right hstart).trans form.nil_mem_iff)
  sound w hword hw := form.sound w hword (hw.mono ruleSet_onlyReachable_subset)
  complete w hword hne hw := by
    have hstart : ∀ x ∈ [g.start], x ∈ h.reachable :=
      List.forall_mem_singleton.2 (form.start_eq ▸ start_mem_reachable h)
    have left := expands_onlyReachable hh (nonemptyRules_subset _)
      (form.complete w hword hne hw) hstart
    exact left.mono nonemptyRules_inter_subset

theorem onlyGenerating (form : g.EpsilonFreeForm h) : g.EpsilonFreeForm h.onlyGenerating where
  start_eq := form.start_eq
  epsilonOnlyAtStart A hA := form.epsilonOnlyAtStart A (mem_rhss_onlyGenerating.1 hA).1
  nil_mem_iff := by
    have hnil : Completable h.ruleSet [] := completable_of_isWord isWord_nil
    exact mem_rhss_onlyGenerating.trans ((and_iff_left hnil).trans form.nil_mem_iff)
  sound w hword hw := form.sound w hword (hw.mono ruleSet_onlyGenerating_subset)
  complete w hword hne hw := by
    have left := expands_onlyGenerating (nonemptyRules_subset _)
      (form.complete w hword hne hw) (completable_of_isWord hword)
    exact left.mono nonemptyRules_inter_subset

theorem toChomsky (form : g.EpsilonFreeForm h) (hu : h.UnitFree) {f : NameSupply}
    (hf : MentionsOnly f.known h.ruleSet) (hstart : g.start ∈ f.known) :
    g.EpsilonFreeForm (h.toChomsky f).1 where
  start_eq := (start_toChomsky f).trans form.start_eq
  epsilonOnlyAtStart :=
    epsilonOnlyAtStart_of_isChomsky (isChomsky_toChomsky form.epsilonOnlyAtStart hu f)
  nil_mem_iff := nil_mem_rhss_toChomsky.trans form.nil_mem_iff
  sound w hword hw := by
    obtain ⟨φ, abbr⟩ := exists_abbreviates_ruleSet_toChomsky hf
    refine form.sound w hword ((abbr.expands_iff ?_ fun x hx => ?_).1 hw)
    · exact List.forall_mem_singleton.2 hstart
    · exact Or.inl (hword x hx)
  complete w hword hne hw := by
    obtain ⟨φ, abbr⟩ := exists_abbreviates_nonemptyRules_toChomsky hf
    refine (abbr.expands_iff ?_ fun x hx => ?_).2 (form.complete w hword hne hw)
    · exact List.forall_mem_singleton.2 hstart
    · exact Or.inl (hword x hx)

end EpsilonFreeForm

/-! ### All five stages -/

theorem UnitFree.of_subset (hg : g.UnitFree) (sub : h.ruleSet ⊆ g.ruleSet) : h.UnitFree :=
  fun A r hr => hg A r (sub (a := ⟨A, r⟩) hr)

theorem RulesOver.mentionsOnly {K : Set Symbol} (hg : g.RulesOver K) :
    MentionsOnly K g.ruleSet :=
  fun r hr => ⟨hg.lhs_mem r.lhs r.rhs hr, hg.rhs_mem r.lhs r.rhs hr⟩

theorem ruleSet_stages_reachable_subset :
    g.stages.reachable.ruleSet ⊆ g.stages.unitFree.ruleSet := by
  rw [stages_reachable]
  exact ruleSet_onlyReachable_subset

theorem ruleSet_stages_generating_subset :
    g.stages.generating.ruleSet ⊆ g.stages.unitFree.ruleSet := by
  rw [stages_generating]
  exact ruleSet_onlyGenerating_subset.trans ruleSet_stages_reachable_subset

theorem unitFree_stages_unitFree (g : Grammar) : g.stages.unitFree.UnitFree := by
  rw [stages_unitFree]
  exact unitFree_withoutUnits

theorem unitFree_stages_generating (g : Grammar) : g.stages.generating.UnitFree :=
  (unitFree_stages_unitFree g).of_subset ruleSet_stages_generating_subset

theorem Valid.rulesOver_stages_unitFree (hg : g.Valid) :
    g.stages.unitFree.RulesOver (NameSupply.ofUsed g.declaredNames).known := by
  rw [stages_unitFree, stages_epsilonFree]
  exact hg.rulesOver.withoutEpsilon.withoutUnits

theorem Valid.rulesOver_stages_generating (hg : g.Valid) :
    g.stages.generating.RulesOver (NameSupply.ofUsed g.declaredNames).known :=
  hg.rulesOver_stages_unitFree.of_subset ruleSet_stages_generating_subset

theorem epsilonFreeForm_stages_unitFree (g : Grammar) :
    g.EpsilonFreeForm g.stages.unitFree := by
  rw [stages_unitFree, stages_epsilonFree]
  exact (EpsilonFreeForm.withoutEpsilon g).withoutUnits

theorem Valid.epsilonFreeForm_stages_reachable (hg : g.Valid) :
    g.EpsilonFreeForm g.stages.reachable := by
  rw [stages_reachable]
  exact (epsilonFreeForm_stages_unitFree g).onlyReachable
    hg.rulesOver_stages_unitFree.nonterminalLhss

theorem Valid.epsilonFreeForm_stages_generating (hg : g.Valid) :
    g.EpsilonFreeForm g.stages.generating := by
  rw [stages_generating]
  exact hg.epsilonFreeForm_stages_reachable.onlyGenerating

theorem Valid.epsilonFreeForm_stages_chomsky (hg : g.Valid) :
    g.EpsilonFreeForm g.stages.chomsky := by
  rw [stages_chomsky]
  exact hg.epsilonFreeForm_stages_generating.toChomsky (unitFree_stages_generating g)
    hg.rulesOver_stages_generating.mentionsOnly hg.start_mem_known

/-- Every stage of a valid grammar has the form of the invariant. -/
theorem Valid.epsilonFreeForm_of_mem_stages (hg : g.Valid) :
    ∀ h ∈ g.stages.toList, g.EpsilonFreeForm h := by
  have first : g.EpsilonFreeForm g.stages.epsilonFree := by
    rw [stages_epsilonFree]
    exact EpsilonFreeForm.withoutEpsilon g
  -- `rfl` patterns would unfold the stages, so membership is taken apart as a list.
  unfold Stages.toList
  simp only [List.forall_mem_cons]
  exact ⟨first, epsilonFreeForm_stages_unitFree g, hg.epsilonFreeForm_stages_reachable,
    hg.epsilonFreeForm_stages_generating, hg.epsilonFreeForm_stages_chomsky,
    List.forall_mem_nil _⟩

theorem Valid.isChomsky_stages_chomsky (hg : g.Valid) : g.stages.chomsky.isChomsky = true := by
  have hε := hg.epsilonFreeForm_stages_generating.epsilonOnlyAtStart
  rw [stages_chomsky]
  exact isChomsky_toChomsky hε (unitFree_stages_generating g) _

theorem Valid.nonterminalLhss_stages_chomsky (hg : g.Valid) :
    g.stages.chomsky.NonterminalLhss := by
  rw [stages_chomsky]
  exact NonterminalLhss.toChomsky hg.rulesOver_stages_generating.nonterminalLhss _

theorem Valid.unitFree_of_mem_tail_stages (hg : g.Valid) :
    ∀ h ∈ g.stages.toList.tail, h.UnitFree := by
  have second : g.stages.unitFree.UnitFree := unitFree_stages_unitFree g
  have third : g.stages.reachable.UnitFree := second.of_subset ruleSet_stages_reachable_subset
  have fourth : g.stages.generating.UnitFree := unitFree_stages_generating g
  have fifth : g.stages.chomsky.UnitFree := unitFree_of_isChomsky hg.isChomsky_stages_chomsky
  unfold Stages.toList
  simp only [List.tail_cons, List.forall_mem_cons]
  exact ⟨second, third, fourth, fifth, List.forall_mem_nil _⟩

end ContextFree.Grammar
