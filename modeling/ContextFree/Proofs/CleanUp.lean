/-
  ContextFree/Proofs/CleanUp.lean
  ===============================
  **The two clean-ups** only delete rules, and no rule that a derivation of a word
  needs.

  Both statements are made for any part `Q` of the rules: what expands by rules
  of `Q` still does by those that are left of them.  With all rules this keeps the
  language; with the non-empty ones it keeps the words that need no empty
  right-hand side.
-/
import ContextFree.Proofs.Analysis

namespace ContextFree.Grammar

variable {g : Grammar} {Q : Set Rule}

/-! ### Unreachable symbols -/

theorem mem_rhss_onlyReachable {A : Symbol} {r : Rhs} :
    r ∈ g.onlyReachable.rhss A ↔ A ∈ g.reachable ∧ r ∈ g.rhss A := by
  rw [rhss_onlyReachable]
  split
  · rename_i h
    exact (and_iff_right h).symm
  · rename_i h
    exact ⟨fun hr => absurd hr List.not_mem_nil, fun hr => absurd hr.1 h⟩

theorem ruleSet_onlyReachable_subset : g.onlyReachable.ruleSet ⊆ g.ruleSet :=
  fun _ h => (mem_rhss_onlyReachable.1 h).2

/-- What reachable symbols expand to is left. -/
theorem expands_onlyReachable (hg : g.NonterminalLhss) (hQ : Q ⊆ g.ruleSet) {u v : List Symbol}
    (h : Expands Q u v) (hu : ∀ x ∈ u, x ∈ g.reachable) :
    Expands (Q ∩ g.onlyReachable.ruleSet) u v := by
  induction h with
  | nil => exact Expands.nil
  | keep x _ ih => exact Expands.keep x (ih (List.forall_mem_cons.1 hu).2)
  | @rule A r x u v mem _ _ ihBody ih =>
    obtain ⟨hA, hu⟩ := List.forall_mem_cons.1 hu
    have hr : r ∈ g.rhss A := hQ mem
    have body := ihBody fun x hx => mem_reachable_of_mem_rhs hA (hg A r hr) hr hx
    exact Expands.rule ⟨mem, mem_rhss_onlyReachable.2 ⟨hA, hr⟩⟩ body (ih hu)

theorem expands_ruleSet_onlyReachable (hg : g.NonterminalLhss) {u v : List Symbol}
    (h : Expands g.ruleSet u v) (hu : ∀ x ∈ u, x ∈ g.reachable) :
    Expands g.onlyReachable.ruleSet u v :=
  (expands_onlyReachable hg subset_rfl h hu).mono Set.inter_subset_right

/-! ### Symbols that derive no word -/

theorem mem_rhss_onlyGenerating {A : Symbol} {r : Rhs} :
    r ∈ g.onlyGenerating.rhss A ↔ r ∈ g.rhss A ∧ Completable g.ruleSet r := by
  rw [rhss_onlyGenerating, ← supported_generating_iff]
  split
  · exact List.mem_filter
  · rename_i h
    refine ⟨fun hr => absurd hr List.not_mem_nil, fun hr => absurd ?_ h⟩
    exact mem_generating_iff.2 ⟨r, hr.1, supported_generating_iff.1 hr.2⟩

theorem ruleSet_onlyGenerating_subset : g.onlyGenerating.ruleSet ⊆ g.ruleSet :=
  fun _ h => (mem_rhss_onlyGenerating.1 h).1

/-- An expansion that can be completed to a word is left. -/
theorem expands_onlyGenerating (hQ : Q ⊆ g.ruleSet) {u v : List Symbol} (h : Expands Q u v)
    (hv : Completable g.ruleSet v) : Expands (Q ∩ g.onlyGenerating.ruleSet) u v := by
  induction h with
  | nil => exact Expands.nil
  | keep x _ ih =>
    rw [← List.singleton_append, completable_append] at hv
    exact Expands.keep x (ih hv.2)
  | rule mem body _ ihBody ih =>
    -- What the right-hand side expands to is a part of what can be completed.
    obtain ⟨hx, hv⟩ := completable_append.1 hv
    have hr := hx.of_expands (body.mono hQ)
    exact Expands.rule ⟨mem, mem_rhss_onlyGenerating.2 ⟨hQ mem, hr⟩⟩ (ihBody hx) (ih hv)

theorem expands_ruleSet_onlyGenerating {u v : List Symbol} (h : Expands g.ruleSet u v)
    (hv : Completable g.ruleSet v) : Expands g.onlyGenerating.ruleSet u v :=
  (expands_onlyGenerating subset_rfl h hv).mono Set.inter_subset_right

/-! ### Derivations -/

/-- The sentential forms are the same without the symbols that are not reachable. -/
theorem sentential_onlyReachable_iff (hg : g.NonterminalLhss) {u : List Symbol} :
    g.onlyReachable.Sentential u ↔ g.Sentential u := by
  have start : ∀ x ∈ [g.start], x ∈ g.reachable :=
    List.forall_mem_singleton.2 (start_mem_reachable g)
  rw [sentential_iff_expands, sentential_iff_expands]
  constructor
  · intro h
    exact h.mono ruleSet_onlyReachable_subset
  · intro h
    exact expands_ruleSet_onlyReachable hg h start

/-- Every symbol derives the same words without the symbols that derive none. -/
theorem derivesWord_onlyGenerating_iff {A : Symbol} {w : List String} :
    g.onlyGenerating.DerivesWord A w ↔ g.DerivesWord A w := by
  rw [derivesWord_iff_expands, derivesWord_iff_expands]
  constructor
  · intro h
    exact h.mono ruleSet_onlyGenerating_subset
  · intro h
    exact expands_ruleSet_onlyGenerating h (completable_of_isWord (isWord_word w))

/-! ### What deleting rules keeps -/

theorem NonterminalLhss.of_subset {h : Grammar} (hg : g.NonterminalLhss)
    (sub : h.ruleSet ⊆ g.ruleSet) : h.NonterminalLhss :=
  fun A r hr => hg A r (sub (a := ⟨A, r⟩) hr)

theorem RulesOver.of_subset {h : Grammar} {K : Set Symbol} (hg : g.RulesOver K)
    (sub : h.ruleSet ⊆ g.ruleSet) : h.RulesOver K where
  nonterminalLhss := hg.nonterminalLhss.of_subset sub
  lhs_mem A r hr := hg.lhs_mem A r (sub (a := ⟨A, r⟩) hr)
  rhs_mem A r hr := hg.rhs_mem A r (sub (a := ⟨A, r⟩) hr)

theorem nonemptyRules_inter_subset {h : Grammar} :
    nonemptyRules g.ruleSet ∩ h.ruleSet ⊆ nonemptyRules h.ruleSet :=
  fun _ hr => ⟨hr.2, hr.1.2⟩

end ContextFree.Grammar
