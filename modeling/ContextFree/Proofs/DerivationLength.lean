/-
  ContextFree/Proofs/DerivationLength.lean
  ========================================
  **Derivations in normal form**: without the empty right-hand side of the start
  symbol the normal form derives every word but the empty one, and a word of
  length `n` in exactly `2 n - 1` steps (`chomskyForm_without_epsilon`).

  The steps are counted by the weight of a string, in which a terminal weighs two
  and a non-terminal one.  A rule of the normal form that is not empty adds one:
  a pair of non-terminals weighs two, and so does a terminal.
-/
import ContextFree.Proofs.Language

namespace ContextFree.Grammar

variable {g h : Grammar}

/-! ### Deleting a rule -/

/-- A grammar without one of its rules; nothing changes if it is not there. -/
def eraseRule (g : Grammar) (r : Rule) : Grammar :=
  g.setRhss r.lhs ((g.rhss r.lhs).filter fun s => s ≠ r.rhs)

theorem mem_rhss_eraseRule {r : Rule} {A : Symbol} {s : Rhs} :
    s ∈ (g.eraseRule r).rhss A ↔ s ∈ g.rhss A ∧ (⟨A, s⟩ : Rule) ≠ r := by
  unfold eraseRule
  rw [rhss_setRhss]
  by_cases hA : r.lhs = A
  · subst hA
    have other : (⟨r.lhs, s⟩ : Rule) ≠ r ↔ s ≠ r.rhs :=
      not_congr ⟨congrArg Rule.rhs, fun e => by rw [e]⟩
    rw [if_pos rfl, other]
    simp
  · have other : (⟨A, s⟩ : Rule) ≠ r := fun e => hA (congrArg Rule.lhs e).symm
    rw [if_neg hA]
    exact (and_iff_left other).symm

/-- If only the start symbol has an empty right-hand side, the other rules are left. -/
theorem ruleSet_eraseRule_epsilon (hg : g.EpsilonOnlyAtStart) :
    (g.eraseRule ⟨g.start, []⟩).ruleSet = nonemptyRules g.ruleSet := by
  ext r
  have other : r ≠ ⟨g.start, []⟩ ∧ r ∈ g.ruleSet ↔ r.rhs ≠ [] ∧ r ∈ g.ruleSet := by
    refine and_congr_left fun hr => not_congr ⟨congrArg Rule.rhs, fun hnil => ?_⟩
    have hlhs : r.lhs = g.start := hg r.lhs (hnil ▸ hr)
    rw [← hlhs, ← hnil]
  exact mem_rhss_eraseRule.trans (and_comm.trans (other.trans and_comm))

/-! ### The weight of a string -/

/-- The number of symbols, terminals counted twice. -/
def weight (u : List Symbol) : Nat := u.length + u.countP Symbol.isTerminal

theorem weight_append (u v : List Symbol) : weight (u ++ v) = weight u + weight v := by
  unfold weight
  rw [List.length_append, List.countP_append]
  omega

theorem weight_singleton {A : Symbol} (hA : A.isNonterminal = true) : weight [A] = 1 := by
  simp [weight, Symbol.not_isTerminal hA]

theorem weight_word (w : List String) : weight (word w) = 2 * w.length := by
  have all : (word w).countP Symbol.isTerminal = (word w).length :=
    List.countP_eq_length.2 (isWord_word w)
  unfold weight
  rw [all]
  simp only [word, List.length_map]
  omega

/-- Every rule adds one to the weight. -/
def AddsOne (g : Grammar) : Prop := ∀ A r, r ∈ g.rhss A → weight r = weight [A] + 1

theorem AddsOne.weight_of_step (hg : g.AddsOne) {u v : List Symbol} (step : g.Step u v) :
    weight v = weight u + 1 := by
  obtain ⟨a, b, hr⟩ := step
  rename_i A r
  have one : weight r = weight [A] + 1 := hg A r hr
  rw [List.append_cons, weight_append, weight_append, weight_append, weight_append, one]
  omega

theorem AddsOne.weight_of_derivesIn (hg : g.AddsOne) {n : Nat} {u v : List Symbol}
    (run : g.DerivesIn n u v) : weight v = weight u + n := by
  induction run with
  | refl u => rfl
  | head first _ ih =>
    rw [ih, hg.weight_of_step first]
    omega

theorem addsOne_eraseRule_epsilon (hg : g.NonterminalLhss) (hc : g.isChomsky = true) :
    (g.eraseRule ⟨g.start, []⟩).AddsOne := by
  intro A r hr
  obtain ⟨mem, other⟩ := mem_rhss_eraseRule.1 hr
  have chomsky : chomskyRule g.start ⟨A, r⟩ = true := isChomsky_iff.1 hc ⟨A, r⟩ mem
  rw [weight_singleton (hg A r mem)]
  match r, chomsky with
  | [], chomsky =>
    -- Only the start symbol may have it in normal form, and there it has been erased.
    have hstart : A = g.start := of_decide_eq_true chomsky
    exact absurd (by rw [hstart]) other
  | [a], chomsky =>
    have ha : a.isTerminal = true := chomsky
    simp [weight, ha]
  | [B, C], chomsky =>
    have pair : B.isNonterminal = true ∧ C.isNonterminal = true := by
      simpa [chomskyRule] using chomsky
    rw [← List.singleton_append, weight_append, weight_singleton pair.1, weight_singleton pair.2]

/-! ### The normal form without its empty right-hand side -/

theorem AddsOne.steps_eq (hg : g.AddsOne) {A : Symbol} (hA : A.isNonterminal = true)
    {w : List String} {n : Nat} (run : g.DerivesIn n [A] (word w)) : 2 * w.length = n + 1 := by
  have total : weight (word w) = weight [A] + n := hg.weight_of_derivesIn run
  rw [weight_word, weight_singleton hA] at total
  omega

theorem AddsOne.not_generates_nil (hg : g.AddsOne) (hstart : g.start.isNonterminal = true) :
    ¬ g.Generates [] := by
  rintro ⟨n, run⟩
  have steps := hg.steps_eq hstart run
  rw [List.length_nil] at steps
  omega

theorem EpsilonFreeForm.generates_iff_eraseRule_epsilon (form : g.EpsilonFreeForm h)
    {w : List String} (hw : w ≠ []) :
    g.Generates w ↔ (h.eraseRule ⟨h.start, []⟩).Generates w := by
  have left : (h.eraseRule ⟨h.start, []⟩).Generates w ↔
      Expands (nonemptyRules h.ruleSet) [g.start] (word w) := by
    rw [← ruleSet_eraseRule_epsilon form.epsilonOnlyAtStart, ← form.start_eq]
    exact generates_iff_expands
  rw [left, generates_iff_expands]
  refine ⟨form.complete _ (isWord_word w) (word_ne_nil hw), fun kept => ?_⟩
  exact form.sound _ (isWord_word w) (kept.mono (nonemptyRules_subset _))

/-- Without the empty right-hand side of the start symbol the normal form of a valid grammar derives
    every word of the language but the empty one, and no word in more or fewer steps than twice its
    length less one. -/
theorem chomskyForm_without_epsilon (hg : g.Valid) :
    ∃ n, g.chomskyForm = .ok n ∧
      let h := n.eraseRule ⟨n.start, []⟩
      ¬ h.Generates [] ∧
      ∀ w, w ≠ [] → (g.Generates w ↔ h.Generates w) ∧
        ∀ k, h.DerivesIn k [h.start] (word w) → k = 2 * w.length - 1 := by
  have form := hg.epsilonFreeForm_stages_chomsky
  have lhss := hg.nonterminalLhss_stages_chomsky
  have chomsky := hg.isChomsky_stages_chomsky
  have result := hg.chomskyForm_eq
  -- From here on the result is any grammar with these properties.
  generalize g.stages.chomsky = n at form lhss chomsky result
  have hstart : n.start.isNonterminal = true := by
    rw [form.start_eq]
    exact hg.checked.1.1
  have addsOne : (n.eraseRule ⟨n.start, []⟩).AddsOne := addsOne_eraseRule_epsilon lhss chomsky
  refine ⟨n, result, addsOne.not_generates_nil hstart, fun w hw => ⟨?_, fun k run => ?_⟩⟩
  · exact form.generates_iff_eraseRule_epsilon hw
  · have steps := addsOne.steps_eq hstart run
    omega

theorem chomskyForm_without_epsilon_brackets :
    brackets.Valid ∧ ∃ n, brackets.chomskyForm = .ok n ∧
      let h := n.eraseRule ⟨n.start, []⟩
      ¬ h.Generates [] ∧
      ∀ w, w ≠ [] → (brackets.Generates w ↔ h.Generates w) ∧
        ∀ k, h.DerivesIn k [h.start] (word w) → k = 2 * w.length - 1 :=
  ⟨valid_brackets, chomskyForm_without_epsilon valid_brackets⟩

end ContextFree.Grammar
