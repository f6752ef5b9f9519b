/-
  ContextFree/Proofs/Reduction.lean
  =================================
  **Reduced grammars**: the two clean-ups in the other order, first the symbols that
  derive no word and then those that the start symbol does not reach, leave nothing
  that no word needs (`onlyGenerating_onlyReachable_reduces`).

  Behind the first one every right-hand side expands to a word, and so does every
  sentential form if the start symbol does; a symbol of a sentential form then takes
  part in the derivation of a word (`CompletableRhss.useful_of_reaches`).  The second
  one leaves the sentential forms as they are.  A start symbol without a word loses
  its rules in the first one, so nothing but it is reached behind it.

  In the order of the pipeline the second clean-up cuts off symbols behind the first;
  `ContextFree.Proofs.Usefulness` says what is left then.
-/
import ContextFree.Proofs.Declarations
import ContextFree.Proofs.Usefulness

namespace ContextFree.Grammar

variable {g : Grammar}

/-! ### Symbols of sentential forms -/

/-- No rule replaces a terminal. -/
theorem NonterminalLhss.mem_of_expands (hg : g.NonterminalLhss) {a : Symbol}
    (ha : a.isTerminal = true) {u v : List Symbol} (h : Expands g.ruleSet u v) (hu : a ∈ u) :
    a ∈ v := by
  induction h with
  | nil => exact hu
  | keep x _ ih =>
    rcases List.mem_cons.1 hu with rfl | hu
    · exact List.mem_cons_self
    · exact List.mem_cons_of_mem x (ih hu)
  | @rule A r x u v mem _ _ _ ih =>
    rcases List.mem_cons.1 hu with rfl | hu
    · exact absurd ha (Symbol.not_isTerminal (hg a r mem))
    · exact List.mem_append_right x (ih hu)

/-- A terminal that takes part in the derivation of a word is in the word. -/
theorem Useful.exists_generates (hg : g.NonterminalLhss) {a : Symbol} (ha : a.isTerminal = true)
    (h : g.Useful a) : ∃ w, g.Generates w ∧ a ∈ word w := by
  obtain ⟨u, v, w, reach, derive⟩ := h
  refine ⟨w, reach.trans derive, ?_⟩
  apply hg.mem_of_expands ha (derives_iff_expands.1 derive)
  exact List.mem_append_right u List.mem_cons_self

/-- Where every right-hand side expands to a word and the language is not empty, every symbol of a
    sentential form is useful. -/
theorem CompletableRhss.useful_of_reaches (hg : g.CompletableRhss) {w : List String}
    (hw : g.Generates w) {x : Symbol} (hx : g.Reaches x) : g.Useful x := by
  obtain ⟨u, v, reach⟩ := hx
  have start : Completable g.ruleSet [g.start] := exists_derivesWord_iff.1 ⟨w, hw⟩
  have expand := sentential_iff_expands.1 reach
  apply useful_iff_takesPart.2
  exact ⟨u, v, expand, completable_of_expands hg expand start⟩

/-! ### The clean-ups in the other order -/

namespace WellFormed

variable (hg : g.WellFormed)
include hg

theorem generates_onlyGenerating_onlyReachable_iff (w : List String) :
    g.onlyGenerating.onlyReachable.Generates w ↔ g.Generates w := by
  have second : g.onlyGenerating.onlyReachable.Generates w ↔ g.onlyGenerating.Generates w :=
    sentential_onlyReachable_iff hg.onlyGenerating.nonterminalLhss
  exact second.trans derivesWord_onlyGenerating_iff

/-- If there is a word, every symbol that is left takes part in the derivation of one. -/
theorem useful_onlyGenerating_onlyReachable {w : List String} (hw : g.Generates w) {x : Symbol}
    (hx : g.onlyGenerating.onlyReachable.Declares x) :
    g.onlyGenerating.onlyReachable.Useful x := by
  have word : g.onlyGenerating.Generates w := derivesWord_onlyGenerating_iff.2 hw
  have reach : g.onlyGenerating.Reaches x :=
    reaches_of_mem_reachable (hg.onlyGenerating.declares_onlyReachable.1 hx).2
  apply (useful_onlyReachable_iff hg.onlyGenerating.nonterminalLhss).2
  exact (completableRhss_onlyGenerating g).useful_of_reaches word reach

theorem start_not_mem_generating (none : ∀ w, ¬ g.Generates w) : g.start ∉ g.generating := by
  intro mem
  have kind := hg.isNonterminal_of_mem g.start hg.start_mem
  obtain ⟨w, hw⟩ := (mem_generating_iff_exists_derivesWord kind).1 mem
  exact none w hw

/-- Without a word the start symbol has no rule left to reach another symbol by. -/
theorem mem_reachable_onlyGenerating_iff (none : ∀ w, ¬ g.Generates w) {x : Symbol} :
    x ∈ g.onlyGenerating.reachable ↔ x = g.start := by
  have cleared : g.onlyGenerating.rhss g.start = [] := by
    rw [rhss_onlyGenerating]
    exact if_neg (hg.start_not_mem_generating none)
  constructor
  · intro hx
    exact eq_start_of_reaches (g := g.onlyGenerating) cleared (reaches_of_mem_reachable hx)
  · rintro rfl
    exact start_mem_reachable g.onlyGenerating

/-- If there is no word, only the start symbol is left. -/
theorem onlyGenerating_onlyReachable_eq (none : ∀ w, ¬ g.Generates w) :
    g.onlyGenerating.onlyReachable = ofSymbols g.start ∅ ∅ := by
  apply hg.onlyGenerating.onlyReachable.eq_ofSymbols
  · intro x hx
    have reach := (hg.onlyGenerating.declares_onlyReachable.1 hx).2
    exact (hg.mem_reachable_onlyGenerating_iff none).1 reach
  · intro key
    have left := (Table.mem_keys_filterKeys.1 key).1
    exact hg.start_not_mem_generating none (mem_keys_onlyGenerating.1 left).2

end WellFormed

/-- Without the symbols that derive no word, and then without those that are not reachable, the
    language is the same.  Every non-terminal that is left occurs in the derivation of a word, a
    start symbol without a word apart, and every terminal that is left occurs in a word.  Of a
    grammar without a word nothing but the start symbol is left. -/
theorem onlyGenerating_onlyReachable_reduces (hg : g.Valid) :
    let h := g.onlyGenerating.onlyReachable
    (∀ w, h.Generates w ↔ g.Generates w) ∧
    (∀ A ∈ h.nonterminals, (A = h.start ∧ ∀ w, ¬ h.DerivesWord A w) ∨ h.Useful A) ∧
    (∀ a ∈ h.terminals, ∃ w, g.Generates w ∧ a ∈ word w) ∧
    ((∀ w, ¬ g.Generates w) → h = ofSymbols g.start ∅ ∅) := by
  intro h
  have wf := hg.wellFormed
  have language := wf.generates_onlyGenerating_onlyReachable_iff
  have empty := wf.onlyGenerating_onlyReachable_eq
  refine ⟨language, ?_, ?_, empty⟩
  · intro A hA
    by_cases some : ∃ w, g.Generates w
    · obtain ⟨w, hw⟩ := some
      exact Or.inr (wf.useful_onlyGenerating_onlyReachable hw (Or.inl hA))
    · have none := not_exists.1 some
      have reach := (wf.onlyGenerating.mem_nonterminals_onlyReachable.1 hA).2
      have same : A = h.start := (wf.mem_reachable_onlyGenerating_iff none).1 reach
      refine Or.inl ⟨same, ?_⟩
      intro w hw
      rw [same] at hw
      exact none w ((language w).1 hw)
  · intro a ha
    by_cases some : ∃ w, g.Generates w
    · obtain ⟨w, hw⟩ := some
      have useful := wf.useful_onlyGenerating_onlyReachable hw (Or.inr ha)
      have left := wf.onlyGenerating.onlyReachable
      obtain ⟨v, hv, mem⟩ := useful.exists_generates left.nonterminalLhss
        (left.isTerminal_of_mem a ha)
      exact ⟨v, (language v).1 hv, mem⟩
    · have none : a ∈ (ofSymbols g.start ∅ ∅).terminals := empty (not_exists.1 some) ▸ ha
      exact absurd none Std.ExtTreeSet.not_mem_empty

theorem onlyGenerating_onlyReachable_reduces_crowded :
    let h := crowded.onlyGenerating.onlyReachable
    (∀ w, h.Generates w ↔ crowded.Generates w) ∧
    (∀ A ∈ h.nonterminals, (A = h.start ∧ ∀ w, ¬ h.DerivesWord A w) ∨ h.Useful A) ∧
    (∀ a ∈ h.terminals, ∃ w, crowded.Generates w ∧ a ∈ word w) ∧
    ((∀ w, ¬ crowded.Generates w) → h = ofSymbols crowded.start ∅ ∅) :=
  onlyGenerating_onlyReachable_reduces valid_crowded

end ContextFree.Grammar
